import SgxLkl.Config.Received

/-!
# The other objects of the configuration

How the reader visits each member of the configuration, the arrays element by element.
-/

namespace SgxLkl.Config

open Json List Option Function

/-! ## Arrays -/

theorem visit_array (r : Reader) (key : Str) (os : List JsonObj) (cs : Crumbs) {cfg cfg' : EnclaveConfig}
    (hlen : os.length < 2 ^ 64) (halloc : allocAt cs.names os.length cfg = .ok cfg') :
    (JsonObj.array key os).tree.doc.visit (storeVisitor r) cs cfg =
      ((elementTrees os).docs.visit (storeVisitor r) 0 cs cfg').mapError fun _ => .badSyntax := by
  have hlength : (elementTrees os).docs.length = os.length := by
    clear halloc hlen
    induction os with
    | nil => rfl
    | cons o os ih => rw [elementTrees, Trees.docs, Docs.length, ih, length_cons]
  have hsize : (BitVec.ofNat 64 os.length).toNat = os.length := by
    rw [BitVec.toNat_ofNat, Nat.mod_eq_of_lt hlen]
  rw [JsonObj.tree, Json.Tree.doc, Doc.visit, hlength]
  show (allocAt cs.names (BitVec.ofNat 64 os.length).toNat cfg).bind _ = _
  rw [hsize, halloc]
  show (((elementTrees os).docs.visit (storeVisitor r) 0 cs cfg').mapError _).bind .ok = _
  cases (elementTrees os).docs.visit (storeVisitor r) 0 cs cfg' <;> rfl

section

variable {α : Type} {get : EnclaveConfig → List α} {set : List α → EnclaveConfig → EnclaveConfig}
  (hget : ∀ l cfg, get (set l cfg) = l) (hset : ∀ l l' cfg, set l (set l' cfg) = set l cfg)

include hget hset

theorem foldl_set (as done rest : List α) (hrest : rest.length = as.length) (cfg : EnclaveConfig) {a : ℕ → α}
    (ha : ∀ i x, as[i]? = some x → a (done.length + i) = x) :
    (List.range' done.length as.length).foldl (fun cfg i => set ((get cfg).set i (a i)) cfg)
      (set (done ++ rest) cfg) = set (done ++ as) cfg := by
  induction as generalizing done rest with
  | nil =>
    rw [eq_nil_of_length_eq_zero hrest]
    rfl
  | cons x as ih =>
    obtain ⟨y, rest, rfl⟩ := exists_cons_of_length_eq_add_one hrest
    have hx := ha 0 x rfl
    have hih := ih (done ++ [x]) rest (by simpa using hrest) fun i z hz => by
      rw [length_append, length_singleton, Nat.add_assoc, Nat.add_comm 1]
      exact ha (i + 1) z hz
    rw [Nat.add_zero] at hx
    rw [length_append, length_singleton, append_assoc, append_assoc] at hih
    rw [length_cons, range'_succ, foldl_cons, hget, hset, hx, set_append_right _ _ (le_refl _), Nat.sub_self]
    exact hih

theorem visit_elements (r : Reader) (k : Key) {x : α} {os : List JsonObj} {as : List α}
    (hlen : os.length = as.length) (hlt : os.length < 2 ^ 64)
    (halloc : ∀ n cfg, allocAt [k.text] n cfg = .ok (set (.replicate n x) cfg))
    (h : ∀ (i : ℕ) (o : JsonObj) (a : α), os[i]? = some o → as[i]? = some a → ∀ cfg, i < (get cfg).length →
      o.tree.doc.visit (storeVisitor r) [(k.name, i)] cfg = .ok (set ((get cfg).set i a) cfg))
    (key : Str) (cfg : EnclaveConfig) :
    (JsonObj.array key os).tree.doc.visit (storeVisitor r) [(k.name, 0)] cfg = .ok (set as cfg) := by
  have helement : ∀ (i : ℕ) (o : JsonObj), os[i]? = some o → ∀ cfg, (get cfg).length = as.length →
      o.tree.doc.visit (storeVisitor r) (Crumbs.setIndex (0 + i) [(k.name, 0)]) cfg =
        .ok (set ((get cfg).set (0 + i) (as.getD (0 + i) x)) cfg) := by
    intro i o ho cfg hcfg
    have hi : i < as.length := hlen ▸ (List.getElem?_eq_some_iff.mp ho).1
    rw [Nat.zero_add, List.getD_eq_getElem _ _ hi]
    exact h i o _ ho (List.getElem?_eq_getElem hi) cfg (hcfg ▸ hi)
  have hvisit := visit_elementTrees (storeVisitor r) [(k.name, 0)] (set (.replicate os.length x) cfg)
    (fun cfg => (get cfg).length = as.length) (fun i cfg => set ((get cfg).set i (as.getD i x)) cfg) helement
    (fun i cfg hcfg => by rw [hget, length_set, hcfg]) (by rw [hget, length_replicate, hlen])
  rw [visit_array r key os [(k.name, 0)] hlt (halloc os.length cfg), hvisit, hlen]
  have hfold := foldl_set hget hset as [] (.replicate as.length x) length_replicate cfg
    (a := fun i => as.getD i x) fun i y hy => by
      simp [getD_eq_getElem?_getD, hy]
  exact congrArg (fun cfg => (Except.ok cfg).mapError fun _ => JsonResult.badSyntax) hfold

end

theorem storeString_eq {get : EnclaveConfig → List Str} {cfg : EnclaveConfig} {i : ℕ}
    (hi : i < (get cfg).length) (t : CString Byte) : storeAt (get cfg) i (fun _ => .ok (some t)) = .ok
    ((get cfg).set i (some t)) := by
  rw [storeAt, getElem?_eq_getElem hi]
  rfl

variable {strings : List Str} {mounts : List Mount} {clockRes : Fin 8 → CString Byte} {wg : Wg}

theorem visit_stringArray (r : Reader) (k : Key) (s : Setting) (get : EnclaveConfig → List Str)
    (set : List Str → EnclaveConfig → EnclaveConfig) (hget : ∀ l cfg, get (set l cfg) = l)
    (hset : ∀ l l' cfg, set l (set l' cfg) = set l cfg)
    (hs : s.keys = [k])
    (halloc : ∀ n cfg, allocAt [k.text] n cfg = .ok (set (.replicate n none) cfg))
    (hstore : ∀ i j v cfg, store r i j v cfg s = (decodeText v).bind fun t =>
      (storeAt (get cfg) i fun _ => .ok (some t)).map fun l => set l cfg) (h : ∀ s ∈ strings, Clean s)
    (hne : ∀ s ∈ strings, s ≠ none) (hlen : strings.length < 2 ^ 64) (cfg : EnclaveConfig) :
    (encodeStringArray k strings).tree.doc.visit (storeVisitor r) [(k.name, 0)] cfg = .ok (set strings cfg) := by
  refine visit_elements hget hset r k (length_map _) (by rwa [length_map]) halloc ?_ _ cfg
  intro i o a ho ha cfg hi
  rw [getElem?_map, ha] at ho
  obtain rfl := some.inj ho
  obtain ⟨t, rfl⟩ := ne_none_iff_exists'.mp (hne a (mem_of_getElem? ha))
  rw [visit_string _ _ _ _ (h _ (mem_of_getElem? ha)), storeVisitor_value r _ cfg s (by rw [hs]; rfl), hstore]
  show (storeAt (get cfg) i fun _ => .ok (some t)).map _ = _
  rw [storeString_eq hi]
  rfl

theorem good_stringArray (k : Key) (h : ∀ s ∈ strings, Clean s) : Good 0 (encodeStringArray k strings) := by
  refine good_array (fun o ho => ?_) (.inr fun o ho => ?_) _ <;>
    obtain ⟨s, hs, rfl⟩ := mem_map.mp ho
  · exact ⟨rfl, good_string _ (h s hs)⟩
  · cases s <;> rfl

theorem sortJson_encodeStringArray (k : Key) (strings : List Str) :
    sortJson (encodeStringArray k strings) = some (encodeStringArray k strings) := by
  rw [encodeStringArray, sortJson, sortAll_eq (forall₂_same.mpr fun o ho => ?_)]
  · rfl
  · obtain ⟨s, -, rfl⟩ := mem_map.mp ho
    rw [sortJson]

def sortedMounts (mounts : List Mount) : JsonObj := .array Key.mounts.name (mounts.map sortedMount)

theorem sortJson_encodeMounts (mounts : List Mount) :
    sortJson (encodeMounts .mounts mounts) = some (sortedMounts mounts) := by
  have hall : sortAll (mounts.map encodeMount) = some (mounts.map sortedMount) := by
    refine sortAll_eq (forall₂_map_left_iff.mpr (forall₂_map_right_iff.mpr ?_))
    exact forall₂_same.mpr fun m _ => sortJson_encodeMount m
  rw [encodeMounts, sortJson, hall]
  rfl

theorem visit_sortedMounts (r : Reader) (h : ∀ m ∈ mounts, m.Plain)
    (hle : ∀ m ∈ mounts, m.destination.chars.length ≤ 255) (hlen : mounts.length < 2 ^ 64) (cfg : EnclaveConfig) :
    (sortedMounts mounts).tree.doc.visit (storeVisitor r) [(Key.mounts.name, 0)] cfg =
      .ok { cfg with mounts := mounts.map Mount.received } := by
  have hget (l : List Mount) (cfg : EnclaveConfig) : EnclaveConfig.mounts { cfg with mounts := l } = l := rfl
  have hset (l l' : List Mount) (cfg : EnclaveConfig) :
      ({ ({ cfg with mounts := l' } : EnclaveConfig) with mounts := l } : EnclaveConfig) =
        { cfg with mounts := l } := rfl
  refine visit_elements hget hset r .mounts (x := zeroMount) (by simp) (by simpa using hlen)
    (fun n cfg => ?_) (fun i o a ho ha cfg hi => ?_) _ cfg
  · exact allocAt_keys [.mounts] n cfg
  · rw [getElem?_map] at ho ha
    obtain ⟨m, hm, rfl⟩ := map_eq_some_iff.mp ho
    rw [hm] at ha
    obtain rfl := some.inj ha
    exact visit_sortedMount r (h m (mem_of_getElem? hm)) (hle m (mem_of_getElem? hm)) hi

theorem good_sortedMounts (h : ∀ m ∈ mounts, m.Plain) : Good 1 (sortedMounts mounts) := by
  refine good_array (fun o ho => ?_) (.inl fun o ho => ?_) _ <;>
    obtain ⟨m, hm, rfl⟩ := mem_map.mp ho
  · exact ⟨rfl, good_sortedMount (h m hm)⟩
  · rfl

/-! ## The clocks -/

def clockObject (s : CString Byte) : JsonObj := .objects none [createJsonString .resolution s]

theorem visit_clockObject (r : Reader) {s : CString Byte} (hs : backslash ∉ s.chars) (hlen : s.chars.length = 16)
    (i : Fin 8) (cfg : EnclaveConfig) : (clockObject s).tree.doc.visit (storeVisitor r) [(Key.clockRes.name, i)] cfg =
      .ok { cfg with clockRes := update cfg.clockRes i s } := by
  have hclean : Clean (some s) := by
    rintro _ ⟨⟩
    exact hs
  refine visit_objects <| .cons (k := .resolution) rfl ?_ (.nil _)
  rw [createJsonString, visit_string _ _ _ _ hclean, storeVisitor_value r _ cfg .clockRes rfl]
  show storeClockRes (some i) (.string s) cfg = _
  simp only [storeClockRes, decodeText, Except.bind, hlen, ne_eq, not_true_eq_false, if_false, i.isLt, dite_true]

theorem sortJson_encodeClockRes (clockRes : Fin 8 → CString Byte) :
    sortJson (encodeClockRes .clockRes clockRes) = some (encodeClockRes .clockRes clockRes) := by
  rw [encodeClockRes, sortJson, sortAll_eq (forall₂_same.mpr fun o ho => ?_)]
  · rfl
  · obtain ⟨i, rfl⟩ := mem_ofFn.mp ho
    rfl

def putClock (clockRes : Fin 8 → CString Byte) (i : ℕ) (cfg : EnclaveConfig) : EnclaveConfig :=
  if hi : i < 8 then { cfg with clockRes := update cfg.clockRes ⟨i, hi⟩ (clockRes ⟨i, hi⟩) } else cfg

theorem foldl_putClock (clockRes : Fin 8 → CString Byte) (cfg : EnclaveConfig) {n : ℕ} (hn : n ≤ 8) :
    (List.range n).foldl (fun cfg i => putClock clockRes i cfg) cfg =
      { cfg with clockRes := fun i => if i.val < n then clockRes i else cfg.clockRes i } := by
  induction n with
  | zero => rfl
  | succ n ih =>
    have hlt : n < 8 := hn
    have hupdate : update (fun i : Fin 8 => if i.val < n then clockRes i else cfg.clockRes i)
        ⟨n, hlt⟩ (clockRes ⟨n, hlt⟩) = fun i => if i.val < n + 1 then clockRes i else cfg.clockRes i := by
      funext i
      rw [update_apply]
      by_cases hi : i = ⟨n, hlt⟩
      · rw [if_pos hi, hi, if_pos (Nat.lt_succ_self n)]
      · have hne : i.val ≠ n := fun h => hi (Fin.ext h)
        rw [if_neg hi]
        split_ifs <;> first | rfl | omega
    rw [range_succ, foldl_append, ih (Nat.le_of_succ_le hn), foldl_cons, foldl_nil, putClock, dif_pos hlt]
    simp only [hupdate]

theorem visit_encodeClockRes (r : Reader) (h : ∀ i, backslash ∉ (clockRes i).chars)
    (hlen : ∀ i, (clockRes i).chars.length = 16) (cfg : EnclaveConfig) :
    (encodeClockRes .clockRes clockRes).tree.doc.visit (storeVisitor r) [(Key.clockRes.name, 0)] cfg =
      .ok { cfg with clockRes := clockRes } := by
  have halloc : allocAt [Key.clockRes.text] 8 cfg = .ok cfg := allocAt_keys [.clockRes] 8 cfg
  have helement : ∀ (i : ℕ) (o : JsonObj), (ofFn fun i => clockObject (clockRes i))[i]? = some o →
      ∀ cfg, True → o.tree.doc.visit (storeVisitor r) (Crumbs.setIndex (0 + i) [(Key.clockRes.name, 0)]) cfg =
        .ok (putClock clockRes (0 + i) cfg) := by
    intro i o ho cfg _
    rw [List.getElem?_ofFn] at ho
    split_ifs at ho with hi
    obtain rfl := some.inj ho
    rw [Nat.zero_add, putClock, dif_pos hi]
    exact visit_clockObject r (h ⟨i, hi⟩) (hlen ⟨i, hi⟩) ⟨i, hi⟩ cfg
  have hvisit := visit_elementTrees (storeVisitor r) [(Key.clockRes.name, 0)] cfg (fun _ => True)
    (putClock clockRes) helement
    (fun _ _ _ => trivial) trivial
  rw [encodeClockRes, visit_array r _ _ _ (by rw [length_ofFn]; decide) (by rw [length_ofFn]; exact halloc)]
  rw [show (ofFn fun i : Fin 8 => JsonObj.objects none [createJsonString .resolution (clockRes i)]) =
    ofFn fun i => clockObject (clockRes i) from rfl, hvisit, length_ofFn, ← range_eq_range',
    foldl_putClock clockRes cfg le_rfl]
  simp only [Fin.is_lt, if_true]
  rfl

theorem good_encodeClockRes (h : ∀ i, backslash ∉ (clockRes i).chars) :
    Good 1 (encodeClockRes .clockRes clockRes) := by
  refine good_array (fun o ho => ?_) (.inl fun o ho => ?_) _ <;>
    obtain ⟨i, rfl⟩ := mem_ofFn.mp ho
  · have hclean : Clean (some (clockRes i)) := by rintro _ ⟨⟩; exact h i
    exact ⟨rfl, good_objects [.resolution] rfl (by simp [good_str, hclean]) (pairwise_singleton _ _) none⟩
  · rfl

/-! ## Wireguard, image sizes and devices -/

/-- `encode_wg`, sorted; there are no peers. -/
def sortedWg (wg : Wg) : JsonObj :=
  .objects Key.wg.name
    [createJsonString .ip wg.ip, createJsonString .key wg.key, encodeUint32 .listenPort wg.listenPort,
      .array Key.peers.name []]

theorem sortJson_encodeWg (h : wg.peers = []) : (encodeWg .wg wg).bind sortJson = some (sortedWg wg) := by
  rw [encodeWg, encodeWgPeers, h]
  show sortJson (.objects _ [createJsonString .ip wg.ip, encodeUint32 .listenPort wg.listenPort,
    createJsonString .key wg.key, .array Key.peers.name []]) = some (sortedWg wg)
  exact sortJson_objects [.ip, .key, .listenPort, .peers] [0, 2, 1, 3] rfl (by decide) rfl rfl (by decide)

theorem visit_sortedWg (r : Reader) (hip : Clean wg.ip) (hkey : Clean wg.key)
    (hpeers : wg.peers = []) (cfg : EnclaveConfig) :
    (sortedWg wg).tree.doc.visit (storeVisitor r) [(Key.wg.name, 0)] cfg = .ok { cfg with wg := wg } := by
  have hwg : wg = { wg with peers := [] } := by rw [← hpeers]
  conv_rhs => rw [hwg]
  refine visit_objects <| .cons rfl (visit_str r _ _ .wgIp rfl hip fun _ => rfl) ?_
  refine .cons rfl (visit_str r _ _ .wgKey rfl hkey fun _ => rfl) ?_
  refine .cons rfl (visit_u32 r _ _ .wgListenPort rfl fun _ => rfl) ?_
  exact .cons (k := .peers) rfl (visit_array r _ [] _ (by decide) (allocAt_keys [.wg, .peers] 0 _)) (.nil _)

theorem good_sortedWg (hip : Clean wg.ip) (hkey : Clean wg.key) : Good 1 (sortedWg wg) := by
  refine good_objects [.ip, .key, .listenPort, .peers] rfl ?_ (by decide) _
  simp [good_str, hip, hkey, good_array]

/-- `encode_image_sizes`, whose members are sorted. -/
def sortedSizes (sizes : ImageSizes) : JsonObj :=
  .objects Key.imageSizes.name
    [encodeUint64 .numHeapPages sizes.numHeapPages, encodeUint64 .numStackPages sizes.numStackPages]

/-- `encode_io`, sorted. -/
def sortedIo (io : Io) : JsonObj :=
  .objects Key.io.name
    [encodeBoolean .block io.block, encodeBoolean .console io.console, encodeBoolean .network io.network]

theorem sortJson_encodeImageSizes (sizes : ImageSizes) :
    sortJson (encodeImageSizes .imageSizes sizes) = some (sortedSizes sizes) :=
  sortJson_objects [.numHeapPages, .numStackPages] [0, 1] rfl (by decide) rfl rfl (by decide)

theorem sortJson_encodeIo (io : Io) : sortJson (encodeIo .io io) = some (sortedIo io) :=
  sortJson_objects [.block, .console, .network] [1, 0, 2] rfl (by decide) rfl rfl (by decide)

theorem visit_sortedSizes (r : Reader) (sizes : ImageSizes) (cfg : EnclaveConfig) :
    (sortedSizes sizes).tree.doc.visit (storeVisitor r) [(Key.imageSizes.name, 0)] cfg =
      .ok { cfg with imageSizes := sizes.received } := by
  refine visit_objects <| .cons rfl (visit_u64 r _ _ .numHeapPages rfl fun _ => rfl) ?_
  exact .cons rfl (visit_u64 r _ _ .numStackPages rfl fun _ => rfl) (.nil _)

theorem visit_sortedIo (r : Reader) (io : Io) (cfg : EnclaveConfig) :
    (sortedIo io).tree.doc.visit (storeVisitor r) [(Key.io.name, 0)] cfg = .ok { cfg with io := io } := by
  refine visit_objects <| .cons rfl (visit_bool r _ _ .ioBlock rfl fun _ => rfl) ?_
  refine .cons rfl (visit_bool r _ _ .ioConsole rfl fun _ => rfl) ?_
  exact .cons rfl (visit_bool r _ _ .ioNetwork rfl fun _ => rfl) (.nil _)

theorem good_sortedSizes (sizes : ImageSizes) : Good 1 (sortedSizes sizes) :=
  good_objects [.numHeapPages, .numStackPages] rfl (by simp) (by decide) _

theorem good_sortedIo (io : Io) : Good 1 (sortedIo io) :=
  good_objects [.block, .console, .network] rfl (by simp) (by decide) _

end SgxLkl.Config
