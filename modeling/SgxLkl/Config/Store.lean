import SgxLkl.Config.Format

/-!
# Which setting a path names

* **`readEnclaveConfig_eq`**: a text that passes the check is read as the visit says.
-/

namespace SgxLkl.Config

open Json List

/-! ## Names -/

def Setting.keys : Setting → List Key
  | .formatVersion => [.formatVersion]
  | .stacksize => [.stacksize]
  | .mmapFiles => [.mmapFiles]
  | .oeHeapPagecount => [.oeHeapPagecount]
  | .netIp4 => [.netIp4]
  | .netGw4 => [.netGw4]
  | .netMask4 => [.netMask4]
  | .hostname => [.hostname]
  | .tapMtu => [.tapMtu]
  | .hostnet => [.hostnet]
  | .wgIp => [.wg, .ip]
  | .wgListenPort => [.wg, .listenPort]
  | .wgKey => [.wg, .key]
  | .peerKey => [.wg, .peers, .key]
  | .peerAllowedIps => [.wg, .peers, .allowedIps]
  | .peerEndpoint => [.wg, .peers, .endpoint]
  | .maxUserThreads => [.maxUserThreads]
  | .ethreads => [.ethreads]
  | .espins => [.espins]
  | .esleep => [.esleep]
  | .clockRes => [.clockRes, .resolution]
  | .mode => [.mode]
  | .fsgsbase => [.fsgsbase]
  | .verbose => [.verbose]
  | .kernelVerbose => [.kernelVerbose]
  | .kernelCmd => [.kernelCmd]
  | .sysctl => [.sysctl]
  | .swiotlb => [.swiotlb]
  | .cwd => [.cwd]
  | .args => [.args]
  | .env => [.env]
  | .hostImportEnv => [.hostImportEnv]
  | .exitStatus => [.exitStatus]
  | .rootKey => [.root, .key]
  | .rootKeyId => [.root, .keyId]
  | .rootReadonly => [.root, .readonly]
  | .rootRoothash => [.root, .roothash]
  | .rootRoothashOffset => [.root, .roothashOffset]
  | .rootOverlay => [.root, .overlay]
  | .mountCreate => [.mounts, .create]
  | .mountFreshKey => [.mounts, .freshKey]
  | .mountKey => [.mounts, .key]
  | .mountKeyId => [.mounts, .keyId]
  | .mountDestination => [.mounts, .destination]
  | .mountReadonly => [.mounts, .readonly]
  | .mountRoothash => [.mounts, .roothash]
  | .mountRoothashOffset => [.mounts, .roothashOffset]
  | .mountSize => [.mounts, .size]
  | .numHeapPages => [.imageSizes, .numHeapPages]
  | .numStackPages => [.imageSizes, .numStackPages]
  | .ioConsole => [.io, .console]
  | .ioBlock => [.io, .block]
  | .ioNetwork => [.io, .network]

theorem split_pattern : ∀ s ∈ settings, split (bytes s.pattern) = s.keys.map Key.text := by decide +kernel

def arrayPatterns : List String := ["args", "env", "mounts", "host_import_env", "wg.peers", "clock_res"]

theorem Setting.keys_length : ∀ s ∈ settings, s.keys ≠ [] ∧ s.keys.length ≤ maxNesting := by decide

theorem Key.text_ne_hash (k : Key) : k.text ≠ bytes "#" := by
  intro h
  have hchars := k.isKeyChar_text
  rw [h] at hchars
  exact absurd hchars (by decide)

theorem settings_plain {s : Setting} (hs : s ∈ settings) : (∀ t ∈ split (bytes s.pattern), t ≠ bytes "#") ∧
    (split (bytes s.pattern)).length ≤ maxNesting := by
  rw [split_pattern s hs]
  refine ⟨fun t ht => ?_, by rw [length_map]; exact (s.keys_length hs).2⟩
  obtain ⟨k, -, rfl⟩ := mem_map.mp ht
  exact k.text_ne_hash

theorem arrayPatterns_plain : ∀ s ∈ arrayPatterns, (∀ t ∈ split (bytes s), t ≠ bytes "#") ∧
    (split (bytes s)).length ≤ maxNesting := by decide +kernel

/-! ## The visit -/

def crumbIndex : Crumbs → ℕ
  | [] => 0
  | c :: _ => c.2

def outerIndex : Crumbs → Option ℕ
  | _ :: c :: _ => some c.2
  | _ => none

def settingAt (names : List (List Byte)) : Option Setting :=
  settings.find? fun s => names = split (bytes s.pattern)

theorem settingAt_eq_some {names : List (List Byte)} {s : Setting} (h : settingAt names = some s) :
    s ∈ settings ∧ names = s.keys.map Key.text := by
  have hs : s ∈ settings := mem_of_find?_eq_some h
  have hnames : decide (names = split (bytes s.pattern)) = true :=
    find?_some (p := fun s : Setting => decide (names = split (bytes s.pattern))) h
  exact ⟨hs, (of_decide_eq_true hnames).trans (split_pattern s hs)⟩

theorem settingAt_keys (ks : List Key) : settingAt (ks.map Key.text) = settings.find? fun s => s.keys = ks := by
  refine find?_congr fun s hs => decide_eq_decide.mpr ?_
  rw [split_pattern s hs, eq_comm, map_inj_right fun k l => Key.text_injective k l]

theorem settingAt_eq (s : Setting) : settingAt (s.keys.map Key.text) = some s := by
  rw [settingAt_keys]
  cases s <;> rfl

def allocAt (names : List (List Byte)) (size : ℕ) (cfg : EnclaveConfig) : Except JsonResult EnclaveConfig :=
  if names = split (bytes "args") then .ok { cfg with args := .replicate size none }
  else if names = split (bytes "env") then .ok { cfg with env := .replicate size none }
  else if names = split (bytes "mounts") then .ok { cfg with mounts := .replicate size zeroMount }
  else if names = split (bytes "host_import_env") then .ok { cfg with hostImportEnv := .replicate size none }
  else if names = split (bytes "wg.peers") then
    .ok { cfg with wg := { cfg.wg with peers := .replicate size ⟨none, none, none⟩ } }
  else if names = split (bytes "clock_res") then .ok cfg
  else .error .failed

theorem split_arrayPatterns : split (bytes "args") = [Key.args].map Key.text ∧
    split (bytes "env") = [Key.env].map Key.text ∧ split (bytes "mounts") = [Key.mounts].map Key.text ∧
    split (bytes "host_import_env") = [Key.hostImportEnv].map Key.text ∧
    split (bytes "wg.peers") = [Key.wg, .peers].map Key.text ∧
    split (bytes "clock_res") = [Key.clockRes].map Key.text := by decide +kernel

theorem allocAt_keys (ks : List Key) (size : ℕ) (cfg : EnclaveConfig) : allocAt (ks.map Key.text) size cfg =
    if ks = [.args] then .ok { cfg with args := .replicate size none }
    else if ks = [.env] then .ok { cfg with env := .replicate size none }
    else if ks = [.mounts] then .ok { cfg with mounts := .replicate size zeroMount }
    else if ks = [.hostImportEnv] then .ok { cfg with hostImportEnv := .replicate size none }
    else if ks = [.wg, .peers] then
      .ok { cfg with wg := { cfg.wg with peers := .replicate size ⟨none, none, none⟩ } }
    else if ks = [.clockRes] then .ok cfg
    else .error .failed := by
  obtain ⟨hargs, henv, hmounts, hhost, hpeers, hclock⟩ := split_arrayPatterns
  unfold allocAt
  rw [hargs, henv, hmounts, hhost, hpeers, hclock]
  simp only [map_inj_right fun k l => Key.text_injective k l]

/-- What a visit stores if it meets no array that was not allocated. -/
def storeVisitor (r : Reader) : Visitor EnclaveConfig where
  value cs v cfg :=
    match settingAt cs.names with
    | some s => store r (crumbIndex cs) (outerIndex cs) v cfg s
    | none => .error .failed
  beginObject _ cfg := .ok cfg
  beginArray names size cfg := allocAt names size.toNat cfg
  endArray _ cfg := .ok cfg

/-- `arraysAt` in terms of names. -/
def kindsAt (names : List (List Byte)) : List ArrayKind :=
  [.args, .env, .hostImportEnv, .mounts, .peers].filter fun k => names = split (bytes k.pattern)

/-- What the callback does to the configuration and to the arrays. -/
def loadVisitor (r : Reader) : Visitor Loaded where
  value cs v b :=
    match settingAt cs.names with
    | some s => (storeLoaded r (crumbIndex cs) (outerIndex cs) v b s).map fun cfg => { b with config := cfg }
    | none => .error .failed
  beginObject _ b := .ok b
  beginArray names size b := (allocAt names size.toNat b.config).map fun cfg => ⟨cfg, kindsAt names ++ b.allocated⟩
  endArray _ b := .ok b

section

variable (r : Reader)

theorem matches_eq (p : Path) {pattern : String}
    (h : (∀ t ∈ split (bytes pattern), t ≠ bytes "#") ∧ (split (bytes pattern)).length ≤ maxNesting) :
    r.matches p pattern = decide ((p.crumbs p.depth).names = split (bytes pattern)) :=
  jsonMatch_isOk _ p h.1 h.2

theorem find_settings (p : Path) :
    (settings.find? fun s => r.matches p s.pattern) = settingAt (p.crumbs p.depth).names :=
  find?_congr fun _ hs => matches_eq r p (settings_plain hs)

theorem allocArray_eq (p : Path) (size : ℕ) (cfg : EnclaveConfig) :
    allocArray r p size cfg = allocAt (p.crumbs p.depth).names size cfg := by
  have h (pattern : String) (hp : pattern ∈ arrayPatterns) :
      (r.matches p pattern = true) = ((p.crumbs p.depth).names = split (bytes pattern)) := by
    rw [matches_eq r p (arrayPatterns_plain pattern hp), decide_eq_true_eq]
  unfold allocArray allocAt
  simp only [h "args" (by decide), h "env" (by decide), h "mounts" (by decide),
    h "host_import_env" (by decide), h "wg.peers" (by decide), h "clock_res" (by decide)]

theorem crumbs_index {p : Path} (h : p.depth ≠ 0) : crumbIndex (p.crumbs p.depth) = (p.node (p.depth - 1)).index ∧
      outerIndex (p.crumbs p.depth) = arrayIndex p := by
  unfold arrayIndex
  match hd : p.depth with
  | 0 => exact absurd hd h
  | 1 => exact ⟨rfl, rfl⟩
  | n + 2 => exact ⟨rfl, rfl⟩

theorem arraysAt_eq (p : Path) : arraysAt r p = kindsAt (p.crumbs p.depth).names := by
  refine filter_congr fun k hk => matches_eq r p (arrayPatterns_plain _ ?_)
  revert k
  decide

theorem storeValue_eq (p : Path) (v : Value) (b : Loaded) : ((storeValue r p v b).map fun cfg => { b with config := cfg }) =
    (loadVisitor r).value (p.crumbs p.depth) v b := by
  unfold storeValue loadVisitor
  rw [find_settings]
  dsimp only
  cases hs : settingAt (p.crumbs p.depth).names with
  | none => rfl
  | some s =>
    have hd : p.depth ≠ 0 := by
      intro hd
      obtain ⟨hmem, hnames⟩ := settingAt_eq_some hs
      rw [hd] at hnames
      exact (s.keys_length hmem).1 (map_eq_nil_iff.mp hnames.symm)
    rw [(crumbs_index hd).1, (crumbs_index hd).2]

theorem jsonReadCallback_follows (behind : List Byte) :
    Env.Follows ⟨jsonReadCallback r, !r.enforceFormat, behind⟩ ((formatVisitor r).prod (loadVisitor r)) where
  value p v d := by
    show (checkValue r (pathNames p) d.1).bind _ = both _ _
    rw [show pathNames p = (p.crumbs p.depth).names from (p.names_crumbs p.depth).symm]
    show (checkValue r (p.crumbs p.depth).names d.1).bind
      (fun pr => ((storeValue r p v d.2).map fun cfg => { d.2 with config := cfg }).map _) = _
    rw [storeValue_eq]
    rfl
  beginObject p d := by
    show (markPath r (pathNames p) d.1).bind _ = both _ _
    rw [show pathNames p = (p.crumbs p.depth).names from (p.names_crumbs p.depth).symm]
    rfl
  beginArray p n d := by
    show ((allocArray r p n.toNat d.2.config).map fun cfg => Loaded.mk cfg (arraysAt r p ++ d.2.allocated)).map
      (fun b => (d.1, b)) = _
    rw [allocArray_eq, arraysAt_eq]
    rfl
  endArray p v d := by
    show (markPath r (pathNames p) d.1).bind _ = both _ _
    rw [show pathNames p = (p.crumbs p.depth).names from (p.names_crumbs p.depth).symm]
    rfl
  name p v d := rfl
  endObject p v d := rfl

/-- An element that is stored is there. -/
theorem storeLoaded_of_store {i : ℕ} {j : Option ℕ} {v : Value} {b : Loaded} {s : Setting} {cfg : EnclaveConfig}
    (h : store r i j v b.config s = .ok cfg) : storeLoaded r i j v b s = .ok cfg := by
  rw [storeLoaded, if_neg, h]
  rintro ⟨hnull, rfl⟩
  have hnone {α : Type} {l : List α} {k : ArrayKind} (hl : (l.isEmpty && !b.allocated.contains k) = true) : l = [] :=
    isEmpty_iff.mp (Bool.and_eq_true _ _ ▸ hl).1
  cases s with
  | args | env | hostImportEnv =>
    obtain ⟨t, -, h⟩ := exceptBind_eq_ok.mp h
    rw [hnone hnull] at h
    cases h
  | peerKey =>
    rw [store, storePeer, hnone hnull] at h
    cases h
  | _ => cases hnull

theorem storeVisitor_simulates : (storeVisitor r).Simulates (loadVisitor r) fun cfg b => b.config = cfg where
  value hb h := by
    subst hb
    simp only [storeVisitor, loadVisitor] at h ⊢
    split at h
    · exact ⟨_, by rw [storeLoaded_of_store r h]; rfl, rfl⟩
    · cases h
  beginObject hb h := ⟨_, rfl, hb.trans (Except.ok.inj h)⟩
  beginArray hb h := by
    subst hb
    exact ⟨_, by simp only [loadVisitor]; rw [show allocAt _ _ _ = _ from h]; rfl, rfl⟩
  endArray hb h := ⟨_, rfl, hb.trans (Except.ok.inj h)⟩

/-- **A tree in order is read as the visit says.** -/
theorem readEnclaveConfig_eq {ms : Members} (hheight : ms.height < maxNesting)
    (hordered : OrderedMembers 1024 none ms) (hargs : bytes "args" ∈ (memberPaths [] ms).map dotted)
    {cfg : EnclaveConfig} (hstore : ms.docs.visit (storeVisitor r) [] enclaveConfigDefault = .ok cfg)
    (hcheck : checkConfig cfg = true) {text : CString Byte} (htext : text.chars = (Json.Tree.object ms).text)
    (behind : List Byte) : ∃ st, readEnclaveConfig r behind freshStatics text = some (cfg, st) := by
  have hordered' : Ordered 1024 (.object ms) := by rw [Ordered]; exact hordered
  obtain ⟨st, hformat, hlast⟩ := visit_format (r := r) (.object ms) hordered' [] (by decide)
    freshStatics (fun _ => ⟨by simp [freshStatics], .inr rfl⟩) (fun h => by cases h) []
  have hstore' : (Json.Tree.object ms).doc.visit (storeVisitor r) [] enclaveConfigDefault = .ok cfg := by
    rw [Json.Tree.doc, Doc.visit]
    exact hstore
  obtain ⟨b, hload, hb⟩ := Doc.visit_simulates (storeVisitor_simulates r) _ (e := ⟨enclaveConfigDefault, []⟩) rfl hstore'
  have hvisit := Doc.visit_prod _ hformat hload
  have hdeliver := Doc.deliver_visit (jsonReadCallback_follows r behind) (Json.Tree.object ms).doc
    ⟨0, fun _ => ⟨cstring [], 0, 0, 0⟩⟩ (⟨freshStatics, []⟩, ⟨enclaveConfigDefault, []⟩)
  rw [show (⟨0, fun _ => ⟨cstring [], 0, 0, 0⟩⟩ : Path).crumbs 0 = [] from rfl, hvisit] at hdeliver
  obtain ⟨q, hq, hnear⟩ := hdeliver
  have hparse := jsonParse_object ⟨jsonReadCallback r, !r.enforceFormat, behind⟩ ms hheight
    (⟨freshStatics, []⟩, ⟨enclaveConfigDefault, []⟩) []
  rw [append_nil, ← htext, hq] at hparse
  have hseen : checkRequiredElements
      (((valuePaths (Crumbs.names []) (.object ms)).map dotted).reverse ++ []) = true := by
    rw [checkRequiredElements, append_nil, contains_iff_mem, mem_reverse, valuePaths]
    exact hargs
  have hfree : ∃ last, st.lastPath.free = some last := by
    cases hl : st.lastPath with
    | null => exact ⟨_, rfl⟩
    | text l => exact ⟨_, rfl⟩
    | freed => exact absurd hl hlast.1
  obtain ⟨last, hfree⟩ := hfree
  refine ⟨⟨st.tmp, last⟩, ?_⟩
  rw [readEnclaveConfig, hparse]
  simp only [hnear.1, hfree, hseen, hb, hcheck, ne_eq, not_true_eq_false, if_false, if_true, Option.bind_some,
    Bool.true_eq_false, and_false]

end

end SgxLkl.Config
