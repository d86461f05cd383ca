import SgxLkl.Config.Objects
import SgxLkl.Config.Integers

/-!
# What is received

Integers lose the digits behind the sixteenth. `EnclaveConfig.Portable` are the configurations that
keep the limits of the reader.
-/

namespace SgxLkl.Config

open Json List

/-! ## What is received -/

def cutWord (x : Word) : Word := BitVec.ofNat 64 (cut x.toNat)

/-- An empty key is received as `NULL`. -/
def receivedKey (key : Option (List Byte)) : Option (List Byte) := if (key.getD []).isEmpty then none else key

def Root.received (root : Root) : Root :=
  { root with key := receivedKey root.key, roothashOffset := cutWord root.roothashOffset }

def Mount.received (mount : Mount) : Mount :=
  { mount with
    key := receivedKey mount.key
    roothashOffset := cutWord mount.roothashOffset
    size := cutWord mount.size }

def ImageSizes.received (sizes : ImageSizes) : ImageSizes :=
  ⟨cutWord sizes.numHeapPages, cutWord sizes.numStackPages⟩

def EnclaveConfig.received (config : EnclaveConfig) : EnclaveConfig :=
  { config with
    ethreads := cutWord config.ethreads
    maxUserThreads := cutWord config.maxUserThreads
    espins := cutWord config.espins
    esleep := cutWord config.esleep
    stacksize := cutWord config.stacksize
    oeHeapPagecount := cutWord config.oeHeapPagecount
    root := config.root.received
    mounts := config.mounts.map Mount.received
    imageSizes := config.imageSizes.received }

/-- A string that the writer and the reader agree about. -/
def Clean (s : Str) : Prop := ∀ t ∈ s, backslash ∉ t.chars

/-- The strings of a mount. -/
structure Mount.Plain (mount : Mount) : Prop where
  destination : backslash ∉ mount.destination.chars
  keyId : Clean mount.keyId
  roothash : Clean mount.roothash

/-- The mount arrives, up to its integers. -/
structure Mount.Portable (mount : Mount) : Prop extends mount.Plain where
  length : mount.destination.chars.length ≤ 255

/-- No string has a backslash, and there are no wireguard peers. -/
structure EnclaveConfig.Plain (config : EnclaveConfig) : Prop where
  netIp4 : Clean config.netIp4
  netGw4 : Clean config.netGw4
  netMask4 : Clean config.netMask4
  hostname : Clean config.hostname
  wgIp : Clean config.wg.ip
  wgKey : Clean config.wg.key
  wgPeers : config.wg.peers = []
  clockRes : ∀ i, backslash ∉ (config.clockRes i).chars
  kernelCmd : Clean config.kernelCmd
  sysctl : Clean config.sysctl
  cwd : Clean config.cwd
  args : ∀ s ∈ config.args, Clean s
  env : ∀ s ∈ config.env, Clean s
  hostImportEnv : ∀ s ∈ config.hostImportEnv, Clean s
  rootKeyId : Clean config.root.keyId
  rootRoothash : Clean config.root.roothash
  mounts : ∀ m ∈ config.mounts, m.Plain

/-- The settings other than integers arrive, and the reader accepts the limits. -/
structure EnclaveConfig.Portable (config : EnclaveConfig) : Prop extends config.Plain where
  destinations : ∀ m ∈ config.mounts, m.destination.chars.length ≤ 255
  clockLengths : ∀ i, (config.clockRes i).chars.length = 16
  elements : ∀ s ∈ config.args ++ config.env ++ config.hostImportEnv, s ≠ none
  numMounts : config.mounts.length < 2 ^ 64
  check : checkConfig config = true

/-! ## Values -/

theorem decodeString_strValue (x : Str) : decodeString (strValue x) = .ok x := by cases x <;> rfl

theorem clean_decimal (x : ℕ) :
    Clean (some ⟨(decimal x).take 16, fun h => (decimalString x).nul (List.mem_of_mem_take h)⟩) := by
  rintro _ ⟨⟩ h
  exact (plain_decimalString x backslash (mem_of_mem_take h)).2 rfl

theorem hexDigit_facts : ∀ b : Byte, hexValue (hexDigit (b >>> 4)) <<< 4 ||| hexValue (hexDigit (b &&& 0xf)) = b ∧
    hexDigit (b >>> 4) ≠ backslash ∧ hexDigit (b &&& 0xf) ≠ backslash := by
  decide

theorem clean_bytesToHex (buf : List Byte) : Clean (some ⟨bytesToHex buf, zero_not_mem_bytesToHex buf⟩) := by
  rintro _ ⟨⟩ h
  obtain ⟨b, -, hb⟩ := mem_flatMap.mp h
  rcases mem_pair.mp hb with hb | hb
  · exact (hexDigit_facts b).2.1 hb.symm
  · exact (hexDigit_facts b).2.2 hb.symm

theorem hexToBytes_bytesToHex (buf : List Byte) : hexToBytes (bytesToHex buf) = buf := by
  induction buf with
  | nil => rfl
  | cons b buf ih =>
    have hcons : bytesToHex (b :: buf) = hexDigit (b >>> 4) :: hexDigit (b &&& 0xf) :: bytesToHex buf := rfl
    rw [hcons, hexToBytes, ih, (hexDigit_facts b).1]

section

variable {m : ℕ} {k : Key}

theorem good_str {x : Str} (h : Clean x) : Good m (createJsonString k x) := (good_string k.name h).mono

@[simp] theorem good_bool (b : Bool) : Good m (encodeBoolean k b) := (good_boolean k.name b).mono

@[simp] theorem good_u64 (x : Word) : Good m (encodeUint64 k x) := good_str (clean_decimal _)

@[simp] theorem good_u32 (x : BitVec 32) : Good m (encodeUint32 k x) := good_str (clean_decimal _)

@[simp] theorem good_hex (x : Option (List Byte)) : Good m (encodeHexString k x) := good_str (clean_bytesToHex _)

end

section

variable (r : Reader) (cs : Crumbs) (cfg : EnclaveConfig) (s : Setting) {k : Key} (hcs : cs.names = s.keys.map Key.text)

include hcs

theorem storeVisitor_value (v : Value) :
    (storeVisitor r).value cs v cfg = store r (crumbIndex cs) (outerIndex cs) v cfg s := by
  simp only [storeVisitor, hcs, settingAt_eq]

theorem visit_str {x : Str} (hx : Clean x) {upd : Str → EnclaveConfig}
    (h : ∀ v, store r (crumbIndex cs) (outerIndex cs) v cfg s = (decodeString v).map upd) :
    (createJsonString k x).tree.doc.visit (storeVisitor r) cs cfg = .ok (upd x) := by
  rw [createJsonString, visit_string _ _ _ _ hx, storeVisitor_value r cs cfg s hcs, h, decodeString_strValue]
  rfl

theorem visit_bool {b : Bool} {upd : Bool → EnclaveConfig}
    (h : ∀ v, store r (crumbIndex cs) (outerIndex cs) v cfg s = (decodeBool v).map upd) :
    (encodeBoolean k b).tree.doc.visit (storeVisitor r) cs cfg = .ok (upd b) := by
  rw [encodeBoolean, visit_boolean, storeVisitor_value r cs cfg s hcs, h]
  rfl

theorem visit_u64 {x : Word} {upd : Word → EnclaveConfig}
    (h : ∀ v, store r (crumbIndex cs) (outerIndex cs) v cfg s = (r.decodeUint64 v).map upd) :
    (encodeUint64 k x).tree.doc.visit (storeVisitor r) cs cfg = .ok (upd (cutWord x)) := by
  rw [encodeUint64, encodeInt, createJsonString, visit_string _ _ _ _ (clean_decimal x.toNat),
    storeVisitor_value r cs cfg s hcs, h, strValue, decodeUint64_take r x.toNat _ rfl]
  rfl

theorem visit_u32 {x : BitVec 32} {upd : BitVec 32 → EnclaveConfig}
    (h : ∀ v, store r (crumbIndex cs) (outerIndex cs) v cfg s = (r.decodeUint32 v).map upd) :
    (encodeUint32 k x).tree.doc.visit (storeVisitor r) cs cfg = .ok (upd x) := by
  have hlt : x.toNat < 2 ^ 32 := x.isLt
  rw [encodeUint32, encodeInt, createJsonString, visit_string _ _ _ _ (clean_decimal x.toNat),
    storeVisitor_value r cs cfg s hcs, h, strValue, Reader.decodeUint32,
    decodeUint64_take r x.toNat _ rfl, cut_of_lt (by omega)]
  have hnat : (BitVec.ofNat 64 x.toNat).toNat = x.toNat := by rw [BitVec.toNat_ofNat]; omega
  simp only [Except.bind, hnat, if_neg (Nat.not_le.mpr hlt), Except.map]
  congr
  apply BitVec.eq_of_toNat_eq
  rw [BitVec.toNat_setWidth, hnat]
  omega

theorem visit_hex {x : Option (List Byte)} {upd : Option (List Byte) → EnclaveConfig}
    (h : ∀ v, store r (crumbIndex cs) (outerIndex cs) v cfg s = (decodeHex v).map upd) :
    (encodeHexString k x).tree.doc.visit (storeVisitor r) cs cfg = .ok (upd (receivedKey x)) := by
  have hkey : receivedKey x = if (bytesToHex (x.getD [])).isEmpty then none
      else some (hexToBytes (bytesToHex (x.getD []))) := by
    rw [hexToBytes_bytesToHex]
    rcases x with _ | ⟨_ | ⟨b, l⟩⟩ <;> rfl
  rw [encodeHexString, createJsonString, visit_string _ _ _ _ (clean_bytesToHex _),
    storeVisitor_value r cs cfg s hcs, h, hkey]
  rfl

end

theorem visit_objects {r : Reader} {key : Str} {os : List JsonObj} {cs : Crumbs} {cfg cfg' : EnclaveConfig}
    (h : Visits (storeVisitor r) cs os cfg cfg') :
    (JsonObj.objects key os).tree.doc.visit (storeVisitor r) cs cfg = .ok cfg' := by
  rw [JsonObj.tree, Json.Tree.doc, Doc.visit]
  exact h.visit

/-! ## The root disk -/

/-- `encode_root`, sorted. -/
def sortedRoot (root : Root) : JsonObj :=
  .objects Key.root.name
    [encodeHexString .key root.key, createJsonString .keyId root.keyId, encodeBoolean .overlay root.overlay,
      encodeBoolean .readonly root.readonly, createJsonString .roothash root.roothash,
      encodeUint64 .roothashOffset root.roothashOffset]

/-- The names of its members. -/
def rootKeys : List Key := [.key, .keyId, .overlay, .readonly, .roothash, .roothashOffset]

theorem sortJson_encodeRoot (root : Root) : sortJson (encodeRoot .root root) = some (sortedRoot root) :=
  sortJson_objects rootKeys [0, 1, 4, 5, 3, 2] rfl (by decide) rfl rfl (by decide)

variable {root : Root} {i : ℕ} {cfg : EnclaveConfig} {mount : Mount}

theorem visit_sortedRoot (r : Reader) (hkeyId : Clean root.keyId) (hroothash : Clean root.roothash)
    (cfg : EnclaveConfig) : (sortedRoot root).tree.doc.visit (storeVisitor r) [(Key.root.name, 0)] cfg =
      .ok { cfg with root := root.received } := by
  refine visit_objects <| .cons rfl (visit_hex r _ _ .rootKey rfl fun _ => rfl) ?_
  refine .cons rfl (visit_str r _ _ .rootKeyId rfl hkeyId fun _ => rfl) ?_
  refine .cons rfl (visit_bool r _ _ .rootOverlay rfl fun _ => rfl) ?_
  refine .cons rfl (visit_bool r _ _ .rootReadonly rfl fun _ => rfl) ?_
  refine .cons rfl (visit_str r _ _ .rootRoothash rfl hroothash fun _ => rfl) ?_
  exact .cons rfl (visit_u64 r _ _ .rootRoothashOffset rfl fun _ => rfl) (.nil _)

theorem good_sortedRoot (hkeyId : Clean root.keyId) (hroothash : Clean root.roothash) : Good 1 (sortedRoot root) := by
  refine good_objects rootKeys rfl ?_ (by decide) _
  simp [good_str, hkeyId, hroothash]

/-! ## The mounts -/

/-- `encode_mount`, sorted. -/
def sortedMount (mount : Mount) : JsonObj :=
  .objects none
    [encodeBoolean .create mount.create, createJsonString .destination mount.destination,
      encodeBoolean .freshKey mount.freshKey, encodeHexString .key mount.key, createJsonString .keyId mount.keyId,
      encodeBoolean .readonly mount.readonly, createJsonString .roothash mount.roothash,
      encodeUint64 .roothashOffset mount.roothashOffset, encodeUint64 .size mount.size]

/-- The names of its members. -/
def mountKeys : List Key :=
  [.create, .destination, .freshKey, .key, .keyId, .readonly, .roothash, .roothashOffset, .size]

theorem sortJson_encodeMount (mount : Mount) : sortJson (encodeMount mount) = some (sortedMount mount) :=
  sortJson_objects mountKeys [1, 3, 4, 2, 6, 7, 5, 0, 8] rfl (by decide) rfl rfl (by decide)

theorem storeMount_set {mounts : List Mount} (hi : i < mounts.length) {β : Type} (d : Except JsonResult β)
    (m : Mount) (upd : β → Mount → Mount) :
    storeMount (some i) { cfg with mounts := mounts.set i m } (fun m => d.map fun x => upd x m) =
      d.map fun x => { cfg with mounts := mounts.set i (upd x m) } := by
  rw [storeMount, storeAt, getElem?_set_self hi]
  cases d with
  | error e => rfl
  | ok x =>
    show Except.ok { cfg with mounts := (mounts.set i m).set i (upd x m) } = _
    rw [set_set]
    rfl

theorem visit_destination (r : Reader) {mounts : List Mount} (hi : i < mounts.length) {d : CString Byte}
    (hclean : backslash ∉ d.chars) (hle : d.chars.length ≤ 255) (m : Mount) :
    (createJsonString .destination d).tree.doc.visit (storeVisitor r) [(Key.destination.name, 0), (Key.mounts.name, i)]
      { cfg with mounts := mounts.set i m } = .ok { cfg with mounts := mounts.set i { m with destination := d } } := by
  have hstore : storeDestination (.string d) = fun m => (Except.ok d).map fun x => { m with destination := x } := by
    funext m
    rw [storeDestination, if_neg (Nat.not_lt.mpr hle)]
    rfl
  have hd : Clean (some d) := by rintro _ ⟨⟩; exact hclean
  rw [createJsonString, visit_string _ _ _ _ hd, storeVisitor_value r _ _ .mountDestination rfl]
  show storeMount (some i) _ (storeDestination (.string d)) = _
  rw [hstore, storeMount_set hi]
  rfl

theorem visit_sortedMount (r : Reader) (h : mount.Plain) (hle : mount.destination.chars.length ≤ 255)
    (hi : i < cfg.mounts.length) :
    (sortedMount mount).tree.doc.visit (storeVisitor r) [(Key.mounts.name, i)] cfg =
      .ok { cfg with mounts := cfg.mounts.set i mount.received } := by
  have hself : cfg = { cfg with mounts := cfg.mounts.set i cfg.mounts[i] } := by rw [set_getElem_self]
  conv_lhs => rw [hself]
  refine visit_objects <| .cons rfl (visit_bool r [_, (_, i)] _ .mountCreate rfl fun v =>
    storeMount_set hi (decodeBool v) _ fun x m => { m with create := x }) ?_
  refine .cons rfl (visit_destination r hi h.destination hle _) ?_
  refine .cons rfl (visit_bool r [_, (_, i)] _ .mountFreshKey rfl fun v =>
    storeMount_set hi (decodeBool v) _ fun x m => { m with freshKey := x }) ?_
  refine .cons rfl (visit_hex r [_, (_, i)] _ .mountKey rfl fun v =>
    storeMount_set hi (decodeHex v) _ fun x m => { m with key := x }) ?_
  refine .cons rfl (visit_str r [_, (_, i)] _ .mountKeyId rfl h.keyId fun v =>
    storeMount_set hi (decodeString v) _ fun x m => { m with keyId := x }) ?_
  refine .cons rfl (visit_bool r [_, (_, i)] _ .mountReadonly rfl fun v =>
    storeMount_set hi (decodeBool v) _ fun x m => { m with readonly := x }) ?_
  refine .cons rfl (visit_str r [_, (_, i)] _ .mountRoothash rfl h.roothash fun v =>
    storeMount_set hi (decodeString v) _ fun x m => { m with roothash := x }) ?_
  refine .cons rfl (visit_u64 r [_, (_, i)] _ .mountRoothashOffset rfl fun v =>
    storeMount_set hi (r.decodeUint64 v) _ fun x m => { m with roothashOffset := x }) ?_
  exact .cons rfl (visit_u64 r [_, (_, i)] _ .mountSize rfl fun v =>
    storeMount_set hi (r.decodeUint64 v) _ fun x m => { m with size := x }) (.nil _)

theorem good_sortedMount (h : mount.Plain) : Good 1 (sortedMount mount) := by
  have hdestination : Clean (some mount.destination) := by rintro _ ⟨⟩; exact h.destination
  refine good_objects mountKeys rfl ?_ (by decide) _
  simp [good_str, hdestination, h.keyId, h.roothash]

end SgxLkl.Config
