import SgxLkl.Config.Members

/-!
# Through the channel

A configuration is written by the host and read by the enclave.

* **`read_serialize`**: what arrives.
* **`integer_survives_iff`**: an integer setting arrives as it was sent exactly if it has at most sixteen
  digits.
-/

namespace SgxLkl.Config

open Json List Option

/-! ## The members of the root -/

/-- `serialize_enclave_config`, sorted. -/
def sortedObjects (config : EnclaveConfig) : List JsonObj :=
  [encodeStringArray .args config.args,
    encodeClockRes .clockRes config.clockRes,
    createJsonString .cwd config.cwd,
    encodeStringArray .env config.env,
    encodeUint64 .esleep config.esleep,
    encodeUint64 .espins config.espins,
    encodeUint64 .ethreads config.ethreads,
    createJsonString .exitStatus config.exitStatus.toString,
    encodeUint64 .formatVersion formatVersion,
    encodeBoolean .fsgsbase config.fsgsbase,
    encodeStringArray .hostImportEnv config.hostImportEnv,
    createJsonString .hostname config.hostname,
    encodeBoolean .hostnet config.hostnet,
    sortedSizes config.imageSizes,
    sortedIo config.io,
    createJsonString .kernelCmd config.kernelCmd,
    encodeBoolean .kernelVerbose config.kernelVerbose,
    encodeUint64 .maxUserThreads config.maxUserThreads,
    createJsonString .mmapFiles config.mmapFiles.toString,
    createJsonString .mode config.mode.toString,
    sortedMounts config.mounts,
    createJsonString .netGw4 config.netGw4,
    createJsonString .netIp4 config.netIp4,
    createJsonString .netMask4 config.netMask4,
    encodeUint64 .oeHeapPagecount config.oeHeapPagecount,
    sortedRoot config.root,
    encodeUint64 .stacksize config.stacksize,
    encodeBoolean .swiotlb config.swiotlb,
    createJsonString .sysctl config.sysctl,
    encodeUint32 .tapMtu config.tapMtu,
    encodeBoolean .verbose config.verbose,
    sortedWg config.wg]

/-- The names of these members. -/
def sortedKeys : List Key :=
  [.args, .clockRes, .cwd, .env, .esleep, .espins, .ethreads, .exitStatus, .formatVersion, .fsgsbase,
    .hostImportEnv, .hostname, .hostnet, .imageSizes, .io, .kernelCmd, .kernelVerbose, .maxUserThreads,
    .mmapFiles, .mode, .mounts, .netGw4, .netIp4, .netMask4, .oeHeapPagecount, .root, .stacksize, .swiotlb,
    .sysctl, .tapMtu, .verbose, .wg]

/-- Where the members stand in this order, as `serialize_enclave_config` writes them. -/
def writtenPlaces : List ℕ :=
  [8, 19, 26, 18, 24, 22, 21, 23, 11, 29, 12, 31, 17, 5, 4, 6, 1, 9, 30, 16, 15, 28, 27, 2, 0, 3, 10, 25, 20, 7, 13, 14]

theorem key_sortedObjects (config : EnclaveConfig) :
    (sortedObjects config).map JsonObj.key = sortedKeys.map fun k => some k.name := rfl

variable {config : EnclaveConfig} {k : Key}

theorem sortJson_rootObjects (h : config.wg.peers = []) :
    (encodeWg .wg config.wg).bind (fun wg => sortJson (.objects none (rootObjects config wg))) =
      some (.objects none (sortedObjects config)) := by
  obtain ⟨wg, hencode, hsort⟩ := bind_eq_some_iff.mp (sortJson_encodeWg h)
  have hstring (k : Key) (x : Str) : sortJson (createJsonString k x) = some (createJsonString k x) := rfl
  have hboolean (k : Key) (x : Bool) : sortJson (encodeBoolean k x) = some (encodeBoolean k x) := rfl
  have hint (k : Key) (x : ℕ) : sortJson (encodeInt k x) = some (encodeInt k x) := rfl
  have hall : sortAll (rootObjects config wg) = some (writtenPlaces.filterMap ((sortedObjects config)[·]?)) := by
    simp only [rootObjects, sortAll, hsort, hstring, hboolean, encodeUint64, encodeUint32, hint, sortJson_encodeRoot,
      sortJson_encodeMounts, sortJson_encodeImageSizes, sortJson_encodeIo, sortJson_encodeClockRes,
      sortJson_encodeStringArray, bind_some, map_some]
    rfl
  rw [hencode]
  exact sortJson_objects sortedKeys writtenPlaces hall (by decide) rfl (key_sortedObjects config) (by decide)

/-! ## What the reader makes of them -/

theorem visit_enum (r : Reader) (cs : Crumbs) (cfg : EnclaveConfig) (s : Setting)
    (hcs : cs.names = s.keys.map Key.text) {α : Type}
    {ofString : CString Byte → Option α} {t : CString Byte} {x : α} (ht : Clean (some t))
    (hx : ofString t = some x) {upd : α → EnclaveConfig}
    (h : ∀ v, store r (crumbIndex cs) (outerIndex cs) v cfg s = (decodeEnum ofString v).map upd) :
    (createJsonString k (some t)).tree.doc.visit (storeVisitor r) cs cfg = .ok (upd x) := by
  rw [createJsonString, visit_string _ _ _ _ ht, storeVisitor_value r cs cfg s hcs, h]
  have hdecode : decodeEnum ofString (strValue (some t)) = .ok x := by
    show (ofString t).elim (.error JsonResult.failed) .ok = Except.ok x
    rw [hx]
    rfl
  rw [hdecode]
  rfl

theorem Mode.clean_toString (m : Mode) : Clean (some m.toString) := by
  rintro _ ⟨⟩
  cases m <;> decide

theorem MmapFiles.clean_toString (m : MmapFiles) : Clean (some m.toString) := by
  rintro _ ⟨⟩
  cases m <;> decide

theorem ExitStatus.clean_toString (m : ExitStatus) : Clean (some m.toString) := by
  rintro _ ⟨⟩
  cases m <;> decide

theorem stringToMode_toString (m : Mode) : stringToMode m.toString = some m := by cases m <;> decide

theorem stringToMmapFiles_toString (m : MmapFiles) : stringToMmapFiles m.toString = some m := by
  cases m <;> decide

theorem stringToExitStatus_toString (m : ExitStatus) : stringToExitStatus m.toString = some m := by
  cases m <;> decide

theorem EnclaveConfig.Portable.lengths (h : config.Portable) :
    config.args.length < 2 ^ 64 ∧ config.env.length < 2 ^ 64 ∧ config.hostImportEnv.length < 2 ^ 64 := by
  have hcheck := h.check
  simp only [checkConfig, Bool.and_eq_true, decide_eq_true_eq] at hcheck
  omega

theorem visit_formatVersion (r : Reader) (cfg : EnclaveConfig) :
    (encodeUint64 .formatVersion formatVersion).tree.doc.visit (storeVisitor r) [(Key.formatVersion.name, 0)] cfg =
      .ok cfg := by
  have hversion : cut formatVersion.toNat = 1 := cut_of_lt (by decide)
  rw [encodeUint64, encodeInt, createJsonString, visit_string _ _ _ _ (clean_decimal _),
    storeVisitor_value r _ cfg .formatVersion rfl, strValue]
  show (r.decodeUint64 _).bind _ = _
  rw [decodeUint64_take r formatVersion.toNat _ rfl, hversion]
  rfl

theorem visit_sortedObjects (r : Reader) (h : config.Portable) (cfg : EnclaveConfig) :
    (memberTrees (sortedObjects config)).docs.visit (storeVisitor r) [] cfg = .ok config.received := by
  obtain ⟨hargs, henv, himport⟩ := h.lengths
  have hne : ∀ s ∈ config.args ++ config.env ++ config.hostImportEnv, s ≠ none := h.elements
  simp only [forall_mem_append] at hne
  refine Visits.visit _ _ <| .cons rfl (visit_stringArray r .args .args EnclaveConfig.args
    (fun l cfg => { cfg with args := l }) (fun _ _ => rfl) (fun _ _ _ => rfl) rfl (allocAt_keys [.args])
    (fun _ _ _ _ => rfl) h.args hne.1.1 hargs _) ?_
  refine .cons rfl (visit_encodeClockRes r h.clockRes h.clockLengths _) ?_
  refine .cons rfl (visit_str r _ _ .cwd rfl h.cwd fun _ => rfl) ?_
  refine .cons rfl (visit_stringArray r .env .env EnclaveConfig.env (fun l cfg => { cfg with env := l })
    (fun _ _ => rfl) (fun _ _ _ => rfl) rfl (allocAt_keys [.env]) (fun _ _ _ _ => rfl) h.env hne.1.2 henv _) ?_
  refine .cons rfl (visit_u64 r _ _ .esleep rfl fun _ => rfl) ?_
  refine .cons rfl (visit_u64 r _ _ .espins rfl fun _ => rfl) ?_
  refine .cons rfl (visit_u64 r _ _ .ethreads rfl fun _ => rfl) ?_
  refine .cons rfl (visit_enum r _ _ .exitStatus rfl config.exitStatus.clean_toString
    (stringToExitStatus_toString _) fun _ => rfl) ?_
  refine .cons rfl (visit_formatVersion r _) ?_
  refine .cons rfl (visit_bool r _ _ .fsgsbase rfl fun _ => rfl) ?_
  refine .cons rfl (visit_stringArray r .hostImportEnv .hostImportEnv EnclaveConfig.hostImportEnv
    (fun l cfg => { cfg with hostImportEnv := l }) (fun _ _ => rfl) (fun _ _ _ => rfl) rfl
    (allocAt_keys [.hostImportEnv]) (fun _ _ _ _ => rfl) h.hostImportEnv hne.2 himport _) ?_
  refine .cons rfl (visit_str r _ _ .hostname rfl h.hostname fun _ => rfl) ?_
  refine .cons rfl (visit_bool r _ _ .hostnet rfl fun _ => rfl) ?_
  refine .cons rfl (visit_sortedSizes r _ _) ?_
  refine .cons rfl (visit_sortedIo r _ _) ?_
  refine .cons rfl (visit_str r _ _ .kernelCmd rfl h.kernelCmd fun _ => rfl) ?_
  refine .cons rfl (visit_bool r _ _ .kernelVerbose rfl fun _ => rfl) ?_
  refine .cons rfl (visit_u64 r _ _ .maxUserThreads rfl fun _ => rfl) ?_
  refine .cons rfl (visit_enum r _ _ .mmapFiles rfl config.mmapFiles.clean_toString
    (stringToMmapFiles_toString _) fun _ => rfl) ?_
  refine .cons rfl (visit_enum r _ _ .mode rfl config.mode.clean_toString (stringToMode_toString _) fun _ => rfl) ?_
  refine .cons rfl (visit_sortedMounts r h.mounts h.destinations h.numMounts _) ?_
  refine .cons rfl (visit_str r _ _ .netGw4 rfl h.netGw4 fun _ => rfl) ?_
  refine .cons rfl (visit_str r _ _ .netIp4 rfl h.netIp4 fun _ => rfl) ?_
  refine .cons rfl (visit_str r _ _ .netMask4 rfl h.netMask4 fun _ => rfl) ?_
  refine .cons rfl (visit_u64 r _ _ .oeHeapPagecount rfl fun _ => rfl) ?_
  refine .cons rfl (visit_sortedRoot r h.rootKeyId h.rootRoothash _) ?_
  refine .cons rfl (visit_u64 r _ _ .stacksize rfl fun _ => rfl) ?_
  refine .cons rfl (visit_bool r _ _ .swiotlb rfl fun _ => rfl) ?_
  refine .cons rfl (visit_str r _ _ .sysctl rfl h.sysctl fun _ => rfl) ?_
  refine .cons rfl (visit_u32 r _ _ .tapMtu rfl fun _ => rfl) ?_
  refine .cons rfl (visit_bool r _ _ .verbose rfl fun _ => rfl) ?_
  exact .cons rfl (visit_sortedWg r h.wgIp h.wgKey h.wgPeers _) (.nil _)

theorem good_root (h : config.Plain) : Good 2 (.objects none (sortedObjects config)) := by
  refine good_objects sortedKeys (key_sortedObjects config) ?_ (by decide) none
  simp [sortedObjects, good_str, h.cwd, h.hostname, h.kernelCmd, h.netGw4, h.netIp4, h.netMask4, h.sysctl,
    config.mode.clean_toString, config.mmapFiles.clean_toString, config.exitStatus.clean_toString,
    (good_stringArray .args h.args).mono, (good_stringArray .env h.env).mono,
    (good_stringArray .hostImportEnv h.hostImportEnv).mono, good_encodeClockRes h.clockRes, good_sortedSizes,
    good_sortedIo, good_sortedMounts h.mounts, good_sortedRoot h.rootKeyId h.rootRoothash, good_sortedWg h.wgIp h.wgKey]

/-! ## The text -/

theorem zero_not_mem_printKey (key : Str) : (0 : Byte) ∉ printKey key := by
  cases key with
  | none => simp [printKey]
  | some k =>
    have hk : 0#8 ∉ k.chars := k.nul
    simp [printKey, hk]

mutual

theorem zero_not_mem_printJson (o : JsonObj) : (0 : Byte) ∉ printJson o := by
  cases o with
  | string key value =>
    cases value with
    | none =>
      rw [printJson, mem_append, not_or]
      exact ⟨zero_not_mem_printKey key, by decide⟩
    | some s =>
      have hs : 0#8 ∉ escapeQuotes s.chars := fun h => by
        rcases mem_escapeQuotes h with h | h
        · exact absurd h (by decide)
        · exact s.nul h
      rw [printJson, mem_append, not_or]
      exact ⟨zero_not_mem_printKey key, by simp [hs]⟩
  | boolean key b =>
    rw [printJson, mem_append, not_or]
    exact ⟨zero_not_mem_printKey key, by cases b <;> decide⟩
  | array key elems =>
    rw [printJson, mem_append, not_or]
    have helems : 0#8 ∉ printAll elems := zero_not_mem_printAll elems
    exact ⟨zero_not_mem_printKey key, by simp [helems]⟩
  | objects key members =>
    rw [printJson, mem_append, not_or]
    have hmembers : 0#8 ∉ printAll members := zero_not_mem_printAll members
    exact ⟨zero_not_mem_printKey key, by simp [hmembers]⟩

theorem zero_not_mem_printAll (os : List JsonObj) : (0 : Byte) ∉ printAll os := by
  cases os with
  | nil => rw [printAll]; exact not_mem_nil
  | cons o os =>
    rw [printAll, mem_append, mem_append, not_or, not_or]
    exact ⟨zero_not_mem_printJson o, by split_ifs <;> decide, zero_not_mem_printAll os⟩

end

theorem mem_memberPaths_args (h : config.args ≠ []) :
    bytes "args" ∈ (memberPaths [] (memberTrees (sortedObjects config))).map dotted := by
  obtain ⟨a, as, hargs⟩ := exists_cons_of_ne_nil h
  have helement : [Key.args.text] ∈ valuePaths [Key.args.text] (encodeStringArray .args config.args).tree := by
    rw [encodeStringArray, JsonObj.tree, hargs, valuePaths, map_cons, elementTrees, elementPaths]
    refine mem_append_left _ ?_
    cases a <;> rw [JsonObj.tree, valuePaths] <;> exact mem_singleton_self _
  refine mem_map.mpr ⟨[Key.args.text], ?_, rfl⟩
  rw [sortedObjects, memberTrees, memberPaths, show (encodeStringArray .args config.args).key = some Key.args.name from rfl,
    keyName_name]
  exact mem_append_left _ helement

theorem cutWord_of_lt {x : Word} (h : x.toNat < 10 ^ 16) : cutWord x = x := by
  rw [cutWord, cut_of_lt h, BitVec.ofNat_toNat, BitVec.setWidth_eq]

theorem checkConfig_received (h : checkConfig config = true) : checkConfig config.received = true := by
  simp only [checkConfig, Bool.and_eq_true, decide_eq_true_eq] at h ⊢
  have hethreads : config.received.ethreads = config.ethreads := cutWord_of_lt (by omega)
  have hthreads : config.received.maxUserThreads = config.maxUserThreads := cutWord_of_lt (by omega)
  rw [hethreads, hthreads]
  exact h

theorem serializeEnclaveConfig_text (h : config.Plain) : serializeEnclaveConfig config =
      some (Json.Tree.object (memberTrees (sortedObjects config))).text := by
  have hsort := sortJson_rootObjects h.wgPeers
  obtain ⟨wg, hwg, hsort⟩ := bind_eq_some_iff.mp hsort
  rw [serializeEnclaveConfig, hwg, bind_some, hsort, map_some, printJson_eq _ (good_root h).clean, JsonObj.tree]
  rfl

theorem height_root (h : config.Plain) :
    (memberTrees (sortedObjects config)).height < maxNesting := by
  have hle := (good_root h).height
  rw [JsonObj.tree, Json.Tree.height] at hle
  exact Nat.lt_of_lt_of_le (Nat.lt_of_succ_le hle) (by decide)

/-- **What arrives** of a configuration. -/
theorem read_serialize (r : Reader) (h : config.Portable) (behind : List Byte) :
    ∃ text st, serializeEnclaveConfig config = some text ∧
      readEnclaveConfig r behind freshStatics (cstring text) = some (config.received, st) := by
  have hserialize := serializeEnclaveConfig_text h.toPlain
  set os := sortedObjects config with hos
  have hvisit := visit_sortedObjects r h enclaveConfigDefault
  have hordered : OrderedMembers 1024 none (memberTrees os) := by
    have := (good_root h.toPlain).ordered 1024 (by decide)
    rwa [JsonObj.tree, Ordered] at this
  have hargs : config.args ≠ [] := by
    intro hnil
    have hcheck := h.check
    rw [checkConfig, hnil] at hcheck
    cases hcheck
  have htext : (cstring (Json.Tree.object (memberTrees os)).text).chars =
      (Json.Tree.object (memberTrees os)).text := by
    have hprint := printJson_eq _ (good_root h.toPlain).clean
    rw [JsonObj.tree] at hprint
    refine takeWhile_eq_self_iff.mpr fun c hc => ?_
    have hc' : c ∈ printJson (.objects none os) := hprint ▸ hc
    simpa using fun h0 : c = 0 => zero_not_mem_printJson _ (h0 ▸ hc')
  obtain ⟨st, hread⟩ := readEnclaveConfig_eq r (height_root h.toPlain) hordered (mem_memberPaths_args hargs) hvisit
    (checkConfig_received h.check) htext behind
  exact ⟨_, st, hserialize, hread⟩

/-! ## Integer settings -/

/-- The settings that are written by `encode_uint64` or `encode_uint32`. -/
inductive IntSetting where
  | tapMtu | listenPort
  | ethreads | maxUserThreads | espins | esleep | stacksize | oeHeapPagecount
  | numHeapPages | numStackPages
  | rootRoothashOffset
  | mountRoothashOffset (i : ℕ)
  | mountSize (i : ℕ)

/-- The value of a setting; a mount may not exist. -/
def EnclaveConfig.integer (config : EnclaveConfig) : IntSetting → Option ℕ
  | .tapMtu => some config.tapMtu.toNat
  | .listenPort => some config.wg.listenPort.toNat
  | .ethreads => some config.ethreads.toNat
  | .maxUserThreads => some config.maxUserThreads.toNat
  | .espins => some config.espins.toNat
  | .esleep => some config.esleep.toNat
  | .stacksize => some config.stacksize.toNat
  | .oeHeapPagecount => some config.oeHeapPagecount.toNat
  | .numHeapPages => some config.imageSizes.numHeapPages.toNat
  | .numStackPages => some config.imageSizes.numStackPages.toNat
  | .rootRoothashOffset => some config.root.roothashOffset.toNat
  | .mountRoothashOffset i => config.mounts[i]?.map fun m => m.roothashOffset.toNat
  | .mountSize i => config.mounts[i]?.map fun m => m.size.toNat

theorem toNat_cutWord (x : Word) : (cutWord x).toNat = cut x.toNat := by
  rw [cutWord, BitVec.toNat_ofNat, Nat.mod_eq_of_lt ((cut_lt _).trans (by decide))]

theorem cut_word32 (x : BitVec 32) : cut x.toNat = x.toNat :=
  cut_of_lt (x.isLt.trans (by decide))

theorem integer_received (config : EnclaveConfig) (s : IntSetting) :
    config.received.integer s = (config.integer s).map cut := by
  cases s with
  | tapMtu => exact congrArg some (cut_word32 config.tapMtu).symm
  | listenPort => exact congrArg some (cut_word32 config.wg.listenPort).symm
  | mountRoothashOffset i | mountSize i =>
    simp only [EnclaveConfig.integer, EnclaveConfig.received, getElem?_map, Option.map_map]
    exact congrArg (Option.map · config.mounts[i]?) (funext fun m => toNat_cutWord _)
  | _ => exact congrArg some (toNat_cutWord _)

/-- **An integer setting arrives as it was sent exactly if it has at most sixteen digits.** The buffer of
`encode_int` has room for sixteen and the terminator. -/
theorem integer_survives_iff (r : Reader) {config : EnclaveConfig} (h : config.Portable) (behind : List Byte) :
    ∃ text config' st, serializeEnclaveConfig config = some text ∧
      readEnclaveConfig r behind freshStatics (cstring text) = some (config', st) ∧
      ∀ s v, config.integer s = some v → (config'.integer s = some v ↔ v < 10 ^ 16) := by
  obtain ⟨text, st, hserialize, hread⟩ := read_serialize r h behind
  refine ⟨text, config.received, st, hserialize, hread, fun s v hv => ?_⟩
  rw [integer_received, hv, map_some, some_inj]
  exact cut_eq_self_iff

def sampleConfig (espins : Word) : EnclaveConfig :=
  { enclaveConfigDefault with args := [some (cstring (bytes "a"))], espins }

theorem portable_sampleConfig (espins : Word) : (sampleConfig espins).Portable where
  netIp4 := by rintro _ ⟨⟩; decide +kernel
  netGw4 := by rintro _ ⟨⟩; decide +kernel
  netMask4 := by rintro _ ⟨⟩; decide +kernel
  hostname := by rintro _ ⟨⟩; decide +kernel
  wgIp := by rintro _ ⟨⟩; decide +kernel
  wgKey := by rintro _ ⟨⟩
  wgPeers := rfl
  clockRes := by
    show ∀ i, backslash ∉ (enclaveConfigDefault.clockRes i).chars
    decide +kernel
  kernelCmd := by rintro _ ⟨⟩; decide +kernel
  sysctl := by rintro _ ⟨⟩
  cwd := by rintro _ ⟨⟩; decide +kernel
  args s hs := by
    rw [mem_singleton.mp hs]
    rintro _ ⟨⟩
    decide +kernel
  env _ hs := absurd hs not_mem_nil
  hostImportEnv _ hs := absurd hs not_mem_nil
  rootKeyId := by rintro _ ⟨⟩
  rootRoothash := by rintro _ ⟨⟩
  mounts _ hm := absurd hm not_mem_nil
  destinations _ hm := absurd hm not_mem_nil
  clockLengths := by
    show ∀ i, (enclaveConfigDefault.clockRes i).chars.length = 16
    decide +kernel
  elements _ hs := by
    rw [mem_singleton.mp hs]
    nofun
  numMounts := Nat.two_pow_pos 64
  check := rfl

theorem integer_survives_sampleConfig : ∃ text config' st, serializeEnclaveConfig (sampleConfig 500) = some text ∧
    readEnclaveConfig ⟨true, fun _ => 0⟩ [] freshStatics (cstring text) = some (config', st) ∧
    config'.integer .espins = some 500 := by
  obtain ⟨text, config', st, hserialize, hread, hiff⟩ :=
    integer_survives_iff ⟨true, fun _ => 0⟩ (portable_sampleConfig 500) []
  exact ⟨text, config', st, hserialize, hread, (hiff .espins 500 rfl).mpr (by decide)⟩

/-- Of the seventeen digits of 10¹⁶ the last is lost. -/
theorem espins_loses_digit : ∃ text config' st, serializeEnclaveConfig (sampleConfig (10 ^ 16)) = some text ∧
    readEnclaveConfig ⟨true, fun _ => 0⟩ [] freshStatics (cstring text) = some (config', st) ∧
    config'.espins = 10 ^ 15 := by
  obtain ⟨text, st, hserialize, hread⟩ :=
    read_serialize ⟨true, fun _ => 0⟩ (portable_sampleConfig (10 ^ 16)) []
  have hcut : cut (10 ^ 16) = 10 ^ 15 := by
    rw [cut, if_neg (by decide)]
    exact cut_of_lt (by decide)
  have hespins : cutWord (10 ^ 16) = 10 ^ 15 := BitVec.eq_of_toNat_eq ((toNat_cutWord _).trans hcut)
  exact ⟨text, _, st, hserialize, hread, hespins⟩

/-! ## Peers -/

def EnclaveConfig.noPeers (config : EnclaveConfig) : EnclaveConfig :=
  { config with wg := { config.wg with peers := [] } }

theorem noPeers_eq_self (h : config.wg.peers = []) : config.noPeers = config := by
  rw [EnclaveConfig.noPeers, ← h]

theorem serialize_peers (h : config.wg.peers ≠ []) : serializeEnclaveConfig config = none := by
  have hpeers : encodeWgPeers .peers config.wg.peers = none := by
    rw [encodeWgPeers, isEmpty_eq_false_iff.mpr h]
    rfl
  rw [serializeEnclaveConfig, encodeWg, hpeers]
  rfl

/-- **The peers arrive exactly if there are none.** -/
theorem peers_survive_iff (r : Reader) {config : EnclaveConfig} (h : config.noPeers.Portable) (behind : List Byte) :
    (∃ text config' st, serializeEnclaveConfig config = some text ∧
      readEnclaveConfig r behind freshStatics (cstring text) = some (config', st) ∧
      config'.wg.peers = config.wg.peers) ↔ config.wg.peers = [] := by
  constructor
  · rintro ⟨text, -, -, hserialize, -⟩
    by_contra hpeers
    rw [serialize_peers hpeers] at hserialize
    cases hserialize
  · intro hpeers
    rw [noPeers_eq_self hpeers] at h
    obtain ⟨text, st, hserialize, hread⟩ := read_serialize r h behind
    exact ⟨text, _, st, hserialize, hread, rfl⟩

theorem peers_survive_sampleConfig : ∃ text config' st, serializeEnclaveConfig (sampleConfig 500) = some text ∧
    readEnclaveConfig ⟨true, fun _ => 0⟩ [] freshStatics (cstring text) = some (config', st) ∧
    config'.wg.peers = [] := by
  have h : (sampleConfig 500).noPeers.Portable := portable_sampleConfig 500
  exact (peers_survive_iff ⟨true, fun _ => 0⟩ h []).mpr rfl

def peerConfig : EnclaveConfig :=
  { sampleConfig 500 with wg := { (sampleConfig 500).wg with
      peers := [⟨some (cstring (bytes "k")), some (cstring (bytes "10.0.2.1/32")),
        some (cstring (bytes "1.2.3.4:5"))⟩] } }

theorem peer_lost : peerConfig.noPeers.Portable ∧ serializeEnclaveConfig peerConfig = none :=
  ⟨portable_sampleConfig 500, serialize_peers (cons_ne_nil _ _)⟩

/-! ## Mounts -/

def mountConfig (args : List (CString Byte)) (mounts : List Mount) : EnclaveConfig :=
  { enclaveConfigDefault with args := args.map some, mounts }

variable {args : List (CString Byte)} {mounts : List Mount}

theorem portable_mountConfig (hne : args ≠ []) (hargs : args.length < 2 ^ 31)
    (hclean : ∀ s ∈ args, backslash ∉ s.chars) (hnum : mounts.length < 2 ^ 64) (hmounts : ∀ m ∈ mounts, m.Portable) :
    (mountConfig args mounts).Portable :=
  { portable_sampleConfig 500 with
    args := fun s hs => by
      obtain ⟨a, ha, rfl⟩ := mem_map.mp hs
      rintro _ ⟨⟩
      exact hclean a ha
    elements := fun s hs => by
      obtain ⟨a, -, rfl⟩ : ∃ a, a ∈ args ∧ some a = s := by simpa [mountConfig, enclaveConfigDefault] using hs
      nofun
    mounts := fun m hm => (hmounts m hm).toPlain
    destinations := fun m hm => (hmounts m hm).length
    numMounts := hnum
    check := by simpa [checkConfig, mountConfig, enclaveConfigDefault, hne] using hargs }

theorem getD_receivedKey (key : Option (List Byte)) : (receivedKey key).getD [] = key.getD [] := by
  unfold receivedKey
  split_ifs with h
  · exact (isEmpty_iff.mp h).symm
  · rfl

/-- **Every mount arrives in its place.** The reader asks for an argument. -/
theorem mounts_survive (r : Reader) (behind : List Byte) (args : List (CString Byte)) (mounts : List Mount)
    (hne : args ≠ []) (hargs : args.length < 2 ^ 31) (hclean : ∀ s ∈ args, backslash ∉ s.chars)
    (hnum : mounts.length < 2 ^ 64)
    (hmounts : ∀ m ∈ mounts, m.Portable ∧ m.roothashOffset.toNat < 10 ^ 16 ∧ m.size.toNat < 10 ^ 16) :
    ∃ text config' st, serializeEnclaveConfig (mountConfig args mounts) = some text ∧
      readEnclaveConfig r behind freshStatics (cstring text) = some (config', st) ∧
      config'.mounts.length = mounts.length ∧ ∀ (k : ℕ) (m : Mount), mounts[k]? = some m →
        ∃ key : Option (List Byte), config'.mounts[k]? = some { m with key := key } ∧ key.getD [] = m.key.getD [] := by
  have hportable := portable_mountConfig hne hargs hclean hnum fun m hm => (hmounts m hm).1
  obtain ⟨text, st, hserialize, hread⟩ := read_serialize r hportable behind
  refine ⟨text, _, st, hserialize, hread, length_map _, fun k m hk => ?_⟩
  obtain ⟨-, hoffset, hsize⟩ := hmounts m (mem_of_getElem? hk)
  refine ⟨receivedKey m.key, ?_, getD_receivedKey m.key⟩
  show (mounts.map Mount.received)[k]? = _
  rw [getElem?_map, hk, map_some, Mount.received, cutWord_of_lt hoffset, cutWord_of_lt hsize]

def sampleMount : Mount :=
  ⟨false, cstring (bytes "/mnt"), some [0x12, 0xab], none, false, true, some (cstring (bytes "00ff")), 4096, 0⟩

theorem mounts_survive_sampleMount : ∃ text config' st,
    serializeEnclaveConfig (mountConfig [cstring (bytes "a")] [sampleMount, sampleMount]) = some text ∧
    readEnclaveConfig ⟨true, fun _ => 0⟩ [] freshStatics (cstring text) = some (config', st) ∧
    config'.mounts.length = 2 := by
  have hportable : sampleMount.Portable := ⟨⟨by decide, by rintro _ ⟨⟩, by rintro _ ⟨⟩; decide⟩, by decide⟩
  obtain ⟨text, config', st, hserialize, hread, hlen, -⟩ := mounts_survive ⟨true, fun _ => 0⟩ []
    [cstring (bytes "a")] [sampleMount, sampleMount] (by simp) (by decide) (by decide) (by decide) fun m hm => by
      obtain rfl : m = sampleMount := by simpa using hm
      exact ⟨hportable, by decide, by decide⟩
  exact ⟨text, config', st, hserialize, hread, hlen⟩

/-- Without an argument no configuration is read. -/
theorem default_refused : (serializeEnclaveConfig (mountConfig [] [])).any (fun text =>
    (readEnclaveConfig ⟨true, fun _ => 0⟩ [] freshStatics (cstring text)).isNone) = true := by
  decide +kernel

end SgxLkl.Config
