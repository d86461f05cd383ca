import SgxLkl.Config.Model
import SgxLkl.Lib.ExchangeSort

/-!
# Writing the configuration

`serialize_enclave_config` builds a tree of objects, sorts their members by name, and prints the tree.
-/

namespace SgxLkl.Config

open Json

/-! ## Trees -/

/-- `json_obj_t`: a string, a boolean, an array or an object, with or without a name. -/
inductive JsonObj
  | string (key : Str) (value : Str)
  | boolean (key : Str) (value : Bool)
  | array (key : Str) (elems : List JsonObj)
  | objects (key : Str) (members : List JsonObj)

def JsonObj.key : JsonObj → Str
  | .string key _ => key
  | .boolean key _ => key
  | .array key _ => key
  | .objects key _ => key

/-! ## Values -/

def createJsonString (k : Key) (value : Str) : JsonObj := .string k.name value

def encodeBoolean (k : Key) (value : Bool) : JsonObj := .boolean k.name value

/-- `encode_int`: the buffer has room for sixteen characters. -/
def encodeInt (k : Key) (value : ℕ) : JsonObj :=
  createJsonString k (some
    ⟨(decimal value).take 16, fun h => (decimalString value).nul (List.mem_of_mem_take h)⟩)

def encodeUint32 (k : Key) (value : BitVec 32) : JsonObj := encodeInt k value.toNat

def encodeUint64 (k : Key) (value : Word) : JsonObj := encodeInt k value.toNat

def hexDigit (n : Byte) : Byte := if n < 10 then 0x30 + n else 0x61 + (n - 10)

def bytesToHex (buf : List Byte) : List Byte :=
  buf.flatMap fun b : Byte => [hexDigit (b >>> 4), hexDigit (b &&& 0xf)]

theorem hexDigit_ne_zero : ∀ b : Byte, hexDigit (b >>> 4) ≠ 0 ∧ hexDigit (b &&& 0xf) ≠ 0 := by
  decide

theorem zero_not_mem_bytesToHex (buf : List Byte) : (0 : Byte) ∉ bytesToHex buf := by
  intro h
  obtain ⟨b, -, hb⟩ := List.mem_flatMap.mp h
  rcases List.mem_pair.mp hb with h0 | h0
  · exact (hexDigit_ne_zero b).1 h0.symm
  · exact (hexDigit_ne_zero b).2 h0.symm

def encodeHexString (k : Key) (buf : Option (List Byte)) : JsonObj :=
  createJsonString k (some ⟨bytesToHex (buf.getD []), zero_not_mem_bytesToHex _⟩)

def encodeStringArray (k : Key) (strings : List Str) : JsonObj :=
  .array k.name (strings.map fun s => .string none s)

def encodeClockRes (k : Key) (clockRes : Fin 8 → CString Byte) : JsonObj :=
  .array k.name (List.ofFn fun i : Fin 8 => .objects none [createJsonString .resolution (clockRes i)])

def encodeRoot (k : Key) (root : Root) : JsonObj :=
  .objects k.name
    [encodeHexString .key root.key, createJsonString .keyId root.keyId,
      createJsonString .roothash root.roothash, encodeUint64 .roothashOffset root.roothashOffset,
      encodeBoolean .readonly root.readonly, encodeBoolean .overlay root.overlay]

def encodeMount (mount : Mount) : JsonObj :=
  .objects none
    [createJsonString .destination mount.destination, encodeHexString .key mount.key,
      createJsonString .keyId mount.keyId, encodeBoolean .freshKey mount.freshKey,
      createJsonString .roothash mount.roothash, encodeUint64 .roothashOffset mount.roothashOffset,
      encodeBoolean .readonly mount.readonly, encodeBoolean .create mount.create,
      encodeUint64 .size mount.size]

def encodeMounts (k : Key) (mounts : List Mount) : JsonObj := .array k.name (mounts.map encodeMount)

/-- `encode_wg_peers`. The peers are stored through `objects`, which is `NULL` in an array. -/
def encodeWgPeers (k : Key) (peers : List WgPeer) : Option JsonObj :=
  if peers.isEmpty then some (.array k.name []) else none

def encodeWg (k : Key) (wg : Wg) : Option JsonObj :=
  (encodeWgPeers .peers wg.peers).map fun peers =>
    .objects k.name
      [createJsonString .ip wg.ip, encodeUint32 .listenPort wg.listenPort, createJsonString .key wg.key,
        peers]

def encodeImageSizes (k : Key) (sizes : ImageSizes) : JsonObj :=
  .objects k.name
    [encodeUint64 .numHeapPages sizes.numHeapPages, encodeUint64 .numStackPages sizes.numStackPages]

def encodeIo (k : Key) (io : Io) : JsonObj :=
  .objects k.name
    [encodeBoolean .console io.console, encodeBoolean .block io.block, encodeBoolean .network io.network]

/-! ## Sorting and printing -/

/-- The comparison of `sort_json`, which fails without names. -/
def compareKeys (a b : JsonObj) : Option Ordering :=
  match a.key, b.key with
  | some k, some l => some (strcmp k.chars l.chars)
  | _, _ => none

theorem compareKeys_eq_some {a b : JsonObj} {o : Ordering} : compareKeys a b = some o ↔
    ∃ k l, a.key = some k ∧ b.key = some l ∧ strcmp k.chars l.chars = o := by
  unfold compareKeys
  cases a.key <;> cases b.key <;> simp

theorem compareKeys_trans (a b c : JsonObj) (hab : compareKeys a b = some .lt) (hbc : compareKeys b c = some .lt) :
    compareKeys a c = some .lt := by
  obtain ⟨k, l, hk, hl, hkl⟩ := compareKeys_eq_some.mp hab
  obtain ⟨l', m, hl', hm, hlm⟩ := compareKeys_eq_some.mp hbc
  cases hl.symm.trans hl'
  exact compareKeys_eq_some.mpr ⟨k, m, hk, hm, strcmp_lt_trans hkl hlm⟩

theorem compareKeys_swap (a b : JsonObj) : compareKeys b a = (compareKeys a b).map .swap := by
  unfold compareKeys
  cases a.key <;> cases b.key <;> simp [strcmp_swap]

mutual

def sortJson : JsonObj → Option JsonObj
  | .string key value => some (.string key value)
  | .boolean key value => some (.boolean key value)
  | .array key elems => (sortAll elems).map (.array key)
  | .objects key members => (sortAll members).bind fun ms => (exchangeSort compareKeys ms).map (.objects key)

def sortAll : List JsonObj → Option (List JsonObj)
  | [] => some []
  | o :: os => (sortJson o).bind fun o => (sortAll os).map (o :: ·)

end

def escapeQuotes (s : List Byte) : List Byte :=
  s.flatMap fun c => if c = quote then [backslash, quote] else [c]

def printKey : Str → List Byte
  | none => []
  | some k => quote :: (k.chars ++ [quote, colon])

mutual

def printJson : JsonObj → List Byte
  | .string key value => printKey key ++
    match value with
    | none => bytes "null"
    | some s => quote :: (escapeQuotes s.chars ++ [quote])
  | .boolean key value => printKey key ++ bytes (if value then "true" else "false")
  | .array key elems => printKey key ++ openBracket :: (printAll elems ++ [closeBracket])
  | .objects key members => printKey key ++ openBrace :: (printAll members ++ [closeBrace])

def printAll : List JsonObj → List Byte
  | [] => []
  | o :: os => printJson o ++ ((if os.isEmpty then [] else [comma]) ++ printAll os)

end

/-! ## The configuration -/

def rootObjects (config : EnclaveConfig) (wg : JsonObj) : List JsonObj :=
  [encodeUint64 .formatVersion formatVersion,
    createJsonString .mode config.mode.toString,
    encodeUint64 .stacksize config.stacksize,
    createJsonString .mmapFiles config.mmapFiles.toString,
    encodeUint64 .oeHeapPagecount config.oeHeapPagecount,
    createJsonString .netIp4 config.netIp4,
    createJsonString .netGw4 config.netGw4,
    createJsonString .netMask4 config.netMask4,
    createJsonString .hostname config.hostname,
    encodeUint32 .tapMtu config.tapMtu,
    encodeBoolean .hostnet config.hostnet,
    wg,
    encodeUint64 .maxUserThreads config.maxUserThreads,
    encodeUint64 .espins config.espins,
    encodeUint64 .esleep config.esleep,
    encodeUint64 .ethreads config.ethreads,
    encodeClockRes .clockRes config.clockRes,
    encodeBoolean .fsgsbase config.fsgsbase,
    encodeBoolean .verbose config.verbose,
    encodeBoolean .kernelVerbose config.kernelVerbose,
    createJsonString .kernelCmd config.kernelCmd,
    createJsonString .sysctl config.sysctl,
    encodeBoolean .swiotlb config.swiotlb,
    createJsonString .cwd config.cwd,
    encodeStringArray .args config.args,
    encodeStringArray .env config.env,
    encodeStringArray .hostImportEnv config.hostImportEnv,
    encodeRoot .root config.root,
    encodeMounts .mounts config.mounts,
    createJsonString .exitStatus config.exitStatus.toString,
    encodeImageSizes .imageSizes config.imageSizes,
    encodeIo .io config.io]

def serializeEnclaveConfig (config : EnclaveConfig) : Option (List Byte) :=
  (encodeWg .wg config.wg).bind fun wg => (sortJson (.objects none (rootObjects config wg))).map printJson

end SgxLkl.Config
