import SgxLkl.Config.Model

/-!
# Reading the configuration

`json_read_callback` compares the path of every value with one pattern after the other. With
`enforce_format` it also checks that the paths come in order.
-/

namespace SgxLkl.Config

open Json

/-! ## Numbers -/

/-- `json_conversion_error` after `_strtoul`. -/
def conversionError (allowWhitespace : Bool) (text : List Byte) : Option JsonResult :=
  if allowWhitespace = false ∧ text.head?.any isSpace then some .badSyntax
  else if (strtolDigits 0 (readSign (text.dropWhile isSpace)).2).1 then some .outOfBounds
  else none

/-- `_strtoul`, and the error it leaves behind. -/
def strtoul (allowWhitespace : Bool) (text : List Byte) : Except JsonResult Word :=
  match conversionError allowWhitespace text with
  | some e => .error e
  | none => .ok (strtol allowWhitespace text).1

/-- How a text is read: `enforce_format`, and the conversion of a `double` to an integer. A failure of the
program is an error here, as the caller fails on every error. -/
structure Reader where
  enforceFormat : Bool
  ofReal : Json.Real → Word

def decodeSafeUint64 : Value → Except JsonResult Word
  | .null => .error .badParameter
  | .string s =>
    if 1 < s.chars.length ∧ s.chars.head?.any (fun c => c ≤ 0x30 || 0x39 < c) then .error .failed
    else strtoul false s.chars
  | _ => .error .failed

def decodeAnyUint64 (ofReal : Json.Real → Word) : Value → Except JsonResult Word
  | .string s => strtoul true s.chars
  | .integer x => .ok x
  | .real x => .ok (ofReal x)
  | .null => .ok 0
  | .boolean _ => .error .unknownValue

def Reader.decodeUint64 (r : Reader) (v : Value) : Except JsonResult Word :=
  if r.enforceFormat then decodeSafeUint64 v else decodeAnyUint64 r.ofReal v

def Reader.decodeUint32 (r : Reader) (v : Value) : Except JsonResult (BitVec 32) :=
  (r.decodeUint64 v).bind fun x => if 2 ^ 32 ≤ x.toNat then .error .outOfBounds else .ok (x.setWidth 32)

/-! ## Other values -/

/-- `JSTRING`. -/
def decodeString : Value → Except JsonResult Str
  | .string s => .ok (some s)
  | .null => .ok none
  | _ => .error .failed

/-- `JPATHT` with a string. -/
def decodeText : Value → Except JsonResult (CString Byte)
  | .string s => .ok s
  | _ => .error .failed

/-- `JBOOL`. -/
def decodeBool : Value → Except JsonResult Bool
  | .boolean b => .ok b
  | _ => .error .failed

/-- One round of `hex_to_int`, which passes over other characters. -/
def hexValue (c : Byte) : Byte :=
  if 0x30 ≤ c ∧ c ≤ 0x39 then c - 0x30
  else if 0x61 ≤ c ∧ c ≤ 0x66 then 0xa + (c - 0x61)
  else if 0x41 ≤ c ∧ c ≤ 0x46 then 0xa + (c - 0x41)
  else 0

/-- The loop of `JHEXBUF`. -/
def hexToBytes : List Byte → List Byte
  | a :: b :: l => (hexValue a <<< 4 ||| hexValue b) :: hexToBytes l
  | _ => []

/-- `JHEXBUF`. -/
def decodeHex : Value → Except JsonResult (Option (List Byte))
  | .string s => .ok (if s.chars.isEmpty then none else some (hexToBytes s.chars))
  | .null => .error .unknownValue
  | _ => .error .failed

def decodeEnum {α : Type} (ofString : CString Byte → Option α) (v : Value) : Except JsonResult α :=
  (decodeText v).bind fun s => (ofString s).elim (.error .failed) .ok

def storeAt {α : Type} (l : List α) (i : ℕ) (f : α → Except JsonResult α) : Except JsonResult (List α) :=
  match l[i]? with
  | some a => (f a).map (l.set i)
  | none => .error .fault

/-! ## Settings -/

inductive Setting
  | formatVersion | stacksize | mmapFiles | oeHeapPagecount | netIp4 | netGw4 | netMask4 | hostname | tapMtu
  | hostnet | wgIp | wgListenPort | wgKey | peerKey | peerAllowedIps | peerEndpoint | maxUserThreads
  | ethreads | espins | esleep | clockRes | mode | fsgsbase | verbose | kernelVerbose | kernelCmd | sysctl | swiotlb
  | cwd | args | env | hostImportEnv | exitStatus | rootKey | rootKeyId | rootReadonly | rootRoothash
  | rootRoothashOffset | rootOverlay | mountCreate | mountFreshKey | mountKey | mountKeyId | mountDestination
  | mountReadonly | mountRoothash | mountRoothashOffset | mountSize | numHeapPages | numStackPages | ioConsole
  | ioBlock | ioNetwork
  deriving DecidableEq

def Setting.pattern : Setting → String
  | .formatVersion => "format_version"
  | .stacksize => "stacksize"
  | .mmapFiles => "mmap_files"
  | .oeHeapPagecount => "oe_heap_pagecount"
  | .netIp4 => "net_ip4"
  | .netGw4 => "net_gw4"
  | .netMask4 => "net_mask4"
  | .hostname => "hostname"
  | .tapMtu => "tap_mtu"
  | .hostnet => "hostnet"
  | .wgIp => "wg.ip"
  | .wgListenPort => "wg.listen_port"
  | .wgKey => "wg.key"
  | .peerKey => "wg.peers.key"
  | .peerAllowedIps => "wg.peers.allowed_ips"
  | .peerEndpoint => "wg.peers.endpoint"
  | .maxUserThreads => "max_user_threads"
  | .ethreads => "ethreads"
  | .espins => "espins"
  | .esleep => "esleep"
  | .clockRes => "clock_res.resolution"
  | .mode => "mode"
  | .fsgsbase => "fsgsbase"
  | .verbose => "verbose"
  | .kernelVerbose => "kernel_verbose"
  | .kernelCmd => "kernel_cmd"
  | .sysctl => "sysctl"
  | .swiotlb => "swiotlb"
  | .cwd => "cwd"
  | .args => "args"
  | .env => "env"
  | .hostImportEnv => "host_import_env"
  | .exitStatus => "exit_status"
  | .rootKey => "root.key"
  | .rootKeyId => "root.key_id"
  | .rootReadonly => "root.readonly"
  | .rootRoothash => "root.roothash"
  | .rootRoothashOffset => "root.roothash_offset"
  | .rootOverlay => "root.overlay"
  | .mountCreate => "mounts.create"
  | .mountFreshKey => "mounts.fresh_key"
  | .mountKey => "mounts.key"
  | .mountKeyId => "mounts.key_id"
  | .mountDestination => "mounts.destination"
  | .mountReadonly => "mounts.readonly"
  | .mountRoothash => "mounts.roothash"
  | .mountRoothashOffset => "mounts.roothash_offset"
  | .mountSize => "mounts.size"
  | .numHeapPages => "image_sizes.num_heap_pages"
  | .numStackPages => "image_sizes.num_stack_pages"
  | .ioConsole => "io.console"
  | .ioBlock => "io.block"
  | .ioNetwork => "io.network"

def settings : List Setting :=
  [.formatVersion, .stacksize, .mmapFiles, .oeHeapPagecount, .netIp4, .netGw4, .netMask4, .hostname, .tapMtu,
    .hostnet, .wgIp, .wgListenPort, .wgKey, .peerKey, .peerAllowedIps, .peerEndpoint, .maxUserThreads,
    .ethreads, .espins, .esleep, .clockRes, .mode, .fsgsbase, .verbose, .kernelVerbose, .kernelCmd, .sysctl,
    .swiotlb, .cwd, .args, .env, .hostImportEnv, .exitStatus, .rootKey, .rootKeyId, .rootReadonly,
    .rootRoothash, .rootRoothashOffset, .rootOverlay, .mountCreate, .mountFreshKey, .mountKey, .mountKeyId,
    .mountDestination, .mountReadonly, .mountRoothash, .mountRoothashOffset, .mountSize, .numHeapPages,
    .numStackPages, .ioConsole, .ioBlock, .ioNetwork]

variable (r : Reader)

def storePeer (i : ℕ) (cfg : EnclaveConfig) (f : WgPeer → Except JsonResult WgPeer) :
    Except JsonResult EnclaveConfig :=
  (storeAt cfg.wg.peers i f).map fun ps => { cfg with wg := { cfg.wg with peers := ps } }

def storeMount (i : Option ℕ) (cfg : EnclaveConfig) (f : Mount → Except JsonResult Mount) :
    Except JsonResult EnclaveConfig :=
  match i with
  | none => .error .failed
  | some i => (storeAt cfg.mounts i f).map fun ms => { cfg with mounts := ms }

def storeClockRes (i : Option ℕ) (v : Value) (cfg : EnclaveConfig) : Except JsonResult EnclaveConfig :=
  (decodeText v).bind fun s =>
    if s.chars.length ≠ 16 then .error .failed
    else match i with
      | none => .error .failed
      | some i =>
        if h : i < 8 then .ok { cfg with clockRes := Function.update cfg.clockRes ⟨i, h⟩ s }
        else .error .failed

/-- `mounts[i].destination`; its type is not checked. -/
def storeDestination (v : Value) (m : Mount) : Except JsonResult Mount :=
  match v with
  | .string s => if 255 < s.chars.length then .error .failed else .ok { m with destination := s }
  | _ => .error .fault

/-- What a value does to the configuration; `i` is the index of the last node of the path, `j` is
`json_get_array_index`. -/
def store (i : ℕ) (j : Option ℕ) (v : Value) (cfg : EnclaveConfig) : Setting → Except JsonResult EnclaveConfig
  | .formatVersion => (r.decodeUint64 v).bind fun x => if x ≠ formatVersion then .error .failed else .ok cfg
  | .stacksize => (r.decodeUint64 v).map fun x => { cfg with stacksize := x }
  | .mmapFiles => (decodeEnum stringToMmapFiles v).map fun x => { cfg with mmapFiles := x }
  | .oeHeapPagecount => (r.decodeUint64 v).map fun x => { cfg with oeHeapPagecount := x }
  | .netIp4 => (decodeString v).map fun x => { cfg with netIp4 := x }
  | .netGw4 => (decodeString v).map fun x => { cfg with netGw4 := x }
  | .netMask4 => (decodeString v).map fun x => { cfg with netMask4 := x }
  | .hostname => (decodeString v).map fun x => { cfg with hostname := x }
  | .tapMtu => (r.decodeUint32 v).map fun x => { cfg with tapMtu := x }
  | .hostnet => (decodeBool v).map fun x => { cfg with hostnet := x }
  | .wgIp => (decodeString v).map fun x => { cfg with wg := { cfg.wg with ip := x } }
  | .wgListenPort => (r.decodeUint32 v).map fun x => { cfg with wg := { cfg.wg with listenPort := x } }
  | .wgKey => (decodeString v).map fun x => { cfg with wg := { cfg.wg with key := x } }
  | .peerKey => storePeer i cfg fun p => (decodeString v).map fun x => { p with key := x }
  | .peerAllowedIps => storePeer i cfg fun p => (decodeString v).map fun x => { p with allowedIps := x }
  | .peerEndpoint => storePeer i cfg fun p => (decodeString v).map fun x => { p with endpoint := x }
  | .maxUserThreads => (r.decodeUint64 v).map fun x => { cfg with maxUserThreads := x }
  | .ethreads => (r.decodeUint64 v).map fun x => { cfg with ethreads := x }
  | .espins => (r.decodeUint64 v).map fun x => { cfg with espins := x }
  | .esleep => (r.decodeUint64 v).map fun x => { cfg with esleep := x }
  | .clockRes => storeClockRes j v cfg
  | .mode => (decodeEnum stringToMode v).map fun x => { cfg with mode := x }
  | .fsgsbase => (decodeBool v).map fun x => { cfg with fsgsbase := x }
  | .verbose => (decodeBool v).map fun x => { cfg with verbose := x }
  | .kernelVerbose => (decodeBool v).map fun x => { cfg with kernelVerbose := x }
  | .kernelCmd => (decodeString v).map fun x => { cfg with kernelCmd := x }
  | .sysctl => (decodeString v).map fun x => { cfg with sysctl := x }
  | .swiotlb => (decodeBool v).map fun x => { cfg with swiotlb := x }
  | .cwd => (decodeString v).map fun x => { cfg with cwd := x }
  | .args => (decodeText v).bind fun s =>
    (storeAt cfg.args i fun _ => .ok (some s)).map fun l => { cfg with args := l }
  | .env => (decodeText v).bind fun s =>
    (storeAt cfg.env i fun _ => .ok (some s)).map fun l => { cfg with env := l }
  | .hostImportEnv => (decodeText v).bind fun s =>
    (storeAt cfg.hostImportEnv i fun _ => .ok (some s)).map fun l => { cfg with hostImportEnv := l }
  | .exitStatus => (decodeEnum stringToExitStatus v).map fun x => { cfg with exitStatus := x }
  | .rootKey => (decodeHex v).map fun x => { cfg with root := { cfg.root with key := x } }
  | .rootKeyId => (decodeString v).map fun x => { cfg with root := { cfg.root with keyId := x } }
  | .rootReadonly => (decodeBool v).map fun x => { cfg with root := { cfg.root with readonly := x } }
  | .rootRoothash => (decodeString v).map fun x => { cfg with root := { cfg.root with roothash := x } }
  | .rootRoothashOffset =>
    (r.decodeUint64 v).map fun x => { cfg with root := { cfg.root with roothashOffset := x } }
  | .rootOverlay => (decodeBool v).map fun x => { cfg with root := { cfg.root with overlay := x } }
  | .mountCreate => storeMount j cfg fun m => (decodeBool v).map fun x => { m with create := x }
  | .mountFreshKey => storeMount j cfg fun m => (decodeBool v).map fun x => { m with freshKey := x }
  | .mountKey => storeMount j cfg fun m => (decodeHex v).map fun x => { m with key := x }
  | .mountKeyId => storeMount j cfg fun m => (decodeString v).map fun x => { m with keyId := x }
  | .mountDestination => storeMount j cfg fun m => storeDestination v m
  | .mountReadonly => storeMount j cfg fun m => (decodeBool v).map fun x => { m with readonly := x }
  | .mountRoothash => storeMount j cfg fun m => (decodeString v).map fun x => { m with roothash := x }
  | .mountRoothashOffset =>
    storeMount j cfg fun m => (r.decodeUint64 v).map fun x => { m with roothashOffset := x }
  | .mountSize => storeMount j cfg fun m => (r.decodeUint64 v).map fun x => { m with size := x }
  | .numHeapPages =>
    (r.decodeUint64 v).map fun x => { cfg with imageSizes := { cfg.imageSizes with numHeapPages := x } }
  | .numStackPages =>
    (r.decodeUint64 v).map fun x => { cfg with imageSizes := { cfg.imageSizes with numStackPages := x } }
  | .ioConsole => (decodeBool v).map fun x => { cfg with io := { cfg.io with console := x } }
  | .ioBlock => (decodeBool v).map fun x => { cfg with io := { cfg.io with block := x } }
  | .ioNetwork => (decodeBool v).map fun x => { cfg with io := { cfg.io with network := x } }

def Reader.matches (p : Path) (pattern : String) : Bool :=
  (jsonMatch (!r.enforceFormat) p (bytes pattern)).isOk

/-- `json_get_array_index`; `none` is `-1`. -/
def arrayIndex (p : Path) : Option ℕ := if p.depth < 2 then none else some (p.node (p.depth - 2)).index

/-- The arrays of the configuration. -/
inductive ArrayKind
  | args | env | hostImportEnv | mounts | peers
  deriving DecidableEq

/-- The patterns of `json_read_callback` for arrays. -/
def ArrayKind.pattern : ArrayKind → String
  | .args => "args"
  | .env => "env"
  | .hostImportEnv => "host_import_env"
  | .mounts => "mounts"
  | .peers => "wg.peers"

/-- The configuration that is read, and the arrays that were allocated: the pointers of the others are `NULL`. -/
structure Loaded where
  config : EnclaveConfig
  allocated : List ArrayKind

/-- The setting is the first field of an element, and the pointer of the array is `NULL`. -/
def Loaded.isNull (b : Loaded) : Setting → Bool
  | .args => b.config.args.isEmpty && !b.allocated.contains .args
  | .env => b.config.env.isEmpty && !b.allocated.contains .env
  | .hostImportEnv => b.config.hostImportEnv.isEmpty && !b.allocated.contains .hostImportEnv
  | .peerKey => b.config.wg.peers.isEmpty && !b.allocated.contains .peers
  | _ => false

/-- `store`, and `strdupz`, which does not store through `NULL`: for `args`, `env` and `host_import_env` nobody looks at
its result. -/
def storeLoaded (i : ℕ) (j : Option ℕ) (v : Value) (b : Loaded) (s : Setting) : Except JsonResult EnclaveConfig :=
  if b.isNull s ∧ i = 0 then
    if s = .peerKey then (decodeString v).bind fun _ => .error .failed else (decodeText v).map fun _ => b.config
  else store r i j v b.config s

/-- A value of the text: the first pattern that matches decides. -/
def storeValue (p : Path) (v : Value) (b : Loaded) : Except JsonResult EnclaveConfig :=
  match settings.find? fun s => r.matches p s.pattern with
  | some s => storeLoaded r (p.node (p.depth - 1)).index (arrayIndex p) v b s
  | none => .error .failed

/-- A mount of `calloc`. -/
def zeroMount : Mount := ⟨false, cstring [], none, none, false, false, none, 0, 0⟩

/-- `ALLOC_ARRAY` for the arrays that are known. -/
def allocArray (p : Path) (size : ℕ) (cfg : EnclaveConfig) : Except JsonResult EnclaveConfig :=
  if r.matches p "args" then .ok { cfg with args := .replicate size none }
  else if r.matches p "env" then .ok { cfg with env := .replicate size none }
  else if r.matches p "mounts" then .ok { cfg with mounts := .replicate size zeroMount }
  else if r.matches p "host_import_env" then .ok { cfg with hostImportEnv := .replicate size none }
  else if r.matches p "wg.peers" then
    .ok { cfg with wg := { cfg.wg with peers := .replicate size ⟨none, none, none⟩ } }
  else if r.matches p "clock_res" then .ok cfg
  else .error .failed

/-- The arrays that match the path. -/
def arraysAt (p : Path) : List ArrayKind :=
  [.args, .env, .hostImportEnv, .mounts, .peers].filter fun k => r.matches p k.pattern

/-- What `json_read_callback` does to the configuration. -/
def storeEvent (p : Path) (reason : Reason) (v : Value) (b : Loaded) : Except JsonResult Loaded :=
  match reason, v with
  | .beginArray, .integer size => (allocArray r p size.toNat b.config).map fun cfg => ⟨cfg, arraysAt r p ++ b.allocated⟩
  | .value, v => (storeValue r p v b).map fun cfg => { b with config := cfg }
  | _, _ => .ok b

/-! ## The order of the paths -/

inductive LastPath
  | null
  | text (path : List Byte)
  | freed

/-- `free(last_path)`; the pointer keeps its value. -/
def LastPath.free : LastPath → Option LastPath
  | .null => some .null
  | .text _ => some .freed
  | .freed => none

/-- The static variables: `tmp` of `make_path`, and `last_path`. -/
structure Statics where
  tmp : List Byte
  lastPath : LastPath

structure Progress where
  statics : Statics
  seen : List (List Byte)

def pathNames (p : Path) : List (List Byte) := (List.range p.depth).map fun i => (p.node i).name.chars

/-- The loop of `make_path`: a dot in front of every name but the first. -/
def dotted : List (List Byte) → List Byte
  | [] => []
  | [name] => name
  | name :: next :: names => name ++ ch '.' :: dotted (next :: names)

/-- `make_path`. Without a path the result is what `tmp` has from the last call. -/
def makePath (names : List (List Byte)) (tmp : List Byte) : Except JsonResult (List Byte) :=
  if names.isEmpty then .ok tmp
  else if 1024 ≤ (dotted names).length then .error .fault
  else .ok (dotted names)

def replaceLastPath (names : List (List Byte)) (st : Statics) : Except JsonResult Statics :=
  match st.lastPath with
  | .freed => .error .fault
  | _ => (makePath names st.tmp).map fun cur => ⟨cur, .text cur⟩

/-- The comparison with `last_path`. -/
def checkOrder (names : List (List Byte)) (st : Statics) : Except JsonResult Statics :=
  (makePath names st.tmp).bind fun cur =>
    match st.lastPath with
    | .freed => .error .fault
    | .null => .ok ⟨cur, .text cur⟩
    | .text last => if strcmp last cur = .gt then .error .failed else .ok ⟨cur, .text cur⟩

def addSeen (names : List (List Byte)) (pr : Progress) : Except JsonResult Progress :=
  (makePath names pr.statics.tmp).map fun cur => ⟨{ pr.statics with tmp := cur }, cur :: pr.seen⟩

/-- The beginning of an object, and the end of an array. -/
def markPath (names : List (List Byte)) (pr : Progress) : Except JsonResult Progress :=
  if r.enforceFormat then (replaceLastPath names pr.statics).map fun st => { pr with statics := st }
  else .ok pr

def checkValue (names : List (List Byte)) (pr : Progress) : Except JsonResult Progress :=
  if r.enforceFormat then (checkOrder names pr.statics).bind fun st => addSeen names { pr with statics := st }
  else addSeen names pr

/-- What `json_read_callback` does to the static variables and to `seen`. -/
def checkFormat (p : Path) (reason : Reason) (pr : Progress) : Except JsonResult Progress :=
  match reason with
  | .beginObject | .endArray => markPath r (pathNames p) pr
  | .value => checkValue r (pathNames p) pr
  | _ => .ok pr

/-- The callback: the check of the format, then the value. -/
def jsonReadCallback : Callback (Progress × Loaded) := fun p reason v d =>
  (checkFormat r p reason d.1).bind fun pr => (storeEvent r p reason v d.2).map fun b => (pr, b)

/-! ## The reader -/

def checkConfig (cfg : EnclaveConfig) : Bool :=
  cfg.args.length ≠ 0 && cfg.ethreads.toNat ≤ 1024 && cfg.maxUserThreads.toNat ≤ 65536 &&
    cfg.tapMtu.toNat < 2 ^ 31 && cfg.args.length < 2 ^ 31 && cfg.env.length < 2 ^ 31 &&
    cfg.hostImportEnv.length < 2 ^ 31

def checkRequiredElements (seen : List (List Byte)) : Bool := seen.contains (bytes "args")

/-- `sgxlkl_read_enclave_config`, from the static variables that the process has; `behind` is the memory
behind the copy of the text. -/
def readEnclaveConfig (behind : List Byte) (st : Statics) (text : CString Byte) :
    Option (EnclaveConfig × Statics) :=
  match jsonParse ⟨jsonReadCallback r, !r.enforceFormat, behind⟩ text.chars (⟨st, []⟩, ⟨enclaveConfigDefault, []⟩)
  with
  | .error _ _ => none
  | .ok () s =>
    if s.path.depth ≠ 0 then none
    else
      s.data.1.statics.lastPath.free.bind fun last =>
        if r.enforceFormat ∧ checkRequiredElements s.data.1.seen = false then none
        else if checkConfig s.data.2.config then some (s.data.2.config, ⟨s.data.1.statics.tmp, last⟩)
        else none

def freshStatics : Statics := ⟨[], .null⟩

end SgxLkl.Config
