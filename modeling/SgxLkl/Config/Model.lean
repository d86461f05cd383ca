import SgxLkl.Json.Leaves

/-!
# The enclave configuration

The types that are generated from the schema, the default configuration, and the names of the settings.

* `EnclaveConfig`: `sgxlkl_enclave_config_t`. An array and its length are one list.
-/

namespace SgxLkl.Config

open Json

/-! ## The configuration -/

/-- A `char*`; `none` is `NULL`. -/
abbrev Str := Option (CString Byte)

/-- `sgxlkl_enclave_mode_t`. -/
inductive Mode
  | unknown | swDebug | hwDebug | hwRelease
  deriving DecidableEq

/-- `sgxlkl_enclave_mmap_files_t`. -/
inductive MmapFiles
  | none | priv | shared
  deriving DecidableEq

/-- `sgxlkl_exit_status_mode_t`. -/
inductive ExitStatus
  | full | binary | none
  deriving DecidableEq

def Mode.toString : Mode → CString Byte
  | .unknown => cstring (bytes "unknown")
  | .swDebug => cstring (bytes "sw_debug")
  | .hwDebug => cstring (bytes "hw_debug")
  | .hwRelease => cstring (bytes "hw_release")

def MmapFiles.toString : MmapFiles → CString Byte
  | .none => cstring (bytes "none")
  | .priv => cstring (bytes "private")
  | .shared => cstring (bytes "shared")

def ExitStatus.toString : ExitStatus → CString Byte
  | .full => cstring (bytes "full")
  | .binary => cstring (bytes "binary")
  | .none => cstring (bytes "none")

/-- `string_to_sgxlkl_enclave_mode_t`; another text makes the program fail. -/
def stringToMode (s : CString Byte) : Option Mode :=
  [.unknown, .swDebug, .hwDebug, .hwRelease].find? fun m => m.toString.chars = s.chars

def stringToMmapFiles (s : CString Byte) : Option MmapFiles :=
  [.none, .priv, .shared].find? fun m => m.toString.chars = s.chars

def stringToExitStatus (s : CString Byte) : Option ExitStatus :=
  [.full, .binary, .none].find? fun m => m.toString.chars = s.chars

/-- `sgxlkl_enclave_wg_peer_config_t`. -/
structure WgPeer where
  key : Str
  allowedIps : Str
  endpoint : Str

/-- `sgxlkl_enclave_wg_config_t`. -/
structure Wg where
  ip : Str
  listenPort : BitVec 32
  key : Str
  peers : List WgPeer

/-- `sgxlkl_enclave_root_config_t`; `key` together with `key_len`. -/
structure Root where
  key : Option (List Byte)
  keyId : Str
  roothash : Str
  roothashOffset : Word
  readonly : Bool
  overlay : Bool

/-- `sgxlkl_enclave_mount_config_t`. -/
structure Mount where
  create : Bool
  destination : CString Byte
  key : Option (List Byte)
  keyId : Str
  freshKey : Bool
  readonly : Bool
  roothash : Str
  roothashOffset : Word
  size : Word

/-- `sgxlkl_image_sizes_config_t`. -/
structure ImageSizes where
  numHeapPages : Word
  numStackPages : Word

/-- `sgxlkl_io_config_t`. -/
structure Io where
  network : Bool
  block : Bool
  console : Bool

/-- `sgxlkl_enclave_config_t`. -/
structure EnclaveConfig where
  mode : Mode
  netIp4 : Str
  netGw4 : Str
  netMask4 : Str
  hostname : Str
  hostnet : Bool
  tapMtu : BitVec 32
  wg : Wg
  ethreads : Word
  maxUserThreads : Word
  espins : Word
  esleep : Word
  clockRes : Fin 8 → CString Byte
  stacksize : Word
  mmapFiles : MmapFiles
  oeHeapPagecount : Word
  fsgsbase : Bool
  verbose : Bool
  kernelVerbose : Bool
  kernelCmd : Str
  sysctl : Str
  swiotlb : Bool
  cwd : Str
  args : List Str
  env : List Str
  hostImportEnv : List Str
  exitStatus : ExitStatus
  root : Root
  mounts : List Mount
  imageSizes : ImageSizes
  io : Io

/-- `SGXLKL_ENCLAVE_CONFIG_T_VERSION`. -/
def formatVersion : Word := 1

/-- `sgxlkl_enclave_config_default`. -/
def enclaveConfigDefault : EnclaveConfig where
  mode := .hwRelease
  netIp4 := some (cstring (bytes "10.0.1.1"))
  netGw4 := some (cstring (bytes "10.0.1.254"))
  netMask4 := some (cstring (bytes "24"))
  hostname := some (cstring (bytes "lkl"))
  hostnet := false
  tapMtu := 0
  wg := ⟨some (cstring (bytes "10.0.2.1")), 56002, none, []⟩
  ethreads := 1
  maxUserThreads := 256
  espins := 500
  esleep := 16000
  clockRes i := cstring (bytes
    (if i = 5 ∨ i = 6 then "00000000003d0900"
    else if i = 2 ∨ i = 3 then "0000000000000000"
    else "0000000000000001"))
  stacksize := 524288
  mmapFiles := .shared
  oeHeapPagecount := 8192
  fsgsbase := true
  verbose := false
  kernelVerbose := false
  kernelCmd := some (cstring (bytes "mem=32M"))
  sysctl := none
  swiotlb := true
  cwd := some (cstring (bytes "/"))
  args := []
  env := []
  hostImportEnv := []
  exitStatus := .full
  root := ⟨none, none, none, 0, false, false⟩
  mounts := []
  imageSizes := ⟨262144, 1024⟩
  io := ⟨true, true, true⟩

/-! ## Names -/

def strcmp : List Byte → List Byte → Ordering
  | [], [] => .eq
  | [], _ :: _ => .lt
  | _ :: _, [] => .gt
  | a :: as, b :: bs => if a < b then .lt else if b < a then .gt else strcmp as bs

theorem strcmp_self (a : List Byte) : strcmp a a = .eq := by
  induction a with
  | nil => rfl
  | cons x a ih => simp [strcmp, ih]

theorem strcmp_lt_trans {a b c : List Byte} (hab : strcmp a b = .lt) (hbc : strcmp b c = .lt) :
    strcmp a c = .lt := by
  induction a generalizing b c with
  | nil =>
    cases b with
    | nil => cases hab
    | cons y b =>
      cases c with
      | nil => cases hbc
      | cons z c => rfl
  | cons x a ih =>
    cases b with
    | nil => cases hab
    | cons y b =>
      cases c with
      | nil => cases hbc
      | cons z c =>
        simp only [strcmp] at hab hbc ⊢
        split_ifs at hab hbc with hxy hyz hzy hyx hyz hzy
        · rw [if_pos (by bv_omega)]
        · rw [if_pos (by bv_omega)]
        · rw [if_pos (by bv_omega)]
        · rw [if_neg (by bv_omega), if_neg (by bv_omega), ih hab hbc]

theorem strcmp_swap (a b : List Byte) : (strcmp a b).swap = strcmp b a := by
  induction a generalizing b with
  | nil => cases b <;> rfl
  | cons x a ih =>
    cases b with
    | nil => rfl
    | cons y b =>
      simp only [strcmp]
      split_ifs with hxy hyx
      · bv_omega
      · rfl
      · rfl
      · exact ih b

inductive Key
  | allowedIps | args | block | clockRes | console | create | cwd | destination | endpoint | env | esleep
  | espins | ethreads | exitStatus | formatVersion | freshKey | fsgsbase | hostImportEnv | hostname | hostnet
  | imageSizes | io | ip | kernelCmd | kernelVerbose | key | keyId | listenPort | maxUserThreads | mmapFiles
  | mode | mounts | netGw4 | netIp4 | netMask4 | network | numHeapPages | numStackPages | oeHeapPagecount
  | overlay | peers | readonly | resolution | root | roothash | roothashOffset | size | stacksize | swiotlb
  | sysctl | tapMtu | verbose | wg
  deriving DecidableEq

def Key.text : Key → List Byte
  | .allowedIps => bytes "allowed_ips"
  | .args => bytes "args"
  | .block => bytes "block"
  | .clockRes => bytes "clock_res"
  | .console => bytes "console"
  | .create => bytes "create"
  | .cwd => bytes "cwd"
  | .destination => bytes "destination"
  | .endpoint => bytes "endpoint"
  | .env => bytes "env"
  | .esleep => bytes "esleep"
  | .espins => bytes "espins"
  | .ethreads => bytes "ethreads"
  | .exitStatus => bytes "exit_status"
  | .formatVersion => bytes "format_version"
  | .freshKey => bytes "fresh_key"
  | .fsgsbase => bytes "fsgsbase"
  | .hostImportEnv => bytes "host_import_env"
  | .hostname => bytes "hostname"
  | .hostnet => bytes "hostnet"
  | .imageSizes => bytes "image_sizes"
  | .io => bytes "io"
  | .ip => bytes "ip"
  | .kernelCmd => bytes "kernel_cmd"
  | .kernelVerbose => bytes "kernel_verbose"
  | .key => bytes "key"
  | .keyId => bytes "key_id"
  | .listenPort => bytes "listen_port"
  | .maxUserThreads => bytes "max_user_threads"
  | .mmapFiles => bytes "mmap_files"
  | .mode => bytes "mode"
  | .mounts => bytes "mounts"
  | .netGw4 => bytes "net_gw4"
  | .netIp4 => bytes "net_ip4"
  | .netMask4 => bytes "net_mask4"
  | .network => bytes "network"
  | .numHeapPages => bytes "num_heap_pages"
  | .numStackPages => bytes "num_stack_pages"
  | .oeHeapPagecount => bytes "oe_heap_pagecount"
  | .overlay => bytes "overlay"
  | .peers => bytes "peers"
  | .readonly => bytes "readonly"
  | .resolution => bytes "resolution"
  | .root => bytes "root"
  | .roothash => bytes "roothash"
  | .roothashOffset => bytes "roothash_offset"
  | .size => bytes "size"
  | .stacksize => bytes "stacksize"
  | .swiotlb => bytes "swiotlb"
  | .sysctl => bytes "sysctl"
  | .tapMtu => bytes "tap_mtu"
  | .verbose => bytes "verbose"
  | .wg => bytes "wg"

def Key.all : List Key :=
  [.allowedIps, .args, .block, .clockRes, .console, .create, .cwd, .destination, .endpoint, .env, .esleep,
    .espins, .ethreads, .exitStatus, .formatVersion, .freshKey, .fsgsbase, .hostImportEnv, .hostname,
    .hostnet, .imageSizes, .io, .ip, .kernelCmd, .kernelVerbose, .key, .keyId, .listenPort, .maxUserThreads,
    .mmapFiles, .mode, .mounts, .netGw4, .netIp4, .netMask4, .network, .numHeapPages, .numStackPages,
    .oeHeapPagecount, .overlay, .peers, .readonly, .resolution, .root, .roothash, .roothashOffset, .size,
    .stacksize, .swiotlb, .sysctl, .tapMtu, .verbose, .wg]

theorem Key.mem_all (k : Key) : k ∈ Key.all := by cases k <;> decide

instance : Fintype Key := .ofList Key.all Key.mem_all

theorem Key.text_ascending : Key.all.IsChain fun k l => strcmp k.text l.text = .lt := by decide

theorem Key.getElem?_all (k : Key) : Key.all[k.ctorIdx]? = some k := by cases k <;> rfl

theorem Key.ctorIdx_injective {k l : Key} (h : k.ctorIdx = l.ctorIdx) : k = l := by
  have := k.getElem?_all
  rw [h, l.getElem?_all] at this
  exact (Option.some.inj this).symm

theorem Key.strcmp_text (k l : Key) : strcmp k.text l.text = compare k.ctorIdx l.ctorIdx := by
  have hlt : ∀ {k l : Key}, k.ctorIdx < l.ctorIdx → strcmp k.text l.text = .lt := by
    intro k l h
    have : IsTrans Key fun k l : Key => strcmp k.text l.text = .lt := ⟨fun _ _ _ => strcmp_lt_trans⟩
    obtain ⟨hk, hk'⟩ := List.getElem?_eq_some_iff.mp k.getElem?_all
    obtain ⟨hl, hl'⟩ := List.getElem?_eq_some_iff.mp l.getElem?_all
    have := List.pairwise_iff_getElem.mp Key.text_ascending.pairwise _ _ hk hl h
    rwa [hk', hl'] at this
  rcases lt_trichotomy k.ctorIdx l.ctorIdx with h | h | h
  · rw [hlt h, Nat.compare_eq_lt.mpr h]
  · rw [Key.ctorIdx_injective h, strcmp_self, Nat.compare_eq_eq.mpr rfl]
  · rw [← strcmp_swap, hlt h, Nat.compare_eq_gt.mpr h]
    rfl

theorem Key.text_injective : ∀ k l : Key, k.text = l.text → k = l := by
  intro k l h
  have hcompare := k.strcmp_text l
  rw [h, strcmp_self] at hcompare
  exact Key.ctorIdx_injective (Nat.compare_eq_eq.mp hcompare.symm)

def isKeyChar (c : Byte) : Bool := isDigit c || c = 0x5f || (0x61 ≤ c && c ≤ 0x7a)

theorem Key.isKeyChar_text : ∀ k : Key, k.text.all isKeyChar = true := by decide

theorem isPlain_of_isKeyChar {l : List Byte} (h : l.all isKeyChar = true) : isPlain l = true := by
  have hchar : ∀ c : Byte, isKeyChar c = true → (c != 0 && c != quote && c != backslash) = true := by
    decide
  exact List.all_eq_true.mpr fun c hc => hchar c (List.all_eq_true.mp h c hc)

def Key.name (k : Key) : CString Byte :=
  ⟨k.text, not_mem_of_isPlain (isPlain_of_isKeyChar k.isKeyChar_text)⟩

end SgxLkl.Config
