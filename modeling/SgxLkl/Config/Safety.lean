import SgxLkl.Config.Store
import SgxLkl.Json.Calls

/-!
# Memory safety of the reader

Arrays are allocated when the parser announces them, and their elements are written in later calls that are known
only by their paths and indices. Every call begins with a look at the index of the last node of the path, and the first
call is made before there is one.

* **`reader_safe_iff`**: all calls for a text are safe if and only if there are none.
-/

namespace SgxLkl.Config

open Json List

/-! ## The accesses of a call -/

/-- The length of the array that is allocated. -/
def ArrayKind.length (cfg : EnclaveConfig) : ArrayKind → ℕ
  | .args => cfg.args.length
  | .env => cfg.env.length
  | .hostImportEnv => cfg.hostImportEnv.length
  | .mounts => cfg.mounts.length
  | .peers => cfg.wg.peers.length

/-- The array in which the setting is an element, or a field of one. -/
def Setting.array : Setting → Option ArrayKind
  | .args => some .args
  | .env => some .env
  | .hostImportEnv => some .hostImportEnv
  | .peerKey | .peerAllowedIps | .peerEndpoint => some .peers
  | .mountCreate | .mountFreshKey | .mountKey | .mountKeyId | .mountDestination | .mountReadonly | .mountRoothash
  | .mountRoothashOffset | .mountSize => some .mounts
  | _ => none

/-- The index of the element. Mounts are found with `json_get_array_index`. -/
def elementIndex (p : Path) : ArrayKind → Option ℕ
  | .mounts => arrayIndex p
  | _ => some (p.node (p.depth - 1)).index

/-- The call with which the parser calls `json_read_callback`. -/
abbrev ReadCall := Call (Progress × Loaded)

/-- All calls of `json_read_callback` for a text. -/
def readCalls (r : Reader) (behind : List Byte) (st : Statics) (text : CString Byte) : List ReadCall :=
  calls ⟨jsonReadCallback r, !r.enforceFormat, behind⟩ text.chars (⟨st, []⟩, ⟨enclaveConfigDefault, []⟩)

/-- The call comes to `make_path`. An array that is not known is named in the message. -/
def buildsPath (r : Reader) (c : ReadCall) : Bool :=
  match c.reason with
  | .beginObject | .endArray => r.enforceFormat
  | .beginArray => !(allocArray r c.path 0 c.data.2.config).isOk
  | .value => true
  | .name | .endObject => false

/-- The call gives the element to a function that stores it; `strdupz` does not store through `NULL`. -/
def stores (c : ReadCall) (s : Setting) : Bool :=
  c.reason = .value && settingAt (pathNames c.path) = some s &&
    !(c.data.2.isNull s && (c.path.node (c.path.depth - 1)).index = 0)

/-- What a call does to the memory. -/
structure Safe (r : Reader) (c : ReadCall) : Prop where
  /-- `parser->path[parser->depth - 1]`, the first thing a call looks at. -/
  entry : 0 < c.path.depth
  /-- The buffer of `make_path`. -/
  buffer : buildsPath r c → (dotted (pathNames c.path)).length < 1024
  element : ∀ s, stores c s → ∀ k ∈ s.array, ∀ i ∈ elementIndex c.path k, i < k.length c.data.2.config
  /-- All other settings look at the type first. -/
  union : stores c .mountDestination → ∃ s, c.value = .string s

/-! ## All calls -/

/-- **The reader is memory safe only where nothing is read.** As soon as an object begins, the first call looks in front
of the path. -/
theorem reader_safe_iff (r : Reader) (behind : List Byte) (st : Statics) (text : CString Byte) :
    (∀ c ∈ readCalls r behind st text, Safe r c) ↔ firstChar (!r.enforceFormat) text.chars ≠ some openBrace := by
  have hcalls := calls_eq ⟨jsonReadCallback r, !r.enforceFormat, behind⟩ text.chars
    (⟨st, []⟩, ⟨enclaveConfigDefault, []⟩)
  rw [readCalls]
  split_ifs at hcalls with hbrace
  · obtain ⟨c, cs, hcs, hdepth, -⟩ := hcalls
    refine ⟨fun hsafe => absurd (hsafe c ?_).entry ?_, fun hne => absurd hbrace hne⟩
    · rw [hcs]
      exact mem_cons_self
    · rw [hdepth]
      exact Nat.lt_irrefl 0
  · rw [hcalls]
    exact ⟨fun _ => hbrace, fun _ c hc => absurd hc not_mem_nil⟩

/-- The text of an array in an array. -/
def nestedText : CString Byte := cstring (bytes "\x7b\"args\":[[\"a\"],\"b\"]\x7d")

/-- The text of an empty array that is written to. -/
def repeatedText : CString Byte := cstring (bytes "\x7b\"args\":[],\"args\":\"x\"\x7d")

/-- The text of a number that is taken for a pointer. -/
def numberText : CString Byte := cstring (bytes "\x7b\"mounts\":[\x7b\"destination\":1\x7d]\x7d")

deriving instance DecidableEq for CString, Value

/-- Calls that are not safe: the first one of every text is at depth zero, the inner array is too short for the second
element of the outer one, a string is written to the first of no elements, and a number is taken for a string. -/
theorem reader_unsafe : (∃ c ∈ readCalls ⟨true, fun _ => 0⟩ [] freshStatics nestedText, c.path.depth = 0) ∧
    (∃ c ∈ readCalls ⟨true, fun _ => 0⟩ [] freshStatics nestedText, stores c .args ∧
      elementIndex c.path .args = some 1 ∧ ArrayKind.args.length c.data.2.config = 1) ∧
    (∃ c ∈ readCalls ⟨true, fun _ => 0⟩ [] freshStatics repeatedText, stores c .args ∧
      elementIndex c.path .args = some 0 ∧ ArrayKind.args.length c.data.2.config = 0) ∧
    ∃ c ∈ readCalls ⟨true, fun _ => 0⟩ [] freshStatics numberText, stores c .mountDestination ∧
      c.value = .integer 1 := by
  refine ⟨?_, ?_, ?_, ?_⟩ <;> decide +kernel

end SgxLkl.Config
