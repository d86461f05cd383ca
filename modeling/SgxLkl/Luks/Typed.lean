import SgxLkl.Json.Calls
import SgxLkl.Luks.Enrolled

/-!
# The types of the values

`_json_read_callback` looks at the type of a value before it reads it, but for the two numbers of the configuration.

* **`readField_cases`**: the three forms of a branch.
* **`reader_typed_iff`**: the calls for a text read values as what they are, and write to entries that exist, exactly
  if the numbers of the configuration are strings.
-/

namespace SgxLkl.Luks

open Except Json

/-! ## Branches -/

inductive Member
  | string | integer
  deriving DecidableEq

def Member.Fits : Member → Value → Prop
  | .string, v => ∃ s, v = .string s
  | .integer, v => ∃ x, v = .integer x

def Field.member : Field → Member
  | .keyslotKeySize | .kdfTime | .kdfMemory | .kdfIterations | .kdfCpus | .afStripes | .areaKeySize
  | .segmentSectorSize | .digestIterations => .integer
  | _ => .string

def Field.table : Field → Option ℕ
  | .configJsonSize | .configKeyslotsSize => none
  | .digestType | .digestKeyslots | .digestSegments | .digestHash | .digestIterations | .digestSalt
  | .digestDigest => some numDigests
  | .segmentType | .segmentOffset | .segmentIvTweak | .segmentSize | .segmentEncryption
  | .segmentSectorSize | .integrityType | .journalEncryption | .journalIntegrity => some numSegments
  | _ => some numKeyslots

section

variable {α : Type} {n : ℕ}

theorem copyStr_ne_fault (s : CString Byte) (f : Str → α) : copyStr s f ≠ .error .fault := by
  unfold copyStr; split_ifs <;> nofun

theorem copyU64_ne_fault (s : CString Byte) (f : Word → α) : copyU64 s f ≠ .error .fault := by
  unfold copyU64; split <;> nofun

theorem copyBase64_ne_fault (P : Primitives) {k : ℕ} (m : Option ℕ) (s : CString Byte) (old : List.Vector Byte k)
    (f : List.Vector Byte k → α) : copyBase64 P m s old f ≠ .error .fault := by
  unfold copyBase64; split
  · split_ifs <;> nofun
  · nofun

theorem copyIndex_ne_fault (s : CString Byte) (old : Fin n → Bool) (f : (Fin n → Bool) → α) :
    copyIndex s old f ≠ .error .fault := by
  unfold copyIndex; split
  · split_ifs <;> nofun
  · nofun

end

variable (P : Primitives)

/-- **The forms of a branch**: the type and the index are checked and the string is looked at, they are checked and
the integer is stored, or a string is read without a check. -/
theorem readField_cases (field : Field) (md : Metadata) :
    (∃ (n : ℕ) (f : Fin n → CString Byte → Except JsonResult Metadata), field.table = some n ∧
      field.member = .string ∧ (∀ v i, readField P field v i md = stringAt v i f) ∧ ∀ i s, f i s ≠ .error .fault) ∨
    (∃ (n : ℕ) (f : Fin n → Word → Metadata), field.table = some n ∧ field.member = .integer ∧
      ∀ v i, readField P field v i md = integerAt v i f) ∨
    field.table = none ∧ field.member = .string ∧ ∃ f, ∀ v i, readField P field v i md = copyConfig v f := by
  cases field <;> simp only [readField, readKeyslot, readSegment, readDigest]
  case keyslotKeySize | kdfTime | kdfMemory | kdfIterations | kdfCpus | afStripes | areaKeySize | segmentSectorSize |
      digestIterations => exact .inr (.inl ⟨_, _, rfl, rfl, fun _ _ => rfl⟩)
  case configJsonSize | configKeyslotsSize => exact .inr (.inr ⟨rfl, rfl, _, fun _ _ => rfl⟩)
  all_goals refine .inl ⟨_, _, rfl, rfl, fun _ _ => rfl, fun i s => ?_⟩
  case kdfType =>
    rw [copyStr]
    split_ifs
    · simp [Except.bind]
    · dsimp only [Except.bind]; split_ifs <;> simp
  all_goals first
    | apply copyStr_ne_fault
    | apply copyU64_ne_fault
    | apply copyBase64_ne_fault
    | apply copyIndex_ne_fault
    | split_ifs <;> first | apply copyStr_ne_fault | apply copyU64_ne_fault | simp

/-! ## Calls -/

/-- A call reads its value as what it is, stores it only then, and refuses an index that is not in the table. -/
structure TypedCall (c : Call ReadData) : Prop where
  union : jsonReadCallback P c.path c.reason c.value c.data ≠ .error .fault
  fits : c.reason = .value → ∀ field ∈ fieldOf c.path,
    (jsonReadCallback P c.path .value c.value c.data).isOk → field.member.Fits c.value
  entry : c.reason = .value → ∀ field ∈ fieldOf c.path, ∀ n ∈ field.table, n ≤ (c.path.node 1).number.toNat →
    jsonReadCallback P c.path .value c.value c.data = .error .typeMismatch

theorem typedCall_iff (c : Call ReadData) : TypedCall P c ↔
    (c.reason = .value → ∀ field ∈ fieldOf c.path, field.table = none → ∃ s, c.value = .string s) := by
  obtain ⟨path, reason, v, data⟩ := c
  have hother : reason ≠ .value → jsonReadCallback P path reason v data ≠ .error .fault := by
    intro hne
    cases reason <;> simp only [jsonReadCallback] <;> first | exact absurd rfl hne | (split_ifs <;> nofun) | nofun
  by_cases hvalue : reason = .value
  swap
  · exact ⟨fun _ h => absurd h hvalue, fun _ => ⟨hother hvalue, fun h => absurd h hvalue, fun h => absurd h hvalue⟩⟩
  subst hvalue
  cases hfield : fieldOf path with
  | none =>
    have hcall : jsonReadCallback P path .value v data = .error .unknownValue := by simp [jsonReadCallback, hfield]
    exact ⟨fun _ _ => by simp, fun _ => ⟨by simp [hcall], by simp [hfield], by simp [hfield]⟩⟩
  | some field =>
    have hcall : jsonReadCallback P path .value v data =
        (readField P field v (path.node 1).number data.md).map fun md => { data with md := md } := by
      simp [jsonReadCallback, hfield]
    have htyped : TypedCall P ⟨path, .value, v, data⟩ ↔
        readField P field v (path.node 1).number data.md ≠ .error .fault ∧
          ((readField P field v (path.node 1).number data.md).isOk → field.member.Fits v) ∧
          ∀ n ∈ field.table, n ≤ (path.node 1).number.toNat →
            readField P field v (path.node 1).number data.md = .error .typeMismatch := by
      rw [show TypedCall P ⟨path, .value, v, data⟩ ↔ _ ∧ _ ∧ _ from ⟨fun h => ⟨h.1, h.2, h.3⟩, fun h => ⟨h.1, h.2.1, h.2.2⟩⟩]
      simp only [hcall, hfield, Option.mem_some_iff, forall_eq', true_imp_iff]
      cases readField P field v (path.node 1).number data.md <;> simp [Except.map, isOk, Except.toBool]
    rw [htyped]
    simp only [Option.mem_some_iff, forall_eq', true_imp_iff]
    generalize (path.node 1).number = i
    obtain ⟨n, f, htable, hmember, hread, hf⟩ | ⟨n, f, htable, hmember, hread⟩ | ⟨htable, hmember, f, hread⟩ :=
      readField_cases P field data.md
    · rw [htable, hmember, hread]
      cases v with
      | string s =>
        unfold stringAt
        split_ifs with hi
        · simp [hf, Member.Fits, hi]
        · simp [isOk, Except.toBool]
      | _ => simp [stringAt, isOk, Except.toBool]
    · rw [htable, hmember, hread]
      cases v with
      | integer x =>
        unfold integerAt
        split_ifs with hi
        · simp [Member.Fits, hi]
        · simp [isOk, Except.toBool]
      | _ => simp [integerAt, isOk, Except.toBool]
    · rw [htable, hmember, hread]
      cases v with
      | string s => simp [copyConfig, copyU64_ne_fault, Member.Fits]
      | _ => simp [copyConfig]

/-- **The values of a text are read as what they are**, and stored in entries that exist, exactly if the numbers of the
configuration are strings. -/
theorem reader_typed_iff (behind text : List Byte) : (∀ c ∈ calls (readEnv P behind) text ⟨{}, 0⟩, TypedCall P c) ↔
      ∀ c ∈ calls (readEnv P behind) text ⟨{}, 0⟩, c.reason = .value → ∀ field ∈ fieldOf c.path,
        field.table = none → ∃ s, c.value = .string s :=
  forall₂_congr fun c _ => typedCall_iff P c

/-- The size of the JSON area is a number, and it is read as a string. -/
theorem number_read_as_string :
    ∃ c ∈ calls (readEnv samplePrimitives []) (bytes "\x7b\"config\":\x7b\"json_size\":1\x7d\x7d") ⟨{}, 0⟩,
      ¬ TypedCall samplePrimitives c := by
  have hcall : ∃ c ∈ calls (readEnv samplePrimitives []) (bytes "\x7b\"config\":\x7b\"json_size\":1\x7d\x7d") ⟨{}, 0⟩,
      c.reason = .value ∧ fieldOf c.path = some .configJsonSize ∧
        c.value.ctorIdx ≠ (Value.string (cstring [])).ctorIdx := by decide +kernel
  obtain ⟨c, hc, hreason, hfield, hv⟩ := hcall
  refine ⟨c, hc, fun htyped => ?_⟩
  obtain ⟨s, hs⟩ := (typedCall_iff _ c).mp htyped hreason _ hfield rfl
  rw [hs] at hv
  exact hv rfl

end SgxLkl.Luks
