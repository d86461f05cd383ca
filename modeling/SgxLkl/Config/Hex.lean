import SgxLkl.Config.Received
import SgxLkl.Json.Number
import SgxLkl.Json.Source
import SgxLkl.Lib.BigEndian

/-!
# Hexadecimal strings

`JHEXBUF` reads pairs of characters with `hex_to_int`, which takes any character. `hex_to_bytes` gives every pair to
`strtoul`, which also takes a blank or a sign in front of a digit, and an odd first digit behind a NUL.

* **`key_setting_iff`**: which key settings are read as they should be.
* `Env.hexToBytes`: `hex_to_bytes`; **`Env.hex_to_bytes_iff`**: for which strings it does what it should.
-/

namespace SgxLkl.Config

open Json List

/-! ## Keys in the configuration -/

/-- The bytes that are read, if `NULL` is no byte at all. -/
def readKey (v : Value) : Except JsonResult (List Byte) := (decodeHex v).map (Option.getD · [])

theorem readKey_string (s : CString Byte) : readKey (.string s) = .ok (hexToBytes s.chars) := by
  rw [readKey, decodeHex]
  cases h : s.chars with
  | nil => rfl
  | cons c cs => rfl

theorem hexDigit_plain : ∀ b : Byte, (hexDigit (b >>> 4) ≠ quote ∧ hexDigit (b >>> 4) ≠ backslash) ∧
    hexDigit (b &&& 0xf) ≠ quote ∧ hexDigit (b &&& 0xf) ≠ backslash := by
  decide +kernel

theorem plain_bytesToHex (buf : List Byte) : Plain (bytesToHex buf) := by
  intro c hc
  obtain ⟨b, -, hb⟩ := mem_flatMap.mp hc
  rcases mem_pair.mp hb with rfl | rfl
  · exact (hexDigit_plain b).1
  · exact (hexDigit_plain b).2

/-- **Which key settings are read as they should be.** A key that was printed is read back. A text that is not an
even number of hexadecimal digits is never refused. -/
theorem key_setting_iff (s : CString Byte) : (∀ k, (quotedValue (bytesToHex k)).bind readKey = .ok k) ∧
      ((¬ (s.chars.length % 2 = 0 ∧ ∀ c ∈ s.chars, isHexDigit c = true) → ∀ k, readKey (.string s) ≠ .ok k) ↔
        s.chars.length % 2 = 0 ∧ ∀ c ∈ s.chars, isHexDigit c = true) := by
  refine ⟨fun k => ?_, fun h => ?_, fun h hne => absurd h hne⟩
  · rw [quotedValue, unescape_plain (zero_not_mem_bytesToHex k) (plain_bytesToHex k)]
    have hchars : (cstring (bytesToHex k)).chars = bytesToHex k :=
      congrArg CString.chars (cstring_chars ⟨bytesToHex k, zero_not_mem_bytesToHex k⟩)
    show readKey (.string (cstring (bytesToHex k))) = .ok k
    rw [readKey_string, hchars, hexToBytes_bytesToHex]
  · by_contra hne
    exact h hne _ (readKey_string s)

/-- Any text is a key: a prefix, a cut key, and letters that are no digits. -/
theorem wrong_key_taken : ["0x12", "abc", "zz"].map (fun s => (readKey (.string (cstring (bytes s)))).toOption) =
      [some [0, 0x12], some [0xab], some [0]] := by
  decide

/-! ## `hex_to_bytes` -/

namespace Env

/-- `strtoul` to base sixteen: the value, and the text from `endptr` on. -/
def strtoul16 (str : List Byte) : Word × List Byte :=
  let p := readSign (str.dropWhile isSpace)
  let digits := if (p.2.take 2 = bytes "0x" ∨ p.2.take 2 = bytes "0X") ∧ (p.2.drop 2).head?.any isHexDigit then p.2.drop 2
    else p.2
  let x := (digits.takeWhile isHexDigit).foldl (fun x c => x * 16 + (hexValue c).toNat) 0
  if digits.head?.any isHexDigit then (if p.1 then -BitVec.ofNat 64 x else BitVec.ofNat 64 x, digits.dropWhile isHexDigit)
  else (0, str)

/-- The characters in `buf` as a byte, if `endp` is at the end of `buf`. -/
def readByte (a b : Byte) : Option Byte :=
  let str := (cstring [a, b]).chars
  if str.length - (strtoul16 str).2.length = 2 then some ((strtoul16 str).1.setWidth 8) else none

def readBytes : List Byte → Option (List Byte)
  | a :: b :: hex => (readByte a b).bind fun x => (readBytes hex).map (x :: ·)
  | _ => some []

/-- `hex_to_bytes`: where the result begins in the memory that was allocated, and its bytes. -/
def hexToBytes (hex : List Byte) : Option (ℕ × List Byte) :=
  if hex.length % 2 = 1 then (readByte 0 (hex.headD 0)).bind fun _ => (readBytes hex.tail).map fun l => (1, l)
  else (readBytes hex).map fun l => (0, l)

def hexNat (hex : List Byte) : ℕ := hex.foldl (fun x c => x * 16 + (hexValue c).toNat) 0

/-- What `hex_to_bytes` should do with a string. -/
def Decodes (hex : List Byte) : Prop :=
  if hex ≠ [] ∧ hex.all isHexDigit = true then
    ∃ l, hexToBytes hex = some (0, l) ∧ l.length = (hex.length + 1) / 2 ∧ beNat l = hexNat hex
  else hexToBytes hex = none

/-- Pairs of digits, or of a digit behind a blank or a sign. -/
def Loose : List Byte → Prop
  | a :: b :: hex =>
    isHexDigit b = true ∧ (isHexDigit a = true ∨ isSpace a = true ∨ a = ch '+' ∨ a = ch '-') ∧ Loose hex
  | [_] => False
  | [] => True

theorem Loose.even : ∀ {hex : List Byte}, Loose hex → hex.length % 2 = 0
  | [], _ => rfl
  | [_], h => h.elim
  | _ :: _ :: hex, h => by
    have := Loose.even h.2.2
    rw [length_cons, length_cons]
    omega

theorem isHexDigit_facts : ∀ c : Byte, isHexDigit c = true → isSpace c = false ∧ c ≠ ch '+' ∧ c ≠ ch '-' ∧ c ≠ 0 ∧
    (hexValue c).toNat < 16 := by
  decide +kernel

theorem readSign_sublist (t : List Byte) : (readSign t).2.Sublist t := by
  unfold readSign
  split
  · split_ifs <;> simp
  · exact List.Sublist.refl _

theorem strtoul16_eq {str digits : List Byte} {negative : Bool}
    (h : readSign (str.dropWhile isSpace) = (negative, digits))
    (hshort : digits.length ≤ 2) : strtoul16 str = if digits.head?.any isHexDigit then
      let x := (digits.takeWhile isHexDigit).foldl (fun x c => x * 16 + (hexValue c).toNat) 0
      (if negative then -BitVec.ofNat 64 x else BitVec.ofNat 64 x, digits.dropWhile isHexDigit) else (0, str) := by
  have hdrop : digits.drop 2 = [] := drop_eq_nil_of_le hshort
  simp only [strtoul16, h, hdrop, head?_nil, Option.any_none, Bool.false_eq_true, and_false, if_false]

theorem cstring_pair {a b : Byte} (ha : a ≠ 0) (hb : b ≠ 0) : (cstring [a, b]).chars = [a, b] := by
  simpa [cstring] using ⟨ha, hb⟩

theorem readByte_digit {a b : Byte} (ha : isHexDigit a = true) (hb : b ≠ 0) : readByte a b =
    if isHexDigit b then some (BitVec.ofNat 8 ((hexValue a).toNat * 16 + (hexValue b).toNat)) else none := by
  obtain ⟨hspace, hplus, hminus, hzero, -⟩ := isHexDigit_facts a ha
  have hsign : readSign ([a, b].dropWhile isSpace) = (false, [a, b]) := by simp [hspace, readSign, hplus, hminus]
  rw [readByte, cstring_pair hzero hb, strtoul16_eq hsign le_rfl]
  by_cases hdigit : isHexDigit b = true
  · simp [ha, hdigit, BitVec.setWidth_ofNat_of_le]
  · simp [ha, hdigit]

theorem readByte_other {a b : Byte} (ha : isHexDigit a = false) (hzero : a ≠ 0) (hb : b ≠ 0) :
    (readByte a b).isSome ↔ isHexDigit b = true ∧ (isSpace a = true ∨ a = ch '+' ∨ a = ch '-') := by
  rw [readByte, cstring_pair hzero hb]
  by_cases hdigit : isHexDigit b = true
  · obtain ⟨hspace, hplus, hminus, -⟩ := isHexDigit_facts b hdigit
    have hone : ∀ negative, readSign ([a, b].dropWhile isSpace) = (negative, [b]) →
        (strtoul16 [a, b]).2.length = 0 := fun negative hsign => by
      rw [strtoul16_eq hsign (by simp)]
      simp [hdigit]
    by_cases hlead : isSpace a = true ∨ a = ch '+' ∨ a = ch '-'
    · have hread : (strtoul16 [a, b]).2.length = 0 := by
        by_cases hblank : isSpace a = true
        · exact hone false (by simp [hblank, hspace, readSign, hplus, hminus])
        · rcases hlead.resolve_left hblank with rfl | rfl
          · exact hone false rfl
          · exact hone true rfl
      simp [hread, hdigit, hlead]
    · obtain ⟨hblank, hplus, hminus⟩ : isSpace a = false ∧ a ≠ ch '+' ∧ a ≠ ch '-' := by simpa using hlead
      have hsign : readSign ([a, b].dropWhile isSpace) = (false, [a, b]) := by simp [hblank, readSign, hplus, hminus]
      rw [strtoul16_eq hsign le_rfl]
      simp [ha, hlead]
  · -- there is no digit that `strtoul` could begin with
    have hnone : ∀ l : List Byte, l ⊆ [a, b] → l.head?.any isHexDigit = false := by
      intro l hl
      cases l with
      | nil => rfl
      | cons c l =>
        have hc := hl mem_cons_self
        rcases mem_pair.mp hc with rfl | rfl
        · exact ha
        · exact Bool.eq_false_iff.mpr hdigit
    have hsub : (readSign ([a, b].dropWhile isSpace)).2.Sublist [a, b] :=
      (readSign_sublist _).trans (dropWhile_sublist isSpace)
    generalize hsign : readSign ([a, b].dropWhile isSpace) = q at hsub
    rw [strtoul16_eq hsign hsub.length_le, hnone _ hsub.subset]
    simp [hdigit]

theorem readByte_isSome_iff {a b : Byte} (ha : a ≠ 0) (hb : b ≠ 0) : (readByte a b).isSome ↔
    isHexDigit b = true ∧ (isHexDigit a = true ∨ isSpace a = true ∨ a = ch '+' ∨ a = ch '-') := by
  by_cases hdigit : isHexDigit a = true
  · rw [readByte_digit hdigit hb]
    by_cases h : isHexDigit b = true <;> simp [h, hdigit]
  · rw [readByte_other (Bool.eq_false_iff.mpr hdigit) ha hb]
    simp [hdigit]

theorem readBytes_isSome_iff : ∀ hex : List Byte, (0 : Byte) ∉ hex → hex.length % 2 = 0 →
    ((readBytes hex).isSome ↔ Loose hex)
  | [], _, _ => by simp [readBytes, Loose]
  | [_], _, h => by simp at h
  | a :: b :: hex, h0, h => by
    obtain ⟨ha, hb, hhex⟩ : 0 ≠ a ∧ 0 ≠ b ∧ 0 ∉ hex := by simpa only [mem_cons, not_or] using h0
    rw [length_cons, length_cons] at h
    have hrest := readBytes_isSome_iff hex hhex (by omega)
    have hpair := readByte_isSome_iff ha.symm hb.symm
    rw [readBytes, Loose, ← and_assoc, ← hpair, ← hrest]
    cases readByte a b <;> simp

theorem readBytes_digits : ∀ (hex : List Byte) (n : ℕ), (∀ c ∈ hex, isHexDigit c = true) → hex.length % 2 = 0 →
    ∃ l, readBytes hex = some l ∧ 2 * l.length = hex.length ∧
      l.foldl (fun x b => x * 256 + b.toNat) n = hex.foldl (fun x c => x * 16 + (hexValue c).toNat) n
  | [], n, _, _ => ⟨[], rfl, rfl, rfl⟩
  | [_], _, _, h => by simp at h
  | a :: b :: hex, n, hd, h => by
    have ha := hd a (by simp)
    have hb := hd b (by simp)
    have hva := (isHexDigit_facts a ha).2.2.2.2
    have hvb := (isHexDigit_facts b hb).2.2.2.2
    obtain ⟨l, hl, hlen, hvalue⟩ := readBytes_digits hex ((n * 16 + (hexValue a).toNat) * 16 + (hexValue b).toNat)
      (fun c hc => hd c (by simp [hc])) (by rw [length_cons, length_cons] at h; omega)
    refine ⟨BitVec.ofNat 8 ((hexValue a).toNat * 16 + (hexValue b).toNat) :: l, ?_, ?_, ?_⟩
    · rw [readBytes, readByte_digit ha (isHexDigit_facts b hb).2.2.2.1, if_pos hb, hl]
      rfl
    · rw [length_cons, length_cons, length_cons]
      omega
    · rw [foldl_cons, foldl_cons, foldl_cons, ← hvalue, BitVec.toNat_ofNat, Nat.mod_eq_of_lt (by omega)]
      congr 1
      ring

theorem hexToBytes_odd {hex : List Byte} (h : hex.length % 2 = 1) : hexToBytes hex = none := by
  have hnul : ∀ b, readByte 0 b = none := fun b => by simp [readByte, cstring]
  rw [hexToBytes, if_pos h, hnul]
  rfl

theorem hexDigit_isHexDigit : ∀ b : Byte, isHexDigit (hexDigit (b >>> 4)) = true ∧
    isHexDigit (hexDigit (b &&& 0xf)) = true ∧
    BitVec.ofNat 8 ((hexValue (hexDigit (b >>> 4))).toNat * 16 + (hexValue (hexDigit (b &&& 0xf))).toNat) = b := by
  decide +kernel

theorem readBytes_bytesToHex (buf : List Byte) : readBytes (bytesToHex buf) = some buf := by
  induction buf with
  | nil => rfl
  | cons b buf ih =>
    obtain ⟨hhigh, hlow, hbyte⟩ := hexDigit_isHexDigit b
    have hcons : bytesToHex (b :: buf) = hexDigit (b >>> 4) :: hexDigit (b &&& 0xf) :: bytesToHex buf := rfl
    rw [hcons, readBytes, readByte_digit hhigh (hexDigit_ne_zero b).2, if_pos hlow, ih, hbyte]
    rfl

theorem length_bytesToHex (buf : List Byte) : (bytesToHex buf).length % 2 = 0 := by
  simp [bytesToHex, length_flatMap]

/-- **For which strings `hex_to_bytes` does what it should**: the string is not empty, not an odd number of digits,
and no blank or sign is taken for a digit. What `bytes_to_hex` has written is read back. -/
theorem hex_to_bytes_iff (s : CString Byte) : (Decodes s.chars ↔ s.chars ≠ [] ∧
      ((∀ c ∈ s.chars, isHexDigit c = true) → s.chars.length % 2 = 0) ∧
      (Loose s.chars → ∀ c ∈ s.chars, isHexDigit c = true)) ∧
    ∀ buf, hexToBytes (bytesToHex buf) = some (0, buf) := by
  refine ⟨?_, fun buf => ?_⟩
  · by_cases hodd : s.chars.length % 2 = 1
    · have hne : s.chars ≠ [] := fun h => by simp [h] at hodd
      have heven : ¬ s.chars.length % 2 = 0 := by omega
      simp [Decodes, hexToBytes_odd hodd, hne, heven, mt Loose.even heven]
    · have heven : s.chars.length % 2 = 0 := by omega
      have hloose := readBytes_isSome_iff s.chars s.nul heven
      have hread : hexToBytes s.chars = (readBytes s.chars).map fun l => (0, l) := if_neg hodd
      rw [Decodes, hread]
      split_ifs with hdigits
      · obtain ⟨l, hl, hlen, hvalue⟩ := readBytes_digits s.chars 0 (all_eq_true.mp hdigits.2) heven
        refine iff_of_true ⟨l, by rw [hl]; rfl, by omega, hvalue⟩
          ⟨hdigits.1, fun _ => heven, fun _ => all_eq_true.mp hdigits.2⟩
      · rw [Option.map_eq_none_iff, ← Option.not_isSome_iff_eq_none, hloose]
        refine ⟨fun h => ⟨fun hnil => h (by rw [hnil]; trivial), fun _ => heven, fun hl => absurd hl h⟩, fun h hl => ?_⟩
        exact hdigits ⟨h.1, all_eq_true.mpr (h.2.2 hl)⟩
  · rw [hexToBytes, if_neg (by simp [length_bytesToHex]), readBytes_bytesToHex]
    rfl

/-- An odd number of digits is refused; a blank, a sign and the empty string are not. -/
theorem hex_read_wrong : (hexToBytes (bytes "abc")).isNone ∧ hexToBytes (bytes " a-1") = some (0, [0xa, 0xff]) ∧
    hexToBytes [] = some (0, []) := by
  decide

end Env

end SgxLkl.Config
