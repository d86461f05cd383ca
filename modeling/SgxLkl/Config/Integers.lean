import SgxLkl.Config.Serialize
import SgxLkl.Config.Read

/-!
# Integers in the configuration

`encode_int` keeps sixteen digits.

* **`decodeUint64_take`**: what is read is the number that was cut.
-/

namespace SgxLkl.Config

open Json List

/-! ## Digits -/

variable {n x : ℕ}

theorem decimalLoop_append {k : ℕ} (hk : x < k) (hn : x < n) (acc : List Byte) :
    decimalLoop k x acc = decimalLoop n x [] ++ acc := by
  induction x using Nat.strong_induction_on generalizing k n acc with
  | _ x ih =>
    obtain ⟨k, rfl⟩ : ∃ l, k = l + 1 := ⟨k - 1, by omega⟩
    obtain ⟨n, rfl⟩ : ∃ l, n = l + 1 := ⟨n - 1, by omega⟩
    unfold decimalLoop
    dsimp only
    split_ifs with h
    · rfl
    · have hlt : x / 10 < x := by omega
      rw [ih _ hlt (k := k) (n := x / 10 + 1) (by omega) (by omega),
        ih _ hlt (k := n) (n := x / 10 + 1) (by omega) (by omega), append_assoc, singleton_append]

theorem decimal_of_lt (h : x < 10) : decimal x = [BitVec.ofNat 8 (0x30 + x)] := by
  rw [decimal, decimalLoop]
  simp [Nat.div_eq_of_lt h, Nat.mod_eq_of_lt h]

theorem decimal_append (h : 10 ≤ x) : decimal x = decimal (x / 10) ++ [BitVec.ofNat 8 (0x30 + x % 10)] := by
  rw [decimal, decimalLoop, if_neg (by omega)]
  exact decimalLoop_append (by omega) (by omega) _

theorem length_decimal_le (h : x < 10 ^ (n + 1)) : (decimal x).length ≤ n + 1 := by
  induction n generalizing x with
  | zero => rw [decimal_of_lt (by omega)]; simp
  | succ n ih =>
    by_cases hx : x < 10
    · rw [decimal_of_lt hx]; simp
    · have hdiv : x / 10 < 10 ^ (n + 1) := by omega
      rw [decimal_append (by omega), length_append, length_singleton]
      have := ih hdiv
      omega

theorem length_decimal_gt (h : 10 ^ n ≤ x) : n < (decimal x).length := by
  induction n generalizing x with
  | zero =>
    obtain ⟨c, cs, hcs, -⟩ := decimal_eq_cons x
    simp [hcs]
  | succ n ih =>
    have hdiv : 10 ^ n ≤ x / 10 := by omega
    have hpos : 0 < 10 ^ n := Nat.pow_pos (by decide)
    rw [decimal_append (by omega), length_append, length_singleton]
    have := ih hdiv
    omega

theorem head_decimal (h : 10 ≤ x) : ((decimal x).head?.any fun c => c ≤ 0x30 || 0x39 < c) = false := by
  induction x using Nat.strong_induction_on with
  | _ x ih =>
    obtain ⟨c, cs, hcs, -⟩ := decimal_eq_cons (x / 10)
    rw [decimal_append h, hcs]
    show (c ≤ 0x30 || 0x39 < c) = false
    by_cases hx : x / 10 < 10
    · rw [decimal_of_lt hx] at hcs
      obtain ⟨rfl, -⟩ := cons.inj hcs
      have hdigit : ∀ d < 10, 0 < d →
          ((BitVec.ofNat 8 (0x30 + d) ≤ 0x30 || 0x39 < BitVec.ofNat 8 (0x30 + d)) : Bool) = false := by
        decide
      exact hdigit _ hx (by omega)
    · have hih := ih (x / 10) (by omega) (by omega)
      rw [hcs] at hih
      exact hih

/-! ## Sixteen digits -/

/-- The number that the first sixteen digits denote. -/
def cut (x : ℕ) : ℕ := if x < 10 ^ 16 then x else cut (x / 10)

theorem cut_of_lt (h : x < 10 ^ 16) : cut x = x := by rw [cut, if_pos h]

theorem cut_lt (x : ℕ) : cut x < 10 ^ 16 := by
  induction x using Nat.strong_induction_on with
  | _ x ih =>
    rw [cut]
    split_ifs with h
    · exact h
    · exact ih _ (by omega)

theorem cut_eq_self_iff : cut x = x ↔ x < 10 ^ 16 :=
  ⟨fun h => h ▸ cut_lt x, cut_of_lt⟩

theorem take_decimal (x : ℕ) : (decimal x).take 16 = decimal (cut x) := by
  induction x using Nat.strong_induction_on with
  | _ x ih =>
    rw [cut]
    split_ifs with h
    · exact take_of_length_le (length_decimal_le h)
    · have hlen : 16 ≤ (decimal (x / 10)).length := length_decimal_gt (n := 15) (by omega)
      rw [decimal_append (by omega), take_append_of_le_length hlen, ih _ (by omega)]

/-! ## Decoding -/

theorem strtoul_decimal (allowWhitespace : Bool) (hx : x < 2 ^ 64) :
    strtoul allowWhitespace (decimal x) = .ok (BitVec.ofNat 64 x) := by
  have hend : ([] : List Byte).head?.any isDigit = false := rfl
  have hspace := head_decimal_isSpace x []
  have hsign := readSign_decimal x []
  have hdigits := strtolDigits_decimal hx hend
  have hvalue := strtol_decimal allowWhitespace hx hend
  rw [append_nil] at hspace hsign hdigits hvalue
  have herror : conversionError allowWhitespace (decimal x) = none := by
    rw [conversionError, hspace, hsign, hdigits]
    simp
  rw [strtoul, herror, hvalue]

theorem decodeUint64_take (r : Reader) (x : ℕ) (s : CString Byte) (hs : s.chars = (decimal x).take 16) :
    r.decodeUint64 (.string s) = .ok (BitVec.ofNat 64 (cut x)) := by
  have hlt : cut x < 2 ^ 64 := (cut_lt x).trans (by decide)
  rw [Reader.decodeUint64, decodeSafeUint64, decodeAnyUint64, hs, take_decimal, strtoul_decimal false hlt,
    strtoul_decimal true hlt]
  by_cases h : 10 ≤ cut x
  · simp only [head_decimal h, Bool.false_eq_true, and_false, if_false, ite_self]
  · rw [decimal_of_lt (by omega)]
    simp

end SgxLkl.Config
