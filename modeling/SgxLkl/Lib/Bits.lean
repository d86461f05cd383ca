import Mathlib

/-!
# Bits packed in 64-bit words, and C integer conversions

Memory is a map from word addresses to words, `ℤ → Word`; addresses may be negative because a
pointer can be moved below the object it was taken from.
-/

namespace SgxLkl

open BitVec

/-- A 64-bit word: `unsigned long`, `size_t` and pointers. -/
abbrev Word := BitVec 64

/-- A 32-bit `int`. -/
abbrev CInt := BitVec 32

def bitAt (m : ℤ → Word) (j : ℤ) : Bool := (m (j / 64)).getLsbD (j % 64).toNat

theorem bitAt_word (m : ℤ → Word) (p : ℤ) {i : ℕ} (hi : i < 64) : bitAt m (64 * p + i) = (m p).getLsbD i := by
  have h1 : (64 * p + (i : ℤ)) / 64 = p := by omega
  have h2 : ((64 * p + (i : ℤ)) % 64).toNat = i := by omega
  rw [bitAt, h1, h2]

theorem bitAt_update (m : ℤ → Word) (p : ℤ) (w : Word) (j : ℤ) : bitAt (Function.update m p w) j =
      if j / 64 = p then w.getLsbD (j % 64).toNat else bitAt m j := by
  rw [bitAt, Function.update_apply]
  split_ifs <;> rfl

/-! ## Masks -/

def highMask (k : ℕ) : Word := BitVec.allOnes 64 <<< k

/-- The word shifted down from all ones: exactly the bits below `64 - k` are set. -/
def lowMask (k : ℕ) : Word := BitVec.allOnes 64 >>> k

theorem getLsbD_highMask (k : ℕ) {i : ℕ} (hi : i < 64) : (highMask k).getLsbD i = decide (k ≤ i) := by
  rw [highMask, getLsbD_shiftLeft, getLsbD_allOnes]
  simp only [hi, decide_true, Bool.true_and]
  by_cases h : k ≤ i
  · simp only [h, decide_true, Nat.not_lt.mpr h, decide_false, Bool.not_false, Bool.true_and, decide_eq_true_eq]
    omega
  · simp [h, Nat.not_le.mp h]

theorem getLsbD_lowMask (k i : ℕ) : (lowMask k).getLsbD i = decide (k + i < 64) := by
  rw [lowMask, getLsbD_ushiftRight, getLsbD_allOnes]

theorem and_one_ne_zero {x : Word} : x &&& 1 ≠ 0 ↔ x.toNat % 2 = 1 := by
  have htoNat : (x &&& 1).toNat = x.toNat % 2 := by
    rw [toNat_and, show (1 : Word).toNat = 1 from rfl, Nat.and_one_is_mod]
  rw [Ne, ← toNat_inj, htoNat, show (0 : Word).toNat = 0 from rfl]
  omega

/-! ## Distances between addresses -/

theorem toNat_sub_add (a b c : Word) : (a - (b + c)).toNat =
    if c.toNat ≤ (a - b).toNat then (a - b).toNat - c.toNat else 2 ^ 64 - c.toNat + (a - b).toNat := by
  have := (a - b).isLt; have := c.isLt
  rw [← sub_sub, toNat_sub]
  split_ifs <;> omega

/-! ## Numerals of small types -/

instance neZero_one : NeZero 1 := ⟨by decide⟩

instance neZero_two : NeZero 2 := ⟨by decide⟩

/-! ## Conversions to `int` -/

def cInt (x : Word) : ℤ := (x.setWidth 32).toInt

def wrapInt (x : ℤ) : ℤ := (BitVec.ofInt 32 x).toInt

theorem cInt_of_lt {x : Word} (h : x.toNat < 2 ^ 31) : cInt x = x.toNat := by
  rw [cInt, toInt_setWidth]
  exact Int.bmod_eq_of_le (by omega) (by omega)

theorem wrapInt_of_lt {x : ℤ} (h0 : 0 ≤ x) (h : x < 2 ^ 31) : wrapInt x = x := by
  rw [wrapInt, toInt_ofInt]
  exact Int.bmod_eq_of_le (by omega) (by omega)

theorem toNat_ofInt_of_lt {x : ℤ} (h0 : 0 ≤ x) (h : x < 2 ^ 64) : (BitVec.ofInt 64 x).toNat = x.toNat := by
  rw [toNat_ofInt]
  congr 1
  exact Int.emod_eq_of_lt h0 (by exact_mod_cast h)

end SgxLkl
