import Mathlib.Data.BitVec
import Mathlib.Data.List.GetD

/-!
# Numbers as bytes, the most significant one first

* **`beNat_beBytes`**: the number is read back.
-/

namespace SgxLkl

def beBytes : ℕ → ℕ → List (BitVec 8)
  | 0, _ => []
  | n + 1, x => beBytes n (x / 256) ++ [BitVec.ofNat 8 x]

def beNat (l : List (BitVec 8)) : ℕ := l.foldl (fun x b => x * 256 + b.toNat) 0

@[simp] theorem length_beBytes (n x : ℕ) : (beBytes n x).length = n := by
  induction n generalizing x with
  | zero => rfl
  | succ n ih => rw [beBytes, List.length_append, ih, List.length_singleton]

theorem beNat_append_singleton (l : List (BitVec 8)) (b : BitVec 8) :
    beNat (l ++ [b]) = beNat l * 256 + b.toNat := by
  rw [beNat, List.foldl_append, List.foldl_cons, List.foldl_nil, ← beNat]

theorem beNat_beBytes (n x : ℕ) : beNat (beBytes n x) = x % 256 ^ n := by
  induction n generalizing x with
  | zero => rw [Nat.pow_zero, Nat.mod_one]; rfl
  | succ n ih =>
    have hpow : 256 ^ (n + 1) = 256 * 256 ^ n := by rw [Nat.pow_succ, Nat.mul_comm]
    rw [beBytes, beNat_append_singleton, ih, BitVec.toNat_ofNat, hpow, Nat.mod_mul]
    omega

end SgxLkl
