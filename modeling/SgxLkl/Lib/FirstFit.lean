import Mathlib

/-!
# Cells: first fit and counts

Cells are numbered from `0`; `free i` says that cell `i` is free.

* **`FreeRun.skip`**: an occupied cell `k` rules out every run that starts in `[i, k]` and reaches
  past `k`. This is what lets a search jump from `i` to `k + 1`.
* `countIn q a b` is the number of `i` in `[a, b)` with `q i`; `countIn_succ` adds one cell at the
  top, `countIn_eq_of_miss` skips cells that do not count, `countIn_update` changes some.
-/

namespace SgxLkl

variable {free : ℕ → Prop}

def FreeRun (free : ℕ → Prop) (i p : ℕ) : Prop := ∀ j, i ≤ j → j < i + p → free j

/-- The run of `p` cells at `i` is the lowest free one below `n`. -/
structure IsFirstFit (free : ℕ → Prop) (n p i : ℕ) : Prop where
  fits : i + p ≤ n
  run : FreeRun free i p
  least : ∀ k < i, ¬ FreeRun free k p

variable {i j n p : ℕ}

theorem IsFirstFit.unique (hi : IsFirstFit free n p i) (hj : IsFirstFit free n p j) : i = j := by
  rcases Nat.lt_trichotomy i j with h | h | h
  · exact absurd hi.run (hj.least i h)
  · exact h
  · exact absurd hj.run (hi.least j h)

theorem exists_firstFit (hn : i + p ≤ n) (hi : FreeRun free i p) : ∃ j, IsFirstFit free n p j := by
  classical
  have hex : ∃ j, FreeRun free j p := ⟨i, hi⟩
  refine ⟨Nat.find hex, ?_, Nat.find_spec hex, fun k hk => Nat.find_min hex hk⟩
  have := Nat.find_min' hex hi
  omega

/-- **Skipping.** No run of `p` free cells starts between `i` and an occupied cell `k` it would
reach. -/
theorem FreeRun.skip {k : ℕ} (hk : ¬ free k) (hkp : k < i + p) (hij : i ≤ j) (hjk : j ≤ k) : ¬ FreeRun free j p :=
  fun h => hk (h k hjk (by omega))

theorem FreeRun.head (h : FreeRun free i p) (hp : 0 < p) : free i :=
  h i le_rfl (by omega)

/-! ## Counts -/

open Finset

variable {q : ℕ → Bool}

def countIn (q : ℕ → Bool) (a b : ℕ) : ℕ := ((Finset.Ico a b).filter fun i => q i = true).card

theorem countIn_self (a : ℕ) : countIn q a a = 0 := by simp [countIn]

variable {a b : ℕ}

theorem countIn_succ (hab : a ≤ b) : countIn q a (b + 1) = countIn q a b + if q b then 1 else 0 := by
  rw [countIn, ← insert_Ico_right_eq_Ico_add_one hab, filter_insert]
  split_ifs with h
  · rw [card_insert_of_notMem (by simp), countIn]
  · rfl

theorem countIn_eq_zero : countIn q a b = 0 ↔ ∀ i, a ≤ i → i < b → q i = false := by
  simp [countIn, filter_eq_empty_iff]

theorem countIn_le (a b : ℕ) : countIn q a b ≤ b - a := by
  rw [countIn, ← Nat.card_Ico]
  exact card_filter_le _ _

theorem countIn_eq_length : countIn q a b = b - a ↔ ∀ i, a ≤ i → i < b → q i = true := by
  rw [countIn, ← Nat.card_Ico a b, card_filter_eq_iff]
  simp

variable {q' : ℕ → Bool} {c t : ℕ}

theorem countIn_split (hab : a ≤ b) (hbc : b ≤ c) : countIn q a c = countIn q a b + countIn q b c := by
  rw [countIn, countIn, countIn, ← Finset.Ico_union_Ico_eq_Ico hab hbc, filter_union,
    card_union_of_disjoint]
  exact disjoint_filter_filter (Finset.Ico_disjoint_Ico_consecutive a b c)

theorem countIn_eq_of_miss (hab : a ≤ b) (hbc : b ≤ c) (h : ∀ i, b ≤ i → i < c → q i = false) :
    countIn q a c = countIn q a b := by
  rw [countIn_split hab hbc, countIn_eq_zero.mpr h, Nat.add_zero]

theorem countIn_congr (h : ∀ i, a ≤ i → i < b → q i = q' i) : countIn q a b = countIn q' a b := by
  refine congrArg card (filter_congr fun i hi => ?_)
  rw [h i (Finset.mem_Ico.mp hi).1 (Finset.mem_Ico.mp hi).2]

/-- Only the cells from `t` to `t + p` change. -/
theorem countIn_update (hfit : t + p ≤ n) (h : ∀ i < n, ¬ (t ≤ i ∧ i < t + p) → q' i = q i) :
    countIn q' 0 n + countIn q t (t + p) = countIn q 0 n + countIn q' t (t + p) := by
  have hlow : countIn q' 0 t = countIn q 0 t := countIn_congr fun i _ hi => h i (by omega) (by omega)
  have hhigh : countIn q' (t + p) n = countIn q (t + p) n :=
    countIn_congr fun i hi hn => h i hn (by omega)
  rw [countIn_split (q := q') (Nat.zero_le t) (by omega),
    countIn_split (q := q') (Nat.le_add_right t p) hfit, countIn_split (q := q) (Nat.zero_le t)
    (by omega), countIn_split (q := q) (Nat.le_add_right t p) hfit, hlow, hhigh]
  omega

end SgxLkl
