import SgxLkl.Lib.FirstFit
import SgxLkl.Mem.Model

/-!
# Counting and first-fit search on a bitmap

For bitmaps of fewer than `2^31` bits:

* **`bitmapCountSetBits_eq`**: a range inside the bitmap is counted exactly.
* **`countLoop_stuck`**: a range that starts behind the bitmap is never left, whatever the number
  of rounds.
* **`bitmapFindNextZeroArea_spec`**: the search returns the first fit, and a value past the end only
  if no run of that length is free.
-/

namespace SgxLkl

open BitVec

variable (m : ℤ → Word) (map : ℤ) {size : Word}

theorem isNext_findNextBit_le (hsize : size.toNat < 2 ^ 31) (offset : Word) (hoff : offset.toNat ≤ size.toNat) :
    IsNext (mapBit m map) offset.toNat size.toNat (findNextBit m map size offset).toNat := by
  rcases Nat.lt_or_ge offset.toNat size.toNat with h | h
  · exact isNext_findNextBit m map hsize h
  · rw [findNextBit, findNext_of_le _ _ _ (le_def.mpr h)]
    exact ⟨hoff, by omega, by omega, by omega, by omega⟩

theorem isNext_findNextZeroBit_le (hsize : size.toNat < 2 ^ 31) (offset : Word) (hoff : offset.toNat ≤ size.toNat) :
    IsNext (fun i => !mapBit m map i) offset.toNat size.toNat (findNextZeroBit m map size offset).toNat := by
  rcases Nat.lt_or_ge offset.toNat size.toNat with h | h
  · exact isNext_findNextZeroBit m map hsize h
  · rw [findNextZeroBit, findNext_of_le _ _ _ (le_def.mpr h)]
    exact ⟨hoff, by omega, by omega, by omega, by omega⟩

/-! ## Counting -/

variable {nr start : Word}

variable (hsize : size.toNat < 2 ^ 31)

include hsize

/-- The counting loop, by induction on its rounds: `retval` counts the set bits before `bit`, and
`bit` is the next one. -/
theorem countLoop_eq (hend : start.toNat + nr.toNat ≤ size.toNat) (fuel : ℕ) (bit retval : CInt)
    (hge : start.toNat ≤ bit.toNat) (hlt : bit.toNat < size.toNat + 64)
    (hset : bit.toNat < start.toNat + nr.toNat → mapBit m map bit.toNat = true) (hcount : retval.toNat =
      countIn (mapBit m map) start.toNat (min bit.toNat (start.toNat + nr.toNat)))
    (hfuel : start.toNat + nr.toNat - bit.toNat < fuel) : countLoop m map size start nr fuel bit retval =
      some (BitVec.ofNat 64 (countIn (mapBit m map) start.toNat (start.toNat + nr.toNat))) := by
  have hadd : (start + nr).toNat = start.toNat + nr.toNat := by
    rw [toNat_add]; omega
  have hcle := countIn_le (q := mapBit m map) start.toNat (start.toNat + nr.toNat)
  have hw : ∀ x : CInt, (x.setWidth 64).toNat = x.toNat := fun x => by
    rw [toNat_setWidth]; omega
  induction fuel generalizing bit retval with
  | zero => omega
  | succ fuel ih =>
    rw [countLoop]
    by_cases h : bit.toNat < start.toNat + nr.toNat
    swap
    · -- the loop ends at the first set bit past the range
      rw [if_neg (by rw [lt_def, hw, hadd]; exact h), Option.some_inj, ← toNat_inj,
        hw, hcount, min_eq_right (show start.toNat + nr.toNat ≤ bit.toNat by omega),
        toNat_ofNat, Nat.mod_eq_of_lt (by omega)]
    rw [if_pos (by rw [lt_def, hw, hadd]; exact h)]
    rw [min_eq_left (le_of_lt h)] at hcount
    have hone : ((bit + 1).setWidth 64).toNat = bit.toNat + 1 := by
      rw [hw, toNat_add, show (1 : CInt).toNat = 1 from rfl]; omega
    have hnext := isNext_findNextBit_le m map hsize ((bit + 1).setWidth 64)
      (by rw [hone]; omega)
    rw [hone] at hnext
    have hge' := hnext.ge; have hlt' := hnext.lt
    set r := findNextBit m map size ((bit + 1).setWidth 64)
    have hr : (r.setWidth 32 : CInt).toNat = r.toNat := by
      rw [toNat_setWidth]; omega
    have hsucc := countIn_succ (q := mapBit m map) hge
    rw [hset h, if_pos rfl, ← hcount] at hsucc
    have hmiss : countIn (mapBit m map) start.toNat (min r.toNat (start.toNat + nr.toNat)) =
        countIn (mapBit m map) start.toNat (bit.toNat + 1) :=
      countIn_eq_of_miss (by omega) (by omega) fun i h1 h2 => hnext.miss i h1 (by omega) (by omega)
    have hret : (retval + 1).toNat = retval.toNat + 1 := by
      have := countIn_le (q := mapBit m map) start.toNat bit.toNat
      rw [toNat_add, show (1 : CInt).toNat = 1 from rfl]; omega
    exact ih (r.setWidth 32) (retval + 1) (by omega) (by omega)
      (fun h' => by rw [hr]; exact hnext.hit (by omega)) (by rw [hr, hmiss, hsucc, hret]) (by omega)

theorem bitmapCountSetBits_eq
    (hend : start.toNat + nr.toNat ≤ size.toNat) : bitmapCountSetBits m map size start nr =
      some (BitVec.ofNat 64 (countIn (mapBit m map) start.toNat (start.toNat + nr.toNat))) := by
  have hnext := isNext_findNextBit_le m map hsize start (by omega)
  have hge := hnext.ge; have hlt := hnext.lt
  set r := findNextBit m map size start with hrdef
  have hr : (r.setWidth 32 : CInt).toNat = r.toNat := by
    rw [toNat_setWidth]; omega
  rw [bitmapCountSetBits, ← hrdef]
  refine countLoop_eq m map hsize hend _ _ _ (by omega) (by omega)
    (fun h => by rw [hr]; exact hnext.hit (by omega)) ?_ (by omega)
  rw [hr, countIn_eq_of_miss (b := start.toNat) le_rfl (by omega)
    fun i h1 h2 => hnext.miss i h1 (by omega) (by omega), countIn_self]
  rfl

/-- **A count that starts behind the bitmap never ends.** The search stands still at `size`. -/
theorem countLoop_stuck (hlt : size < start + nr) (fuel : ℕ) (retval : CInt) :
    countLoop m map size start nr fuel (size.setWidth 32) retval = none := by
  have hs : (size.setWidth 32 : CInt).toNat = size.toNat := by
    rw [toNat_setWidth]; omega
  have hw : (size.setWidth 32 : CInt).setWidth 64 = size := by
    rw [← toNat_inj, toNat_setWidth, hs]; omega
  have hone : ((size.setWidth 32 + 1 : CInt).setWidth 64).toNat = size.toNat + 1 := by
    rw [toNat_setWidth, toNat_add, hs, show (1 : CInt).toNat = 1 from rfl]; omega
  induction fuel generalizing retval with
  | zero => rfl
  | succ fuel ih =>
    rw [countLoop, hw, if_pos hlt, findNextBit, findNext_of_le _ _ _ (le_def.mpr (by omega))]
    exact ih (retval + 1)

/-! ## First fit -/

/-- The search loop, by induction on its rounds: no run starts below `start`. -/
theorem zeroAreaLoop_spec (hpos : 0 < nr.toNat)
    (hnr : nr.toNat < 2 ^ 63) (fuel : ℕ) (start : Word) (hle : start.toNat ≤ size.toNat)
    (hinv : ∀ k < start.toNat, ¬ FreeRun (fun i => mapBit m map i = false) k nr.toNat)
    (hfuel : size.toNat < start.toNat + fuel) : ∃ r, zeroAreaLoop m map size nr fuel start = some r ∧
      (IsFirstFit (fun i => mapBit m map i = false) size.toNat nr.toNat r.toNat ∨
        size.toNat < r.toNat ∧ r.toNat < 2 ^ 63 + 2 ^ 32 ∧ ∀ k, k + nr.toNat ≤ size.toNat →
            ¬ FreeRun (fun i => mapBit m map i = false) k nr.toNat) := by
  induction fuel generalizing start with
  | zero => omega
  | succ fuel ih =>
    have hnext := isNext_findNextZeroBit_le m map hsize start hle
    rw [zeroAreaLoop]
    set index := findNextZeroBit m map size start
    have hge := hnext.ge; have hlt := hnext.lt
    have hstop : (index + nr).toNat = index.toNat + nr.toNat := by
      rw [toNat_add]; omega
    -- a run that starts before `index` would start at an occupied page
    have hbefore : ∀ k < index.toNat, k < size.toNat → ¬ FreeRun (fun i => mapBit m map i = false) k nr.toNat := by
      intro k hk hks hrun
      by_cases hkst : k < start.toNat
      · exact hinv k hkst hrun
      · have hocc := hnext.miss k (by omega) hk hks
        rw [hrun.head hpos] at hocc
        exact Bool.noConfusion hocc
    by_cases hover : index + nr > size
    · have hover' : size.toNat < index.toNat + nr.toNat := by
        rw [← hstop]; exact lt_def.mp hover
      simp only [if_pos hover]
      refine ⟨index + nr, rfl, Or.inr ⟨by omega, by omega, fun k hk => ?_⟩⟩
      exact hbefore k (by omega) (by omega)
    · have hfit : index.toNat + nr.toNat ≤ size.toNat := by
        rw [← hstop]; exact Nat.le_of_not_lt fun h => hover (lt_def.mpr h)
      simp only [if_neg hover]
      have hocc : IsNext (mapBit m map) index.toNat (index + nr).toNat (findNextBit m map (index + nr) index).toNat :=
        isNext_findNextBit m map (by omega) (by omega)
      set i := findNextBit m map (index + nr) index
      have hige := hocc.ge; have hilt := hocc.lt
      by_cases hi : i < index + nr
      · have hi' : i.toNat < index.toNat + nr.toNat := by rw [← hstop]; exact lt_def.mp hi
        have hone : (i + 1).toNat = i.toNat + 1 := by
          rw [toNat_add, show (1 : Word).toNat = 1 from rfl]; omega
        rw [if_pos hi]
        refine ih (i + 1) (by omega) (fun k hk => ?_) (by omega)
        rcases Nat.lt_or_ge k index.toNat with hki | hki
        · exact hbefore k hki (by omega)
        · have hset : ¬ mapBit m map i.toNat = false := by
            rw [hocc.hit (by omega)]; exact Bool.noConfusion
          exact FreeRun.skip hset hi' hki (by omega)
      · have hi' : index.toNat + nr.toNat ≤ i.toNat := by
          rw [← hstop]; exact Nat.le_of_not_lt fun h => hi (lt_def.mpr h)
        rw [if_neg hi]
        refine ⟨index, rfl, Or.inl ⟨hfit, fun j h1 h2 => ?_, fun k hk => hbefore k hk (by omega)⟩⟩
        exact hocc.miss j h1 (by omega) (by omega)

theorem bitmapFindNextZeroArea_spec (hpos : 0 < nr.toNat)
    (hnr : nr.toNat < 2 ^ 63) : ∃ r, bitmapFindNextZeroArea m map size 0 nr = some r ∧
      (IsFirstFit (fun i => mapBit m map i = false) size.toNat nr.toNat r.toNat ∨
        size.toNat < r.toNat ∧ r.toNat < 2 ^ 63 + 2 ^ 32 ∧ ∀ k, k + nr.toNat ≤ size.toNat →
            ¬ FreeRun (fun i => mapBit m map i = false) k nr.toNat) :=
  zeroAreaLoop_spec m map hsize hpos hnr _ 0 (Nat.zero_le _) (fun _ hk => absurd hk (Nat.not_lt_zero _))
    (by rw [show (0 : Word).toNat = 0 from rfl]; omega)

theorem bitmapFindNextZeroArea_zero :
    ∃ r, bitmapFindNextZeroArea m map size 0 0 = some r ∧ r.toNat ≤ size.toNat := by
  have hle := (isNext_findNextZeroBit_le m map hsize 0 (Nat.zero_le _)).le rfl
  refine ⟨findNextZeroBit m map size 0, ?_, hle⟩
  have hzero : findNextZeroBit m map size 0 + 0 = findNextZeroBit m map size 0 := add_zero _
  rw [bitmapFindNextZeroArea, zeroAreaLoop]
  simp only [hzero]
  rw [if_neg (fun h => absurd (BitVec.lt_def.mp h) (by omega)), findNextBit,
    findNext_of_le _ _ _ (BitVec.le_refl _), if_neg (BitVec.lt_irrefl _)]

end SgxLkl
