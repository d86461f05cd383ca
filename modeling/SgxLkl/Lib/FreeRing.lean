import Mathlib

/-!
# Rings with free-running indices

An index counts entries modulo `2 ^ w` and is never reset; `slot` gives the place of an index in the ring. The entries
between two indices are a queue.

* **`ringEntries_succ`**: the first entry leaves; **`ringEntries_push`**: an entry is put behind the last one.
-/

namespace SgxLkl

open List Function

variable {w : ℕ} {α β : Type*}

def ringEntries (ring : β → α) (slot : BitVec w → β) (start : BitVec w) (n : ℕ) : List α :=
  (List.range n).map fun i => ring (slot (start + BitVec.ofNat w i))

/-- Indices that are less than `n` apart have different places. -/
def Apart (slot : BitVec w → β) (n : ℕ) : Prop :=
  ∀ idx i, 0 < i → i < n → slot (idx + BitVec.ofNat w i) ≠ slot idx

variable {ring : β → α} {slot : BitVec w → β} {start : BitVec w} {n : ℕ}

@[simp] theorem ringEntries_zero : ringEntries ring slot start 0 = [] := rfl

@[simp] theorem length_ringEntries : (ringEntries ring slot start n).length = n := by
  simp [ringEntries]

theorem ringEntries_succ :
    ringEntries ring slot start (n + 1) = ring (slot start) :: ringEntries ring slot (start + 1) n := by
  simp only [ringEntries, range_succ_eq_map, map_cons, map_map]
  congr 1
  · simp
  · refine map_congr_left fun i _ => ?_
    simp only [comp_apply]
    rw [BitVec.add_assoc, Nat.succ_eq_one_add, BitVec.ofNat_add]
    rfl

theorem ringEntries_update [DecidableEq β] (ring : β → α) {s : β} (x : α)
    (hs : ∀ i < n, slot (start + BitVec.ofNat w i) ≠ s) :
    ringEntries (update ring s x) slot start n = ringEntries ring slot start n :=
  map_congr_left fun i hi => update_of_ne (hs i (mem_range.mp hi)) x ring

theorem ringEntries_push [DecidableEq β] {m : ℕ} (hslot : Apart slot m) (ring : β → α) (start : BitVec w) (hn : n < m)
    (x : α) : ringEntries (update ring (slot (start + BitVec.ofNat w n)) x) slot start (n + 1) =
      ringEntries ring slot start n ++ [x] := by
  have hne : ∀ i < n, slot (start + BitVec.ofNat w i) ≠ slot (start + BitVec.ofNat w n) := by
    intro i hi heq
    obtain ⟨d, rfl⟩ := Nat.exists_eq_add_of_lt hi
    refine hslot (start + BitVec.ofNat w i) (d + 1) (by omega) (by omega) ?_
    rw [BitVec.add_assoc, ← BitVec.ofNat_add]
    exact heq.symm
  rw [← ringEntries_update ring x hne]
  simp [ringEntries, range_succ]

end SgxLkl
