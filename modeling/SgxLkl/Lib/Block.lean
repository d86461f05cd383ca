import Mathlib.Data.List.GetD
import Mathlib.Data.List.TakeWhile

/-!
# Blocks of memory and strings

A block that was allocated is the list of its cells. A store out of bounds has no result.

* **`storeAll_append`**: a row written behind what is in use.
-/

namespace SgxLkl

open List

variable {α : Type*}

/-! ## Stores -/

def store (b : List α) (i : ℕ) (a : α) : Option (List α) := if i < b.length then some (b.set i a) else none

def storeAll (b : List α) (i : ℕ) : List α → Option (List α)
  | [] => some b
  | a :: as => (store b i a).bind fun b' => storeAll b' (i + 1) as

theorem store_append {l r : List α} (a x : α) : store (l ++ x :: r) l.length a = some (l ++ a :: r) := by
  unfold store
  rw [if_pos (by simp)]
  simp

theorem store_append_nil (l : List α) (a : α) : store l l.length a = none := by
  unfold store
  rw [if_neg (Nat.lt_irrefl _)]

theorem storeAll_append {l r as : List α} (h : as.length ≤ r.length) :
    storeAll (l ++ r) l.length as = some (l ++ as ++ r.drop as.length) := by
  induction as generalizing l r with
  | nil => simp [storeAll]
  | cons a as ih =>
    cases r with
    | nil => simp at h
    | cons x r =>
      have hih := ih (l := l ++ [a]) (r := r) (by simpa using h)
      simp only [length_append, length_singleton, append_assoc, singleton_append] at hih
      simp only [storeAll, store_append, Option.bind_some, hih, length_cons, drop_succ_cons,
        append_assoc, cons_append]

theorem storeAll_concat (b as bs : List α) (i : ℕ) :
    storeAll b i (as ++ bs) = (storeAll b i as).bind fun b' => storeAll b' (i + as.length) bs := by
  induction as generalizing b i with
  | nil => rfl
  | cons a as ih =>
    simp only [cons_append, storeAll, length_cons]
    cases store b i a with
    | none => rfl
    | some b' => simp only [Option.bind_some, ih, Nat.add_assoc, Nat.add_comm 1]

theorem storeAll_eq_none {l r as : List α} (h : r.length < as.length) : storeAll (l ++ r) l.length as = none := by
  induction as generalizing l r with
  | nil => simp at h
  | cons a as ih =>
    cases r with
    | nil => simp [storeAll, store_append_nil]
    | cons x r =>
      have hih := ih (l := l ++ [a]) (r := r) (by simpa using h)
      simp only [length_append, length_singleton, append_assoc, singleton_append] at hih
      simp only [storeAll, store_append, Option.bind_some, hih]

/-! ## Strings -/

variable [Zero α]

/-- A string of C: the cells in front of the `0` that ends it. -/
structure CString (α : Type*) [Zero α] where
  chars : List α
  nul : (0 : α) ∉ chars

namespace CString

def get (s : CString α) (i : ℕ) : α := s.chars.getD i 0

def length (s : CString α) : ℕ := s.chars.length

def cells (s : CString α) : List α := s.chars ++ [0]

theorem length_cells (s : CString α) : s.cells.length = s.length + 1 := by simp [cells, length]

theorem ext_chars {s t : CString α} (h : s.chars = t.chars) : s = t := by
  cases s
  cases t
  cases h
  rfl

theorem get_ne_zero (s : CString α) {i : ℕ} (h : i < s.length) : s.get i ≠ 0 := by
  intro hz
  apply s.nul
  rw [← hz, get, getD_eq_getElem _ _ h]
  exact getElem_mem h

end CString

theorem prefix_iff_getD {q l : List α} (h : (0 : α) ∉ q) : q <+: l ↔ ∀ k < q.length, l.getD k 0 = q.getD k 0 := by
  induction q generalizing l with
  | nil => simp
  | cons a q ih =>
    rw [mem_cons, not_or] at h
    cases l with
    | nil =>
      refine iff_of_false (by simp) fun hall => h.1 ?_
      simpa using hall 0 (by simp)
    | cons b l =>
      rw [cons_prefix_cons, ih h.2]
      constructor
      · rintro ⟨rfl, hall⟩ k hk
        cases k with
        | zero => rfl
        | succ k => simpa using hall k (by simpa using hk)
      · intro hall
        refine ⟨by simpa using (hall 0 (by simp)).symm, fun k hk => ?_⟩
        simpa using hall (k + 1) (by simpa using hk)

/-- Reads the string at cell `i`, if it ends within the block. -/
def readString [DecidableEq α] (b : List α) (i : ℕ) : Option (CString α) :=
  if i + ((b.drop i).takeWhile (· ≠ 0)).length < b.length then
    some ⟨(b.drop i).takeWhile (· ≠ 0), fun h => by simpa using List.mem_takeWhile_imp h⟩
  else none

theorem readString_append [DecidableEq α] (l r : List α) (s : CString α) :
    readString (l ++ (s.cells ++ r)) l.length = some s := by
  have htake : (s.cells ++ r).takeWhile (· ≠ 0) = s.chars := by
    have hall : ∀ x ∈ s.chars, decide (x ≠ 0) = true := fun x hx =>
      decide_eq_true fun hz => s.nul (hz ▸ hx)
    rw [CString.cells, append_assoc, takeWhile_append_of_pos hall]
    simp
  unfold readString
  simp only [drop_left, htake]
  rw [if_pos (by simp [CString.cells])]

end SgxLkl
