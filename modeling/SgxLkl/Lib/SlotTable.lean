import SgxLkl.Lib.Lts

/-!
# Slot tables

A table gives each of finitely many slots a value, or leaves it free. The same value may be in several slots.

* **`TableStep.contents`**, **`Run.contents`**: only the multiset counts.
-/

namespace SgxLkl

open Option Finset Function

variable {ι α : Type*} [Fintype ι]

def contents (f : ι → Option α) : Multiset α := ∑ i, (f i).elim 0 ({·})

theorem mem_contents {f : ι → Option α} {a : α} : a ∈ contents f ↔ ∃ i, f i = some a := by
  rw [contents, Multiset.mem_sum]
  refine ⟨fun ⟨i, _, hi⟩ => ⟨i, ?_⟩, fun ⟨i, hi⟩ => ⟨i, mem_univ i, ?_⟩⟩
  · cases h : f i with
    | none => simp [h] at hi
    | some b =>
      rw [h, elim_some, Multiset.mem_singleton] at hi
      rw [hi]
  · rw [hi]
    exact Multiset.mem_singleton_self a

@[simp] theorem contents_none : contents (fun _ : ι => (none : Option α)) = 0 := by simp [contents]

theorem card_contents {n : ℕ} (f : Fin n → Option α) :
    (contents f).card = ((List.finRange n).filter fun i => (f i).isSome).length := by
  have hcard : ((List.finRange n).filter fun i => (f i).isSome).length =
      (Finset.univ.filter fun i => (f i).isSome = true).card := by
    rw [card_def, filter_val, Fin.univ_def, Multiset.filter_coe, Multiset.coe_card]
    simp
  rw [hcard, contents, Multiset.card_sum, card_filter]
  refine sum_congr rfl fun i _ => ?_
  cases f i <;> rfl

section

variable [DecidableEq ι]

theorem contents_eq (f : ι → Option α) (i : ι) :
    contents f = (f i).elim 0 ({·}) + ∑ j ∈ Finset.univ.erase i, (f j).elim 0 ({·}) :=
  (add_sum_erase univ _ (mem_univ i)).symm

theorem contents_update (f : ι → Option α) (i : ι) (x : Option α) :
    contents (update f i x) = x.elim 0 ({·}) + ∑ j ∈ Finset.univ.erase i, (f j).elim 0 ({·}) := by
  rw [contents_eq _ i, update_self]
  refine congrArg _ (sum_congr rfl fun j hj => ?_)
  rw [update_of_ne (ne_of_mem_erase hj)]

end

inductive TableOp (α : Type*)
  | insert (a : α)
  | replace (a b : α)
  | erase (a : α)

def TableOp.apply [DecidableEq α] (m : Multiset α) : TableOp α → Multiset α
  | .insert a => a ::ₘ m
  | .replace a b => b ::ₘ m.erase a
  | .erase a => m.erase a

inductive TableStep [DecidableEq ι] : (ι → Option α) → TableOp α → (ι → Option α) → Prop
  | insert {f : ι → Option α} {i : ι} {a : α} (h : f i = none) :
    TableStep f (.insert a) (update f i (some a))
  | replace {f : ι → Option α} {i : ι} {a b : α} (h : f i = some a) :
    TableStep f (.replace a b) (update f i (some b))
  | erase {f : ι → Option α} {i : ι} {a : α} (h : f i = some a) :
    TableStep f (.erase a) (update f i none)

variable [DecidableEq ι] [DecidableEq α]

/-- **A step does to the values what it says.** -/
theorem TableStep.contents {f g : ι → Option α} {op : TableOp α} (h : TableStep f op g) :
    SgxLkl.contents g = op.apply (SgxLkl.contents f) := by
  cases h with
  | @insert i a h =>
    rw [TableOp.apply, contents_update, contents_eq f i, h, elim_none, elim_some, zero_add, Multiset.singleton_add]
  | @replace i a b h =>
    rw [TableOp.apply, contents_update, contents_eq f i, h, elim_some, elim_some,
      Multiset.singleton_add, Multiset.singleton_add, Multiset.erase_cons_head]
  | @erase i a h =>
    rw [TableOp.apply, contents_update, contents_eq f i, h, elim_some, elim_none, zero_add,
      Multiset.singleton_add, Multiset.erase_cons_head]

theorem Run.contents {f g : ι → Option α} {ops : List (TableOp α)} (h : Run TableStep f ops g) :
    SgxLkl.contents g = ops.foldl TableOp.apply (SgxLkl.contents f) := by
  induction h with
  | nil => rfl
  | cons hstep _ ih => rw [List.foldl_cons, ih, hstep.contents]

end SgxLkl
