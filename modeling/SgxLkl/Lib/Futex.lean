import Mathlib

/-!
# A word on which threads sleep

A thread sleeps on the word only if the word has the value it expects, and a wake wakes all sleepers.
No sleeper is stranded as long as the word keeps that value, or somebody is going to wake.

* **`Futex.Covered.set`**: who changes the word away from `v` has to wake.
-/

namespace SgxLkl

/-- A word and the threads that sleep on it. -/
structure Futex (α τ : Type*) where
  word : α
  sleepers : Finset τ

namespace Futex

variable {α τ : Type*} [DecidableEq τ] {f : Futex α τ} {v w : α} {p p' : Prop} {t : τ}

def enter (f : Futex α τ) (t : τ) : Futex α τ := { f with sleepers := insert t f.sleepers }

def leave (f : Futex α τ) (t : τ) : Futex α τ := { f with sleepers := f.sleepers.erase t }

def wake (f : Futex α τ) : Futex α τ := { f with sleepers := ∅ }

def set (f : Futex α τ) (w : α) : Futex α τ := { f with word := w }

section

omit [DecidableEq τ]

@[simp] theorem word_wake : f.wake.word = f.word := rfl

@[simp] theorem word_set : (f.set w).word = w := rfl

@[simp] theorem sleepers_set : (f.set w).sleepers = f.sleepers := rfl

@[simp] theorem sleepers_wake : f.wake.sleepers = ∅ := rfl

/-- If anybody sleeps, the word has the value `v` or a wake is pending. -/
def Covered (f : Futex α τ) (v : α) (pending : Prop) : Prop :=
  f.sleepers.Nonempty → f.word = v ∨ pending

theorem covered_wake : f.wake.Covered v p := fun h => absurd h Finset.not_nonempty_empty

/-- **Stores.** Whoever changes the word away from `v` has to wake. -/
theorem Covered.set (h : f.Covered v p) (hp : p → p') (hw : f.word = v → w = v ∨ p') : (f.set w).Covered v p' :=
  fun hs => (h hs).elim hw fun hpend => .inr (hp hpend)

end

@[simp] theorem word_enter : (f.enter t).word = f.word := rfl

@[simp] theorem word_leave : (f.leave t).word = f.word := rfl

@[simp] theorem sleepers_enter : (f.enter t).sleepers = insert t f.sleepers := rfl

@[simp] theorem sleepers_leave : (f.leave t).sleepers = f.sleepers.erase t := rfl

theorem covered_enter (h : f.word = v) : (f.enter t).Covered v p := fun _ => .inl h

theorem Covered.leave (h : f.Covered v p) : (f.leave t).Covered v p := by
  rintro ⟨u, hu⟩
  exact h ⟨u, Finset.mem_of_mem_erase hu⟩

end Futex

end SgxLkl
