import SgxLkl.Lib.Lts

/-!
# Interleaved threads

Any number of threads make steps on a shared state, one thread at a time. A step relation
`step t l s a l' s'` is given: thread `t` goes from the local state `l` to `l'`, and the shared state
from `s` to `s'`.

* **`Interleave.run_inv`**: the thread-modular invariant rule. A step of `t` keeps what is said about
  the shared state and about `t`, and does not interfere with what is said about the others.
-/

namespace SgxLkl

open Function

variable {τ L S A : Type*}

/-- The local states of all threads, and what they share. -/
structure Config (τ L S : Type*) where
  loc : τ → L
  shared : S

inductive Interleave [DecidableEq τ] (step : τ → L → S → A → L → S → Prop) :
    Config τ L S → A → Config τ L S → Prop
  | of {c : Config τ L S} (t : τ) {a : A} {l' : L} {s' : S}
      (h : step t (c.loc t) c.shared a l' s') :
      Interleave step c a ⟨update c.loc t l', s'⟩

namespace Interleave

variable [DecidableEq τ] {step : τ → L → S → A → L → S → Prop}

theorem solo {step : Unit → L → S → A → L → S → Prop} {l l' : L} {s s' : S} {a : A}
    (h : step () l s a l' s') : Interleave step ⟨fun _ => l, s⟩ a ⟨fun _ => l', s'⟩ :=
  .of (c := ⟨fun _ => l, s⟩) () h

/-- **Thread-modular invariants.** `g` is ghost state, `G` speaks of the shared state and `P` of one
thread. The run satisfies the assumption `H` all along. -/
theorem run_inv {γ : Type*} {H : List A → Prop} {G : List A → γ → S → Prop} {P : List A → γ → τ → L → S → Prop}
    (hstep : ∀ ls g t l s a l' s', H (ls ++ [a]) → G ls g s → P ls g t l s → step t l s a l' s' →
      ∃ g', G (ls ++ [a]) g' s' ∧ P (ls ++ [a]) g' t l' s' ∧ ∀ u k, u ≠ t → P ls g u k s → P (ls ++ [a]) g' u k s')
    {c₀ c : Config τ L S} {ls : List A} (hrun : Run (Interleave step) c₀ ls c)
    (hok : ∀ p, p <+: ls → H p) {k : γ} (hG : G [] k c₀.shared) (hP : ∀ t, P [] k t (c₀.loc t) c₀.shared) :
    ∃ g, G ls g c.shared ∧ ∀ t, P ls g t (c.loc t) c.shared := by
  refine hrun.history (I := fun ls c => (∀ p, p <+: ls → H p) →
    ∃ g, G ls g c.shared ∧ ∀ t, P ls g t (c.loc t) c.shared) ?_ (fun _ => ⟨k, hG, hP⟩) hok
  rintro ls c a c' hinv hs hok
  obtain ⟨g, hG, hP⟩ := hinv fun p hp => hok p (hp.trans (List.prefix_append ..))
  cases hs with
  | @of t _ l' s' hs =>
  obtain ⟨g', hG', hPt, hPu⟩ := hstep ls g t _ _ a l' s' (hok _ List.prefix_rfl) hG (hP t) hs
  refine ⟨g', hG', fun u => ?_⟩
  change P _ g' u (update c.loc t l' u) s'
  by_cases hu : u = t
  · subst hu
    rwa [update_self]
  · rw [update_of_ne hu]
    exact hPu u _ hu (hP u)

end Interleave

end SgxLkl
