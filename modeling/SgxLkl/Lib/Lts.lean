import Mathlib

/-!
# Runs of a labelled transition system

A step relation `step : σ → α → σ → Prop` is given; a label records what a step did.

* **`Run.inv`**: what one step preserves, a run preserves; `Run.inv_or_exists` with a way out,
  `Run.history` with the labels so far (`append_singleton_eq` finds a label in them), `Run.guarded` and
  `Run.guarded_of_mem` for a guard that follows from an invariant or from the labels.
* **`Run.total`**: a system that answers single requests answers lists of them.
* **`Run.sim`**: a simulation of single steps lifts to runs.
-/

namespace SgxLkl

open List

variable {σ τ α : Type*}

/-- A run with the labels of its steps. -/
inductive Run (step : σ → α → σ → Prop) : σ → List α → σ → Prop
  | nil (s : σ) : Run step s [] s
  | cons {s t u : σ} {a : α} {l : List α} : step s a t → Run step t l u → Run step s (a :: l) u

/-- The steps whose label is admissible in the state they start from. -/
def Guarded (step : σ → α → σ → Prop) (ok : σ → α → Prop) (s : σ) (a : α) (t : σ) : Prop :=
  ok s a ∧ step s a t

theorem append_singleton_eq {ls l₁ l₂ : List α} {a b : α} (h : ls ++ [a] = l₁ ++ b :: l₂) :
    (ls = l₁ ∧ a = b ∧ l₂ = []) ∨ ∃ l₃, ls = l₁ ++ b :: l₃ ∧ l₂ = l₃ ++ [a] := by
  rcases eq_nil_or_concat l₂ with rfl | ⟨l₃, a', rfl⟩
  · obtain ⟨rfl, hab⟩ := append_inj' h rfl
    exact .inl ⟨rfl, by simpa using hab, rfl⟩
  · rw [concat_eq_append, ← cons_append, ← append_assoc] at h
    obtain ⟨rfl, hab⟩ := append_inj' h rfl
    obtain rfl : a = a' := by simpa using hab
    exact .inr ⟨l₃, rfl, concat_eq_append⟩

namespace Run

variable {step : σ → α → σ → Prop}

variable {s t u : σ} {l₁ l₂ : List α}

theorem append (h₁ : Run step s l₁ t) (h₂ : Run step t l₂ u) : Run step s (l₁ ++ l₂) u := by
  induction h₁ with
  | nil => exact h₂
  | cons hs _ ih => exact .cons hs (ih h₂)

theorem split (h : Run step s (l₁ ++ l₂) u) : ∃ t, Run step s l₁ t ∧ Run step t l₂ u := by
  induction l₁ generalizing s with
  | nil => exact ⟨s, .nil s, h⟩
  | cons a l₁ ih =>
    cases h with
    | cons hs hr =>
      obtain ⟨t, h₁, h₂⟩ := ih hr
      exact ⟨t, .cons hs h₁, h₂⟩

variable {I : σ → Prop} {l : List α}

/-- **Invariants.** A property kept by every step is kept by every run. -/
theorem inv (hstep : ∀ s a t, I s → step s a t → I t) (h : Run step s l t) (hs : I s) : I t := by
  induction h with
  | nil => exact hs
  | cons ha _ ih => exact ih (hstep _ _ _ hs ha)

/-- **Histories.** The invariant may speak of the labels so far. -/
theorem history {I : List α → σ → Prop} (hstep : ∀ l s a t, I l s → step s a t → I (l ++ [a]) t)
    (h : Run step s l t) (hs : I [] s) : I l t := by
  suffices hgen : ∀ l₀, I l₀ s → I (l₀ ++ l) t from hgen [] hs
  clear hs
  induction h with
  | nil =>
    intro l₀ h₀
    rwa [append_nil]
  | @cons s t u a l ha _ ih =>
    intro l₀ h₀
    rw [append_cons]
    exact ih _ (hstep _ _ _ _ h₀ ha)

theorem guarded {ok : σ → α → Prop} (hstep : ∀ s a t, I s → step s a t → I t)
    (hok : ∀ s a, I s → ok s a) (h : Run step s l t) (hs : I s) : Run (Guarded step ok) s l t := by
  induction h with
  | nil => exact .nil _
  | cons ha _ ih => exact .cons ⟨hok _ _ hs, ha⟩ (ih (hstep _ _ _ hs ha))

variable {p : α → Prop}

theorem guarded_of_mem (h : Run step s l t) (hl : ∀ a ∈ l, p a) : Run (Guarded step fun _ a => p a) s l t := by
  induction h with
  | nil => exact .nil _
  | cons ha _ ih =>
    exact .cons ⟨hl _ mem_cons_self, ha⟩ (ih fun a ha => hl a (mem_cons_of_mem _ ha))

theorem map {step' : τ → α → τ → Prop} (f : σ → τ)
    (hf : ∀ s a t, step s a t → step' (f s) a (f t)) (h : Run step s l t) : Run step' (f s) l (f t) := by
  induction h with
  | nil => exact .nil _
  | cons ha _ ih => exact .cons (hf _ _ _ ha) ih

theorem mono {step' : σ → α → σ → Prop} (hle : ∀ s a t, step s a t → step' s a t) (h : Run step s l t) :
    Run step' s l t :=
  h.map id hle

theorem filter [DecidablePred p] (hp : ∀ s a t, step s a t → ¬ p a → t = s) (h : Run step s l t) : Run step s
    (l.filter p) t := by
  induction h with
  | nil => exact .nil _
  | @cons s t u a l ha _ ih =>
    by_cases hpa : p a
    · rw [filter_cons_of_pos (by simpa using hpa)]
      exact .cons ha ih
    · rw [filter_cons_of_neg (by simpa using hpa), ← hp _ _ _ ha hpa]
      exact ih

/-- **Until.** If every step keeps `I` or has a label in `p`, so does every run. -/
theorem inv_or_exists (hstep : ∀ s a t, I s → step s a t → p a ∨ I t) (h : Run step s l t)
    (hs : I s) : (∃ a ∈ l, p a) ∨ I t := by
  induction h with
  | nil => exact .inr hs
  | @cons s t u a l ha _ ih =>
    rcases hstep _ _ _ hs ha with hpa | ht
    · exact .inl ⟨a, mem_cons_self, hpa⟩
    · exact (ih ht).imp_left fun ⟨b, hb, hpb⟩ => ⟨b, mem_cons_of_mem _ hb, hpb⟩

/-- **Progress.** If in every state that satisfies `I` each admissible request is answered by a step
that keeps `I`, every list of admissible requests is answered by a run. -/
theorem total {γ : Type*} {ok : γ → Prop} {req : α → γ}
    (hstep : ∀ s c, I s → ok c → ∃ a t, req a = c ∧ step s a t ∧ I t) (hs : I s)
    {cs : List γ} (hcs : ∀ c ∈ cs, ok c) : ∃ l t, l.map req = cs ∧ Run step s l t := by
  induction cs generalizing s with
  | nil => exact ⟨[], s, rfl, .nil s⟩
  | cons c cs ih =>
    obtain ⟨a, t, rfl, ha, ht⟩ := hstep s c hs (hcs c mem_cons_self)
    obtain ⟨l, u, rfl, hr⟩ := ih ht fun c hc => hcs c (mem_cons_of_mem _ hc)
    exact ⟨a :: l, u, rfl, .cons ha hr⟩

/-- **Simulation.** If related states stay related under steps with related labels, every run is
matched by a run with related labels. -/
theorem sim {β : Type*} {astep : τ → β → τ → Prop} {R : σ → τ → Prop} {L : α → β → Prop}
    (hstep : ∀ s a s' x, R s x → step s a s' → ∃ b x', L a b ∧ astep x b x' ∧ R s' x') {s' : σ}
    {x : τ} (h : Run step s l s') (hR : R s x) : ∃ l' x', List.Forall₂ L l l' ∧ Run astep x l' x' ∧ R s' x' := by
  induction h generalizing x with
  | nil => exact ⟨[], x, .nil, .nil x, hR⟩
  | cons ha _ ih =>
    obtain ⟨b, y, hL, hy, hRy⟩ := hstep _ _ _ _ hR ha
    obtain ⟨l', x', hL', hx', hR'⟩ := ih hRy
    exact ⟨b :: l', x', .cons hL hL', .cons hy hx', hR'⟩

end Run

/-! ## Systems that are given by choices -/

section Chosen

variable {γ : Type*} (step : γ → σ → Option (α × σ))

def Chosen (s : σ) (a : α) (t : σ) : Prop := ∃ c, step c s = some (a, t)

def execute : List γ → σ → Option (List α × σ)
  | [], s => some ([], s)
  | c :: cs, s => (step c s).bind fun (a, t) => (execute cs t).map fun (l, u) => (a :: l, u)

variable {step}

theorem execute_cons {c : γ} {cs : List γ} {s t u : σ} {a : α} {l : List α} (hstep : step c s = some (a, t))
    (hexec : execute step cs t = some (l, u)) : execute step (c :: cs) s = some (a :: l, u) := by
  rw [execute, hstep]
  exact Option.map_eq_some_iff.mpr ⟨_, hexec, rfl⟩

theorem run_of_execute {cs : List γ} {s t : σ} {l : List α} (h : execute step cs s = some (l, t)) :
    Run (Chosen step) s l t := by
  induction cs generalizing s l with
  | nil =>
    obtain ⟨rfl, rfl⟩ := Prod.mk.inj (Option.some.inj h)
    exact .nil _
  | cons c cs ih =>
    obtain ⟨⟨a, s₁⟩, hstep, h⟩ := Option.bind_eq_some_iff.mp h
    obtain ⟨⟨l', s₂⟩, hexec, h⟩ := Option.map_eq_some_iff.mp h
    obtain ⟨rfl, rfl⟩ := Prod.mk.inj h
    exact .cons ⟨c, hstep⟩ (ih hexec)

end Chosen

end SgxLkl
