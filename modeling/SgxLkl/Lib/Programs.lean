import Mathlib

/-!
# Programs with a state and errors

Rules for `EStateM`, in which a program ends with a value or an error, and with a state in both cases.
-/

namespace SgxLkl

universe u

variable {ε σ τ α β γ δ : Type u}

variable {x : EStateM ε σ α} {f : α → EStateM ε σ β} {s s' : σ}

theorem bind_eq_ok_iff {b : β} : (x >>= f) s = .ok b s' ↔ ∃ a t, x s = .ok a t ∧ f a t = .ok b s' := by
  simp only [bind, EStateM.bind]
  cases h : x s with
  | ok a t => simp
  | error e t => simp

theorem bind_of_ok {a : α} (h : x s = .ok a s') : (x >>= f) s = f a s' := by
  simp only [bind, EStateM.bind, h]

/-- From the states in `P` the two programs have the same result, and one that is not an error is in `Q`. -/
def Alike (P : σ → Prop) (x y : EStateM ε σ α) (Q : α → σ → Prop) : Prop :=
  ∀ s, P s → x s = y s ∧ ∀ a s', x s = .ok a s' → Q a s'

namespace Alike

variable {P P' : σ → Prop} {x y : EStateM ε σ α} {Q Q' : α → σ → Prop} {f g : α → EStateM ε σ β}
  {R : β → σ → Prop}

theorem refl (h : ∀ s a s', P s → x s = .ok a s' → Q a s') : Alike P x x Q :=
  fun s hs => ⟨rfl, fun a s' hx => h s a s' hs hx⟩

theorem bind (hx : Alike P x y Q) (hf : ∀ a, Alike (Q a) (f a) (g a) R) : Alike P (x >>= f) (y >>= g) R := by
  intro s hs
  obtain ⟨heq, hQ⟩ := hx s hs
  simp only [Bind.bind, EStateM.bind, ← heq]
  cases h : x s with
  | error e t => exact ⟨rfl, fun _ _ hne => nomatch hne⟩
  | ok a t => exact hf a t (hQ a t h)

theorem conseq (h : Alike P x y Q) (hP : ∀ s, P' s → P s) (hQ : ∀ a s, Q a s → Q' a s) :
    Alike P' x y Q' := fun s hs =>
  ⟨(h s (hP s hs)).1, fun a s' hx => hQ a s' ((h s (hP s hs)).2 a s' hx)⟩

theorem get_bind {f g : σ → EStateM ε σ β} (h : ∀ s, P s → Alike (fun t => t = s) (f s) (g s) R) :
    Alike P (get >>= f) (get >>= g) R :=
  fun s hs => h s hs s rfl

theorem set_bind {S : σ → Prop} {s : σ} {f g : PUnit → EStateM ε σ β} (hs : S s) (h : Alike S (f ⟨⟩) (g ⟨⟩) R) :
    Alike P (set s >>= f) (set s >>= g) R :=
  fun _ _ => h s hs

theorem throw {e : ε} : Alike P (throw e : EStateM ε σ α) (throw e) Q :=
  refl fun _ _ _ _ h => nomatch h

theorem pure {a : α} (h : ∀ s, P s → Q a s) : Alike P (Pure.pure a : EStateM ε σ α) (Pure.pure a) Q :=
  refl fun s _ _ hs hx => by
    cases hx
    exact h s hs

end Alike

/-- From states that are related by `P`, the second program succeeds if the first one does, and the results are
related by `Q`. -/
def Sim (P : σ → τ → Prop) (x : EStateM ε σ α) (y : EStateM ε τ β) (Q : α → σ → β → τ → Prop) : Prop :=
  ∀ s t, P s t → ∀ a s', x s = .ok a s' → ∃ b t', y t = .ok b t' ∧ Q a s' b t'

namespace Sim

variable {P P' : σ → τ → Prop} {x : EStateM ε σ α} {y : EStateM ε τ β} {Q Q' : α → σ → β → τ → Prop}
  {f : α → EStateM ε σ γ} {g : β → EStateM ε τ δ} {R : γ → σ → δ → τ → Prop}

theorem bind (hx : Sim P x y Q) (hf : ∀ a b, Sim (fun s t => Q a s b t) (f a) (g b) R) :
    Sim P (x >>= f) (y >>= g) R := by
  intro s t hst c s'' h
  obtain ⟨a, s', hxa, hfa⟩ := bind_eq_ok_iff.mp h
  obtain ⟨b, t', hyb, hQ⟩ := hx s t hst a s' hxa
  obtain ⟨e, t'', hg, hR⟩ := hf a b s' t' hQ c s'' hfa
  exact ⟨e, t'', bind_eq_ok_iff.mpr ⟨b, t', hyb, hg⟩, hR⟩

theorem conseq (h : Sim P x y Q) (hP : ∀ s t, P' s t → P s t) (hQ : ∀ a s b t, Q a s b t → Q' a s b t) :
    Sim P' x y Q' := by
  intro s t hst a s' hx
  obtain ⟨b, t', hy, hQ'⟩ := h s t (hP s t hst) a s' hx
  exact ⟨b, t', hy, hQ _ _ _ _ hQ'⟩

theorem get_bind {f : σ → EStateM ε σ γ} {g : τ → EStateM ε τ δ}
    (h : ∀ s t, P s t → Sim (fun s' t' => s' = s ∧ t' = t) (f s) (g t) R) : Sim P (get >>= f) (get >>= g) R :=
  fun s t hst => h s t hst s t ⟨rfl, rfl⟩

theorem set_bind {S : σ → τ → Prop} {s : σ} {t : τ} {f : PUnit → EStateM ε σ γ}
    {g : PUnit → EStateM ε τ δ} (hst : S s t) (h : Sim S (f ⟨⟩) (g ⟨⟩) R) : Sim P (set s >>= f) (set t >>= g) R :=
  fun _ _ _ => h s t hst

theorem pure {a : α} {b : β} (h : ∀ s t, P s t → Q a s b t) :
    Sim P (Pure.pure a : EStateM ε σ α) (Pure.pure b : EStateM ε τ β) Q := by
  intro s t hst a' s' hx
  cases hx
  exact ⟨b, t, rfl, h s t hst⟩

theorem throw {e : ε} : Sim P (throw e : EStateM ε σ α) y Q :=
  fun _ _ _ _ _ h => nomatch h

end Sim

/-- From the states in `P` the program ends in `Q` with a value, or in `E` with an error. -/
def EndsIn (P : σ → Prop) (x : EStateM ε σ α) (Q : α → σ → Prop) (E : σ → Prop) : Prop :=
  ∀ s, P s → (∀ a s', x s = .ok a s' → Q a s') ∧ ∀ e s', x s = .error e s' → E s'

namespace EndsIn

variable {P P' : σ → Prop} {x : EStateM ε σ α} {Q Q' : α → σ → Prop} {E : σ → Prop} {f : α → EStateM ε σ β}
  {R : β → σ → Prop}

theorem bind (hx : EndsIn P x Q E) (hf : ∀ a, EndsIn (Q a) (f a) R E) : EndsIn P (x >>= f) R E := by
  intro s hs
  obtain ⟨hok, herror⟩ := hx s hs
  simp only [Bind.bind, EStateM.bind]
  cases h : x s with
  | ok a t => exact hf a t (hok a t h)
  | error e t => exact ⟨fun _ _ hne => (nomatch hne), fun _ _ heq => by cases heq; exact herror e t h⟩

theorem conseq (h : EndsIn P x Q E) (hP : ∀ s, P' s → P s) (hQ : ∀ a s, Q a s → Q' a s) : EndsIn P' x Q' E :=
  fun s hs => ⟨fun a s' hx => hQ a s' ((h s (hP s hs)).1 a s' hx), (h s (hP s hs)).2⟩

theorem get_bind {f : σ → EStateM ε σ β} (h : ∀ s, P s → EndsIn (fun t => t = s) (f s) R E) :
    EndsIn P (get >>= f) R E :=
  fun s hs => h s hs s rfl

theorem set_bind {S : σ → Prop} {s : σ} {f : PUnit → EStateM ε σ β} (hs : S s) (h : EndsIn S (f ⟨⟩) R E) :
    EndsIn P (set s >>= f) R E :=
  fun _ _ => h s hs

theorem pure {a : α} (h : ∀ s, P s → Q a s) : EndsIn P (Pure.pure a : EStateM ε σ α) Q E :=
  fun s hs => ⟨fun _ _ hx => by cases hx; exact h s hs, fun _ _ hx => (nomatch hx)⟩

theorem throw {e : ε} (h : ∀ s, P s → E s) : EndsIn P (throw e : EStateM ε σ α) Q E :=
  fun s hs => ⟨fun _ _ hx => (nomatch hx), fun _ _ hx => by cases hx; exact h s hs⟩

end EndsIn

end SgxLkl
