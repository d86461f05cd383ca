import Mathlib

/-!
# The first elements of a list with a property

When all of the first `n` elements with `p` satisfy `q`, and that then no more with `q` fit.
-/

namespace SgxLkl

open List

variable {α : Type*} {p q : α → Prop} [DecidablePred p] [DecidablePred q]

/-- The first `n` elements with `p` satisfy `q` exactly if an element that does not has `n` elements
with `p` ahead of it. -/
theorem forall_mem_take_filter_iff (L : List α) (n : ℕ) : (∀ x ∈ (L.filter p).take n, q x) ↔
      ∀ l x r, L = l ++ x :: r → p x → ¬ q x → n ≤ (l.filter p).length := by
  induction L generalizing n with
  | nil => simp
  | cons y L ih =>
    by_cases hy : p y
    · cases n with
      | zero => simp
      | succ n =>
        rw [filter_cons_of_pos (by simpa using hy), take_succ_cons]
        simp only [mem_cons, forall_eq_or_imp, ih]
        constructor
        · rintro ⟨hqy, h⟩ (_ | ⟨z, l⟩) x r hL hpx hqx
          · exact absurd (cons.inj hL).1 fun hyx => hqx (hyx ▸ hqy)
          · obtain ⟨rfl, hL'⟩ := cons.inj hL
            have := h l x r hL' hpx hqx
            rw [filter_cons_of_pos (by simpa using hy), length_cons]
            omega
        · intro h
          refine ⟨?_, fun l x r hL hpx hqx => ?_⟩
          · by_contra hqy
            have := h [] y L rfl hy hqy
            simp at this
          · have := h (y :: l) x r (by rw [hL]; rfl) hpx hqx
            rw [filter_cons_of_pos (by simpa using hy), length_cons] at this
            omega
    · rw [filter_cons_of_neg (by simpa using hy), ih]
      constructor
      · rintro h (_ | ⟨z, l⟩) x r hL hpx hqx
        · exact absurd (cons.inj hL).1 fun hyx => hy (hyx ▸ hpx)
        · obtain ⟨rfl, hL'⟩ := cons.inj hL
          rw [filter_cons_of_neg (by simpa using hy)]
          exact h l x r hL' hpx hqx
      · intro h l x r hL hpx hqx
        have := h (y :: l) x r (by rw [hL]; rfl) hpx hqx
        rwa [filter_cons_of_neg (by simpa using hy)] at this

theorem length_take_of_forall {L : List α} {n : ℕ} (h : ∀ x ∈ L.take n, q x) :
    (L.take n).length = min n (L.filter q).length := by
  have hall : (L.take n).filter q = L.take n := filter_eq_self.mpr (by simpa using h)
  have hsub : (L.take n).length ≤ (L.filter q).length := by
    rw [← hall]
    exact ((take_sublist n L).filter _).length_le
  have hle := length_filter_le q L
  rw [length_take] at hsub ⊢
  omega

end SgxLkl
