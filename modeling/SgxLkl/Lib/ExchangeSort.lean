import Mathlib

/-!
# Sorting by exchanging neighbours

One index walks over the list. Two neighbours in the wrong order are exchanged and the index goes back by
one, otherwise it goes on by one. The sort gives up where two neighbours cannot be compared or are equal.
-/

namespace SgxLkl

open List

variable {α : Type*}

def exchangeLoop (cmp : α → α → Option Ordering) : ℕ → List α → List α → Option (List α)
  | _, done, [] => some done.reverse
  | 0, _, _ :: _ => none
  | n + 1, [], a :: ahead => exchangeLoop cmp n [a] ahead
  | n + 1, b :: done, a :: ahead =>
    match cmp b a with
    | some .lt => exchangeLoop cmp n (a :: b :: done) ahead
    | some .gt => exchangeLoop cmp n done (a :: b :: ahead)
    | some .eq => none
    | none => none

/-- The number of rounds is what a list of this length can need. -/
def exchangeSort (cmp : α → α → Option Ordering) (l : List α) : Option (List α) :=
  exchangeLoop cmp (l.length * l.length) [] l

/-! ## The rounds that the sort needs -/

/-- The loop that tells whether it has ended: within the rounds it has not, or it has given up or sorted. -/
def exchangeRounds (cmp : α → α → Option Ordering) : ℕ → List α → List α → Option (Option (List α))
  | 0, _, _ => none
  | _ + 1, done, [] => some (some done.reverse)
  | n + 1, [], a :: ahead => exchangeRounds cmp n [a] ahead
  | n + 1, b :: done, a :: ahead =>
    match cmp b a with
    | some .lt => exchangeRounds cmp n (a :: b :: done) ahead
    | some .gt => exchangeRounds cmp n done (a :: b :: ahead)
    | some .eq => some none
    | none => some none

/-- The comparison puts one of the two in front of the other. -/
def Ranked (cmp : α → α → Option Ordering) (a b : α) : Prop := cmp a b = some .lt ∨ cmp a b = some .gt

/-- There is a result just if `p` holds, and the result has the property `q`. -/
def Succeeds {β : Type*} (p : Prop) (q : β → Prop) : Option β → Prop
  | none => ¬ p
  | some b => p ∧ q b

theorem Succeeds.bind {β γ : Type*} {p p' : Prop} {q : β → Prop} {q' : γ → Prop} {r : Option β} {f : β → Option γ}
    (h : Succeeds p q r) (hf : ∀ b, q b → Succeeds p' q' (f b)) : Succeeds (p ∧ p') q' (r.bind f) := by
  cases r with
  | none => exact fun hp => h hp.1
  | some b =>
    have hfb := hf b h.2
    rw [Option.bind_some]
    cases hr : f b with
    | none => rw [hr] at hfb; exact fun hp => hfb hp.2
    | some c => rw [hr] at hfb; exact ⟨⟨h.1, hfb.1⟩, hfb.2⟩

theorem Succeeds.map {β γ : Type*} {p : Prop} {q : β → Prop} {q' : γ → Prop} {r : Option β} {f : β → γ}
    (h : Succeeds p q r) (hf : ∀ b, q b → q' (f b)) : Succeeds p q' (r.map f) := by
  cases r with
  | none => exact h
  | some b => exact ⟨h.1, hf b h.2⟩

section

variable {cmp : α → α → Option Ordering} {done ahead : List α}

theorem exchangeLoop_eq (n : ℕ) : exchangeLoop cmp n done ahead = (exchangeRounds cmp (n + 1) done ahead).join := by
  fun_induction exchangeLoop cmp n done ahead <;> simp_all [exchangeRounds]
  case case2 done a ahead =>
    rcases done with - | ⟨b, done⟩
    · rfl
    · rw [exchangeRounds]
      rcases cmp b a with - | - | - | - <;> rfl

variable (htrans : ∀ a b c, cmp a b = some .lt → cmp b c = some .lt → cmp a c = some .lt)
  (hswap : ∀ a b, cmp b a = (cmp a b).map .swap)

include hswap in
theorem ranked_symm (a b : α) (h : Ranked cmp a b) : Ranked cmp b a := by
  unfold Ranked at h ⊢
  rcases h with h | h <;> simp [hswap a b, h]

include htrans hswap

/-- The next element goes back to its place, and the ones that it has passed are passed again. -/
theorem exchangeRounds_insert (ahead : List α) (a : α) (hdone : done.Pairwise fun a b => cmp b a = some .lt) :
    ∃ k ≤ 2 * done.length + 1,
      (∃ done', done'.Perm (a :: done) ∧ (done'.Pairwise fun a b => cmp b a = some .lt) ∧
        ∀ n, exchangeRounds cmp (n + k) done (a :: ahead) = exchangeRounds cmp n done' ahead) ∨
      (∃ b ∈ done, ¬ Ranked cmp b a) ∧ ∀ n, exchangeRounds cmp (n + k) done (a :: ahead) = some none := by
  induction done generalizing ahead with
  | nil => exact ⟨1, le_rfl, .inl ⟨[a], .refl _, pairwise_singleton _ _, fun _ => rfl⟩⟩
  | cons b done ih =>
    rw [length_cons]
    obtain ⟨hb, hdone⟩ := pairwise_cons.mp hdone
    have hround (n : ℕ) := exchangeRounds.eq_4 cmp n b done a ahead
    rcases hcmp : cmp b a with - | - | - | - <;> simp only [hcmp] at hround
    · exact ⟨1, by omega, .inr ⟨⟨b, mem_cons_self, by simp [Ranked, hcmp]⟩, hround⟩⟩
    · refine ⟨1, by omega, .inl ⟨a :: b :: done, .refl _, ?_, hround⟩⟩
      refine pairwise_cons.mpr ⟨fun x hx => ?_, pairwise_cons.mpr ⟨hb, hdone⟩⟩
      rcases mem_cons.mp hx with rfl | hx
      · exact hcmp
      · exact htrans x b a (hb x hx) hcmp
    · exact ⟨1, by omega, .inr ⟨⟨b, mem_cons_self, by simp [Ranked, hcmp]⟩, hround⟩⟩
    · obtain ⟨k, hk, ⟨done', hperm, hdone', hrun⟩ | ⟨⟨c, hc, hnot⟩, hrun⟩⟩ := ih (b :: ahead) hdone
      · -- all that is in front is smaller than `b`
        have hbelow : ∀ c ∈ done', cmp c b = some .lt := by
          intro c hc
          rcases mem_cons.mp (hperm.subset hc) with rfl | hc
          · simp [hswap b c, hcmp]
          · exact hb c hc
        refine ⟨k + 2, by omega, .inl ⟨b :: done', ?_, pairwise_cons.mpr ⟨hbelow, hdone'⟩, fun n => ?_⟩⟩
        · exact (hperm.cons b).trans (.swap a b done)
        · rw [show n + (k + 2) = n + 1 + k + 1 by omega, hround, hrun]
          cases done' with
          | nil => rfl
          | cons c done' => simp only [exchangeRounds, hbelow c mem_cons_self]
      · refine ⟨k + 1, by omega, .inr ⟨⟨c, mem_cons_of_mem _ hc, hnot⟩, fun n => ?_⟩⟩
        rw [← Nat.add_assoc, hround, hrun]

theorem exchangeRounds_run (ahead : List α) (hdone : done.Pairwise fun a b => cmp b a = some .lt) :
    ∃ k r, k + done.length * done.length ≤ (done.length + ahead.length) * (done.length + ahead.length) ∧
      Succeeds ((ahead ++ done).Pairwise (Ranked cmp))
        (fun l => l.Perm (ahead ++ done) ∧ l.Pairwise fun a b => cmp a b = some .lt) r ∧
      ∀ n, exchangeRounds cmp (n + 1 + k) done ahead = some r := by
  have hsymm {a b : α} (h : Ranked cmp a b) := ranked_symm hswap a b h
  induction ahead generalizing done with
  | nil =>
    have hapart : done.Pairwise (Ranked cmp) := hdone.imp fun h => hsymm (.inl h)
    exact ⟨0, some done.reverse, by simp, ⟨hapart, reverse_perm done, pairwise_reverse.mpr hdone⟩, fun _ => rfl⟩
  | cons a ahead ih =>
    rw [length_cons]
    obtain ⟨k, hk, ⟨done₁, hperm, hdone₁, hrun⟩ | ⟨⟨b, hb, hnot⟩, hrun⟩⟩ :=
      exchangeRounds_insert htrans hswap ahead a hdone
    · have hmove : (ahead ++ done₁).Perm (a :: ahead ++ done) := (hperm.append_left ahead).trans perm_middle
      obtain ⟨k', r, hk', hr, hrun'⟩ := ih hdone₁
      refine ⟨k' + k, r, ?_, ?_, fun n => by rw [← Nat.add_assoc, hrun, hrun']⟩
      · rw [hperm.length_eq, length_cons] at hk'
        nlinarith
      · rw [hmove.pairwise_iff hsymm] at hr
        cases r with
        | none => exact hr
        | some l => exact ⟨hr.1, hr.2.1.trans hmove, hr.2.2⟩
    · refine ⟨k, none, by nlinarith, fun hall => ?_, fun n => hrun (n + 1)⟩
      exact hnot (hsymm ((pairwise_cons.mp hall).1 b (mem_append_right _ hb)))

/-- **The sort ends, and gives up just if two elements are not ranked.** -/
theorem exchangeSort_spec (l : List α) :
    Succeeds (l.Pairwise (Ranked cmp)) (fun l' => l'.Perm l ∧ l'.Pairwise fun a b => cmp a b = some .lt)
      (exchangeSort cmp l) ∧
    ∀ n, l.length * l.length < n → exchangeRounds cmp n [] l = some (exchangeSort cmp l) := by
  obtain ⟨k, r, hk, hr, hrun⟩ := exchangeRounds_run htrans hswap l .nil
  simp only [length_nil, Nat.zero_add, append_nil, Nat.mul_zero, Nat.add_zero] at hk hr
  have hrounds : ∀ n, l.length * l.length < n → exchangeRounds cmp n [] l = some r := by
    intro n hn
    rw [← hrun (n - 1 - k)]
    congr 1
    omega
  have h : exchangeSort cmp l = r := by rw [exchangeSort, exchangeLoop_eq, hrounds _ (by omega)]; rfl
  exact h ▸ ⟨hr, hrounds⟩

theorem exchangeSort_eq {l l' : List α} (hperm : l'.Perm l) (hl' : l'.Pairwise fun a b => cmp a b = some .lt) :
    exchangeSort cmp l = some l' := by
  have h := (exchangeSort_spec htrans hswap l).1
  cases hr : exchangeSort cmp l with
  | none =>
    rw [hr] at h
    exact absurd ((hperm.pairwise_iff fun h => ranked_symm hswap _ _ h).mp (hl'.imp .inl)) h
  | some l'' =>
    rw [hr] at h
    refine congrArg some (Perm.eq_of_pairwise (fun a b _ _ hab hba => ?_) h.2.2 hl' (h.2.1.trans hperm.symm))
    rw [hswap a b, hab] at hba
    cases hba

end

end SgxLkl
