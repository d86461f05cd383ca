import Mathlib

/-!
# Rings with sequence numbers

A queue in a ring of `n` cells. Producers and consumers claim positions `0, 1, 2, …`, each with a counter of its own; the
position `p` belongs to the cell `p % n`. The number in a cell tells what may be done there: `p` lets the producer of
position `p` write, `p + 1` lets its consumer read, and `p + n` is for the producer of the next round.

* **`Ring.Good.ready_of_seq`**, **`Ring.Good.filled_of_seq`**: what the number in a cell tells.
* **`Ring.Good.cell_unique`**: a cell is in use for one position at a time.
-/

namespace SgxLkl

open Function Nat

variable {τ α : Type*}

/-- What has happened at a position. -/
inductive Phase (τ : Type*)
  | free
  /-- The producer `t` has claimed it. -/
  | writing (t : τ)
  | full
  /-- The consumer `t` has claimed it. -/
  | reading (t : τ)
  | done

namespace Phase

def Empty : Phase τ → Prop
  | .free | .writing _ => True
  | .full | .reading _ | .done => False

def Filled : Phase τ → Prop
  | .full | .reading _ => True
  | .free | .writing _ | .done => False

def Taken : Phase τ → Prop
  | .reading _ | .done => True
  | .free | .writing _ | .full => False

variable {ph : Phase τ}

theorem Empty.ne_done (h : ph.Empty) : ph ≠ .done := by
  rintro rfl
  exact h

theorem Filled.ne_done (h : ph.Filled) : ph ≠ .done := by
  rintro rfl
  exact h

theorem Filled.ne_free (h : ph.Filled) : ph ≠ .free := by
  rintro rfl
  exact h

theorem Taken.ne_free (h : ph.Taken) : ph ≠ .free := by
  rintro rfl
  exact h

theorem filled_of_not (ph : Phase τ) (hempty : ¬ ph.Empty) (hdone : ph ≠ .done) : ph.Filled := by
  cases ph <;> simp_all [Empty, Filled]

end Phase

/-- The number of cells, the counters of the producers and of the consumers, and the cells. -/
structure Ring (α : Type*) where
  size : ℕ
  enq : ℕ
  deq : ℕ
  seq : ℕ → ℕ
  data : ℕ → Option α

namespace Ring

/-- The cell of position `p` is free for it: it is the first round, or the position of the round before is done. -/
def Ready (n : ℕ) (ph : ℕ → Phase τ) (p : ℕ) : Prop := p < n ∨ ph (p - n) = .done

theorem Ready.mono {n p : ℕ} {ph ph' : ℕ → Phase τ} (h : Ready n ph p) (hdone : ∀ q, ph q = .done → ph' q = .done) :
    Ready n ph' p :=
  h.imp_right (hdone _)

/-- The phases of all positions, and the items of the positions that producers have claimed. -/
structure Good (r : Ring α) (ph : ℕ → Phase τ) (items : List α) : Prop where
  two_le : 2 ≤ r.size
  enq : r.enq = items.length
  free_iff : ∀ p, ph p = .free ↔ r.enq ≤ p
  taken_iff : ∀ p, (ph p).Taken ↔ p < r.deq
  ready : ∀ p < r.enq, Ready r.size ph p
  low : ∀ p, Ready r.size ph p → (ph p).Empty → r.seq (p % r.size) = p
  high : ∀ p, (ph p).Filled → r.seq (p % r.size) = p + 1
  data : ∀ p, (ph p).Filled → r.data (p % r.size) = items[p]?

/-- The cell of `p` is free for `p` or in use for it. -/
def Active (r : Ring α) (ph : ℕ → Phase τ) (p : ℕ) : Prop := Ready r.size ph p ∧ ph p ≠ .done

namespace Good

variable {r : Ring α} {ph : ℕ → Phase τ} {items : List α} {p q : ℕ} {t : τ}

/-! ## Cells -/

section

variable (h : Good r ph items)

include h

theorem lt_enq (hfree : ph p ≠ .free) : p < r.enq :=
  Nat.lt_of_not_le fun hle => hfree ((h.free_iff p).mpr hle)

theorem active_of_ne (hfree : ph p ≠ .free) (hdone : ph p ≠ .done) : r.Active ph p :=
  ⟨h.ready p (h.lt_enq hfree), hdone⟩

theorem active_of_writing (hp : ph p = .writing t) : r.Active ph p :=
  h.active_of_ne (by simp [hp]) (by simp [hp])

theorem active_of_filled (hp : (ph p).Filled) : r.Active ph p :=
  h.active_of_ne hp.ne_free hp.ne_done

theorem done_of_done {k : ℕ} (hk : ph (p + r.size * k) = .done) : ph p = .done := by
  induction k with
  | zero => simpa using hk
  | succ k ih =>
    have hlt : p + r.size * (k + 1) < r.enq := h.lt_enq (by simp [hk])
    have hsub : p + r.size * (k + 1) - r.size = p + r.size * k := by
      rw [mul_succ]
      omega
    rcases h.ready _ hlt with hfirst | hdone
    · rw [mul_succ] at hfirst
      omega
    · rw [hsub] at hdone
      exact ih hdone

/-- **A cell is used for one position at a time.** -/
theorem cell_unique (hp : r.Active ph p) (hq : r.Active ph q) (hcell : p % r.size = q % r.size) : p = q := by
  wlog hle : p ≤ q generalizing p q
  · exact (this hq hp hcell.symm (by omega)).symm
  obtain ⟨k, hk⟩ : r.size ∣ q - p := (modEq_iff_dvd' hle).mp hcell
  cases k with
  | zero => rw [Nat.mul_zero] at hk; omega
  | succ k =>
    rw [mul_succ] at hk
    have hsub : q - r.size = p + r.size * k := by omega
    rcases hq.1 with hfirst | hdone
    · omega
    · rw [hsub] at hdone
      exact absurd (h.done_of_done hdone) hp.2

theorem update_seq (hp : r.Active ph p) (hqp : q ≠ p) (hq : r.Active ph q) (x : ℕ) :
    update r.seq (p % r.size) x (q % r.size) = r.seq (q % r.size) :=
  update_of_ne (fun hcell => hqp (h.cell_unique hq hp hcell)) ..

theorem exists_active (p : ℕ) : ∃ a, a % r.size = p % r.size ∧ r.Active ph a := by
  have hpos : 0 < r.size := by have := h.two_le; omega
  have hex : ∃ k, ph (p % r.size + r.size * k) ≠ .done := by
    refine ⟨r.enq, ?_⟩
    rw [(h.free_iff _).mpr]
    · simp
    · calc r.enq = 1 * r.enq := (Nat.one_mul _).symm
        _ ≤ r.size * r.enq := Nat.mul_le_mul_right _ hpos
        _ ≤ _ := Nat.le_add_left ..
  classical
  refine ⟨p % r.size + r.size * Nat.find hex, by simp, ?_, Nat.find_spec hex⟩
  cases hk : Nat.find hex with
  | zero => exact .inl (by simpa using mod_lt p hpos)
  | succ k =>
    have hdone : ph (p % r.size + r.size * k) = .done := not_not.mp (Nat.find_min hex (by omega))
    have hsub : p % r.size + r.size * (k + 1) - r.size = p % r.size + r.size * k := by
      rw [mul_succ]
      omega
    exact .inr (by rw [hsub, hdone])

/-! ## What the number in a cell tells -/

theorem mod_succ_ne (p : ℕ) : (p + 1) % r.size ≠ p % r.size := by
  intro heq
  have hdvd : r.size ∣ p + 1 - p := (modEq_iff_dvd' (le_succ p)).mp heq.symm
  have hle := le_of_dvd (by omega) hdvd
  have := h.two_le
  omega

theorem ready_of_seq (hseq : r.seq (p % r.size) = p) : Ready r.size ph p := by
  obtain ⟨a, hcell, hactive⟩ := h.exists_active p
  by_cases hempty : (ph a).Empty
  · have ha := h.low a hactive.1 hempty
    rw [hcell, hseq] at ha
    rw [ha]
    exact hactive.1
  · have ha := h.high a ((ph a).filled_of_not hempty hactive.2)
    rw [hcell, hseq] at ha
    rw [ha] at hcell
    exact absurd hcell.symm (h.mod_succ_ne a)

theorem filled_of_seq (hseq : r.seq (p % r.size) = p + 1) : (ph p).Filled := by
  obtain ⟨a, hcell, hactive⟩ := h.exists_active p
  by_cases hempty : (ph a).Empty
  · have ha := h.low a hactive.1 hempty
    rw [hcell, hseq] at ha
    rw [← ha] at hcell
    exact absurd hcell (h.mod_succ_ne p)
  · have hfilled := (ph a).filled_of_not hempty hactive.2
    have ha := h.high a hfilled
    rw [hcell, hseq] at ha
    obtain rfl : p = a := by omega
    exact hfilled

/-! ## Counters -/

theorem deq_le_enq : r.deq ≤ r.enq := by
  by_contra hlt
  have htaken := (h.taken_iff r.enq).mpr (by omega)
  rw [(h.free_iff r.enq).mpr le_rfl] at htaken
  exact htaken

/-- **There are at most as many items as cells.** -/
theorem enq_le : r.enq ≤ r.deq + r.size := by
  have := h.two_le
  by_contra hlt
  rcases h.ready (r.enq - 1) (by omega) with hfirst | hdone
  · omega
  · have htaken := (h.taken_iff (r.enq - 1 - r.size)).mp (by rw [hdone]; trivial)
    omega

end

theorem init {n : ℕ} (hn : 2 ≤ n) (data : ℕ → Option α) (seq : ℕ → ℕ) (hseq : ∀ i < n, seq i = i) :
    Good (τ := τ) ⟨n, 0, 0, seq, data⟩ (fun _ => .free) [] where
  two_le := hn
  enq := rfl
  free_iff := by simp
  taken_iff := by simp [Phase.Taken]
  ready := by simp
  low := by
    rintro p (hp | hp) -
    · simpa [mod_eq_of_lt hp] using hseq p hp
    · simp at hp
  high := fun _ hp => hp.elim
  data := fun _ hp => hp.elim

/-! ## Steps -/

theorem ready_update {n : ℕ} {x : Phase τ} (hp : ph p ≠ .done) (hx : x ≠ .done) :
    Ready n (update ph p x) q ↔ Ready n ph q := by
  unfold Ready
  by_cases hq : q - n = p
  · simp [hq, hp, hx]
  · rw [update_of_ne hq]

variable (h : Good r ph items)

include h

theorem claim (hready : Ready r.size ph r.enq) (t : τ) (x : α) :
    Good { r with enq := r.enq + 1 } (update ph r.enq (.writing t)) (items ++ [x]) := by
  have hfree : ph r.enq = .free := (h.free_iff r.enq).mpr le_rfl
  have hupdate : ∀ q, Ready r.size (update ph r.enq (.writing t)) q ↔ Ready r.size ph q :=
    fun q => ready_update (by simp [hfree]) (by simp)
  have hne : ∀ q, (update ph r.enq (.writing t) q).Filled → q ≠ r.enq := by
    rintro q hq rfl
    rw [update_self] at hq
    exact hq
  refine ⟨h.two_le, by simp [h.enq], ?_, ?_, ?_, ?_, ?_, ?_⟩
  · intro q
    by_cases hq : q = r.enq
    · simp [hq]
    · rw [update_of_ne hq, h.free_iff q]
      simp only
      omega
  · intro q
    by_cases hq : q = r.enq
    · simpa [hq, Phase.Taken] using h.deq_le_enq
    · rw [update_of_ne hq, h.taken_iff q]
  · intro q hq
    rw [hupdate]
    by_cases hq' : q = r.enq
    · rwa [hq']
    · exact h.ready q (lt_of_le_of_ne (Nat.lt_succ_iff.mp hq) hq')
  · intro q hq hempty
    rw [hupdate] at hq
    by_cases hq' : q = r.enq
    · subst hq'
      exact h.low _ hready (by rw [hfree]; trivial)
    · rw [update_of_ne hq'] at hempty
      exact h.low q hq hempty
  · intro q hq
    have hq' := hne q hq
    rw [update_of_ne hq'] at hq
    exact h.high q hq
  · intro q hq
    have hq' := hne q hq
    rw [update_of_ne hq'] at hq
    rw [List.getElem?_append_left (h.enq ▸ h.lt_enq hq.ne_free)]
    exact h.data q hq

theorem write (hp : ph p = .writing t) (x : Option α) :
    Good { r with data := update r.data (p % r.size) x } ph items := by
  refine ⟨h.two_le, h.enq, h.free_iff, h.taken_iff, h.ready, h.low, h.high, ?_⟩
  intro q hq
  have hcell : q % r.size ≠ p % r.size := by
    intro hcell
    rw [h.cell_unique (h.active_of_filled hq) (h.active_of_writing hp) hcell, hp] at hq
    exact hq
  exact (update_of_ne hcell ..).trans (h.data q hq)

theorem publish (hp : ph p = .writing t) (hdata : r.data (p % r.size) = items[p]?) :
    Good { r with seq := update r.seq (p % r.size) (p + 1) } (update ph p .full) items := by
  have hactive := h.active_of_writing hp
  have hupdate : ∀ q, Ready r.size (update ph p .full) q ↔ Ready r.size ph q :=
    fun q => ready_update (by simp [hp]) (by simp)
  refine ⟨h.two_le, h.enq, ?_, ?_, ?_, ?_, ?_, ?_⟩
  · intro q
    by_cases hq : q = p
    · simp [hq, ← h.free_iff, hp]
    · rw [update_of_ne hq, h.free_iff q]
  · intro q
    by_cases hq : q = p
    · simp [hq, ← h.taken_iff, hp, Phase.Taken]
    · rw [update_of_ne hq, h.taken_iff q]
  · intro q hq
    rw [hupdate]
    exact h.ready q hq
  · intro q hq hempty
    rw [hupdate] at hq
    have hqp : q ≠ p := by
      rintro rfl
      rw [update_self] at hempty
      exact hempty
    rw [update_of_ne hqp] at hempty
    exact (h.update_seq hactive hqp ⟨hq, hempty.ne_done⟩ _).trans (h.low q hq hempty)
  · intro q hq
    by_cases hqp : q = p
    · simp [hqp]
    · rw [update_of_ne hqp] at hq
      exact (h.update_seq hactive hqp (h.active_of_filled hq) _).trans (h.high q hq)
  · intro q hq
    by_cases hqp : q = p
    · rw [hqp]
      exact hdata
    · rw [update_of_ne hqp] at hq
      exact h.data q hq

theorem full_of_deq (hp : (ph r.deq).Filled ∨ (ph r.deq).Taken) : ph r.deq = .full := by
  have htaken : ¬ (ph r.deq).Taken := fun htaken => lt_irrefl _ ((h.taken_iff r.deq).mp htaken)
  have hfilled := hp.resolve_right htaken
  cases hph : ph r.deq <;> simp_all [Phase.Filled, Phase.Taken]

theorem take (hp : ph r.deq = .full) (t : τ) :
    Good { r with deq := r.deq + 1 } (update ph r.deq (.reading t)) items := by
  have hupdate : ∀ q, Ready r.size (update ph r.deq (.reading t)) q ↔ Ready r.size ph q :=
    fun q => ready_update (by simp [hp]) (by simp)
  have hfilled : ∀ q, (update ph r.deq (.reading t) q).Filled → (ph q).Filled := by
    intro q hq
    by_cases hqp : q = r.deq
    · rw [hqp, hp]
      trivial
    · rwa [update_of_ne hqp] at hq
  refine ⟨h.two_le, h.enq, ?_, ?_, ?_, ?_, fun q hq => h.high q (hfilled q hq), fun q hq => h.data q (hfilled q hq)⟩
  · intro q
    by_cases hq : q = r.deq
    · simp [hq, ← h.free_iff, hp]
    · rw [update_of_ne hq, h.free_iff q]
  · intro q
    by_cases hq : q = r.deq
    · simp [hq, Phase.Taken]
    · rw [update_of_ne hq, h.taken_iff q]
      simp only
      omega
  · intro q hq
    rw [hupdate]
    exact h.ready q hq
  · intro q hq hempty
    rw [hupdate] at hq
    have hqp : q ≠ r.deq := by
      rintro rfl
      rw [update_self] at hempty
      exact hempty
    rw [update_of_ne hqp] at hempty
    exact h.low q hq hempty

theorem release (hp : ph p = .reading t) :
    Good { r with seq := update r.seq (p % r.size) (p + r.size) } (update ph p .done) items := by
  have hactive := h.active_of_filled (p := p) (by rw [hp]; trivial)
  have hne : ∀ q, update ph p .done q ≠ .done → q ≠ p := by
    rintro q hq rfl
    simp at hq
  refine ⟨h.two_le, h.enq, ?_, ?_, ?_, ?_, ?_, ?_⟩
  · intro q
    by_cases hq : q = p
    · simp [hq, ← h.free_iff, hp]
    · rw [update_of_ne hq, h.free_iff q]
  · intro q
    by_cases hq : q = p
    · simp [hq, ← h.taken_iff, hp, Phase.Taken]
    · rw [update_of_ne hq, h.taken_iff q]
  · intro q hq
    refine (h.ready q hq).mono fun q' hq' => ?_
    by_cases hqp : q' = p
    · simp [hqp]
    · rwa [update_of_ne hqp]
  · intro q hq hempty
    have hqp : q ≠ p := hne q hempty.ne_done
    rw [update_of_ne hqp] at hempty
    by_cases hnext : q = p + r.size
    · -- the position of the next round
      simp [hnext]
    · have hready : Ready r.size ph q := by
        change Ready r.size _ q at hq
        rcases hq with hfirst | hdone
        · exact .inl hfirst
        · by_cases hlt : q < r.size
          · exact .inl hlt
          · rw [update_of_ne (by omega)] at hdone
            exact .inr hdone
      exact (h.update_seq hactive hqp ⟨hready, hempty.ne_done⟩ _).trans (h.low q hready hempty)
  · intro q hq
    have hqp : q ≠ p := hne q hq.ne_done
    rw [update_of_ne hqp] at hq
    exact (h.update_seq hactive hqp (h.active_of_filled hq) _).trans (h.high q hq)
  · intro q hq
    have hqp : q ≠ p := hne q hq.ne_done
    rw [update_of_ne hqp] at hq
    exact h.data q hq

end Good

end Ring

end SgxLkl
