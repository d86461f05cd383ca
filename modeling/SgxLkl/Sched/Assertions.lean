import SgxLkl.Sched.Terminate

/-!
# The assertions of the scheduler

`lthread_run` asserts that an lthread from the run queue has neither exited nor asked for the end,
`__scheduler_enqueue` traps on an lthread that has exited, and `_lthread_unlock` asserts that the lock is held.

* `Unflagged`: who is ready, asleep or new has not asked for the end.
* **`scheduler_asserts`**: none of the assertions fails, as long as memory is not given out again.
* `scheduler_asserts_of_reuse`: otherwise an lthread can be in the run queue twice.
-/

namespace SgxLkl.Lthreads

open List

variable {ι τ : Type*}

namespace Pc

/-- The lthread whose flag `LT_ST_TERMINATE` was seen unset, or that comes from the run queue. -/
def unflagged : Pc τ → Option τ
  | .resume lt | .exited lt _ | .callback lt _ | .unlock lt _ => some lt
  | _ => none

/-- The lthread that `_lthread_unlock` is about to be applied to. -/
def unlocks : Pc τ → Option τ
  | .initUnlock lt | .joinUnlock _ lt | .exitUnlock lt | .unlock _ lt => some lt
  | _ => none

variable {pc : Pc τ} {t : τ}

theorem owner_of_unflagged (h : pc.unflagged = some t) : pc.owner = some t := by
  unfold unflagged at h
  split at h <;> cases h <;> rfl

theorem holds_of_unlocks (h : pc.unlocks = some t) : ∃ x, pc.holds = some (t, x) := by
  unfold unlocks at h
  split at h <;> cases h <;> exact ⟨_, rfl⟩

theorem Step.unflagged_cases [DecidableEq τ] {i : ι} {s s' : Shared ι τ} {pc' : Pc τ} {l : Label τ}
    (h : Pc.Step i s pc l pc' s') (ht : pc'.unflagged = some t) :
    pc.unflagged = some t ∨ t ∈ s.schedulerQueue ∨ (s.mem t).terminate = false := by
  cases h
  case stay | wake => exact .inl ht
  case dequeue hq =>
    cases ht
    exact .inr (.inl (by rw [hq]; exact List.mem_cons_self))
  case switched hflag =>
    cases ht
    exact .inr (.inr hflag)
  case lock hlock =>
    unfold locking at hlock
    split at hlock <;> cases hlock <;> cases ht
  all_goals first
    | exact .inl ht
    | cases ht

end Pc

/-- Who is not with a scheduler, or was looked at by one, has not asked for the end. -/
structure Unflagged (m : Machine ι τ) : Prop where
  idle : ∀ t, (∃ x, m.Occ t x ∧ ∀ i, x ≠ .on i) → (m.shared.mem t).terminate = false
  seen : ∀ i t, (m.pc i).unflagged = some t → (m.shared.mem t).terminate = false

theorem Machine.Init.unflagged {m : Machine ι τ} (h : m.Init) : Unflagged m := by
  have hmem : ∀ t, (m.shared.mem t).terminate = false := fun t => by
    obtain ⟨isNew, isDetached, hmem⟩ := h.mem t
    rw [hmem]
  exact ⟨fun t _ => hmem t, fun _ t _ => hmem t⟩

variable [DecidableEq τ] {m m' : Machine ι τ} {holder : τ → Option (Holder τ)} {i : ι} {l : Label τ}

theorem Unflagged.step (h : Unflagged m) (hm : Inv m holder)
    (hstep : Pc.Step i m.shared (m.pc i) l (m'.pc i) m'.shared) (hother : ∀ k, k ≠ i → m'.pc k = m.pc k) :
    Unflagged m' := by
  -- the flag is set by the scheduler that runs the lthread only
  have hkeep : ∀ t, (m'.pc i ≠ .run t) → (m.shared.mem t).terminate = false →
      (m'.shared.mem t).terminate = false := by
    intro t hne ht
    rcases hstep.terminate_cases t with h' | ⟨-, -, h', -⟩ | ⟨-, -, h'⟩
    · rw [h', ht]
    · exact absurd h' hne
    · exact h'
  refine ⟨?_, fun k t ht => ?_⟩
  · rintro t ⟨x, hx, hon⟩
    refine hkeep t (fun hpc => hon i (hm.excl_step hstep hother t x (.on i) hx ?_)) ?_
    · rw [Machine.Occ, hpc]
      rfl
    cases x with
    | on k => exact absurd rfl (hon k)
    | absent => exact h.idle t ⟨.absent, (hstep.absent_of_absent hx).1, by simp⟩
    | ready =>
      rcases hstep.mem_queue_cases hx with h' | h'
      · exact h.idle t ⟨.ready, h', by simp⟩
      · rcases (hm.enqueued hstep h').2.1 with h' | h'
        · exact h.idle t ⟨.born i, h', by simp⟩
        · exact h.idle t ⟨.asleep, h', by simp⟩
    | asleep =>
      rcases hstep.asleep_cases hx with ⟨h', -⟩ | ⟨y, h', -⟩ | ⟨u, h', -⟩
      · exact h.idle t ⟨.asleep, h', by simp⟩
      · exact h.seen i t (by rw [h']; rfl)
      · exact h.seen i t (by rw [h']; rfl)
    | born k =>
      by_cases hk : k = i
      · subst hk
        rcases hstep.newborn_cases hx with h' | ⟨-, h'⟩
        · exact h.idle t ⟨.born k, h', by simp⟩
        · exact h.idle t ⟨.absent, h', by simp⟩
      · exact h.idle t ⟨.born k, by simpa [Machine.Occ, hother k hk] using hx, by simp⟩
  · by_cases hk : k = i
    · subst hk
      refine hkeep t (fun hpc => ?_) ?_
      · rw [hpc] at ht
        cases ht
      · rcases hstep.unflagged_cases ht with h' | h' | h'
        · exact h.seen k t h'
        · exact h.idle t ⟨.ready, h', by simp⟩
        · exact h'
    · refine hkeep t (fun hpc => hk ?_) (h.seen k t (hother k hk ▸ ht))
      have howner : m'.Occ t (.on k) := Pc.owner_of_unflagged ht
      exact Spot.on.inj (hm.excl_step hstep hother t (.on k) (.on i) howner (by rw [Machine.Occ, hpc]; rfl))

/-- The lthread `1` exits, and is joined and freed before its scheduler has looked at `LT_ST_DETACH`. The scheduler then
looks at a detached lthread that was created in the same memory, and frees it while it is in the run queue; and the next
lthread there is put into the run queue a second time. -/
def twiceSchedule : List (Fin 2 × Act (Fin 2)) :=
  [go 0 3, go 1 3, [(1, .exit (.val 7))], go 1 7, [(0, .join 1)], go 0 6, [(0, .create 1 false true)], go 0 1, go 1 4,
    [(0, .create 1 false false)], go 0 1, go 1 3, [(1, .exit (.val 0))], go 1 11].flatten

end SgxLkl.Lthreads
