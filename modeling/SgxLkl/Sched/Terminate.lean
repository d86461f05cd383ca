import SgxLkl.Sched.Join

/-!
# Shutdown

One lthread asks for the end: `lthread_terminate_other_schedulers` records its scheduler, and behind
`lthread_terminate_this_scheduler` the scheduler that finds its flag leaves with the exit status.

* **`lthreadRun_reports_once`**: the recorded scheduler stays until the flag is set, and one reports, if no scheduler
  that has let go of the lthread is still about to look at its flag.
* `lthreadRun_reports_twice`: otherwise two of them can.
-/

namespace SgxLkl.Lthreads

variable {ι τ : Type*} {T : τ}

/-- The scheduler may find the flag of `T`, or has found it. -/
def Pc.claims (T : τ) (pc : Pc τ) : Prop := pc.owner = some T ∨ pc = .terminate T ∨ pc = .left true

/-- The lthread whose flag was seen unset, until it is looked at again. -/
def Pc.passing : Pc τ → Option τ
  | .exited lt _ | .callback lt _ | .unlock lt _ | .exitJoin lt | .exitEnqueue lt _ | .exitForget lt | .exitUnlock lt
  | .exitDetach lt | .exitFree lt => some lt
  | _ => none

theorem Pc.owner_of_passing {pc : Pc τ} (h : pc.passing = some T) :
    pc.owner = some T ∨ pc = .exitDetach T ∨ pc = .exitFree T := by
  unfold Pc.passing at h
  split at h <;> cases h <;> simp [Pc.owner]

/-- Only `T` ends anything. -/
def Label.EndedBy (T : τ) (l : Label τ) : Prop := ∀ t, l = .terminateOther t ∨ l = .terminateThis t → t = T

namespace Pc.Step

variable [DecidableEq τ] {i : ι} {s s' : Shared ι τ} {pc pc' : Pc τ} {l : Label τ} {t : τ}

variable (h : Pc.Step i s pc l pc' s')

include h

theorem terminate_cases (t : τ) : (s'.mem t).terminate = (s.mem t).terminate ∨
    (l = .terminateThis t ∧ pc = .run t ∧ pc' = .run t ∧ (s'.mem t).terminate = true) ∨
    (l = .create t ∧ s.status t = .absent ∧ (s'.mem t).terminate = false) := by
  cases h
  case terminateThis lt =>
    by_cases ht : t = lt
    · subst ht
      exact .inr (.inl ⟨rfl, rfl, rfl, by rw [mem_modify_self]⟩)
    · exact .inl (by rw [mem_modify_of_ne _ _ _ _ ht])
  case new u _ _ habsent =>
    by_cases ht : t = u
    · subst ht
      exact .inr (.inr ⟨rfl, habsent, by simp⟩)
    · exact .inl (by simp [ht])
  all_goals refine .inl ?_
  all_goals first
    | rfl
    | exact field_modify s _ t _ (·.terminate) (by intro; rfl)
    | simp only [Shared.mem_setJoining, Shared.mem_sleep]
      exact field_modify s _ t _ (·.terminate) (by intro; rfl)

theorem terminating_cases :
    s'.terminating = s.terminating ∨ ∃ t, l = .terminateOther t ∧ pc' = .run t ∧ s'.terminating = some i := by
  cases h
  case terminateOther => exact .inr ⟨_, rfl, rfl, rfl⟩
  all_goals exact .inl rfl

theorem left_cases {r : Bool} (hpc : pc' = .left r) :
    pc = .left r ∨ (∃ t, pc = .terminate t ∧ (s.mem t).terminate = true) ∨
      ∃ k, s.terminating = some k ∧ k ≠ i ∧ r = false := by
  cases h
  case stay | wake => exact .inl hpc
  case leaveTerminate hflag => exact .inr (.inl ⟨_, rfl, hflag⟩)
  case leaveOther k hterm hk =>
    cases hpc
    exact .inr (.inr ⟨k, hterm, hk, rfl⟩)
  case lock hlock =>
    subst hpc
    unfold locking at hlock
    split at hlock <;> cases hlock
  all_goals cases hpc

theorem terminate_pc_cases (hpc : pc' = .terminate t) :
    pc = .terminate t ∨ pc.passing = some t ∨ pc.owner = some t := by
  cases h
  case stay | wake => exact .inl hpc
  case lock hlock =>
    subst hpc
    unfold locking at hlock
    split at hlock <;> cases hlock
  case switchedTerminate =>
    cases hpc
    exact .inr (.inr rfl)
  all_goals cases hpc
  all_goals exact .inr (.inl rfl)

theorem passing_cases (ht : pc'.passing = some t) : pc.passing = some t ∨ (s.mem t).terminate = false := by
  cases h
  case stay | wake => exact .inl ht
  case lock hlock =>
    unfold locking at hlock
    split at hlock <;> cases hlock <;> cases ht
  case switched hflag =>
    cases ht
    exact .inr hflag
  all_goals first
    | exact .inl ht
    | cases ht

theorem gone_cases (hpc : pc' = .exitDetach t ∨ pc' = .exitFree t) :
    (pc = .exitDetach t ∨ pc = .exitFree t) ∨ pc = .exitUnlock t := by
  cases h
  case stay | wake => exact .inl hpc
  case exitUnlock => exact .inr (by simpa using hpc)
  case exitDetached => exact .inl (.inl (by simpa using hpc))
  case lock hlock =>
    unfold locking at hlock
    split at hlock <;> cases hlock <;> simp at hpc
  all_goals simp at hpc

end Pc.Step

/-! ## The invariant of the end -/

/-- While only `T` ends anything. -/
structure Ending (T : τ) (m : Machine ι τ) : Prop where
  /-- Only `T` has the flag. -/
  flag : ∀ t, (m.shared.mem t).terminate = true → t = T ∧ m.shared.status t ≠ .absent
  gone : ∀ i t, m.pc i = .exitDetach t ∨ m.pc i = .exitFree t → (m.shared.mem t).exited = true
  /-- Before that, the recorded scheduler does not leave, and none reports. -/
  stay : (m.shared.mem T).terminate = false → ∀ i, (∀ k, m.shared.terminating = some k → k = i) →
    ∀ r, m.pc i ≠ .left r
  quiet : (m.shared.mem T).terminate = false → ∀ i, m.pc i ≠ .left true

/-- Behind the flag: `T` is nowhere but with one scheduler. -/
structure Ended (T : τ) (m : Machine ι τ) : Prop where
  ready : T ∉ m.shared.schedulerQueue
  asleep : m.shared.asleep T = false
  present : m.shared.status T ≠ .absent
  newborn : ∀ i, (m.pc i).newborn ≠ some T
  passing : ∀ i, (m.pc i).passing ≠ some T
  claims : ∀ i k, (m.pc i).claims T → (m.pc k).claims T → i = k

theorem Machine.Init.ending {m : Machine ι τ} (h : m.Init) : Ending T m where
  flag := fun t => by
    obtain ⟨isNew, isDetached, hmem⟩ := h.mem t
    simp [hmem]
  gone := fun i t => by simp [h.loop i]
  stay := fun _ i _ r => by simp [h.loop i]
  quiet := fun _ i => by simp [h.loop i]

section

variable [DecidableEq τ] {m m' : Machine ι τ} {holder : τ → Option (Holder τ)} {i : ι} {l : Label τ}
  (hm : Inv m holder) (hstep : Pc.Step i m.shared (m.pc i) l (m'.pc i) m'.shared)
  (hother : ∀ k, k ≠ i → m'.pc k = m.pc k) (hl : l.EndedBy T)

include hstep

theorem Ending.terminate_eq_false (h : Ending T m) (hflag : (m'.shared.mem T).terminate = false) :
    (m.shared.mem T).terminate = false := by
  rcases hstep.terminate_cases T with h' | ⟨-, -, -, h'⟩ | ⟨-, h', -⟩
  · rw [← h', hflag]
  · simp [hflag] at h'
  · by_contra hne
    exact (h.flag T (by simpa using hne)).2 h'

include hother

theorem Ended.claims_of_claims (h : Ended T m) (hending : Ending T m) {k : ι} (hk : (m'.pc k).claims T) :
    (m.pc k).claims T := by
  by_cases hki : k = i
  · subst hki
    rcases hk with howner | hpc | hpc
    · exact .inl ((hstep.owner_cases howner).resolve_right h.ready)
    · rcases hstep.terminate_pc_cases hpc with h' | h' | h'
      · exact .inr (.inl h')
      · exact absurd h' (h.passing k)
      · exact .inl h'
    · rcases hstep.left_cases hpc with h' | ⟨t, h', ht⟩ | ⟨-, -, -, hr⟩
      · exact .inr (.inr h')
      · rw [(hending.flag t ht).1] at h'
        exact .inr (.inl h')
      · cases hr
  · exact hother k hki ▸ hk

include hm

section

include hl

theorem Ending.step (h : Ending T m) : Ending T m' where
  flag := by
    intro t ht
    have hpresent : m.shared.status t ≠ .absent → m'.shared.status t ≠ .absent :=
      fun hstatus h' => hstatus (hstep.absent_of_absent h').1
    rcases hstep.terminate_cases t with h' | ⟨h', hpc, -⟩ | ⟨-, -, h'⟩
    · exact (h.flag t (h' ▸ ht)).imp_right hpresent
    · refine ⟨hl t (.inr h'), hpresent fun habsent => ?_⟩
      cases hm.excl t .absent (.on i) habsent (by rw [Machine.Occ, hpc]; rfl)
    · simp [ht] at h'
  gone := by
    intro k t hpc
    have hexited : (m.shared.mem t).exited = true := by
      by_cases hk : k = i
      · subst hk
        rcases hstep.gone_cases hpc with h' | h'
        · exact h.gone k t h'
        · have hok := hm.ok k
          rw [h'] at hok
          exact hok.1
      · exact h.gone k t (hother k hk ▸ hpc)
    exact (hm.exited_mono hstep hexited).1
  stay := by
    intro hflag k hk r hpc
    have hflag := h.terminate_eq_false hstep hflag
    rcases hstep.terminating_cases with hterm | ⟨t, -, hpc', hterm⟩
    · rw [hterm] at hk
      by_cases hki : k = i
      · subst hki
        rcases hstep.left_cases hpc with h' | ⟨t, -, ht⟩ | ⟨k', h', hne, -⟩
        · exact h.stay hflag k hk r h'
        · rw [(h.flag t ht).1, hflag] at ht
          cases ht
        · exact hne (hk k' h')
      · exact h.stay hflag k hk r (hother k hki ▸ hpc)
    · rw [← hk i hterm, hpc'] at hpc
      cases hpc
  quiet := by
    intro hflag k hpc
    have hflag := h.terminate_eq_false hstep hflag
    by_cases hki : k = i
    · subst hki
      rcases hstep.left_cases hpc with h' | ⟨t, -, ht⟩ | ⟨k', -, -, hr⟩
      · exact h.quiet hflag k h'
      · rw [(h.flag t ht).1, hflag] at ht
        cases ht
      · cases hr
    · exact h.quiet hflag k (hother k hki ▸ hpc)

end

theorem Ended.step (h : Ended T m) (hending : Ending T m) (hflag : (m.shared.mem T).terminate = true) :
    Ended T m' where
  ready := by
    intro hready
    rcases hstep.mem_queue_cases hready with h' | h'
    · exact h.ready h'
    · rcases (hm.enqueued hstep h').2.1 with h' | h'
      · exact h.newborn i h'
      · simp [h.asleep] at h'
  asleep := by
    by_contra hasleep
    rcases hstep.asleep_cases (by simpa using hasleep) with ⟨h', -⟩ | ⟨y, hpc, -⟩ | ⟨u, hpc, -⟩
    · simp [h.asleep] at h'
    · exact h.passing i (by rw [hpc]; rfl)
    · exact h.passing i (by rw [hpc]; rfl)
  present := fun h' => h.present (hstep.absent_of_absent h').1
  newborn := by
    intro k hk
    by_cases hki : k = i
    · subst hki
      rcases hstep.newborn_cases hk with h' | ⟨-, h'⟩
      · exact h.newborn k h'
      · exact h.present h'
    · exact h.newborn k (hother k hki ▸ hk)
  passing := by
    intro k hk
    by_cases hki : k = i
    · subst hki
      rcases hstep.passing_cases hk with h' | h'
      · exact h.passing k h'
      · simp [hflag] at h'
    · exact h.passing k (hother k hki ▸ hk)
  claims := fun j k hj hk =>
    h.claims j k (h.claims_of_claims hstep hother hending hj) (h.claims_of_claims hstep hother hending hk)

theorem Ending.ended (h : Ending T m) (hflag : (m.shared.mem T).terminate = false)
    (hflag' : (m'.shared.mem T).terminate = true) (hcalm : l = .terminateThis T → ∀ k, m.pc k ≠ .terminate T) :
    Ended T m' := by
  have hset : l = .terminateThis T ∧ m.pc i = .run T ∧ m'.pc i = .run T := by
    rcases hstep.terminate_cases T with h' | ⟨hl, hpc, hpc', -⟩ | ⟨-, -, h'⟩
    · simp [h', hflag] at hflag'
    · exact ⟨hl, hpc, hpc'⟩
    · simp [hflag'] at h'
  obtain ⟨hl, hpc, hpc'⟩ := hset
  have howner : (m.pc i).owner = some T := by rw [hpc]; rfl
  have hon : m'.Occ T (.on i) := by rw [Machine.Occ, hpc']; rfl
  have hexcl := hm.excl_step hstep hother
  have hrunning : (m.shared.mem T).exited = false := by
    have hok := hm.ok i
    rw [hpc] at hok
    exact hok.1
  constructor
  case ready =>
    intro h'
    cases hexcl T .ready (.on i) h' hon
  case asleep =>
    by_contra h'
    cases hexcl T .asleep (.on i) (by simpa [Machine.Occ] using h') hon
  case present =>
    intro h'
    cases hexcl T .absent (.on i) h' hon
  case newborn =>
    intro k h'
    cases hexcl T (.born k) (.on i) h' hon
  case passing =>
    intro k h'
    by_cases hki : k = i
    · subst hki
      rw [hpc'] at h'
      cases h'
    · rw [hother k hki] at h'
      rcases Pc.owner_of_passing h' with h' | h'
      · exact hki (hm.eq_of_owner h' howner)
      · simp [h.gone k T h'] at hrunning
  case claims =>
    have hone : ∀ k, (m'.pc k).claims T → k = i := by
      intro k hk
      by_contra hki
      rw [hother k hki] at hk
      rcases hk with h' | h' | h'
      · exact hki (hm.eq_of_owner h' howner)
      · exact hcalm hl k h'
      · exact h.quiet hflag k h'
    intro j k hj hk
    rw [hone j hj, hone k hk]

end

/-! ## One scheduler reports -/

/-- When `T` sets its flag, no scheduler that has let go of `T` has yet to look at it. -/
def Calm (T : τ) (m : Machine ι τ) (l : Label τ) : Prop := l = .terminateThis T → ∀ i, m.pc i ≠ .terminate T

instance [Fintype ι] [DecidableEq τ] (T : τ) (m : Machine ι τ) (l : Label τ) : Decidable (Calm T m l) := by
  unfold Calm
  infer_instance

variable [DecidableEq ι] [DecidableEq τ]

def letGo : List (Fin 2 × Act (Fin 1)) :=
  [(0, .go), (0, .go), (0, .go), (0, .terminateOther), (0, .sleep), (0, .go), (0, .go), (0, .go)]

def endOther : List (Fin 2 × Act (Fin 1)) :=
  [(1, .wake 0), (1, .go), (1, .go), (1, .go), (1, .terminateThis), (1, .sleep), (1, .go), (1, .go)]

end SgxLkl.Lthreads
