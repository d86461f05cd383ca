import SgxLkl.Sched.Terminate

/-!
# When the structure of an lthread is freed

* **`lthread_freed_once`**: with one scheduler, and if nobody is detached, who is joined once is freed once, and not used
  behind that.
* `lthread_used_after_free`: the scheduler that has freed a detached lthread looks at its flags, and with two schedulers
  so does the one that has dealt with the exit of an lthread that the other has joined.
-/

namespace SgxLkl.Lthreads

open List

variable {ι τ : Type*}

/-- The structures that are read or written here. -/
def Pc.accesses : Pc τ → List τ
  | .resume lt | .initLock lt | .initClear lt | .initUnlock lt | .clear lt | .exitLock lt _ | .exitArg lt _
  | .exitFlag lt | .switched lt _ | .exited lt _ | .exitJoin lt | .exitEnqueue lt _ | .exitForget lt | .exitUnlock lt
  | .exitDetach lt | .exitFree lt | .callback lt _ | .terminate lt => [lt]
  | .joinYield lt u => [lt, u]
  | .detach _ u | .joinDetach _ u | .joinLock _ u | .joinExited _ u | .joinCas _ u | .joinUnlock _ u
  | .joinRelock _ u | .joinArg _ u | .joinFree _ u _ | .unlock _ u => [u]
  | .loop | .run _ | .create _ _ | .joinRet _ _ _ | .scheduler | .left _ => []

/-- The lthread that is being joined or detached here, up to its end. -/
def Pc.disposing : Pc τ → Option τ
  | .detach _ u | .joinDetach _ u | .joinLock _ u | .joinExited _ u | .joinCas _ u | .joinUnlock _ u | .joinYield _ u
  | .joinRelock _ u | .joinArg _ u | .joinFree _ u _ | .switched _ (.join u) | .exited _ (.join u)
  | .callback _ (.join u) | .unlock _ u => some u
  | _ => none

/-- The call joins or detaches `u`. -/
def Label.disposes [DecidableEq τ] (u : τ) : Label τ → Bool
  | .joinCall _ v | .detachCall _ v => v = u
  | _ => false

/-- The lthread `j` joins or detaches `u`. -/
def Agent (m : Machine ι τ) (j u : τ) : Prop :=
  (∃ i, (m.pc i).owner = some j ∧ (m.pc i).disposing = some u) ∨ m.shared.joining j = some u

namespace Pc.Step

variable [DecidableEq τ] {i : ι} {s s' : Shared ι τ} {pc pc' : Pc τ} {l : Label τ} {t u j : τ}

variable (h : Pc.Step i s pc l pc' s')

include h

theorem status_cases (t : τ) : s'.status t = s.status t ∧ l ≠ .free t ∨
    (s.status t = .absent ∧ s'.status t = .live ∧ l = .create t) ∨
    (s'.status t = .freed ∧ l = .free t ∧ ((∃ j r, pc = .joinFree j t r ∧ pc' = .joinRet j t r) ∨
      pc = .exitFree t ∧ pc' = .terminate t)) := by
  cases h
  case new v _ _ habsent =>
    by_cases ht : t = v
    · subst ht
      exact .inr (.inl ⟨habsent, by simp, rfl⟩)
    · exact .inl ⟨by simp [ht], by simp⟩
  case joinFree lt v r =>
    by_cases ht : t = v
    · subst ht
      exact .inr (.inr ⟨by simp [Shared.free], rfl, .inl ⟨lt, r, rfl, rfl⟩⟩)
    · exact .inl ⟨by simp [Shared.free, ht], by simp [Ne.symm ht]⟩
  case exitFree lt =>
    by_cases ht : t = lt
    · subst ht
      exact .inr (.inr ⟨by simp [Shared.free], rfl, .inr ⟨rfl, rfl⟩⟩)
    · exact .inl ⟨by simp [Shared.free, ht], by simp [Ne.symm ht]⟩
  all_goals exact .inl ⟨rfl, by simp⟩

theorem detach_cases (t : τ) : (s'.mem t).detach = (s.mem t).detach ∨
    (∃ lt, pc = .detach lt t ∧ pc' = .run lt ∧ l = .tau ∧ (s'.mem t).detach = true) ∨
    (l = .create t ∧ s.status t = .absent) := by
  cases h
  case detach lt u _ =>
    by_cases ht : t = u
    · subst ht
      exact .inr (.inl ⟨lt, rfl, rfl, rfl, by rw [mem_modify_self]⟩)
    · exact .inl (by rw [mem_modify_of_ne _ _ _ _ ht])
  case new u _ _ habsent =>
    by_cases ht : t = u
    · subst ht
      exact .inr (.inr ⟨rfl, habsent⟩)
    · exact .inl (by simp [ht])
  all_goals refine .inl ?_
  all_goals first
    | rfl
    | exact field_modify s _ t _ (·.detach) (by intro; rfl)
    | simp only [Shared.mem_setJoining, Shared.mem_sleep]
      exact field_modify s _ t _ (·.detach) (by intro; rfl)

/-- Who joins or detaches an lthread behind a step did so before, or calls just now. -/
theorem agent_cases (hok : pc.Ok s) (hj : pc'.owner = some j) (hu : pc'.disposing = some u) :
    (pc.owner = some j ∧ pc.disposing = some u) ∨ s.joining j = some u ∨ l = .joinCall j u ∨ l = .detachCall j u := by
  cases h
  case stay | wake => exact .inl ⟨hj, hu⟩
  case lock hlock =>
    unfold locking at hlock
    split at hlock <;> cases hlock <;> exact .inl ⟨hj, hu⟩
  case clearJoin v hv =>
    cases hj
    cases hu
    exact .inr (.inl hv)
  case joinCall =>
    cases hj
    cases hu
    exact .inr (.inr (.inl rfl))
  case detachCall =>
    cases hj
    cases hu
    exact .inr (.inr (.inr rfl))
  case switched y _ | notExited y _ => cases y <;> exact .inl ⟨hj, hu⟩
  case callUnlock y hcb harg =>
    cases hu
    cases y with
    | exit => exact hok.elim
    | sleep => simp [Pc.Ok, hcb] at hok
    | join w =>
      have hw := hok.2.2.2.1
      rw [harg] at hw
      cases hw
      exact .inl ⟨hj, rfl⟩
  all_goals first
    | exact .inl ⟨hj, hu⟩
    | cases hu

theorem status_of_disposes (hl : l.disposes u = true) : s.status u ≠ .absent := by
  cases h
  case joinCall hstatus | detachCall hstatus => simpa [Label.disposes] using (of_decide_eq_true hl) ▸ hstatus
  all_goals cases hl

theorem exitFree_cases (hpc : pc' = .exitFree t) :
    pc = .exitFree t ∨ pc = .exitDetach t ∧ (s.mem t).detach = true := by
  cases h
  case stay | wake => exact .inl hpc
  case exitDetached hdetach =>
    cases hpc
    exact .inr ⟨rfl, hdetach⟩
  case lock hlock =>
    subst hpc
    unfold locking at hlock
    split at hlock <;> cases hlock
  all_goals cases hpc

theorem exitUnlock_forward (hpc : pc = .exitUnlock t) (hne : pc' ≠ .exitUnlock t) : l = .processed t := by
  cases h
  case stay | wake => exact absurd hpc hne
  case exitUnlock =>
    cases hpc
    rfl
  case lock hlock =>
    subst hpc
    cases hlock
  all_goals cases hpc

theorem joinUnlock_cases (hpc : pc' = .joinUnlock j u) :
    pc = .joinUnlock j u ∨ pc = .joinCas j u ∧ ∃ j₁, (s.mem u).ltJoin = some j₁ := by
  cases h
  case stay | wake => exact .inl hpc
  case joinRefused hj =>
    cases hpc
    exact .inr ⟨rfl, _, hj⟩
  case lock hlock =>
    subst hpc
    unfold locking at hlock
    split at hlock <;> cases hlock
  all_goals cases hpc

theorem joinRet_pc_cases {r : Arg τ} (hpc : pc' = .joinRet j u r) : pc = .joinRet j u r ∨ s'.status u = .freed := by
  cases h
  case stay | wake => exact .inl hpc
  case joinFree =>
    cases hpc
    exact .inr (by simp [Shared.free])
  case lock hlock =>
    subst hpc
    unfold locking at hlock
    split at hlock <;> cases hlock
  all_goals cases hpc

end Pc.Step

/-! ## The invariant -/

/-- What the labels so far say of agents, exits and frees. -/
structure Frees [DecidableEq τ] (ls : List (Label τ)) (m : Machine ι τ) (holder : τ → Option (Holder τ)) : Prop where
  used : ∀ j u, Agent m j u → ∃ l ∈ ls, l.disposes u = true
  one : ∀ j k u, Agent m j u → Agent m k u → j = k
  present : ∀ j u, Agent m j u → m.shared.status u ≠ .absent
  kept : ∀ j u, Agent m j u → m.shared.status u ≠ .freed
  settled : ∀ u, .processed u ∈ ls → ∀ i, (m.pc i).owner ≠ some u
  exited : ∀ u, (m.shared.mem u).exited = true → holder u = some .self ∨ .processed u ∈ ls
  freed : ∀ u, m.shared.status u = .freed → .processed u ∈ ls ∧ ∃ l ∈ ls, l.disposes u = true
  gone : ∀ i u, m.pc i = .exitDetach u → .processed u ∈ ls
  kind : ∀ i u, m.pc i ≠ .exitFree u
  looked : ∀ i u, m.pc i = .exitDetach u ∨ m.pc i = .terminate u → m.shared.status u ≠ .freed
  accepted : ∀ i j u, m.pc i ≠ .joinUnlock j u
  returned : ∀ i j u r, m.pc i = .joinRet j u r → m.shared.status u = .freed
  joined : ∀ j u rc r, .joinRet j u rc r ∈ ls → rc = 0 ∧ m.shared.status u = .freed
  count : ∀ u, m.shared.status u = .freed ∧ ls.count (.free u) = 1 ∨
    m.shared.status u ≠ .freed ∧ ls.count (.free u) = 0

theorem Machine.Init.frees [DecidableEq τ] {m : Machine ι τ} (h : m.Init) : Frees [] m fun _ => none := by
  have hagent : ∀ j u, ¬Agent m j u := by
    rintro j u (⟨i, hj, -⟩ | hj)
    · simp [h.loop i, Pc.owner] at hj
    · simp [h.joining j] at hj
  constructor
  case one => exact fun j k u hj => absurd hj (hagent j u)
  case used | present | kept => exact fun j u hj => absurd hj (hagent j u)
  case exited =>
    intro u hu
    obtain ⟨isNew, isDetached, hmem⟩ := h.mem u
    simp [hmem] at hu
  case freed => exact fun u hu => absurd hu (h.freed u)
  case count => exact fun u => .inr ⟨h.freed u, rfl⟩
  all_goals simp [h.loop]

/-- None of the lthreads is detached. -/
def Machine.Joinable (m : Machine ι τ) : Prop :=
  ∀ t, m.shared.status t ≠ .absent → (m.shared.mem t).detach = false

section

variable [DecidableEq τ] {m m' : Machine ι τ} {holder holder' : τ → Option (Holder τ)} {i : ι} {l : Label τ}
  {ls : List (Label τ)} {j u : τ}

theorem disposes_iff : l.disposes u = true ↔ ∃ j, l = .joinCall j u ∨ l = .detachCall j u := by
  cases l <;> simp [Label.disposes]

section

variable (hm : Inv m holder) (hstep : Pc.Step i m.shared (m.pc i) l (m'.pc i) m'.shared)
  (hother : ∀ k, k ≠ i → m'.pc k = m.pc k)

include hm hstep hother

theorem Inv.agent_step (h : Agent m' j u) : Agent m j u ∨ l = .joinCall j u ∨ l = .detachCall j u := by
  rcases h with ⟨k, hj, hu⟩ | hjoin
  · by_cases hk : k = i
    · subst hk
      rcases hstep.agent_cases (hm.ok k) hj hu with h | h | h
      · exact .inl (.inl ⟨k, h⟩)
      · exact .inl (.inr h)
      · exact .inr h
    · rw [hother k hk] at hj hu
      exact .inl (.inl ⟨k, hj, hu⟩)
  · rcases hstep.joining_some_cases hjoin with h | h
    · exact .inl (.inr h)
    · exact .inl (.inl ⟨i, by rw [h]; exact ⟨rfl, rfl⟩⟩)

theorem Inv.not_agent (hj : (m.pc i).owner = some j) (hjoin : m.shared.joining j = none)
    (hpc : m.pc i ≠ .joinYield j u) (hpc' : (m'.pc i).disposing ≠ some u) : ¬Agent m' j u := by
  rintro (⟨k, hk, hu⟩ | h)
  · by_cases hki : k = i
    · exact hpc' (hki ▸ hu)
    · rw [hother k hki] at hk
      exact hki (hm.eq_of_owner hk hj)
  · rcases hstep.joining_some_cases h with h | h
    · simp [hjoin] at h
    · exact hpc h

end

omit [DecidableEq τ] in
theorem agent_of_pc (hj : (m.pc i).owner = some j) (hu : (m.pc i).disposing = some u) : Agent m j u :=
  .inl ⟨i, hj, hu⟩

variable {s s' : Shared ι τ} {pc pc' : Pc τ}

theorem Pc.Step.detach_mono (h : Pc.Step i s pc l pc' s')
    (hu : (s.mem u).detach = true) (hstatus : s.status u ≠ .absent) : (s'.mem u).detach = true := by
  rcases h.detach_cases u with h | ⟨lt, -, -, -, h⟩ | ⟨-, h⟩
  · rw [h, hu]
  · exact h
  · exact absurd h hstatus

theorem Pc.Step.freed_mono (h : Pc.Step i s pc l pc' s') (hu : s.status u = .freed) : s'.status u = .freed := by
  rcases h.status_cases u with ⟨h, -⟩ | ⟨h, -⟩ | ⟨h, -⟩
  · rw [h, hu]
  · simp [hu] at h
  · exact h

namespace Frees

variable (h : Frees ls m holder) (hm : Inv m holder) (hexits : Exits ls m)
  (hstep : Pc.Step i m.shared (m.pc i) l (m'.pc i) m'.shared) (hother : ∀ k, k ≠ i → m'.pc k = m.pc k)
  (hjoinable : m.Joinable) (hfresh : ∀ u, l.disposes u = true → ∀ l' ∈ ls, l'.disposes u = false)

section

include h

theorem not_freed_of_owner {k : ι} (hk : (m.pc k).owner = some u) : m.shared.status u ≠ .freed :=
  fun hu => h.settled u (h.freed u hu).1 k hk

include hm hexits

theorem present_of_gone {k : ι} (hk : m.pc k = .exitDetach u) : m.shared.status u ≠ .absent :=
  hm.status_ne_of_exited (hexits.processed u (h.gone k u hk)).1

end

include h hm hstep hother

section Agents

include hfresh

theorem agents_step (hju : Agent m' j u) : (∃ l' ∈ ls ++ [l], l'.disposes u = true) ∧
    ∀ k, Agent m' k u → j = k := by
  have hlabel : ∀ {k : τ}, l = .joinCall k u ∨ l = .detachCall k u → l.disposes u = true :=
    fun hl => disposes_iff.mpr ⟨_, hl⟩
  have hold : ∀ {k : τ}, Agent m k u → ¬l.disposes u = true := by
    intro k hk hl
    obtain ⟨l', hmem, hl'⟩ := h.used k u hk
    simp [hfresh u hl l' hmem] at hl'
  have hused : ∃ l' ∈ ls ++ [l], l'.disposes u = true := by
    rcases hm.agent_step hstep hother hju with hju | hl
    · obtain ⟨l', hmem, hl'⟩ := h.used j u hju
      exact ⟨l', mem_append_left _ hmem, hl'⟩
    · exact ⟨l, by simp, hlabel hl⟩
  refine ⟨hused, fun k hku => ?_⟩
  rcases hm.agent_step hstep hother hju with hju | hl
  · rcases hm.agent_step hstep hother hku with hku | hl
    · exact h.one j k u hju hku
    · exact absurd (hlabel hl) (hold hju)
  · rcases hm.agent_step hstep hother hku with hku | hl'
    · exact absurd (hlabel hl) (hold hku)
    · rcases hl with rfl | rfl <;> simpa using hl'

/-- Nobody else frees what an agent is about to free. -/
theorem kept_step (hju : Agent m' j u) : m'.shared.status u ≠ .freed := by
  rcases hm.agent_step hstep hother hju with hold | hl
  · rcases hstep.status_cases u with ⟨h', -⟩ | ⟨h', -⟩ | ⟨-, -, ⟨k, r, hpc, hpc'⟩ | ⟨hpc, -⟩⟩
    · rw [h']
      exact h.kept j u hold
    · exact absurd h' (h.present j u hold)
    · have howner : (m.pc i).owner = some k := by rw [hpc]; rfl
      have hok := hm.ok i
      rw [hpc] at hok
      cases h.one j k u hold (agent_of_pc howner (by rw [hpc]; rfl))
      exact absurd hju (hm.not_agent hstep hother howner hok.1.2 (by simp [hpc]) (by simp [hpc', Pc.disposing]))
    · exact absurd hpc (h.kind i u)
  · intro hfreed
    rcases hstep.status_cases u with ⟨h', -⟩ | ⟨h', -⟩ | ⟨-, h', -⟩
    · obtain ⟨l', hmem, hl'⟩ := (h.freed u (h' ▸ hfreed)).2
      simp [hfresh u (disposes_iff.mpr ⟨j, hl⟩) l' hmem] at hl'
    · exact hstep.status_of_disposes (disposes_iff.mpr ⟨j, hl⟩) h'
    · rcases hl with rfl | rfl <;> cases h'

end Agents

theorem present_step (hju : Agent m' j u) : m'.shared.status u ≠ .absent := by
  have hstatus : m.shared.status u ≠ .absent := by
    rcases hm.agent_step hstep hother hju with hju | hl
    · exact h.present j u hju
    · exact hstep.status_of_disposes (disposes_iff.mpr ⟨j, hl⟩)
  exact fun h' => hstatus (hstep.absent_of_absent h').1

section Exits

include hexits

theorem settled_step (hu : .processed u ∈ ls ++ [l]) (k : ι) : (m'.pc k).owner ≠ some u := by
  intro hk
  rcases mem_append.mp hu with hu | hu
  · by_cases hki : k = i
    · subst hki
      rcases hstep.owner_cases hk with h' | h'
      · exact h.settled u hu k h'
      · have hrunning := hm.idle u (.inl h')
        simp [(hexits.processed u hu).1] at hrunning
    · exact h.settled u hu k (hother k hki ▸ hk)
  · rw [← mem_singleton.mp hu] at hstep
    obtain ⟨hpc, hpc', -⟩ := hstep.processed_cases
    by_cases hki : k = i
    · subst hki
      rw [hpc'] at hk
      cases hk
    · rw [hother k hki] at hk
      exact hki (hm.eq_of_owner hk (by rw [hpc]; rfl))

end Exits

omit hother in
theorem exited_step (hholder : HolderStep m.shared m'.shared (m.pc i) (m'.pc i) holder holder')
    (hu : (m'.shared.mem u).exited = true) : holder' u = some .self ∨ .processed u ∈ ls ++ [l] := by
  rcases hstep.exited_cases u with h' | ⟨-, hpc', -⟩ | ⟨-, -, h'⟩
  · rw [h'] at hu
    rcases h.exited u hu with hself | hmem
    · have hok := hm.ok i
      rcases hholder.self u hself with h' | hpc | ⟨hpc, hpc'⟩
      · exact .inl h'
      · rw [hpc] at hok
        simp [hok.1] at hu
      · have hl := hstep.exitUnlock_forward hpc (by simp [hpc'])
        exact .inr (mem_append_right _ (mem_singleton.mpr hl.symm))
    · exact .inr (mem_append_left _ hmem)
  · exact .inl (hholder.holds u .self (by rw [hpc']; rfl))
  · simp [hu] at h'

omit hother in
theorem freed_step (hu : m'.shared.status u = .freed) :
    .processed u ∈ ls ++ [l] ∧ ∃ l' ∈ ls ++ [l], l'.disposes u = true := by
  have hused : (∃ l' ∈ ls, l'.disposes u = true) → ∃ l' ∈ ls ++ [l], l'.disposes u = true :=
    fun ⟨l', hmem, hl'⟩ => ⟨l', mem_append_left _ hmem, hl'⟩
  rcases hstep.status_cases u with ⟨h', -⟩ | ⟨-, h', -⟩ | ⟨-, -, ⟨j, r, hpc, -⟩ | ⟨hpc, -⟩⟩
  · obtain ⟨hmem, hend⟩ := h.freed u (h' ▸ hu)
    exact ⟨mem_append_left _ hmem, hused hend⟩
  · simp [h'] at hu
  · have hok := hm.ok i
    rw [hpc] at hok
    have hmem := (h.exited u hok.2.1).resolve_left (by simp [hm.holds i u (.caller j) (by rw [hpc]; rfl)])
    have hagent : Agent m j u := agent_of_pc (i := i) (by rw [hpc]; rfl) (by rw [hpc]; rfl)
    exact ⟨mem_append_left _ hmem, hused (h.used j u hagent)⟩
  · exact absurd hpc (h.kind i u)

variable {k : ι}

omit hm in
theorem gone_step (hk : m'.pc k = .exitDetach u) : .processed u ∈ ls ++ [l] := by
  by_cases hki : k = i
  · subst hki
    rcases hstep.gone_cases (.inl hk) with (hpc | hpc) | hpc
    · exact mem_append_left _ (h.gone k u hpc)
    · exact absurd hpc (h.kind k u)
    · have hl := hstep.exitUnlock_forward hpc (by simp [hk])
      exact mem_append_right _ (mem_singleton.mpr hl.symm)
  · exact mem_append_left _ (h.gone k u (hother k hki ▸ hk))

include hexits hjoinable in
theorem kind_step (k : ι) : m'.pc k ≠ .exitFree u := by
  intro hk
  by_cases hki : k = i
  · subst hki
    rcases hstep.exitFree_cases hk with hpc | ⟨hpc, hdetach⟩
    · exact h.kind k u hpc
    · simp [hjoinable u (h.present_of_gone hm hexits hpc)] at hdetach
  · exact h.kind k u (hother k hki ▸ hk)

omit hm hother in
/-- The only scheduler does not free what it has yet to look at. -/
theorem looked_step [Subsingleton ι] (hk : m'.pc k = .exitDetach u ∨ m'.pc k = .terminate u) :
    m'.shared.status u ≠ .freed := by
  obtain rfl := Subsingleton.elim k i
  have hold : m.shared.status u ≠ .freed := by
    rcases hk with hk | hk
    · rcases hstep.gone_cases (.inl hk) with (hpc | hpc) | hpc
      · exact h.looked k u (.inl hpc)
      · exact absurd hpc (h.kind k u)
      · exact h.not_freed_of_owner (k := k) (by rw [hpc]; rfl)
    · rcases hstep.terminate_pc_cases hk with hpc | hpc | hpc
      · exact h.looked k u (.inr hpc)
      · rcases Pc.owner_of_passing hpc with hpc | hpc | hpc
        · exact h.not_freed_of_owner hpc
        · exact h.looked k u (.inl hpc)
        · exact absurd hpc (h.kind k u)
      · exact h.not_freed_of_owner hpc
  rcases hstep.status_cases u with ⟨h', -⟩ | ⟨-, h', -⟩ | ⟨-, -, ⟨j, r, -, hpc'⟩ | ⟨hpc, -⟩⟩
  · rwa [h']
  · simp [h']
  · simp [hpc'] at hk
  · exact absurd hpc (h.kind k u)

theorem accepted_step (k : ι) : m'.pc k ≠ .joinUnlock j u := by
  intro hk
  by_cases hki : k = i
  · subst hki
    rcases hstep.joinUnlock_cases hk with hpc | ⟨hpc, j₁, hj₁⟩
    · exact h.accepted k j u hpc
    · have howner : (m.pc k).owner = some j := by rw [hpc]; rfl
      have hheld := hm.holds k u (.caller j) (by rw [hpc]; rfl)
      rcases hm.registered u j₁ hj₁ with ⟨k', hk'⟩ | ⟨hasleep, hjoin⟩ | h'
      · have hself := hm.holds k' u .self (by rw [hk']; rfl)
        simp [hheld] at hself
      · cases h.one j j₁ u (agent_of_pc howner (by rw [hpc]; rfl)) (.inr hjoin)
        cases hm.excl j .asleep (.on k) hasleep howner
      · simp [hheld] at h'
  · exact h.accepted k j u (hother k hki ▸ hk)

omit hm in
theorem returned_step {r : Arg τ} (hk : m'.pc k = .joinRet j u r) : m'.shared.status u = .freed := by
  by_cases hki : k = i
  · subst hki
    rcases hstep.joinRet_pc_cases hk with hpc | hfreed
    · exact hstep.freed_mono (h.returned k j u r hpc)
    · exact hfreed
  · exact hstep.freed_mono (h.returned k j u r (hother k hki ▸ hk))

omit hother hm in
include hjoinable in
theorem joined_step {rc : CInt} {r : Option (Arg τ)} (hl : .joinRet j u rc r ∈ ls ++ [l]) :
    rc = 0 ∧ m'.shared.status u = .freed := by
  rcases mem_append.mp hl with hl | hl
  · exact (h.joined j u rc r hl).imp_right hstep.freed_mono
  · rw [← mem_singleton.mp hl] at hstep
    rcases hstep.joinRet_cases with ⟨⟨hpc, hdetach⟩ | hpc, -⟩ | ⟨v, hpc, hrc, -⟩
    · have hagent : Agent m j u := agent_of_pc (i := i) (by rw [hpc]; rfl) (by rw [hpc]; rfl)
      simp [hjoinable u (h.present j u hagent)] at hdetach
    · exact absurd hpc (h.accepted i j u)
    · exact ⟨hrc, hstep.freed_mono (h.returned i j u v hpc)⟩

omit hother hm in
theorem count_step (u : τ) : m'.shared.status u = .freed ∧ (ls ++ [l]).count (.free u) = 1 ∨
    m'.shared.status u ≠ .freed ∧ (ls ++ [l]).count (.free u) = 0 := by
  rcases hstep.status_cases u with ⟨h', hl⟩ | ⟨habsent, h', hl⟩ | ⟨h', hl, hpc⟩
  · rw [h', count_append, count_singleton]
    simpa [hl] using h.count u
  · have hcount := h.count u
    simp [habsent] at hcount
    exact .inr ⟨by simp [h'], by simp [hl, hcount]⟩
  · have hnot : m.shared.status u ≠ .freed := by
      rcases hpc with ⟨j, r, hpc, -⟩ | ⟨hpc, -⟩
      · exact h.kept j u (agent_of_pc (i := i) (by rw [hpc]; rfl) (by rw [hpc]; rfl))
      · exact absurd hpc (h.kind i u)
    have hcount := h.count u
    simp [hnot] at hcount
    exact .inl ⟨h', by simp [hl, hcount]⟩

include hexits hjoinable hfresh

/-- **A step keeps the invariant.** -/
theorem step [Subsingleton ι] (hholder : HolderStep m.shared m'.shared (m.pc i) (m'.pc i) holder holder') :
    Frees (ls ++ [l]) m' holder' where
  used := fun _ _ hj => (h.agents_step hm hstep hother hfresh hj).1
  one := fun _ k _ hj hk => (h.agents_step hm hstep hother hfresh hj).2 k hk
  present := fun _ _ => h.present_step hm hstep hother
  kept := fun _ _ => h.kept_step hm hstep hother hfresh
  settled := fun _ => h.settled_step hm hexits hstep hother
  exited := fun _ => h.exited_step hm hstep hholder
  freed := fun _ => h.freed_step hm hstep
  gone := fun _ _ => h.gone_step hstep hother
  kind := fun k _ => h.kind_step hm hexits hstep hother hjoinable k
  looked := fun _ _ => h.looked_step hstep
  accepted := fun k _ _ => h.accepted_step hm hstep hother k
  returned := fun _ _ _ _ => h.returned_step hstep hother
  joined := fun _ _ _ _ => h.joined_step hstep hjoinable
  count := h.count_step hstep

end Frees

end

/-! ## Structures are freed once -/

theorem Pc.accesses_cases {pc : Pc τ} {t : τ} (h : t ∈ pc.accesses) :
    pc.owner = some t ∨ (∃ j, pc.owner = some j ∧ pc.disposing = some t) ∨ pc = .exitFree t ∨
      pc = .exitDetach t ∨ pc = .terminate t := by
  cases pc <;> simp [Pc.accesses] at h
  case joinYield lt u => rcases h with rfl | rfl <;> simp [Pc.owner, Pc.disposing]
  all_goals
    subst h
    simp [Pc.owner, Pc.disposing]

variable [DecidableEq ι] [DecidableEq τ]

omit [DecidableEq ι] in
theorem Machine.Joinable.of_step {m m' : Machine ι τ} {i : ι} {l : Label τ} (h : m'.Joinable)
    (hstep : Pc.Step i m.shared (m.pc i) l (m'.pc i) m'.shared) : m.Joinable := by
  intro t ht
  by_contra hdetach
  have hstatus : m'.shared.status t ≠ .absent := fun h' => ht (hstep.absent_of_absent h').1
  have hkept := hstep.detach_mono (by simpa using hdetach) ht
  simp [h t hstatus] at hkept

/-- **Structures are freed once.** In every run on one scheduler in which nobody is detached, each lthread is joined at
most once and new lthreads are given new memory: a structure is freed at most once, behind the exit; every join returns
`0` and has freed the structure; and what is read or written has not been freed. -/
theorem lthread_freed_once [Subsingleton ι] {m₀ m : Machine ι τ} {ls : List (Label τ)} (h₀ : m₀.Init)
    (hrun : Run (Guarded Machine.Step Machine.Fresh) m₀ ls m) (hls : ∀ u, ls.countP (·.disposes u) ≤ 1)
    (hjoinable : m.Joinable) :
    (∀ t, ls.count (.free t) ≤ 1 ∧ (.free t ∈ ls → (m.shared.mem t).exited = true)) ∧
      (∀ j t rc r, .joinRet j t rc r ∈ ls → rc = 0 ∧ .free t ∈ ls) ∧
      ∀ i, ∀ t ∈ (m.pc i).accesses, m.shared.status t ≠ .freed := by
  have hinv : ∃ holder, Inv m holder ∧ Exits ls m ∧ Frees ls m holder := by
    refine hrun.history (I := fun ls m => (∀ u, ls.countP (·.disposes u) ≤ 1) → m.Joinable →
      ∃ holder, Inv m holder ∧ Exits ls m ∧ Frees ls m holder) ?_
      (fun _ _ => ⟨_, h₀.inv, h₀.exits, h₀.frees⟩) hls hjoinable
    rintro ls m l m' ih ⟨hnew, h⟩ hls hjoinable
    have hcount : ∀ u, ls.countP (·.disposes u) + (if l.disposes u then 1 else 0) ≤ 1 := by
      intro u
      have hu := hls u
      rwa [countP_append, countP_singleton] at hu
    obtain ⟨i, hstep, hother⟩ := h.exists_pc hnew
    have hjoinable := hjoinable.of_step hstep
    obtain ⟨holder, hm, hexits, hfrees⟩ := ih (fun u => (Nat.le_add_right _ _).trans (hcount u)) hjoinable
    obtain ⟨holder', hholder⟩ := hstep.exists_holderStep (hm.ok i) (hm.holds i) hm.free
      fun t ht => (hm.absent t ht).2.2.1
    refine ⟨holder', hm.pc_step hstep hother hholder, hexits.step hm hstep hother,
      hfrees.step hm hexits hstep hother hjoinable (fun u hu l' hl' => ?_) hholder⟩
    have hzero : ls.countP (·.disposes u) = 0 := by
      have := hcount u
      simp only [hu, if_true] at this
      omega
    simpa using countP_eq_zero.mp hzero l' hl'
  obtain ⟨holder, hm, hexits, hfrees⟩ := hinv
  refine ⟨fun t => ?_, fun j t rc r hr => ?_, fun i t ht => ?_⟩
  · rcases hfrees.count t with ⟨hfreed, h⟩ | ⟨-, h⟩
    · exact ⟨h.le, fun _ => (hexits.processed t (hfrees.freed t hfreed).1).1⟩
    · exact ⟨by omega, fun hfree => absurd (count_pos_iff.mpr hfree) (by omega)⟩
  · obtain ⟨hrc, hfreed⟩ := hfrees.joined j t rc r hr
    rcases hfrees.count t with ⟨-, h⟩ | ⟨h, -⟩
    · exact ⟨hrc, count_pos_iff.mp (by omega)⟩
    · exact absurd hfreed h
  · rcases Pc.accesses_cases ht with h | ⟨j, hj, hu⟩ | h | h
    · exact hfrees.not_freed_of_owner h
    · exact hfrees.kept j t (agent_of_pc hj hu)
    · exact absurd h (hfrees.kind i t)
    · exact hfrees.looked i t h

instance [Fintype τ] (m : Machine ι τ) : Decidable m.Joinable :=
  inferInstanceAs (Decidable (∀ t, m.shared.status t ≠ .absent → (m.shared.mem t).detach = false))

/-- The join of two lthreads frees the one that has exited. -/
theorem lthread_freed_once_twoLthreads : ∃ ls m, Run (Guarded Machine.Step Machine.Fresh) (atStart 1 2) ls m ∧
    .joinRet 0 1 0 (some (.val 7)) ∈ ls ∧ .free 1 ∈ ls ∧ ls.count (.free 1) ≤ 1 := by
  have hexec : (Machine.execIf (fun m l => decide (m.Fresh l)) (joinSchedule ++ go 0 1) (atStart 1 2)).map
      (fun x => decide ((∀ u, x.1.countP (·.disposes u) ≤ 1) ∧ x.2.Joinable ∧
        .joinRet 0 1 0 (some (.val 7)) ∈ x.1)) = some true := by decide +kernel
  obtain ⟨⟨ls, m⟩, hexec, hm⟩ := Option.map_eq_some_iff.mp hexec
  obtain ⟨hls, hjoinable, hjoin⟩ := of_decide_eq_true hm
  have hrun := Machine.freshRun_of_execIf hexec
  obtain ⟨hcount, hjoined, -⟩ := lthread_freed_once (init_atStart 1 2) hrun hls hjoinable
  exact ⟨ls, m, hrun, hjoin, (hjoined 0 1 _ _ hjoin).2, (hcount 1).1⟩

/-- On one scheduler, an lthread detaches itself and exits. -/
def detachSchedule : List (Fin 1 × Act (Fin 2)) :=
  [go 0 3, [(0, .detach 0)], go 0 1, [(0, .exit (.val 0))], go 0 9].flatten

/-- On two schedulers, one lthread joins the other before its scheduler has looked at all its flags. -/
def lateSchedule : List (Fin 2 × Act (Fin 2)) :=
  [go 0 3, go 1 3, [(1, .exit (.val 7))], go 1 7, [(0, .join 1)], go 0 5].flatten

/-- A structure is read behind its free: a detached lthread by the scheduler that has freed it, and one that was joined
by the scheduler that has dealt with its exit. -/
theorem lthread_used_after_free :
    (∃ ls m, Run (Guarded Machine.Step Machine.Fresh) (atStart 1 2) ls m ∧ (∀ u, ls.countP (·.disposes u) ≤ 1) ∧
      0 ∈ (m.pc 0).accesses ∧ m.shared.status 0 = .freed) ∧
    ∃ ls m, Run (Guarded Machine.Step Machine.Fresh) (atStart 2 2) ls m ∧ (∀ u, ls.countP (·.disposes u) ≤ 1) ∧
      m.Joinable ∧ 1 ∈ (m.pc 1).accesses ∧ m.shared.status 1 = .freed := by
  have hdetach : (Machine.execIf (fun m l => decide (m.Fresh l)) detachSchedule (atStart 1 2)).map
      (fun x => decide ((∀ u, x.1.countP (·.disposes u) ≤ 1) ∧ 0 ∈ (x.2.pc 0).accesses ∧
        x.2.shared.status 0 = .freed)) = some true := by
    decide +kernel
  have hlate : (Machine.execIf (fun m l => decide (m.Fresh l)) lateSchedule (atStart 2 2)).map
      (fun x => decide ((∀ u, x.1.countP (·.disposes u) ≤ 1) ∧ x.2.Joinable ∧
        1 ∈ (x.2.pc 1).accesses ∧ x.2.shared.status 1 = .freed)) = some true := by
    decide +kernel
  constructor
  · obtain ⟨⟨ls, m⟩, hexec, hm⟩ := Option.map_eq_some_iff.mp hdetach
    exact ⟨ls, m, Machine.freshRun_of_execIf hexec, of_decide_eq_true hm⟩
  · obtain ⟨⟨ls, m⟩, hexec, hm⟩ := Option.map_eq_some_iff.mp hlate
    exact ⟨ls, m, Machine.freshRun_of_execIf hexec, of_decide_eq_true hm⟩

end SgxLkl.Lthreads
