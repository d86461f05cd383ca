import SgxLkl.Sched.JoinInv

/-!
# Joins

* **`lthreadJoin_correct`**: what a join returns, that a second joiner is refused, and that no joiner sleeps behind
  an exit.
-/

namespace SgxLkl.Lthreads

open List

variable {ι τ : Type*} [DecidableEq τ]

/-! ## Program points of a call -/

namespace Pc

/-- The lthread is inside of a join and has not slept. -/
def calling : Pc τ → Option τ
  | .joinDetach lt _ | .joinLock lt _ | .joinExited lt _ | .joinCas lt _ | .joinUnlock lt _ | .joinYield lt _
  | .switched lt (.join _) | .exited lt (.join _) | .callback lt (.join _) | .unlock lt _ => some lt
  | _ => none

/-- The lthread is inside of a join, and the other one has exited. -/
def back : Pc τ → Option τ
  | .joinRelock lt _ | .joinArg lt _ | .joinFree lt _ _ | .joinRet lt _ _ => some lt
  | _ => none

omit [DecidableEq τ] in
theorem owner_of_calling {pc : Pc τ} {j : τ} (h : pc.calling = some j) : pc.owner = some j := by
  unfold calling at h
  split at h <;> cases h <;> rfl

omit [DecidableEq τ] in
theorem owner_of_back {pc : Pc τ} {j : τ} (h : pc.back = some j) : pc.owner = some j := by
  unfold back at h
  split at h <;> cases h <;> rfl

namespace Step

variable {i : ι} {s s' : Shared ι τ} {pc pc' : Pc τ} {l : Label τ} {t u j : τ} {v : Arg τ}

section

variable (h : Pc.Step i s pc l pc' s')

include h

theorem owner_cases (ht : pc'.owner = some t) : pc.owner = some t ∨ t ∈ s.schedulerQueue := by
  cases h
  case stay | wake => exact .inl ht
  case lock hpc => exact .inl ((owner_of_locking hpc).1 ▸ ht)
  case dequeue hq =>
    cases ht
    exact .inr (by rw [hq]; exact mem_cons_self)
  all_goals first
    | exact .inl ht
    | cases ht

theorem joining_some_cases (hu : s'.joining t = some u) : s.joining t = some u ∨ pc = .joinYield t u := by
  cases h
  case clearJoin lt v _ =>
    by_cases ht : t = lt
    · subst ht
      simp [Shared.setJoining] at hu
    · exact .inl (by simpa [Shared.setJoining, ht] using hu)
  case joinYield lt v =>
    by_cases ht : t = lt
    · subst ht
      exact .inr (by simpa [Shared.setJoining, eq_comm] using hu)
    · exact .inl (by simpa [Shared.setJoining, ht] using hu)
  case new v _ _ _ =>
    by_cases ht : t = v
    · simp [ht] at hu
    · exact .inl (by simpa [ht] using hu)
  all_goals exact .inl hu

theorem calling_cases (hok : pc.Ok s) (hj : pc'.calling = some j) :
    pc.calling = some j ∨ ∃ u, l = .joinCall j u := by
  cases h
  case stay | wake => exact .inl hj
  case lock hpc =>
    unfold locking at hpc
    split at hpc <;> cases hpc <;> exact .inl hj
  case joinCall =>
    cases hj
    exact .inr ⟨_, rfl⟩
  case switched y _ | notExited y _ => cases y <;> exact .inl hj
  case callUnlock y hcb _ =>
    cases y with
    | exit => exact hok.elim
    | sleep => simp [Pc.Ok, hcb] at hok
    | join => exact .inl hj
  all_goals first
    | exact .inl hj
    | cases hj

theorem back_cases (hj : pc'.back = some j) :
    pc.back = some j ∨ pc.calling = some j ∨ ∃ u, pc.owner = some j ∧ s.joining j = some u := by
  cases h
  case stay | wake => exact .inl hj
  case lock hpc =>
    unfold locking at hpc
    split at hpc <;> cases hpc <;> exact .inl hj
  case clearJoin u hu =>
    cases hj
    exact .inr (.inr ⟨u, rfl, hu⟩)
  case joinExited => exact .inr (.inl hj)
  all_goals first
    | exact .inl hj
    | cases hj

theorem exitCall_cases (hpc : pc' = .exitLock t v ∨ pc' = .exitArg t v) :
    (pc = .exitLock t v ∨ pc = .exitArg t v) ∨ l = .exitCall t v := by
  cases h
  case stay | wake => exact .inl hpc
  case exit => exact .inr (by simpa using hpc)
  case lock hlock =>
    unfold locking at hlock
    split at hlock <;> cases hlock <;> simp at hpc
    exact .inl (.inl (by rw [hpc.1, hpc.2]))
  all_goals simp at hpc

theorem exitFlag_cases (hpc : pc' = .exitFlag t) :
    pc = .exitFlag t ∨ ∃ v, pc = .exitArg t v ∧ (s'.mem t).yieldCbarg = v := by
  cases h
  case stay | wake => exact .inl hpc
  case exitArg v =>
    cases hpc
    exact .inr ⟨v, rfl, by rw [mem_modify_self]⟩
  case lock hlock =>
    subst hpc
    unfold locking at hlock
    split at hlock <;> cases hlock
  all_goals cases hpc

theorem yieldCbarg_of_exitFlag (hpc : pc = .exitFlag t) : (s'.mem t).yieldCbarg = (s.mem t).yieldCbarg := by
  cases h
  case stay | wake => rfl
  case exitFlag => simp
  case lock hlock =>
    subst hpc
    cases hlock
  all_goals cases hpc

theorem exit_forward (hpc : pc = .exitLock t v ∨ pc = .exitArg t v ∨ pc = .exitFlag t ∧ (s.mem t).yieldCbarg = v) :
    (pc' = .exitLock t v ∨ pc' = .exitArg t v ∨ pc' = .exitFlag t ∧ (s'.mem t).yieldCbarg = v) ∨
      (s'.mem t).exited = true ∧ (s'.mem t).yieldCbarg = v := by
  cases h
  case stay | wake => exact .inl hpc
  case exitArg =>
    obtain ⟨rfl, rfl⟩ : _ = t ∧ _ = v := by simpa using hpc
    exact .inl (.inr (.inr ⟨rfl, by rw [mem_modify_self]⟩))
  case exitFlag =>
    obtain ⟨rfl, harg⟩ : _ = t ∧ _ := by simpa using hpc
    exact .inr ⟨by rw [mem_modify_self], by rw [mem_modify_self]; exact harg⟩
  case lock hlock =>
    unfold locking at hlock
    split at hlock <;> cases hlock <;> simp at hpc
    exact .inl (.inr (.inl (by rw [hpc.1, hpc.2])))
  all_goals simp at hpc

end

theorem joinRet_cases {rc : CInt} {r : Option (Arg τ)} (h : Pc.Step i s pc (.joinRet j u rc r) pc' s') :
    (pc = .joinDetach j u ∧ (s.mem u).detach = true ∨ pc = .joinUnlock j u) ∧ rc = eInval ∧ r = none ∨
      ∃ v, pc = .joinRet j u v ∧ rc = 0 ∧ r = some v := by
  cases h with
  | joinDetached hdetach => exact .inl ⟨.inl ⟨rfl, hdetach⟩, rfl, rfl⟩
  | joinUnlock => exact .inl ⟨.inr rfl, rfl, rfl⟩
  | joinRet => exact .inr ⟨_, rfl, rfl, rfl⟩

theorem exitCall_eq (h : Pc.Step i s pc (.exitCall t v) pc' s') : pc' = .exitLock t v := by
  cases h
  rfl

theorem processed_cases (h : Pc.Step i s pc (.processed u) pc' s') :
    pc = .exitUnlock u ∧ pc' = .exitDetach u ∧ s' = s.unlock u := by
  cases h
  exact ⟨rfl, rfl, rfl⟩

end Step

end Pc

/-! ## Exits -/

/-- What the labels so far say of exits. -/
structure Exits (ls : List (Label τ)) (m : Machine ι τ) : Prop where
  processed : ∀ u, .processed u ∈ ls → (m.shared.mem u).exited = true ∧ (m.shared.mem u).ltJoin = none
  called : ∀ i t v, m.pc i = .exitLock t v ∨ m.pc i = .exitArg t v → .exitCall t v ∈ ls
  stored : ∀ i t, m.pc i = .exitFlag t → .exitCall t (m.shared.mem t).yieldCbarg ∈ ls
  exited : ∀ t, (m.shared.mem t).exited = true → .exitCall t (m.shared.mem t).yieldCbarg ∈ ls
  once : ∀ t v, .exitCall t v ∈ ls → (∃ i, m.pc i = .exitLock t v ∨ m.pc i = .exitArg t v ∨
    m.pc i = .exitFlag t ∧ (m.shared.mem t).yieldCbarg = v) ∨
    (m.shared.mem t).exited = true ∧ (m.shared.mem t).yieldCbarg = v

omit [DecidableEq τ] in
theorem Machine.Init.exits {m : Machine ι τ} (h : m.Init) : Exits [] m where
  processed := by simp
  called := fun i t v => by simp [h.loop i]
  stored := fun i t => by simp [h.loop i]
  exited := fun t => by
    obtain ⟨isNew, isDetached, hmem⟩ := h.mem t
    simp [hmem]
  once := by simp

section

variable {m m' : Machine ι τ} {holder : τ → Option (Holder τ)} {i : ι} {l : Label τ} {ls : List (Label τ)}

theorem Inv.yieldCbarg_eq_of_owner (hm : Inv m holder) (hstep : Pc.Step i m.shared (m.pc i) l (m'.pc i) m'.shared)
    {k : ι} {t : τ} (ht : (m.pc k).owner = some t) (hk : k ≠ i) :
    (m'.shared.mem t).yieldCbarg = (m.shared.mem t).yieldCbarg := by
  rcases hstep.callback_cases t with ⟨-, harg⟩ | ⟨h, -⟩ | ⟨-, h⟩
  · exact harg
  · exact absurd (hm.eq_of_owner ht h) hk
  · cases hm.excl t (.on k) .absent ht h

theorem Exits.step (h : Exits ls m) (hm : Inv m holder)
    (hstep : Pc.Step i m.shared (m.pc i) l (m'.pc i) m'.shared) (hother : ∀ k, k ≠ i → m'.pc k = m.pc k) :
    Exits (ls ++ [l]) m' where
  processed := by
    intro u hu
    rcases mem_append.mp hu with hu | hu
    · obtain ⟨hexited, hnone⟩ := h.processed u hu
      refine ⟨(hm.exited_mono hstep hexited).1, ?_⟩
      rcases hstep.ltJoin_cases u with heq | ⟨lt, hpc, -⟩ | ⟨-, heq⟩ | ⟨-, -, heq⟩
      · rw [heq, hnone]
      · have hok := hm.ok i
        rw [hpc] at hok
        simp [hok.2] at hexited
      · exact heq
      · exact heq
    · rw [← mem_singleton.mp hu] at hstep
      obtain ⟨hpc, -, hs⟩ := hstep.processed_cases
      have hok := hm.ok i
      rw [hpc] at hok
      rw [hs]
      exact ⟨by simpa [Shared.unlock] using hok.1, by simpa [Shared.unlock] using hok.2⟩
  called := by
    intro k t v hpc
    by_cases hk : k = i
    · subst hk
      rcases hstep.exitCall_cases hpc with h' | h'
      · exact mem_append_left _ (h.called k t v h')
      · exact mem_append_right _ (mem_singleton.mpr h'.symm)
    · exact mem_append_left _ (h.called k t v (hother k hk ▸ hpc))
  stored := by
    intro k t hpc
    refine mem_append_left _ ?_
    by_cases hk : k = i
    · subst hk
      rcases hstep.exitFlag_cases hpc with h' | ⟨v, h', harg⟩
      · rw [hstep.yieldCbarg_of_exitFlag h']
        exact h.stored k t h'
      · rw [harg]
        exact h.called k t v (.inr h')
    · rw [hother k hk] at hpc
      rw [hm.yieldCbarg_eq_of_owner hstep (t := t) (by rw [hpc]; rfl) hk]
      exact h.stored k t hpc
  exited := by
    intro t ht
    refine mem_append_left _ ?_
    rcases hstep.exited_cases t with heq | ⟨hpc, -⟩ | ⟨-, -, heq⟩
    · rw [heq] at ht
      rw [(hm.exited_mono hstep ht).2]
      exact h.exited t ht
    · rw [hstep.yieldCbarg_of_exitFlag hpc]
      exact h.stored i t hpc
    · simp [ht] at heq
  once := by
    intro t v hv
    rcases mem_append.mp hv with hv | hv
    · rcases h.once t v hv with ⟨k, hk⟩ | ⟨hexited, harg⟩
      · by_cases hki : k = i
        · subst hki
          exact (hstep.exit_forward hk).imp_left fun h => ⟨k, h⟩
        · refine .inl ⟨k, ?_⟩
          rw [hother k hki]
          refine hk.imp_right (.imp_right fun h => ⟨h.1, ?_⟩)
          obtain ⟨hpc, harg⟩ := h
          rw [hm.yieldCbarg_eq_of_owner hstep (t := t) (by rw [hpc]; rfl) hki, harg]
      · obtain ⟨hexited', harg'⟩ := hm.exited_mono hstep hexited
        exact .inr ⟨hexited', harg'.trans harg⟩
    · rw [← mem_singleton.mp hv] at hstep
      exact .inl ⟨i, .inl hstep.exitCall_eq⟩

/-! ## Wakeups -/

/-- The number of wakeups of `j` behind a step. -/
def Label.wakeups (j : τ) (n : ℕ) : Label τ → ℕ
  | .joinCall k _ => if k = j then 0 else n
  | .enqueue k => if k = j then n + 1 else n
  | _ => n

/-- How often `j` has been put on the run queue since it last called `lthread_join`. -/
def sinceJoin (j : τ) (ls : List (Label τ)) : ℕ := ls.foldl (Label.wakeups j) 0

theorem sinceJoin_append (j : τ) (ls : List (Label τ)) (l : Label τ) :
    sinceJoin j (ls ++ [l]) = l.wakeups j (sinceJoin j ls) := by
  simp [sinceJoin]

theorem sinceJoin_append_le {j : τ} (h : l ≠ .enqueue j) : sinceJoin j (ls ++ [l]) ≤ sinceJoin j ls := by
  rw [sinceJoin_append]
  unfold Label.wakeups
  split
  · split_ifs <;> simp
  · rename_i k
    have hk : k ≠ j := fun hk => h (by rw [hk])
    simp [hk]
  · exact le_rfl

/-- How often an lthread that is inside of a join has been put on the run queue. -/
structure Wakes (ls : List (Label τ)) (m : Machine ι τ) : Prop where
  calling : ∀ i j, (m.pc i).calling = some j → sinceJoin j ls = 0
  asleep : ∀ j u, m.shared.asleep j = true → m.shared.joining j = some u → sinceJoin j ls = 0
  ready : ∀ j u, j ∈ m.shared.schedulerQueue → m.shared.joining j = some u → sinceJoin j ls ≤ 1
  resumed : ∀ i j u, (m.pc i).owner = some j → m.shared.joining j = some u → sinceJoin j ls ≤ 1
  back : ∀ i j, (m.pc i).back = some j → sinceJoin j ls ≤ 1

theorem Machine.Init.wakes (h : m.Init) : Wakes [] m where
  calling := fun i j => by simp [h.loop i, Pc.calling]
  asleep := fun j u => by simp [h.asleep j]
  ready := fun j u _ => by simp [h.joining j]
  resumed := fun i j u => by simp [h.loop i, Pc.owner]
  back := fun i j => by simp [h.loop i, Pc.back]

namespace Wakes

variable (h : Wakes ls m) (hm : Inv m holder) (hstep : Pc.Step i m.shared (m.pc i) l (m'.pc i) m'.shared)
  (hother : ∀ k, k ≠ i → m'.pc k = m.pc k)

include h hm hstep hother

theorem step_of_enqueue {t : τ} (hl : l = .enqueue t) : (∀ k, (m'.pc k).owner ≠ some t) ∧
    m'.shared.asleep t = false ∧ ∀ u, m'.shared.joining t = some u → sinceJoin t (ls ++ [l]) ≤ 1 := by
  obtain ⟨hs, hold, -⟩ := hm.enqueued hstep hl
  have hready : m'.Occ t .ready := by
    rw [Machine.Occ, hs]
    exact mem_append_right _ (mem_singleton.mpr rfl)
  refine ⟨fun k hk => ?_, ?_, fun u hu => ?_⟩
  · cases hm.excl_step hstep hother t .ready (.on k) hready hk
  · rw [hs]
    simp [Shared.enqueue]
  · rw [hs] at hu
    rcases hold with hborn | hasleep
    · cases (hm.newborn i t hborn).symm.trans hu
    · simp [hl, sinceJoin_append, Label.wakeups, h.asleep t u hasleep hu]

theorem step : Wakes (ls ++ [l]) m' := by
  have hzero : ∀ {j : τ}, l ≠ .enqueue j → sinceJoin j ls = 0 → sinceJoin j (ls ++ [l]) = 0 :=
    fun hl hj => Nat.le_zero.mp (hj ▸ sinceJoin_append_le hl)
  have hone : ∀ {j : τ}, l ≠ .enqueue j → sinceJoin j ls ≤ 1 → sinceJoin j (ls ++ [l]) ≤ 1 :=
    fun hl hj => (sinceJoin_append_le hl).trans hj
  have henqueue : ∀ {t : τ}, l = .enqueue t → _ := fun hl => h.step_of_enqueue hm hstep hother hl
  constructor
  case calling =>
    intro k j hj
    have hl : l ≠ .enqueue j := fun hl => (henqueue hl).1 k (Pc.owner_of_calling hj)
    by_cases hk : k = i
    · subst hk
      rcases hstep.calling_cases (hm.ok k) hj with h' | ⟨u, rfl⟩
      · exact hzero hl (h.calling k j h')
      · simp [sinceJoin_append, Label.wakeups]
    · exact hzero hl (h.calling k j (hother k hk ▸ hj))
  case asleep =>
    intro j u hasleep hu
    have hl : l ≠ .enqueue j := fun hl => by simp [(henqueue hl).2.1] at hasleep
    refine hzero hl ?_
    rcases hstep.asleep_cases hasleep with ⟨h', -⟩ | ⟨y, hpc, hcb, -, hs⟩ | ⟨v, hpc, -, -⟩
    · rw [hm.joining_eq hstep (x := .asleep) h' (by simp)] at hu
      exact h.asleep j u h' hu
    · have hok := hm.ok i
      rw [hs] at hu
      rw [hpc] at hok
      cases y with
      | exit => exact hok.elim
      | sleep => cases hok.1.2.symm.trans hu
      | join => exact h.calling i j (by rw [hpc]; rfl)
    · exact h.calling i j (by rw [hpc]; rfl)
  case ready =>
    intro j u hj hu
    by_cases hl : l = .enqueue j
    · exact (henqueue hl).2.2 u hu
    · have hj' := (hstep.mem_queue_cases hj).resolve_right hl
      rw [hm.joining_eq hstep (x := .ready) hj' (by simp)] at hu
      exact hone hl (h.ready j u hj' hu)
  case resumed =>
    intro k j u hj hu
    have hl : l ≠ .enqueue j := fun hl => (henqueue hl).1 k hj
    refine hone hl ?_
    rcases hstep.joining_some_cases hu with hu | hpc
    · by_cases hk : k = i
      · subst hk
        rcases hstep.owner_cases hj with h' | h'
        · exact h.resumed k j u h' hu
        · exact h.ready j u h' hu
      · exact h.resumed k j u (hother k hk ▸ hj) hu
    · rw [h.calling i j (by rw [hpc]; rfl)]
      exact zero_le_one
  case back =>
    intro k j hj
    have hl : l ≠ .enqueue j := fun hl => (henqueue hl).1 k (Pc.owner_of_back hj)
    refine hone hl ?_
    by_cases hk : k = i
    · subst hk
      rcases hstep.back_cases hj with h' | h' | ⟨u, h', hu⟩
      · exact h.back k j h'
      · rw [h.calling k j h']
        exact zero_le_one
      · exact h.resumed k j u h' hu
    · exact h.back k j (hother k hk ▸ hj)

end Wakes

/-! ## A second joiner -/

/-- `j` is the joiner of `u`, which runs, and sleeps. -/
def Waiting (m : Machine ι τ) (u j : τ) : Prop :=
  (m.shared.mem u).ltJoin = some j ∧ (m.shared.mem u).exited = false ∧ m.shared.asleep j = true ∧
    m.shared.joining j = some u

/-- Another join has the lock of `u`. -/
def Refused (m : Machine ι τ) (i : ι) (j u j₁ : τ) : Prop :=
  (m.pc i = .joinExited j u ∨ m.pc i = .joinCas j u ∨ m.pc i = .joinUnlock j u) ∧ Waiting m u j₁

section

variable {j u j₁ : τ}

omit [DecidableEq τ] in
theorem Inv.refused (hm : Inv m holder) (hpc : m.pc i = .joinExited j u)
    (hj : (m.shared.mem u).ltJoin = some j₁) (hu : (m.shared.mem u).exited = false) : Refused m i j u j₁ := by
  have hheld := hm.holds i u (.caller j) (by rw [hpc]; rfl)
  refine ⟨.inl hpc, hj, hu, ?_⟩
  rcases hm.registered u j₁ hj with ⟨k, hk⟩ | h | h
  · have hself := hm.holds k u .self (by rw [hk]; rfl)
    simp [hheld] at hself
  · exact h
  · simp [hheld] at h

omit [DecidableEq τ] in
theorem Refused.owner (h : Refused m i j u j₁) :
    (m.pc i).holds = some (u, .caller j) ∧ (m.pc i).owner = some j := by
  rcases h.1 with h | h | h <;> rw [h] <;> exact ⟨rfl, rfl⟩

/-- A scheduler that does not have the lock leaves the joiner alone. -/
theorem Waiting.step (h : Waiting m u j₁) (hm : Inv m holder)
    (hstep : Pc.Step i m.shared (m.pc i) l (m'.pc i) m'.shared) (hfree : ∀ x, (m.pc i).holds ≠ some (u, x)) :
    Waiting m' u j₁ := by
  obtain ⟨hj, hu, hasleep, hjoin⟩ := h
  have habsent : m.shared.status u ≠ .absent := fun h => by simp [(hm.absent u h).2.1] at hj
  refine ⟨?_, ?_, ?_, ?_⟩
  · rcases hstep.ltJoin_cases u with h | ⟨lt, h, -⟩ | ⟨h, -⟩ | ⟨-, h, -⟩
    · rw [h, hj]
    · exact absurd (by rw [h]; rfl) (hfree (.caller lt))
    · exact absurd (by rw [h]; rfl) (hfree .self)
    · exact absurd h habsent
  · rcases hstep.exited_cases u with h | ⟨h, -⟩ | ⟨-, h, -⟩
    · rw [h, hu]
    · exact absurd (by rw [h]; rfl) (hfree .self)
    · exact absurd h habsent
  · refine (hstep.asleep_of_asleep hasleep).resolve_right fun hl => ?_
    subst hl
    obtain ⟨-, ⟨lt, h, -⟩ | ⟨lt, h, -⟩ | ⟨-, -, h⟩⟩ := hstep.enqueue_cases
    · cases hm.excl j₁ .asleep (.born i) hasleep (by rw [Machine.Occ, h]; rfl)
    · cases (hm.asleep_of_exitEnqueue h).2.symm.trans hjoin
      exact hfree .self (by rw [h]; rfl)
    · cases h.symm.trans hjoin
  · rw [hm.joining_eq hstep (x := .asleep) hasleep (by simp), hjoin]

theorem Pc.Step.refused {s s' : Shared ι τ} {pc pc' : Pc τ} (h : Pc.Step i s pc l pc' s')
    (hpc : pc = .joinExited j u ∨ pc = .joinCas j u ∨ pc = .joinUnlock j u) (hj : (s.mem u).ltJoin = some j₁)
    (hu : (s.mem u).exited = false) :
    (pc' = .joinExited j u ∨ pc' = .joinCas j u ∨ pc' = .joinUnlock j u) ∧ s' = s ∧ l = .tau ∨
      s' = s.unlock u ∧ l = .joinRet j u eInval none := by
  cases h
  case stay => exact .inl ⟨hpc, rfl, rfl⟩
  case joinExited hexited =>
    obtain ⟨rfl, rfl⟩ : _ = j ∧ _ = u := by simpa using hpc
    simp [hu] at hexited
  case joinRunning =>
    obtain ⟨rfl, rfl⟩ : _ = j ∧ _ = u := by simpa using hpc
    exact .inl ⟨.inr (.inl rfl), rfl, rfl⟩
  case joinCas hnone =>
    obtain ⟨rfl, rfl⟩ : _ = j ∧ _ = u := by simpa using hpc
    simp [hj] at hnone
  case joinRefused =>
    obtain ⟨rfl, rfl⟩ : _ = j ∧ _ = u := by simpa using hpc
    exact .inl ⟨.inr (.inr rfl), rfl, rfl⟩
  case joinUnlock =>
    obtain ⟨rfl, rfl⟩ : _ = j ∧ _ = u := by simpa using hpc
    exact .inr ⟨rfl, rfl⟩
  case lock hlock =>
    unfold locking at hlock
    split at hlock <;> cases hlock <;> simp at hpc
  case wake hloop => rcases hloop with rfl | ⟨lt, rfl⟩ <;> simp at hpc
  all_goals simp at hpc

theorem Waiting.unlock (h : Waiting m u j₁) (hs : m'.shared = m.shared.unlock u) : Waiting m' u j₁ := by
  obtain ⟨hj, hu, hasleep, hjoin⟩ := h
  unfold Waiting
  rw [hs]
  exact ⟨by simp [Shared.unlock, hj], by simp [Shared.unlock, hu], hasleep, hjoin⟩

/-- The second joiner goes on, or is refused; the first one is not disturbed. -/
theorem Refused.step [DecidableEq ι] (h : Refused m i j u j₁) (hm : Inv m holder) (hstep : m.Step l m')
    (hfresh : m.Fresh l) :
    Refused m' i j u j₁ ∧ (∀ rc r, l ≠ .joinRet j u rc r) ∨ l = .joinRet j u eInval none ∧ Waiting m' u j₁ := by
  obtain ⟨hholds, howner⟩ := h.owner
  obtain ⟨k, hstep, hother⟩ := hstep.exists_pc hfresh
  by_cases hk : i = k
  · subst hk
    rcases hstep.refused h.1 h.2.1 h.2.2.1 with ⟨hpc, hs, hl⟩ | ⟨hs, hl⟩
    · refine .inl ⟨⟨hpc, ?_⟩, by simp [hl]⟩
      unfold Waiting
      rw [hs]
      exact h.2
    · exact .inr ⟨hl, h.2.unlock hs⟩
  · refine .inl ⟨⟨?_, h.2.step hm hstep fun x hx => hk (hm.eq_of_holds hholds hx)⟩, ?_⟩
    · rw [hother i hk]
      exact h.1
    · rintro rc r rfl
      refine hk (hm.eq_of_owner howner ?_)
      rcases hstep.joinRet_cases with ⟨⟨hpc, -⟩ | hpc, -⟩ | ⟨v, hpc, -⟩ <;> rw [hpc] <;> rfl

theorem Refused.returns [DecidableEq ι] (h : Refused m i j u j₁) :
    ∃ n ≤ 3, ∃ ls m', Machine.exec (List.replicate n (i, .go)) m = some (ls, m') ∧
      .joinRet j u eInval none ∈ ls := by
  obtain ⟨hpc, hj, hu, -⟩ := h
  have hunlock : ∀ {m : Machine ι τ}, m.pc i = .joinUnlock j u →
      ∃ ls m', Machine.exec [(i, .go)] m = some (ls, m') ∧ .joinRet j u eInval none ∈ ls := fun hpc =>
    ⟨_, _, by simp [Machine.exec, execute, Machine.step, Pc.step, Pc.code, hpc]; exact ⟨rfl, rfl⟩, by simp⟩
  have hcas : ∀ {m : Machine ι τ}, m.pc i = .joinCas j u → (m.shared.mem u).ltJoin = some j₁ →
      ∃ ls m', Machine.exec [(i, .go), (i, .go)] m = some (ls, m') ∧ .joinRet j u eInval none ∈ ls := by
    intro m hpc hj
    obtain ⟨ls, m', hexec, hmem⟩ := hunlock (m := ⟨Function.update m.pc i (.joinUnlock j u), m.shared⟩) (by simp)
    exact ⟨.tau :: ls, m', execute_cons (by simp [Machine.step, Pc.step, Pc.code, hpc, hj]) hexec,
      mem_cons_of_mem _ hmem⟩
  rcases hpc with hpc | hpc | hpc
  · obtain ⟨ls, m', hexec, hmem⟩ := hcas (m := ⟨Function.update m.pc i (.joinCas j u), m.shared⟩) (by simp) hj
    exact ⟨3, le_rfl, .tau :: ls, m', execute_cons (by simp [Machine.step, Pc.step, Pc.code, hpc, hu]) hexec,
      mem_cons_of_mem _ hmem⟩
  · exact ⟨2, by norm_num, hcas hpc hj⟩
  · exact ⟨1, by norm_num, hunlock hpc⟩

end

end

/-! ## Joins are correct -/

section

variable [DecidableEq ι] {m₀ m : Machine ι τ} {ls : List (Label τ)}

theorem Machine.Init.reach (h₀ : m₀.Init) (hrun : Run (Guarded Machine.Step Machine.Fresh) m₀ ls m) :
    ∃ holder, Inv m holder ∧ Exits ls m ∧ Wakes ls m := by
  refine hrun.history (I := fun ls m => ∃ holder, Inv m holder ∧ Exits ls m ∧ Wakes ls m)
    (fun ls m l m' ⟨holder, hm, hexits, hwakes⟩ ⟨hfresh, h⟩ => ?_) ⟨_, h₀.inv, h₀.exits, h₀.wakes⟩
  obtain ⟨i, hstep, hother⟩ := h.exists_pc hfresh
  obtain ⟨holder', hm'⟩ := Machine.Good.step ⟨holder, hm⟩ h hfresh
  exact ⟨holder', hm', hexits.step hm hstep hother, hwakes.step hm hstep hother⟩

end

/-- `k` schedulers and `n` lthreads. -/
def atStart (k n : ℕ) : Machine (Fin k) (Fin n) where
  pc _ := .loop
  shared :=
    { mem := fun _ => { new := false, detach := false }
      status := fun _ => .live
      schedulerQueue := finRange n
      asleep := fun _ => false
      joining := fun _ => none
      terminating := none }

theorem init_atStart (k n : ℕ) : (atStart k n).Init where
  loop := fun _ => rfl
  mem := fun _ => ⟨_, _, rfl⟩
  queue := fun t => iff_of_true (mem_finRange t) rfl
  nodup := nodup_finRange n
  freed := fun _ => nofun
  asleep := fun _ => rfl
  joining := fun _ => rfl
  terminating := rfl

/-- Steps of one scheduler. -/
def go {k n : ℕ} (i : Fin k) (steps : ℕ) : List (Fin k × Act (Fin n)) := replicate steps (i, .go)

/-- The first joins the second, which exits with `7`: up to the return. -/
def joinSchedule : List (Fin 1 × Act (Fin 2)) :=
  [go 0 3, [(0, .join 1)], go 0 14, [(0, .exit (.val 7))], go 0 18].flatten

/-- Both `a` and `b` join `u`, and the second has not taken the lock yet when the first has freed `u`. -/
def reuseSchedule (a b u : Fin 3) : List (Fin 3 × Act (Fin 3)) :=
  [go a 3, go b 3, go u 3, [(b, .join u)], go b 1, [(u, .exit (.val 7))], go u 7, [(a, .join u)], go a 6,
    [(a, .create u false false)], go a 1, go u 6, [(u, .exit (.val 9))], go u 7, go b 5].flatten

end SgxLkl.Lthreads
