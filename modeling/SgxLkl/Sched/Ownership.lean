import SgxLkl.Sched.Lthread

/-!
# Who owns an lthread, and who holds its lock

* `Machine.Occ`: the places of an lthread; **`Pc.Step.seen`**: what a step moves.
-/

namespace SgxLkl.Lthreads

open List

variable {ι τ : Type*}

/-! ## Rights -/

/-- For whom a lock was taken: for the lthread itself, which starts or exits, for a caller of `lthread_join`, or for a
joiner that is registered. -/
inductive Holder (τ : Type*)
  | self
  | caller (j : τ)
  | joiner (j : τ)

/-- The lthread that acts, if the lock of `u` is held. -/
def Holder.actor (u : τ) : Holder τ → τ
  | .self => u
  | .caller j => j
  | .joiner j => j

namespace Pc

/-- The lthread that a scheduler has taken from the run queue and not let go. -/
def owner : Pc τ → Option τ
  | .resume lt | .initLock lt | .initClear lt | .initUnlock lt | .clear lt | .run lt | .create lt _ | .detach lt _
  | .exitLock lt _ | .exitArg lt _ | .exitFlag lt | .joinDetach lt _ | .joinLock lt _ | .joinExited lt _
  | .joinCas lt _ | .joinUnlock lt _ | .joinYield lt _ | .joinRelock lt _ | .joinArg lt _ | .joinFree lt _ _
  | .joinRet lt _ _ | .switched lt _ | .exited lt _ | .exitJoin lt | .exitEnqueue lt _ | .exitForget lt
  | .exitUnlock lt | .callback lt _ | .unlock lt _ => some lt
  | .loop | .exitDetach _ | .exitFree _ | .terminate _ | .scheduler | .left _ => none

/-- The lthread that was created and is not in the run queue yet. -/
def newborn : Pc τ → Option τ
  | .create _ new => some new
  | _ => none

/-- The lthread that a call of `lthread_join` or `lthread_detach2` is about. -/
def target : Pc τ → Option τ
  | .detach _ u | .joinDetach _ u | .joinLock _ u | .joinExited _ u | .joinCas _ u | .joinUnlock _ u | .joinYield _ u
  | .joinRelock _ u | .joinArg _ u | .joinFree _ u _ | .joinRet _ u _ | .switched _ (.join u) | .exited _ (.join u)
  | .callback _ (.join u) | .unlock _ u => some u
  | _ => none

/-- The lock that is held here, and for whom. -/
def holds : Pc τ → Option (τ × Holder τ)
  | .initClear lt | .initUnlock lt | .exitArg lt _ | .exitFlag lt | .switched lt .exit | .exited lt .exit
  | .callback lt .exit | .exitJoin lt | .exitEnqueue lt _ | .exitForget lt | .exitUnlock lt => some (lt, .self)
  | .joinExited lt u | .joinCas lt u | .joinUnlock lt u | .joinArg lt u | .joinFree lt u _ => some (u, .caller lt)
  | .joinYield lt u | .switched lt (.join u) | .exited lt (.join u) | .callback lt (.join u) | .unlock lt u =>
    some (u, .joiner lt)
  | _ => none

theorem owner_of_holds {pc : Pc τ} {u : τ} {h : Holder τ} (hh : pc.holds = some (u, h)) :
    pc.owner = some (h.actor u) := by
  unfold holds at hh
  split at hh <;> cases hh <;> rfl

theorem owner_of_locking {pc next : Pc τ} {t : τ} (h : pc.locking = some (t, next)) :
    next.owner = pc.owner ∧ next.newborn = pc.newborn := by
  unfold locking at h
  split at h <;> cases h <;> exact ⟨rfl, rfl⟩

theorem holds_of_locking {pc next : Pc τ} {t : τ} (h : pc.locking = some (t, next)) :
    ∃ x, next.holds = some (t, x) := by
  unfold locking at h
  split at h <;> cases h <;> exact ⟨_, rfl⟩

end Pc

/-! ## Places -/

/-- Where an lthread can be. -/
inductive Spot (ι : Type*)
  | absent
  | ready
  | asleep
  | on (i : ι)
  | born (i : ι)

/-- The places of an lthread that a step of scheduler `i` can see. -/
def Seen (i : ι) (s : Shared ι τ) (pc : Pc τ) (t : τ) : Spot ι → Prop
  | .absent => s.status t = .absent
  | .ready => t ∈ s.schedulerQueue
  | .asleep => s.asleep t = true
  | .on k => k = i ∧ pc.owner = some t
  | .born k => k = i ∧ pc.newborn = some t

/-- The lthread is in this place. -/
def Machine.Occ (m : Machine ι τ) (t : τ) : Spot ι → Prop
  | .absent => m.shared.status t = .absent
  | .ready => t ∈ m.shared.schedulerQueue
  | .asleep => m.shared.asleep t = true
  | .on i => (m.pc i).owner = some t
  | .born i => (m.pc i).newborn = some t

/-! ## What a step changes -/

section Fields

variable [DecidableEq τ] (s : Shared ι τ) (t u : τ) (f : Lthread τ → Lthread τ)

theorem field_modify {α : Type*} (g : Lthread τ → α) (hg : ∀ x, g (f x) = g x) :
    g ((s.modify t f).mem u) = g (s.mem u) := by
  unfold Shared.modify
  by_cases hu : u = t
  · subst hu
    simp [hg]
  · simp [hu]

section

variable {f}

@[simp] theorem exited_modify (hf : ∀ x, (f x).exited = x.exited) :
    ((s.modify t f).mem u).exited = (s.mem u).exited := field_modify s t u f _ hf

@[simp] theorem ltJoin_modify (hf : ∀ x, (f x).ltJoin = x.ltJoin) :
    ((s.modify t f).mem u).ltJoin = (s.mem u).ltJoin := field_modify s t u f _ hf

@[simp] theorem yieldCb_modify (hf : ∀ x, (f x).yieldCb = x.yieldCb) :
    ((s.modify t f).mem u).yieldCb = (s.mem u).yieldCb := field_modify s t u f _ hf

@[simp] theorem yieldCbarg_modify (hf : ∀ x, (f x).yieldCbarg = x.yieldCbarg) :
    ((s.modify t f).mem u).yieldCbarg = (s.mem u).yieldCbarg := field_modify s t u f _ hf

end

theorem mem_modify_self : (s.modify t f).mem t = f (s.mem t) := Function.update_self ..

theorem mem_modify_of_ne (h : u ≠ t) : (s.modify t f).mem u = s.mem u := Function.update_of_ne h ..

end Fields

namespace Pc.Step

variable [DecidableEq τ] {i : ι} {s s' : Shared ι τ} {pc pc' : Pc τ} {l : Label τ} {t u : τ}

section

variable (h : Pc.Step i s pc l pc' s')

include h

theorem exited_cases (t : τ) : (s'.mem t).exited = (s.mem t).exited ∨
    (pc = .exitFlag t ∧ pc' = .switched t .exit ∧ (s'.mem t).exited = true) ∨
    (l = .create t ∧ s.status t = .absent ∧ (s'.mem t).exited = false) := by
  cases h
  case exitFlag lt =>
    by_cases ht : t = lt
    · subst ht
      exact .inr (.inl ⟨rfl, rfl, by rw [mem_modify_self]⟩)
    · exact .inl (by rw [mem_modify_of_ne _ _ _ _ ht])
  case new u _ _ habsent =>
    by_cases ht : t = u
    · subst ht
      exact .inr (.inr ⟨rfl, habsent, by simp⟩)
    · exact .inl (by simp [ht])
  all_goals refine .inl ?_
  all_goals first
    | rfl
    | simp [Shared.unlock]

theorem ltJoin_cases (u : τ) : (s'.mem u).ltJoin = (s.mem u).ltJoin ∨
    (∃ lt, pc = .joinCas lt u ∧ pc' = .joinYield lt u ∧ (s.mem u).ltJoin = none ∧ (s'.mem u).ltJoin = some lt) ∨
    (pc = .exitForget u ∧ (s'.mem u).ltJoin = none) ∨
    (l = .create u ∧ s.status u = .absent ∧ (s'.mem u).ltJoin = none) := by
  cases h
  case joinCas lt v hnone =>
    by_cases hu : u = v
    · subst hu
      exact .inr (.inl ⟨lt, rfl, rfl, hnone, by rw [mem_modify_self]⟩)
    · exact .inl (by rw [mem_modify_of_ne _ _ _ _ hu])
  case exitForget lt =>
    by_cases hu : u = lt
    · subst hu
      exact .inr (.inr (.inl ⟨rfl, by rw [mem_modify_self]⟩))
    · exact .inl (by rw [mem_modify_of_ne _ _ _ _ hu])
  case new v _ _ habsent =>
    by_cases hu : u = v
    · subst hu
      exact .inr (.inr (.inr ⟨rfl, habsent, by simp⟩))
    · exact .inl (by simp [hu])
  all_goals refine .inl ?_
  all_goals first
    | rfl
    | simp [Shared.unlock]

theorem callback_cases (t : τ) :
    ((s'.mem t).yieldCb = (s.mem t).yieldCb ∧ (s'.mem t).yieldCbarg = (s.mem t).yieldCbarg) ∨
    (pc.owner = some t ∧ ∀ y, pc ≠ .switched t y ∧ pc ≠ .exited t y ∧ pc ≠ .callback t y) ∨
    (l = .create t ∧ s.status t = .absent) := by
  have hmodify : ∀ {lt : τ} {f : Lthread τ → Lthread τ}, pc.owner = some lt →
      (∀ y, pc ≠ .switched lt y ∧ pc ≠ .exited lt y ∧ pc ≠ .callback lt y) →
      (((s.modify lt f).mem t).yieldCb = (s.mem t).yieldCb ∧
        ((s.modify lt f).mem t).yieldCbarg = (s.mem t).yieldCbarg) ∨
      (pc.owner = some t ∧ ∀ y, pc ≠ .switched t y ∧ pc ≠ .exited t y ∧ pc ≠ .callback t y) := by
    intro lt f howner hpc
    by_cases ht : t = lt
    · subst ht
      exact .inr ⟨howner, hpc⟩
    · rw [mem_modify_of_ne _ _ _ _ ht]
      exact .inl ⟨rfl, rfl⟩
  cases h
  case new v _ _ habsent =>
    by_cases ht : t = v
    · subst ht
      exact .inr (.inr ⟨rfl, habsent⟩)
    · exact .inl (by simp [ht])
  all_goals first
    | exact .inl ⟨rfl, rfl⟩
    | exact (hmodify rfl (by simp)).imp_right .inl
    | simp only [Shared.mem_setJoining]
      exact (hmodify rfl (by simp)).imp_right .inl
    | exact .inl (by simp [Shared.unlock])

theorem joining_cases (t : τ) : s'.joining t = s.joining t ∨ pc.owner = some t ∨
    (s.status t = .absent ∧ s'.joining t = none) := by
  have hupdate : ∀ {lt : τ} {o : Option τ}, pc.owner = some lt →
      Function.update s.joining lt o t = s.joining t ∨ pc.owner = some t := by
    intro lt o howner
    by_cases ht : t = lt
    · exact .inr (ht ▸ howner)
    · exact .inl (Function.update_of_ne ht ..)
  cases h
  case new v _ _ habsent =>
    by_cases ht : t = v
    · subst ht
      exact .inr (.inr ⟨habsent, Function.update_self ..⟩)
    · exact .inl (Function.update_of_ne ht ..)
  all_goals first
    | exact .inl rfl
    | exact (hupdate rfl).imp_right .inl

end

theorem enqueue_cases (h : Pc.Step i s pc (.enqueue t) pc' s') : s' = s.enqueue t ∧
    ((∃ lt, pc = .create lt t ∧ pc' = .run lt) ∨ (∃ lt, pc = .exitEnqueue lt t ∧ pc' = .exitForget lt) ∨
      pc' = pc ∧ s.asleep t = true ∧ s.joining t = none) := by
  cases h with
  | create => exact ⟨rfl, .inl ⟨_, rfl, rfl⟩⟩
  | exitEnqueue => exact ⟨rfl, .inr (.inl ⟨_, rfl, rfl⟩)⟩
  | wake _ h hjoin => exact ⟨rfl, .inr (.inr ⟨rfl, h, hjoin⟩)⟩

variable (h : Pc.Step i s pc l pc' s')

include h

theorem mem_queue_cases (ht : t ∈ s'.schedulerQueue) : t ∈ s.schedulerQueue ∨ l = .enqueue t := by
  cases h
  case dequeue hq => exact .inl (by rw [hq]; exact mem_cons_of_mem _ ht)
  all_goals first
    | exact .inl ht
    | exact (mem_append.mp ht).imp_right fun ht => by rw [mem_singleton.mp ht]

theorem asleep_cases (ht : s'.asleep t = true) : s.asleep t = true ∧ l ≠ .enqueue t ∨
    (∃ y, pc = .callback t y ∧ (s.mem t).yieldCb = some .park ∧ pc' = .terminate t ∧ s' = s.sleep t) ∨
    (∃ u, pc = .unlock t u ∧ pc' = .terminate t ∧ s' = (s.unlock u).sleep t) := by
  have henqueue : ∀ {v : τ}, (s.enqueue v).asleep t = true →
      s.asleep t = true ∧ Label.enqueue v ≠ Label.enqueue t := by
    intro v hv
    by_cases htv : t = v
    · subst htv
      simp [Shared.enqueue] at hv
    · simp only [Shared.enqueue, Function.update_of_ne htv] at hv
      exact ⟨hv, by simpa using Ne.symm htv⟩
  cases h
  case park lt y hcb =>
    by_cases htl : t = lt
    · subst htl
      exact .inr (.inl ⟨y, rfl, hcb, rfl, rfl⟩)
    · simp only [Shared.sleep, Function.update_of_ne htl] at ht
      exact .inl ⟨ht, by simp⟩
  case unlock lt u =>
    by_cases htl : t = lt
    · subst htl
      exact .inr (.inr ⟨u, rfl, rfl, rfl⟩)
    · simp only [Shared.sleep, Shared.asleep_unlock, Function.update_of_ne htl] at ht
      exact .inl ⟨ht, by simp⟩
  all_goals first
    | exact .inl (henqueue ht)
    | exact .inl ⟨ht, by simp⟩

theorem asleep_of_asleep (ht : s.asleep t = true) : s'.asleep t = true ∨ l = .enqueue t := by
  have hupdate : ∀ {v : τ} {b : Bool}, (t = v → b = true ∨ l = .enqueue t) →
      Function.update s.asleep v b t = true ∨ l = .enqueue t := by
    intro v b hv
    by_cases htv : t = v
    · subst htv
      simpa using hv rfl
    · exact .inl (by rw [Function.update_of_ne htv, ht])
  cases h
  all_goals first
    | exact .inl ht
    | exact hupdate fun _ => .inl rfl
    | exact hupdate fun htv => .inr (by rw [htv])

theorem queue_cases : s'.schedulerQueue = s.schedulerQueue ∨ (∃ lt, s.schedulerQueue = lt :: s'.schedulerQueue) ∨
    ∃ t, l = .enqueue t ∧ s'.schedulerQueue = s.schedulerQueue ++ [t] := by
  cases h
  case dequeue hq => exact .inr (.inl ⟨_, hq⟩)
  all_goals first
    | exact .inl rfl
    | exact .inr (.inr ⟨_, rfl, rfl⟩)

theorem newborn_cases (ht : pc'.newborn = some t) : pc.newborn = some t ∨ l = .create t ∧ s.status t = .absent := by
  cases h
  case stay | wake => exact .inl ht
  case lock hpc => exact .inl ((owner_of_locking hpc).2 ▸ ht)
  case new habsent =>
    cases ht
    exact .inr ⟨rfl, habsent⟩
  all_goals cases ht

theorem forget_cases (hpc : pc' = .exitForget u) :
    pc = .exitForget u ∨ ∃ j, pc = .exitEnqueue u j ∧ l = .enqueue j := by
  cases h
  case stay | wake => exact .inl hpc
  case exitEnqueue lt j =>
    cases hpc
    exact .inr ⟨j, rfl, rfl⟩
  case lock hpc' =>
    subst hpc
    unfold locking at hpc'
    split at hpc' <;> cases hpc'
  all_goals cases hpc

theorem forget_of_forget (hpc : pc = .exitForget u) : pc' = .exitForget u ∨ (s'.mem u).ltJoin = none := by
  cases h
  case stay | wake => exact .inl hpc
  case exitForget =>
    cases hpc
    exact .inr (by rw [mem_modify_self])
  case lock hlock =>
    subst hpc
    cases hlock
  all_goals cases hpc

theorem absent_of_absent (ht : s'.status t = .absent) : s.status t = .absent ∧ l ≠ .create t := by
  have hupdate : ∀ {v : τ} {x : Status}, x ≠ .absent → Function.update s.status v x t = .absent →
      s.status t = .absent ∧ t ≠ v := by
    intro v x hx hv
    by_cases htv : t = v
    · subst htv
      rw [Function.update_self] at hv
      exact absurd hv hx
    · rw [Function.update_of_ne htv] at hv
      exact ⟨hv, htv⟩
  cases h
  case new v _ _ _ =>
    obtain ⟨ht, hne⟩ := hupdate (by simp) ht
    exact ⟨ht, by simpa using Ne.symm hne⟩
  all_goals first
    | exact ⟨ht, by simp⟩
    | exact ⟨(hupdate (by simp) ht).1, by simp⟩

theorem busy_cases (t : τ) : (s'.mem t).busy = (s.mem t).busy ∨
    pc.owner = some t ∨ pc.target = some t ∨ l = .create t := by
  have hunlock : ∀ {u : τ}, pc.owner = some u ∨ pc.target = some u →
      ((s.unlock u).mem t).busy = (s.mem t).busy ∨ pc.owner = some t ∨ pc.target = some t ∨ l = .create t := by
    intro u hu
    by_cases htu : t = u
    · subst htu
      exact .inr (hu.imp_right .inl)
    · exact .inl (by rw [Shared.unlock, mem_modify_of_ne _ _ _ _ htu])
  cases h
  case lock u hbusy hpc =>
    by_cases htu : t = u
    · subst htu
      unfold locking at hpc
      split at hpc <;> cases hpc <;> simp [Pc.owner, Pc.target]
    · exact .inl (by rw [mem_modify_of_ne _ _ _ _ htu])
  case new u _ _ _ =>
    by_cases htu : t = u
    · subst htu
      simp
    · exact .inl (by simp [htu])
  case initUnlock => exact hunlock (.inl rfl)
  case joinUnlock => exact hunlock (.inr rfl)
  case exitUnlock => exact hunlock (.inl rfl)
  case unlock => exact hunlock (.inr rfl)
  all_goals refine .inl ?_
  all_goals first
    | rfl
    | exact field_modify s _ t _ (·.busy) (by intro; rfl)
    | rw [Shared.mem_setJoining]
      exact field_modify s _ t _ (·.busy) (by intro; rfl)

/-- **What a step moves.** An lthread stays where it is, or goes from one place to another. -/
theorem seen (hnodup : s.schedulerQueue.Nodup)
    (hjoin : ∀ lt j, pc = .exitEnqueue lt j → s.asleep j = true) (t : τ) :
    (∀ x, Seen i s' pc' t x → Seen i s pc t x) ∨
      ∃ x y, Seen i s pc t x ∧ ∀ z, Seen i s' pc' t z → z = y ∨ z ≠ x ∧ Seen i s pc t z := by
  have henqueue : ∀ {v : τ} {x : Spot ι} {pc₁ : Pc τ}, t = v → Seen i s pc t x → (x = .asleep ∨ x = .born i) →
      pc₁.owner = pc.owner → pc₁.newborn = none ∨ pc₁ = pc ∧ pc.newborn = none →
      ∃ x y, Seen i s pc t x ∧ ∀ z, Seen i (s.enqueue v) pc₁ t z → z = y ∨ z ≠ x ∧ Seen i s pc t z := by
    intro v x pc₁ htv hx hxs howner hnew
    subst htv
    refine ⟨x, .ready, hx, fun z hz => ?_⟩
    cases z with
    | ready => exact .inl rfl
    | absent => exact .inr ⟨by rcases hxs with rfl | rfl <;> simp, hz⟩
    | asleep => simp [Seen, Shared.enqueue] at hz
    | on k => exact .inr ⟨by rcases hxs with rfl | rfl <;> simp, hz.1, howner ▸ hz.2⟩
    | born k =>
      obtain ⟨-, hz⟩ := hz
      rcases hnew with hnew | ⟨rfl, hnew⟩ <;> simp [hnew] at hz
  have hother : ∀ {v : τ} {pc₁ : Pc τ}, t ≠ v → pc₁.owner = pc.owner →
      (∀ t, pc₁.newborn = some t → pc.newborn = some t) →
      ∀ x, Seen i (s.enqueue v) pc₁ t x → Seen i s pc t x := by
    intro v pc₁ htv howner hnew x hx
    cases x with
    | ready =>
      rcases mem_append.mp hx with hx | hx
      · exact hx
      · exact absurd (mem_singleton.mp hx) htv
    | absent => exact hx
    | asleep => simpa [Seen, Shared.enqueue, htv] using hx
    | on k => exact ⟨hx.1, howner ▸ hx.2⟩
    | born k => exact ⟨hx.1, hnew t hx.2⟩
  have hsleep : ∀ {lt : τ} {s₁ : Shared ι τ}, pc.owner = some lt → s₁.status = s.status →
      s₁.schedulerQueue = s.schedulerQueue → s₁.asleep = Function.update s.asleep lt true →
      (∀ x, Seen i s₁ (.terminate lt) t x → Seen i s pc t x) ∨
      ∃ x y, Seen i s pc t x ∧ ∀ z, Seen i s₁ (.terminate lt) t z → z = y ∨ z ≠ x ∧ Seen i s pc t z := by
    intro lt s₁ howner hstatus hqueue hasleep
    by_cases htl : t = lt
    · subst htl
      refine .inr ⟨.on i, .asleep, ⟨rfl, howner⟩, fun z hz => ?_⟩
      cases z with
      | asleep => exact .inl rfl
      | absent => exact .inr ⟨by simp, by simpa [Seen, hstatus] using hz⟩
      | ready => exact .inr ⟨by simp, by simpa [Seen, hqueue] using hz⟩
      | on k => simp [Seen, Pc.owner] at hz
      | born k => simp [Seen, Pc.newborn] at hz
    · refine .inl fun x hx => ?_
      cases x with
      | asleep => simpa [Seen, hasleep, htl] using hx
      | absent => simpa [Seen, hstatus] using hx
      | ready => simpa [Seen, hqueue] using hx
      | on k => simp [Seen, Pc.owner] at hx
      | born k => simp [Seen, Pc.newborn] at hx
  have hfree := fun hx => (h.absent_of_absent (t := t) hx).1
  cases h
  case lock v _ hpc =>
    obtain ⟨howner, hnew⟩ := owner_of_locking hpc
    refine .inl fun x hx => ?_
    cases x with
    | on k => exact ⟨hx.1, howner ▸ hx.2⟩
    | born k => exact ⟨hx.1, hnew ▸ hx.2⟩
    | absent | ready | asleep => exact hx
  case dequeue lt q hq =>
    by_cases htl : t = lt
    · subst htl
      refine .inr ⟨.ready, .on i, by simp [Seen, hq], fun z hz => ?_⟩
      cases z with
      | ready =>
        rw [hq] at hnodup
        exact absurd hz (nodup_cons.mp hnodup).1
      | absent => exact .inr ⟨by simp, hz⟩
      | asleep => exact .inr ⟨by simp, hz⟩
      | on k => exact .inl (by rw [hz.1])
      | born k => simp [Seen, Pc.newborn] at hz
    · refine .inl fun x hx => ?_
      cases x with
      | ready =>
        show t ∈ s.schedulerQueue
        rw [hq]
        exact mem_cons_of_mem _ hx
      | absent => exact hx
      | asleep => exact hx
      | on k => simp [Seen, Pc.owner, Ne.symm htl] at hx
      | born k => simp [Seen, Pc.newborn] at hx
  case create lt new =>
    by_cases htn : t = new
    · subst htn
      have hborn : Seen i s (.create lt t) t (.born i) := ⟨rfl, rfl⟩
      exact .inr (henqueue rfl hborn (.inr rfl) rfl (.inl rfl))
    · exact .inl (hother htn rfl (by simp [Pc.newborn]))
  case exitEnqueue lt j =>
    by_cases htj : t = j
    · subst htj
      have hasleep : Seen i s (.exitEnqueue lt t) t .asleep := hjoin lt t rfl
      exact .inr (henqueue rfl hasleep (.inl rfl) rfl (.inl rfl))
    · exact .inl (hother htj rfl (by simp [Pc.newborn]))
  case wake v hasleep hjoining hpc =>
    have hnew : pc.newborn = none := by rcases hpc with rfl | ⟨lt, rfl⟩ <;> rfl
    by_cases htv : t = v
    · subst htv
      have hseen : Seen i s pc t .asleep := hasleep
      exact .inr (henqueue rfl hseen (.inl rfl) rfl (.inr ⟨rfl, hnew⟩))
    · exact .inl (hother htv rfl fun _ h => h)
  case park | unlock => exact hsleep rfl rfl rfl rfl
  case new lt v _ _ habsent =>
    by_cases htv : t = v
    · subst htv
      refine .inr ⟨.absent, .born i, habsent, fun z hz => ?_⟩
      cases z with
      | absent => simp [Seen] at hz
      | ready => exact .inr ⟨by simp, hz⟩
      | asleep => exact .inr ⟨by simp, hz⟩
      | on k => exact .inr ⟨by simp, hz⟩
      | born k => exact .inl (by rw [hz.1])
    · refine .inl fun x hx => ?_
      cases x with
      | absent => simpa [Seen, htv] using hx
      | ready => exact hx
      | asleep => exact hx
      | on k => exact hx
      | born k => simp [Seen, Pc.newborn, Ne.symm htv] at hx
  all_goals
    refine .inl fun x hx => ?_
    cases x
    all_goals first
      | exact hx
      | simp [Seen, Pc.owner] at hx; done
      | exact hfree hx

end Pc.Step

end SgxLkl.Lthreads
