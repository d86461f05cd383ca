import SgxLkl.Sched.Ownership

/-!
# The invariant of joins and exits

* **`Inv.step`**: a step keeps the invariant.
-/

namespace SgxLkl.Lthreads

open Option

variable {ι τ : Type*}

/-! ## What a scheduler knows -/

section

variable (s : Shared ι τ)

def Running (lt : τ) : Prop := (s.mem lt).exited = false ∧ s.joining lt = none

/-- The lthread goes to sleep as the joiner of `u`. -/
def Joins (lt u : τ) : Prop :=
  (s.mem lt).exited = false ∧ s.joining lt = some u ∧ (s.mem lt).yieldCb = some .unlock ∧
    (s.mem lt).yieldCbarg = .lthread u ∧ (s.mem u).ltJoin = some lt ∧ (s.mem u).exited = false

/-- What is known of the lthreads that the next accesses are about. -/
def Pc.Ok : Pc τ → Prop
  | .resume lt | .initLock lt | .initClear lt | .initUnlock lt | .clear lt =>
    (s.mem lt).exited = false ∧ ∀ u, s.joining lt = some u → (s.mem u).exited = true
  | .run lt | .create lt _ | .detach lt _ | .exitLock lt _ | .exitArg lt _ | .exitFlag lt | .joinDetach lt _
  | .joinLock lt _ | .joinExited lt _ => Running s lt
  | .joinCas lt u | .joinUnlock lt u => Running s lt ∧ (s.mem u).exited = false
  | .joinYield lt u => Running s lt ∧ (s.mem u).exited = false ∧ (s.mem u).ltJoin = some lt
  | .joinRelock lt u | .joinArg lt u => Running s lt ∧ (s.mem u).exited = true
  | .joinFree lt u r | .joinRet lt u r => Running s lt ∧ (s.mem u).exited = true ∧ r = (s.mem u).yieldCbarg
  | .switched lt .exit | .exited lt .exit => (s.mem lt).exited = true
  | .callback _ .exit => False
  | .switched lt .sleep | .exited lt .sleep | .callback lt .sleep => Running s lt ∧ (s.mem lt).yieldCb = some .park
  | .switched lt (.join u) | .exited lt (.join u) | .callback lt (.join u) | .unlock lt u => Joins s lt u
  | .exitJoin lt | .exitForget lt => (s.mem lt).exited = true
  | .exitEnqueue lt j => (s.mem lt).exited = true ∧ (s.mem lt).ltJoin = some j
  | .exitUnlock lt => (s.mem lt).exited = true ∧ (s.mem lt).ltJoin = none
  | .loop | .exitDetach _ | .exitFree _ | .terminate _ | .scheduler | .left _ => True

end

variable {s s' : Shared ι τ} {pc pc' : Pc τ}

/-- What a scheduler knows depends on the lthread that it owns, on the lock that it holds, and on exits. -/
theorem Pc.Ok.congr (h : pc.Ok s)
    (howner : ∀ t, pc.owner = some t → (s'.mem t).exited = (s.mem t).exited ∧ s'.joining t = s.joining t ∧
      (s'.mem t).yieldCb = (s.mem t).yieldCb ∧ (s'.mem t).yieldCbarg = (s.mem t).yieldCbarg)
    (hholds : ∀ u x, pc.holds = some (u, x) → (s'.mem u).exited = (s.mem u).exited ∧
      (s'.mem u).ltJoin = (s.mem u).ltJoin)
    (hexited : ∀ u, (s.mem u).exited = true → (s'.mem u).exited = true ∧
      (s'.mem u).yieldCbarg = (s.mem u).yieldCbarg) : pc.Ok s' := by
  have hrunning : ∀ {lt : τ}, pc.owner = some lt → Running s lt → Running s' lt := by
    intro lt hlt hrun
    obtain ⟨he, hj, -⟩ := howner lt hlt
    exact ⟨he.trans hrun.1, hj.trans hrun.2⟩
  have hjoins : ∀ {lt u : τ}, pc.owner = some lt → pc.holds = some (u, .joiner lt) → Joins s lt u →
      Joins s' lt u := by
    intro lt u hlt hu hj
    obtain ⟨he, hj', hcb, harg⟩ := howner lt hlt
    obtain ⟨heu, hlj⟩ := hholds u _ hu
    exact ⟨he.trans hj.1, hj'.trans hj.2.1, hcb.trans hj.2.2.1, harg.trans hj.2.2.2.1, hlj.trans hj.2.2.2.2.1,
      heu.trans hj.2.2.2.2.2⟩
  have hresume : ∀ {lt : τ}, pc.owner = some lt →
      ((s.mem lt).exited = false ∧ ∀ u, s.joining lt = some u → (s.mem u).exited = true) →
      (s'.mem lt).exited = false ∧ ∀ u, s'.joining lt = some u → (s'.mem u).exited = true := by
    intro lt hlt hok
    obtain ⟨he, hj, -⟩ := howner lt hlt
    exact ⟨he.trans hok.1, fun u hu => (hexited u (hok.2 u (hj ▸ hu))).1⟩
  cases pc with
  | resume | initLock | initClear | initUnlock | clear => exact hresume rfl h
  | run | create | detach | exitLock | exitArg | exitFlag | joinDetach | joinLock | joinExited =>
    exact hrunning rfl h
  | joinCas | joinUnlock => exact ⟨hrunning rfl h.1, (hholds _ _ rfl).1.trans h.2⟩
  | joinYield =>
    obtain ⟨he, hj⟩ := hholds _ _ rfl
    exact ⟨hrunning rfl h.1, he.trans h.2.1, hj.trans h.2.2⟩
  | joinRelock | joinArg => exact ⟨hrunning rfl h.1, (hexited _ h.2).1⟩
  | joinFree | joinRet =>
    obtain ⟨he, harg⟩ := hexited _ h.2.1
    exact ⟨hrunning rfl h.1, he, h.2.2.trans harg.symm⟩
  | switched lt y | exited lt y =>
    cases y with
    | exit => exact (hexited _ h).1
    | sleep => exact ⟨hrunning rfl h.1, (howner _ rfl).2.2.1.trans h.2⟩
    | join u => exact hjoins rfl rfl h
  | callback lt y =>
    cases y with
    | exit => exact h
    | sleep => exact ⟨hrunning rfl h.1, (howner _ rfl).2.2.1.trans h.2⟩
    | join u => exact hjoins rfl rfl h
  | unlock => exact hjoins rfl rfl h
  | exitJoin | exitForget => exact (hexited _ h).1
  | exitEnqueue | exitUnlock => exact ⟨(hexited _ h.1).1, (hholds _ _ rfl).2.trans h.2⟩
  | loop | exitDetach | exitFree | terminate | scheduler | left => trivial

/-! ## The own steps -/

variable [DecidableEq τ] {i : ι} {l : Label τ}

theorem Pc.Ok.modify (h : pc.Ok s) (t : τ) {f : Lthread τ → Lthread τ} (hexited : ∀ x, (f x).exited = x.exited)
    (hjoin : ∀ x, (f x).ltJoin = x.ltJoin) (hcb : ∀ x, (f x).yieldCb = x.yieldCb)
    (harg : ∀ x, (f x).yieldCbarg = x.yieldCbarg) : pc.Ok (s.modify t f) := by
  refine h.congr (fun u _ => ?_) (fun u _ _ => ?_) (fun u hu => ?_)
  · simp [hexited, hcb, harg]
  · simp [hexited, hjoin]
  · simpa [hexited, harg] using hu

/-- A scheduler knows what it has to know behind its own step. -/
theorem Pc.Step.ok (h : Pc.Step i s pc l pc' s') (hok : pc.Ok s)
    (hready : ∀ t ∈ s.schedulerQueue, (s.mem t).exited = false ∧
      ∀ u, s.joining t = some u → (s.mem u).exited = true) :
    pc'.Ok s' := by
  cases h
  case stay => exact hok
  case dequeue lt q hq => exact hready lt (by rw [hq]; exact List.mem_cons_self)
  case lock t hbusy hpc =>
    have hnext : pc'.Ok s := by
      unfold locking at hpc
      split at hpc <;> cases hpc <;> exact hok
    exact hnext.modify t (by simp) (by simp) (by simp) (by simp)
  case initClear lt => exact (show (Pc.initUnlock lt).Ok s from hok).modify lt (by simp) (by simp) (by simp) (by simp)
  case initUnlock lt => exact (show (Pc.clear lt).Ok s from hok).modify lt (by simp) (by simp) (by simp) (by simp)
  case clear hnone => exact ⟨by simp [hok.1], hnone⟩
  case clearJoin lt u hu => exact ⟨⟨by simp [hok.1], by simp [Shared.setJoining]⟩, by simp [hok.2 u hu]⟩
  case detach lt u hbusy => exact (show (Pc.run lt).Ok s from hok).modify u (by simp) (by simp) (by simp) (by simp)
  case exitArg => exact ⟨by simp [hok.1], hok.2⟩
  case exitFlag => exact by rw [Pc.Ok, mem_modify_self]
  case joinExited hexited | joinRunning hexited => exact ⟨hok, hexited⟩
  case joinCas hnone => exact ⟨⟨by simp [hok.1.1], hok.1.2⟩, by simp [hok.2], by rw [mem_modify_self]⟩
  case joinUnlock lt u => exact (show (Pc.run lt).Ok s from hok.1).modify u (by simp) (by simp) (by simp) (by simp)
  case joinYield lt u =>
    obtain ⟨hrun, hexited, hjoin⟩ := hok
    exact ⟨by simp [hrun.1], by simp [Shared.setJoining], by rw [Shared.mem_setJoining, mem_modify_self],
      by rw [Shared.mem_setJoining, mem_modify_self], by simp [hjoin], by simp [hexited]⟩
  case joinArg => exact ⟨hok.1, hok.2, rfl⟩
  case joinRet => exact hok.1
  case switched y _ => cases y <;> exact hok
  case exited hexited => exact hexited
  case notExited y hexited =>
    cases y with
    | exit => simp [Pc.Ok, hexited] at hok
    | sleep => exact hok
    | join u => exact hok
  case exitAlone hnone => exact ⟨hok, hnone⟩
  case exitJoined hjoin => exact ⟨hok, hjoin⟩
  case exitEnqueue => exact hok.1
  case exitForget lt =>
    have hexited : (s.mem lt).exited = true := hok
    exact ⟨by simp [hexited], by rw [mem_modify_self]⟩
  case callUnlock u y hcb harg =>
    cases y with
    | exit => exact hok.elim
    | sleep => simp [hcb, Pc.Ok] at hok
    | join v =>
      have hv := hok.2.2.2.1
      rw [harg] at hv
      cases hv
      exact hok
  case wake t hasleep hjoin hpc => rcases hpc with rfl | ⟨lt, rfl⟩ <;> exact hok
  case new lt t _ _ habsent =>
    by_cases hlt : lt = t
    · simp [Pc.Ok, Running, hlt]
    · simpa [Pc.Ok, Running, hlt] using hok
  case sleep => exact ⟨⟨by simp [hok.1], hok.2⟩, by rw [mem_modify_self]⟩
  case terminateThis lt => exact (show (Pc.run lt).Ok s from hok).modify lt (by simp) (by simp) (by simp) (by simp)
  all_goals first
    | exact hok
    | trivial

/-! ## Locks -/

/-- The holders of locks behind a step: only the holder of a lock changes it, and a registered joiner keeps the lock
until its scheduler releases it. -/
structure HolderStep (s s' : Shared ι τ) (pc pc' : Pc τ) (holder holder' : τ → Option (Holder τ)) : Prop where
  holds : ∀ u x, pc'.holds = some (u, x) → holder' u = some x
  free : ∀ u, (s'.mem u).busy = false → holder' u = none
  keep : ∀ u x, holder u = some x → holder' u = some x ∨ ∃ x', pc.holds = some (u, x')
  joiner : ∀ u j, holder u = some (.joiner j) → holder' u = some (.joiner j) ∨
    pc = .unlock j u ∧ s' = (s.unlock u).sleep j
  self : ∀ u, holder u = some .self → holder' u = some .self ∨ pc = .initUnlock u ∨
    pc = .exitUnlock u ∧ pc' = .exitDetach u

variable {holder : τ → Option (Holder τ)}

theorem HolderStep.refl (hholds : ∀ u x, pc'.holds = some (u, x) → holder u = some x)
    (hfree : ∀ u, (s'.mem u).busy = false → holder u = none) : HolderStep s s' pc pc' holder holder where
  holds := hholds
  free := hfree
  keep := fun _ _ hx => .inl hx
  joiner := fun _ _ hj => .inl hj
  self := fun _ hu => .inl hu

theorem HolderStep.release {u : τ} {x : Holder τ} (hfree : ∀ u, (s.mem u).busy = false → holder u = none)
    (hpc : pc.holds = some (u, x)) (hx : holder u = some x)
    (hjoiner : ∀ j, x = .joiner j → pc = .unlock j u ∧ s' = (s.unlock u).sleep j)
    (hself : x = .self → pc = .initUnlock u ∨ pc = .exitUnlock u ∧ pc' = .exitDetach u) (hpc' : pc'.holds = none)
    (hbusy : ∀ v, v ≠ u → (s'.mem v).busy = (s.mem v).busy) :
    HolderStep s s' pc pc' holder (Function.update holder u none) where
  holds := by simp [hpc']
  free := fun v hv => by
    by_cases hvu : v = u
    · rw [hvu, Function.update_self]
    · rw [Function.update_of_ne hvu]
      exact hfree v (hbusy v hvu ▸ hv)
  keep := fun v y hy => by
    by_cases hvu : v = u
    · exact .inr ⟨x, by rw [hvu, hpc]⟩
    · exact .inl (by rw [Function.update_of_ne hvu, hy])
  joiner := fun v j hj => by
    by_cases hvu : v = u
    · subst hvu
      exact .inr (hjoiner j (some.inj (hx.symm.trans hj)))
    · exact .inl (by rw [Function.update_of_ne hvu, hj])
  self := fun v hv => by
    by_cases hvu : v = u
    · subst hvu
      exact .inr (hself (some.inj (hx.symm.trans hv)))
    · exact .inl (by rw [Function.update_of_ne hvu, hv])

theorem Pc.Step.exists_holderStep (h : Pc.Step i s pc l pc' s') (hok : pc.Ok s)
    (hholds : ∀ u x, pc.holds = some (u, x) → holder u = some x)
    (hfree : ∀ u, (s.mem u).busy = false → holder u = none)
    (habsent : ∀ t, s.status t = .absent → (s.mem t).busy = false) :
    ∃ holder', HolderStep s s' pc pc' holder holder' := by
  have hrelease : ∀ {u : τ} {x : Holder τ} {s₁ : Shared ι τ} {pc₁ : Pc τ}, pc.holds = some (u, x) →
      (∀ j, x = .joiner j → pc = .unlock j u ∧ s₁ = (s.unlock u).sleep j) →
      (x = .self → pc = .initUnlock u ∨ pc = .exitUnlock u ∧ pc₁ = .exitDetach u) → pc₁.holds = none →
      s₁.mem = (s.unlock u).mem →
      ∃ holder', HolderStep s s₁ pc pc₁ holder holder' := by
    intro u x s₁ pc₁ hpc hj hself hpc₁ hmem
    refine ⟨_, HolderStep.release hfree hpc (hholds u x hpc) hj hself hpc₁ fun v hv => ?_⟩
    rw [hmem, Shared.unlock, mem_modify_of_ne _ _ _ _ hv]
  have hmodify : ∀ {t : τ} {f : Lthread τ → Lthread τ} {s₁ : Shared ι τ}, (∀ x, (f x).busy = x.busy) →
      s₁.mem = (s.modify t f).mem → ∀ u, (s₁.mem u).busy = false → holder u = none := by
    intro t f s₁ hf hmem u hu
    rw [hmem] at hu
    exact hfree u (by rw [← field_modify s t u f (·.busy) hf, hu])
  cases h
  case lock t hbusy hpc =>
    obtain ⟨x, hx⟩ := holds_of_locking hpc
    have hnone := hfree t hbusy
    have hkeep : ∀ u y, holder u = some y → Function.update holder t (some x) u = some y := by
      intro u y hy
      rw [Function.update_of_ne, hy]
      rintro rfl
      simp [hnone] at hy
    refine ⟨Function.update holder t (some x), ?_, fun u hu => ?_, fun u y hy => .inl (hkeep u y hy),
      fun u j hj => .inl (hkeep u _ hj), fun u hu => .inl (hkeep u _ hu)⟩
    · rintro u y hy
      obtain ⟨rfl, rfl⟩ := Prod.mk.inj (some.inj (hx.symm.trans hy))
      exact Function.update_self ..
    · have hut : u ≠ t := by
        rintro rfl
        rw [mem_modify_self] at hu
        cases hu
      rw [Function.update_of_ne hut]
      rw [mem_modify_of_ne _ _ _ _ hut] at hu
      exact hfree u hu
  case joinCas lt u hnone =>
    have hu := hholds u _ rfl
    have hkeep : ∀ v y, y ≠ .caller lt → holder v = some y →
        Function.update holder u (some (.joiner lt)) v = some y := by
      intro v y hne hy
      rw [Function.update_of_ne, hy]
      rintro rfl
      exact hne (some.inj (hy.symm.trans hu))
    refine ⟨Function.update holder u (some (.joiner lt)), ?_, fun v hv => ?_, fun v y hy => ?_,
      fun v j hj => .inl (hkeep v _ (by simp) hj), fun v hv => .inl (hkeep v _ (by simp) hv)⟩
    · rintro v y hy
      cases hy
      exact Function.update_self ..
    · have hv' := hmodify (by simp) rfl v hv
      rw [Function.update_of_ne, hv']
      rintro rfl
      simp [hu] at hv'
    · by_cases hvu : v = u
      · exact .inr ⟨_, by rw [hvu]; rfl⟩
      · exact .inl (by rw [Function.update_of_ne hvu, hy])
  case initUnlock | joinUnlock | exitUnlock | unlock => exact hrelease rfl (by simp) (by simp) rfl rfl
  case clearJoin =>
    refine ⟨holder, .refl (by simp [Pc.holds]) (hmodify ?_ (Shared.mem_setJoining ..))⟩
    simp
  case joinYield =>
    refine ⟨holder, .refl hholds (hmodify ?_ (Shared.mem_setJoining ..))⟩
    simp
  case switched y _ => exact ⟨holder, .refl (by cases y <;> exact hholds) hfree⟩
  case exited lt y hexited =>
    refine ⟨holder, .refl (fun u x hx => ?_) hfree⟩
    cases hx
    cases y with
    | exit => exact hholds _ _ rfl
    | sleep => simp [Pc.Ok, Running, hexited] at hok
    | join v => simp [Pc.Ok, Joins, hexited] at hok
  case notExited y _ => exact ⟨holder, .refl (by cases y <;> exact hholds) hfree⟩
  case callUnlock u y hcb harg =>
    refine ⟨holder, .refl (fun v x hx => ?_) hfree⟩
    cases hx
    cases y with
    | exit => exact hok.elim
    | sleep => simp [Pc.Ok, hcb] at hok
    | join w =>
      have hw := hok.2.2.2.1
      rw [harg] at hw
      cases hw
      exact hholds _ _ rfl
  case new lt t _ _ hnone =>
    refine ⟨holder, .refl (by simp [Pc.holds]) fun u hu => ?_⟩
    by_cases hut : u = t
    · exact hfree u (hut ▸ habsent t hnone)
    · exact hfree u (by simpa [hut] using hu)
  all_goals first
    | exact ⟨holder, .refl hholds hfree⟩
    | exact ⟨holder, .refl (by simp [Pc.holds]) hfree⟩
    | exact ⟨holder, .refl hholds (hmodify (by simp) rfl)⟩

/-! ## The invariant -/

theorem Pc.Step.target_cases (h : Pc.Step i s pc l pc' s') (hok : pc.Ok s) {u : τ} (hu : pc'.target = some u) :
    pc.target = some u ∨ s.status u ≠ .absent ∨ (s.mem u).exited = true := by
  cases h
  case stay | wake => exact .inl hu
  case lock hpc =>
    unfold locking at hpc
    split at hpc <;> cases hpc <;> exact .inl hu
  case clearJoin lt v hv =>
    cases hu
    exact .inr (.inr (hok.2 u hv))
  case joinCall hstatus =>
    cases hu
    exact .inr (.inl hstatus)
  case detachCall hstatus =>
    cases hu
    exact .inr (.inl hstatus)
  case switched y _ | notExited y _ => cases y <;> exact .inl hu
  case callUnlock y hcb harg =>
    cases hu
    cases y with
    | exit => exact hok.elim
    | sleep => simp [Pc.Ok, hcb] at hok
    | join w =>
      have hw := hok.2.2.2.1
      rw [harg] at hw
      cases hw
      exact .inl rfl
  all_goals first
    | exact .inl hu
    | cases hu

/-- The invariant. `holder` says for whom a lock is held. -/
structure Inv (m : Machine ι τ) (holder : τ → Option (Holder τ)) : Prop where
  excl : ∀ t x y, m.Occ t x → m.Occ t y → x = y
  nodup : m.shared.schedulerQueue.Nodup
  ok : ∀ i, (m.pc i).Ok m.shared
  holds : ∀ i u x, (m.pc i).holds = some (u, x) → holder u = some x
  free : ∀ u, (m.shared.mem u).busy = false → holder u = none
  absent : ∀ t, m.shared.status t = .absent → (m.shared.mem t).exited = false ∧ (m.shared.mem t).ltJoin = none ∧
    (m.shared.mem t).busy = false ∧ m.shared.joining t = none
  target : ∀ i u, (m.pc i).target = some u → m.shared.status u ≠ .absent
  idle : ∀ t, t ∈ m.shared.schedulerQueue ∨ m.shared.asleep t = true ∨ (∃ i, (m.pc i).newborn = some t) →
    (m.shared.mem t).exited = false
  woken : ∀ t ∈ m.shared.schedulerQueue, ∀ u, m.shared.joining t = some u → (m.shared.mem u).exited = true
  newborn : ∀ i t, (m.pc i).newborn = some t → m.shared.joining t = none
  /-- A joiner that is registered sleeps, is about to, or has just been woken. -/
  registered : ∀ u j, (m.shared.mem u).ltJoin = some j → (∃ i, m.pc i = .exitForget u) ∨
    (m.shared.asleep j = true ∧ m.shared.joining j = some u) ∨ holder u = some (.joiner j)
  /-- A joiner that sleeps is registered. -/
  waits : ∀ j u, m.shared.asleep j = true → m.shared.joining j = some u →
    (m.shared.mem u).ltJoin = some j ∧ ∀ i, m.pc i ≠ .exitForget u

omit [DecidableEq τ] in
theorem Machine.Init.inv {m : Machine ι τ} (h : m.Init) : Inv m fun _ => none where
  excl := by
    have hlive : ∀ t, t ∈ m.shared.schedulerQueue → m.shared.status t ≠ .absent := by
      intro t ht
      rw [(h.queue t).mp ht]
      simp
    intro t x y hx hy
    cases x <;> cases y <;> simp [Machine.Occ, h.loop, h.asleep, Pc.owner, Pc.newborn] at hx hy ⊢
    · exact hlive t hy hx
    · exact hlive t hx hy
  nodup := h.nodup
  ok := fun i => by simp [h.loop i, Pc.Ok]
  holds := fun i u x hx => by simp [h.loop i, Pc.holds] at hx
  free := fun _ _ => rfl
  absent := fun t _ => by
    obtain ⟨isNew, isDetached, hmem⟩ := h.mem t
    simp [hmem, h.joining t]
  target := fun i u hu => by simp [h.loop i, Pc.target] at hu
  idle := fun t _ => by
    obtain ⟨isNew, isDetached, hmem⟩ := h.mem t
    simp [hmem]
  woken := fun t _ u hu => by simp [h.joining t] at hu
  newborn := fun _ t _ => h.joining t
  registered := fun u j hj => by
    obtain ⟨isNew, isDetached, hmem⟩ := h.mem u
    simp [hmem] at hj
  waits := fun j u hj => by simp [h.asleep j] at hj

/-! ## Steps -/

section Step

variable {m m' : Machine ι τ} {k : ι} {t u : τ}

theorem Pc.Step.yieldCbarg_eq (h : Pc.Step i s pc l pc' s') (hok : pc.Ok s) (ht : (s.mem t).exited = true)
    (habsent : s.status t ≠ .absent) : (s'.mem t).yieldCbarg = (s.mem t).yieldCbarg := by
  have hne : ∀ {lt : τ} {f : Lthread τ → Lthread τ}, (s.mem lt).exited = false →
      ((s.modify lt f).mem t).yieldCbarg = (s.mem t).yieldCbarg := by
    intro lt f hlt
    rw [mem_modify_of_ne]
    rintro rfl
    simp [ht] at hlt
  cases h
  case clear => exact hne hok.1
  case clearJoin => rw [Shared.mem_setJoining, hne hok.1]
  case exitArg => exact hne hok.1
  case joinYield => rw [Shared.mem_setJoining, hne hok.1.1]
  case sleep => exact hne hok.1
  case new v _ _ hv =>
    have htv : t ≠ v := fun htv => habsent (htv ▸ hv)
    simp [htv]
  all_goals first
    | rfl
    | simp [Shared.unlock]

omit [DecidableEq τ] in
theorem Pc.owner_or_target {x : Holder τ} (h : pc.holds = some (u, x)) : pc.owner = some u ∨ pc.target = some u := by
  unfold Pc.holds at h
  split at h <;> cases h
  all_goals first
    | exact .inl rfl
    | exact .inr rfl

namespace Inv

variable (hm : Inv m holder)

include hm

omit [DecidableEq τ]

theorem eq_of_owner (hi : (m.pc i).owner = some t) (hk : (m.pc k).owner = some t) : i = k :=
  Spot.on.inj (hm.excl t (.on i) (.on k) hi hk)

theorem eq_of_holds {x y : Holder τ} (hi : (m.pc i).holds = some (u, x)) (hk : (m.pc k).holds = some (u, y)) :
    i = k := by
  have hxy : x = y := some.inj ((hm.holds i u x hi).symm.trans (hm.holds k u y hk))
  subst hxy
  exact hm.eq_of_owner (Pc.owner_of_holds hi) (Pc.owner_of_holds hk)

theorem status_ne_of_exited (hu : (m.shared.mem u).exited = true) : m.shared.status u ≠ .absent := by
  intro h
  simp [(hm.absent u h).1] at hu

theorem status_ne_of_holds {x : Holder τ} (h : (m.pc i).holds = some (u, x)) : m.shared.status u ≠ .absent := by
  rcases Pc.owner_or_target h with h | h
  · intro habsent
    cases hm.excl u (.on i) .absent h habsent
  · exact hm.target i u h

theorem asleep_of_exitEnqueue {j : τ} (h : m.pc i = .exitEnqueue t j) :
    m.shared.asleep j = true ∧ m.shared.joining j = some t := by
  have hok := hm.ok i
  have hself := hm.holds i t .self (by rw [h]; rfl)
  rw [h] at hok
  rcases hm.registered t j hok.2 with ⟨k, hk⟩ | hj | hj
  · have hik := hm.eq_of_owner (t := t) (by rw [h]; rfl) (show (m.pc k).owner = some t by rw [hk]; rfl)
    rw [← hik, h] at hk
    cases hk
  · exact hj
  · simp [hself] at hj

end Inv

section

variable (hm : Inv m holder) (hstep : Pc.Step i m.shared (m.pc i) l (m'.pc i) m'.shared)
  (hother : ∀ k, k ≠ i → m'.pc k = m.pc k)

include hm hstep

namespace Inv

theorem enqueued (hl : l = .enqueue t) : m'.shared = m.shared.enqueue t ∧
    ((m.pc i).newborn = some t ∨ m.shared.asleep t = true) ∧
    ∀ u, m.shared.joining t = some u → (m.shared.mem u).exited = true := by
  subst hl
  obtain ⟨hs, ⟨lt, hpc, -⟩ | ⟨lt, hpc, -⟩ | ⟨-, hasleep, hjoin⟩⟩ := hstep.enqueue_cases
  · have hborn : (m.pc i).newborn = some t := by rw [hpc]; rfl
    exact ⟨hs, .inl hborn, by simp [hm.newborn i t hborn]⟩
  · obtain ⟨hasleep, hjoin⟩ := hm.asleep_of_exitEnqueue hpc
    have hok := hm.ok i
    rw [hpc] at hok
    refine ⟨hs, .inr hasleep, fun u hu => ?_⟩
    rw [hjoin] at hu
    cases hu
    exact hok.1
  · exact ⟨hs, .inr hasleep, by simp [hjoin]⟩

theorem exited_mono (hu : (m.shared.mem u).exited = true) : (m'.shared.mem u).exited = true ∧
    (m'.shared.mem u).yieldCbarg = (m.shared.mem u).yieldCbarg := by
  refine ⟨?_, hstep.yieldCbarg_eq (hm.ok i) hu (hm.status_ne_of_exited hu)⟩
  rcases hstep.exited_cases u with h | ⟨-, -, h⟩ | ⟨-, habsent, -⟩
  · rw [h, hu]
  · exact h
  · exact absurd habsent (hm.status_ne_of_exited hu)

theorem joining_eq_of_owner (ht : (m.pc i).owner ≠ some t) : m'.shared.joining t = m.shared.joining t := by
  rcases hstep.joining_cases t with h | h | ⟨habsent, h⟩
  · exact h
  · exact absurd h ht
  · rw [h, (hm.absent t habsent).2.2.2]

theorem joining_eq {x : Spot ι} (ht : m.Occ t x) (hx : x ≠ .on i) : m'.shared.joining t = m.shared.joining t :=
  hm.joining_eq_of_owner hstep fun howner => hx (hm.excl t x (.on i) ht howner)

include hother

theorem excl_step : ∀ t x y, m'.Occ t x → m'.Occ t y → x = y := by
  intro t x y hx hy
  have hold : ∀ {z : Spot ι}, Seen i m.shared (m.pc i) t z → m.Occ t z := by
    intro z hz
    cases z with
    | on => obtain ⟨rfl, hz⟩ := hz; exact hz
    | born => obtain ⟨rfl, hz⟩ := hz; exact hz
    | _ => exact hz
  have hnew : ∀ {z : Spot ι}, m'.Occ t z →
      Seen i m'.shared (m'.pc i) t z ∨ m.Occ t z ∧ ¬Seen i m.shared (m.pc i) t z := by
    intro z hz
    cases z with
    | on k | born k =>
      by_cases hk : k = i
      · subst hk
        exact .inl ⟨rfl, hz⟩
      · refine .inr ⟨?_, fun h => hk h.1⟩
        simpa [Machine.Occ, hother k hk] using hz
    | _ => exact .inl hz
  have hjoin : ∀ lt j, m.pc i = .exitEnqueue lt j → m.shared.asleep j = true :=
    fun lt j h => (hm.asleep_of_exitEnqueue h).1
  rcases hstep.seen hm.nodup hjoin t with hsame | ⟨x₀, y₀, hx₀, hmove⟩
  · have hocc : ∀ {z : Spot ι}, m'.Occ t z → m.Occ t z := fun hz =>
      (hnew hz).elim (fun h => hold (hsame _ h)) And.left
    exact hm.excl t x y (hocc hx) (hocc hy)
  · have hone : ∀ {z : Spot ι}, m'.Occ t z → z = y₀ := by
      intro z hz
      rcases hnew hz with h | ⟨h, hunseen⟩
      · rcases hmove z h with hz | ⟨hne, hz⟩
        · exact hz
        · exact absurd (hm.excl t z x₀ (hold hz) (hold hx₀)) hne
      · rw [hm.excl t z x₀ h (hold hx₀)] at hunseen
        exact absurd hx₀ hunseen
    rw [hone hx, hone hy]

omit hother in
theorem nodup_step : m'.shared.schedulerQueue.Nodup := by
  rcases hstep.queue_cases with hq | ⟨lt, hq⟩ | ⟨t, hl, hq⟩
  · rw [hq]
    exact hm.nodup
  · have hnodup := hm.nodup
    rw [hq] at hnodup
    exact hnodup.of_cons
  · have hnotin : t ∉ m.shared.schedulerQueue := by
      intro hready
      rcases (hm.enqueued hstep hl).2.1 with h | h
      · cases hm.excl t .ready (.born i) hready h
      · cases hm.excl t .ready .asleep hready h
    rw [hq]
    exact List.nodup_append.mpr ⟨hm.nodup, by simp, fun a ha b hb => by
      rw [List.mem_singleton.mp hb]
      exact fun hab => hnotin (hab ▸ ha)⟩

omit hother in
theorem absent_step (ht : m'.shared.status t = .absent) : (m'.shared.mem t).exited = false ∧
    (m'.shared.mem t).ltJoin = none ∧ (m'.shared.mem t).busy = false ∧ m'.shared.joining t = none := by
  obtain ⟨habsent, hcreate⟩ := hstep.absent_of_absent ht
  have howner : (m.pc i).owner ≠ some t := fun h => by cases hm.excl t .absent (.on i) habsent h
  have htarget : (m.pc i).target ≠ some t := fun h => hm.target i t h habsent
  obtain ⟨hexited, hltJoin, hbusy, hjoining⟩ := hm.absent t habsent
  refine ⟨?_, ?_, ?_, ?_⟩
  · rcases hstep.exited_cases t with h | ⟨h, -⟩ | ⟨h, -⟩
    · rw [h, hexited]
    · exact absurd (by rw [h]; rfl) howner
    · exact absurd h hcreate
  · rcases hstep.ltJoin_cases t with h | ⟨lt, h, -⟩ | ⟨-, h⟩ | ⟨-, -, h⟩
    · rw [h, hltJoin]
    · exact absurd (by rw [h]; rfl) htarget
    · exact h
    · exact h
  · rcases hstep.busy_cases t with h | h | h | h
    · rw [h, hbusy]
    · exact absurd h howner
    · exact absurd h htarget
    · exact absurd h hcreate
  · rw [hm.joining_eq hstep (x := .absent) habsent (by simp), hjoining]

theorem target_step (hu : (m'.pc k).target = some u) : m'.shared.status u ≠ .absent := by
  have hstatus : m.shared.status u ≠ .absent := by
    by_cases hk : k = i
    · subst hk
      rcases hstep.target_cases (hm.ok k) hu with h | h | h
      · exact hm.target k u h
      · exact h
      · exact hm.status_ne_of_exited h
    · exact hm.target k u (hother k hk ▸ hu)
  exact fun h => hstatus (hstep.absent_of_absent h).1

theorem idle_step (ht : t ∈ m'.shared.schedulerQueue ∨ m'.shared.asleep t = true ∨ ∃ k, (m'.pc k).newborn = some t) :
    (m'.shared.mem t).exited = false := by
  have hexcl := hm.excl_step hstep hother
  have hbefore : (m.shared.mem t).exited = false := by
    rcases ht with ht | ht | ⟨k, ht⟩
    · rcases hstep.mem_queue_cases ht with h | h
      · exact hm.idle t (.inl h)
      · exact hm.idle t (.inr ((hm.enqueued hstep h).2.1.symm.imp_right fun h => ⟨i, h⟩))
    · have hok := hm.ok i
      rcases hstep.asleep_cases ht with ⟨h, -⟩ | ⟨y, h, hcb, -⟩ | ⟨v, h, -⟩
      · exact hm.idle t (.inr (.inl h))
      · rw [h] at hok
        cases y with
        | exit => exact hok.elim
        | sleep => exact hok.1.1
        | join => exact hok.1
      · rw [h] at hok
        exact hok.1
    · by_cases hk : k = i
      · subst hk
        rcases hstep.newborn_cases ht with h | ⟨-, h⟩
        · exact hm.idle t (.inr (.inr ⟨k, h⟩))
        · exact (hm.absent t h).1
      · exact hm.idle t (.inr (.inr ⟨k, hother k hk ▸ ht⟩))
  rcases hstep.exited_cases t with h | ⟨-, h, -⟩ | ⟨-, -, h⟩
  · rw [h, hbefore]
  · have howner : m'.Occ t (.on i) := by rw [Machine.Occ, h]; rfl
    rcases ht with ht | ht | ⟨k, ht⟩
    · cases hexcl t .ready (.on i) ht howner
    · cases hexcl t .asleep (.on i) ht howner
    · cases hexcl t (.born k) (.on i) ht howner
  · exact h

omit hother in
theorem woken_step (ht : t ∈ m'.shared.schedulerQueue) (hu : m'.shared.joining t = some u) :
    (m'.shared.mem u).exited = true := by
  rcases hstep.mem_queue_cases ht with h | h
  · rw [hm.joining_eq hstep (x := .ready) h (by simp)] at hu
    exact (hm.exited_mono hstep (hm.woken t h u hu)).1
  · obtain ⟨hs, -, hexited⟩ := hm.enqueued hstep h
    rw [hs] at hu ⊢
    exact hexited u hu

theorem newborn_step (ht : (m'.pc k).newborn = some t) : m'.shared.joining t = none := by
  by_cases hk : k = i
  · subst hk
    rcases hstep.newborn_cases ht with h | ⟨-, h⟩
    · rw [hm.joining_eq hstep (x := .born k) h (by simp), hm.newborn k t h]
    · rw [hm.joining_eq hstep (x := .absent) h (by simp), (hm.absent t h).2.2.2]
  · have h : (m.pc k).newborn = some t := hother k hk ▸ ht
    rw [hm.joining_eq hstep (x := .born k) h (by simp), hm.newborn k t h]

theorem ok_step : (m'.pc k).Ok m'.shared := by
  by_cases hk : k = i
  · subst hk
    exact hstep.ok (hm.ok k) fun t ht => ⟨hm.idle t (.inl ht), hm.woken t ht⟩
  rw [hother k hk]
  refine (hm.ok k).congr (fun t ht => ?_) (fun u x hu => ?_) (fun u hu => hm.exited_mono hstep hu)
  · have hnot : (m.pc i).owner ≠ some t := fun h => hk (hm.eq_of_owner ht h)
    have habsent : m.shared.status t ≠ .absent := fun h => by cases hm.excl t (.on k) .absent ht h
    have hcb : (m'.shared.mem t).yieldCb = (m.shared.mem t).yieldCb ∧
        (m'.shared.mem t).yieldCbarg = (m.shared.mem t).yieldCbarg := by
      rcases hstep.callback_cases t with h | ⟨h, -⟩ | ⟨-, h⟩
      · exact h
      · exact absurd h hnot
      · exact absurd h habsent
    refine ⟨?_, hm.joining_eq_of_owner hstep hnot, hcb⟩
    rcases hstep.exited_cases t with h | ⟨h, -⟩ | ⟨-, h, -⟩
    · exact h
    · exact absurd (by rw [h]; rfl) hnot
    · exact absurd h habsent
  · have hnot : ∀ y, (m.pc i).holds ≠ some (u, y) := fun y h => hk (hm.eq_of_holds hu h)
    have habsent := hm.status_ne_of_holds hu
    constructor
    · rcases hstep.exited_cases u with h | ⟨h, -⟩ | ⟨-, h, -⟩
      · exact h
      · exact absurd (by rw [h]; rfl) (hnot .self)
      · exact absurd h habsent
    · rcases hstep.ltJoin_cases u with h | ⟨lt, h, -⟩ | ⟨h, -⟩ | ⟨-, h, -⟩
      · exact h
      · exact absurd (by rw [h]; rfl) (hnot (.caller lt))
      · exact absurd (by rw [h]; rfl) (hnot .self)
      · exact absurd h habsent

variable {holder' : τ → Option (Holder τ)} (hholder : HolderStep m.shared m'.shared (m.pc i) (m'.pc i) holder holder')

include hholder

theorem holds_step {x : Holder τ} (hu : (m'.pc k).holds = some (u, x)) : holder' u = some x := by
  by_cases hk : k = i
  · subst hk
    exact hholder.holds u x hu
  · rw [hother k hk] at hu
    rcases hholder.keep u x (hm.holds k u x hu) with h | ⟨y, h⟩
    · exact h
    · exact absurd (hm.eq_of_holds hu h) hk

theorem registered_step {j : τ} (hj : (m'.shared.mem u).ltJoin = some j) : (∃ k, m'.pc k = .exitForget u) ∨
    (m'.shared.asleep j = true ∧ m'.shared.joining j = some u) ∨ holder' u = some (.joiner j) := by
  rcases hstep.ltJoin_cases u with h | ⟨lt, -, hpc, -, h⟩ | ⟨-, h⟩ | ⟨-, -, h⟩
  · rcases hm.registered u j (h ▸ hj) with ⟨k, hk⟩ | ⟨hasleep, hjoin⟩ | hheld
    · by_cases hki : k = i
      · subst hki
        exact .inl ⟨k, (hstep.forget_of_forget hk).resolve_right (by simp [hj])⟩
      · exact .inl ⟨k, by rw [hother k hki, hk]⟩
    · rcases hstep.asleep_of_asleep hasleep with h | h
      · exact .inr (.inl ⟨h, by rw [hm.joining_eq hstep (x := .asleep) hasleep (by simp), hjoin]⟩)
      · subst h
        obtain ⟨-, ⟨lt, hpc, -⟩ | ⟨lt, hpc, hpc'⟩ | ⟨-, -, hnone⟩⟩ := hstep.enqueue_cases
        · cases hm.excl j .asleep (.born i) hasleep (by rw [Machine.Occ, hpc]; rfl)
        · have hlt := (hm.asleep_of_exitEnqueue hpc).2
          rw [hjoin] at hlt
          cases hlt
          exact .inl ⟨i, hpc'⟩
        · simp [hjoin] at hnone
    · rcases hholder.joiner u j hheld with h | ⟨hpc, hs⟩
      · exact .inr (.inr h)
      · have hok := hm.ok i
        rw [hpc] at hok
        refine .inr (.inl ⟨by simp [hs, Shared.sleep], ?_⟩)
        rw [hs]
        exact hok.2.1
  · rw [hj] at h
    cases h
    exact .inr (.inr (hholder.holds u _ (by rw [hpc]; rfl)))
  · simp [hj] at h
  · simp [hj] at h

omit hholder in
theorem waits_step {j : τ} (hasleep : m'.shared.asleep j = true) (hjoin : m'.shared.joining j = some u) :
    (m'.shared.mem u).ltJoin = some j ∧ ∀ k, m'.pc k ≠ .exitForget u := by
  have hok := hm.ok i
  rcases hstep.asleep_cases hasleep with ⟨h, hne⟩ | ⟨y, hpc, hcb, -, hs⟩ | ⟨v, hpc, hpc', hs⟩
  · rw [hm.joining_eq hstep (x := .asleep) h (by simp)] at hjoin
    obtain ⟨hltJoin, hforget⟩ := hm.waits j u h hjoin
    constructor
    · rcases hstep.ltJoin_cases u with h | ⟨lt, -, -, h, -⟩ | ⟨h, -⟩ | ⟨-, h, -⟩
      · rw [h, hltJoin]
      · simp [hltJoin] at h
      · exact absurd h (hforget i)
      · simp [(hm.absent u h).2.1] at hltJoin
    · intro k hk
      by_cases hki : k = i
      · subst hki
        rcases hstep.forget_cases hk with h | ⟨j', hpc, hl⟩
        · exact hforget k h
        · rw [hpc] at hok
          have hj := hok.2
          rw [hltJoin] at hj
          cases hj
          exact hne hl
      · exact hforget k (hother k hki ▸ hk)
  · rw [hpc] at hok
    rw [hs] at hjoin
    cases y with
    | exit => exact hok.elim
    | sleep => cases hok.1.2.symm.trans hjoin
    | join => cases hok.2.2.1.symm.trans hcb
  · rw [hpc] at hok
    rw [hs] at hjoin ⊢
    cases hok.2.1.symm.trans hjoin
    refine ⟨by simpa [Shared.unlock] using hok.2.2.2.2.1, fun k hk => ?_⟩
    by_cases hki : k = i
    · subst hki
      rw [hpc'] at hk
      cases hk
    · rw [hother k hki] at hk
      exact hki (hm.eq_of_holds (u := u) (x := .self) (y := .joiner j) (by rw [hk]; rfl) (by rw [hpc]; rfl))

/-- **A step of a scheduler keeps the invariant.** -/
theorem pc_step : Inv m' holder' where
  excl := hm.excl_step hstep hother
  nodup := hm.nodup_step hstep
  ok := fun _ => hm.ok_step hstep hother
  holds := fun _ _ _ => hm.holds_step hstep hother hholder
  free := hholder.free
  absent := fun _ => hm.absent_step hstep
  target := fun _ _ => hm.target_step hstep hother
  idle := fun _ => hm.idle_step hstep hother
  woken := fun _ ht _ => hm.woken_step hstep ht
  newborn := fun _ _ => hm.newborn_step hstep hother
  registered := fun _ _ => hm.registered_step hstep hother hholder
  waits := fun _ _ => hm.waits_step hstep hother

end Inv

end

/-- The invariant holds for some holders of locks. -/
def Machine.Good (m : Machine ι τ) : Prop := ∃ holder, Inv m holder

theorem Machine.Good.step [DecidableEq ι] (hm : m.Good) (h : m.Step l m') (hfresh : m.Fresh l) : m'.Good := by
  obtain ⟨holder, hm⟩ := hm
  obtain ⟨i, hstep, hother⟩ := h.exists_pc hfresh
  obtain ⟨holder', hholder⟩ := hstep.exists_holderStep (hm.ok i) (hm.holds i) hm.free
    fun t ht => (hm.absent t ht).2.2.1
  exact ⟨holder', hm.pc_step hstep hother hholder⟩

end Step

end SgxLkl.Lthreads
