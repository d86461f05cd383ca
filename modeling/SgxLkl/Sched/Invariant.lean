import SgxLkl.Sched.Threads

/-!
# What holds in every state of the schedulers

* **`Machine.Inv.step`**: a step keeps all this and is a step in the life of every lthread.
-/

namespace SgxLkl

open TicketLock List Function

variable {τ ι : Type*}

/-! ## Switches and loops -/

/-- The context of an lthread at this place is saved. -/
def Spot.Parked : Spot ι → Prop
  | .asleep | .ready | .cpu _ .loading | .cpu _ .held | .cpu _ .born => True
  | .absent | .cpu _ .running | .cpu _ .committed | .cpu _ .queued => False

/-- The registers that `_switch` has saved or loaded so far are those of the context. -/
def Cpu.Copies (ctx : τ → CpuCtx) (c : Cpu τ) : Prop :=
  match c.pc with
  | .save lt _ k | .load lt k => ∀ j : Fin 8, j < k → ctx lt j = c.regs j
  | _ => True

variable [DecidableEq τ] {s s' : Shared τ} {r : CpuCtx} {pc : Pc τ} {l : Label τ} {c c' : Cpu τ}
  {t : τ}

section

omit [DecidableEq τ]

variable {x y : Life ι}

theorem Cpu.Copies.congr {ctx ctx' : τ → CpuCtx} (h : c.Copies ctx)
    (heq : ∀ t ρ, (t, ρ) ∈ c.pc.roles → ctx' t = ctx t) : c.Copies ctx' := by
  obtain ⟨pc, r⟩ := c
  cases pc with
  | save lt y k =>
    have hlt : ctx' lt = ctx lt := by cases y <;> exact heq lt _ mem_cons_self
    simpa only [Copies, hlt] using h
  | load lt k =>
    have hlt : ctx' lt = ctx lt := heq lt _ mem_cons_self
    simpa only [Copies, hlt] using h
  | _ => trivial

theorem Life.Step.parked (h : Life.Step t x l y) (hp : y.spot.Parked) :
    (l = .saved t y.frame ∨ l = .create t y.frame) ∨ x.spot.Parked ∧ y.frame = x.frame := by
  cases h with
  | other => exact .inr ⟨hp, rfl⟩
  | create => exact .inl (.inr rfl)
  | saved => exact .inl (.inl rfl)
  | enqueue h hρ => rcases hρ with rfl | rfl <;> exact .inr ⟨h ▸ trivial, rfl⟩
  | dequeue i h => exact .inr ⟨h ▸ trivial, rfl⟩
  | pick i h => exact .inr ⟨h ▸ trivial, rfl⟩
  | _ => exact hp.elim

theorem Life.Step.spot_of_create {f : CpuCtx} (h : Life.Step t x (.create t f) y) : x.spot = .absent := by
  cases h with
  | other h => exact absurd rfl h
  | create _ _ h => exact h

end

theorem copied_succ {f g : CpuCtx} {k : ℕ} (hk : k < 8) (h : ∀ j : Fin 8, j < k → f j = g j)
    (j : Fin 8) (hj : j < k + 1) : f j = Function.update g ⟨k, hk⟩ (f ⟨k, hk⟩) j := by
  by_cases hjk : j = ⟨k, hk⟩
  · rw [hjk, update_self]
  · have : (j : ℕ) ≠ k := fun heq => hjk (Fin.ext heq)
    rw [update_of_ne hjk, h j (by omega)]

namespace Cpu.Step

theorem copies (h : Cpu.Step s r pc l c' s') (hc : Copies s.ctx ⟨pc, r⟩) : c'.Copies s'.ctx := by
  cases h with
  | stay | clock => exact hc
  | dequeue => exact fun j hj => absurd hj (by omega)
  | load hk => exact copied_succ hk hc
  | noDeadline | deadline | exit => exact fun j hj => absurd hj (by omega)
  | @save lt y k hk =>
    have hcopied := copied_succ hk fun j hj => (hc j hj).symm
    exact fun j hj => by simpa using (hcopied j hj).symm
  | @resume lt => cases h : s.inSleep lt <;> trivial
  | _ => trivial

theorem ctx_eq (h : Cpu.Step s r pc l c' s') (t : τ) :
    s'.ctx t = s.ctx t ∨ (t, .running) ∈ pc.roles ∨ (t, .queued) ∈ pc.roles ∨ l = .create t (s'.ctx t) := by
  cases h with
  | @save lt y k hk =>
    by_cases ht : t = lt
    · subst ht
      cases y <;> simp [Pc.roles]
    · exact .inl (by simp [ht])
  | @create lt new ctx h =>
    by_cases ht : t = new
    · subst ht
      simp
    · exact .inl (by simp [ht])
  | _ => exact .inl rfl

variable {f : CpuCtx}

theorem ctx_of_saved (h : Cpu.Step s r pc (.saved t f) c' s') (hc : Copies s.ctx ⟨pc, r⟩) : s'.ctx t = f := by
  cases h with
  | saved hk => exact funext fun j => hc j (by omega)

theorem ctx_of_create (h : Cpu.Step s r pc (.create t f) c' s') : s'.ctx t = f := by
  cases h with
  | create => simp

theorem of_resume (h : Cpu.Step s r pc (.resume t f) c' s')
    (hc : Copies s.ctx ⟨pc, r⟩) : s.ctx t = f ∧ (t, .loading) ∈ pc.roles := by
  cases h with
  | resume hk => exact ⟨funext fun j => hc j (by omega), mem_cons_self⟩

theorem of_pick (h : Cpu.Step s r pc (.pick t) c' s') : pc.place = .holding ∧ ∀ x ∈ pc.roles, x.2 = .running := by
  cases h with
  | @pick m => exact ⟨rfl, by cases m <;> simp [Pc.roles, Sweep.roles]⟩

theorem futexQueues_eq (h : Cpu.Step s r pc l c' s') (hp : pc.place ≠ .holding) :
    s'.futexQueues = s.futexQueues := by
  cases h with
  | waitNew | deadline | pick => exact absurd rfl hp
  | _ => rfl

theorem todo_isSuffix (h : Cpu.Step s r pc l c' s') (hq : s.futexQueues.Nodup)
    (ht : pc.todo <:+ s.futexQueues) : c'.pc.todo <:+ s'.futexQueues := by
  cases h with
  | enterWake | tryLock => exact suffix_rfl
  | stay | clock | ready => exact ht
  | skip => exact (suffix_cons ..).trans ht
  | @pick m fq tmp h =>
    obtain ⟨kept, hkept⟩ := ht
    have hfq : fq ∉ kept := by
      rw [← hkept, Pc.todo] at hq
      exact fun hmem => (nodup_append.mp hq).2.2 _ hmem _ mem_cons_self rfl
    refine ⟨kept, ?_⟩
    simp only [Futexes.unlink, ← hkept, Pc.todo, erase_append_right _ hfq, erase_cons_head]
  | resume => simp
  | _ => exact nil_suffix

end Cpu.Step

/-! ## The invariant -/

namespace Machine

/-- **What holds in every state.** -/
structure Inv (m : Machine ι τ) (life : τ → Life ι) : Prop where
  lock : ∃ q, Queued m.shared.lock (fun i => (m.cpu i).pc.place) q
  located : Located (fun i => (m.cpu i).pc.roles) m.shared.schedulerQueue
    (m.shared.futexQueues.map (·.futexLt)) m.shared.alive life
  todo : ∀ i, (m.cpu i).pc.todo <:+ m.shared.futexQueues
  copies : ∀ i, (m.cpu i).Copies m.shared.ctx
  frame : ∀ t, (life t).spot.Parked → m.shared.ctx t = (life t).frame

variable {m m' : Machine ι τ} {life : τ → Life ι} {i j : ι}

omit [DecidableEq τ] in
/-- **Mutual exclusion.** -/
theorem Inv.holder_unique (h : m.Inv life) (hi : (m.cpu i).pc.place = .holding)
    (hj : (m.cpu j).pc.place = .holding) : i = j := by
  obtain ⟨q, hq⟩ := h.lock
  exact hq.holder_unique hi hj

def startLife (m : Machine ι τ) (t : τ) : Life ι :=
  ⟨if t ∈ m.shared.schedulerQueue then .ready else .absent, m.shared.ctx t⟩

theorem Init.inv (h : m.Init) : m.Inv m.startLife := by
  have hready : ∀ t, (m.startLife t).spot = .ready ↔ t ∈ m.shared.schedulerQueue := by
    intro t
    by_cases ht : t ∈ m.shared.schedulerQueue <;> simp [startLife, ht]
  have habsent : ∀ t, (m.startLife t).spot ≠ .ready → (m.startLife t).spot = .absent := by
    intro t
    by_cases ht : t ∈ m.shared.schedulerQueue <;> simp [startLife, ht]
  refine ⟨⟨[], ?_⟩, ⟨?_, h.nodup, fun t => (hready t).symm, ?_, ?_, ?_⟩, ?_, ?_, fun t _ => rfl⟩
  · simp only [h.loop]
    exact queued_nil h.free
  · intro i t ρ
    simp only [h.loop, Pc.roles, not_mem_nil, false_iff]
    intro hspot
    have := habsent t (by simp [hspot])
    simp [this] at hspot
  · simp [h.queues]
  · intro t
    simp only [h.queues, map_nil, not_mem_nil, false_iff]
    rintro (hspot | ⟨i, hspot⟩)
    all_goals
      have := habsent t (by simp [hspot])
      simp [this] at hspot
  · intro t
    rw [h.alive, ← hready]
    exact ⟨fun hspot => by simp [hspot], fun hne => not_not.mp fun hr => hne (habsent t hr)⟩
  · intro i
    rw [h.loop]
    exact nil_suffix
  · intro i
    rw [Cpu.Copies, h.loop]
    trivial

/-! ## Steps keep it -/

section Step

variable (h : m.Inv life)
  (hstep : Cpu.Step m.shared (m.cpu i).regs (m.cpu i).pc l (m'.cpu i) m'.shared)

include h hstep

theorem Inv.not_queued_of_pick (hl : l = .pick t) (j : ι) : (life t).spot ≠ .cpu j .queued := by
  intro hj
  subst hl
  obtain ⟨hplace, hroles⟩ := hstep.of_pick
  have hmem := (h.located.roles j t .queued).mpr hj
  obtain rfl := h.holder_unique hplace (Pc.place_of_roles hmem (.inr (.inl rfl)))
  exact Role.noConfusion (hroles _ hmem)

theorem Inv.frame_of_resume {f : CpuCtx} (hl : l = .resume t f) : (life t).frame = f := by
  subst hl
  obtain ⟨hctx, hmem⟩ := hstep.of_resume (h.copies i)
  have hspot := (h.located.roles i t .loading).mp hmem
  rw [← hctx, h.frame t (hspot ▸ trivial)]

variable {y : Life ι}

theorem Inv.ctx_eq (hrun : (life t).spot ≠ .cpu i .running)
    (hqueued : (life t).spot ≠ .cpu i .queued) (habsent : (life t).spot ≠ .absent)
    (hlife : Life.Step t (life t) l y) : m'.shared.ctx t = m.shared.ctx t := by
  rcases hstep.ctx_eq t with heq | hmem | hmem | hl
  · exact heq
  · exact absurd ((h.located.roles i t _).mp hmem) hrun
  · exact absurd ((h.located.roles i t _).mp hmem) hqueued
  · exact absurd (hl ▸ hlife).spot_of_create habsent

theorem Inv.frame_step (hlife : Life.Step t (life t) l y) (hp : y.spot.Parked) : m'.shared.ctx t = y.frame := by
  rcases hlife.parked hp with (hl | hl) | ⟨hparked, hframe⟩
  · exact (hl ▸ hstep).ctx_of_saved (h.copies i)
  · exact (hl ▸ hstep).ctx_of_create
  · rw [hframe, ← h.frame t hparked]
    exact h.ctx_eq hstep (fun h => by simp [h, Spot.Parked] at hparked)
      (fun h => by simp [h, Spot.Parked] at hparked)
      (fun h => by simp [h, Spot.Parked] at hparked) hlife

variable (hother : ∀ j, j ≠ i → m'.cpu j = m.cpu j)

include hother

theorem Inv.todo_step (j : ι) : (m'.cpu j).pc.todo <:+ m'.shared.futexQueues := by
  by_cases hji : j = i
  · subst hji
    exact hstep.todo_isSuffix (.of_map _ h.located.waiters_nodup) (h.todo j)
  · rw [hother j hji]
    by_cases htodo : (m.cpu j).pc.todo = []
    · rw [htodo]
      exact nil_suffix
    · rw [hstep.futexQueues_eq fun hi => hji (h.holder_unique (Pc.place_of_todo htodo) hi)]
      exact h.todo j

theorem Inv.copies_step {life' : τ → Life ι} (hlife : ∀ t, Life.Step t (life t) l (life' t))
    (j : ι) : (m'.cpu j).Copies m'.shared.ctx := by
  by_cases hji : j = i
  · subst hji
    exact hstep.copies (h.copies j)
  · rw [hother j hji]
    refine (h.copies j).congr fun t ρ hmem => ?_
    have hspot := (h.located.roles j t ρ).mp hmem
    have hne : ∀ ρ', (life t).spot ≠ .cpu i ρ' := fun ρ' hi =>
      hji (Spot.cpu.inj (hspot.symm.trans hi)).1
    exact h.ctx_eq hstep (hne _) (hne _) (by simp [hspot]) (hlife t)

end Step

variable [DecidableEq ι]

omit [DecidableEq τ] in
theorem comp_cpu_eq_update {α : Type*} (f : Pc τ → α) (hother : ∀ j, j ≠ i → m'.cpu j = m.cpu j) :
    (fun j => f (m'.cpu j).pc) = Function.update (fun j => f (m.cpu j).pc) i (f (m'.cpu i).pc) := by
  funext j
  by_cases hji : j = i
  · subst hji
    rw [update_self]
  · rw [update_of_ne hji, hother j hji]

theorem Inv.step [Fintype ι] (hι : Fintype.card ι < 2 ^ 32) (h : m.Inv life) (hs : m.Step l m') :
    ∃ life', m'.Inv life' ∧ ∀ t, Life.Step t (life t) l (life' t) := by
  obtain ⟨i, hstep, hother⟩ := hs.exists_cpu
  obtain ⟨q, hq⟩ := h.lock
  obtain ⟨life', hlocated, hlife⟩ := h.located.step i
    (hstep.book h.located.waiters_nodup (h.todo i))
    (fun t hl => h.not_queued_of_pick hstep hl) (fun t f hl => h.frame_of_resume hstep hl)
  refine ⟨life', ⟨?_, ?_, h.todo_step hstep hother, h.copies_step hstep hother hlife,
    fun t => h.frame_step hstep (hlife t)⟩, hlife⟩
  · rw [comp_cpu_eq_update Pc.place hother]
    exact hq.move (hq.length_lt hι) hstep.move
  · rw [comp_cpu_eq_update Pc.roles hother]
    exact hlocated

end Machine

end SgxLkl
