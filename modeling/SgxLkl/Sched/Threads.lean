import SgxLkl.Sched.Machine

/-!
# Where every lthread is

The place of a scheduler in its code says which lthreads it has in its hands (`Pc.roles`), how it
stands to the futex lock (`Pc.place`), and which entries its loop over the futex queue has not
visited (`Pc.todo`).

* `Book`, `Book.Step`: who is where, for one scheduler, and what a label does to it;
  **`Cpu.Step.book`**: the code keeps such a book.
* **`Located.step`**: a step of a book is a step in the life of one lthread.
-/

namespace SgxLkl

open TicketLock List Function

variable {τ : Type*}

/-! ## What a place in the code says -/

/-- What a scheduler does with an lthread. -/
inductive Role
  /-- It loads its registers. -/
  | loading
  | running
  /-- It runs it, and the lthread will sleep. -/
  | committed
  /-- It runs it or saves its registers, and the lthread is in the futex queue. -/
  | queued
  /-- It has taken it from the futex queue. -/
  | held
  | born
  deriving DecidableEq

/-- The lthread that calls the loop. -/
def Sweep.roles : Sweep τ → List (τ × Role)
  | .wake caller .. => [(caller, .running)]
  | .tick _ => []

@[simp] theorem Sweep.roles_count (m : Sweep τ) : m.count.roles = m.roles := by cases m <;> rfl

namespace Pc

/-- The lthreads a scheduler has in its hands. -/
def roles : Pc τ → List (τ × Role)
  | .load lt _ => [(lt, .loading)]
  | .run lt | .take lt _ | .spin lt _ _ | .futexWait lt _ _ _ | .again lt | .woke lt
  | .save lt .exit _ | .yielded lt .exit => [(lt, .running)]
  | .waitNew lt _ _ => [(lt, .committed)]
  | .sleepers lt _ | .deadline lt _ | .save lt .futexSleep _ => [(lt, .queued)]
  | .sweep m _ | .swept m => m.roles
  | .ready m _ lt => (lt, .held) :: m.roles
  | .create lt new => [(new, .born), (lt, .running)]
  | .loop | .yielded _ .futexSleep | .tryUsers _ | .tryLock _ _ => []

/-- Where a scheduler is with respect to the futex lock. -/
def place : Pc τ → Place 32
  | .spin _ _ me => .waiting me
  | .futexWait .. | .waitNew .. | .sleepers .. | .deadline .. | .save _ .futexSleep _
  | .yielded _ .futexSleep | .again _ | .sweep .. | .ready .. | .swept _ => .holding
  | .loop | .load .. | .run _ | .take .. | .save _ .exit _ | .yielded _ .exit | .woke _
  | .create .. | .tryUsers _ | .tryLock .. => .out

/-- The entries a loop over the futex queue has not visited. -/
def todo : Pc τ → List (FutexQ τ)
  | .sweep _ todo | .ready _ todo _ => todo
  | _ => []

@[simp] theorem roles_resumed (lt : τ) (b : Bool) : (resumed lt b).roles = [(lt, .running)] := by
  cases b <;> rfl

@[simp] theorem place_resumed (lt : τ) (b : Bool) : (resumed lt b).place = .out := by
  cases b <;> rfl

@[simp] theorem todo_resumed (lt : τ) (b : Bool) : (resumed lt b).todo = [] := by
  cases b <;> rfl

theorem place_of_todo {pc : Pc τ} (h : pc.todo ≠ []) : pc.place = .holding := by
  cases pc <;> first | rfl | exact absurd rfl h

theorem place_of_roles {pc : Pc τ} {t : τ} {ρ : Role} (h : (t, ρ) ∈ pc.roles)
    (hρ : ρ = .committed ∨ ρ = .queued ∨ ρ = .held) : pc.place = .holding := by
  cases pc with
  | save lt y k => cases y <;> simp_all [roles, place]
  | yielded lt y => cases y <;> simp_all [roles, place]
  | create lt new => rcases hρ with rfl | rfl | rfl <;> simp [roles] at h
  | _ => simp_all [roles, place]

end Pc

variable [DecidableEq τ] {s s' : Shared τ} {r : CpuCtx} {pc : Pc τ} {l : Label τ} {c' : Cpu τ}

theorem Cpu.Step.move (h : Cpu.Step s r pc l c' s') : Move s.lock pc.place s'.lock c'.pc.place := by
  cases h with
  | take => exact .take _
  | enterWait => exact .enter _
  | enterWake => exact .enter _
  | again => exact .leave _
  | unlock => exact .leave _
  | wakeRet => exact .leave _
  | ticked => exact .leave _
  | tryLock h => exact move_ticketTrylock h
  | @save lt y => cases y <;> exact .stay _ _
  | resume => exact (Pc.place_resumed ..) ▸ .stay _ _
  | _ => exact .stay _ _

/-! ## The books -/

/-- Who is where: the lthreads in the hands of one scheduler, in the run queue and in the futex
queue, and those that exist. -/
structure Book (τ : Type*) where
  roles : List (τ × Role)
  ready : List τ
  waiters : List τ
  alive : τ → Bool

def Pc.book (pc : Pc τ) (s : Shared τ) : Book τ :=
  ⟨pc.roles, s.schedulerQueue, s.futexQueues.map (·.futexLt), s.alive⟩

/-- What a step with label `l` does to the book. -/
inductive Book.Step (b : Book τ) : Label τ → Book τ → Prop
  | quiet {l : Label τ} (h : l.moves = none) : Step b l b
  | dequeue {t : τ} {q : List τ} (hr : b.roles = []) (hq : b.ready = t :: q) :
      Step b (.dequeue t) { b with roles := [(t, .loading)], ready := q }
  | resume {t : τ} {r : CpuCtx} (hr : b.roles = [(t, .loading)]) :
      Step b (.resume t r) { b with roles := [(t, .running)] }
  | readEq {t : τ} {uaddr : Word} {val : CInt} (hr : b.roles = [(t, .running)]) :
      Step b (.readEq t uaddr val) { b with roles := [(t, .committed)] }
  | insert {t : τ} (hr : b.roles = [(t, .committed)]) :
      Step b (.insert t) { b with roles := [(t, .queued)], waiters := t :: b.waiters }
  | saved {t : τ} {r : CpuCtx} (hr : b.roles = [(t, .queued)]) :
      Step b (.saved t r) { b with roles := [] }
  | pick {t : τ} (ht : t ∈ b.waiters) :
      Step b (.pick t) { b with roles := (t, .held) :: b.roles, waiters := b.waiters.erase t }
  | enqueue {t : τ} {ρ : Role} {R : List (τ × Role)} (hr : b.roles = (t, ρ) :: R)
      (hρ : ρ = .held ∨ ρ = .born) (hR : ∀ x ∈ R, x.2 = .running) :
      Step b (.enqueue t) { b with roles := R, ready := b.ready ++ [t] }
  | create {t : τ} {ctx : CpuCtx} (ht : b.alive t = false) :
      Step b (.create t ctx)
        { b with roles := (t, .born) :: b.roles, alive := update b.alive t true }
  | free {t : τ} (hr : b.roles = [(t, .running)]) :
      Step b (.free t) { b with roles := [], alive := update b.alive t false }

theorem map_futexLt_erase {q : List (FutexQ τ)} (hq : (q.map (·.futexLt)).Nodup) {fq : FutexQ τ}
    (hfq : fq ∈ q) : (q.erase fq).map (·.futexLt) = (q.map (·.futexLt)).erase fq.futexLt := by
  induction q with
  | nil => simp at hfq
  | cons e q ih =>
    obtain ⟨hnot, hq⟩ := nodup_cons.mp hq
    by_cases he : e = fq
    · simp [he]
    · have hmem : fq ∈ q := (mem_cons.mp hfq).resolve_left (Ne.symm he)
      have hlt : e.futexLt ≠ fq.futexLt := fun heq =>
        hnot (mem_map.mpr ⟨fq, hmem, heq.symm⟩)
      simp [erase_cons_tail, he, hlt, ih hq hmem]

theorem map_futexLt_setDeadline (lt : τ) (d : Word) (s : Futexes τ) :
    (s.setDeadline lt d).futexQueues.map (·.futexLt) = s.futexQueues.map (·.futexLt) := by
  simp only [Futexes.setDeadline, map_map]
  refine map_congr_left fun fq _ => ?_
  simp only [comp_apply]
  split_ifs <;> rfl

/-- **A step of a scheduler is a step of its book.** -/
theorem Cpu.Step.book (h : Cpu.Step s r pc l c' s')
    (hq : (s.futexQueues.map (·.futexLt)).Nodup) (htodo : pc.todo <:+ s.futexQueues) :
    (pc.book s).Step l (c'.pc.book s') := by
  cases h with
  | dequeue h => exact .dequeue rfl h
  | @resume lt k hk =>
    have := Book.Step.resume (b := (Pc.load lt k).book s) (t := lt) (r := r) rfl
    simpa only [Pc.book, Pc.roles_resumed] using this
  | readEq => exact .readEq rfl
  | waitNew => exact .insert rfl
  | saved => exact .saved rfl
  | @pick m fq tmp h =>
    have hfq : fq ∈ s.futexQueues := htodo.mem mem_cons_self
    have := Book.Step.pick (b := (Pc.sweep m (fq :: tmp)).book s) (t := fq.futexLt)
      (mem_map_of_mem hfq)
    simpa only [Pc.book, Pc.roles, Sweep.roles_count, Futexes.unlink, map_futexLt_erase hq hfq]
      using this
  | @ready m => exact .enqueue rfl (.inl rfl) (by cases m <;> simp [Pc.roles, Sweep.roles])
  | created => exact .enqueue rfl (.inr rfl) (by simp [Pc.roles])
  | create ctx h => exact .create h
  | free => exact .free rfl
  | @save lt y => cases y <;> exact .quiet rfl
  | @deadline lt ts =>
    have := Book.Step.quiet (b := (Pc.deadline lt (some ts)).book s) (l := .tau) rfl
    simpa only [Pc.book, Pc.roles, map_futexLt_setDeadline, Futexes.schedulerQueue_setDeadline] using this
  | _ => exact .quiet rfl

/-! ## The life of an lthread -/

variable {ι : Type*}

inductive Spot (ι : Type*)
  | absent
  | cpu (i : ι) (ρ : Role)
  | asleep
  | ready

/-- Where an lthread is, and the registers with which it left its last scheduler. -/
structure Life (ι : Type*) where
  spot : Spot ι
  frame : CpuCtx

/-- **The life of `t`**, one event after the other. -/
inductive Life.Step (t : τ) (x : Life ι) : Label τ → Life ι → Prop
  | other {l : Label τ} (h : l.moves ≠ some t) : Step t x l x
  | create (i : ι) (r : CpuCtx) (h : x.spot = .absent) : Step t x (.create t r) ⟨.cpu i .born, r⟩
  | enqueue {i : ι} {ρ : Role} (h : x.spot = .cpu i ρ) (hρ : ρ = .held ∨ ρ = .born) :
      Step t x (.enqueue t) ⟨.ready, x.frame⟩
  | dequeue (i : ι) (h : x.spot = .ready) : Step t x (.dequeue t) ⟨.cpu i .loading, x.frame⟩
  | resume {i : ι} (h : x.spot = .cpu i .loading) :
      Step t x (.resume t x.frame) ⟨.cpu i .running, x.frame⟩
  | readEq {i : ι} (uaddr : Word) (val : CInt) (h : x.spot = .cpu i .running) :
      Step t x (.readEq t uaddr val) ⟨.cpu i .committed, x.frame⟩
  | insert {i : ι} (h : x.spot = .cpu i .committed) :
      Step t x (.insert t) ⟨.cpu i .queued, x.frame⟩
  | saved {i : ι} (r : CpuCtx) (h : x.spot = .cpu i .queued) : Step t x (.saved t r) ⟨.asleep, r⟩
  | pick (i : ι) (h : x.spot = .asleep) : Step t x (.pick t) ⟨.cpu i .held, x.frame⟩
  | free {i : ι} (h : x.spot = .cpu i .running) : Step t x (.free t) ⟨.absent, x.frame⟩

/-- The books of the schedulers agree with the lives of the lthreads. -/
structure Located (roles : ι → List (τ × Role)) (ready waiters : List τ) (alive : τ → Bool)
    (life : τ → Life ι) : Prop where
  roles : ∀ i t ρ, (t, ρ) ∈ roles i ↔ (life t).spot = .cpu i ρ
  ready_nodup : ready.Nodup
  ready : ∀ t, t ∈ ready ↔ (life t).spot = .ready
  waiters_nodup : waiters.Nodup
  waiters : ∀ t, t ∈ waiters ↔ (life t).spot = .asleep ∨ ∃ i, (life t).spot = .cpu i .queued
  alive : ∀ t, alive t = true ↔ (life t).spot ≠ .absent

theorem Life.Step.update {life : τ → Life ι} {t : τ} {x : Life ι} (hl : l.moves = some t)
    (h : Life.Step t (life t) l x) (u : τ) : Life.Step u (life u) l (update life t x u) := by
  by_cases hu : u = t
  · subst hu
    rwa [update_self]
  · rw [update_of_ne hu]
    exact .other (by simpa [hl] using Ne.symm hu)

theorem Located.step [DecidableEq ι] {roles : ι → List (τ × Role)} {ready waiters : List τ}
    {alive : τ → Bool} {life : τ → Life ι} {b : Book τ} (i : ι) (h : Located roles ready waiters alive life)
    (hstep : Book.Step ⟨roles i, ready, waiters, alive⟩ l b)
    (hpick : ∀ t, l = .pick t → ∀ j, (life t).spot ≠ .cpu j .queued)
    (hresume : ∀ t f, l = .resume t f → (life t).frame = f) :
    ∃ life', Located (update roles i b.roles) b.ready b.waiters b.alive life' ∧
      ∀ t, Life.Step t (life t) l (life' t) := by
  generalize hb : (⟨roles i, ready, waiters, alive⟩ : Book τ) = b₀ at hstep
  obtain ⟨hroles, hrn, hready, hwn, hwait, halive⟩ := h
  have hmem : ∀ t ρ R, roles i = (t, ρ) :: R → (life t).spot = .cpu i ρ :=
    fun t ρ R h => (hroles i t ρ).mp (h ▸ mem_cons_self)
  -- in each case: where `t` is, from the book; then the entries of `t`, and no others, change
  cases hstep with
  | quiet hl =>
    subst hb
    exact ⟨life, by simpa using ⟨hroles, hrn, hready, hwn, hwait, halive⟩, fun t => .other (by simp [hl])⟩
  | @dequeue t q hr hq =>
    subst hb
    have ht : (life t).spot = .ready := by grind
    exact ⟨_, by constructor <;> grind, .update rfl (.dequeue i ht)⟩
  | @resume t f hr =>
    subst hb
    have ht : (life t).spot = .cpu i .loading := hmem t _ _ hr
    obtain rfl := hresume t f rfl
    exact ⟨_, by constructor <;> grind, .update rfl (.resume ht)⟩
  | @readEq t uaddr val hr =>
    subst hb
    have ht : (life t).spot = .cpu i .running := hmem t _ _ hr
    exact ⟨_, by constructor <;> grind, .update rfl (.readEq uaddr val ht)⟩
  | @insert t hr =>
    subst hb
    have ht : (life t).spot = .cpu i .committed := hmem t _ _ hr
    exact ⟨_, by constructor <;> grind, .update rfl (.insert ht)⟩
  | @saved t r hr =>
    subst hb
    have ht : (life t).spot = .cpu i .queued := hmem t _ _ hr
    exact ⟨_, by constructor <;> grind, .update rfl (.saved r ht)⟩
  | @pick t hw =>
    subst hb
    have ht : (life t).spot = .asleep := by grind
    exact ⟨_, by constructor <;> grind, .update rfl (.pick i ht)⟩
  | @enqueue t ρ R hr hρ hR =>
    subst hb
    have ht : (life t).spot = .cpu i ρ := hmem t _ _ hr
    exact ⟨_, by constructor <;> grind, .update rfl (.enqueue ht hρ)⟩
  | @create t r ha =>
    subst hb
    have ht : (life t).spot = .absent := by grind
    exact ⟨_, by constructor <;> grind, .update rfl (.create i r ht)⟩
  | @free t hr =>
    subst hb
    have ht : (life t).spot = .cpu i .running := hmem t _ _ hr
    exact ⟨_, by constructor <;> grind, .update rfl (.free ht)⟩

end SgxLkl
