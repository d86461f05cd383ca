import SgxLkl.Lib.Lts
import SgxLkl.Sched.Futex
import SgxLkl.Sched.Ticketlock

/-!
# Schedulers that run lthreads (`sched/lthread.c`, `sched/futex.c`)

Any number of schedulers take lthreads from one run queue and switch to them. An lthread computes,
stores to memory, creates lthreads, exits and calls the futex functions; it keeps its scheduler until
it sleeps or exits. A step is one atomic access to what the schedulers share.

The futex lock is taken by a waiting lthread and released by its scheduler: `__do_futex_sleep` yields
with the callback `__do_futex_unlock`, `_switch` saves the registers one by one and goes back to
`_lthread_resume`, which runs the callback.

* `Cpu.Step`: all that a step can do; **`Cpu.step_of_step`**: nothing else happens.

The run queue's operations are single steps, and `_lthread_init` writes the first context of an
lthread when it is created. Joins, the event channels' sleeps and the end of a scheduler are left
out: they do not touch the futex queue.
-/

namespace SgxLkl

open Option Function

variable {τ : Type*}

/-! ## Data -/

/-- The words of `struct cpu_ctx` that `_switch` saves: `rsp`, `rbp`, `rip`, `rbx`, `r12` to `r15`. -/
abbrev CpuCtx := Fin 8 → Word

structure Timespec where
  tvSec : Word
  tvNsec : Word

/-- `_lthread_timespec_to_usec`; both fields are signed. -/
def lthreadTimespecToUsec (ts : Timespec) : Word := ts.tvSec * 1000000 + ts.tvNsec.sdiv 1000

def eAgain : CInt := 11

def eTimedout : CInt := 110

/-- The calls that take `futex_q_lock` with `ticket_lock`. -/
inductive FutexCall
  | timedwait (uaddr : Word) (val : CInt) (timeout : Option Timespec)
  | wake (uaddr : Word) (val : CInt)

/-- Why an lthread switches to its scheduler: with the callback `__do_futex_unlock`, or after it has
set `LT_ST_EXITED`. -/
inductive Yield
  | futexSleep
  | exit

/-- A loop over the futex queue: that of `futex_wake` with its count `w`, or that of `futex_tick`. -/
inductive Sweep (τ : Type*)
  | wake (caller : τ) (futexKey num w : BitVec 32)
  | tick (usecs : Word)

namespace Sweep

def Selects (fq : FutexQ τ) : Sweep τ → Prop
  | .wake _ futexKey num w => fq.futexKey = futexKey ∧ w < num
  | .tick usecs => fq.futexDeadline ≠ 0 ∧ fq.futexDeadline < usecs

instance (fq : FutexQ τ) : DecidablePred (Selects fq)
  | .wake _ futexKey num w => inferInstanceAs (Decidable (fq.futexKey = futexKey ∧ w < num))
  | .tick usecs => inferInstanceAs (Decidable (fq.futexDeadline ≠ 0 ∧ fq.futexDeadline < usecs))

def reason : Sweep τ → CInt
  | .wake .. => futexNone
  | .tick _ => futexExpired

def count : Sweep τ → Sweep τ
  | .wake caller futexKey num w => .wake caller futexKey num (w + 1)
  | .tick usecs => .tick usecs

end Sweep

inductive Pc (τ : Type*)
  | loop
  /-- In `_switch` to `lt`, with `k` registers loaded. -/
  | load (lt : τ) (k : ℕ)
  | run (lt : τ)
  /-- `lt` is at the fetch-and-add of `ticket_lock`. -/
  | take (lt : τ) (c : FutexCall)
  /-- `lt` is at the loop of `ticket_lock`. -/
  | spin (lt : τ) (c : FutexCall) (me : BitVec 32)
  /-- `lt` is in `futex_wait`, before it reads the futex. -/
  | futexWait (lt : τ) (uaddr : Word) (val : CInt) (ts : Option Timespec)
  /-- `lt` is at `__futex_wait_new`. -/
  | waitNew (lt : τ) (uaddr : Word) (ts : Option Timespec)
  /-- `lt` is in `__do_futex_sleep`, before it counts itself. -/
  | sleepers (lt : τ) (ts : Option Timespec)
  /-- `lt` is in `__do_futex_sleep`, before it sets the deadline. -/
  | deadline (lt : τ) (ts : Option Timespec)
  /-- In `_switch` from `lt`, with `k` registers saved. -/
  | save (lt : τ) (y : Yield) (k : ℕ)
  /-- Back in `_lthread_resume`. -/
  | yielded (lt : τ) (y : Yield)
  /-- `lt` is back in `__do_futex_sleep`. -/
  | woke (lt : τ)
  /-- `lt` is at the `ticket_unlock` of `enclave_futex_timedwait`. -/
  | again (lt : τ)
  /-- At the head of a loop over the futex queue; `todo` are the entries from `fq` on. -/
  | sweep (m : Sweep τ) (todo : List (FutexQ τ))
  /-- In the loop, at the `__scheduler_enqueue` of a removed thread. -/
  | ready (m : Sweep τ) (todo : List (FutexQ τ)) (lt : τ)
  /-- At the `ticket_unlock` after the loop. -/
  | swept (m : Sweep τ)
  /-- `lt` is at the `__scheduler_enqueue` of `lthread_create`. -/
  | create (lt new : τ)
  /-- At `ticket_trylock` in `futex_tick`, before it reads `users`. -/
  | tryUsers (usecs : Word)
  /-- At the compare-exchange of `ticket_trylock`. -/
  | tryLock (usecs : Word) (me : BitVec 32)

def Pc.resumed (lt : τ) : Bool → Pc τ
  | true => .woke lt
  | false => .run lt

structure Cpu (τ : Type*) where
  pc : Pc τ
  regs : CpuCtx

/-- What the schedulers share. `mem` are the `int`s in memory; `ctx`, `alive` and `inSleep` belong to
the lthreads: the saved context, whether the lthread exists, and whether the call it returns to is
`__do_futex_sleep`. -/
structure Shared (τ : Type*) extends Futexes τ where
  lock : Ticketlock
  mem : Word → CInt
  nanos : Word
  ctx : τ → CpuCtx
  alive : τ → Bool
  inSleep : τ → Bool

inductive Label (τ : Type*)
  | tau
  | dequeue (lt : τ)
  /-- `lt` runs again, with these registers. -/
  | resume (lt : τ) (regs : CpuCtx)
  /-- `lt` read the value it expects, and will sleep. -/
  | readEq (lt : τ) (uaddr : Word) (val : CInt)
  /-- `lt` was put in the futex queue. -/
  | insert (lt : τ)
  /-- The context of `lt` was saved; these are the registers with which it called `_switch`. -/
  | saved (lt : τ) (regs : CpuCtx)
  | pick (lt : τ)
  | enqueue (lt : τ)
  /-- `lt` was created with this context. -/
  | create (lt : τ) (ctx : CpuCtx)
  | free (lt : τ)
  | store (lt : τ) (uaddr : Word) (val : CInt)
  | wakeCall (lt : τ) (uaddr : Word) (val : CInt)
  | wakeRet (lt : τ) (rc : CInt)
  | waitRet (lt : τ) (rc : CInt)
  deriving DecidableEq

/-- The thread that changes its place in a step. -/
def Label.moves : Label τ → Option τ
  | .dequeue lt | .resume lt _ | .readEq lt _ _ | .insert lt | .saved lt _ | .pick lt
  | .enqueue lt | .create lt _ | .free lt => some lt
  | .tau | .store .. | .wakeCall .. | .wakeRet .. | .waitRet .. => none

inductive Act (τ : Type*)
  | go
  | tick
  | clock (nanos : Word)
  | compute (regs : CpuCtx)
  | store (uaddr : Word) (val : CInt)
  | call (c : FutexCall)
  | create (new : τ) (ctx : CpuCtx)
  | exit

/-! ## Steps of one scheduler -/

variable [DecidableEq τ]

/-- `fq->futex_deadline = deadline` for the entry of `lt`. -/
def Futexes.setDeadline (lt : τ) (deadline : Word) (s : Futexes τ) : Futexes τ :=
  { s with
    futexQueues := s.futexQueues.map fun fq =>
      if fq.futexLt = lt then { fq with futexDeadline := deadline } else fq }

@[simp] theorem Futexes.schedulerQueue_setDeadline (lt : τ) (d : Word) (s : Futexes τ) :
    (s.setDeadline lt d).schedulerQueue = s.schedulerQueue := rfl

namespace Cpu

variable (c : Cpu τ) (s : Shared τ)

def goto (pc : Pc τ) : Cpu τ := { c with pc := pc }

def enter (lt : τ) (queues : List (FutexQ τ)) : FutexCall → Pc τ
  | .timedwait uaddr val ts => .futexWait lt uaddr val ts
  | .wake uaddr val => .sweep (.wake lt (toFutexKey uaddr) val 0) queues

def code : Option (Label τ × Cpu τ × Shared τ) :=
  match c.pc with
  | .loop =>
    match s.schedulerQueue with
    | [] => some (.tau, c, s)
    | lt :: q => some (.dequeue lt, c.goto (.load lt 0), { s with schedulerQueue := q })
  | .load lt k =>
    if hk : k < 8 then
      some (.tau, ⟨.load lt (k + 1), update c.regs ⟨k, hk⟩ (s.ctx lt ⟨k, hk⟩)⟩, s)
    else
      some (.resume lt c.regs, c.goto (.resumed lt (s.inSleep lt)), s)
  | .run _ => none
  | .take lt call =>
    some (.tau, c.goto (.spin lt call (takeTicket s.lock).1),
      { s with lock := (takeTicket s.lock).2 })
  | .spin lt call me =>
    if s.lock.ticket = me then some (.tau, c.goto (enter lt s.futexQueues call), s)
    else some (.tau, c, s)
  | .futexWait lt uaddr val ts =>
    if s.mem uaddr = val then some (.readEq lt uaddr val, c.goto (.waitNew lt uaddr ts), s)
    else some (.tau, c.goto (.again lt), s)
  | .again lt =>
    some (.waitRet lt (-eAgain), c.goto (.run lt), { s with lock := ticketUnlock s.lock })
  | .waitNew lt uaddr ts =>
    some (.insert lt, c.goto (.sleepers lt ts),
      { s with toFutexes := s.futexWaitNew (toFutexKey uaddr) lt })
  | .sleepers lt ts =>
    some (.tau, c.goto (.deadline lt ts), { s with futexSleepers := s.futexSleepers + 1 })
  | .deadline lt ts =>
    some (.tau, c.goto (.save lt .futexSleep 0),
      { s with
        toFutexes := match ts with
          | none => s.toFutexes
          | some ts => s.setDeadline lt (s.nanos / 1000 + lthreadTimespecToUsec ts)
        inSleep := update s.inSleep lt true })
  | .save lt y k =>
    if hk : k < 8 then
      some (.tau, c.goto (.save lt y (k + 1)),
        { s with
          ctx := update s.ctx lt (update (s.ctx lt) ⟨k, hk⟩ (c.regs ⟨k, hk⟩)) })
    else
      match y with
      | .futexSleep => some (.saved lt c.regs, c.goto (.yielded lt y), s)
      | .exit => some (.tau, c.goto (.yielded lt y), s)
  | .yielded _ .futexSleep => some (.tau, c.goto .loop, { s with lock := ticketUnlock s.lock })
  | .yielded lt .exit =>
    some (.free lt, c.goto .loop, { s with alive := update s.alive lt false })
  | .woke lt =>
    some (.waitRet lt (if s.err lt = futexExpired then -eTimedout else 0), c.goto (.run lt),
      { s with inSleep := update s.inSleep lt false })
  | .sweep m [] => some (.tau, c.goto (.swept m), s)
  | .sweep m (fq :: tmp) =>
    if m.Selects fq then
      some (.pick fq.futexLt, c.goto (.ready m.count tmp fq.futexLt),
        { s with toFutexes := s.unlink fq m.reason })
    else
      some (.tau, c.goto (.sweep m tmp), s)
  | .ready m todo lt =>
    some (.enqueue lt, c.goto (.sweep m todo), { s with toFutexes := s.schedulerEnqueue lt })
  | .swept (.wake lt _ _ w) =>
    some (.wakeRet lt w, c.goto (.run lt), { s with lock := ticketUnlock s.lock })
  | .swept (.tick _) => some (.tau, c.goto .loop, { s with lock := ticketUnlock s.lock })
  | .create lt new =>
    some (.enqueue new, c.goto (.run lt), { s with toFutexes := s.schedulerEnqueue new })
  | .tryUsers usecs => some (.tau, c.goto (.tryLock usecs s.lock.users), s)
  | .tryLock usecs me =>
    match ticketTrylock me s.lock with
    | none => some (.tau, c.goto .loop, s)
    | some l => some (.tau, c.goto (.sweep (.tick usecs) s.futexQueues), { s with lock := l })

def callLabel (lt : τ) : FutexCall → Label τ
  | .timedwait .. => .tau
  | .wake uaddr val => .wakeCall lt uaddr val

/-- A step: an access of the code, or a choice where the code leaves one. -/
def step : Act τ → Option (Label τ × Cpu τ × Shared τ)
  | .go => c.code s
  | .clock nanos => some (.tau, c, { s with nanos := nanos })
  | .tick =>
    match c.pc with
    | .loop =>
      if s.futexSleepers = 0 then some (.tau, c, s)
      else some (.tau, c.goto (.tryUsers (s.nanos / 1000)), s)
    | _ => none
  | .compute regs =>
    match c.pc with
    | .run _ => some (.tau, { c with regs := regs }, s)
    | _ => none
  | .store uaddr val =>
    match c.pc with
    | .run lt => some (.store lt uaddr val, c, { s with mem := update s.mem uaddr val })
    | _ => none
  | .call call =>
    match c.pc with
    | .run lt => some (callLabel lt call, c.goto (.take lt call), s)
    | _ => none
  | .create new ctx =>
    match c.pc with
    | .run lt =>
      if s.alive new then none
      else
        some (.create new ctx, c.goto (.create lt new),
          { s with
            ctx := update s.ctx new ctx
            alive := update s.alive new true
            inSleep := update s.inSleep new false })
    | _ => none
  | .exit =>
    match c.pc with
    | .run lt => some (.tau, c.goto (.save lt .exit 0), s)
    | _ => none

end Cpu

/-! ## All that a step can do -/

/-- The steps of a scheduler with registers `r`, one constructor for each kind of access. -/
inductive Cpu.Step (s : Shared τ) (r : CpuCtx) : Pc τ → Label τ → Cpu τ → Shared τ → Prop
  | stay (pc : Pc τ) : Step s r pc .tau ⟨pc, r⟩ s
  | clock (pc : Pc τ) (nanos : Word) : Step s r pc .tau ⟨pc, r⟩ { s with nanos := nanos }
  | dequeue {lt : τ} {q : List τ} (hq : s.schedulerQueue = lt :: q) :
      Step s r .loop (.dequeue lt) ⟨.load lt 0, r⟩ { s with schedulerQueue := q }
  | load {lt : τ} {k : ℕ} (hk : k < 8) :
      Step s r (.load lt k) .tau
        ⟨.load lt (k + 1), update r ⟨k, hk⟩ (s.ctx lt ⟨k, hk⟩)⟩ s
  | resume {lt : τ} {k : ℕ} (hk : ¬ k < 8) :
      Step s r (.load lt k) (.resume lt r) ⟨.resumed lt (s.inSleep lt), r⟩ s
  | take {lt : τ} {call : FutexCall} :
      Step s r (.take lt call) .tau ⟨.spin lt call s.lock.users, r⟩
        { s with lock := { s.lock with users := s.lock.users + 1 } }
  | enterWait {lt : τ} {uaddr : Word} {val : CInt} {ts : Option Timespec} :
      Step s r (.spin lt (.timedwait uaddr val ts) s.lock.ticket) .tau
        ⟨.futexWait lt uaddr val ts, r⟩ s
  | enterWake {lt : τ} {uaddr : Word} {val : CInt} :
      Step s r (.spin lt (.wake uaddr val) s.lock.ticket) .tau
        ⟨.sweep (.wake lt (toFutexKey uaddr) val 0) s.futexQueues, r⟩ s
  | readEq {lt : τ} {uaddr : Word} {ts : Option Timespec} :
      Step s r (.futexWait lt uaddr (s.mem uaddr) ts) (.readEq lt uaddr (s.mem uaddr))
        ⟨.waitNew lt uaddr ts, r⟩ s
  | readNe {lt : τ} {uaddr : Word} {val : CInt} {ts : Option Timespec} (h : s.mem uaddr ≠ val) :
      Step s r (.futexWait lt uaddr val ts) .tau ⟨.again lt, r⟩ s
  | again {lt : τ} :
      Step s r (.again lt) (.waitRet lt (-eAgain)) ⟨.run lt, r⟩
        { s with lock := { s.lock with ticket := s.lock.ticket + 1 } }
  | waitNew {lt : τ} {uaddr : Word} {ts : Option Timespec} :
      Step s r (.waitNew lt uaddr ts) (.insert lt) ⟨.sleepers lt ts, r⟩
        { s with toFutexes := s.futexWaitNew (toFutexKey uaddr) lt }
  | sleepers {lt : τ} {ts : Option Timespec} :
      Step s r (.sleepers lt ts) .tau ⟨.deadline lt ts, r⟩
        { s with futexSleepers := s.futexSleepers + 1 }
  | noDeadline {lt : τ} :
      Step s r (.deadline lt none) .tau ⟨.save lt .futexSleep 0, r⟩
        { s with inSleep := update s.inSleep lt true }
  | deadline {lt : τ} {ts : Timespec} :
      Step s r (.deadline lt (some ts)) .tau ⟨.save lt .futexSleep 0, r⟩
        { s with
          toFutexes := s.setDeadline lt (s.nanos / 1000 + lthreadTimespecToUsec ts)
          inSleep := update s.inSleep lt true }
  | save {lt : τ} {y : Yield} {k : ℕ} (hk : k < 8) :
      Step s r (.save lt y k) .tau ⟨.save lt y (k + 1), r⟩
        { s with
          ctx := update s.ctx lt (update (s.ctx lt) ⟨k, hk⟩ (r ⟨k, hk⟩)) }
  | saved {lt : τ} {k : ℕ} (hk : ¬ k < 8) :
      Step s r (.save lt .futexSleep k) (.saved lt r) ⟨.yielded lt .futexSleep, r⟩ s
  | exited {lt : τ} {k : ℕ} (hk : ¬ k < 8) :
      Step s r (.save lt .exit k) .tau ⟨.yielded lt .exit, r⟩ s
  | unlock {lt : τ} :
      Step s r (.yielded lt .futexSleep) .tau ⟨.loop, r⟩
        { s with lock := { s.lock with ticket := s.lock.ticket + 1 } }
  | free {lt : τ} :
      Step s r (.yielded lt .exit) (.free lt) ⟨.loop, r⟩
        { s with alive := update s.alive lt false }
  | woke {lt : τ} {rc : CInt} :
      Step s r (.woke lt) (.waitRet lt rc) ⟨.run lt, r⟩
        { s with inSleep := update s.inSleep lt false }
  | sweepEnd {m : Sweep τ} : Step s r (.sweep m []) .tau ⟨.swept m, r⟩ s
  | pick {m : Sweep τ} {fq : FutexQ τ} {tmp : List (FutexQ τ)} (h : m.Selects fq) :
      Step s r (.sweep m (fq :: tmp)) (.pick fq.futexLt) ⟨.ready m.count tmp fq.futexLt, r⟩
        { s with toFutexes := s.unlink fq m.reason }
  | skip {m : Sweep τ} {fq : FutexQ τ} {tmp : List (FutexQ τ)} (h : ¬ m.Selects fq) :
      Step s r (.sweep m (fq :: tmp)) .tau ⟨.sweep m tmp, r⟩ s
  | ready {m : Sweep τ} {todo : List (FutexQ τ)} {lt : τ} :
      Step s r (.ready m todo lt) (.enqueue lt) ⟨.sweep m todo, r⟩
        { s with toFutexes := s.schedulerEnqueue lt }
  | wakeRet {lt : τ} {key num w : BitVec 32} :
      Step s r (.swept (.wake lt key num w)) (.wakeRet lt w) ⟨.run lt, r⟩
        { s with lock := { s.lock with ticket := s.lock.ticket + 1 } }
  | ticked {usecs : Word} :
      Step s r (.swept (.tick usecs)) .tau ⟨.loop, r⟩
        { s with lock := { s.lock with ticket := s.lock.ticket + 1 } }
  | tick {usecs : Word} : Step s r .loop .tau ⟨.tryUsers usecs, r⟩ s
  | tryUsers {usecs : Word} :
      Step s r (.tryUsers usecs) .tau ⟨.tryLock usecs s.lock.users, r⟩ s
  | tryFail {usecs : Word} {me : BitVec 32} : Step s r (.tryLock usecs me) .tau ⟨.loop, r⟩ s
  | tryLock {usecs : Word} {me : BitVec 32} {l : Ticketlock}
      (h : ticketTrylock me s.lock = some l) :
      Step s r (.tryLock usecs me) .tau ⟨.sweep (.tick usecs) s.futexQueues, r⟩ { s with lock := l }
  | compute {lt : τ} (r' : CpuCtx) : Step s r (.run lt) .tau ⟨.run lt, r'⟩ s
  | store {lt : τ} (uaddr : Word) (val : CInt) :
      Step s r (.run lt) (.store lt uaddr val) ⟨.run lt, r⟩
        { s with mem := update s.mem uaddr val }
  | waitCall {lt : τ} (uaddr : Word) (val : CInt) (ts : Option Timespec) :
      Step s r (.run lt) .tau ⟨.take lt (.timedwait uaddr val ts), r⟩ s
  | wakeCall {lt : τ} (uaddr : Word) (val : CInt) :
      Step s r (.run lt) (.wakeCall lt uaddr val) ⟨.take lt (.wake uaddr val), r⟩ s
  | create {lt new : τ} (ctx : CpuCtx) (h : s.alive new = false) :
      Step s r (.run lt) (.create new ctx) ⟨.create lt new, r⟩
        { s with
          ctx := update s.ctx new ctx
          alive := update s.alive new true
          inSleep := update s.inSleep new false }
  | created {lt new : τ} :
      Step s r (.create lt new) (.enqueue new) ⟨.run lt, r⟩
        { s with toFutexes := s.schedulerEnqueue new }
  | exit {lt : τ} : Step s r (.run lt) .tau ⟨.save lt .exit 0, r⟩ s

variable {c c' : Cpu τ} {s s' : Shared τ} {a : Act τ} {l : Label τ}

theorem Cpu.step_of_code (h : c.code s = some (l, c', s')) : Step s c.regs c.pc l c' s' := by
  obtain ⟨pc, r⟩ := c
  revert h
  fun_cases Cpu.code ⟨pc, r⟩ s <;> simp only [some.injEq, Prod.mk.injEq, reduceCtorEq,
    false_imp_iff, and_imp] <;> rintro rfl rfl rfl <;> subst_vars
  case case7 call => cases call <;> constructor
  case case14 ts => cases ts <;> constructor
  all_goals (constructor <;> assumption)

/-- **Inversion.** Every step is one of these. -/
theorem Cpu.step_of_step (h : c.step s a = some (l, c', s')) : Step s c.regs c.pc l c' s' := by
  cases a with
  | go => exact step_of_code h
  | clock nanos =>
    simp only [step, some.injEq, Prod.mk.injEq] at h
    obtain ⟨rfl, rfl, rfl⟩ := h
    exact .clock _ nanos
  | call call =>
    obtain ⟨pc, r⟩ := c
    cases pc <;> simp only [step, reduceCtorEq, some.injEq, Prod.mk.injEq] at h
    obtain ⟨rfl, rfl, rfl⟩ := h
    cases call <;> constructor
  | _ =>
    obtain ⟨pc, r⟩ := c
    cases pc <;> simp only [step, reduceCtorEq] at h
    try split_ifs at h with hif
    all_goals
      simp only [some.injEq, Prod.mk.injEq] at h
      obtain ⟨rfl, rfl, rfl⟩ := h
      constructor <;> simp_all

/-! ## All schedulers -/

structure Machine (ι τ : Type*) where
  cpu : ι → Cpu τ
  shared : Shared τ

namespace Machine

variable {ι : Type*} [DecidableEq ι]

def set (m : Machine ι τ) (i : ι) (c : Cpu τ) (s : Shared τ) : Machine ι τ :=
  ⟨update m.cpu i c, s⟩

section

omit [DecidableEq τ]

@[simp] theorem cpu_set_self (m : Machine ι τ) (i : ι) (c : Cpu τ) (s : Shared τ) : (m.set i c s).cpu i = c :=
  update_self ..

theorem cpu_set_of_ne (m : Machine ι τ) {i j : ι} (c : Cpu τ) (s : Shared τ) (h : j ≠ i) :
    (m.set i c s).cpu j = m.cpu j :=
  update_of_ne h ..

@[simp] theorem shared_set (m : Machine ι τ) (i : ι) (c : Cpu τ) (s : Shared τ) : (m.set i c s).shared = s := rfl

end

def step (m : Machine ι τ) (i : ι) (a : Act τ) : Option (Label τ × Machine ι τ) :=
  ((m.cpu i).step m.shared a).map fun (l, c, s) => (l, m.set i c s)

def Step (m : Machine ι τ) (l : Label τ) (m' : Machine ι τ) : Prop :=
  ∃ i a, m.step i a = some (l, m')

variable {m m' : Machine ι τ}

theorem Step.exists_cpu (h : m.Step l m') :
    ∃ i, Cpu.Step m.shared (m.cpu i).regs (m.cpu i).pc l (m'.cpu i) m'.shared ∧
      ∀ j, j ≠ i → m'.cpu j = m.cpu j := by
  obtain ⟨i, a, h⟩ := h
  obtain ⟨⟨l', c, s⟩, hstep, hm⟩ := map_eq_some_iff.mp h
  obtain ⟨rfl, rfl⟩ := Prod.mk.inj hm
  refine ⟨i, ?_, fun j hji => m.cpu_set_of_ne c s hji⟩
  simpa using Cpu.step_of_step hstep

/-- The run with a schedule. -/
def exec : List (ι × Act τ) → Machine ι τ → Option (List (Label τ) × Machine ι τ) :=
  execute fun ia m => m.step ia.1 ia.2

theorem run_of_exec {as : List (ι × Act τ)} {ls : List (Label τ)}
    (h : exec as m = some (ls, m')) : Run Step m ls m' :=
  (run_of_execute h).mono fun _ _ _ ⟨ia, h⟩ => ⟨ia.1, ia.2, h⟩

/-- The start: every scheduler is in its loop, the futex queue is empty and the lock free. The
lthreads that exist are in the run queue. -/
structure Init (m : Machine ι τ) : Prop where
  loop : ∀ i, (m.cpu i).pc = .loop
  queues : m.shared.futexQueues = []
  free : m.shared.lock.users = m.shared.lock.ticket
  nodup : m.shared.schedulerQueue.Nodup
  alive : ∀ t, m.shared.alive t = true ↔ t ∈ m.shared.schedulerQueue

end Machine

end SgxLkl
