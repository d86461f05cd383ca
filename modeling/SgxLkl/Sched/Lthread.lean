import SgxLkl.Sched.Machine

/-!
# The life of an lthread (`sched/lthread.c`)

Schedulers take lthreads from the run queue. An lthread may create others, sleep, detach, join another one, exit, and
end the schedulers. Joins and exits meet in the bit `LT_ST_BUSY` and in the field `lt_join`: a joiner takes the lock of
the lthread and registers, and its scheduler releases the lock after the joiner has switched to it.

* `Pc.Step`: all that a step can do; **`Pc.step_of_step`**: nothing else happens.

The memory of an lthread that was freed keeps its contents until it is given to a new lthread. `Fresh` is about the runs
in which that does not happen, and `Pc.Step` is about the steps of such runs. An lthread that sleeps for another reason
than a join is woken by somebody, once; `asleep` says that it has been handed over to those who may do so.
-/

namespace SgxLkl.Lthreads

open Option Function

variable {ι τ : Type*}

/-! ## Data -/

/-- A `void*`: a number, or the address of an lthread. -/
inductive Arg (τ : Type*)
  | val (v : Word)
  | lthread (t : τ)
  deriving DecidableEq

/-- The callbacks of `_lthread_yield_cb`: `_lthread_unlock`, or one that lets others wake the lthread, such as
`__do_futex_unlock`. -/
inductive YieldCb
  | unlock
  | park
  deriving DecidableEq

/-- `struct lthread`. The first five fields are bits of `attr.state`. -/
structure Lthread (τ : Type*) where
  new : Bool := false
  exited : Bool := false
  busy : Bool := false
  detach : Bool := false
  terminate : Bool := false
  ltJoin : Option τ := none
  yieldCb : Option YieldCb := none
  yieldCbarg : Arg τ := .val 0

/-- Whether the memory of an lthread is in use. -/
inductive Status
  | absent
  | live
  | freed
  deriving DecidableEq

/-- What the schedulers share. `asleep` and `joining` belong to lthreads that have switched to their scheduler: whether
the scheduler has let go of the lthread, and the join to which the lthread returns. -/
structure Shared (ι τ : Type*) where
  mem : τ → Lthread τ
  status : τ → Status
  schedulerQueue : List τ
  asleep : τ → Bool
  joining : τ → Option τ
  terminating : Option ι

/-- Why an lthread has switched to its scheduler. The scheduler does not know it: it reads the fields of the lthread. -/
inductive Yield (τ : Type*)
  | exit
  | sleep
  | join (u : τ)
  deriving DecidableEq

/-- Where a scheduler is. -/
inductive Pc (τ : Type*)
  | loop
  /-- `_lthread_resume`, up to the switch. -/
  | resume (lt : τ)
  | initLock (lt : τ)
  | initClear (lt : τ)
  | initUnlock (lt : τ)
  | clear (lt : τ)
  | run (lt : τ)
  | create (lt new : τ)
  | detach (lt u : τ)
  | exitLock (lt : τ) (v : Arg τ)
  | exitArg (lt : τ) (v : Arg τ)
  | exitFlag (lt : τ)
  | joinDetach (lt u : τ)
  | joinLock (lt u : τ)
  | joinExited (lt u : τ)
  | joinCas (lt u : τ)
  | joinUnlock (lt u : τ)
  | joinYield (lt u : τ)
  | joinRelock (lt u : τ)
  | joinArg (lt u : τ)
  | joinFree (lt u : τ) (r : Arg τ)
  | joinRet (lt u : τ) (r : Arg τ)
  /-- `_lthread_resume`, behind the switch. -/
  | switched (lt : τ) (y : Yield τ)
  | exited (lt : τ) (y : Yield τ)
  | exitJoin (lt : τ)
  | exitEnqueue (lt j : τ)
  | exitForget (lt : τ)
  | exitUnlock (lt : τ)
  | exitDetach (lt : τ)
  | exitFree (lt : τ)
  | callback (lt : τ) (y : Yield τ)
  | unlock (lt u : τ)
  /-- `lthread_run`, behind `_lthread_resume`. -/
  | terminate (lt : τ)
  | scheduler
  /-- `lthread_run` has returned the exit status, or `INT_MAX`. -/
  | left (reports : Bool)
  deriving DecidableEq

def eInval : CInt := 22

inductive Label (τ : Type*)
  | tau
  | create (t : τ)
  | enqueue (t : τ)
  | dequeue (t : τ)
  | exitCall (t : τ) (v : Arg τ)
  /-- The scheduler has dealt with the exit of `t`. -/
  | processed (t : τ)
  | joinCall (j u : τ)
  | joinRet (j u : τ) (rc : CInt) (r : Option (Arg τ))
  | detachCall (t u : τ)
  | free (t : τ)
  | terminateOther (t : τ)
  | terminateThis (t : τ)
  | leave (reports : Bool)
  deriving DecidableEq

inductive Act (τ : Type*)
  | go
  /-- Somebody wakes an lthread that sleeps. -/
  | wake (t : τ)
  /-- `lthread_create`, or `lthread_create_primitive` and the enqueue behind it. -/
  | create (t : τ) (isNew isDetached : Bool)
  | sleep
  | exit (v : Arg τ)
  | join (u : τ)
  | detach (u : τ)
  | terminateOther
  | terminateThis

/-! ## Steps of one scheduler -/

variable [DecidableEq ι] [DecidableEq τ]

def Shared.modify (s : Shared ι τ) (t : τ) (f : Lthread τ → Lthread τ) : Shared ι τ :=
  { s with mem := update s.mem t (f (s.mem t)) }

def Shared.unlock (s : Shared ι τ) (t : τ) : Shared ι τ := s.modify t fun lt => { lt with busy := false }

def Shared.enqueue (s : Shared ι τ) (t : τ) : Shared ι τ :=
  { s with schedulerQueue := s.schedulerQueue ++ [t], asleep := update s.asleep t false }

def Shared.setJoining (s : Shared ι τ) (t : τ) (u : Option τ) : Shared ι τ :=
  { s with joining := update s.joining t u }

def Shared.sleep (s : Shared ι τ) (t : τ) : Shared ι τ := { s with asleep := update s.asleep t true }

def Shared.free (s : Shared ι τ) (t : τ) : Shared ι τ := { s with status := update s.status t .freed }

section

variable (s : Shared ι τ) (t : τ) (u : Option τ) (f : Lthread τ → Lthread τ)

omit [DecidableEq ι]

@[simp] theorem Shared.mem_enqueue : (s.enqueue t).mem = s.mem := rfl

@[simp] theorem Shared.mem_setJoining : (s.setJoining t u).mem = s.mem := rfl

@[simp] theorem Shared.mem_sleep : (s.sleep t).mem = s.mem := rfl

@[simp] theorem Shared.mem_free : (s.free t).mem = s.mem := rfl

@[simp] theorem Shared.joining_modify : (s.modify t f).joining = s.joining := rfl

@[simp] theorem Shared.joining_unlock : (s.unlock t).joining = s.joining := rfl

@[simp] theorem Shared.asleep_modify : (s.modify t f).asleep = s.asleep := rfl

@[simp] theorem Shared.asleep_unlock : (s.unlock t).asleep = s.asleep := rfl

end

namespace Pc

/-- `_lthread_lock`: the bit is set, or the loop goes on. -/
def lock (s : Shared ι τ) (t : τ) (pc next : Pc τ) : Label τ × Pc τ × Shared ι τ :=
  if (s.mem t).busy then (.tau, pc, s) else (.tau, next, s.modify t fun lt => { lt with busy := true })

/-- The next access of the code of scheduler `i`. -/
def code (i : ι) (pc : Pc τ) (s : Shared ι τ) : Option (Label τ × Pc τ × Shared ι τ) :=
  match pc with
  | .loop =>
    match s.schedulerQueue with
    | [] => some (.tau, .loop, s)
    | lt :: q => some (.dequeue lt, .resume lt, { s with schedulerQueue := q })
  | .resume lt => some (.tau, if (s.mem lt).new then .initLock lt else .clear lt, s)
  | .initLock lt => some (lock s lt pc (.initClear lt))
  | .initClear lt => some (.tau, .initUnlock lt, s.modify lt fun t => { t with new := false })
  | .initUnlock lt => some (.tau, .clear lt, s.unlock lt)
  | .clear lt =>
    let s' := s.modify lt fun t => { t with yieldCb := none, yieldCbarg := .val 0 }
    match s.joining lt with
    | none => some (.tau, .run lt, s')
    | some u => some (.tau, .joinRelock lt u, s'.setJoining lt none)
  | .run _ => none
  | .create lt new => some (.enqueue new, .run lt, s.enqueue new)
  | .detach lt u =>
    if (s.mem u).busy then some (.tau, pc, s)
    else some (.tau, .run lt, s.modify u fun t => { t with detach := true })
  | .exitLock lt v => some (lock s lt pc (.exitArg lt v))
  | .exitArg lt v => some (.tau, .exitFlag lt, s.modify lt fun t => { t with yieldCbarg := v })
  | .exitFlag lt => some (.tau, .switched lt .exit, s.modify lt fun t => { t with exited := true })
  | .joinDetach lt u =>
    if (s.mem u).detach then some (.joinRet lt u eInval none, .run lt, s) else some (.tau, .joinLock lt u, s)
  | .joinLock lt u => some (lock s u pc (.joinExited lt u))
  | .joinExited lt u => some (.tau, if (s.mem u).exited then .joinArg lt u else .joinCas lt u, s)
  | .joinCas lt u =>
    match (s.mem u).ltJoin with
    | none => some (.tau, .joinYield lt u, s.modify u fun t => { t with ltJoin := some lt })
    | some _ => some (.tau, .joinUnlock lt u, s)
  | .joinUnlock lt u => some (.joinRet lt u eInval none, .run lt, s.unlock u)
  | .joinYield lt u =>
    let s' := s.modify lt fun t => { t with yieldCb := some .unlock, yieldCbarg := .lthread u }
    some (.tau, .switched lt (.join u), s'.setJoining lt (some u))
  | .joinRelock lt u => some (lock s u pc (.joinArg lt u))
  | .joinArg lt u => some (.tau, .joinFree lt u (s.mem u).yieldCbarg, s)
  | .joinFree lt u r => some (.free u, .joinRet lt u r, s.free u)
  | .joinRet lt u r => some (.joinRet lt u 0 (some r), .run lt, s)
  | .switched lt y => some (.tau, if (s.mem lt).terminate then .terminate lt else .exited lt y, s)
  | .exited lt y => some (.tau, if (s.mem lt).exited then .exitJoin lt else .callback lt y, s)
  | .exitJoin lt =>
    match (s.mem lt).ltJoin with
    | none => some (.tau, .exitUnlock lt, s)
    | some j => some (.tau, .exitEnqueue lt j, s)
  | .exitEnqueue lt j => some (.enqueue j, .exitForget lt, s.enqueue j)
  | .exitForget lt => some (.tau, .exitUnlock lt, s.modify lt fun t => { t with ltJoin := none })
  | .exitUnlock lt => some (.processed lt, .exitDetach lt, s.unlock lt)
  | .exitDetach lt => some (.tau, if (s.mem lt).detach then .exitFree lt else .terminate lt, s)
  | .exitFree lt => some (.free lt, .terminate lt, s.free lt)
  | .callback lt _ =>
    match (s.mem lt).yieldCb, (s.mem lt).yieldCbarg with
    | none, _ => some (.tau, .terminate lt, s)
    | some .park, _ => some (.tau, .terminate lt, s.sleep lt)
    | some .unlock, .lthread u => some (.tau, .unlock lt u, s)
    -- not the address of an lthread
    | some .unlock, .val _ => none
  | .unlock lt u => some (.tau, .terminate lt, (s.unlock u).sleep lt)
  | .terminate lt => if (s.mem lt).terminate then some (.leave true, .left true, s) else some (.tau, .scheduler, s)
  | .scheduler =>
    match s.terminating with
    | none => some (.tau, .loop, s)
    | some k => if k = i then some (.tau, .loop, s) else some (.leave false, .left false, s)
  | .left _ => none

def wake (pc : Pc τ) (s : Shared ι τ) (t : τ) : Option (Label τ × Pc τ × Shared ι τ) :=
  if s.asleep t = true ∧ s.joining t = none then some (.enqueue t, pc, s.enqueue t) else none

/-- A step: an access of the code, or a choice where the code leaves one. -/
def step (i : ι) (pc : Pc τ) (s : Shared ι τ) : Act τ → Option (Label τ × Pc τ × Shared ι τ)
  | .go => code i pc s
  | .wake t =>
    match pc with
    | .loop | .run _ => wake pc s t
    | _ => none
  | .create t isNew isDetached =>
    match pc with
    | .run lt =>
      if s.status t = .live then none
      else
        some (.create t, .create lt t,
          { s with
            mem := update s.mem t { new := isNew, detach := isDetached }
            status := update s.status t .live
            joining := update s.joining t none })
    | _ => none
  | .sleep =>
    match pc with
    | .run lt => some (.tau, .switched lt .sleep, s.modify lt fun t => { t with yieldCb := some .park })
    | _ => none
  | .exit v =>
    match pc with
    | .run lt => some (.exitCall lt v, .exitLock lt v, s)
    | _ => none
  | .join u =>
    match pc with
    | .run lt => if s.status u = .absent then none else some (.joinCall lt u, .joinDetach lt u, s)
    | _ => none
  | .detach u =>
    match pc with
    | .run lt => if s.status u = .absent then none else some (.detachCall lt u, .detach lt u, s)
    | _ => none
  | .terminateOther =>
    match pc with
    | .run lt => some (.terminateOther lt, pc, { s with terminating := some i })
    | _ => none
  | .terminateThis =>
    match pc with
    | .run lt => some (.terminateThis lt, pc, s.modify lt fun t => { t with terminate := true })
    | _ => none

/-- The lthread whose lock is taken here, and where the code goes on then. -/
def locking : Pc τ → Option (τ × Pc τ)
  | .initLock lt => some (lt, .initClear lt)
  | .exitLock lt v => some (lt, .exitArg lt v)
  | .joinLock lt u => some (u, .joinExited lt u)
  | .joinRelock lt u => some (u, .joinArg lt u)
  | _ => none

/-! ## All that a step can do -/

/-- The steps of scheduler `i` that do not give out memory again, one constructor for each kind of access. -/
inductive Step (i : ι) (s : Shared ι τ) : Pc τ → Label τ → Pc τ → Shared ι τ → Prop
  | stay (pc : Pc τ) : Step i s pc .tau pc s
  | dequeue {lt : τ} {q : List τ} (h : s.schedulerQueue = lt :: q) :
      Step i s .loop (.dequeue lt) (.resume lt) { s with schedulerQueue := q }
  | resumeNew {lt : τ} : Step i s (.resume lt) .tau (.initLock lt) s
  | resume {lt : τ} : Step i s (.resume lt) .tau (.clear lt) s
  | lock {t : τ} {pc next : Pc τ} (h : (s.mem t).busy = false) (hpc : pc.locking = some (t, next)) :
      Step i s pc .tau next (s.modify t fun lt => { lt with busy := true })
  | initClear {lt : τ} :
      Step i s (.initClear lt) .tau (.initUnlock lt) (s.modify lt fun t => { t with new := false })
  | initUnlock {lt : τ} : Step i s (.initUnlock lt) .tau (.clear lt) (s.unlock lt)
  | clear {lt : τ} (h : s.joining lt = none) :
      Step i s (.clear lt) .tau (.run lt) (s.modify lt fun t => { t with yieldCb := none, yieldCbarg := .val 0 })
  | clearJoin {lt u : τ} (h : s.joining lt = some u) :
      Step i s (.clear lt) .tau (.joinRelock lt u)
        ((s.modify lt fun t => { t with yieldCb := none, yieldCbarg := .val 0 }).setJoining lt none)
  | create {lt new : τ} : Step i s (.create lt new) (.enqueue new) (.run lt) (s.enqueue new)
  | detach {lt u : τ} (h : (s.mem u).busy = false) :
      Step i s (.detach lt u) .tau (.run lt) (s.modify u fun t => { t with detach := true })
  | exitArg {lt : τ} {v : Arg τ} :
      Step i s (.exitArg lt v) .tau (.exitFlag lt) (s.modify lt fun t => { t with yieldCbarg := v })
  | exitFlag {lt : τ} :
      Step i s (.exitFlag lt) .tau (.switched lt .exit) (s.modify lt fun t => { t with exited := true })
  | joinDetached {lt u : τ} (h : (s.mem u).detach = true) :
      Step i s (.joinDetach lt u) (.joinRet lt u eInval none) (.run lt) s
  | joinDetach {lt u : τ} (h : (s.mem u).detach = false) : Step i s (.joinDetach lt u) .tau (.joinLock lt u) s
  | joinExited {lt u : τ} (h : (s.mem u).exited = true) : Step i s (.joinExited lt u) .tau (.joinArg lt u) s
  | joinRunning {lt u : τ} (h : (s.mem u).exited = false) : Step i s (.joinExited lt u) .tau (.joinCas lt u) s
  | joinCas {lt u : τ} (h : (s.mem u).ltJoin = none) :
      Step i s (.joinCas lt u) .tau (.joinYield lt u) (s.modify u fun t => { t with ltJoin := some lt })
  | joinRefused {lt u j : τ} (h : (s.mem u).ltJoin = some j) : Step i s (.joinCas lt u) .tau (.joinUnlock lt u) s
  | joinUnlock {lt u : τ} : Step i s (.joinUnlock lt u) (.joinRet lt u eInval none) (.run lt) (s.unlock u)
  | joinYield {lt u : τ} :
      Step i s (.joinYield lt u) .tau (.switched lt (.join u))
        ((s.modify lt fun t => { t with yieldCb := some .unlock, yieldCbarg := .lthread u }).setJoining lt (some u))
  | joinArg {lt u : τ} : Step i s (.joinArg lt u) .tau (.joinFree lt u (s.mem u).yieldCbarg) s
  | joinFree {lt u : τ} {r : Arg τ} :
      Step i s (.joinFree lt u r) (.free u) (.joinRet lt u r) (s.free u)
  | joinRet {lt u : τ} {r : Arg τ} : Step i s (.joinRet lt u r) (.joinRet lt u 0 (some r)) (.run lt) s
  | switchedTerminate {lt : τ} {y : Yield τ} (h : (s.mem lt).terminate = true) :
      Step i s (.switched lt y) .tau (.terminate lt) s
  | switched {lt : τ} {y : Yield τ} (h : (s.mem lt).terminate = false) :
      Step i s (.switched lt y) .tau (.exited lt y) s
  | exited {lt : τ} {y : Yield τ} (h : (s.mem lt).exited = true) : Step i s (.exited lt y) .tau (.exitJoin lt) s
  | notExited {lt : τ} {y : Yield τ} (h : (s.mem lt).exited = false) :
      Step i s (.exited lt y) .tau (.callback lt y) s
  | exitAlone {lt : τ} (h : (s.mem lt).ltJoin = none) : Step i s (.exitJoin lt) .tau (.exitUnlock lt) s
  | exitJoined {lt j : τ} (h : (s.mem lt).ltJoin = some j) : Step i s (.exitJoin lt) .tau (.exitEnqueue lt j) s
  | exitEnqueue {lt j : τ} : Step i s (.exitEnqueue lt j) (.enqueue j) (.exitForget lt) (s.enqueue j)
  | exitForget {lt : τ} :
      Step i s (.exitForget lt) .tau (.exitUnlock lt) (s.modify lt fun t => { t with ltJoin := none })
  | exitUnlock {lt : τ} : Step i s (.exitUnlock lt) (.processed lt) (.exitDetach lt) (s.unlock lt)
  | exitDetached {lt : τ} (h : (s.mem lt).detach = true) : Step i s (.exitDetach lt) .tau (.exitFree lt) s
  | exitKept {lt : τ} (h : (s.mem lt).detach = false) : Step i s (.exitDetach lt) .tau (.terminate lt) s
  | exitFree {lt : τ} :
      Step i s (.exitFree lt) (.free lt) (.terminate lt) (s.free lt)
  | noCallback {lt : τ} {y : Yield τ} (h : (s.mem lt).yieldCb = none) :
      Step i s (.callback lt y) .tau (.terminate lt) s
  | park {lt : τ} {y : Yield τ} (h : (s.mem lt).yieldCb = some .park) :
      Step i s (.callback lt y) .tau (.terminate lt) (s.sleep lt)
  | callUnlock {lt u : τ} {y : Yield τ} (h : (s.mem lt).yieldCb = some .unlock)
      (harg : (s.mem lt).yieldCbarg = .lthread u) : Step i s (.callback lt y) .tau (.unlock lt u) s
  | unlock {lt u : τ} :
      Step i s (.unlock lt u) .tau (.terminate lt) ((s.unlock u).sleep lt)
  | leaveTerminate {lt : τ} (h : (s.mem lt).terminate = true) :
      Step i s (.terminate lt) (.leave true) (.left true) s
  | noTerminate {lt : τ} (h : (s.mem lt).terminate = false) : Step i s (.terminate lt) .tau .scheduler s
  | goOn (h : ∀ k, s.terminating = some k → k = i) : Step i s .scheduler .tau .loop s
  | leaveOther {k : ι} (h : s.terminating = some k) (hk : k ≠ i) :
      Step i s .scheduler (.leave false) (.left false) s
  | wake {pc : Pc τ} {t : τ} (hpc : pc = .loop ∨ ∃ lt, pc = .run lt) (h : s.asleep t = true)
      (hjoin : s.joining t = none) : Step i s pc (.enqueue t) pc (s.enqueue t)
  | new {lt t : τ} {isNew isDetached : Bool} (h : s.status t = .absent) :
      Step i s (.run lt) (.create t) (.create lt t)
        { s with
          mem := update s.mem t { new := isNew, detach := isDetached }
          status := update s.status t .live
          joining := update s.joining t none }
  | sleep {lt : τ} :
      Step i s (.run lt) .tau (.switched lt .sleep) (s.modify lt fun t => { t with yieldCb := some .park })
  | exit {lt : τ} {v : Arg τ} : Step i s (.run lt) (.exitCall lt v) (.exitLock lt v) s
  | joinCall {lt u : τ} (h : s.status u ≠ .absent) : Step i s (.run lt) (.joinCall lt u) (.joinDetach lt u) s
  | detachCall {lt u : τ} (h : s.status u ≠ .absent) : Step i s (.run lt) (.detachCall lt u) (.detach lt u) s
  | terminateOther {lt : τ} :
      Step i s (.run lt) (.terminateOther lt) (.run lt) { s with terminating := some i }
  | terminateThis {lt : τ} :
      Step i s (.run lt) (.terminateThis lt) (.run lt) (s.modify lt fun t => { t with terminate := true })

variable {i : ι} {s s' : Shared ι τ} {pc pc' : Pc τ} {l : Label τ}

omit [DecidableEq ι] in
theorem step_of_lock {t : τ} {next : Pc τ} (hpc : pc.locking = some (t, next))
    (h : lock s t pc next = (l, pc', s')) : Step i s pc l pc' s' := by
  unfold lock at h
  split_ifs at h with hbusy
  · cases h
    exact .stay pc
  · cases h
    exact .lock (by simpa using hbusy) hpc

theorem step_of_code (h : code i pc s = some (l, pc', s')) : Step i s pc l pc' s' := by
  revert h
  fun_cases code i pc s <;> intro h
  all_goals try exact step_of_lock rfl (some.inj h)
  all_goals
    simp only [some.injEq, Prod.mk.injEq, reduceCtorEq] at h
  all_goals
    obtain ⟨rfl, rfl, rfl⟩ := h
    try split_ifs
  case case21 h => exact .joinRefused h
  case case46 h hk => exact .leaveOther h hk
  all_goals first
    | exact .stay _
    | constructor <;> simp_all

/-- **Inversion.** Every step is one of these, if a new lthread is given new memory. -/
theorem step_of_step {a : Act τ} (h : step i pc s a = some (l, pc', s'))
    (hfresh : ∀ t, l = .create t → s.status t = .absent) : Step i s pc l pc' s' := by
  cases a with
  | go => exact step_of_code h
  | wake t =>
    have hwake : ∀ {pc}, (pc = .loop ∨ ∃ lt, pc = .run lt) → wake pc s t = some (l, pc', s') →
        Step i s pc l pc' s' := by
      intro pc hpc h
      unfold wake at h
      split_ifs at h with hif
      cases h
      exact .wake hpc hif.1 hif.2
    cases pc <;> simp only [step, reduceCtorEq] at h
    case loop => exact hwake (.inl rfl) h
    case run lt => exact hwake (.inr ⟨lt, rfl⟩) h
  | _ =>
    cases pc <;> simp only [step, reduceCtorEq] at h
    try split_ifs at h with hif
    all_goals
      simp only [some.injEq, Prod.mk.injEq] at h
      obtain ⟨rfl, rfl, rfl⟩ := h
      constructor
    all_goals first
      | assumption
      | exact hfresh _ rfl

end Pc

/-! ## All schedulers -/

structure Machine (ι τ : Type*) where
  pc : ι → Pc τ
  shared : Shared ι τ

namespace Machine

def step (m : Machine ι τ) (i : ι) (a : Act τ) : Option (Label τ × Machine ι τ) :=
  ((m.pc i).step i m.shared a).map fun (l, pc, s) => (l, ⟨update m.pc i pc, s⟩)

def Step (m : Machine ι τ) (l : Label τ) (m' : Machine ι τ) : Prop := ∃ i a, m.step i a = some (l, m')

/-- The memory of an lthread that is created has not been in use. -/
def Fresh (m : Machine ι τ) (l : Label τ) : Prop := ∀ t, l = .create t → m.shared.status t = .absent

instance [Fintype τ] (m : Machine ι τ) (l : Label τ) : Decidable (m.Fresh l) :=
  inferInstanceAs (Decidable (∀ t, l = .create t → m.shared.status t = .absent))

variable {m m' : Machine ι τ}

theorem Step.exists_pc {l : Label τ} (h : m.Step l m') (hfresh : m.Fresh l) :
    ∃ i, Pc.Step i m.shared (m.pc i) l (m'.pc i) m'.shared ∧ ∀ j, j ≠ i → m'.pc j = m.pc j := by
  obtain ⟨i, a, h⟩ := h
  obtain ⟨⟨l', pc, s⟩, hstep, heq⟩ := map_eq_some_iff.mp h
  cases heq
  refine ⟨i, ?_, fun j hj => update_of_ne hj ..⟩
  simpa using Pc.step_of_step hstep hfresh

/-- The run with a schedule. -/
def exec : List (ι × Act τ) → Machine ι τ → Option (List (Label τ) × Machine ι τ) :=
  execute fun ia m => m.step ia.1 ia.2

variable {as : List (ι × Act τ)} {ls : List (Label τ)}

theorem run_of_exec (h : exec as m = some (ls, m')) : Run Step m ls m' :=
  (run_of_execute h).mono fun _ _ _ ⟨ia, h⟩ => ⟨ia.1, ia.2, h⟩

/-- The same, as long as the labels are admissible. -/
def execIf (ok : Machine ι τ → Label τ → Bool) :
    List (ι × Act τ) → Machine ι τ → Option (List (Label τ) × Machine ι τ) :=
  execute fun ia m => (m.step ia.1 ia.2).filter fun r => ok m r.1

theorem run_of_execIf {ok : Machine ι τ → Label τ → Bool} (h : execIf ok as m = some (ls, m')) :
    Run (Guarded Step fun m l => ok m l = true) m ls m' := by
  refine (run_of_execute h).mono fun m l m' ⟨ia, h⟩ => ?_
  obtain ⟨hstep, hok⟩ := Option.filter_eq_some_iff.mp h
  exact ⟨hok, ia.1, ia.2, hstep⟩

theorem freshRun_of_execIf [Fintype τ] (h : execIf (fun m l => decide (m.Fresh l)) as m = some (ls, m')) :
    Run (Guarded Step Fresh) m ls m' :=
  (run_of_execIf h).mono fun _ _ _ h => ⟨of_decide_eq_true h.1, h.2⟩

/-- The start: every scheduler is in its loop, and the lthreads that exist are in the run queue. -/
structure Init (m : Machine ι τ) : Prop where
  loop : ∀ i, m.pc i = .loop
  mem : ∀ t, ∃ isNew isDetached, m.shared.mem t = { new := isNew, detach := isDetached }
  queue : ∀ t, t ∈ m.shared.schedulerQueue ↔ m.shared.status t = .live
  nodup : m.shared.schedulerQueue.Nodup
  freed : ∀ t, m.shared.status t ≠ .freed
  asleep : ∀ t, m.shared.asleep t = false
  joining : ∀ t, m.shared.joining t = none
  terminating : m.shared.terminating = none

end Machine

end SgxLkl.Lthreads
