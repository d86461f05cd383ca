import SgxLkl.Lib.Bits
import SgxLkl.Lib.Lts

/-!
# Event channels of the enclave (`enclave/enclave_event_channel.c`)

One word holds twice the number of notifications, and a bit that says that the task waits. The host adds `2`; the task
sets the bit, looks again, and sleeps; the schedulers poll the word and wake it.

* `Channel.step`: the host, the task, the scheduler that runs it, and the schedulers that poll, access by access.
* **`eventChannel_loses_nothing`**: a task that sleeps behind a notification is woken by the next poll, once; and if
  it is not to be woken, an interrupt was delivered behind every notification.
-/

namespace SgxLkl.EventChannel

open List Option Function

/-! ## The machine -/

inductive TaskPc
  /-- `new = cur`, and the first load of the loop. -/
  | top (cur : Word)
  | cas (cur : Word)
  /-- The next load of the loop, when the exchange has failed. -/
  | reload (new : Word)
  /-- `vio_wait_for_host_event` -/
  | check (new : Word)
  /-- The task has switched to its scheduler, which is to run `_lthread_desched_ready`. -/
  | yielded
  | out
  /-- The waiting bit is to be cleared. -/
  | clear
  | test (cur : Word)
  | deliver (cur : Word)
  | store (cur : Word)
  deriving DecidableEq

/-- Where a scheduler is in `vio_enclave_wakeup_event_channel`, for this channel. -/
inductive PollPc
  | idle
  /-- `vio_signal_evt_channel` -/
  | readEvt
  | readState (cur : Word)
  | readProcessed (cur : Word) (sleeping : Bool)
  /-- `lthread_wakeup` -/
  | wakeup
  | desched
  | enqueue
  | unlock
  deriving DecidableEq

/-- A channel, its task, and the schedulers that poll it. -/
structure Channel (ι : Type*) where
  /-- `enclave_evt_channel` -/
  evt : Word
  /-- `evt_processed` -/
  processed : Word
  /-- `LT_ST_SLEEPING` of the task. -/
  sleeping : Bool
  task : TaskPc
  /-- How often the task is in the run queue. -/
  queued : ℕ
  /-- `evt_chn_lock` -/
  lock : Option ι
  poll : ι → PollPc

inductive Label
  | tau
  | notify
  | deliver
  | sleep
  | enqueue
  deriving DecidableEq

inductive Act (ι : Type*)
  | host
  | task
  | fail
  | resume
  | poll (i : ι)
  deriving DecidableEq

namespace Channel

variable {ι : Type*} [DecidableEq ι]

def taskStep (c : Channel ι) : Option (Label × Channel ι) :=
  match c.task with
  | .top cur => some (.tau, { c with task := if c.evt = cur then .cas c.evt else .test c.evt })
  | .cas cur =>
    if c.evt = cur then some (.tau, { c with evt := cur + 1, task := .check (cur + 1) })
    else some (.tau, { c with task := .reload (cur + 1) })
  | .reload new => some (.tau, { c with task := if c.evt = new then .cas c.evt else .test c.evt })
  | .check new => some (.tau, { c with task := if c.evt ≠ new then .clear else .yielded })
  | .yielded => some (.sleep, { c with sleeping := true, task := .out })
  | .out => none
  | .clear => some (.tau, { c with evt := c.evt - 1, task := .test (c.evt - 1) })
  | .test cur => some (.tau, { c with task := if cur > c.processed then .deliver cur else .top cur })
  | .deliver cur => some (.deliver, { c with task := .store cur })
  | .store cur => some (.tau, { c with processed := cur, task := .top cur })

def pollStep (i : ι) (c : Channel ι) : Label × Channel ι :=
  let go (pc : PollPc) : Channel ι := { c with poll := update c.poll i pc }
  match c.poll i with
  | .idle =>
    match c.lock with
    | none => (.tau, { go .readEvt with lock := some i })
    | some _ => (.tau, c)
  | .readEvt => (.tau, go (.readState c.evt))
  | .readState cur => (.tau, go (.readProcessed cur c.sleeping))
  | .readProcessed cur sleeping =>
    (.tau, go (if cur &&& 1 ≠ 0 ∧ cur > c.processed + 1 ∧ sleeping = true then .wakeup else .unlock))
  | .wakeup => (.tau, go (if c.sleeping then .desched else .unlock))
  | .desched => (.tau, { go .enqueue with sleeping := false })
  | .enqueue => (.enqueue, { go .unlock with queued := c.queued + 1 })
  | .unlock => (.tau, { go .idle with lock := none })

def step : Act ι → Channel ι → Option (Label × Channel ι)
  | .host, c => some (.notify, { c with evt := c.evt + 2 })
  | .task, c => c.taskStep
  | .fail, c =>
    match c.task with
    | .cas cur => some (.tau, { c with task := .reload (cur + 1) })
    | _ => none
  | .resume, c =>
    if c.queued ≠ 0 ∧ c.task = .out then some (.tau, { c with queued := c.queued - 1, task := .clear }) else none
  | .poll i, c => some (c.pollStep i)

structure Init (c : Channel ι) : Prop where
  evt : c.evt = 0
  processed : c.processed = 0
  sleeping : c.sleeping = false
  task : c.task = .top 0
  queued : c.queued = 0
  lock : c.lock = none
  poll : ∀ i, c.poll i = .idle

/-- The condition of `vio_signal_evt_channel`. -/
def Wake (c : Channel ι) : Prop := c.evt &&& 1 ≠ 0 ∧ c.evt > c.processed + 1 ∧ c.sleeping = true

def Asleep (c : Channel ι) : Prop := c.task = .out ∧ c.sleeping = true

instance (c : Channel ι) : Decidable c.Asleep := inferInstanceAs (Decidable (_ ∧ _))

end Channel

/-! ## Histories -/

def Label.pending (n : ℕ) : Label → ℕ
  | .notify => n + 1
  | .deliver => 0
  | _ => n

def pending (ls : List Label) : ℕ := ls.foldl Label.pending 0

def Label.wakeups (n : ℕ) : Label → ℕ
  | .enqueue => n + 1
  | .sleep => 0
  | _ => n

def wakeups (ls : List Label) : ℕ := ls.foldl Label.wakeups 0

@[simp] theorem pending_append (ls : List Label) (l : Label) : pending (ls ++ [l]) = l.pending (pending ls) := by
  simp [pending]

@[simp] theorem wakeups_append (ls : List Label) (l : Label) : wakeups (ls ++ [l]) = l.wakeups (wakeups ls) := by
  simp [wakeups]

theorem deliver_mem_of_pending {ls l₁ l₂ : List Label} (h : pending ls = 0) (hls : ls = l₁ ++ .notify :: l₂) :
    .deliver ∈ l₂ := by
  subst hls
  by_contra hno
  have hfold : ∀ {l : List Label} {n : ℕ}, .deliver ∉ l → n ≤ l.foldl Label.pending n := by
    intro l
    induction l with
    | nil => exact fun _ => le_rfl
    | cons a l ih =>
      intro n hl
      rw [mem_cons, not_or] at hl
      refine le_trans ?_ (ih hl.2)
      cases a <;> simp [Label.pending]
      exact absurd rfl hl.1
  have hpos := hfold (n := (l₁.foldl Label.pending 0) + 1) hno
  simp only [pending, foldl_append, foldl_cons, Label.pending] at h
  omega

/-! ## The invariant -/

def TaskPc.waiting : TaskPc → ℕ
  | .check _ | .yielded | .out | .clear => 1
  | .top _ | .cas _ | .reload _ | .test _ | .deliver _ | .store _ => 0

theorem TaskPc.waiting_le (pc : TaskPc) : pc.waiting ≤ 1 := by
  cases pc <;> simp [waiting]

/-- What the local variables of the task say, behind `n` notifications of which `k` came behind the last delivery. -/
def TaskPc.Ok (n k : ℕ) (processed : Word) : TaskPc → Prop
  | .top cur | .cas cur => cur = processed
  | .reload new | .check new => new = processed + 1
  | .test cur | .deliver cur => ∃ v, cur.toNat = 2 * v ∧ v ≤ n ∧ processed.toNat ≤ cur.toNat
  | .store cur => ∃ v, cur.toNat = 2 * v ∧ v + k ≤ n
  | .yielded | .out | .clear => True

structure Inv {ι : Type*} (ls : List Label) (c : Channel ι) : Prop where
  evt : c.evt.toNat = 2 * ls.count .notify + c.task.waiting
  processed : ∃ v, c.processed.toNat = 2 * v ∧ v + pending ls ≤ ls.count .notify
  task : c.task.Ok (ls.count .notify) (pending ls) c.processed
  sleeping : c.sleeping = true → c.task = .out ∧ c.queued = 0 ∧ wakeups ls = 0
  queued : c.queued ≤ 1 ∧ (c.queued ≠ 0 → c.task = .out)
  enqueue : ∀ i, c.poll i = .enqueue → c.task = .out ∧ c.queued = 0 ∧ c.sleeping = false ∧ wakeups ls = 0
  poller : ∀ i, c.poll i = .wakeup ∨ c.poll i = .desched ∨ (∃ cur, c.poll i = .readProcessed cur true) →
    c.sleeping = true
  lock : ∀ i, c.poll i ≠ .idle → c.lock = some i
  once : wakeups ls ≤ 1

theorem Channel.Init.inv {ι : Type*} {c : Channel ι} (h : c.Init) : Inv [] c where
  evt := by
    rw [h.evt, h.task]
    decide
  processed := ⟨0, by simp [h.processed], by simp [pending]⟩
  task := by simp [h.task, h.processed, TaskPc.Ok]
  sleeping := by simp [h.sleeping]
  queued := by simp [h.queued]
  enqueue := fun i => by simp [h.poll i]
  poller := fun i => by simp [h.poll i]
  lock := fun i => by simp [h.poll i]
  once := by simp [wakeups]

section

variable {ι : Type*} {c c' : Channel ι} {ls : List Label}

namespace Inv

variable (h : Inv ls c)

include h

theorem host (hn : (ls ++ [Label.notify]).count .notify < 2 ^ 63) :
    Inv (ls ++ [Label.notify]) { c with evt := c.evt + 2 } := by
  have htwo : (2 : Word).toNat = 2 := rfl
  have hevt := h.evt
  have hwaiting := c.task.waiting_le
  simp only [count_append, count_singleton_self] at hn
  constructor
  case evt =>
    simp only [count_append, count_singleton_self, BitVec.toNat_add, hevt, htwo]
    omega
  case processed =>
    obtain ⟨v, hv, hle⟩ := h.processed
    refine ⟨v, hv, ?_⟩
    simp only [pending_append, Label.pending, count_append, count_singleton_self]
    omega
  case task =>
    have htask := h.task
    simp only [pending_append, Label.pending, count_append, count_singleton_self]
    revert htask
    cases c.task <;> simp only [TaskPc.Ok, imp_self]
    all_goals
      rintro ⟨v, hv⟩
      exact ⟨v, by omega⟩
  case sleeping => simpa [Label.wakeups] using h.sleeping
  case queued => exact h.queued
  case enqueue => simpa [Label.wakeups] using h.enqueue
  case poller => exact h.poller
  case lock => exact h.lock
  case once => simpa [Label.wakeups] using h.once

theorem tau : Inv (ls ++ [.tau]) c where
  evt := by simpa using h.evt
  processed := by simpa [Label.pending] using h.processed
  task := by simpa [Label.pending] using h.task
  sleeping := by simpa [Label.wakeups] using h.sleeping
  queued := h.queued
  enqueue := by simpa [Label.wakeups] using h.enqueue
  poller := h.poller
  lock := h.lock
  once := by simpa [Label.wakeups] using h.once

theorem running (hpc : c.task ≠ .out) : c.sleeping = false ∧ c.queued = 0 ∧ ∀ i, c.poll i ≠ .enqueue := by
  refine ⟨?_, ?_, fun i hi => hpc (h.enqueue i hi).1⟩
  · by_contra hs
    exact hpc (h.sleeping (by simpa using hs)).1
  · by_contra hq
    exact hpc (h.queued.2 hq)

variable {l : Label}

theorem move {evt processed : Word} {pc : TaskPc} (hpc : c.task ≠ .out) (hl : l = .tau ∨ l = .deliver)
    (hevt : evt.toNat = 2 * ls.count .notify + pc.waiting)
    (hprocessed : ∃ v, processed.toNat = 2 * v ∧ v + pending (ls ++ [l]) ≤ ls.count .notify)
    (htask : pc.Ok (ls.count .notify) (pending (ls ++ [l])) processed) :
    Inv (ls ++ [l]) { c with evt, processed, task := pc } := by
  obtain ⟨hsleeping, hqueued, henqueue⟩ := h.running hpc
  have hcount : (ls ++ [l]).count .notify = ls.count .notify := by
    rcases hl with rfl | rfl <;> simp
  have hwakeups : wakeups (ls ++ [l]) = wakeups ls := by
    rcases hl with rfl | rfl <;> simp [Label.wakeups]
  constructor
  case evt => rw [hcount, hevt]
  case processed | task => rwa [hcount]
  case sleeping => simp [hsleeping]
  case queued => simp [hqueued]
  case enqueue => exact fun i hi => absurd hi (henqueue i)
  case poller =>
    intro i hi
    have hs := h.poller i hi
    simp [hsleeping] at hs
  case lock => exact h.lock
  case once => rw [hwakeups]; exact h.once

theorem sleep (hpc : c.task = .yielded) : Inv (ls ++ [.sleep]) { c with sleeping := true, task := .out } := by
  obtain ⟨hsleeping, hqueued, henqueue⟩ := h.running (by simp [hpc])
  have hevt := h.evt
  rw [hpc] at hevt
  constructor
  case evt => simpa [TaskPc.waiting] using hevt
  case processed => simpa [Label.pending] using h.processed
  case task => trivial
  case sleeping => simp [hqueued, Label.wakeups]
  case queued => simp [hqueued]
  case enqueue => exact fun i hi => absurd hi (henqueue i)
  case poller => simp
  case lock => exact h.lock
  case once => simp [Label.wakeups]

theorem taskStep (hstep : c.taskStep = some (l, c')) (hn : ls.count .notify < 2 ^ 63) : Inv (ls ++ [l]) c' := by
  have hevt := h.evt
  have htask := h.task
  obtain ⟨v, hv, hle⟩ := h.processed
  have hone : (1 : Word).toNat = 1 := rfl
  have htau : ∀ {evt processed : Word} {pc : TaskPc}, c.task ≠ .out →
      evt.toNat = 2 * ls.count .notify + pc.waiting →
      (∃ v, processed.toNat = 2 * v ∧ v + pending ls ≤ ls.count .notify) →
      pc.Ok (ls.count .notify) (pending ls) processed → Inv (ls ++ [.tau]) { c with evt, processed, task := pc } :=
    fun hpc hevt hprocessed htask => h.move hpc (.inl rfl) hevt (by simpa [Label.pending] using hprocessed)
      (by simpa [Label.pending] using htask)
  have htest : ∀ {evt : Word}, evt.toNat = 2 * ls.count .notify →
      (TaskPc.test evt).Ok (ls.count .notify) (pending ls) c.processed :=
    fun hevt => ⟨_, hevt, le_rfl, by omega⟩
  unfold Channel.taskStep at hstep
  split at hstep <;> rename_i hpc
  all_goals rw [hpc] at htask hevt
  all_goals simp only [TaskPc.waiting, TaskPc.Ok] at htask hevt
  case h_1 cur =>
    cases hstep
    split_ifs with heq
    · exact htau (by simp [hpc]) hevt ⟨v, hv, hle⟩ (heq.trans htask)
    · exact htau (by simp [hpc]) hevt ⟨v, hv, hle⟩ (htest hevt)
  case h_2 cur =>
    split_ifs at hstep with heq
    · cases hstep
      refine htau (by simp [hpc]) ?_ ⟨v, hv, hle⟩ (by rw [TaskPc.Ok, htask])
      rw [BitVec.toNat_add, ← heq, hevt, hone, TaskPc.waiting]
      omega
    · cases hstep
      exact htau (by simp [hpc]) hevt ⟨v, hv, hle⟩ (by rw [TaskPc.Ok, htask])
  case h_3 new =>
    cases hstep
    split_ifs with heq
    · have hnew : new.toNat = 2 * v + 1 := by
        rw [htask, BitVec.toNat_add, hv, hone]
        omega
      rw [heq] at hevt
      omega
    · exact htau (by simp [hpc]) hevt ⟨v, hv, hle⟩ (htest hevt)
  case h_4 new =>
    cases hstep
    split_ifs
    · exact htau (by simp [hpc]) hevt ⟨v, hv, hle⟩ trivial
    · exact htau (by simp [hpc]) hevt ⟨v, hv, hle⟩ trivial
  case h_5 =>
    cases hstep
    exact h.sleep hpc
  case h_6 => cases hstep
  case h_7 =>
    cases hstep
    have hclear : (c.evt - 1).toNat = 2 * ls.count .notify := by
      rw [BitVec.toNat_sub, hevt, hone]
      omega
    exact htau (by simp [hpc]) hclear ⟨v, hv, hle⟩ (htest hclear)
  case h_8 cur =>
    cases hstep
    obtain ⟨w, hw, hwle, hge⟩ := htask
    split_ifs with hlt
    · exact htau (by simp [hpc]) hevt ⟨v, hv, hle⟩ ⟨w, hw, hwle, hge⟩
    · refine htau (by simp [hpc]) hevt ⟨v, hv, hle⟩ (BitVec.eq_of_toNat_eq (le_antisymm ?_ hge))
      exact not_lt.mp hlt
  case h_9 cur =>
    cases hstep
    obtain ⟨w, hw, hwle, -⟩ := htask
    refine h.move (by simp [hpc]) (.inr rfl) hevt ⟨v, hv, ?_⟩ ⟨w, hw, ?_⟩ <;> simp [Label.pending] <;> omega
  case h_10 cur =>
    cases hstep
    exact htau (by simp [hpc]) hevt htask rfl

theorem fail {cur : Word} (hpc : c.task = .cas cur) : Inv (ls ++ [.tau]) { c with task := .reload (cur + 1) } := by
  have hevt := h.evt
  have htask := h.task
  rw [hpc] at hevt htask
  refine h.move (by simp [hpc]) (.inl rfl) hevt (by simpa [Label.pending] using h.processed) ?_
  rw [TaskPc.Ok, show cur = c.processed from htask]

theorem resume (hqueued : c.queued ≠ 0) (hpc : c.task = .out) :
    Inv (ls ++ [.tau]) { c with queued := c.queued - 1, task := .clear } := by
  have hevt := h.evt
  have hle := h.queued.1
  have hsleeping : c.sleeping = false := by
    by_contra hs
    exact hqueued (h.sleeping (by simpa using hs)).2.1
  rw [hpc] at hevt
  constructor
  case evt => simpa [TaskPc.waiting] using hevt
  case processed => simpa [Label.pending] using h.processed
  case task => trivial
  case sleeping => simp [hsleeping]
  case queued =>
    dsimp only
    omega
  case enqueue => exact fun i hi => absurd (h.enqueue i hi).2.1 hqueued
  case poller => exact h.poller
  case lock => exact h.lock
  case once => simpa [Label.wakeups] using h.once

variable {i : ι}

theorem alone (hi : c.poll i ≠ .idle) {j : ι} (hj : j ≠ i) : c.poll j = .idle := by
  by_contra hne
  exact hj (some.inj ((h.lock j hne).symm.trans (h.lock i hi)))

theorem wake_iff (hc : c.Asleep) : c.Wake ↔ c.processed.toNat < 2 * ls.count .notify := by
  have hevt := h.evt
  have hone : (1 : Word).toNat = 1 := rfl
  obtain ⟨v, hv, hle⟩ := h.processed
  rw [hc.1, TaskPc.waiting] at hevt
  have hodd : c.evt &&& 1 ≠ 0 := and_one_ne_zero.mpr (by omega)
  have hprocessed : (c.processed + 1).toNat = c.processed.toNat + 1 := by
    rw [BitVec.toNat_add, hone]
    omega
  constructor
  · rintro ⟨-, hlt, -⟩
    have hlt : (c.processed + 1).toNat < c.evt.toNat := hlt
    omega
  · intro hlt
    refine ⟨hodd, ?_, hc.2⟩
    change (c.processed + 1).toNat < c.evt.toNat
    omega

variable [DecidableEq ι]

theorem poll_move {pc : PollPc} {lock : Option ι} (hpc : pc ≠ .enqueue)
    (hsleeping : pc = .wakeup ∨ pc = .desched ∨ (∃ cur, pc = .readProcessed cur true) → c.sleeping = true)
    (hlock : pc ≠ .idle → lock = some i) (hothers : ∀ j ≠ i, c.poll j = .idle) :
    Inv (ls ++ [.tau]) { c with poll := update c.poll i pc, lock } := by
  constructor
  case evt => exact h.tau.evt
  case processed => exact h.tau.processed
  case task => exact h.tau.task
  case sleeping => exact h.tau.sleeping
  case queued => exact h.queued
  case once => exact h.tau.once
  all_goals
    intro j
    by_cases hj : j = i
    · subst hj
      simp_all
    · simp [hj, hothers j hj]

theorem poll_desched (hpc : c.poll i = .desched) :
    Inv (ls ++ [.tau]) { c with poll := update c.poll i .enqueue, sleeping := false } := by
  have hsleeping := h.poller i (.inr (.inl hpc))
  have hi : c.poll i ≠ .idle := by simp [hpc]
  constructor
  case evt => exact h.tau.evt
  case processed => exact h.tau.processed
  case task => exact h.tau.task
  case sleeping => simp
  case queued => exact h.queued
  case once => exact h.tau.once
  all_goals
    intro j
    by_cases hj : j = i
    · subst hj
      simp [h.sleeping hsleeping, Label.wakeups, h.lock j hi]
    · simp [hj, h.alone hi hj]

theorem poll_enqueue (hpc : c.poll i = .enqueue) :
    Inv (ls ++ [.enqueue]) { c with poll := update c.poll i .unlock, queued := c.queued + 1 } := by
  obtain ⟨htask, hqueued, hsleeping, hwakeups⟩ := h.enqueue i hpc
  have hi : c.poll i ≠ .idle := by simp [hpc]
  constructor
  case evt => simpa using h.evt
  case processed => simpa [Label.pending] using h.processed
  case task => simpa [Label.pending] using h.task
  case sleeping => simp [hsleeping]
  case queued => simp [hqueued, htask]
  case once => simp [Label.wakeups, hwakeups]
  all_goals
    intro j
    by_cases hj : j = i
    · subst hj
      simp [h.lock j hi]
    · simp [hj, h.alone hi hj]

theorem pollStep (hstep : c.pollStep i = (l, c')) : Inv (ls ++ [l]) c' := by
  unfold Channel.pollStep at hstep
  dsimp only at hstep
  split at hstep <;> rename_i hpc
  case h_1 =>
    split at hstep <;> rename_i hlock <;> cases hstep
    · refine h.poll_move (by simp) (by simp) (by simp) fun j _ => ?_
      by_contra hj
      simpa [hlock] using h.lock j hj
    · exact h.tau
  all_goals
    have hi : c.poll i ≠ .idle := by simp [hpc]
    have hlock := h.lock i hi
    have halone := fun j hj => h.alone hi (j := j) hj
    cases hstep
  case h_2 => exact h.poll_move (by simp) (by simp) (fun _ => hlock) halone
  case h_3 cur => exact h.poll_move (by simp) (by simp) (fun _ => hlock) halone
  case h_4 cur sleeping =>
    refine h.poll_move (by split_ifs <;> simp) ?_ (fun _ => hlock) halone
    split_ifs with hwake
    · intro _
      exact h.poller i (.inr (.inr ⟨cur, by rw [hpc, hwake.2.2]⟩))
    · simp
  case h_5 =>
    refine h.poll_move (by split_ifs <;> simp) (fun _ => h.poller i (.inl hpc)) (fun _ => hlock) halone
  case h_6 => exact h.poll_desched hpc
  case h_7 => exact h.poll_enqueue hpc
  case h_8 => exact h.poll_move (by simp) (by simp) (by simp) halone

theorem step {a : Act ι} (hstep : Channel.step a c = some (l, c'))
    (hn : (ls ++ [l]).count .notify < 2 ^ 63) : Inv (ls ++ [l]) c' := by
  have hls : ls.count .notify < 2 ^ 63 := lt_of_le_of_lt (by simp) hn
  cases a with
  | host =>
    cases hstep
    exact h.host hn
  | task => exact h.taskStep hstep hls
  | fail =>
    simp only [Channel.step] at hstep
    split at hstep <;> cases hstep
    exact h.fail ‹_›
  | resume =>
    simp only [Channel.step] at hstep
    split_ifs at hstep with hcond
    cases hstep
    exact h.resume hcond.1 hcond.2
  | poll i => exact h.pollStep (some.inj hstep)

theorem run {ls' : List Label} (hr : Run (Chosen Channel.step) c ls' c') (hn : (ls ++ ls').count .notify < 2 ^ 63) :
    Inv (ls ++ ls') c' := by
  refine hr.history (I := fun l m => (ls ++ l).count .notify < 2 ^ 63 → Inv (ls ++ l) m) ?_
    (fun _ => by rwa [append_nil]) hn
  rintro l m b m' ih ⟨a, hstep⟩ hcount
  rw [← append_assoc] at hcount ⊢
  exact (ih (lt_of_le_of_lt (by simp) hcount)).step hstep hcount

end Inv

/-! ## A poll -/

/-- How many steps a scheduler needs until the task is on the run queue. -/
def PollPc.rank : PollPc → ℕ
  | .readEvt => 6
  | .readState _ => 5
  | .readProcessed _ _ => 4
  | .wakeup => 3
  | .desched => 2
  | .enqueue => 1
  | .unlock | .idle => 0

def PollPc.Waking (c : Channel ι) : PollPc → Prop
  | .readEvt => c.Wake
  | .readState cur => cur &&& 1 ≠ 0 ∧ cur > c.processed + 1 ∧ c.sleeping = true
  | .readProcessed cur sleeping => cur &&& 1 ≠ 0 ∧ cur > c.processed + 1 ∧ sleeping = true
  | .wakeup | .desched | .enqueue => True
  | .unlock | .idle => False

namespace PollPc.Waking

variable {i : ι}

theorem rank_pos (hw : (c.poll i).Waking c) : 0 < (c.poll i).rank := by
  revert hw
  cases c.poll i <;> simp [Waking, rank]

variable (h : Inv ls c) (hw : (c.poll i).Waking c)

include h hw

theorem asleep : c.Asleep ∨ c.poll i = .enqueue := by
  have hasleep : c.sleeping = true → c.Asleep := fun hs => ⟨(h.sleeping hs).1, hs⟩
  have hpoller := h.poller i
  rcases hpc : c.poll i with _ | _ | cur | ⟨cur, sleeping⟩ | _ | _ | _ | _ <;> rw [hpc] at hw hpoller
  case readEvt | readState => exact .inl (hasleep hw.2.2)
  case readProcessed =>
    obtain rfl : sleeping = true := hw.2.2
    exact .inl (hasleep (hpoller (.inr (.inr ⟨cur, rfl⟩))))
  case wakeup => exact .inl (hasleep (hpoller (.inl rfl)))
  case desched => exact .inl (hasleep (hpoller (.inr (.inl rfl))))
  case enqueue => exact .inr rfl
  case idle | unlock => exact hw.elim

theorem out : c.task = .out ∧ c.queued = 0 := by
  rcases asleep h hw with hc | hpc
  · exact ⟨hc.1, (h.sleeping hc.2).2.1⟩
  · exact ⟨(h.enqueue i hpc).1, (h.enqueue i hpc).2.1⟩

variable [DecidableEq ι]

variable {l : Label}

theorem pollStep (hstep : c.pollStep i = (l, c')) :
    l = .enqueue ∨ (c'.poll i).Waking c' ∧ (c'.poll i).rank + 1 ≤ (c.poll i).rank := by
  have hasleep := asleep h hw
  unfold Channel.pollStep at hstep
  dsimp only at hstep
  rcases hpc : c.poll i with _ | _ | cur | ⟨cur, sleeping⟩ | _ | _ | _ | _ <;> rw [hpc] at hw hstep hasleep
  case idle | unlock => exact hw.elim
  all_goals cases hstep
  case readEvt => exact .inr (by simpa [Waking, rank, Channel.Wake] using hw)
  case readState => exact .inr (by simpa [Waking, rank] using hw)
  case readProcessed =>
    refine .inr ?_
    simp only [update_self]
    rw [Waking] at hw
    rw [if_pos hw]
    simp [Waking, rank]
  case wakeup =>
    have hs := (hasleep.resolve_right (by simp)).2
    simp [Waking, rank, hs]
  case desched => simp [Waking, rank]
  case enqueue => exact .inl rfl

theorem step {a : Act ι} (hstep : Channel.step a c = some (l, c')) (hn : (ls ++ [l]).count .notify < 2 ^ 63) :
    l = .enqueue ∨ (c'.poll i).Waking c' ∧ (c'.poll i).rank + [a].count (.poll i) ≤ (c.poll i).rank := by
  obtain ⟨htask, hqueued⟩ := out h hw
  cases a with
  | host =>
    have h' := h.step hstep hn
    cases hstep
    refine .inr ⟨?_, by simp⟩
    dsimp only
    rcases hpc : c.poll i with _ | _ | cur | ⟨cur, sleeping⟩ | _ | _ | _ | _ <;> rw [hpc] at hw <;> try exact hw
    -- The condition has to be read again of the new word.
    have hc : c.Asleep := ⟨htask, hw.2.2⟩
    refine (h'.wake_iff ⟨htask, hw.2.2⟩).mpr (lt_of_lt_of_le ((h.wake_iff hc).mp hw) ?_)
    simp
  | task => simp [Channel.step, Channel.taskStep, htask] at hstep
  | fail => simp [Channel.step, htask] at hstep
  | resume => simp [Channel.step, hqueued] at hstep
  | poll j =>
    by_cases hj : j = i
    · subst hj
      simpa using pollStep h hw (some.inj hstep)
    · -- The others do not get the lock.
      have hi : c.poll i ≠ .idle := by
        intro hidle
        rw [hidle] at hw
        exact hw
      have hstep := some.inj hstep
      rw [Channel.pollStep, h.alone hi hj, h.lock i hi] at hstep
      cases hstep
      exact .inr ⟨hw, by simp [hj]⟩

/-- The scheduler wakes the task, whatever the others do in between. -/
theorem execute {as : List (Act ι)} {ls' : List Label} (hexec : execute Channel.step as c = some (ls', c'))
    (hn : (ls ++ ls').count .notify < 2 ^ 63) (has : (c.poll i).rank ≤ as.count (.poll i)) : .enqueue ∈ ls' := by
  induction as generalizing c ls ls' with
  | nil => exact absurd has (by simpa using (rank_pos hw).ne')
  | cons a as ih =>
    obtain ⟨⟨l, c₁⟩, hstep, hrest⟩ := bind_eq_some_iff.mp hexec
    obtain ⟨⟨ls₁, c₂⟩, hexec₁, heq⟩ := map_eq_some_iff.mp hrest
    obtain ⟨rfl, rfl⟩ := Prod.mk.inj heq
    rw [append_cons] at hn
    have hl : (ls ++ [l]).count .notify < 2 ^ 63 := by
      rw [count_append] at hn
      omega
    rcases step h hw hstep hl with rfl | ⟨hw₁, hrank⟩
    · exact mem_cons_self
    · refine mem_cons_of_mem _ (ih (h.step hstep hl) hw₁ hexec₁ hn ?_)
      rw [← singleton_append, count_append] at has
      omega

end PollPc.Waking

end

/-! ## The channel -/

/-- **An event channel loses nothing.** Behind every run with fewer than `2 ^ 63` notifications: if the task sleeps
and a notification came behind the last delivery, the next scheduler that polls the channel puts it on the run queue
by its sixth step, at most once for each time it falls asleep. Otherwise a delivery has followed every notification.
-/
theorem eventChannel_loses_nothing {ι : Type*} [DecidableEq ι] {c₀ c : Channel ι} {ls : List Label} (h₀ : c₀.Init)
    (hr : Run (Chosen Channel.step) c₀ ls c) (hn : ls.count .notify < 2 ^ 63) :
    (c.Asleep → 0 < pending ls → c.Wake) ∧
      (c.Wake → ∀ (i : ι) (as : List (Act ι)) (ls' : List Label) (c' : Channel ι), c.poll i = .readEvt →
        execute Channel.step as c = some (ls', c') → (ls ++ ls').count .notify < 2 ^ 63 →
        6 ≤ as.count (.poll i) → .enqueue ∈ ls') ∧
      wakeups ls ≤ 1 ∧ (c.Asleep → ¬ c.Wake → ∀ l₁ l₂, ls = l₁ ++ .notify :: l₂ → .deliver ∈ l₂) := by
  have h : Inv ls c := h₀.inv.run hr hn
  obtain ⟨v, hv, hle⟩ := h.processed
  have hwake : c.Asleep → 0 < pending ls → c.Wake := fun hc hpending => (h.wake_iff hc).mpr (by omega)
  refine ⟨hwake, ?_, h.once, ?_⟩
  · intro hw i as ls' c' hpc hexec hn' has
    exact PollPc.Waking.execute h (by rwa [hpc]) hexec hn' (by rwa [hpc])
  · intro hc hno l₁ l₂ hls
    refine deliver_mem_of_pending ?_ hls
    by_contra hpending
    exact hno (hwake hc (Nat.pos_of_ne_zero hpending))

def Channel.idle : Channel Unit := ⟨0, 0, false, .top 0, 0, none, fun _ => .idle⟩

/-- The task sleeps, the host notifies, and the scheduler polls. -/
theorem eventChannel_loses_nothing_idle :
    ∃ ls ls' c c', Run (Chosen Channel.step) Channel.idle ls c ∧ c.Asleep ∧ pending ls = 1 ∧ c.Wake ∧ wakeups ls ≤ 1 ∧
      Run (Chosen Channel.step) c ls' c' ∧ .enqueue ∈ ls' := by
  have h₀ : Channel.idle.Init := ⟨rfl, rfl, rfl, rfl, rfl, rfl, fun _ => rfl⟩
  have hexec : (execute Channel.step [.task, .task, .task, .task, .host, .poll ()] Channel.idle).map (fun x =>
      decide (x.2.Asleep ∧ pending x.1 = 1 ∧ x.1.count .notify = 1 ∧ x.2.poll () = .readEvt) &&
        decide ((execute Channel.step (replicate 6 (.poll ())) x.2).map (fun y => y.1.count .notify) = some 0)) =
      some true := by
    decide +kernel
  obtain ⟨⟨ls, c⟩, hexec, hcond⟩ := map_eq_some_iff.mp hexec
  rw [Bool.and_eq_true] at hcond
  obtain ⟨hc, hpending, hcount, hpc⟩ := of_decide_eq_true hcond.1
  obtain ⟨⟨ls', c'⟩, hexec', hcount'⟩ := map_eq_some_iff.mp (of_decide_eq_true hcond.2)
  dsimp only at hc hpending hcount hpc hexec' hcount'
  have hr := run_of_execute hexec
  obtain ⟨hwake, hpoll, hwakeups, -⟩ := eventChannel_loses_nothing h₀ hr (by rw [hcount]; decide)
  have hw := hwake hc (by rw [hpending]; decide)
  refine ⟨ls, ls', c, c', hr, hc, hpending, hw, hwakeups, run_of_execute hexec', ?_⟩
  exact hpoll hw () _ ls' c' hpc hexec' (by rw [count_append, hcount, hcount']; decide) (by decide)

end SgxLkl.EventChannel
