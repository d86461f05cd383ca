import SgxLkl.Lib.Bits
import SgxLkl.Lib.Interleave

/-!
# The timers of the kernel

`timer_set_oneshot`, `timer_callback` and `timer_free` of `posix-host.c`: any number of threads set a
timer, and its own thread sleeps and calls the callback. The timer's mutex is one that works, and what
is accessed only with the mutex locked is accessed in one step.

* `Timer.Step`: the steps of the threads; `none` is the timer's own thread.
* **`Timer.timer_correct`**: an armed timer has a thread in its loop that sleeps for the delay set
  last, if no delay is `0`; nobody uses a timer that was freed.
* **`Timer.oneshot`**, **`Timer.fires_twice`**: when the callback is called no more often than the
  timer is set, and when it is.
-/

namespace SgxLkl

open List

variable {τ : Type*}

/-! ## The code -/

/-- `sgxlkl_timer`. `wake` counts without end, its value is that modulo `2 ^ 32`. `created` and
`exited` are about the timer's thread and `asleep` says that it is in the futex queue. -/
structure Timer (τ : Type*) where
  delayNs : Word
  nextDelayNs : Word
  /-- Who has locked `mtx`. -/
  mtx : Option (Option τ)
  wake : ℕ
  armed : Bool
  created : Bool
  exited : Bool
  asleep : Bool
  freed : Bool
  /-- The threads in `timer_set_oneshot`. -/
  callers : Finset τ
  /-- The thread that has called `timer_free`. -/
  closing : Option τ

namespace Timer

inductive Pc
  | idle
  /-- In `timer_set_oneshot`, at the test of `timer->thread`. -/
  | enter (ns : Word)
  | lock (ns : Word)
  /-- Has locked the mutex. -/
  | set (ns : Word)
  | wakeUp
  | unlock
  /-- In `timer_free`, at `mutex_lock`. -/
  | freeLock
  /-- Has locked the mutex. -/
  | free
  | freeWake
  /-- At the `mutex_unlock` before `lthread_join`. -/
  | freeUnlock
  | join
  /-- At the `mutex_unlock` of a timer that was not armed. -/
  | freeQuit
  | dispose
  /-- The timer's thread does not run yet. -/
  | unborn
  /-- In `timer_callback`, at the first `mutex_lock`. -/
  | start
  | head
  /-- At `mutex_unlock`, with the timeout and the value of `wake`. -/
  | release (timeout : Word) (wake : ℕ)
  | wait (timeout : Word) (wake : ℕ)
  | asleep (timeout : Word)
  /-- At `mutex_lock`. -/
  | relock (didTimeout : Bool)
  /-- At the test whether the timer should shut down. -/
  | check (didTimeout : Bool)
  /-- In the callback, which has called `timer_set_oneshot` or not. -/
  | callback (again : Bool)
  /-- At the condition of the loop. -/
  | tail
  /-- Behind the loop, at `mutex_unlock`. -/
  | leave
  | exit
  | gone

inductive Event
  /-- No access to the timer. -/
  | tau
  /-- Some access to the timer. -/
  | touch
  /-- A thread sets the timer. -/
  | set (ns : Word)
  /-- The callback sets the timer, after it has asked for `earlier` (or not yet, `0`). -/
  | reset (ns earlier : Word)
  /-- The timer's thread goes to sleep, `missed` increments after it has read `wake`. -/
  | sleep (timeout : Word) (missed : ℕ)
  | fire
  | done (again : Bool)
  /-- `timer_free` has freed the timer. -/
  | freed
  deriving DecidableEq

/-- `next_delay_ns` after a call from the callback. -/
def nextDelay (next ns : Word) : Word := if next ≠ 0 then (if ns < next then ns else next) else ns

/-- The steps of a thread; `none` is the timer's thread. `timer_free` is called when no other thread
is in `timer_set_oneshot`, and none calls it from then on. -/
inductive Step [DecidableEq τ] : Option τ → Pc → Timer τ → Event → Pc → Timer τ → Prop
  | call {t : τ} {s : Timer τ} (ns : Word) (h : s.closing = none) :
      Step (some t) .idle s .tau (.enter ns) { s with callers := insert t s.callers }
  | enter {t : τ} {s : Timer τ} {ns : Word} : Step (some t) (.enter ns) s .touch (.lock ns) s
  | lock {t : τ} {s : Timer τ} {ns : Word} (h : s.mtx = none) :
      Step (some t) (.lock ns) s .touch (.set ns) { s with mtx := some (some t) }
  | update {t : τ} {s : Timer τ} {ns : Word} (h : s.armed = true) :
      Step (some t) (.set ns) s (.set ns) .wakeUp { s with delayNs := ns, wake := s.wake + 1 }
  | arm {t : τ} {s : Timer τ} {ns : Word} (h : s.armed = false) :
      Step (some t) (.set ns) s (.set ns) .unlock
        { s with armed := true, delayNs := ns, nextDelayNs := 0, created := true }
  | wakeUp {t : τ} {s : Timer τ} : Step (some t) .wakeUp s .tau .unlock { s with asleep := false }
  | unlock {t : τ} {s : Timer τ} :
      Step (some t) .unlock s .touch .idle { s with mtx := none, callers := s.callers.erase t }
  | callFree {t : τ} {s : Timer τ} (h : s.closing = none) (hc : s.callers = ∅) :
      Step (some t) .idle s .tau .freeLock { s with closing := some t }
  | freeLock {t : τ} {s : Timer τ} (h : s.mtx = none) :
      Step (some t) .freeLock s .touch .free { s with mtx := some (some t) }
  | disarm {t : τ} {s : Timer τ} (h : s.armed = true) :
      Step (some t) .free s .touch .freeWake { s with armed := false, wake := s.wake + 1 }
  | notArmed {t : τ} {s : Timer τ} (h : s.armed = false) :
      Step (some t) .free s .touch .freeQuit s
  | freeWake {t : τ} {s : Timer τ} :
      Step (some t) .freeWake s .tau .freeUnlock { s with asleep := false }
  | freeUnlock {t : τ} {s : Timer τ} :
      Step (some t) .freeUnlock s .touch .join { s with mtx := none }
  | join {t : τ} {s : Timer τ} (h : s.exited = true) : Step (some t) .join s .touch .dispose s
  | freeQuit {t : τ} {s : Timer τ} : Step (some t) .freeQuit s .touch .dispose { s with mtx := none }
  | dispose {t : τ} {s : Timer τ} : Step (some t) .dispose s .freed .idle { s with freed := true }
  | born {s : Timer τ} (h : s.created = true) : Step none .unborn s .touch .start s
  | start {s : Timer τ} (h : s.mtx = none) :
      Step none .start s .touch .head { s with mtx := some none }
  | stop {s : Timer τ} (h : s.delayNs = 0) : Step none .head s .touch .leave s
  | read {s : Timer τ} (h : s.delayNs ≠ 0) : Step none .head s .touch (.release s.delayNs s.wake) s
  | release {s : Timer τ} {d : Word} {w : ℕ} :
      Step none (.release d w) s .touch (.wait d w) { s with mtx := none }
  | sleep {s : Timer τ} {d : Word} {w : ℕ} (h : BitVec.ofNat 32 s.wake = BitVec.ofNat 32 w) :
      Step none (.wait d w) s (.sleep d (s.wake - w)) (.asleep d) { s with asleep := true }
  | changed {s : Timer τ} {d : Word} {w : ℕ} (h : BitVec.ofNat 32 s.wake ≠ BitVec.ofNat 32 w) :
      Step none (.wait d w) s .touch (.relock false) s
  -- woken, or back for no reason
  | woken {s : Timer τ} {d : Word} :
      Step none (.asleep d) s .tau (.relock false) { s with asleep := false }
  | timeout {s : Timer τ} {d : Word} (h : s.asleep = true) :
      Step none (.asleep d) s .tau (.relock true) { s with asleep := false }
  | relock {s : Timer τ} {b : Bool} (h : s.mtx = none) :
      Step none (.relock b) s .touch (.check b) { s with mtx := some none }
  | shutDown {s : Timer τ} {b : Bool} (h : s.armed = false) : Step none (.check b) s .touch .leave s
  | fire {s : Timer τ} (h : s.armed = true) :
      Step none (.check true) s .fire (.callback false) { s with nextDelayNs := 0 }
  | spurious {s : Timer τ} (h : s.armed = true) : Step none (.check false) s .touch .tail s
  | reset {s : Timer τ} {b : Bool} (ns : Word) (h : s.armed = true) :
      Step none (.callback b) s (.reset ns s.nextDelayNs) (.callback true)
        { s with nextDelayNs := nextDelay s.nextDelayNs ns }
  | refused {s : Timer τ} {b : Bool} (h : s.armed = false) :
      Step none (.callback b) s .touch (.callback b) s
  | done {s : Timer τ} {b : Bool} :
      Step none (.callback b) s (.done b) .tail
        { s with
          delayNs := if s.nextDelayNs ≠ 0 then s.nextDelayNs else s.delayNs
          nextDelayNs := 0 }
  | loop {s : Timer τ} (h : s.armed = true) : Step none .tail s .touch .head s
  | quit {s : Timer τ} (h : s.armed = false) : Step none .tail s .touch .leave s
  | leave {s : Timer τ} : Step none .leave s .touch .exit { s with mtx := none }
  | exit {s : Timer τ} : Step none .exit s .tau .gone { s with exited := true }

def timerAlloc : Config (Option τ) Pc (Timer τ) where
  loc x := if x = none then .unborn else .idle
  shared := ⟨0, 0, none, 0, false, false, false, false, false, ∅, none⟩

/-! ## The invariant -/

def Pc.Locks : Pc → Prop
  | .set _ | .wakeUp | .unlock | .free | .freeWake | .freeUnlock | .freeQuit | .head | .release ..
  | .check _ | .callback _ | .tail | .leave => True
  | _ => False

def Pc.Setting : Pc → Prop
  | .enter _ | .lock _ | .set _ | .wakeUp | .unlock => True
  | _ => False

def Pc.Freeing : Pc → Prop
  | .freeLock | .free | .freeWake | .freeUnlock | .join | .freeQuit | .dispose => True
  | _ => False

def Pc.Own : Pc → Prop
  | .unborn | .start | .head | .release .. | .wait .. | .asleep _ | .relock _ | .check _
  | .callback _ | .tail | .leave | .exit | .gone => True
  | _ => False

variable [DecidableEq τ] {s s' : Timer τ} {x y : Option τ} {pc pc' q : Pc} {a : Event}
  {ls : List Event} {t : τ} {ns : Word}

structure Sound (s : Timer τ) : Prop where
  created : s.armed = true → s.created = true
  closed : s.created = true → s.armed = false → s.closing ≠ none
  callers : s.closing ≠ none → s.callers = ∅
  freed : s.freed = true → s.closing ≠ none ∧ (s.created = true → s.exited = true)

/-- What holds of a thread in `timer_free`. -/
def Closing (s : Timer τ) : Pc → Prop
  | .freeLock | .free => s.created = true → s.armed = true
  | .freeQuit => s.created = false
  | .dispose => s.created = true → s.exited = true
  | _ => True

structure At (x : Option τ) (pc : Pc) (s : Timer τ) : Prop where
  mtx : s.mtx = some x ↔ pc.Locks
  own : pc.Own ↔ x = none
  setting : ∀ t, x = some t → (t ∈ s.callers ↔ pc.Setting)
  freeing : ∀ t, x = some t → pc.Freeing → s.closing = some t ∧ s.freed = false ∧ Closing s pc
  exited : x = none → (s.exited = true ↔ pc = .gone)
  born : x = none → pc ≠ .unborn → s.created = true

/-- What a step of `x` leaves as it is for the others. -/
structure Frame (x : Option τ) (s s' : Timer τ) : Prop where
  mtx : ∀ y, y ≠ x → (s'.mtx = some y ↔ s.mtx = some y)
  callers : ∀ t, some t ≠ x → (t ∈ s'.callers ↔ t ∈ s.callers)
  exited : x ≠ none → s'.exited = s.exited
  exits : s.exited = true → s'.exited = true
  created : s.created = true → s'.created = true
  closing : ∀ t, some t ≠ x → s.closing = some t → s'.closing = some t ∧ s'.freed = s.freed ∧
    s'.created = s.created ∧ s'.armed = s.armed

section

omit [DecidableEq τ]

theorem At.frame (h : At y pc s) (hf : Frame x s s') (hne : y ≠ x) : At y pc s' := by
  refine ⟨(hf.mtx y hne).trans h.mtx, h.own, ?_, ?_, ?_, ?_⟩
  · rintro t rfl
    exact (hf.callers t hne).trans (h.setting t rfl)
  · rintro t rfl hfree
    obtain ⟨hc, hfreed, hcl⟩ := h.freeing t rfl hfree
    obtain ⟨hc', hfreed', hcreated, harmed⟩ := hf.closing t hne hc
    refine ⟨hc', hfreed'.trans hfreed, ?_⟩
    cases pc <;> simp only [Closing, hcreated, harmed] at hcl ⊢ <;> first | exact hcl | skip
    exact fun hc => hf.exits (hcl hc)
  · rintro rfl
    rw [hf.exited hne.symm]
    exact h.exited rfl
  · rintro rfl hpc
    exact hf.created (h.born rfl hpc)

theorem Frame.lock (h : s.mtx = none) : Frame x s { s with mtx := some x } :=
  ⟨fun y hy => by simp [h, Ne.symm hy], fun _ _ => Iff.rfl, fun _ => rfl, id, id,
    fun _ _ h => ⟨h, rfl, rfl, rfl⟩⟩

theorem Frame.unlock (h : s.mtx = some x) : Frame x s { s with mtx := none } :=
  ⟨fun y hy => by simp [h, Ne.symm hy], fun _ _ => Iff.rfl, fun _ => rfl, id, id,
    fun _ _ h => ⟨h, rfl, rfl, rfl⟩⟩

theorem At.closing_eq_none (h : At (some t) pc s) (hs : Sound s) (hpc : pc.Setting) : s.closing = none := by
  by_contra hne
  have hmem := (h.setting t rfl).mpr hpc
  rw [hs.callers hne] at hmem
  exact absurd hmem (Finset.notMem_empty t)

theorem At.thread (hat : At none pc s) (hpc : pc ≠ .gone) (hmtx : s'.mtx = some none ↔ q.Locks)
    (hq : q.Own) (hgone : q ≠ .gone) (hex : s'.exited = s.exited) (hc : s'.created = s.created)
    (hborn : pc = .unborn → s.created = true) : At none q s' := by
  refine ⟨hmtx, iff_of_true hq rfl, by simp, by simp, fun _ => ?_, fun _ _ => ?_⟩
  · rw [hex, hat.exited rfl]
    exact iff_of_false hpc hgone
  · rw [hc]
    by_cases hu : pc = .unborn
    · exact hborn hu
    · exact hat.born rfl hu

theorem At.caller (hmtx : s.mtx = some (some t) ↔ q.Locks) (hq : ¬ q.Own) (hset : t ∈ s.callers ↔ q.Setting)
    (hfree : q.Freeing → s.closing = some t ∧ s.freed = false ∧ Closing s q) : At (some t) q s := by
  refine ⟨hmtx, by simpa using hq, ?_, ?_, by simp, by simp⟩
  · rintro u hu
    cases hu
    exact hset
  · rintro u hu
    cases hu
    exact hfree

theorem At.not_locks (h : At x pc s) (hne : s.mtx ≠ some x) : ¬ pc.Locks := fun hl => hne (h.mtx.mpr hl)

theorem at_timerAlloc (x : Option τ) : At x ((timerAlloc (τ := τ)).loc x) (timerAlloc (τ := τ)).shared := by
  cases x <;> exact ⟨by simp [timerAlloc, Pc.Locks], by simp [timerAlloc, Pc.Own],
    by simp [timerAlloc, Pc.Setting], by simp [timerAlloc, Pc.Freeing], by simp [timerAlloc],
    by simp [timerAlloc]⟩

theorem sound_timerAlloc : Sound (timerAlloc (τ := τ)).shared :=
  ⟨by simp [timerAlloc], by simp [timerAlloc], by simp [timerAlloc], by simp [timerAlloc]⟩

end

section

variable (h : Step x pc s a pc' s') (hs : Sound s) (hat : At x pc s)

include h hs hat

theorem Step.frame : Frame x s s' := by
  cases h with
  | @call t _ ns h =>
    refine ⟨fun _ _ => Iff.rfl, fun u hu => ?_, fun _ => rfl, id, id, fun _ _ h => ⟨h, rfl, rfl, rfl⟩⟩
    have hne : u ≠ t := fun he => hu (congrArg some he)
    simp [hne]
  | lock h | start h | relock h | freeLock h => exact .lock h
  | freeUnlock | freeQuit | release | leave => exact .unlock (hat.mtx.mpr trivial)
  | arm h =>
    have hnone := hat.closing_eq_none hs trivial
    exact ⟨fun _ _ => Iff.rfl, fun _ _ => Iff.rfl, fun _ => rfl, id, fun _ => rfl,
      fun _ _ h => by simp [hnone] at h⟩
  | @unlock t =>
    have hmtx := hat.mtx.mpr trivial
    refine ⟨fun y hy => by simp [hmtx, Ne.symm hy], fun u hu => ?_, fun _ => rfl, id, id,
      fun _ _ h => ⟨h, rfl, rfl, rfl⟩⟩
    have hne : u ≠ t := fun he => hu (congrArg some he)
    simp [hne]
  | callFree h =>
    exact ⟨fun _ _ => Iff.rfl, fun _ _ => Iff.rfl, fun _ => rfl, id, id, fun _ _ hc => by simp [h] at hc⟩
  | @disarm t | @dispose t =>
    have hclosing := (hat.freeing t rfl trivial).1
    refine ⟨fun _ _ => Iff.rfl, fun _ _ => Iff.rfl, fun _ => rfl, id, id, fun u hu hc => ?_⟩
    exact absurd (hc.symm.trans hclosing) hu
  | exit =>
    exact ⟨fun _ _ => Iff.rfl, fun _ _ => Iff.rfl, fun h => absurd rfl h, fun _ => rfl, id,
      fun _ _ h => ⟨h, rfl, rfl, rfl⟩⟩
  | _ =>
    exact ⟨fun _ _ => Iff.rfl, fun _ _ => Iff.rfl, fun _ => rfl, id, id, fun _ _ h => ⟨h, rfl, rfl, rfl⟩⟩

theorem Step.sound : Sound s' := by
  cases h with
  | @call t _ ns h => exact ⟨hs.created, hs.closed, fun hne => absurd h hne, hs.freed⟩
  | arm h =>
    have hnone := hat.closing_eq_none hs trivial
    exact ⟨fun _ => rfl, fun _ h => by simp at h, hs.callers, fun hf => absurd hnone (hs.freed hf).1⟩
  | @unlock t =>
    refine ⟨hs.created, hs.closed, fun hne => ?_, hs.freed⟩
    exact absurd (hat.closing_eq_none hs trivial) hne
  | callFree h hc =>
    exact ⟨hs.created, fun _ _ => by simp, fun _ => hc, fun hf => absurd h (hs.freed hf).1⟩
  | @disarm t =>
    obtain ⟨hclosing, hfreed, -⟩ := hat.freeing t rfl trivial
    exact ⟨fun h => by simp at h, fun _ _ => by simp [hclosing], hs.callers, hs.freed⟩
  | @dispose t =>
    obtain ⟨hclosing, -, hexited⟩ := hat.freeing t rfl trivial
    exact ⟨hs.created, hs.closed, hs.callers, fun _ => ⟨by simp [hclosing], hexited⟩⟩
  | exit => exact ⟨hs.created, hs.closed, hs.callers, fun hf => ⟨(hs.freed hf).1, fun _ => rfl⟩⟩
  | _ => exact ⟨hs.created, hs.closed, hs.callers, hs.freed⟩

theorem Step.at : At x pc' s' := by
  cases h with
  | call ns h => exact .caller hat.mtx id (by simp [Pc.Setting]) False.elim
  | enter | update | wakeUp => exact .caller hat.mtx id (hat.setting _ rfl) False.elim
  | lock h => exact .caller (by simp [Pc.Locks]) id (hat.setting _ rfl) False.elim
  | arm h => exact .caller hat.mtx id (hat.setting _ rfl) False.elim
  | unlock => exact .caller (by simp [Pc.Locks]) id (by simp [Pc.Setting]) False.elim
  | callFree h hc =>
    refine .caller hat.mtx id (hat.setting _ rfl) fun _ => ⟨rfl, ?_, fun hcr => ?_⟩
    · exact Bool.eq_false_iff.mpr fun hf => (hs.freed hf).1 h
    · by_contra hne
      exact hs.closed hcr (Bool.eq_false_iff.mpr hne) h
  | freeLock h => exact .caller (by simp [Pc.Locks]) id (hat.setting _ rfl) fun _ => hat.freeing _ rfl trivial
  | disarm h | freeWake =>
    obtain ⟨hc, hf, -⟩ := hat.freeing _ rfl trivial
    exact .caller hat.mtx id (hat.setting _ rfl) fun _ => ⟨hc, hf, trivial⟩
  | notArmed h =>
    obtain ⟨hc, hf, harmed⟩ := hat.freeing _ rfl trivial
    refine .caller hat.mtx id (hat.setting _ rfl) fun _ => ⟨hc, hf, ?_⟩
    exact Bool.eq_false_iff.mpr fun hcr => absurd ((harmed hcr).symm.trans h) (by simp)
  | freeUnlock =>
    obtain ⟨hc, hf, -⟩ := hat.freeing _ rfl trivial
    exact .caller (by simp [Pc.Locks]) id (hat.setting _ rfl) fun _ => ⟨hc, hf, trivial⟩
  | join h =>
    obtain ⟨hc, hf, -⟩ := hat.freeing _ rfl trivial
    exact .caller hat.mtx id (hat.setting _ rfl) fun _ => ⟨hc, hf, fun _ => h⟩
  | freeQuit =>
    obtain ⟨hc, hf, hcr⟩ := hat.freeing _ rfl trivial
    refine .caller (by simp [Pc.Locks]) id (hat.setting _ rfl) fun _ => ⟨hc, hf, fun h => ?_⟩
    exact absurd (hcr.symm.trans h) (by simp)
  | dispose => exact .caller hat.mtx id (hat.setting _ rfl) False.elim
  | born h => exact hat.thread (by simp) hat.mtx trivial (by simp) rfl rfl fun _ => h
  | start | release | relock | leave =>
    exact hat.thread (by simp) (by simp [Pc.Locks]) trivial (by simp) rfl rfl (by simp)
  | exit =>
    exact ⟨hat.mtx, iff_of_true trivial rfl, by simp, by simp, by simp, fun _ _ => hat.born rfl (by simp)⟩
  | _ => exact hat.thread (by simp) hat.mtx trivial (by simp) rfl rfl (by simp)

end

/-! ## The delay set last -/

def Event.setting : Event → Option Word
  | .set ns | .reset ns _ => some ns
  | _ => none

def lastSet (ls : List Event) : Option Word := (ls.filterMap Event.setting).getLast?

theorem lastSet_append_of_none (h : a.setting = none) : lastSet (ls ++ [a]) = lastSet ls := by
  simp [lastSet, h]

theorem lastSet_append (h : a.setting = some ns) : lastSet (ls ++ [a]) = some ns := by
  simp [lastSet, h]

/-- No delay is `0`; the callback does not ask for a delay larger than one it has asked for before;
`wake` does not come back to the value that was read. -/
def Event.Fits : Event → Prop
  | .set ns => ns ≠ 0
  | .reset ns earlier => ns ≠ 0 ∧ (earlier = 0 ∨ ns ≤ earlier)
  | .sleep _ missed => missed < 2 ^ 32
  | _ => True

theorem nextDelay_eq {next : Word} (h : next = 0 ∨ ns ≤ next) : nextDelay next ns = ns := by
  rcases h with rfl | hle
  · simp [nextDelay]
  · unfold nextDelay
    split_ifs with hne hlt
    · rfl
    · exact BitVec.le_antisymm (BitVec.not_lt.mp hlt) hle
    · rfl

def Pc.delay (s : Timer τ) : Pc → Word
  | .callback _ => if s.nextDelayNs ≠ 0 then s.nextDelayNs else s.delayNs
  | _ => s.delayNs

/-- What the timer's thread knows about the delay, when the threads of `g` are about to wake it. -/
def Pc.Aware (g : Finset τ) (s : Timer τ) : Pc → Prop
  | .release d w => s.wake = w ∧ s.delayNs = d
  | .wait d w => w ≤ s.wake ∧ (s.wake = w → s.delayNs = d)
  | .asleep d => s.asleep = true → s.delayNs = d ∨ g.Nonempty
  | .leave | .exit | .gone => s.armed = false
  | _ => True

/-- What holds of the timer's thread after the steps `ls`. -/
structure Current (ls : List Event) (g : Finset τ) (pc : Pc) (s : Timer τ) : Prop where
  last : s.created = true → lastSet ls = some (pc.delay s)
  aware : pc.Aware g s

variable {g : Finset τ}

omit [DecidableEq τ] in
theorem Current.keep (h : Current ls g pc s) (ha : a.setting = none)
    (hc : s'.created = s.created) (hd : q.delay s' = pc.delay s) (haware : q.Aware g s') :
    Current (ls ++ [a]) g q s' := by
  refine ⟨fun hcr => ?_, haware⟩
  rw [lastSet_append_of_none ha, hd]
  exact h.last (hc.symm.trans hcr)

theorem Step.current (h : Step none pc s a pc' s') (hfits : a.Fits)
    (hat : At none pc s) (hpos : s.created = true → s.delayNs ≠ 0) (hc : Current ls g pc s) :
    Current (ls ++ [a]) g pc' s' ∧ (s'.created = true → s'.delayNs ≠ 0) ∧
      ∀ d n, a = .sleep d n → lastSet ls = some d := by
  cases h with
  | stop h => exact absurd h (hpos (hat.born rfl (by simp)))
  | read h => exact ⟨hc.keep rfl rfl rfl ⟨rfl, rfl⟩, hpos, by simp⟩
  | release =>
    obtain ⟨hw, hd⟩ := hc.aware
    exact ⟨hc.keep rfl rfl rfl ⟨hw.ge, fun _ => hd⟩, hpos, by simp⟩
  | @sleep _ d w h =>
    obtain ⟨hle, hd⟩ := hc.aware
    have hw : s.wake = w := by
      have hmod := congrArg BitVec.toNat h
      rw [BitVec.toNat_ofNat, BitVec.toNat_ofNat] at hmod
      change s.wake - w < 2 ^ 32 at hfits
      omega
    refine ⟨hc.keep rfl rfl rfl fun _ => .inl (hd hw), hpos, fun d' n he => ?_⟩
    cases he
    rw [hc.last (hat.born rfl (by simp)), ← hd hw]
    rfl
  | shutDown h | quit h => exact ⟨hc.keep rfl rfl rfl h, hpos, by simp⟩
  | leave | exit => exact ⟨hc.keep rfl rfl rfl hc.aware, hpos, by simp⟩
  | @reset _ b ns h =>
    obtain ⟨hne, hle⟩ := hfits
    have hnext := nextDelay_eq hle
    refine ⟨⟨fun _ => ?_, trivial⟩, hpos, by simp⟩
    rw [lastSet_append (a := .reset ns s.nextDelayNs) rfl]
    change some ns = some (if nextDelay s.nextDelayNs ns ≠ 0 then _ else _)
    rw [hnext, if_pos hne]
  | done =>
    refine ⟨hc.keep rfl rfl rfl trivial, fun hcr => ?_, by simp⟩
    change (if s.nextDelayNs ≠ 0 then s.nextDelayNs else s.delayNs) ≠ 0
    split_ifs with hne
    · exact hne
    · exact hpos hcr
  | fire h => exact ⟨hc.keep rfl rfl (by simp [Pc.delay]) trivial, hpos, by simp⟩
  | _ => exact ⟨hc.keep rfl rfl rfl trivial, hpos, by simp⟩

theorem Current.update (h : Current ls g pc s) (hpc : ¬ pc.Locks)
    (harmed : s.armed = true) : Current (ls ++ [.set ns]) (insert t g) pc
      { s with delayNs := ns, wake := s.wake + 1 } := by
  refine ⟨fun _ => ?_, ?_⟩
  · rw [lastSet_append (a := .set ns) rfl]
    cases pc with
    | callback => exact absurd trivial hpc
    | _ => rfl
  · have haware := h.aware
    cases pc with
    | release | leave => exact absurd trivial hpc
    | wait d w => exact ⟨haware.1.trans (Nat.le_succ _), fun he => absurd haware.1 (by simp at he; omega)⟩
    | asleep => exact fun _ => .inr (Finset.insert_nonempty t g)
    | exit | gone => exact absurd (haware.symm.trans harmed) (by simp)
    | _ => trivial

theorem Step.interference (h : Step (some t) pc s a pc' s') (ls : List Event)
    (hfits : a.Fits) (hs : Sound s) (hat : At (some t) pc s) (hpos : s.created = true → s.delayNs ≠ 0)
    (hg : t ∈ g ↔ pc = .wakeUp) : ∃ g', (t ∈ g' ↔ pc' = .wakeUp) ∧ (∀ u, u ≠ t → (u ∈ g' ↔ u ∈ g)) ∧
      (s'.created = true → s'.delayNs ≠ 0) ∧ (∀ d n, a ≠ .sleep d n) ∧
      ∀ q, At none q s → Current ls g q s → Current (ls ++ [a]) g' q s' := by
  cases h with
  | update h =>
    refine ⟨insert t g, by simp, fun u hu => by simp [hu], fun _ => hfits, by simp, fun q hq hc => ?_⟩
    have hmtx := hat.mtx.mpr trivial
    exact hc.update (hq.not_locks (by simp [hmtx])) h
  | arm h =>
    refine ⟨g, by simpa using hg, fun _ _ => Iff.rfl, fun _ => hfits, by simp, fun q hq _ => ?_⟩
    have hq : q = .unborn := by
      by_contra hne
      exact hs.closed (hq.born rfl hne) h (hat.closing_eq_none hs trivial)
    subst hq
    exact ⟨fun _ => lastSet_append rfl, trivial⟩
  | wakeUp =>
    refine ⟨g.erase t, by simp, fun u hu => by simp [hu], hpos, by simp, fun q _ hc => ?_⟩
    refine ⟨fun hcr => (lastSet_append_of_none rfl).trans (hc.last hcr), ?_⟩
    have haware := hc.aware
    cases q <;> first | exact haware | exact fun h => absurd h (by simp)
  | disarm h =>
    refine ⟨g, by simpa using hg, fun _ _ => Iff.rfl, hpos, by simp, fun q hq hc => ?_⟩
    have hmtx := hat.mtx.mpr trivial
    have hlocks := hq.not_locks (by simp [hmtx])
    refine hc.keep rfl rfl rfl ?_
    have haware := hc.aware
    cases q with
    | release => exact absurd trivial hlocks
    | wait d w => exact ⟨haware.1.trans (Nat.le_succ _), fun he => absurd haware.1 (by simp at he; omega)⟩
    | asleep => exact haware
    | leave | exit | gone => rfl
    | _ => trivial
  | freeWake =>
    refine ⟨g, by simpa using hg, fun _ _ => Iff.rfl, hpos, by simp, fun q _ hc => ?_⟩
    refine hc.keep rfl rfl rfl ?_
    have haware := hc.aware
    cases q <;> first | exact haware | exact fun h => absurd h (by simp)
  | _ =>
    exact ⟨g, by simpa using hg, fun _ _ => Iff.rfl, hpos, by simp, fun q _ hc => hc.keep rfl rfl rfl hc.aware⟩

/-! ## All runs -/

theorem Step.freed_eq_false (h : Step x pc s a pc' s') (hs : Sound s) (hat : At x pc s) : s.freed = false := by
  by_contra hf
  obtain ⟨hclosing, hexit⟩ := hs.freed (Bool.eq_true_of_not_eq_false hf)
  cases x with
  | none =>
    have hcreated : s.created = true := by
      cases h with
      | born h => exact h
      | _ => exact hat.born rfl (by simp)
    have hgone := (hat.exited rfl).mp (hexit hcreated)
    subst hgone
    cases h
  | some t =>
    cases h with
    | call _ h | callFree h => exact hclosing h
    | enter | lock | update | arm | wakeUp | unlock => exact hclosing (hat.closing_eq_none hs trivial)
    | _ => exact hf (hat.freeing t rfl trivial).2.1

variable {c : Config (Option τ) Pc (Timer τ)}

theorem run_rule {γ : Type*} {H : List Event → Prop} {G : List Event → γ → Timer τ → Prop}
    {P : List Event → γ → Option τ → Pc → Timer τ → Prop}
    (hstep : ∀ ls g x pc s a pc' s', H (ls ++ [a]) → Sound s → At x pc s → G ls g s → P ls g x pc s →
      Step x pc s a pc' s' → ∃ g', G (ls ++ [a]) g' s' ∧ P (ls ++ [a]) g' x pc' s' ∧
        ∀ y q, y ≠ x → At y q s → P ls g y q s → P (ls ++ [a]) g' y q s')
    (hrun : Run (Interleave Step) timerAlloc ls c) (hok : ∀ p, p <+: ls → H p) {k : γ}
    (hG : G [] k (timerAlloc (τ := τ)).shared)
    (hP : ∀ x, P [] k x ((timerAlloc (τ := τ)).loc x) (timerAlloc (τ := τ)).shared) :
    ∃ g, (Sound c.shared ∧ G ls g c.shared) ∧ ∀ x, At x (c.loc x) c.shared ∧ P ls g x (c.loc x) c.shared := by
  refine Interleave.run_inv (G := fun ls g s => Sound s ∧ G ls g s)
    (P := fun ls g x pc s => At x pc s ∧ P ls g x pc s) ?_ hrun hok ⟨sound_timerAlloc, hG⟩
    fun x => ⟨at_timerAlloc x, hP x⟩
  rintro ls g x pc s a pc' s' hok ⟨hs, hG⟩ ⟨hat, hP⟩ h
  obtain ⟨g', hG', hP', hframe⟩ := hstep ls g x pc s a pc' s' hok hs hat hG hP h
  refine ⟨g', ⟨h.sound hs hat, hG'⟩, ⟨h.at hs hat, hP'⟩, fun y q hne hq => ?_⟩
  exact ⟨hq.1.frame (h.frame hs hat) hne, hframe y q hne hq.1 hq.2⟩

theorem sound_run (hrun : Run (Interleave Step) timerAlloc ls c) :
    Sound c.shared ∧ ∀ x, At x (c.loc x) c.shared := by
  obtain ⟨-, hs, hat⟩ := run_rule (γ := Unit) (H := fun _ => True) (G := fun _ _ _ => True)
    (P := fun _ _ _ _ _ => True)
    (fun _ g _ _ _ _ _ _ _ _ _ _ _ _ => ⟨g, trivial, trivial, fun _ _ _ _ => id⟩) hrun
    (fun _ _ => trivial) (k := ()) trivial fun _ => trivial
  exact ⟨hs.1, fun x => (hat x).1⟩

def Known (ls : List Event) (g : Finset τ) (pc : Pc) (s : Timer τ) : Option τ → Prop
  | none => Current ls g pc s
  | some t => t ∈ g ↔ pc = .wakeUp

/-- Every sleep is as long as the delay set last. -/
def Timely (ls : List Event) : Prop := ∀ p d n, p ++ [.sleep d n] <+: ls → lastSet p = some d

theorem Timely.append (h : Timely ls) (ha : ∀ d n, a = .sleep d n → lastSet ls = some d) : Timely (ls ++ [a]) := by
  intro p d n hp
  rcases prefix_concat_iff.mp hp with he | hp
  · obtain ⟨rfl, hlast⟩ := append_inj' he rfl
    exact ha d n (head_eq_of_cons_eq hlast).symm
  · exact h p d n hp

theorem current_run (hrun : Run (Interleave Step) timerAlloc ls c) (hfits : ∀ a ∈ ls, a.Fits) :
    Timely ls ∧ ∃ g, ∀ x, Known ls g (c.loc x) c.shared x := by
  have hstep : ∀ (ls : List Event) (g : Finset τ) (x : Option τ) pc s a pc' s',
      (∀ a' ∈ ls ++ [a], Event.Fits a') → Sound s → At x pc s →
      ((s.created = true → s.delayNs ≠ 0) ∧ Timely ls) → Known ls g pc s x → Step x pc s a pc' s' →
      ∃ g', ((s'.created = true → s'.delayNs ≠ 0) ∧ Timely (ls ++ [a])) ∧
        Known (ls ++ [a]) g' pc' s' x ∧
        ∀ y q, y ≠ x → At y q s → Known ls g q s y → Known (ls ++ [a]) g' q s' y := by
    rintro ls g x pc s a pc' s' hfits hs hat ⟨hpos, htimely⟩ hk h
    have hfit := hfits a (by simp)
    cases x with
    | none =>
      obtain ⟨hc, hpos', hsleep⟩ := h.current hfit hat hpos hk
      refine ⟨g, ⟨hpos', htimely.append hsleep⟩, hc, ?_⟩
      rintro (_ | u) q hne - hq
      · exact absurd rfl hne
      · exact hq
    | some t =>
      obtain ⟨g', hg, hframe, hpos', hsleep, hc⟩ := h.interference ls hfit hs hat hpos hk
      refine ⟨g', ⟨hpos', htimely.append fun d n he => absurd he (hsleep d n)⟩, hg, ?_⟩
      rintro (_ | u) q hne hq hk
      · exact hc q hq hk
      · exact (hframe u fun he => hne (congrArg some he)).trans hk
  have hinit : ∀ x, Known [] ∅ ((timerAlloc (τ := τ)).loc x) (timerAlloc (τ := τ)).shared x := by
    rintro (_ | t)
    · exact ⟨by simp [timerAlloc], trivial⟩
    · simp [Known, timerAlloc]
  obtain ⟨g, ⟨-, -, htimely⟩, hk⟩ := run_rule (H := fun ls => ∀ a ∈ ls, Event.Fits a)
    (G := fun ls _ s => (s.created = true → s.delayNs ≠ 0) ∧ Timely ls)
    (P := fun ls g x pc s => Known ls g pc s x) hstep hrun (fun p hp a ha => hfits a (hp.subset ha))
    ⟨by simp [timerAlloc], by simp [Timely]⟩ hinit
  exact ⟨htimely, g, fun x => (hk x).2⟩

def Pc.Looping : Pc → Prop
  | .unborn | .start | .head | .release .. | .wait .. | .asleep _ | .relock _ | .check _
  | .callback _ | .tail => True
  | _ => False

omit [DecidableEq τ] in
theorem Pc.Own.looping (h : pc.Own) (haware : pc.Aware g s) (harmed : s.armed = true) : pc.Looping := by
  cases pc with
  | leave | exit | gone => exact absurd (haware.symm.trans harmed) (by simp)
  | _ => first | exact trivial | exact h.elim

theorem Step.freed_eq_true (h : Step x pc s .freed pc' s') : s'.freed = true := by
  cases h
  rfl

/-- **The timers of the kernel.** If the delays fit: an armed timer has a thread in its loop with the delay set last
in store; every sleep is as long as that delay, and whoever sets another one wakes the thread. Nobody uses the timer
after it is freed. -/
theorem timer_correct (hrun : Run (Interleave Step) timerAlloc ls c) : ((∀ a ∈ ls, a.Fits) →
      (c.shared.armed = true → c.shared.created = true ∧ (c.loc none).Looping ∧
        lastSet ls = some ((c.loc none).delay c.shared)) ∧
      Timely ls ∧ ∀ d, c.loc none = .asleep d → c.shared.asleep = true →
        lastSet ls = some d ∨ ∃ t, c.loc (some t) = .wakeUp) ∧
    ∀ p q, ls = p ++ .freed :: q → ∀ a ∈ q, a = .tau := by
  refine ⟨fun hfits => ?_, fun p q hls => ?_⟩
  · obtain ⟨hs, hat⟩ := sound_run hrun
    obtain ⟨htimely, g, hk⟩ := current_run hrun hfits
    have hcurrent : Current ls g (c.loc none) c.shared := hk none
    refine ⟨fun harmed => ?_, htimely, fun d hpc hasleep => ?_⟩
    · exact ⟨hs.created harmed, ((hat none).own.mpr rfl).looping hcurrent.aware harmed,
        hcurrent.last (hs.created harmed)⟩
    · have haware := hcurrent.aware
      have hlast := hcurrent.last ((hat none).born rfl (by simp [hpc]))
      rw [hpc] at haware hlast
      rcases haware hasleep with rfl | ⟨t, ht⟩
      · exact .inl hlast
      · exact .inr ⟨t, (hk (some t)).mp ht⟩
  · subst hls
    rw [append_cons] at hrun
    obtain ⟨c₁, hrun₁, hrest⟩ := hrun.split
    obtain ⟨c₀, -, hlast⟩ := hrun₁.split
    have hfreed : c₁.shared.freed = true := by
      cases hlast with
      | cons hstep hnil =>
        cases hnil
        cases hstep with
        | of x h => exact h.freed_eq_true
    -- there is no further step at all
    cases hrest with
    | nil => simp
    | cons hstep =>
      cases hstep with
      | of x h =>
        obtain ⟨hs, hat⟩ := sound_run hrun₁
        exact absurd (hfreed.symm.trans (h.freed_eq_false hs (hat x))) (by simp)

def duo (own caller : Pc) (s : Timer Unit) : Config (Option Unit) Pc (Timer Unit) where
  loc x := if x = none then own else caller
  shared := s

section Duo

variable {k k' l l' : Pc} {u u' : Timer Unit}

theorem duo_own (h : Step none k u a k' u') : Interleave Step (duo k l u) a (duo k' l u') := by
  have hloc : (duo k' l u').loc = Function.update (duo k l u).loc none k' := by
    funext x
    cases x <;> rfl
  rw [show duo k' l u' = ⟨(duo k' l u').loc, u'⟩ from rfl, hloc]
  exact .of none h

theorem duo_caller (h : Step (some ()) l u a l' u') : Interleave Step (duo k l u) a (duo k l' u') := by
  have hloc : (duo k l' u').loc = Function.update (duo k l u).loc (some ()) l' := by
    funext x
    cases x <;> rfl
  rw [show duo k l' u' = ⟨(duo k l' u').loc, u'⟩ from rfl, hloc]
  exact .of (some ()) h

def running (d next : Word) : Timer Unit :=
  ⟨d, next, some none, 0, true, true, false, false, false, ∅, none⟩

def sleeping (d : Word) : Timer Unit := ⟨d, 0, none, 0, true, true, false, true, false, ∅, none⟩

theorem run_start (d : Word) : Run (Interleave Step) timerAlloc
    [.tau, .touch, .touch, .set d, .touch, .touch, .touch] (duo .head .idle (running d 0)) :=
  .cons (duo_caller (.call d rfl)) (.cons (duo_caller .enter) (.cons (duo_caller (.lock rfl))
    (.cons (duo_caller (.arm rfl)) (.cons (duo_caller .unlock) (.cons (duo_own (.born rfl))
    (.cons (duo_own (.start rfl)) (.nil _)))))))

theorem run_sleep {d : Word} (hd : d ≠ 0) : Run (Interleave Step) (duo .head .idle (running d 0))
    [.touch, .touch, .sleep d 0] (duo (.asleep d) .idle (sleeping d)) :=
  .cons (duo_own (.read hd)) (.cons (duo_own .release) (.cons (duo_own (.sleep rfl)) (.nil _)))

theorem run_fire (d : Word) : Run (Interleave Step) (duo (.asleep d) .idle (sleeping d))
    [.tau, .touch, .fire] (duo (.callback false) .idle (running d 0)) :=
  .cons (duo_own (.timeout rfl)) (.cons (duo_own (.relock rfl)) (.cons (duo_own (.fire rfl)) (.nil _)))

theorem run_first {d : Word} (hd : d ≠ 0) : Run (Interleave Step) timerAlloc
    ([.tau, .touch, .touch, .set d, .touch, .touch, .touch] ++ [.touch, .touch, .sleep d 0] ++
      [.tau, .touch, .fire]) (duo (.callback false) .idle (running d 0)) :=
  ((run_start d).append (run_sleep hd)).append (run_fire d)

end Duo

/-- The callback sets the timer again, and the timer is freed after that. -/
theorem timer_correct_reset : (∃ ls c, Run (Interleave Step) (timerAlloc (τ := Unit)) ls c ∧ .fire ∈ ls ∧
      c.shared.armed = true ∧ lastSet ls = some ((c.loc none).delay c.shared)) ∧
    ∃ ls c, Run (Interleave Step) (timerAlloc (τ := Unit)) ls c ∧ .fire ∈ ls ∧ .freed ∈ ls ∧
      ∀ p q, ls = p ++ .freed :: q → ∀ a ∈ q, a = .tau := by
  have hreset : Run (Interleave Step) (duo (.callback false) .idle (running 5 0))
      [.reset 7 0, .done true, .touch] (duo .head .idle (running 7 0)) :=
    .cons (duo_own (.reset 7 rfl)) (.cons (duo_own .done) (.cons (duo_own (.loop rfl)) (.nil _)))
  have hrun := ((run_first (d := 5) (by decide)).append hreset).append (run_sleep (by decide))
  have hfree := hrun.append
    (.cons (duo_caller (.callFree rfl rfl)) (.cons (duo_caller (.freeLock rfl))
      (.cons (duo_caller (.disarm rfl)) (.cons (duo_caller .freeWake)
      (.cons (duo_caller .freeUnlock) (.cons (duo_own .woken) (.cons (duo_own (.relock rfl))
      (.cons (duo_own (.shutDown rfl)) (.cons (duo_own .leave) (.cons (duo_own .exit)
      (.cons (duo_caller (.join rfl)) (.cons (duo_caller .dispose) (.nil _)))))))))))))
  refine ⟨⟨_, _, hrun, by decide, rfl, ?_⟩, ⟨_, _, hfree, by decide, by decide, (timer_correct hfree).2⟩⟩
  refine (((timer_correct hrun).1 fun a ha => ?_).1 rfl).2.2
  fin_cases ha <;> simp [Event.Fits]

/-- **A delay is dropped.** A delay of `0` makes the thread leave the timer armed, and the delay that is
set then is never slept; of two delays that the callback asks for the smaller one is taken, not the
last one. -/
theorem timer_dropped : (∃ ls c, Run (Interleave Step) (timerAlloc (τ := Unit)) ls c ∧ lastSet ls = some 5 ∧
      c.loc (some ()) = .idle ∧ c.shared.armed = true ∧ c.loc none = .gone) ∧
    ∃ p c, Run (Interleave Step) (timerAlloc (τ := Unit)) (p ++ [.sleep 5 0]) c ∧ lastSet p = some 9 := by
  have hzero := (run_start 0).append
    (.cons (duo_own (.stop rfl)) (.cons (duo_own .leave) (.cons (duo_own .exit)
      (.cons (duo_caller (.call 5 rfl)) (.cons (duo_caller .enter) (.cons (duo_caller (.lock rfl))
      (.cons (duo_caller (.update rfl)) (.cons (duo_caller .wakeUp) (.cons (duo_caller .unlock)
      (.nil _))))))))))
  have hreset : Run (Interleave Step) (duo (.callback false) .idle (running 1 0))
      [.reset 5 0, .reset 9 5, .done true, .touch] (duo .head .idle (running 5 0)) :=
    .cons (duo_own (.reset 5 rfl)) (.cons (duo_own (.reset 9 rfl)) (.cons (duo_own .done)
      (.cons (duo_own (.loop rfl)) (.nil _))))
  have htwice := ((run_first (by decide)).append hreset).append (run_sleep (by decide))
  rw [show [Event.touch, .touch, .sleep 5 0] = [.touch, .touch] ++ [.sleep 5 0] from rfl, ← append_assoc] at htwice
  exact ⟨⟨_, _, hzero, rfl, rfl, rfl, rfl⟩, _, _, htwice, rfl⟩

/-! ## How often the callback is called -/

def fires (ls : List Event) : ℕ := ls.count .fire

def sets (ls : List Event) : ℕ := ls.countP (·.setting.isSome)

/-- The settings that are left for a call of the callback. -/
def Pc.spare (s : Timer τ) : Pc → ℕ
  | .callback false => 0
  | _ => if s.created then 1 else 0

omit [DecidableEq τ] in
theorem Pc.spare_le_one (s : Timer τ) (pc : Pc) : pc.spare s ≤ 1 := by
  unfold Pc.spare
  split
  · exact Nat.zero_le 1
  · split <;> decide

omit [DecidableEq τ] in
theorem Pc.spare_of_created (h : s.created = true) (hpc : pc ≠ .callback false) : pc.spare s = 1 := by
  unfold Pc.spare
  split
  · exact absurd rfl hpc
  · rw [if_pos h]

theorem fires_append (ls : List Event) (a : Event) : fires (ls ++ [a]) = fires ls + if a = .fire then 1 else 0 := by
  simp [fires, count_singleton]

theorem sets_append (ls : List Event) (a : Event) :
    sets (ls ++ [a]) = sets ls + if a.setting.isSome then 1 else 0 := by
  simp [sets, countP_singleton]

theorem Step.spare (h : Step none pc s a pc' s') (hdone : ∀ b, a = .done b → b = true)
    (hat : At none pc s) (hspare : fires ls + pc.spare s ≤ sets ls) :
    fires (ls ++ [a]) + pc'.spare s' ≤ sets (ls ++ [a]) := by
  rw [fires_append, sets_append]
  cases h with
  | fire =>
    rw [Pc.spare_of_created (hat.born rfl (by simp)) (by simp)] at hspare
    exact hspare
  | reset => exact Nat.add_le_add ((Nat.le_add_right _ _).trans hspare) (Pc.spare_le_one _ _)
  | done =>
    cases hdone _ rfl
    exact hspare
  | _ => exact hspare

theorem Step.spare_frame (h : Step (some t) pc s a pc' s')
    (hspare : fires ls + q.spare s ≤ sets ls) : fires (ls ++ [a]) + q.spare s' ≤ sets (ls ++ [a]) := by
  rw [fires_append, sets_append]
  cases h with
  | arm => exact Nat.add_le_add ((Nat.le_add_right _ _).trans hspare) (q.spare_le_one _)
  | update => exact hspare.trans (Nat.le_succ _)
  | _ => exact hspare

/-- **One-shot timers.** If every callback sets the timer again, the callback is called no more often
than the timer is set. -/
theorem oneshot (hrun : Run (Interleave Step) timerAlloc ls c) (hdone : ∀ b, .done b ∈ ls → b = true) :
    fires ls ≤ sets ls := by
  have hstep : ∀ (ls : List Event) (_ : Unit) (x : Option τ) pc s a pc' s',
      (∀ b, .done b ∈ ls ++ [a] → b = true) → Sound s → At x pc s → True →
      (x = none → fires ls + pc.spare s ≤ sets ls) → Step x pc s a pc' s' →
      ∃ _ : Unit, True ∧ (x = none → fires (ls ++ [a]) + pc'.spare s' ≤ sets (ls ++ [a])) ∧
        ∀ y q, y ≠ x → At y q s → (y = none → fires ls + q.spare s ≤ sets ls) →
          (y = none → fires (ls ++ [a]) + q.spare s' ≤ sets (ls ++ [a])) := by
    intro ls _ x pc s a pc' s' hdone hs hat _ hspare h
    refine ⟨(), trivial, ?_, ?_⟩
    · rintro rfl
      exact h.spare (fun b hb => hdone b (by simp [hb])) hat (hspare rfl)
    · rintro y q hne - hle rfl
      cases x with
      | none => exact absurd rfl hne
      | some t => exact h.spare_frame (hle rfl)
  obtain ⟨-, -, hk⟩ := run_rule (H := fun ls => ∀ b, .done b ∈ ls → b = true) (G := fun _ _ _ => True)
    (P := fun ls _ x pc s => x = none → fires ls + pc.spare s ≤ sets ls) hstep hrun
    (fun p hp b hb => hdone b (hp.subset hb)) (k := ()) trivial
    fun x _ => by cases x <;> simp [timerAlloc, fires, sets, Pc.spare]
  exact (Nat.le_add_right _ _).trans ((hk none).2 rfl)

/-- The timer is set, the callback sets it again. -/
theorem oneshot_reset : ∃ ls c, Run (Interleave Step) (timerAlloc (τ := Unit)) ls c ∧ fires ls = 2 ∧
    fires ls ≤ sets ls := by
  have hreset : Run (Interleave Step) (duo (.callback false) .idle (running 5 0))
      [.reset 7 0, .done true, .touch] (duo .head .idle (running 7 0)) :=
    .cons (duo_own (.reset 7 rfl)) (.cons (duo_own .done) (.cons (duo_own (.loop rfl)) (.nil _)))
  have hrun := (((run_first (d := 5) (by decide)).append hreset).append (run_sleep (by decide))).append
    (run_fire 7)
  exact ⟨_, _, hrun, rfl, oneshot hrun (by simp)⟩

/-- **A timer that fires twice**: it is set once, and the callback does not set it. -/
theorem fires_twice : ∃ ls c, Run (Interleave Step) (timerAlloc (τ := Unit)) ls c ∧ sets ls = 1 ∧ fires ls = 2 := by
  have hdone : Run (Interleave Step) (duo (.callback false) .idle (running 5 0))
      [.done false, .touch] (duo .head .idle (running 5 0)) :=
    .cons (duo_own .done) (.cons (duo_own (.loop rfl)) (.nil _))
  have hrun := (((run_first (d := 5) (by decide)).append hdone).append (run_sleep (by decide))).append
    (run_fire 5)
  exact ⟨_, _, hrun, rfl, rfl⟩

end Timer

end SgxLkl
