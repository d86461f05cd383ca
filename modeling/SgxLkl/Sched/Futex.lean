import SgxLkl.Lib.Bits
import SgxLkl.Lib.Lists

/-!
# The futex queue

`futex_queues` lists the waiting lthreads, the latest first. An entry does not hold the address its
thread waits on, only the key `to_futex_key` makes of it: the low 32 bits.

* **`futex_wake_iff`**: a wake keeps to its own address exactly if every waiter on another address
  with the same low 32 bits has enough waiters with these bits ahead of it.
-/

namespace SgxLkl

open List

variable {τ : Type*}

/-! ## The code -/

/-- `struct futex_q`, embedded in the lthread `futexLt`. -/
structure FutexQ (τ : Type*) where
  futexKey : BitVec 32
  futexDeadline : Word
  futexLt : τ
  deriving DecidableEq

/-- `FUTEX_NONE`: nothing extraordinary happened. -/
def futexNone : CInt := 0

/-- `FUTEX_EXPIRED`: the timeout expired. -/
def futexExpired : CInt := 1

/-- The state behind `futex_q_lock`, the `err` field of the lthreads and the run queue. -/
structure Futexes (τ : Type*) where
  futexQueues : List (FutexQ τ)
  futexSleepers : CInt
  err : τ → CInt
  schedulerQueue : List τ

/-- The key of a futex: the address, cast to `uint32_t`. -/
def toFutexKey (uaddr : Word) : BitVec 32 := uaddr.setWidth 32

namespace Futexes

/-- `__futex_wait_new`: the calling lthread's entry, inserted at the head. -/
def futexWaitNew (futexKey : BitVec 32) (lthreadSelf : τ) (s : Futexes τ) : Futexes τ :=
  { s with futexQueues := ⟨futexKey, 0, lthreadSelf⟩ :: s.futexQueues }

def schedulerEnqueue (lt : τ) (s : Futexes τ) : Futexes τ :=
  { s with schedulerQueue := s.schedulerQueue ++ [lt] }

variable [DecidableEq τ]

/-- The removal of an entry by `futex_wake` or `futex_tick`, up to the enqueueing of its thread. -/
def unlink (fq : FutexQ τ) (reason : CInt) (s : Futexes τ) : Futexes τ :=
  { s with
    futexQueues := s.futexQueues.erase fq
    futexSleepers := s.futexSleepers - 1
    err := Function.update s.err fq.futexLt reason }

/-- The loop of `futex_wake` over the entries from `fq` on. -/
def futexWakeLoop (futexKey num : BitVec 32) : List (FutexQ τ) → BitVec 32 → Futexes τ → BitVec 32 × Futexes τ
  | [], w, s => (w, s)
  | fq :: tmp, w, s =>
    if fq.futexKey = futexKey ∧ w < num then
      futexWakeLoop futexKey num tmp (w + 1)
        ((s.unlink fq futexNone).schedulerEnqueue fq.futexLt)
    else
      futexWakeLoop futexKey num tmp w s

def futexWake (uaddr : Word) (num : BitVec 32) (s : Futexes τ) : BitVec 32 × Futexes τ :=
  futexWakeLoop (toFutexKey uaddr) num s.futexQueues 0 s

/-- `enclave_futex_wake`, run under the lock; `val` becomes the `unsigned int` of the same bits. -/
def enclaveFutexWake (uaddr : Word) (val : CInt) (s : Futexes τ) : CInt × Futexes τ :=
  s.futexWake uaddr val

/-! ## Which threads a wake runs -/

theorem schedulerQueue_futexWakeLoop (futexKey num : BitVec 32) (l : List (FutexQ τ))
    (w : BitVec 32) (s : Futexes τ) : (futexWakeLoop futexKey num l w s).2.schedulerQueue = s.schedulerQueue ++
        ((l.filter (·.futexKey = futexKey)).take (num.toNat - w.toNat)).map (·.futexLt) := by
  induction l generalizing w s with
  | nil => simp [futexWakeLoop]
  | cons fq tmp ih =>
    rw [futexWakeLoop]
    split_ifs with h
    · obtain ⟨hkey, hw⟩ := h
      have hsucc : num.toNat - w.toNat = num.toNat - (w + 1).toNat + 1 := by bv_omega
      rw [ih, hsucc, filter_cons_of_pos (by simpa using hkey), take_succ_cons]
      simp [schedulerEnqueue, unlink]
    · rw [ih]
      by_cases hkey : fq.futexKey = futexKey
      · have hzero : num.toNat - w.toNat = 0 := by
          have : ¬ w < num := fun hw => h ⟨hkey, hw⟩
          bv_omega
        simp [hzero]
      · rw [filter_cons_of_neg (by simpa using hkey)]

/-- **A wake runs the first `val` threads with the key of its address.** -/
theorem schedulerQueue_enclaveFutexWake (uaddr : Word) (val : CInt) (s : Futexes τ) :
    (s.enclaveFutexWake uaddr val).2.schedulerQueue = s.schedulerQueue ++
        ((s.futexQueues.filter (·.futexKey = toFutexKey uaddr)).take val.toNat).map (·.futexLt) :=
  schedulerQueue_futexWakeLoop ..

end Futexes

/-! ## Waiters and their addresses -/

/-- An lthread that sleeps on the address `uaddr`. -/
structure Waiter (τ : Type*) where
  uaddr : Word
  deadline : Word
  thread : τ

def Waiter.entry (w : Waiter τ) : FutexQ τ := ⟨toFutexKey w.uaddr, w.deadline, w.thread⟩

/-- The waiters in queue order. A thread has one entry, so it waits once. -/
structure WaitList (τ : Type*) where
  waiters : List (Waiter τ)
  nodup : (waiters.map (·.thread)).Nodup

namespace Futexes

/-- The state in which the queue holds the entries of `ws`. -/
def waiting (s : Futexes τ) (ws : WaitList τ) : Futexes τ :=
  { s with futexQueues := ws.waiters.map Waiter.entry }

variable [DecidableEq τ]

/-- The threads that `enclave_futex_wake` puts on the run queue. -/
def woken (uaddr : Word) (val : CInt) (s : Futexes τ) : List τ :=
  (s.enclaveFutexWake uaddr val).2.schedulerQueue.drop s.schedulerQueue.length

theorem woken_waiting (uaddr : Word) (val : CInt) (s : Futexes τ) (ws : WaitList τ) :
    (s.waiting ws).woken uaddr val =
      ((ws.waiters.filter (fun w => toFutexKey w.uaddr = toFutexKey uaddr)).take val.toNat).map (·.thread) := by
  rw [woken, schedulerQueue_enclaveFutexWake, drop_left, waiting, filter_map, ← map_take, map_map]
  rfl

theorem mem_woken_waiting {uaddr : Word} {val : CInt} {s : Futexes τ} {ws : WaitList τ}
    {w : Waiter τ} (hw : w ∈ ws.waiters) : w.thread ∈ (s.waiting ws).woken uaddr val ↔
      w ∈ (ws.waiters.filter (fun w => toFutexKey w.uaddr = toFutexKey uaddr)).take val.toNat := by
  rw [woken_waiting, mem_map]
  constructor
  · rintro ⟨v, hv, hvw⟩
    have hmem : v ∈ ws.waiters := mem_of_mem_filter (mem_of_mem_take hv)
    rwa [inj_on_of_nodup_map ws.nodup hmem hw hvw] at hv
  · exact fun h => ⟨w, h, rfl⟩

/-- **A wake keeps to its own address** exactly if every waiter on another address with the same low
32 bits has at least as many waiters with these bits ahead of it as the call may wake. -/
theorem futex_wake_iff (s : Futexes τ) (ws : WaitList τ) (uaddr : Word) (val : CInt) :
    ((∀ w ∈ ws.waiters, w.thread ∈ (s.waiting ws).woken uaddr val → w.uaddr = uaddr) ∧
      (ws.waiters.filter
          fun w => w.uaddr = uaddr ∧ w.thread ∈ (s.waiting ws).woken uaddr val).length =
        min val.toNat (ws.waiters.filter (·.uaddr = uaddr)).length) ↔
      ∀ ahead w behind, ws.waiters = ahead ++ w :: behind → w.uaddr ≠ uaddr →
        toFutexKey w.uaddr = toFutexKey uaddr →
        val.toNat ≤ (ahead.filter (fun v => toFutexKey v.uaddr = toFutexKey uaddr)).length := by
  set K := ws.waiters.filter (fun w => toFutexKey w.uaddr = toFutexKey uaddr) with hK
  have hwoken : ∀ w ∈ ws.waiters, (w.thread ∈ (s.waiting ws).woken uaddr val ↔ w ∈ K.take val.toNat) :=
    fun w hw => mem_woken_waiting hw
  have hmem : ∀ w ∈ K.take val.toNat, w ∈ ws.waiters :=
    fun w hw => mem_of_mem_filter (mem_of_mem_take hw)
  -- no other address is woken exactly if the first entries with the key wait on `uaddr`
  have hown : (∀ w ∈ ws.waiters, w.thread ∈ (s.waiting ws).woken uaddr val → w.uaddr = uaddr) ↔
      ∀ w ∈ K.take val.toNat, w.uaddr = uaddr :=
    ⟨fun h w hw => h w (hmem w hw) ((hwoken w (hmem w hw)).mpr hw),
      fun h w hw hwo => h w ((hwoken w hw).mp hwo)⟩
  have hcond : (∀ w ∈ K.take val.toNat, w.uaddr = uaddr) ↔
      ∀ ahead w behind, ws.waiters = ahead ++ w :: behind → w.uaddr ≠ uaddr →
        toFutexKey w.uaddr = toFutexKey uaddr →
        val.toNat ≤ (ahead.filter (fun v => toFutexKey v.uaddr = toFutexKey uaddr)).length :=
    (forall_mem_take_filter_iff ..).trans
      ⟨fun h l w r hL hne hkey => h l w r hL hkey hne,
        fun h l w r hL hkey hne => h l w r hL hne hkey⟩
  rw [← hcond, hown, and_iff_left_iff_imp]
  intro h
  have hnodup : ws.waiters.Nodup := .of_map _ ws.nodup
  have hperm : (ws.waiters.filter fun w => w.uaddr = uaddr ∧ w.thread ∈ (s.waiting ws).woken uaddr val).Perm
        (K.take val.toNat) := by
    refine (perm_ext_iff_of_nodup (hnodup.filter _) ((hnodup.filter _).sublist (take_sublist ..))).mpr fun w => ?_
    simp only [mem_filter, decide_eq_true_eq]
    exact ⟨fun ⟨hw, _, hwo⟩ => (hwoken w hw).mp hwo, fun hw => ⟨hmem w hw, h w hw, (hwoken w (hmem w hw)).mpr hw⟩⟩
  have hfilter : K.filter (·.uaddr = uaddr) = ws.waiters.filter (·.uaddr = uaddr) := by
    rw [hK, filter_filter]
    refine filter_congr fun w _ => ?_
    by_cases hw : w.uaddr = uaddr <;> simp [hw]
  rw [hperm.length_eq, length_take_of_forall h, hfilter]

/-- Two threads on addresses that differ only above bit 31; thread `0` came last. -/
def collision : WaitList (Fin 2) := ⟨[⟨0x100001000, 0, 0⟩, ⟨0x1000, 0, 1⟩], by decide⟩

/-- A wake of one thread on the second waiter's address runs the first waiter and leaves the second
one asleep. -/
theorem futex_wake_collision : let s := waiting ⟨[], 2, fun _ => 0, []⟩ collision
    (∃ w ∈ collision.waiters, w.thread ∈ s.woken 0x1000 1 ∧ w.uaddr ≠ 0x1000) ∧
      (collision.waiters.filter fun w => w.uaddr = 0x1000 ∧ w.thread ∈ s.woken 0x1000 1).length <
        min (1 : CInt).toNat (collision.waiters.filter (·.uaddr = 0x1000)).length := by
  decide

end Futexes

end SgxLkl
