import SgxLkl.Sched.Invariant

/-!
# Why a timed wait ends

An lthread that waits with a timeout is taken from the futex queue by a wake or by a tick of a scheduler, which leaves
the reason in `err`. A log of each wait records the clock at the call, the timeout, who took the lthread from the
queue, and how often the futex lock was released for the call.

* **`Machine.TimedInv.step`**: a step keeps the logs right.
* **`Machine.timedwait_reason`**: what `enclave_futex_timedwait` returns is why it returns.
-/

namespace SgxLkl

open TicketLock List BitVec Function Option

variable {τ ι : Type*}

/-! ## The log -/

inductive PickKind
  | wake
  | tick
  deriving DecidableEq

def PickKind.reason : PickKind → CInt
  | .wake => futexNone
  | .tick => futexExpired

def Sweep.kind : Sweep τ → PickKind
  | .wake .. => .wake
  | .tick _ => .tick

theorem Sweep.reason_kind (m : Sweep τ) : m.kind.reason = m.reason := by cases m <;> rfl

/-- The log of a call of `enclave_futex_timedwait`: the clock at the call, its timeout, who took the lthread from the
queue, and how often the futex lock was released for it. -/
structure WaitLog where
  start : Word := 0
  timeout : Option Timespec := none
  picks : List PickKind := []
  unlocks : ℕ := 0

def WaitLog.next [DecidableEq τ] (nanos : Word) (pc pc' : Pc τ) (log : τ → WaitLog) : τ → WaitLog :=
  match pc, pc' with
  | .run lt, .take _ (.timedwait _ _ ts) => update log lt ⟨nanos, ts, [], 0⟩
  | .sweep m (fq :: _), .ready _ _ _ =>
    update log fq.futexLt { log fq.futexLt with picks := (log fq.futexLt).picks ++ [m.kind] }
  | .again lt, .run _ => update log lt { log lt with unlocks := (log lt).unlocks + 1 }
  | .yielded lt .futexSleep, .loop => update log lt { log lt with unlocks := (log lt).unlocks + 1 }
  | _, _ => log

/-- `timeout` as `timer_callback` makes it from a delay. -/
def timerTimeout (delayNs : Word) : Timespec := ⟨delayNs / 1000000000, delayNs % 1000000000⟩

/-- The lthread that is in `enclave_futex_timedwait` and does not sleep yet. -/
def Pc.caller : Pc τ → Option τ
  | .take lt (.timedwait ..) | .spin lt (.timedwait ..) _ | .futexWait lt _ _ _ | .again lt | .waitNew lt _ _
  | .sleepers lt _ | .deadline lt _ => some lt
  | _ => none

def Pc.calling : Pc τ → Option (τ × Option Timespec)
  | .take lt (.timedwait _ _ ts) | .spin lt (.timedwait _ _ ts) _ | .futexWait lt _ _ ts | .waitNew lt _ ts
  | .sleepers lt ts | .deadline lt ts => some (lt, ts)
  | _ => none

/-- The clock that a tick has read. -/
def Sweep.usecs : Sweep τ → Option Word
  | .wake .. => none
  | .tick usecs => some usecs

@[inherit_doc Sweep.usecs]
def Pc.usecs : Pc τ → Option Word
  | .tryUsers usecs | .tryLock usecs _ => some usecs
  | .sweep m _ | .ready m _ _ | .swept m => m.usecs
  | _ => none

@[simp] theorem Sweep.usecs_count (m : Sweep τ) : m.count.usecs = m.usecs := by cases m <;> rfl

@[simp] theorem Pc.usecs_resumed (lt : τ) (b : Bool) : (resumed lt b).usecs = none := by cases b <;> rfl

/-- A deadline that was set between `start` and `nanos`. -/
def WaitLog.Deadline (log : WaitLog) (nanos deadline : Word) : Prop :=
  ∃ ts now, log.timeout = some ts ∧ log.start ≤ now ∧ now ≤ nanos ∧ deadline = now / 1000 + lthreadTimespecToUsec ts

/-- The log of an lthread that was taken from the queue: once, for the reason in `err`, and by a tick only after its
deadline. -/
def Picked (log : WaitLog) (err : CInt) (nanos : Word) : Prop :=
  ∃ k, log.picks = [k] ∧ err = k.reason ∧
    (k = .tick → ∃ deadline now, log.Deadline nanos deadline ∧ now ≤ nanos ∧ deadline < now / 1000)

variable {log : WaitLog} {nanos nanos' deadline : Word}

theorem WaitLog.Deadline.mono (h : log.Deadline nanos deadline)
    (hle : nanos ≤ nanos') : log.Deadline nanos' deadline := by
  obtain ⟨ts, now, hts, hstart, hnow, heq⟩ := h
  exact ⟨ts, now, hts, hstart, BitVec.le_trans hnow hle, heq⟩

theorem toNat_timerTimeout (delayNs : Word) :
    (lthreadTimespecToUsec (timerTimeout delayNs)).toNat = delayNs.toNat / 1000 := by
  have hsec : (delayNs / 1000000000).toNat = delayNs.toNat / 1000000000 := by simp [toNat_udiv]
  have hnsec : (delayNs % 1000000000).toNat = delayNs.toNat % 1000000000 := by simp [toNat_umod]
  have hdiv : ((delayNs % 1000000000).sdiv 1000).toNat = delayNs.toNat % 1000000000 / 1000 := by
    have hmsb : (delayNs % 1000000000).msb = false := by
      rw [msb_eq_false_iff_two_mul_lt, hnsec]
      omega
    have hmsb' : (1000 : Word).msb = false := by decide
    rw [sdiv_eq, hmsb, hmsb', udiv_eq, toNat_udiv, hnsec]
    simp
  have hmul : (1000000 : Word).toNat = 1000000 := by decide
  have hlt := delayNs.isLt
  unfold lthreadTimespecToUsec timerTimeout
  rw [toNat_add, toNat_mul, hsec, hdiv, hmul]
  omega

theorem WaitLog.Deadline.elapsed {now delayNs : Word} (h : log.Deadline nanos deadline)
    (hnow : now ≤ nanos) (hlt : deadline < now / 1000) (hts : log.timeout = some (timerTimeout delayNs)) :
    log.start.toNat + delayNs.toNat / 1000 * 1000 ≤ nanos.toNat := by
  obtain ⟨ts, at', hts', hstart, -, rfl⟩ := h
  obtain rfl : timerTimeout delayNs = ts := some.inj (hts.symm.trans hts')
  have hdiv : ∀ x : Word, (x / 1000).toNat = x.toNat / 1000 := by
    intro x
    simp [toNat_udiv]
  rw [lt_def, toNat_add, hdiv, hdiv, toNat_timerTimeout] at hlt
  rw [le_def] at hnow hstart
  have hat := at'.isLt
  have hdelay := delayNs.isLt
  omega

theorem Picked.mono {err : CInt} (h : Picked log err nanos) (hle : nanos ≤ nanos') : Picked log err nanos' := by
  obtain ⟨k, hpicks, herr, htick⟩ := h
  refine ⟨k, hpicks, herr, fun hk => ?_⟩
  obtain ⟨deadline, now, hdeadline, hnow, hlt⟩ := htick hk
  exact ⟨deadline, now, hdeadline.mono hle, BitVec.le_trans hnow hle, hlt⟩

variable [DecidableEq τ] {s s' : Shared τ} {r : CpuCtx} {pc pc' : Pc τ} {l : Label τ} {c c' : Cpu τ} {t : τ}
  {log : τ → WaitLog} {nanos : Word}

section

omit [DecidableEq τ]

variable {x y : Life ι}

theorem Pc.roles_of_caller (h : pc.caller = some t) :
    (t, .running) ∈ pc.roles ∨ (t, .committed) ∈ pc.roles ∨ (t, .queued) ∈ pc.roles := by
  cases pc with
  | take lt call => cases call <;> simp_all [caller, roles]
  | spin lt call me => cases call <;> simp_all [caller, roles]
  | _ => simp_all [caller, roles]

theorem Pc.caller_of_calling {ts : Option Timespec} (h : pc.calling = some (t, ts)) : pc.caller = some t := by
  cases pc with
  | take lt call => cases call <;> simp_all [caller, calling]
  | spin lt call me => cases call <;> simp_all [caller, calling]
  | _ => simp_all [caller, calling]

theorem Life.Step.of_pick (h : Life.Step t x (.pick t) y) : x.spot = .asleep ∧ ∃ i, y.spot = .cpu i .held := by
  cases h with
  | other h => exact absurd rfl h
  | pick i h => exact ⟨h, i, rfl⟩

theorem Life.Step.held_cases {k : ι} (h : Life.Step t x l y) (hy : y.spot = .cpu k .held) :
    x.spot = .cpu k .held ∨ l = .pick t := by
  cases h with
  | other => exact .inl hy
  | pick => exact .inr rfl
  | _ => simp at hy

theorem Life.Step.ready_cases (h : Life.Step t x l y) (hy : y.spot = .ready ∨ ∃ k, y.spot = .cpu k .loading) :
    (x.spot = .ready ∨ ∃ k, x.spot = .cpu k .loading) ∨ ∃ k, x.spot = .cpu k .held ∨ x.spot = .cpu k .born := by
  cases h with
  | other => exact .inl hy
  | @enqueue i ρ hx hρ =>
    refine .inr ⟨i, ?_⟩
    rcases hρ with rfl | rfl
    · exact .inl hx
    · exact .inr hx
  | dequeue i hx => exact .inl (.inl hx)
  | _ => simp at hy

theorem Life.Step.born_cases {k : ι} (h : Life.Step t x l y) (hy : y.spot = .cpu k .born) :
    x.spot = .cpu k .born ∨ x.spot = .absent ∧ ∃ f, l = .create t f := by
  cases h with
  | other => exact .inl hy
  | create _ f hx => exact .inr ⟨hx, f, rfl⟩
  | _ => simp at hy

theorem Life.Step.asleep (h : Life.Step t x l y) (hx : x.spot = .asleep) : y.spot = .asleep ∨ l = .pick t := by
  cases h with
  | other => exact .inl hx
  | pick => exact .inr rfl
  | create _ _ h | enqueue h | dequeue _ h | resume h | readEq _ _ h | insert h | saved _ h | free h =>
    rw [h] at hx
    simp at hx

theorem Life.Step.of_saved {f : CpuCtx} (h : Life.Step t x (.saved t f) y) : y.spot = .asleep := by
  cases h with
  | other h => exact absurd rfl h
  | saved => rfl

end

theorem WaitLog.next_cases (nanos : Word) (pc pc' : Pc τ) (log : τ → WaitLog) (t : τ) :
    next nanos pc pc' log t = log t ∨
      (pc = .run t ∧ ∃ lt uaddr val ts, pc' = .take lt (.timedwait uaddr val ts) ∧
        next nanos pc pc' log t = ⟨nanos, ts, [], 0⟩) ∨
      (∃ m fq tmp m' tmp' lt, pc = .sweep m (fq :: tmp) ∧ pc' = .ready m' tmp' lt ∧ fq.futexLt = t ∧
        next nanos pc pc' log t = { log t with picks := (log t).picks ++ [m.kind] }) ∨
      ((pc = .again t ∨ pc = .yielded t .futexSleep) ∧
        next nanos pc pc' log t = { log t with unlocks := (log t).unlocks + 1 }) := by
  unfold next
  split
  · rename_i lt _ uaddr val ts
    by_cases ht : t = lt
    · subst ht
      exact .inr (.inl ⟨rfl, _, _, _, _, rfl, update_self ..⟩)
    · exact .inl (update_of_ne ht ..)
  · rename_i m fq _ _ _ _
    by_cases ht : t = fq.futexLt
    · subst ht
      exact .inr (.inr (.inl ⟨_, _, _, _, _, _, rfl, rfl, rfl, update_self ..⟩))
    · exact .inl (update_of_ne ht ..)
  · rename_i lt _
    by_cases ht : t = lt
    · subst ht
      exact .inr (.inr (.inr ⟨.inl rfl, update_self ..⟩))
    · exact .inl (update_of_ne ht ..)
  · rename_i lt
    by_cases ht : t = lt
    · subst ht
      exact .inr (.inr (.inr ⟨.inr rfl, update_self ..⟩))
    · exact .inl (update_of_ne ht ..)
  · exact .inl rfl

/-! ## Steps of one scheduler -/

namespace Cpu

omit [DecidableEq τ] in
@[simp] theorem usecs_enter (lt : τ) (q : List (FutexQ τ)) (call : FutexCall) : (enter lt q call).usecs = none := by
  cases call <;> rfl

theorem usecs_of_code (h : c.code s = some (l, c', s')) {u : Word} (hu : c'.pc.usecs = some u) :
    c.pc.usecs = some u := by
  obtain ⟨pc, r⟩ := c
  revert h
  fun_cases Cpu.code ⟨pc, r⟩ s <;> simp only [some.injEq, Prod.mk.injEq, reduceCtorEq, false_imp_iff, and_imp]
    <;> rintro - rfl - <;> subst_vars
  case case4 | case7 => simp [goto] at hu
  case case22 => simpa [goto, Pc.usecs] using hu
  all_goals first | exact hu | simp [goto, Pc.usecs] at hu

variable {a : Act τ}

theorem usecs_of_step (h : c.step s a = some (l, c', s')) {u : Word} (hu : c'.pc.usecs = some u) :
    c.pc.usecs = some u ∨ u = s.nanos / 1000 := by
  cases a with
  | go => exact .inl (usecs_of_code h hu)
  | clock nanos =>
    simp only [step, some.injEq, Prod.mk.injEq] at h
    obtain ⟨-, rfl, -⟩ := h
    exact .inl hu
  | tick =>
    obtain ⟨pc, r⟩ := c
    cases pc <;> simp only [step, reduceCtorEq] at h
    split_ifs at h <;> simp only [some.injEq, Prod.mk.injEq] at h <;> obtain ⟨-, rfl, -⟩ := h
    · exact .inl hu
    · exact .inr (by simpa [goto, Pc.usecs] using hu.symm)
  | _ =>
    obtain ⟨pc, r⟩ := c
    cases pc <;> simp only [step, reduceCtorEq] at h
    try split_ifs at h
    all_goals
      simp only [some.injEq, Prod.mk.injEq] at h
      obtain ⟨-, rfl, -⟩ := h
      simp [goto, Pc.usecs] at hu

theorem waitRet_of_step {rc : CInt} (h : c.step s a = some (.waitRet t rc, c', s')) :
    (c.pc = .again t ∧ rc = -eAgain ∨
      c.pc = .woke t ∧ rc = if s.err t = futexExpired then -eTimedout else 0) ∧ c'.pc = .run t := by
  cases a with
  | go =>
    obtain ⟨pc, r⟩ := c
    change code ⟨pc, r⟩ s = _ at h
    revert h
    fun_cases Cpu.code ⟨pc, r⟩ s <;>
      simp only [some.injEq, Prod.mk.injEq, reduceCtorEq, false_imp_iff, and_imp, Label.waitRet.injEq]
    · rintro rfl rfl rfl -
      subst_vars
      exact ⟨.inl ⟨rfl, rfl⟩, rfl⟩
    · rintro rfl rfl rfl -
      subst_vars
      exact ⟨.inr ⟨rfl, rfl⟩, rfl⟩
  | call call =>
    obtain ⟨pc, r⟩ := c
    cases pc <;> simp only [step, reduceCtorEq] at h
    cases call <;> simp [callLabel] at h
  | clock nanos => simp [step] at h
  | _ =>
    obtain ⟨pc, r⟩ := c
    cases pc <;> simp only [step, reduceCtorEq] at h
    try split_ifs at h
    all_goals simp at h

namespace Step

variable {fq : FutexQ τ}

theorem of_ready {k k' : Sweep τ} {tmp tmp' : List (FutexQ τ)} {lt : τ}
    (h : Cpu.Step s r (.sweep k (fq :: tmp)) l c' s') (hc : c'.pc = .ready k' tmp' lt) :
    l = .pick fq.futexLt ∧ k.Selects fq := by
  generalize hpc : Pc.sweep k (fq :: tmp) = pc at h
  cases h with
  | stay | clock =>
    rw [← hpc] at hc
    simp at hc
  | @pick m fq' tmp'' hsel =>
    obtain ⟨rfl, hcons⟩ := Pc.sweep.inj hpc
    obtain ⟨rfl, -⟩ := cons.inj hcons
    exact ⟨rfl, hsel⟩
  | skip => simp at hc
  | _ => simp at hpc

variable (h : Cpu.Step s r pc l c' s')

include h

theorem err_eq (t : τ) : s'.err t = s.err t ∨ l = .pick t := by
  cases h with
  | @pick m fq tmp hsel =>
    by_cases ht : t = fq.futexLt
    · exact .inr (by rw [ht])
    · exact .inl (update_of_ne ht ..)
  | _ => exact .inl rfl

theorem inSleep_eq (t : τ) : s'.inSleep t = s.inSleep t ∨ (t, .running) ∈ pc.roles ∨ (t, .queued) ∈ pc.roles ∨
      s'.inSleep t = false ∧ ∃ f, l = .create t f := by
  cases h with
  | @noDeadline lt | @deadline lt =>
    by_cases ht : t = lt
    · subst ht
      exact .inr (.inr (.inl mem_cons_self))
    · exact .inl (update_of_ne ht ..)
  | @woke lt =>
    by_cases ht : t = lt
    · subst ht
      exact .inr (.inl mem_cons_self)
    · exact .inl (update_of_ne ht ..)
  | @create lt new ctx hnew =>
    by_cases ht : t = new
    · subst ht
      exact .inr (.inr (.inr ⟨update_self .., ctx, rfl⟩))
    · exact .inl (update_of_ne ht ..)
  | _ => exact .inl rfl

theorem caller (hc : c'.pc.caller = some t) :
    pc.caller = some t ∨ pc = .run t ∧ ∃ uaddr val ts, c'.pc = .take t (.timedwait uaddr val ts) := by
  cases h with
  | stay | clock => exact .inl hc
  | @resume lt => cases hb : s.inSleep lt <;> simp [hb, Pc.resumed, Pc.caller] at hc
  | @take lt call => cases call <;> exact .inl hc
  | waitCall uaddr val ts =>
    obtain rfl := some.inj hc
    exact .inr ⟨rfl, uaddr, val, ts, rfl⟩
  | _ => first | exact .inl hc | simp [Pc.caller] at hc

theorem calling {ts : Option Timespec} (hc : c'.pc.calling = some (t, ts)) :
    pc.calling = some (t, ts) ∨ pc = .run t ∧ ∃ uaddr val, c'.pc = .take t (.timedwait uaddr val ts) := by
  cases h with
  | stay | clock => exact .inl hc
  | @resume lt => cases hb : s.inSleep lt <;> simp [hb, Pc.resumed, Pc.calling] at hc
  | @take lt call => cases call <;> exact .inl hc
  | waitCall uaddr val ts =>
    obtain ⟨rfl, rfl⟩ := Prod.mk.inj (some.inj hc)
    exact .inr ⟨rfl, uaddr, val, rfl⟩
  | _ => first | exact .inl hc | simp [Pc.calling] at hc

theorem yielded (hc : c'.pc = .yielded t .futexSleep) :
    pc = .yielded t .futexSleep ∧ l = .tau ∨ ∃ f, l = .saved t f := by
  cases h with
  | stay | clock => exact .inl ⟨hc, rfl⟩
  | @resume lt => cases hb : s.inSleep lt <;> simp [hb, Pc.resumed] at hc
  | saved =>
    obtain ⟨rfl, -⟩ := Pc.yielded.inj hc
    exact .inr ⟨_, rfl⟩
  | _ => simp at hc

theorem woke_cases (hc : c'.pc = .woke t) : pc = .woke t ∨ s.inSleep t = true ∧ (t, .loading) ∈ pc.roles := by
  cases h with
  | stay | clock => exact .inl hc
  | @resume lt =>
    cases hb : s.inSleep lt with
    | false => simp [hb, Pc.resumed] at hc
    | true =>
      rw [hb] at hc
      obtain rfl := Pc.woke.inj hc
      exact .inr ⟨hb, mem_cons_self⟩
  | _ => simp at hc

/-- An entry of the queue was there before, is new, or has got its deadline. -/
theorem entry_cases (hq : (s.futexQueues.map (·.futexLt)).Nodup)
    (htodo : pc.todo <:+ s.futexQueues) (hfq : fq ∈ s'.futexQueues) : (fq ∈ s.futexQueues ∧ l ≠ .pick fq.futexLt) ∨
      (pc.caller = some fq.futexLt ∧ c'.pc.caller = some fq.futexLt ∧ fq.futexDeadline = 0) ∨
      ∃ ts, pc = .deadline fq.futexLt (some ts) ∧ fq.futexDeadline = s.nanos / 1000 + lthreadTimespecToUsec ts := by
  cases h with
  | @waitNew lt uaddr ts =>
    rcases mem_cons.mp hfq with rfl | hfq
    · exact .inr (.inl ⟨rfl, rfl, rfl⟩)
    · exact .inl ⟨hfq, by simp⟩
  | @deadline lt ts =>
    obtain ⟨fq', hfq', rfl⟩ := mem_map.mp hfq
    by_cases hlt : fq'.futexLt = lt
    · refine .inr (.inr ⟨ts, ?_, ?_⟩)
      · simp [hlt]
      · simp [hlt]
    · rw [if_neg hlt]
      exact .inl ⟨hfq', by simp⟩
  | @pick m fq' tmp hsel =>
    have hmem : fq' ∈ s.futexQueues := htodo.mem mem_cons_self
    refine .inl ⟨mem_of_mem_erase hfq, fun hl => ?_⟩
    -- the thread of the removed entry has no other one
    have hlt : fq.futexLt ∈ (s.futexQueues.map (·.futexLt)).erase fq'.futexLt := by
      rw [← map_futexLt_erase hq hmem]
      exact mem_map_of_mem hfq
    rw [Label.pick.inj hl] at hlt
    exact List.Nodup.not_mem_erase hq hlt
  | _ => exact .inl ⟨hfq, by simp⟩

end Step

end Cpu

theorem WaitLog.next_of_caller (h : pc.caller ≠ none) (h' : pc'.caller ≠ none) : next nanos pc pc' log = log := by
  cases pc <;> cases pc' <;> simp_all [Pc.caller, next]

/-! ## The logs of all lthreads -/

namespace Machine

/-- **What the logs say.** -/
structure TimedInv (m : Machine ι τ) (life : τ → Life ι) (log : τ → WaitLog) : Prop where
  start : ∀ t, (log t).start ≤ m.shared.nanos
  usecs : ∀ i u, (m.cpu i).pc.usecs = some u → ∃ now, now ≤ m.shared.nanos ∧ u = now / 1000
  calling : ∀ i t ts, (m.cpu i).pc.calling = some (t, ts) → (log t).timeout = ts
  caller : ∀ i t, (m.cpu i).pc.caller = some t → (log t).picks = [] ∧ (log t).unlocks = 0
  yielded : ∀ i t, (m.cpu i).pc = .yielded t .futexSleep → (life t).spot = .asleep
  entry : ∀ fq ∈ m.shared.futexQueues, (log fq.futexLt).picks = [] ∧
    (fq.futexDeadline ≠ 0 → (log fq.futexLt).Deadline m.shared.nanos fq.futexDeadline)
  held : ∀ i t, (life t).spot = .cpu i .held → Picked (log t) (m.shared.err t) m.shared.nanos
  ready : ∀ t, ((life t).spot = .ready ∨ ∃ i, (life t).spot = .cpu i .loading) → m.shared.inSleep t = true →
    Picked (log t) (m.shared.err t) m.shared.nanos
  born : ∀ i t, (life t).spot = .cpu i .born → m.shared.inSleep t = false
  woke : ∀ i t, (m.cpu i).pc = .woke t → Picked (log t) (m.shared.err t) m.shared.nanos

/-- Steps with the logs. The clock does not go back. -/
def TimedStep [DecidableEq ι] (x : Machine ι τ × (τ → WaitLog)) (l : Label τ) (y : Machine ι τ × (τ → WaitLog)) :
    Prop :=
  ∃ i a, x.1.step i a = some (l, y.1) ∧ x.1.shared.nanos ≤ y.1.shared.nanos ∧
    y.2 = WaitLog.next x.1.shared.nanos (x.1.cpu i).pc (y.1.cpu i).pc x.2

section Step

variable {m m' : Machine ι τ} {life life' : τ → Life ι} {log log' : τ → WaitLog} {i j : ι}

variable (h : m.Inv life) (hT : m.TimedInv life log)
  (hstep : Cpu.Step m.shared (m.cpu i).regs (m.cpu i).pc l (m'.cpu i) m'.shared)
  (hlife : ∀ t, Life.Step t (life t) l (life' t))
  (hlog : log' = WaitLog.next m.shared.nanos (m.cpu i).pc (m'.cpu i).pc log)
  (hclock : m.shared.nanos ≤ m'.shared.nanos)

include h hT hstep hlife hlog

theorem TimedInv.log_eq (hrun : (life t).spot ≠ .cpu i .running) (hasleep : (life t).spot ≠ .asleep) :
    log' t = log t := by
  rw [hlog]
  rcases WaitLog.next_cases m.shared.nanos (m.cpu i).pc (m'.cpu i).pc log t with
    heq | ⟨hpc, -⟩ | ⟨k, fq, tmp, k', tmp', lt, hpc, hpc', rfl, -⟩ | ⟨hpc | hpc, -⟩
  · exact heq
  · exact absurd ((h.located.roles i t .running).mp (by rw [hpc]; exact mem_cons_self)) hrun
  · rw [hpc] at hstep
    obtain ⟨rfl, -⟩ := hstep.of_ready hpc'
    exact absurd (hlife fq.futexLt).of_pick.1 hasleep
  · exact absurd ((h.located.roles i t .running).mp (by rw [hpc]; exact mem_cons_self)) hrun
  · exact absurd (hT.yielded i t hpc) hasleep

omit hT hlife in
theorem log_of_waiting (hwait : (life t).spot = .asleep ∨ ∃ j, (life t).spot = .cpu j .queued) (hl : l ≠ .pick t) :
    (log' t).picks = (log t).picks ∧ (log' t).timeout = (log t).timeout ∧ (log' t).start = (log t).start := by
  have hrun : (life t).spot ≠ .cpu i .running := by
    rcases hwait with hwait | ⟨j, hwait⟩ <;> simp [hwait]
  rw [hlog]
  rcases WaitLog.next_cases m.shared.nanos (m.cpu i).pc (m'.cpu i).pc log t with
    heq | ⟨hpc, -⟩ | ⟨k, fq, tmp, k', tmp', lt, hpc, hpc', rfl, -⟩ | ⟨-, heq⟩
  · simp [heq]
  · exact absurd ((h.located.roles i t .running).mp (by rw [hpc]; exact mem_cons_self)) hrun
  · rw [hpc] at hstep
    exact absurd (hstep.of_ready hpc').1 hl
  · simp [heq]

theorem TimedInv.log_of_role {ρ : Role} (hji : j ≠ i) (hρ : (t, ρ) ∈ (m.cpu j).pc.roles) : log' t = log t := by
  have hspot := (h.located.roles j t ρ).mp hρ
  refine hT.log_eq h hstep hlife hlog ?_ (by simp [hspot])
  rw [hspot]
  intro heq
  exact hji (Spot.cpu.inj heq).1

include hclock

omit h hstep hlife in
theorem TimedInv.start_step (t : τ) : (log' t).start ≤ m'.shared.nanos := by
  have hold := BitVec.le_trans (hT.start t) hclock
  rw [hlog]
  rcases WaitLog.next_cases m.shared.nanos (m.cpu i).pc (m'.cpu i).pc log t with
    heq | ⟨-, _, _, _, _, -, heq⟩ | ⟨_, _, _, _, _, _, -, -, -, heq⟩ | ⟨-, heq⟩
  · rwa [heq]
  · rwa [heq]
  · rwa [heq]
  · rwa [heq]

theorem TimedInv.picked_step (hp : Picked (log t) (m.shared.err t) m.shared.nanos)
    (hrun : (life t).spot ≠ .cpu i .running) (hasleep : (life t).spot ≠ .asleep) :
    Picked (log' t) (m'.shared.err t) m'.shared.nanos := by
  have herr : m'.shared.err t = m.shared.err t := by
    refine (hstep.err_eq t).resolve_right ?_
    rintro rfl
    exact hasleep (hlife t).of_pick.1
  rw [hT.log_eq h hstep hlife hlog hrun hasleep, herr]
  exact hp.mono hclock

theorem TimedInv.picked_of_pick (hl : l = .pick t) : Picked (log' t) (m'.shared.err t) m'.shared.nanos := by
  subst hl
  generalize hpc : (m.cpu i).pc = pc, hc : m'.cpu i = c', hs : m'.shared = s' at hstep
  cases hstep with
  | @pick k fq tmp hsel =>
    have hfq : fq ∈ m.shared.futexQueues := (h.todo i).mem (by rw [hpc]; exact mem_cons_self)
    obtain ⟨hpicks, hdeadline⟩ := hT.entry fq hfq
    have hnext : log' fq.futexLt = { log fq.futexLt with picks := [k.kind] } := by
      rw [hlog, hpc, hc]
      simp [WaitLog.next, hpicks]
    rw [hs] at hclock
    refine ⟨k.kind, by rw [hnext], ?_, ?_⟩
    · rw [k.reason_kind]
      exact update_self ..
    · intro hk
      cases k with
      | wake => simp [Sweep.kind] at hk
      | tick usecs =>
        obtain ⟨hne, hlt⟩ := hsel
        obtain ⟨now, hnow, rfl⟩ := hT.usecs i usecs (by rw [hpc]; rfl)
        obtain ⟨ts, set, hts, hstart, hset, heq⟩ := hdeadline hne
        refine ⟨fq.futexDeadline, now, ⟨ts, set, ?_, ?_, BitVec.le_trans hset hclock, heq⟩,
          BitVec.le_trans hnow hclock, hlt⟩
        · rw [hnext]
          exact hts
        · rw [hnext]
          exact hstart

omit hlife in
theorem TimedInv.entry_step {fq : FutexQ τ} (hfq : fq ∈ m'.shared.futexQueues) : (log' fq.futexLt).picks = [] ∧
      (fq.futexDeadline ≠ 0 → (log' fq.futexLt).Deadline m'.shared.nanos fq.futexDeadline) := by
  rcases hstep.entry_cases h.located.waiters_nodup (h.todo i) hfq with
    ⟨hold, hl⟩ | ⟨hpc, hpc', hzero⟩ | ⟨ts, hpc, hdeadline⟩
  · obtain ⟨hpicks, hdeadline⟩ := hT.entry fq hold
    have hwait := (h.located.waiters fq.futexLt).mp (mem_map_of_mem hold)
    obtain ⟨hpicks', htimeout, hstart⟩ := log_of_waiting h hstep hlog hwait hl
    refine ⟨hpicks'.trans hpicks, fun hne => ?_⟩
    obtain ⟨ts, now, hts, hle, hnow, heq⟩ := hdeadline hne
    exact ⟨ts, now, htimeout.trans hts, hstart ▸ hle, BitVec.le_trans hnow hclock, heq⟩
  · have hnext : log' = log := by
      rw [hlog]
      exact WaitLog.next_of_caller (by simp [hpc]) (by simp [hpc'])
    rw [hnext]
    exact ⟨(hT.caller i _ hpc).1, fun hne => absurd hzero hne⟩
  · have hnext : log' = log := by
      rw [hlog, hpc]
      rfl
    rw [hnext]
    refine ⟨(hT.caller i _ (by rw [hpc]; rfl)).1, fun _ => ?_⟩
    exact ⟨ts, m.shared.nanos, hT.calling i _ _ (by rw [hpc]; rfl), hT.start _, hclock, hdeadline⟩

theorem TimedInv.held_step {k : ι} (hspot : (life' t).spot = .cpu k .held) :
    Picked (log' t) (m'.shared.err t) m'.shared.nanos := by
  rcases (hlife t).held_cases hspot with hold | hl
  · exact hT.picked_step h hstep hlife hlog hclock (hT.held k t hold) (by simp [hold]) (by simp [hold])
  · exact hT.picked_of_pick h hstep hlife hlog hclock hl

omit hT hlog hclock in
theorem inSleep_eq_of_spot (hrun : (life t).spot ≠ .cpu i .running) (hqueued : (life t).spot ≠ .cpu i .queued)
    (habsent : (life t).spot ≠ .absent) : m'.shared.inSleep t = m.shared.inSleep t := by
  rcases hstep.inSleep_eq t with heq | hmem | hmem | ⟨-, f, rfl⟩
  · exact heq
  · exact absurd ((h.located.roles i t _).mp hmem) hrun
  · exact absurd ((h.located.roles i t _).mp hmem) hqueued
  · exact absurd (hlife t).spot_of_create habsent

theorem TimedInv.ready_step (hspot : (life' t).spot = .ready ∨ ∃ k, (life' t).spot = .cpu k .loading)
    (hsleep : m'.shared.inSleep t = true) : Picked (log' t) (m'.shared.err t) m'.shared.nanos := by
  rcases (hlife t).ready_cases hspot with hold | ⟨k, hheld | hborn⟩
  · have hne : ∀ ρ, ρ ≠ .loading → (life t).spot ≠ .cpu i ρ := by
      intro ρ hρ heq
      rcases hold with hold | ⟨k, hold⟩
      · simp [hold] at heq
      · rw [hold] at heq
        exact hρ (Spot.cpu.inj heq).2.symm
    have hasleep : (life t).spot ≠ .asleep ∧ (life t).spot ≠ .absent := by
      rcases hold with hold | ⟨k, hold⟩ <;> simp [hold]
    have hin := inSleep_eq_of_spot h hstep hlife (hne _ (by simp)) (hne _ (by simp)) hasleep.2
    exact hT.picked_step h hstep hlife hlog hclock (hT.ready t hold (hin ▸ hsleep)) (hne _ (by simp)) hasleep.1
  · exact hT.picked_step h hstep hlife hlog hclock (hT.held k t hheld) (by simp [hheld]) (by simp [hheld])
  · have hin := inSleep_eq_of_spot h hstep hlife (t := t) (by simp [hborn]) (by simp [hborn]) (by simp [hborn])
    rw [hin, hT.born k t hborn] at hsleep
    exact absurd hsleep (by simp)

omit hlog hclock in
theorem TimedInv.born_step {k : ι} (hspot : (life' t).spot = .cpu k .born) : m'.shared.inSleep t = false := by
  rcases (hlife t).born_cases hspot with hold | ⟨habsent, f, rfl⟩
  · rw [inSleep_eq_of_spot h hstep hlife (by simp [hold]) (by simp [hold]) (by simp [hold])]
    exact hT.born k t hold
  · generalize hs : m'.shared = s', hpc : (m.cpu i).pc = pc, hc : m'.cpu i = c' at hstep
    cases hstep with
    | create => exact update_self ..

variable (hother : ∀ j, j ≠ i → m'.cpu j = m.cpu j)

include hother

omit hclock in
theorem TimedInv.calling_step {ts : Option Timespec} (hc : (m'.cpu j).pc.calling = some (t, ts)) :
    (log' t).timeout = ts := by
  by_cases hji : j = i
  · subst hji
    rcases hstep.calling hc with hold | ⟨hpc, uaddr, val, hpc'⟩
    · have hnext : log' = log := by
        rw [hlog]
        exact WaitLog.next_of_caller (by simp [Pc.caller_of_calling hold]) (by simp [Pc.caller_of_calling hc])
      rw [hnext]
      exact hT.calling j t ts hold
    · rw [hlog, hpc, hpc']
      simp [WaitLog.next]
  · rw [hother j hji] at hc
    have hlog' : log' t = log t := by
      rcases Pc.roles_of_caller (Pc.caller_of_calling hc) with hρ | hρ | hρ <;>
        exact hT.log_of_role h hstep hlife hlog hji hρ
    rw [hlog']
    exact hT.calling j t ts hc

omit hclock in
theorem TimedInv.caller_step (hc : (m'.cpu j).pc.caller = some t) : (log' t).picks = [] ∧ (log' t).unlocks = 0 := by
  by_cases hji : j = i
  · subst hji
    rcases hstep.caller hc with hold | ⟨hpc, uaddr, val, ts, hpc'⟩
    · have hnext : log' = log := by
        rw [hlog]
        exact WaitLog.next_of_caller (by simp [hold]) (by simp [hc])
      rw [hnext]
      exact hT.caller j t hold
    · rw [hlog, hpc, hpc']
      simp [WaitLog.next]
  · rw [hother j hji] at hc
    have hlog' : log' t = log t := by
      rcases Pc.roles_of_caller hc with hρ | hρ | hρ <;> exact hT.log_of_role h hstep hlife hlog hji hρ
    rw [hlog']
    exact hT.caller j t hc

omit hlog hclock in
theorem TimedInv.yielded_step (hc : (m'.cpu j).pc = .yielded t .futexSleep) : (life' t).spot = .asleep := by
  by_cases hji : j = i
  · subst hji
    rcases hstep.yielded hc with ⟨hold, rfl⟩ | ⟨f, rfl⟩
    · exact ((hlife t).asleep (hT.yielded j t hold)).resolve_right (by simp)
    · exact (hlife t).of_saved
  · rw [hother j hji] at hc
    refine ((hlife t).asleep (hT.yielded j t hc)).resolve_right ?_
    -- nobody else is in the futex queue while the lock is held
    rintro rfl
    exact hji (h.holder_unique (by rw [hc]; rfl) hstep.of_pick.1)

theorem TimedInv.woke_step (hc : (m'.cpu j).pc = .woke t) : Picked (log' t) (m'.shared.err t) m'.shared.nanos := by
  by_cases hji : j = i
  · subst hji
    rcases hstep.woke_cases hc with hold | ⟨hsleep, hmem⟩
    · have hnext : log' = log := by
        rw [hlog, hold, hc]
        rfl
      have herr : m'.shared.err t = m.shared.err t := by
        refine (hstep.err_eq t).resolve_right ?_
        rintro rfl
        have hplace := hstep.of_pick.1
        rw [hold] at hplace
        simp [Pc.place] at hplace
      rw [hnext, herr]
      exact (hT.woke j t hold).mono hclock
    · have hspot := (h.located.roles j t _).mp hmem
      exact hT.picked_step h hstep hlife hlog hclock (hT.ready t (.inr ⟨j, hspot⟩) hsleep) (by simp [hspot])
        (by simp [hspot])
  · rw [hother j hji] at hc
    have hspot := (h.located.roles j t .running).mp (by rw [hc]; exact mem_cons_self)
    refine hT.picked_step h hstep hlife hlog hclock (hT.woke j t hc) ?_ (by simp [hspot])
    rw [hspot]
    exact fun heq => hji (Spot.cpu.inj heq).1

theorem TimedInv.step (husecs : ∀ u, (m'.cpu i).pc.usecs = some u →
    (m.cpu i).pc.usecs = some u ∨ u = m.shared.nanos / 1000) : m'.TimedInv life' log' where
  start := hT.start_step hlog hclock
  usecs := by
    intro j u hu
    by_cases hji : j = i
    · subst hji
      rcases husecs u hu with hold | rfl
      · obtain ⟨now, hnow, heq⟩ := hT.usecs j u hold
        exact ⟨now, BitVec.le_trans hnow hclock, heq⟩
      · exact ⟨m.shared.nanos, hclock, rfl⟩
    · rw [hother j hji] at hu
      obtain ⟨now, hnow, heq⟩ := hT.usecs j u hu
      exact ⟨now, BitVec.le_trans hnow hclock, heq⟩
  calling := fun _ _ _ hc => hT.calling_step h hstep hlife hlog hother hc
  caller := fun _ _ hc => hT.caller_step h hstep hlife hlog hother hc
  yielded := fun _ _ hc => hT.yielded_step h hstep hlife hother hc
  entry := fun _ hfq => hT.entry_step h hstep hlog hclock hfq
  held := fun _ _ hspot => hT.held_step h hstep hlife hlog hclock hspot
  ready := fun _ hspot hsleep => hT.ready_step h hstep hlife hlog hclock hspot hsleep
  born := fun _ _ hspot => hT.born_step h hstep hlife hspot
  woke := fun _ _ hc => hT.woke_step h hstep hlife hlog hclock hother hc

end Step

/-! ## Runs -/

/-- The start: nobody is in a futex call. -/
structure TimedInit (m : Machine ι τ) : Prop extends m.Init where
  awake : ∀ t, m.shared.inSleep t = false

theorem TimedInit.timedInv {m : Machine ι τ} (h : m.TimedInit) : m.TimedInv m.startLife fun _ => {} where
  start := fun _ => Nat.zero_le _
  usecs := fun i u hu => by simp [h.loop i, Pc.usecs] at hu
  calling := fun i t ts hc => by simp [h.loop i, Pc.calling] at hc
  caller := fun i t hc => by simp [h.loop i, Pc.caller] at hc
  yielded := fun i t hc => by simp [h.loop i] at hc
  entry := fun fq hfq => by simp [h.queues] at hfq
  held := fun i t hspot => by
    rw [← (h.inv.located.roles i t .held), h.loop i] at hspot
    simp [Pc.roles] at hspot
  ready := fun t _ hsleep => by simp [h.awake t] at hsleep
  born := fun i t _ => h.awake t
  woke := fun i t hc => by simp [h.loop i] at hc

variable [DecidableEq ι]

def Logged (x : Machine ι τ × (τ → WaitLog)) : Prop := ∃ life, x.1.Inv life ∧ x.1.TimedInv life x.2

variable {x y : Machine ι τ × (τ → WaitLog)}

theorem Logged.step [Fintype ι] (hι : Fintype.card ι < 2 ^ 32) (h : Logged x)
    (hs : TimedStep x l y) : Logged y := by
  obtain ⟨life, hinv, hT⟩ := h
  obtain ⟨i, a, hstep, hclock, hlog⟩ := hs
  obtain ⟨life', hinv', hlife⟩ := hinv.step hι ⟨i, a, hstep⟩
  obtain ⟨⟨l', c, s⟩, hcpu, hm⟩ := map_eq_some_iff.mp hstep
  obtain ⟨rfl, hset⟩ := Prod.mk.inj hm
  refine ⟨life', hinv', ?_⟩
  rw [← hset] at hclock hlog ⊢
  refine hT.step hinv (i := i) ?_ hlife hlog hclock (fun j hji => x.1.cpu_set_of_ne c s hji) ?_
  · simpa using Cpu.step_of_step hcpu
  · intro u hu
    rw [cpu_set_self] at hu
    exact Cpu.usecs_of_step hcpu hu

/-- **What `enclave_futex_timedwait` returns is why it returns.** `-ETIMEDOUT` says that a tick took the lthread from
the queue when the delay of the timer had passed, `0` that a wake took it; at `-EAGAIN` the call has released the lock
once. -/
theorem timedwait_reason [Fintype ι] (hι : Fintype.card ι < 2 ^ 32) {m₀ : Machine ι τ} (hinit : m₀.TimedInit)
    {ls : List (Label τ)} {x y : Machine ι τ × (τ → WaitLog)} (hrun : Run TimedStep (m₀, fun _ => {}) ls x)
    {t : τ} {rc : CInt} (hret : TimedStep x (.waitRet t rc) y) :
    (rc = -eTimedout ∧ (y.2 t).picks = [.tick] ∧ (∀ delayNs, (y.2 t).timeout = some (timerTimeout delayNs) →
        (y.2 t).start.toNat + delayNs.toNat / 1000 * 1000 ≤ y.1.shared.nanos.toNat) ∨
      rc = 0 ∧ (y.2 t).picks = [.wake] ∨ rc = -eAgain ∧ (y.2 t).picks = [] ∧ (y.2 t).unlocks = 1) ∧
    ∃ i q, (y.1.cpu i).pc = .run t ∧ Queued y.1.shared.lock (fun j => (y.1.cpu j).pc.place) q ∧ i ∉ q := by
  have hlogged := hrun.inv (I := Logged) (fun _ _ _ h hs => h.step hι hs) ⟨_, hinit.inv, hinit.timedInv⟩
  obtain ⟨life', hinv', -⟩ := hlogged.step hι hret
  obtain ⟨life, hinv, hT⟩ := hlogged
  obtain ⟨i, a, hstep, hclock, hlog⟩ := hret
  obtain ⟨⟨l, c, s⟩, hcpu, hm⟩ := map_eq_some_iff.mp hstep
  obtain ⟨rfl, hset⟩ := Prod.mk.inj hm
  obtain ⟨hpc, hpc'⟩ := Cpu.waitRet_of_step hcpu
  have hrun' : (y.1.cpu i).pc = .run t := by
    rw [← hset]
    simpa using hpc'
  constructor
  · rcases hpc with ⟨hpc, rfl⟩ | ⟨hpc, rfl⟩
    · obtain ⟨hpicks, hunlocks⟩ := hT.caller i t (by rw [hpc]; rfl)
      have hnext : y.2 t = { x.2 t with unlocks := (x.2 t).unlocks + 1 } := by
        rw [hlog, hpc, hrun']
        exact update_self ..
      refine .inr (.inr ⟨rfl, ?_⟩)
      rw [hnext]
      exact ⟨hpicks, by simp [hunlocks]⟩
    · have hnext : y.2 = x.2 := by
        rw [hlog, hpc, hrun']
        rfl
      obtain ⟨k, hpicks, herr, htick⟩ := (hT.woke i t hpc).mono hclock
      rw [hnext, herr]
      cases k with
      | wake => exact .inr (.inl ⟨rfl, hpicks⟩)
      | tick =>
        obtain ⟨deadline, now, hdeadline, hnow, hlt⟩ := htick rfl
        exact .inl ⟨rfl, hpicks, fun delayNs hts => hdeadline.elapsed hnow hlt hts⟩
  · obtain ⟨q, hq⟩ := hinv'.lock
    refine ⟨i, q, hrun', hq, ?_⟩
    rw [hq.mem]
    simp [hrun', Pc.place]

/-- The run with a schedule in which the clock does not go back. -/
def timedExec : List (ι × Act τ) → Machine ι τ × (τ → WaitLog) →
    Option (List (Label τ) × Machine ι τ × (τ → WaitLog)) :=
  execute fun ia x => (x.1.step ia.1 ia.2).bind fun (l, m) =>
    if x.1.shared.nanos ≤ m.shared.nanos then
      some (l, m, WaitLog.next x.1.shared.nanos (x.1.cpu ia.1).pc (m.cpu ia.1).pc x.2)
    else none

theorem run_of_timedExec {as : List (ι × Act τ)} {ls : List (Label τ)}
    (h : timedExec as x = some (ls, y)) : Run TimedStep x ls y := by
  refine (run_of_execute h).mono fun x l y ⟨ia, h⟩ => ?_
  obtain ⟨⟨l', m⟩, hstep, h⟩ := bind_eq_some_iff.mp h
  obtain ⟨hclock, h⟩ := ite_none_right_eq_some.mp h
  obtain ⟨rfl, rfl⟩ := Prod.mk.inj (some.inj h)
  exact ⟨ia.1, ia.2, hstep, hclock, rfl⟩

def oneSleeper : Machine Unit (Fin 1) where
  cpu := fun _ => ⟨.loop, fun _ => 0⟩
  shared :=
    { futexQueues := [], futexSleepers := 0, err := fun _ => 0, schedulerQueue := [0], lock := ⟨0, 0⟩, mem := fun _ => 0
      nanos := 0, ctx := fun _ _ => 0, alive := fun _ => true, inSleep := fun _ => false }

theorem oneSleeper_init : oneSleeper.TimedInit where
  loop := fun _ => rfl
  queues := rfl
  free := rfl
  nodup := by decide
  alive := by decide
  awake := fun _ => rfl

/-- The lthread waits for five microseconds, the clock goes on by ten, and the scheduler ticks. -/
def fiveMicroseconds : List (Unit × Act (Fin 1)) :=
  List.replicate 10 ((), .go) ++ [((), .call (.timedwait 0 0 (some (timerTimeout 5000))))] ++
    List.replicate 16 ((), .go) ++ [((), .clock 10000), ((), .tick)] ++ List.replicate 16 ((), .go)

theorem timedwait_reason_fiveMicroseconds :
    ∃ ls x y, Run TimedStep (oneSleeper, fun _ => {}) ls x ∧ TimedStep x (.waitRet 0 (-eTimedout)) y ∧
      (y.2 0).picks = [.tick] := by
  have hexec : ((timedExec fiveMicroseconds (oneSleeper, fun _ => {})).bind fun r =>
      (timedExec [((), .go)] r.2).map Prod.fst) = some [.waitRet 0 (-eTimedout)] := by decide
  obtain ⟨⟨ls, x⟩, hx, hr⟩ := bind_eq_some_iff.mp hexec
  obtain ⟨⟨ls', y⟩, hy, rfl⟩ := map_eq_some_iff.mp hr
  have hrun := run_of_timedExec hx
  have hret : TimedStep x (.waitRet 0 (-eTimedout)) y := by
    cases run_of_timedExec hy with
    | cons hstep hnil =>
      cases hnil
      exact hstep
  refine ⟨ls, x, y, hrun, hret, ?_⟩
  rcases (timedwait_reason (by decide) oneSleeper_init hrun hret).1 with h | h | h
  · exact h.2.1
  · exact absurd h.1 (by decide)
  · exact absurd h.1 (by decide)

end Machine

end SgxLkl
