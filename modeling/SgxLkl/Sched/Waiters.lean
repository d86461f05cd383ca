import SgxLkl.Lib.Slist
import SgxLkl.Sched.Futex

/-!
# The futex queue in memory (`sched/futex.c`)

The entry of an lthread is a field of the lthread, and `futex_queues` links the entries with pointers. `futex_wake` goes
through the list and takes out entries at the same time.

* **`enclaveFutexWake_refines`**: it does what the code does with the list of the entries.
* **`enclaveFutexWake_exact`**: which entries are taken out, and what is returned.
-/

namespace SgxLkl

open List Function

variable {τ κ : Type*}

/-! ## The code -/

/-- The fields of the lthreads, the number of sleepers and the run queue. The entry `fq` of an lthread is named like the
lthread; `futexLt` is its pointer to the lthread that waits. -/
structure FutexFields (τ : Type*) where
  futexKey : τ → BitVec 32
  futexDeadline : τ → Word
  futexLt : τ → Option τ
  futexSleepers : CInt
  err : τ → CInt
  schedulerQueue : List τ

structure FutexHeap (τ : Type*) where
  futexQueues : Slist τ
  fields : FutexFields τ

def FutexFields.entry (x : FutexFields τ) (t : τ) : FutexQ τ := ⟨x.futexKey t, x.futexDeadline t, t⟩

variable [DecidableEq τ]

namespace FutexFields

def release (fq lt : τ) (reason : CInt) (x : FutexFields τ) : FutexFields τ :=
  { x with
    futexLt := update x.futexLt fq none
    futexSleepers := x.futexSleepers - 1
    err := update x.err lt reason
    schedulerQueue := x.schedulerQueue ++ [lt] }

/-- The body of a loop that takes out the entries that `sel` selects, with a counter `w`. A null pointer is not
followed. -/
def sweepBody (sel : FutexQ τ → κ → Bool) (count : κ → κ) (reason : CInt) (fq : τ) :
    κ × FutexFields τ → Option (Bool × κ × FutexFields τ)
  | (w, x) =>
    if sel (x.entry fq) w then (x.futexLt fq).map fun lt => (true, count w, x.release fq lt reason)
    else some (false, w, x)

def wakeBody (futexKey num : BitVec 32) : τ → BitVec 32 × FutexFields τ → Option (Bool × BitVec 32 × FutexFields τ) :=
  sweepBody (fun fq w => fq.futexKey = futexKey ∧ w < num) (· + 1) futexNone

end FutexFields

namespace FutexHeap

def futexWaitNew (futexKey : BitVec 32) (lthreadSelf : τ) (s : FutexHeap τ) : FutexHeap τ where
  futexQueues := s.futexQueues.insertHead lthreadSelf
  fields :=
    { s.fields with
      futexKey := update s.fields.futexKey lthreadSelf futexKey
      futexDeadline := update s.fields.futexDeadline lthreadSelf 0
      futexLt := update s.fields.futexLt lthreadSelf (some lthreadSelf) }

/-- `futex_wake`; the loops take at most `n` rounds. -/
def futexWake (n : ℕ) (uaddr : Word) (num : BitVec 32) (s : FutexHeap τ) : Option (BitVec 32 × FutexHeap τ) :=
  (Slist.foreachSafe (FutexFields.wakeBody (toFutexKey uaddr) num) n n s.futexQueues.first s.futexQueues
    (0, s.fields)).map fun (q, w, x) => (w, ⟨q, x⟩)

/-- `enclave_futex_wake`, run under the lock. -/
def enclaveFutexWake (n : ℕ) (uaddr : Word) (val : CInt) (s : FutexHeap τ) : Option (CInt × FutexHeap τ) :=
  s.futexWake n uaddr val

end FutexHeap

/-! ## The list of the entries -/

/-- The fields, with the entries of `l` as the queue. -/
def FutexFields.futexes (x : FutexFields τ) (l : List τ) : Futexes τ :=
  ⟨l.map x.entry, x.futexSleepers, x.err, x.schedulerQueue⟩

/-- The list links the entries of `l`, in this order, and each belongs to its lthread. -/
structure FutexHeap.Holds (s : FutexHeap τ) (l : List τ) : Prop where
  path : Slist.Path s.futexQueues.next s.futexQueues.first l
  own : ∀ t ∈ l, s.fields.futexLt t = some t

/-! ## What a loop takes out -/

/-- The elements that are selected, the others, and the counter. -/
def splitBy (sel : τ → κ → Bool) (count : κ → κ) : List τ → κ → List τ × List τ × κ
  | [], w => ([], [], w)
  | t :: l, w =>
    if sel t w then
      let (picked, kept, w) := splitBy sel count l (count w)
      (t :: picked, kept, w)
    else
      let (picked, kept, w) := splitBy sel count l w
      (picked, t :: kept, w)

section

omit [DecidableEq τ]

variable (sel : τ → κ → Bool) {t : τ} {w : κ} {l : List τ}

theorem splitBy_of_pos (count : κ → κ) (h : sel t w = true) : splitBy sel count (t :: l) w =
      let r := splitBy sel count l (count w)
      (t :: r.1, r.2.1, r.2.2) := by
  rw [splitBy, if_pos h]

theorem splitBy_of_neg (count : κ → κ) (h : ¬ sel t w = true) : splitBy sel count (t :: l) w =
      let r := splitBy sel count l w
      (r.1, t :: r.2.1, r.2.2) := by
  rw [splitBy, if_neg h]

theorem splitBy_sublist (sel : τ → κ → Bool) (count : κ → κ) (l : List τ) (w : κ) :
    (splitBy sel count l w).1.Sublist l ∧ (splitBy sel count l w).2.1.Sublist l := by
  induction l generalizing w with
  | nil => simp [splitBy]
  | cons t l ih =>
    rw [splitBy]
    split_ifs
    · exact ⟨(ih (count w)).1.cons_cons t, (ih (count w)).2.cons t⟩
    · exact ⟨(ih w).1.cons t, (ih w).2.cons_cons t⟩

/-- The loop of `futex_wake` takes the first entries with the key, until it has enough. -/
theorem splitBy_wake (p : τ → Bool) (num : BitVec 32) (l : List τ) (w : BitVec 32) :
    let r := splitBy (fun t w => p t && decide (w < num)) (· + 1) l w
    r.1 = (l.filter p).take (num.toNat - w.toNat) ∧ r.2.2.toNat = w.toNat + r.1.length := by
  induction l generalizing w with
  | nil => simp [splitBy]
  | cons t l ih =>
    intro r
    by_cases hp : p t
    · by_cases hw : w < num
      · have hsucc : num.toNat - w.toNat = num.toNat - (w + 1).toNat + 1 := by bv_omega
        have htoNat : (w + 1).toNat = w.toNat + 1 := by bv_omega
        obtain ⟨hpicked, hcount⟩ := ih (w + 1)
        simp only [r, splitBy, hp, hw, decide_true, Bool.and_self, if_true, filter_cons_of_pos, hsucc,
          take_succ_cons]
        refine ⟨congrArg (t :: ·) hpicked, ?_⟩
        rw [hcount, htoNat, length_cons]
        omega
      · have hzero : num.toNat - w.toNat = 0 := by bv_omega
        obtain ⟨hpicked, hcount⟩ := ih w
        simp only [r, splitBy, hp, hw, decide_false, Bool.and_false, Bool.false_eq_true, if_false, hzero,
          take_zero] at hpicked hcount ⊢
        exact ⟨hpicked, hcount⟩
    · obtain ⟨hpicked, hcount⟩ := ih w
      simp only [r, splitBy, hp, Bool.false_and, Bool.false_eq_true, if_false, filter_cons_of_neg,
        not_false_eq_true] at hpicked hcount ⊢
      exact ⟨hpicked, hcount⟩

theorem lt_of_mem_take_filter {r : τ → τ → Prop} (hl : l.Pairwise r) (p : τ → Bool) (k : ℕ) {t u : τ}
    (ht : t ∈ (l.filter p).take k) (hu : u ∈ l) (hp : p u = true) (hnot : u ∉ (l.filter p).take k) : r t u := by
  have hmem : u ∈ (l.filter p).drop k := by
    have hfilter : u ∈ (l.filter p).take k ++ (l.filter p).drop k := by
      rw [take_append_drop]
      exact mem_filter.mpr ⟨hu, hp⟩
    exact (mem_append.mp hfilter).resolve_left hnot
  have hpair := hl.filter p
  rw [← take_append_drop k (l.filter p)] at hpair
  exact (pairwise_append.mp hpair).2.2 t ht u hmem

end

variable {l : List τ}

theorem splitBy_kept (sel : τ → κ → Bool) (count : κ → κ) (hl : l.Nodup) (w : κ) :
    (splitBy sel count l w).2.1 = l.filter (· ∉ (splitBy sel count l w).1) := by
  induction l generalizing w with
  | nil => rfl
  | cons t l ih =>
    obtain ⟨ht, hl⟩ := nodup_cons.mp hl
    rw [splitBy]
    split_ifs
    · rw [ih hl]
      simp only [mem_cons, true_or, not_true, decide_false, Bool.false_eq_true, not_false_eq_true,
        filter_cons_of_neg]
      refine filter_congr fun u hu => ?_
      have hne : u ≠ t := by
        rintro rfl
        exact ht hu
      simp [hne]
    · have hnot : t ∉ (splitBy sel count l w).1 := fun hmem => ht ((splitBy_sublist sel count l w).1.subset hmem)
      simp [ih hl, hnot]

namespace FutexFields

/-- The entries of `ts` are taken out, one after the other. -/
def releaseAll (reason : CInt) (ts : List τ) (x : FutexFields τ) : FutexFields τ :=
  { x with
    futexLt := fun t => if t ∈ ts then none else x.futexLt t
    futexSleepers := x.futexSleepers - BitVec.ofNat 32 ts.length
    err := fun t => if t ∈ ts then reason else x.err t
    schedulerQueue := x.schedulerQueue ++ ts }

@[simp] theorem releaseAll_nil (reason : CInt) (x : FutexFields τ) : x.releaseAll reason [] = x := by
  simp [releaseAll]

theorem releaseAll_cons (reason : CInt) (t : τ) (ts : List τ) (x : FutexFields τ) :
    x.releaseAll reason (t :: ts) = (x.release t t reason).releaseAll reason ts := by
  have hlen : BitVec.ofNat 32 (ts.length + 1) = 1 + BitVec.ofNat 32 ts.length := by
    rw [Nat.add_comm, BitVec.ofNat_add]
    rfl
  simp only [releaseAll, release, length_cons, hlen, BitVec.sub_sub, append_assoc, singleton_append,
    update_apply, mem_cons]
  congr 1
  · funext u
    by_cases hu : u = t <;> by_cases hts : u ∈ ts <;> simp [hu, hts]
  · funext u
    by_cases hu : u = t <;> by_cases hts : u ∈ ts <;> simp [hu, hts]

variable {x : FutexFields τ} {l : List τ} {w : κ} {reason : CInt}

@[simp] theorem entry_release (fq lt : τ) : (x.release fq lt reason).entry = x.entry := rfl

theorem sweepList_sweepBody (sel : FutexQ τ → κ → Bool) (count : κ → κ) (hl : l.Nodup)
    (hown : ∀ t ∈ l, x.futexLt t = some t) :
    Slist.sweepList (sweepBody sel count reason) l (w, x) =
      let r := splitBy (fun t => sel (x.entry t)) count l w
      some (r.2.1, r.2.2, x.releaseAll reason r.1) := by
  induction l generalizing w x with
  | nil => simp [Slist.sweepList, splitBy]
  | cons t l ih =>
    obtain ⟨ht, hl⟩ := nodup_cons.mp hl
    rw [Slist.sweepList, splitBy, sweepBody]
    split_ifs with hsel
    · have hrest : ∀ u ∈ l, (x.release t t reason).futexLt u = some u := by
        intro u hu
        have hne : u ≠ t := by
          rintro rfl
          exact ht hu
        simp [release, update_of_ne hne, hown u (mem_cons_of_mem t hu)]
      simp [hown t mem_cons_self, ih hl hrest, releaseAll_cons]
    · simp [ih hl fun u hu => hown u (mem_cons_of_mem t hu)]

end FutexFields

namespace FutexHeap

variable {s : FutexHeap τ} {l : List τ} {n : ℕ}

theorem Holds.futexWaitNew (h : s.Holds l) (futexKey : BitVec 32) {t : τ} (ht : t ∉ l) :
    (s.futexWaitNew futexKey t).Holds (t :: l) := by
  refine ⟨Slist.path_insertHead h.path ht, ?_⟩
  intro u hu
  by_cases hut : u = t
  · simp [FutexHeap.futexWaitNew, hut]
  · have hmem : u ∈ l := (mem_cons.mp hu).resolve_left hut
    simp [FutexHeap.futexWaitNew, update_of_ne hut, h.own u hmem]

theorem Holds.foreachSafe (h : s.Holds l) (hn : l.length ≤ n) (sel : FutexQ τ → κ → Bool) (count : κ → κ)
    (reason : CInt) (w : κ) :
    let r := splitBy (fun t => sel (s.fields.entry t)) count l w
    ∃ q, Slist.foreachSafe (FutexFields.sweepBody sel count reason) n n s.futexQueues.first s.futexQueues
          (w, s.fields) = some (q, r.2.2, s.fields.releaseAll reason r.1) ∧
      Holds ⟨q, s.fields.releaseAll reason r.1⟩ r.2.1 := by
  intro r
  obtain ⟨q, hloop, hpath⟩ :=
    Slist.foreachSafe_of_path h.path hn (FutexFields.sweepList_sweepBody sel count h.path.nodup h.own)
  refine ⟨q, hloop, hpath, ?_⟩
  intro t ht
  rw [splitBy_kept _ _ h.path.nodup, mem_filter, decide_eq_true_eq] at ht
  simp only [FutexFields.releaseAll]
  rw [if_neg ht.2, h.own t ht.1]

end FutexHeap

/-! ## `futex_wake` -/

omit [DecidableEq τ] in
theorem FutexFields.entry_injective (x : FutexFields τ) : Function.Injective x.entry :=
  fun _ _ h => congrArg FutexQ.futexLt h

theorem FutexFields.futexWakeLoop_futexes (x : FutexFields τ) (futexKey num w : BitVec 32) {done : List τ}
    (hl : (done ++ l).Nodup) :
    let r := splitBy (fun t w => decide (x.futexKey t = futexKey ∧ w < num)) (· + 1) l w
    (x.futexes (done ++ l)).futexWakeLoop futexKey num (l.map x.entry) w =
      (r.2.2, (x.releaseAll futexNone r.1).futexes (done ++ r.2.1)) := by
  induction l generalizing w x done with
  | nil => simp [splitBy, Futexes.futexWakeLoop]
  | cons t l ih =>
    have hmove : done ++ t :: l = (done ++ [t]) ++ l := by simp
    rw [map_cons, Futexes.futexWakeLoop]
    by_cases hsel : (x.entry t).futexKey = futexKey ∧ w < num
    · have ht : t ∉ done := fun hmem => (nodup_append.mp hl).2.2 t hmem t mem_cons_self rfl
      have hqueue : ((done ++ t :: l).map x.entry).erase (x.entry t) = (done ++ l).map x.entry := by
        rw [← map_erase x.entry_injective, erase_append_right _ ht, erase_cons_head]
      have hstate : ((x.futexes (done ++ t :: l)).unlink (x.entry t) futexNone).schedulerEnqueue (x.entry t).futexLt =
          (x.release t t futexNone).futexes (done ++ l) := by
        simp only [FutexFields.futexes, Futexes.unlink, Futexes.schedulerEnqueue, hqueue]
        rfl
      have hnodup : (done ++ l).Nodup := hl.sublist ((sublist_cons_self t l).append_left done)
      have hrest := ih (x.release t t futexNone) (w + 1) hnodup
      have hpicked := splitBy_of_pos (fun t w => decide (x.futexKey t = futexKey ∧ w < num)) (· + 1) (l := l)
        (decide_eq_true hsel)
      rw [if_pos hsel, hstate, hpicked]
      simp only [FutexFields.releaseAll_cons]
      exact hrest
    · have hrest := ih x w (hmove ▸ hl)
      have hkept := splitBy_of_neg (fun t w => decide (x.futexKey t = futexKey ∧ w < num)) (· + 1) (l := l)
        (mt of_decide_eq_true hsel)
      rw [if_neg hsel, hmove, hrest, hkept]
      simp

variable {s : FutexHeap τ}

/-- The entries are in the order of their arrival, the latest first. -/
structure FutexHeap.Arrived (s : FutexHeap τ) (arrival : τ → ℕ) (l : List τ) : Prop extends s.Holds l where
  latest_first : l.Pairwise fun t u => arrival u < arrival t

theorem FutexHeap.Arrived.futexWaitNew {arrival : τ → ℕ} {k : ℕ}
    (h : s.Arrived arrival l) (futexKey : BitVec 32) {t : τ} (ht : t ∉ l) (hk : ∀ u ∈ l, arrival u < k) :
    (s.futexWaitNew futexKey t).Arrived (update arrival t k) (t :: l) := by
  refine ⟨h.toHolds.futexWaitNew futexKey ht, pairwise_cons.mpr ⟨?_, ?_⟩⟩
  · intro u hu
    have hne : u ≠ t := by
      rintro rfl
      exact ht hu
    simpa [update_of_ne hne] using hk u hu
  · refine h.latest_first.imp_of_mem fun {u v} hu hv huv => ?_
    have hut : u ≠ t := by
      rintro rfl
      exact ht hu
    have hvt : v ≠ t := by
      rintro rfl
      exact ht hv
    rwa [update_of_ne hut, update_of_ne hvt]

/-- `enclave_futex_wake` takes out as many entries with the key as there are, but at most `val`, and the latest ones; it
returns their number. Their threads are put on the run queue, each once, with no error. The other entries keep their
order. -/
theorem enclaveFutexWake_exact {s : FutexHeap τ} {arrival : τ → ℕ} {l : List τ} {n : ℕ}
    (h : s.Arrived arrival l) (hn : l.length ≤ n) (uaddr : Word) (val : CInt) :
    let hasKey : τ → Bool := fun t => s.fields.futexKey t = toFutexKey uaddr
    ∃ rc s' picked, s.enclaveFutexWake n uaddr val = some (rc, s') ∧ rc.toNat = picked.length ∧
      picked.length = min val.toNat (l.countP hasKey) ∧ picked.Nodup ∧ (∀ t ∈ picked, t ∈ l ∧ hasKey t) ∧
      (∀ t ∈ picked, ∀ u ∈ l, hasKey u → u ∉ picked → arrival u < arrival t) ∧
      s'.Arrived arrival (l.filter (· ∉ picked)) ∧
      s'.fields.schedulerQueue = s.fields.schedulerQueue ++ picked ∧
      ∀ t, s'.fields.err t = if t ∈ picked then futexNone else s.fields.err t := by
  intro hasKey
  obtain ⟨q, hloop, hholds⟩ := h.foreachSafe hn
    (fun fq w => fq.futexKey = toFutexKey uaddr ∧ w < val) (· + 1) futexNone 0
  have hsel : (fun t w => decide ((s.fields.entry t).futexKey = toFutexKey uaddr ∧ w < val)) =
      fun t w => hasKey t && decide (w < val) := by
    funext t w
    exact Bool.decide_and ..
  rw [hsel] at hloop hholds
  obtain ⟨hpicked, hcount⟩ := splitBy_wake hasKey val l 0
  have hkept := splitBy_kept (fun t w => hasKey t && decide (w < val)) (· + 1) h.path.nodup 0
  generalize splitBy (fun t w => hasKey t && decide (w < val)) (· + 1) l 0 = r at *
  rw [hkept] at hholds
  have htake : r.1 = (l.filter hasKey).take val.toNat := by simpa using hpicked
  refine ⟨r.2.2, ⟨q, _⟩, r.1, ?_, by simpa using hcount, ?_, ?_, ?_, ?_, ⟨hholds, ?_⟩, rfl, fun t => rfl⟩
  · rw [FutexHeap.enclaveFutexWake, FutexHeap.futexWake, FutexFields.wakeBody, hloop]
    rfl
  · rw [htake, length_take, countP_eq_length_filter]
  · rw [htake]
    exact (h.path.nodup.filter _).sublist (take_sublist ..)
  · intro t ht
    rw [htake] at ht
    exact mem_filter.mp (mem_of_mem_take ht)
  · intro t ht u hu hkey hnot
    rw [htake] at ht hnot
    exact lt_of_mem_take_filter h.latest_first hasKey val.toNat ht hu hkey hnot
  · exact h.latest_first.filter _

/-- Three lthreads wait: `2`, then `1`, then `0`; the last two with the key 4. -/
def threeWaiters : FutexHeap (Fin 3) :=
  (FutexHeap.futexWaitNew 4 0 <| FutexHeap.futexWaitNew 4 1 <| FutexHeap.futexWaitNew 8 2
    ⟨⟨none, fun _ => none⟩, ⟨fun _ => 0, fun _ => 0, fun _ => none, 0, fun _ => 7, []⟩⟩)

theorem threeWaiters_arrived : threeWaiters.Arrived (fun t => 3 - t.val) [0, 1, 2] :=
  ⟨⟨.cons (.cons (.cons .nil)), by decide⟩, by decide⟩

theorem enclaveFutexWake_exact_threeWaiters :
    let hasKey : Fin 3 → Bool := fun t => threeWaiters.fields.futexKey t = toFutexKey 4
    ∃ rc s' picked, threeWaiters.enclaveFutexWake 3 4 1 = some (rc, s') ∧ rc.toNat = picked.length ∧
      picked.length = min (1 : CInt).toNat ([0, 1, 2].countP hasKey) ∧ picked.Nodup ∧
      (∀ t ∈ picked, t ∈ [0, 1, 2] ∧ hasKey t) ∧
      (∀ t ∈ picked, ∀ u ∈ [0, 1, 2], hasKey u → u ∉ picked → 3 - u.val < 3 - t.val) ∧
      s'.Arrived (fun t => 3 - t.val) ([0, 1, 2].filter (· ∉ picked)) ∧
      s'.fields.schedulerQueue = threeWaiters.fields.schedulerQueue ++ picked ∧
      ∀ t, s'.fields.err t = if t ∈ picked then futexNone else threeWaiters.fields.err t :=
  enclaveFutexWake_exact threeWaiters_arrived (by decide) 4 1

/-- **The list of pointers does what the list of entries does.** -/
theorem enclaveFutexWake_refines {s : FutexHeap τ} {l : List τ} {n : ℕ} (h : s.Holds l) (hn : l.length ≤ n) (uaddr : Word) (val : CInt) :
    ∃ rc s' l', s.enclaveFutexWake n uaddr val = some (rc, s') ∧ s'.Holds l' ∧
      (s.fields.futexes l).enclaveFutexWake uaddr val = (rc, s'.fields.futexes l') := by
  obtain ⟨q, hloop, hholds⟩ := h.foreachSafe hn
    (fun fq w => fq.futexKey = toFutexKey uaddr ∧ w < val) (· + 1) futexNone 0
  refine ⟨_, _, _, by rw [FutexHeap.enclaveFutexWake, FutexHeap.futexWake, FutexFields.wakeBody, hloop]; rfl, hholds, ?_⟩
  exact s.fields.futexWakeLoop_futexes (toFutexKey uaddr) val 0 (show ([] ++ l).Nodup from h.path.nodup)

theorem enclaveFutexWake_refines_threeWaiters : ∃ rc s' l', threeWaiters.enclaveFutexWake 3 4 1 = some (rc, s') ∧
      s'.Holds l' ∧ (threeWaiters.fields.futexes [0, 1, 2]).enclaveFutexWake 4 1 = (rc, s'.fields.futexes l') :=
  enclaveFutexWake_refines threeWaiters_arrived.toHolds (by decide) 4 1

end SgxLkl
