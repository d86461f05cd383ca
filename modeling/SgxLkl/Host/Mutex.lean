import SgxLkl.Lib.Bits
import SgxLkl.Lib.Futex
import SgxLkl.Lib.Interleave

/-!
# The mutexes of the kernel

`mutex_lock` and `mutex_unlock` of `posix-host.c` as atomic accesses to the mutex, made by any number
of threads in any order. The compare-exchange is a weak one, and `enclave_futex_wait` may return at
any time; `enclave_futex_wake` with `INT_MAX` wakes all that sleep on the flag.

* `LklMutex.Step`: the next access of a thread; `LklMutex.Lock`: the system.
* **`LklMutex.mutex_correct`**: as long as `recursion_count` does not overflow, one thread at most
  holds the mutex, a recursive mutex is released by the last unlock, and nobody sleeps in vain.
-/

namespace SgxLkl

open BitVec

variable {τ : Type*}

/-! ## The code -/

def unlocked : CInt := 0

def lockedNoWaiters : CInt := 1

def lockedWaiters : CInt := 2

/-- `struct lkl_mutex`, with the threads that sleep on the flag. `recursion_count` is a signed bit
field of 31 bits. -/
structure LklMutex (τ : Type*) where
  flag : Futex CInt τ
  owner : Option τ
  isRecursive : Bool
  recursionCount : BitVec 31

namespace LklMutex

/-- Where a thread is; the first ones belong to `mutex_lock`, those from `countDown` on to
`mutex_unlock`. -/
inductive Pc
  | idle
  | compareExchange
  /-- The compare-exchange failed and stored the flag in `state`. -/
  | failed (state : CInt)
  /-- At the load of `recursion_count++`. -/
  | countUp
  /-- At the store of `recursion_count++`. -/
  | countedUp (n : BitVec 31)
  /-- At one of the two exchanges. -/
  | exchange
  | futexWait
  /-- In `enclave_futex_wait`, asleep or woken. -/
  | asleep
  /-- The mutex is locked; the owner is still to be set. -/
  | setOwner
  /-- At the test of `recursion_count`. -/
  | countDown
  /-- At the store of `recursion_count--`. -/
  | countedDown (n : BitVec 31)
  | clearOwner
  /-- At the fetch-and-subtract. -/
  | fetchSub
  | store
  | futexWake

/-- A thread: where it is, and how often it has locked the mutex more than it has called for an
unlock. -/
structure Thread where
  pc : Pc
  depth : ℕ

inductive Event (τ : Type*)
  | tau
  | locked (t : τ)
  | unlock (t : τ)
  /-- `mutex_unlock` makes the mutex free. -/
  | release (t : τ)
  deriving DecidableEq

/-- Where `mutex_lock` goes with this `state` when it is not a recursive call. -/
def Pc.contend (state : CInt) : Pc := if state ≠ lockedWaiters then .exchange else .futexWait

/-- The next access of thread `t`. A thread unlocks only what it holds. -/
inductive Step [DecidableEq τ] (t : τ) :
    Thread → LklMutex τ → Event τ → Thread → LklMutex τ → Prop
  | lock {d : ℕ} {s : LklMutex τ} : Step t ⟨.idle, d⟩ s .tau ⟨.compareExchange, d⟩ s
  | acquire {d : ℕ} {s : LklMutex τ} (h : s.flag.word = unlocked) :
      Step t ⟨.compareExchange, d⟩ s .tau ⟨.setOwner, d⟩ { s with flag := s.flag.set lockedNoWaiters }
  -- also when the flag is `unlocked`: the weak compare-exchange may fail for no reason
  | fail {d : ℕ} {s : LklMutex τ} :
      Step t ⟨.compareExchange, d⟩ s .tau ⟨.failed s.flag.word, d⟩ s
  | recursive {d : ℕ} {s : LklMutex τ} {state : CInt} (hr : s.isRecursive = true)
      (ho : s.owner = some t) : Step t ⟨.failed state, d⟩ s .tau ⟨.countUp, d⟩ s
  | contend {d : ℕ} {s : LklMutex τ} {state : CInt}
      (h : ¬ (s.isRecursive = true ∧ s.owner = some t)) :
      Step t ⟨.failed state, d⟩ s .tau ⟨.contend state, d⟩ s
  | countUp {d : ℕ} {s : LklMutex τ} : Step t ⟨.countUp, d⟩ s .tau ⟨.countedUp s.recursionCount, d⟩ s
  | countedUp {d : ℕ} {s : LklMutex τ} {n : BitVec 31} :
      Step t ⟨.countedUp n, d⟩ s (.locked t) ⟨.idle, d + 1⟩ { s with recursionCount := n + 1 }
  | take {d : ℕ} {s : LklMutex τ} (h : s.flag.word = unlocked) :
      Step t ⟨.exchange, d⟩ s .tau ⟨.setOwner, d⟩ { s with flag := s.flag.set lockedWaiters }
  | wait {d : ℕ} {s : LklMutex τ} (h : s.flag.word ≠ unlocked) :
      Step t ⟨.exchange, d⟩ s .tau ⟨.futexWait, d⟩ { s with flag := s.flag.set lockedWaiters }
  | sleep {d : ℕ} {s : LklMutex τ} (h : s.flag.word = lockedWaiters) :
      Step t ⟨.futexWait, d⟩ s .tau ⟨.asleep, d⟩ { s with flag := s.flag.enter t }
  | again {d : ℕ} {s : LklMutex τ} (h : s.flag.word ≠ lockedWaiters) :
      Step t ⟨.futexWait, d⟩ s .tau ⟨.exchange, d⟩ s
  | wakeUp {d : ℕ} {s : LklMutex τ} :
      Step t ⟨.asleep, d⟩ s .tau ⟨.exchange, d⟩ { s with flag := s.flag.leave t }
  | setOwner {d : ℕ} {s : LklMutex τ} :
      Step t ⟨.setOwner, d⟩ s (.locked t) ⟨.idle, d + 1⟩
        { s with owner := if s.isRecursive then some t else s.owner }
  | unlock {d : ℕ} {s : LklMutex τ} :
      Step t ⟨.idle, d + 1⟩ s (.unlock t) ⟨if s.isRecursive then .countDown else .fetchSub, d⟩ s
  | countDown {d : ℕ} {s : LklMutex τ} (h : 0 < s.recursionCount.toInt) :
      Step t ⟨.countDown, d⟩ s .tau ⟨.countedDown s.recursionCount, d⟩ s
  | countedDown {d : ℕ} {s : LklMutex τ} {n : BitVec 31} :
      Step t ⟨.countedDown n, d⟩ s .tau ⟨.idle, d⟩ { s with recursionCount := n - 1 }
  | last {d : ℕ} {s : LklMutex τ} (h : ¬ 0 < s.recursionCount.toInt) :
      Step t ⟨.countDown, d⟩ s .tau ⟨.clearOwner, d⟩ s
  | clearOwner {d : ℕ} {s : LklMutex τ} :
      Step t ⟨.clearOwner, d⟩ s .tau ⟨.fetchSub, d⟩ { s with owner := none }
  | fetchSub {d : ℕ} {s : LklMutex τ} (h : s.flag.word = lockedNoWaiters) :
      Step t ⟨.fetchSub, d⟩ s (.release t) ⟨.idle, d⟩ { s with flag := s.flag.set (s.flag.word - 1) }
  | fetchSubWaiters {d : ℕ} {s : LklMutex τ} (h : s.flag.word ≠ lockedNoWaiters) :
      Step t ⟨.fetchSub, d⟩ s .tau ⟨.store, d⟩ { s with flag := s.flag.set (s.flag.word - 1) }
  | store {d : ℕ} {s : LklMutex τ} :
      Step t ⟨.store, d⟩ s (.release t) ⟨.futexWake, d⟩ { s with flag := s.flag.set unlocked }
  | futexWake {d : ℕ} {s : LklMutex τ} :
      Step t ⟨.futexWake, d⟩ s .tau ⟨.idle, d⟩ { s with flag := s.flag.wake }

/-! ## The invariant -/

variable [DecidableEq τ] {s s' : LklMutex τ} {t u : τ} {l l' : Thread} {a : Event τ}
  {ls : List (Event τ)}

def locks (t : τ) (ls : List (Event τ)) : ℕ := ls.count (.locked t)

def unlocks (t : τ) (ls : List (Event τ)) : ℕ := ls.count (.unlock t)

/-- Who has the mutex, and who is going to wake the sleepers. -/
structure Ghost (τ : Type*) where
  holder : Option τ
  wakers : Set τ

structure Sound (g : Ghost τ) (s : LklMutex τ) : Prop where
  flag : s.flag.word = unlocked ∨ s.flag.word = lockedNoWaiters ∨ s.flag.word = lockedWaiters
  free : s.flag.word = unlocked ↔ g.holder = none
  count : s.recursionCount.toNat < 2 ^ 30
  countFree : g.holder = none → s.recursionCount = 0
  plain : s.isRecursive = false → s.recursionCount = 0 ∧ s.owner = none
  owner : ∀ t, s.owner = some t → g.holder = some t
  covered : s.flag.Covered lockedWaiters g.wakers.Nonempty

/-- What holds of thread `t` at each point of the code. -/
def At (holder : Option τ) (s : LklMutex τ) (t : τ) (d : ℕ) : Pc → Prop
  | .idle | .compareExchange | .failed _ =>
    (holder = some t ↔ 0 < d) ∧
      (0 < d → d = s.recursionCount.toNat + 1 ∧ (s.isRecursive = true → s.owner = some t))
  | .exchange | .futexWait | .asleep =>
    (holder = some t ↔ 0 < d) ∧ (s.isRecursive = true → d = 0) ∧
      (0 < d → d = s.recursionCount.toNat + 1)
  | .countUp =>
    holder = some t ∧ s.isRecursive = true ∧ s.owner = some t ∧ d = s.recursionCount.toNat + 1
  | .countedUp n =>
    holder = some t ∧ s.isRecursive = true ∧ s.owner = some t ∧ d = s.recursionCount.toNat + 1 ∧
      n = s.recursionCount
  | .setOwner => holder = some t ∧ d = 0 ∧ s.recursionCount = 0
  | .countDown =>
    holder = some t ∧ s.isRecursive = true ∧ s.owner = some t ∧ d = s.recursionCount.toNat
  | .countedDown n =>
    holder = some t ∧ s.isRecursive = true ∧ s.owner = some t ∧ d = s.recursionCount.toNat ∧
      n = s.recursionCount ∧ 0 < d
  | .clearOwner => holder = some t ∧ s.isRecursive = true ∧ d = 0 ∧ s.recursionCount = 0
  | .fetchSub | .store => holder = some t ∧ d = 0 ∧ s.recursionCount = 0 ∧ s.owner = none
  | .futexWake => holder ≠ some t ∧ d = 0

def Pc.Waking : Pc → Prop
  | .store | .futexWake => True
  | _ => False

structure Locked (ls : List (Event τ)) (g : Ghost τ) (t : τ) (l : Thread) (s : LklMutex τ) :
    Prop where
  depth : l.depth + unlocks t ls = locks t ls
  waker : t ∈ g.wakers ↔ l.pc.Waking
  place : At g.holder s t l.depth l.pc

omit [DecidableEq τ] in
/-- Only the holder depends on the owner and the count. -/
theorem At.congr {h h' : Option τ} {d : ℕ} {pc : Pc} (hat : At h s t d pc)
    (hh : h' = some t ↔ h = some t) (hr : s'.isRecursive = s.isRecursive)
    (hs : h = some t → s'.owner = s.owner ∧ s'.recursionCount = s.recursionCount) : At h' s' t d pc := by
  by_cases ht : h = some t
  · obtain ⟨ho, hc⟩ := hs ht
    obtain rfl : h' = h := (hh.mpr ht).trans ht.symm
    cases pc <;> simpa only [At, hr, ho, hc] using hat
  · have ht' : h' ≠ some t := mt hh.mp ht
    cases pc with
    | idle | compareExchange | failed =>
      exact ⟨hh.trans hat.1, fun hpos => absurd (hat.1.mpr hpos) ht⟩
    | exchange | futexWait | asleep =>
      exact ⟨hh.trans hat.1, fun hrec => hat.2.1 (hr ▸ hrec), fun hpos => absurd (hat.1.mpr hpos) ht⟩
    | futexWake => exact ⟨ht', hat.2⟩
    | _ => exact absurd hat.1 ht

/-- What a step of `t` leaves as it is: the part of the others in the ghost state, and the owner and
the count unless `t` has the mutex. -/
structure Frame (t : τ) (g g' : Ghost τ) (s s' : LklMutex τ) : Prop where
  holder : ∀ u, u ≠ t → (g'.holder = some u ↔ g.holder = some u)
  wakers : ∀ u, u ≠ t → (u ∈ g'.wakers ↔ u ∈ g.wakers)
  recursive : s'.isRecursive = s.isRecursive
  shared : g.holder = some t ∨ s'.owner = s.owner ∧ s'.recursionCount = s.recursionCount

omit [DecidableEq τ] in
theorem Frame.same (g : Ghost τ) (hr : s'.isRecursive = s.isRecursive)
    (hs : g.holder = some t ∨ s'.owner = s.owner ∧ s'.recursionCount = s.recursionCount) : Frame t g g s s' :=
  ⟨fun _ _ => Iff.rfl, fun _ _ => Iff.rfl, hr, hs⟩

section Sound

variable {g : Ghost τ} (hs : Sound g s)

include hs

omit [DecidableEq τ]

theorem Sound.take (h : s.flag.word = unlocked) {w : CInt} (hw : w = lockedNoWaiters ∨ w = lockedWaiters) :
    Sound ⟨some t, g.wakers⟩ { s with flag := s.flag.set w } ∧
      Frame t g ⟨some t, g.wakers⟩ s { s with flag := s.flag.set w } ∧ s.recursionCount = 0 := by
  have hfree := hs.free.mp h
  have hne : w ≠ unlocked := by rcases hw with rfl | rfl <;> decide
  refine ⟨⟨.inr hw, by simpa using hne, hs.count, by simp, hs.plain, fun u hu => ?_, ?_⟩, ⟨?_, ?_, rfl,
    .inr ⟨rfl, rfl⟩⟩, hs.countFree hfree⟩
  · exact absurd (hs.owner u hu) (by simp [hfree])
  · exact hs.covered.set id fun hv => absurd (h.symm.trans hv) (by decide)
  · intro u hu
    simp [hfree, Ne.symm hu]
  · exact fun _ _ => Iff.rfl

theorem Sound.release (hh : g.holder = some t) (hc : s.recursionCount = 0) (ho : s.owner = none)
    (hcov : s.flag.word = lockedWaiters → g.wakers.Nonempty) :
    Sound ⟨none, g.wakers⟩ { s with flag := s.flag.set unlocked } ∧
      Frame t g ⟨none, g.wakers⟩ s { s with flag := s.flag.set unlocked } := by
  refine ⟨⟨.inl rfl, by simp, hs.count, fun _ => hc, hs.plain, by simp [ho], ?_⟩, ⟨?_, ?_, rfl, .inl hh⟩⟩
  · exact hs.covered.set id fun hv => .inr (hcov hv)
  · intro u hu
    simp [hh, Ne.symm hu]
  · exact fun _ _ => Iff.rfl

end Sound

variable {g : Ghost τ}

theorem Step.sound (h : Step t l s a l' s') (hs : Sound g s)
    (hw : t ∈ g.wakers ↔ l.pc.Waking) (hat : At g.holder s t l.depth l.pc) (hd : a = .locked t → l.depth < 2 ^ 30) :
    ∃ g', Sound g' s' ∧ (t ∈ g'.wakers ↔ l'.pc.Waking) ∧ At g'.holder s' t l'.depth l'.pc ∧ Frame t g g' s s' := by
  cases h with
  | lock | fail => exact ⟨g, hs, hw, hat, .same g rfl (.inr ⟨rfl, rfl⟩)⟩
  | recursive hr ho =>
    have hh := hs.owner t ho
    refine ⟨g, hs, hw, ?_, .same g rfl (.inr ⟨rfl, rfl⟩)⟩
    exact ⟨hh, hr, ho, (hat.2 (hat.1.mp hh)).1⟩
  | @contend d _ state h =>
    refine ⟨g, hs, ?_, ?_, .same g rfl (.inr ⟨rfl, rfl⟩)⟩
    · unfold Pc.contend
      split_ifs <;> exact hw
    · have hplain : s.isRecursive = true → d = 0 := fun hr =>
        Nat.eq_zero_of_not_pos fun hpos => h ⟨hr, (hat.2 hpos).2 hr⟩
      unfold Pc.contend
      split_ifs <;> exact ⟨hat.1, hplain, fun hpos => (hat.2 hpos).1⟩
  | countUp => exact ⟨g, hs, hw, ⟨hat.1, hat.2.1, hat.2.2.1, hat.2.2.2, rfl⟩, .same g rfl (.inr ⟨rfl, rfl⟩)⟩
  | @countedUp d _ n =>
    obtain ⟨hh, hr, ho, hcount, rfl⟩ := hat
    have hlt := hd rfl
    have hsucc : (s.recursionCount + 1).toNat = s.recursionCount.toNat + 1 := by
      have := hs.count
      bv_omega
    refine ⟨g, ⟨hs.flag, hs.free, ?_, ?_, ?_, hs.owner, hs.covered⟩, hw, ?_, .same g rfl (.inl hh)⟩
    · change BitVec.toNat (s.recursionCount + 1) < _
      simp at hcount hlt
      omega
    · simp [hh]
    · simp [hr]
    · refine ⟨by simp [hh], fun _ => ⟨?_, fun _ => ho⟩⟩
      change d + 1 = BitVec.toNat (s.recursionCount + 1) + 1
      simp at hcount
      omega
  | @acquire d _ h =>
    obtain ⟨hs', hframe, hc⟩ := hs.take (t := t) h (.inl rfl)
    refine ⟨_, hs', hw, ⟨rfl, ?_, hc⟩, hframe⟩
    have := (not_congr hat.1).mp (by simp [hs.free.mp h])
    exact Nat.eq_zero_of_not_pos this
  | @take d _ h =>
    obtain ⟨hs', hframe, hc⟩ := hs.take (t := t) h (.inr rfl)
    refine ⟨_, hs', hw, ⟨rfl, ?_, hc⟩, hframe⟩
    have := (not_congr hat.1).mp (by simp [hs.free.mp h])
    exact Nat.eq_zero_of_not_pos this
  | @wait d _ h =>
    refine ⟨g, ⟨.inr (.inr rfl), ?_, hs.count, hs.countFree, hs.plain, hs.owner, fun _ => .inl rfl⟩,
      hw, hat, .same g rfl (.inr ⟨rfl, rfl⟩)⟩
    simpa [lockedWaiters, unlocked] using (not_congr hs.free).mp h
  | sleep h =>
    exact ⟨g, ⟨hs.flag, hs.free, hs.count, hs.countFree, hs.plain, hs.owner, Futex.covered_enter h⟩,
      hw, hat, .same g rfl (.inr ⟨rfl, rfl⟩)⟩
  | again h => exact ⟨g, hs, hw, hat, .same g rfl (.inr ⟨rfl, rfl⟩)⟩
  | wakeUp =>
    exact ⟨g, ⟨hs.flag, hs.free, hs.count, hs.countFree, hs.plain, hs.owner, hs.covered.leave⟩,
      hw, hat, .same g rfl (.inr ⟨rfl, rfl⟩)⟩
  | @setOwner d =>
    obtain ⟨hh, rfl, hc⟩ := hat
    refine ⟨g, ⟨hs.flag, hs.free, hs.count, hs.countFree, fun hr => ?_, fun u hu => ?_, hs.covered⟩,
      hw, ⟨by simp [hh], fun _ => ⟨?_, fun hr => ?_⟩⟩, .same g rfl (.inl hh)⟩
    · simpa [show s.isRecursive = false from hr] using hs.plain hr
    · cases hr : s.isRecursive with
      | true =>
        obtain rfl : t = u := by simpa [hr] using hu
        exact hh
      | false => exact hs.owner u (by simpa [hr] using hu)
    · change 0 + 1 = BitVec.toNat s.recursionCount + 1
      rw [hc]
      rfl
    · simp [show s.isRecursive = true from hr]
  | @unlock d =>
    obtain ⟨hcount, ho⟩ := hat.2 (Nat.succ_pos d)
    have hh := hat.1.mpr (Nat.succ_pos d)
    refine ⟨g, hs, ?_, ?_, .same g rfl (.inr ⟨rfl, rfl⟩)⟩
    · cases s.isRecursive <;> exact hw
    · cases hr : s.isRecursive with
      | true => exact ⟨hh, hr, ho hr, Nat.succ.inj hcount⟩
      | false =>
        obtain ⟨hc, hown⟩ := hs.plain hr
        refine ⟨hh, ?_, hc, hown⟩
        rw [hc] at hcount
        exact Nat.succ.inj hcount
  | @countDown d _ h =>
    obtain ⟨hh, hr, ho, hcount⟩ := hat
    refine ⟨g, hs, hw, ⟨hh, hr, ho, hcount, rfl, ?_⟩, .same g rfl (.inr ⟨rfl, rfl⟩)⟩
    rw [hcount]
    have := hs.count
    rw [toInt_eq_toNat_of_lt (by omega)] at h
    omega
  | @countedDown d _ n =>
    obtain ⟨hh, hr, ho, hcount, rfl, hpos⟩ := hat
    have hpred : (s.recursionCount - 1).toNat = s.recursionCount.toNat - 1 := by
      have := hs.count
      have : 0 < s.recursionCount.toNat := hcount ▸ hpos
      bv_omega
    have hcount' : d = BitVec.toNat (s.recursionCount - 1) + 1 := by
      rw [hpred]
      simp only at hcount hpos
      omega
    refine ⟨g, ⟨hs.flag, hs.free, ?_, by simp [hh], by simp [hr], hs.owner, hs.covered⟩, hw,
      ⟨by simpa [hh] using hpos, fun _ => ⟨hcount', fun _ => ho⟩⟩, .same g rfl (.inl hh)⟩
    have := hs.count
    change BitVec.toNat (s.recursionCount - 1) < _
    omega
  | @last d _ h =>
    obtain ⟨hh, hr, ho, hcount⟩ := hat
    have hc : s.recursionCount.toNat = 0 := by
      have := hs.count
      rw [toInt_eq_toNat_of_lt (by omega)] at h
      omega
    exact ⟨g, hs, hw, ⟨hh, hr, hcount.trans hc, eq_of_toNat_eq hc⟩, .same g rfl (.inr ⟨rfl, rfl⟩)⟩
  | clearOwner =>
    obtain ⟨hh, hr, hd0, hc⟩ := hat
    exact ⟨g, ⟨hs.flag, hs.free, hs.count, hs.countFree, fun h => ⟨hc, rfl⟩, by simp, hs.covered⟩, hw,
      ⟨hh, hd0, hc, rfl⟩, .same g rfl (.inl hh)⟩
  | @fetchSub d _ h =>
    obtain ⟨hh, rfl, hc, ho⟩ := hat
    obtain ⟨hs', hframe⟩ := hs.release hh hc ho fun hv => absurd (h.symm.trans hv) (by decide)
    rw [show s.flag.word - 1 = unlocked by rw [h]; rfl]
    exact ⟨_, hs', hw, ⟨by simp, fun hpos => absurd hpos (lt_irrefl 0)⟩, hframe⟩
  | @fetchSubWaiters d _ h =>
    obtain ⟨hh, rfl, hc, ho⟩ := hat
    have hword : s.flag.word = lockedWaiters :=
      (hs.flag.resolve_left fun hv => by simp [hs.free.mp hv] at hh).resolve_left h
    rw [show s.flag.word - 1 = lockedNoWaiters by rw [hword]; rfl]
    refine ⟨⟨g.holder, insert t g.wakers⟩, ⟨.inr (.inl rfl), ?_, hs.count, hs.countFree, hs.plain,
      hs.owner, fun _ => .inr ⟨t, .inl rfl⟩⟩, by simp [Pc.Waking], ⟨hh, rfl, hc, ho⟩,
      ⟨fun _ _ => Iff.rfl, fun u hu => by simp [hu], rfl, .inl hh⟩⟩
    simp [hh, lockedNoWaiters, unlocked]
  | @store d =>
    obtain ⟨hh, rfl, hc, ho⟩ := hat
    obtain ⟨hs', hframe⟩ := hs.release hh hc ho fun _ => ⟨t, hw.mpr trivial⟩
    exact ⟨_, hs', hw, ⟨by simp, rfl⟩, hframe⟩
  | @futexWake d =>
    obtain ⟨hh, rfl⟩ := hat
    refine ⟨⟨g.holder, g.wakers \ {t}⟩, ⟨hs.flag, hs.free, hs.count, hs.countFree, hs.plain, hs.owner,
      Futex.covered_wake⟩, by simp [Pc.Waking], ⟨by simpa using hh, fun hpos => absurd hpos (lt_irrefl 0)⟩,
      ⟨fun _ _ => Iff.rfl, fun u hu => by simp [hu], rfl, .inr ⟨rfl, rfl⟩⟩⟩

/-! ## Runs -/

/-- `mutex_alloc`: the mutex is zero apart from its kind, and all threads are outside. -/
def mutexAlloc (recursive : Bool) : Config τ Thread (LklMutex τ) :=
  ⟨fun _ => ⟨.idle, 0⟩, ⟨⟨unlocked, ∅⟩, none, recursive, 0⟩⟩

/-- Between the access that takes the mutex and the return of `mutex_lock`, or between the call of
`mutex_unlock` and the access that makes the mutex free. -/
def Pc.Inside : Pc → Prop
  | .setOwner | .countDown | .countedDown _ | .clearOwner | .fetchSub | .store => True
  | _ => False

def Holds (ls : List (Event τ)) (t : τ) (l : Thread) : Prop := unlocks t ls < locks t ls ∨ l.pc.Inside

theorem Locked.holder (h : Locked ls g t l s) (hh : Holds ls t l) : g.holder = some t := by
  obtain ⟨pc, d⟩ := l
  obtain ⟨hd, -, hat⟩ := h
  simp only at hd hat
  have hpos : 0 < d ∨ pc.Inside := hh.imp_left fun hlt => by omega
  cases pc with
  | idle | compareExchange | failed | exchange | futexWait | asleep =>
    exact hat.1.mpr (hpos.resolve_right id)
  | futexWake => exact absurd (hpos.resolve_right id) (by simp [hat.2])
  | _ => exact hat.1

/-- Nobody holds the mutex more than `2 ^ 30` times at once. -/
def Shallow (ls : List (Event τ)) : Prop := ∀ t, locks t ls ≤ unlocks t ls + 2 ^ 30

theorem Step.depth (h : Step t l s a l' s') (hd : l.depth + unlocks t ls = locks t ls) :
    l'.depth + unlocks t (ls ++ [a]) = locks t (ls ++ [a]) := by
  simp only [locks, unlocks, List.count_append] at hd ⊢
  cases h with
  | countedUp | setOwner | unlock =>
    simp at hd ⊢
    omega
  | _ => simpa using hd

theorem Step.counts_of_ne (h : Step t l s a l' s') (ls : List (Event τ)) (hu : u ≠ t) :
    locks u (ls ++ [a]) = locks u ls ∧ unlocks u (ls ++ [a]) = unlocks u ls := by
  cases h <;> simp [locks, unlocks, List.count_append, Ne.symm hu]

theorem exists_locked (recursive : Bool) {c : Config τ Thread (LklMutex τ)}
    (hrun : Run (Interleave Step) (mutexAlloc recursive) ls c) (hok : ∀ p, p <+: ls → Shallow p) :
    ∃ g, (Sound g c.shared ∧ c.shared.isRecursive = recursive) ∧ ∀ t, Locked ls g t (c.loc t) c.shared := by
  refine Interleave.run_inv (G := fun _ g s => Sound g s ∧ s.isRecursive = recursive) (P := Locked) ?_
    hrun hok (k := ⟨none, ∅⟩) ?_ ?_
  · rintro ls g t l s a l' s' hok ⟨hs, hr⟩ hl hstep
    have hdepth := hstep.depth hl.depth
    have hshallow : a = .locked t → l.depth < 2 ^ 30 := by
      rintro rfl
      have hlocks : locks t (ls ++ [.locked t]) = locks t ls + 1 := by simp [locks]
      have hunlocks : unlocks t (ls ++ [.locked t]) = unlocks t ls := by simp [unlocks]
      have := hok t
      have := hl.depth
      omega
    obtain ⟨g', hs', hw, hat, hframe⟩ := hstep.sound hs hl.waker hl.place hshallow
    refine ⟨g', ⟨hs', hframe.recursive.trans hr⟩, ⟨hdepth, hw, hat⟩, fun u k hu hk => ?_⟩
    obtain ⟨hlocks, hunlocks⟩ := hstep.counts_of_ne ls hu
    refine ⟨by rw [hlocks, hunlocks, hk.depth], (hframe.wakers u hu).trans hk.waker,
      hk.place.congr (hframe.holder u hu) hframe.recursive fun hh => ?_⟩
    exact hframe.shared.resolve_left fun ht => hu (Option.some.inj (hh.symm.trans ht))
  · exact ⟨⟨.inl rfl, by simp [mutexAlloc], by simp [mutexAlloc], fun _ => rfl, fun _ => ⟨rfl, rfl⟩,
      by simp [mutexAlloc], by simp [Futex.Covered, mutexAlloc]⟩, rfl⟩
  · intro t
    exact ⟨rfl, by simp [mutexAlloc, Pc.Waking], by simp [mutexAlloc, At]⟩

theorem Step.depth_of_release (h : Step u l s (.release t) l' s')
    (hl : Locked ls g u l s) : unlocks t ls = locks t ls := by
  obtain ⟨hd, -, hat⟩ := hl
  cases h with
  | fetchSub | store =>
    obtain ⟨-, rfl, -⟩ := hat
    simpa using hd

/-- **The mutexes of the kernel are mutexes.** In every run in which nobody holds the mutex more than
`2 ^ 30` times at once: one thread at most holds it; a recursive mutex is released by the unlock that
makes up for the first lock, and belongs to the thread until then; and if somebody sleeps on the flag
of a free mutex, somebody else is about to wake all sleepers. -/
theorem mutex_correct (recursive : Bool) {c : Config τ Thread (LklMutex τ)}
    (hrun : Run (Interleave Step) (mutexAlloc recursive) ls c) (hok : ∀ p, p <+: ls → Shallow p) :
    (∀ t u, Holds ls t (c.loc t) → Holds ls u (c.loc u) → t = u) ∧ (recursive = true → ∀ t, ((c.loc t).pc = .idle →
          (unlocks t ls < locks t ls ↔ c.shared.flag.word ≠ unlocked ∧ c.shared.owner = some t)) ∧
        ∀ p, p ++ [.release t] <+: ls → unlocks t p = locks t p) ∧
      ∀ t ∈ c.shared.flag.sleepers, c.shared.flag.word = unlocked → ∃ u, (c.loc u).pc = .futexWake := by
  obtain ⟨g, ⟨hs, hrec⟩, hl⟩ := exists_locked recursive hrun hok
  refine ⟨fun t u ht hu => ?_, fun hr t => ⟨fun hidle => ?_, fun p hp => ?_⟩, fun t ht hfree => ?_⟩
  · exact Option.some.inj (((hl t).holder ht).symm.trans ((hl u).holder hu))
  · have hdepth := (hl t).depth
    have hat := (hl t).place
    rw [hidle] at hat
    refine ⟨fun hlt => ?_, fun ⟨_, ho⟩ => ?_⟩
    · have hpos : 0 < (c.loc t).depth := by omega
      refine ⟨fun hfree => ?_, (hat.2 hpos).2 (hrec.trans hr)⟩
      have hh := hat.1.mpr hpos
      rw [hs.free.mp hfree] at hh
      cases hh
    · have hpos := hat.1.mp (hs.owner t ho)
      omega
  · obtain ⟨rest, rfl⟩ := hp
    rw [List.append_assoc] at hrun hok
    obtain ⟨c₁, hrun₁, hrest⟩ := hrun.split
    obtain ⟨g₁, -, hl₁⟩ := exists_locked recursive hrun₁ fun q hq =>
      hok q (hq.trans (List.prefix_append ..))
    cases hrest with
    | cons hstep _ =>
      cases hstep with
      | of u hstep => exact hstep.depth_of_release (hl₁ u)
  · obtain ⟨u, hu⟩ := (hs.covered ⟨t, ht⟩).resolve_left (by rw [hfree]; decide)
    refine ⟨u, ?_⟩
    have hwaking := (hl u).waker.mp hu
    have hat := (hl u).place
    cases hpc : (c.loc u).pc with
    | futexWake => rfl
    | store =>
      rw [hpc, hs.free.mp hfree] at hat
      cases hat.1
    | _ =>
      rw [hpc] at hwaking
      exact hwaking.elim

/-- Thread `0` unlocks a mutex while thread `1` sleeps. -/
theorem mutex_correct_contended : ∃ ls, ∃ c : Config (Fin 2) Thread (LklMutex (Fin 2)),
    Run (Interleave Step) (mutexAlloc false) ls c ∧ 1 ∈ c.shared.flag.sleepers ∧
      c.shared.flag.word = unlocked ∧ ∃ u, (c.loc u).pc = .futexWake := by
  have hrun : Run (Interleave Step) (mutexAlloc (τ := Fin 2) false)
      [.tau, .tau, .locked 0, .tau, .tau, .tau, .tau, .tau, .unlock 0, .tau, .release 0] _ :=
    .cons (.of 0 .lock) (.cons (.of 0 (.acquire rfl)) (.cons (.of 0 .setOwner)
      (.cons (.of 1 .lock) (.cons (.of 1 .fail) (.cons (.of 1 (.contend (by decide)))
      (.cons (.of 1 (.wait (by decide))) (.cons (.of 1 (.sleep rfl))
      (.cons (.of 0 .unlock) (.cons (.of 0 (.fetchSubWaiters (by decide)))
      (.cons (.of 0 .store) (.nil _)))))))))))
  have hok : ∀ p, p <+: [.tau, .tau, .locked 0, .tau, .tau, .tau, .tau, .tau, .unlock 0, .tau,
      .release 0] → Shallow (τ := Fin 2) p := by
    intro p hp t
    have := hp.length_le
    have : locks t p ≤ p.length := List.count_le_length
    simp at *
    omega
  exact ⟨_, _, hrun, by decide, rfl, (mutex_correct false hrun hok).2.2 1 (by decide) rfl⟩

/-- The states in which the only thread has locked a recursive mutex `n + 1` times. -/
def nested (n : ℕ) : Config Unit Thread (LklMutex Unit) :=
  ⟨fun _ => ⟨.idle, n + 1⟩, ⟨⟨lockedNoWaiters, ∅⟩, some (), true, BitVec.ofNat 31 n⟩⟩

theorem run_nested_succ (n : ℕ) :
    Run (Interleave Step) (nested n) [.tau, .tau, .tau, .tau, .locked ()] (nested (n + 1)) := by
  rw [nested, nested, ofNat_add]
  exact .cons (.solo .lock) (.cons (.solo .fail) (.cons (.solo (.recursive rfl rfl))
    (.cons (.solo .countUp) (.cons (.solo .countedUp) (.nil _)))))

theorem run_nested (n : ℕ) : ∃ ls, Run (Interleave Step) (mutexAlloc true) ls (nested n) ∧
    locks () ls = n + 1 ∧ unlocks () ls = 0 := by
  induction n with
  | zero =>
    refine ⟨[.tau, .tau, .locked ()], ?_, rfl, rfl⟩
    exact .cons (.solo .lock) (.cons (.solo (.acquire rfl)) (.cons (.solo .setOwner) (.nil _)))
  | succ n ih =>
    obtain ⟨ls, hrun, hlocks, hunlocks⟩ := ih
    refine ⟨_, hrun.append (run_nested_succ n), ?_, ?_⟩
    · simp [locks] at hlocks ⊢
      omega
    · simpa [unlocks] using hunlocks

/-- **The count overflows**: after `2 ^ 30 + 1` locks one unlock makes the mutex free. -/
theorem recursion_overflow : ∃ ls c, Run (Interleave Step) (mutexAlloc (τ := Unit) true) ls c ∧
    locks () ls = 2 ^ 30 + 1 ∧ unlocks () ls = 1 ∧ (c.loc ()).pc = .idle ∧
    c.shared.flag.word = unlocked ∧ c.shared.owner = none := by
  obtain ⟨ls, hrun, hlocks, hunlocks⟩ := run_nested (2 ^ 30)
  have hneg : ¬ 0 < (BitVec.ofNat 31 (2 ^ 30)).toInt := by decide
  have hunlock : Run (Interleave Step) (nested (2 ^ 30)) [.unlock (), .tau, .tau, .release ()] _ :=
    .cons (.solo .unlock) (.cons (.solo (.last hneg)) (.cons (.solo .clearOwner)
      (.cons (.solo (.fetchSub rfl)) (.nil _))))
  refine ⟨_, _, hrun.append hunlock, ?_, ?_, rfl, rfl, rfl⟩
  · simpa [locks] using hlocks
  · simpa [unlocks] using hunlocks

end LklMutex

end SgxLkl
