import SgxLkl.Lib.Bits
import SgxLkl.Lib.Futex
import SgxLkl.Lib.Interleave

/-!
# The semaphores of the kernel

`sem_up` and `sem_down` of `posix-host.c` as atomic accesses to the count, made by any number of
threads in any order, with the same futex as the mutexes.

* `LklSem.Step`: the next access of a thread; `ups`, `downs`: what a run has done to the count.
* `LklSem.Sound`: the count is what the ups have added and the downs have taken.
* **`LklSem.sem_correct`**: no more downs than ups, a count that is never negative, and nobody who
  sleeps in vain, although only the `sem_up` that finds the count `0` wakes.
-/

namespace SgxLkl

variable {τ : Type*}

/-! ## The code -/

/-- `struct lkl_sem`, with the threads that sleep on the count. -/
structure LklSem (τ : Type*) where
  count : Futex CInt τ

namespace LklSem

inductive Pc
  | idle
  /-- At the fetch-and-add of `sem_up`. -/
  | fetchAdd
  | futexWake
  /-- At one of the loads of `sem_down`. -/
  | load
  | compareExchange (count : CInt)
  | futexWait
  /-- In `enclave_futex_wait`, asleep or woken. -/
  | asleep

inductive Event (τ : Type*)
  | tau
  | up (t : τ)
  | down (t : τ)

/-- The loop of `sem_down` with this `count`. -/
def Pc.test (count : CInt) : Pc := if count = 0 then .futexWait else .compareExchange count

inductive Step [DecidableEq τ] (t : τ) : Pc → LklSem τ → Event τ → Pc → LklSem τ → Prop
  | semUp {s : LklSem τ} : Step t .idle s .tau .fetchAdd s
  | fetchAdd {s : LklSem τ} (h : s.count.word ≠ 0) :
      Step t .fetchAdd s (.up t) .idle ⟨s.count.set (s.count.word + 1)⟩
  | fetchAddZero {s : LklSem τ} (h : s.count.word = 0) :
      Step t .fetchAdd s (.up t) .futexWake ⟨s.count.set (s.count.word + 1)⟩
  | futexWake {s : LklSem τ} : Step t .futexWake s .tau .idle ⟨s.count.wake⟩
  | semDown {s : LklSem τ} : Step t .idle s .tau .load s
  | load {s : LklSem τ} : Step t .load s .tau (.test s.count.word) s
  | decrement {s : LklSem τ} {n : CInt} (h : s.count.word = n) :
      Step t (.compareExchange n) s (.down t) .idle ⟨s.count.set (n - 1)⟩
  -- also when the count is `n`: the weak compare-exchange may fail for no reason
  | fail {s : LklSem τ} {n : CInt} : Step t (.compareExchange n) s .tau (.test s.count.word) s
  | sleep {s : LklSem τ} (h : s.count.word = 0) : Step t .futexWait s .tau .asleep ⟨s.count.enter t⟩
  | again {s : LklSem τ} (h : s.count.word ≠ 0) : Step t .futexWait s .tau .load s
  | wakeUp {s : LklSem τ} : Step t .asleep s .tau .load ⟨s.count.leave t⟩

def semAlloc (count : CInt) : Config τ Pc (LklSem τ) := ⟨fun _ => .idle, ⟨⟨count, ∅⟩⟩⟩

def ups (ls : List (Event τ)) : ℕ :=
  ls.countP fun | .up _ => true | _ => false

def downs (ls : List (Event τ)) : ℕ :=
  ls.countP fun | .down _ => true | _ => false

section Counts

variable (ls : List (Event τ)) (t : τ)

@[simp] theorem ups_tau : ups (ls ++ [.tau]) = ups ls := by simp [ups]

@[simp] theorem ups_up : ups (ls ++ [.up t]) = ups ls + 1 := by simp [ups]

@[simp] theorem ups_down : ups (ls ++ [.down t]) = ups ls := by simp [ups]

@[simp] theorem downs_tau : downs (ls ++ [.tau]) = downs ls := by simp [downs]

@[simp] theorem downs_up : downs (ls ++ [.up t]) = downs ls := by simp [downs]

@[simp] theorem downs_down : downs (ls ++ [.down t]) = downs ls + 1 := by simp [downs]

end Counts

/-! ## The invariant -/

variable [DecidableEq τ] {s s' : LklSem τ} {t u : τ} {pc pc' : Pc} {a : Event τ}
  {ls : List (Event τ)} {c : ℕ}

/-- There are fewer than `2 ^ 31` ups that no down has taken, the first `c` included. -/
def Bounded (c : ℕ) (ls : List (Event τ)) : Prop := c + ups ls < 2 ^ 31 + downs ls

/-- What holds of the semaphore when `wakers` are going to wake the sleepers. -/
structure Sound (c : ℕ) (ls : List (Event τ)) (wakers : Set τ) (s : LklSem τ) : Prop where
  count : s.count.word.toNat + downs ls = c + ups ls
  lt : s.count.word.toNat < 2 ^ 31
  covered : s.count.Covered 0 wakers.Nonempty

/-- What holds of thread `t`. -/
structure At (wakers : Set τ) (t : τ) (pc : Pc) : Prop where
  waker : t ∈ wakers ↔ pc = .futexWake
  positive : ∀ n, pc = .compareExchange n → n ≠ 0

omit [DecidableEq τ] in
theorem At.test {wakers : Set τ} (h : t ∉ wakers) (n : CInt) : At wakers t (.test n) := by
  unfold Pc.test
  split_ifs with hn
  · exact ⟨by simp [h], by simp⟩
  · refine ⟨by simp [h], fun m hm => ?_⟩
    cases hm
    exact hn

section Sound

variable {wakers : Set τ} (hs : Sound c ls wakers s)

include hs

omit [DecidableEq τ]

theorem Sound.tau : Sound c (ls ++ [.tau]) wakers s :=
  ⟨by simpa using hs.count, hs.lt, hs.covered⟩

theorem Sound.up (hok : Bounded c (ls ++ [.up t])) {wakers' : Set τ} (hw : wakers ⊆ wakers')
    (hz : s.count.word = 0 → wakers'.Nonempty) :
    Sound c (ls ++ [.up t]) wakers' ⟨s.count.set (s.count.word + 1)⟩ := by
  have hcount := hs.count
  have hlt := hs.lt
  simp only [Bounded, ups_up, downs_up] at hok
  have hword : (s.count.word + 1).toNat = s.count.word.toNat + 1 := by bv_omega
  refine ⟨?_, ?_, hs.covered.set (·.mono hw) fun hv => .inr (hz hv)⟩
  · rw [Futex.word_set, hword, ups_up, downs_up]
    omega
  · rw [Futex.word_set, hword]
    omega

theorem Sound.down (hne : s.count.word ≠ 0) :
    Sound c (ls ++ [.down t]) wakers ⟨s.count.set (s.count.word - 1)⟩ := by
  have hcount := hs.count
  have hlt := hs.lt
  have hword : (s.count.word - 1).toNat = s.count.word.toNat - 1 := by bv_omega
  have hpos : 0 < s.count.word.toNat := by bv_omega
  refine ⟨?_, ?_, hs.covered.set id fun hv => absurd hv hne⟩
  · rw [Futex.word_set, hword, ups_down, downs_down]
    omega
  · rw [Futex.word_set, hword]
    omega

end Sound

theorem Step.sound {wakers : Set τ} (h : Step t pc s a pc' s') (hok : Bounded c (ls ++ [a]))
    (hs : Sound c ls wakers s) (hat : At wakers t pc) :
    ∃ wakers', Sound c (ls ++ [a]) wakers' s' ∧ At wakers' t pc' ∧ ∀ u, u ≠ t → (u ∈ wakers' ↔ u ∈ wakers) := by
  have hquiet : pc ≠ .futexWake → t ∉ wakers := fun hpc => mt hat.waker.mp hpc
  have hat' : ∀ q, pc ≠ .futexWake → q ≠ .futexWake → (∀ n, q ≠ .compareExchange n) →
      At wakers t q := fun q hpc hq hn => ⟨by simp [hquiet hpc, hq], fun n h => absurd h (hn n)⟩
  cases h with
  | semUp | semDown | again =>
    exact ⟨wakers, hs.tau, hat' _ (by simp) (by simp) (by simp), fun _ _ => Iff.rfl⟩
  | fetchAdd h =>
    exact ⟨wakers, hs.up hok subset_rfl fun hz => absurd hz h,
      hat' _ (by simp) (by simp) (by simp), fun _ _ => Iff.rfl⟩
  | fetchAddZero h =>
    exact ⟨insert t wakers, hs.up hok (Set.subset_insert ..) fun _ => ⟨t, .inl rfl⟩,
      ⟨by simp, by simp⟩, fun u hu => by simp [hu]⟩
  | futexWake =>
    exact ⟨wakers \ {t}, ⟨by simpa using hs.count, hs.lt, Futex.covered_wake⟩,
      ⟨by simp, by simp⟩, fun u hu => by simp [hu]⟩
  | load | fail => exact ⟨wakers, hs.tau, .test (hquiet (by simp)) _, fun _ _ => Iff.rfl⟩
  | @decrement _ n h =>
    subst h
    exact ⟨wakers, hs.down (hat.positive _ rfl), hat' _ (by simp) (by simp) (by simp), fun _ _ => Iff.rfl⟩
  | sleep h =>
    exact ⟨wakers, ⟨by simpa using hs.count, hs.lt, Futex.covered_enter h⟩,
      hat' _ (by simp) (by simp) (by simp), fun _ _ => Iff.rfl⟩
  | wakeUp =>
    exact ⟨wakers, ⟨by simpa using hs.count, hs.lt, hs.covered.leave⟩,
      hat' _ (by simp) (by simp) (by simp), fun _ _ => Iff.rfl⟩

/-- **The semaphores of the kernel are semaphores.** In every run with fewer than `2 ^ 31` ups outstanding: not more
calls of `sem_down` have returned than the count at first and the increments allow, the count is not negative, and if
somebody sleeps while it is positive, somebody else is about to wake all sleepers. -/
theorem sem_correct (c : ℕ) {m : Config τ Pc (LklSem τ)}
    (hrun : Run (Interleave Step) (semAlloc (BitVec.ofNat 32 c)) ls m) (hok : ∀ p, p <+: ls → Bounded c p) :
    downs ls ≤ c + ups ls ∧ 0 ≤ m.shared.count.word.toInt ∧
      ∀ t ∈ m.shared.count.sleepers, 0 < m.shared.count.word.toInt → ∃ u, m.loc u = .futexWake := by
  have hc : c < 2 ^ 31 := by simpa [Bounded, ups, downs] using hok [] (List.nil_prefix ..)
  obtain ⟨wakers, hs, hat⟩ := Interleave.run_inv (G := Sound c) (P := fun _ g t pc _ => At g t pc)
    (fun ls g t pc s a pc' s' hok hs hat hstep => by
      obtain ⟨wakers', hs', hat', hframe⟩ := hstep.sound hok hs hat
      exact ⟨wakers', hs', hat', fun u k hu hk => ⟨(hframe u hu).trans hk.waker, hk.positive⟩⟩)
    hrun hok (k := ∅)
    ⟨by simp [semAlloc, ups, downs]; omega, by simp [semAlloc]; omega,
      by simp [semAlloc, Futex.Covered]⟩
    fun t => ⟨by simp [semAlloc], by simp [semAlloc]⟩
  have hint : m.shared.count.word.toInt = m.shared.count.word.toNat :=
    BitVec.toInt_eq_toNat_of_lt (by have := hs.lt; omega)
  refine ⟨by have := hs.count; omega, by omega, fun t ht hpos => ?_⟩
  have hne : m.shared.count.word ≠ 0 := by
    rintro hz
    rw [hz] at hpos
    exact absurd hpos (by decide)
  obtain ⟨u, hu⟩ := (hs.covered ⟨t, ht⟩).resolve_left hne
  exact ⟨u, (hat u).waker.mp hu⟩

/-- Thread `0` sleeps on the count, and thread `1` has incremented it. -/
theorem sem_correct_sleeper : ∃ ls, ∃ m : Config (Fin 2) Pc (LklSem (Fin 2)),
    Run (Interleave Step) (semAlloc 0) ls m ∧ 0 ∈ m.shared.count.sleepers ∧
      0 < m.shared.count.word.toInt ∧ ∃ u, m.loc u = .futexWake := by
  have hrun : Run (Interleave Step) (semAlloc (τ := Fin 2) (BitVec.ofNat 32 0))
      [.tau, .tau, .tau, .tau, .up 1] _ :=
    .cons (.of 0 .semDown) (.cons (.of 0 .load) (.cons (.of 0 (.sleep rfl))
      (.cons (.of 1 .semUp) (.cons (.of 1 (.fetchAddZero rfl)) (.nil _)))))
  have hok : ∀ p, p <+: [.tau, .tau, .tau, .tau, .up 1] → Bounded (τ := Fin 2) 0 p := by
    intro p hp
    have hlen := hp.length_le
    have hups : ups p ≤ p.length := List.countP_le_length
    simp only [Bounded, List.length_cons, List.length_nil] at hlen ⊢
    omega
  exact ⟨_, _, hrun, by decide, by decide, (sem_correct 0 hrun hok).2.2 0 (by decide) (by decide)⟩

end LklSem

end SgxLkl
