import SgxLkl.Sched.Invariant

/-!
# No futex wakeup is lost

An lthread that reads the value it expects holds the futex lock until its scheduler has saved its
context. A wake that is called later waits for the lock, so it finds the lthread in the queue unless
somebody has taken it out before.

* **`Machine.no_lost_wakeup`**: when a wake returns, the lthread has been put on the run queue once.
* **`Machine.resume_restores`**: an lthread runs again with the registers it had.
* **`Machine.run_futexWakeLoop`**: a wake that nobody interrupts is `futexWake`.
-/

namespace SgxLkl

open List

variable {τ ι : Type*} [DecidableEq τ] {t u : τ} {l : Label τ}

/-! ## A sleep in the life of an lthread -/

def movesOf (t : τ) (ls : List (Label τ)) : List (Label τ) := ls.filter (·.moves = some t)

variable {x y : Life ι}

/-- `t` has decided to sleep and is not on the run queue again. -/
def Spot.Sleepy : Spot ι → Prop
  | .cpu _ .committed | .cpu _ .queued | .asleep | .cpu _ .held => True
  | .absent | .ready | .cpu _ .loading | .cpu _ .running | .cpu _ .born => False

section

omit [DecidableEq τ]

/-- The next move of an lthread that is not running. -/
theorem Life.Step.of_spot {x y : Life ι} (h : Life.Step t x l y) (hl : l.moves = some t) : match x.spot with
    | .absent => ∃ i r, l = .create t r ∧ y = ⟨.cpu i .born, r⟩
    | .cpu i .committed => l = .insert t ∧ y = ⟨.cpu i .queued, x.frame⟩
    | .cpu _ .queued => ∃ r, l = .saved t r ∧ y = ⟨.asleep, r⟩
    | .asleep => ∃ i, l = .pick t ∧ y = ⟨.cpu i .held, x.frame⟩
    | .cpu _ .held | .cpu _ .born => l = .enqueue t ∧ y = ⟨.ready, x.frame⟩
    | .ready => ∃ i, l = .dequeue t ∧ y = ⟨.cpu i .loading, x.frame⟩
    | .cpu i .loading => l = .resume t x.frame ∧ y = ⟨.cpu i .running, x.frame⟩
    | .cpu _ .running => True := by
  obtain ⟨s, f⟩ := x
  cases h with
  | other h => exact absurd hl h
  | create i r h =>
    cases h
    exact ⟨i, r, rfl, rfl⟩
  | enqueue h hρ =>
    cases h
    rcases hρ with rfl | rfl <;> exact ⟨rfl, rfl⟩
  | saved r h =>
    cases h
    exact ⟨r, rfl, rfl⟩
  | dequeue i h | pick i h =>
    cases h
    exact ⟨i, rfl, rfl⟩
  | resume h | insert h =>
    cases h
    exact ⟨rfl, rfl⟩
  | readEq _ _ h | free h =>
    cases h
    trivial

theorem Life.Step.of_readEq {uaddr : Word} {val : CInt} (h : Life.Step t x (.readEq t uaddr val) y) :
    ∃ i, x.spot = .cpu i .running ∧ y.spot = .cpu i .committed := by
  cases h with
  | other h => exact absurd rfl h
  | readEq _ _ h => exact ⟨_, h, rfl⟩

theorem Life.Step.sleepy (h : Life.Step t x l y) (hx : x.spot.Sleepy) : l = .enqueue t ∨ y.spot.Sleepy := by
  cases h with
  | other => exact .inr hx
  | enqueue => exact .inl rfl
  | insert | saved | pick => exact .inr trivial
  | create _ _ h | dequeue _ h | resume h | readEq _ _ h | free h =>
    rw [h] at hx
    exact hx.elim

theorem Life.Step.of_resume {f : CpuCtx} (h : Life.Step t x (.resume t f) y) :
    x.frame = f ∧ ∃ i, y.spot = .cpu i .running := by
  cases h with
  | other h => exact absurd rfl h
  | @resume i => exact ⟨rfl, i, rfl⟩

end

/-- The registers with which `t` has left its scheduler, after an event. -/
def Label.frame (t : τ) (f : CpuCtx) : Label τ → CpuCtx
  | .saved u r | .create u r => if u = t then r else f
  | _ => f

theorem Life.Step.frame_eq (h : Life.Step t x l y) : y.frame = l.frame t x.frame := by
  cases h with
  | other h => cases l <;> simp_all [Label.frame, Label.moves]
  | _ => simp [Label.frame]

/-- **The moves of an lthread that sleeps and is put on the run queue**: its context is saved before
it is picked, it is enqueued once before it runs again, and it then runs with the registers it was
saved with. -/
theorem movesOf_sleep {ls : List (Label τ)} {i : ι}
    (hrun : Run (Life.Step t) x ls y) (hx : x.spot = .cpu i .committed) (hmem : .enqueue t ∈ ls) :
    ∃ f later, movesOf t ls = .insert t :: .saved t f :: .pick t :: .enqueue t :: later ∧
      (later = [] ∧ y = ⟨.ready, f⟩ ∨ (∃ j, later = [.dequeue t] ∧ y = ⟨.cpu j .loading, f⟩) ∨
        ∃ later', later = .dequeue t :: .resume t f :: later') := by
  have hrun' : Run (Life.Step t) x (movesOf t ls) y := hrun.filter fun _ _ _ h hl => by
    cases h with
    | other => rfl
    | _ => exact absurd rfl hl
  have hmem' : Label.enqueue t ∈ movesOf t ls := mem_filter.mpr ⟨hmem, by simp [Label.moves]⟩
  have hall : ∀ l ∈ movesOf t ls, l.moves = some t := fun l hl => by
    simpa using (mem_filter.mp hl).2
  clear hrun hmem
  obtain ⟨s, f₀⟩ := x
  subst hx
  generalize movesOf t ls = ms at hrun' hmem' hall
  -- the moves up to the enqueueing are forced
  cases hrun' with
  | nil => simp at hmem'
  | cons h₁ hrun =>
  obtain ⟨rfl, rfl⟩ := h₁.of_spot (hall _ mem_cons_self)
  cases hrun with
  | nil => simp at hmem'
  | cons h₂ hrun =>
  obtain ⟨f, rfl, rfl⟩ := h₂.of_spot (hall _ (by simp))
  cases hrun with
  | nil => simp at hmem'
  | cons h₃ hrun =>
  obtain ⟨j, rfl, rfl⟩ := h₃.of_spot (hall _ (by simp))
  cases hrun with
  | nil => simp at hmem'
  | cons h₄ hrun =>
  obtain ⟨rfl, rfl⟩ := h₄.of_spot (hall _ (by simp))
  refine ⟨f, _, rfl, ?_⟩
  cases hrun with
  | nil => exact .inl ⟨rfl, rfl⟩
  | cons h₅ hrun =>
  obtain ⟨k, rfl, rfl⟩ := h₅.of_spot (hall _ (by simp))
  cases hrun with
  | nil => exact .inr (.inl ⟨k, rfl, rfl⟩)
  | cons h₆ hrun =>
  obtain ⟨rfl, rfl⟩ := h₆.of_spot (hall _ (by simp))
  exact .inr (.inr ⟨_, rfl⟩)

/-! ## Runs with the lives of the lthreads -/

namespace Machine

variable [DecidableEq ι] {m m' : Machine ι τ} {life life' : τ → Life ι}

/-- The entries of the futex queue can be counted in `futex_sleepers`, an `int`. -/
def Counted (m : Machine ι τ) : Prop := m.shared.futexQueues.length < 2 ^ 31

def CountedStep : Machine ι τ → Label τ → Machine ι τ → Prop := Guarded Step fun m _ => m.Counted

def LiveStep (x : Machine ι τ × (τ → Life ι)) (l : Label τ) (y : Machine ι τ × (τ → Life ι)) :
    Prop :=
  x.1.Inv x.2 ∧ x.1.CountedStep l y.1 ∧ y.1.Inv y.2 ∧ ∀ t, Life.Step t (x.2 t) l (y.2 t)

variable {ls : List (Label τ)}

theorem exists_liveRun [Fintype ι] (hι : Fintype.card ι < 2 ^ 32)
    (hrun : Run CountedStep m ls m') (h : m.Inv life) :
    ∃ life', Run LiveStep (m, life) ls (m', life') ∧ m'.Inv life' := by
  have hsim : ∀ (m : Machine ι τ) l m' (x : Machine ι τ × (τ → Life ι)), x.1 = m ∧ m.Inv x.2 →
      m.CountedStep l m' → ∃ l' y, l = l' ∧ LiveStep x l' y ∧ y.1 = m' ∧ m'.Inv y.2 := by
    rintro m l m' ⟨_, life⟩ ⟨rfl, hinv⟩ hstep
    obtain ⟨life', hinv', hlife⟩ := hinv.step hι hstep.2
    exact ⟨l, (m', life'), rfl, ⟨hinv, hstep, hinv', hlife⟩, rfl, hinv'⟩
  obtain ⟨ls', ⟨m'', life'⟩, hls, hrun', rfl, hinv⟩ := hrun.sim (x := (m, life)) (L := Eq)
    (R := fun m x => x.1 = m ∧ m.Inv x.2) hsim ⟨rfl, h⟩
  rw [forall₂_eq_eq_eq] at hls
  exact ⟨life', hls ▸ hrun', hinv⟩

theorem run_countedStep [Fintype ι] [Fintype τ] (hι : Fintype.card ι < 2 ^ 32)
    (hτ : Fintype.card τ < 2 ^ 31) (hrun : Run Step m ls m') (h : m.Init) : Run CountedStep m ls m' := by
  refine hrun.guarded (I := fun m => ∃ life, m.Inv life) ?_ ?_ ⟨_, h.inv⟩
  · rintro m l m' ⟨life, hinv⟩ hstep
    obtain ⟨life', hinv', -⟩ := hinv.step hι hstep
    exact ⟨life', hinv'⟩
  · rintro m - ⟨life, hinv⟩
    have hlen := hinv.located.waiters_nodup.length_le_card
    rw [length_map] at hlen
    exact hlen.trans_lt hτ

end Machine

/-! ## The sleeper -/

namespace Cpu.Step

variable {s s' : Shared τ} {r : CpuCtx} {pc : Pc τ} {c' : Cpu τ} {fq : FutexQ τ}

theorem entry (h : Cpu.Step s r pc l c' s') (hfq : fq ∈ s'.futexQueues) :
    (∃ fq' ∈ s.futexQueues, fq'.futexLt = fq.futexLt ∧ fq'.futexKey = fq.futexKey) ∨
      ∃ uaddr ts, pc = .waitNew fq.futexLt uaddr ts ∧ toFutexKey uaddr = fq.futexKey := by
  cases h with
  | @waitNew lt uaddr ts =>
    rcases mem_cons.mp hfq with rfl | hfq
    · exact .inr ⟨uaddr, ts, rfl, rfl⟩
    · exact .inl ⟨fq, hfq, rfl, rfl⟩
  | deadline =>
    obtain ⟨fq', hfq', rfl⟩ := mem_map.mp hfq
    refine .inl ⟨fq', hfq', ?_⟩
    split_ifs <;> exact ⟨rfl, rfl⟩
  | pick => exact .inl ⟨fq, mem_of_mem_erase hfq, rfl, rfl⟩
  | _ => exact .inl ⟨fq, hfq, rfl, rfl⟩

variable {uaddr : Word}

theorem of_readEq {val : CInt} (h : Cpu.Step s r pc (.readEq t uaddr val) c' s') :
    ∃ ts, c'.pc = .waitNew t uaddr ts := by
  cases h with
  | @readEq lt uaddr ts => exact ⟨ts, rfl⟩

theorem waitNew_cases {ts : Option Timespec} (h : Cpu.Step s r pc l c' s')
    (hc : c'.pc = .waitNew t uaddr ts) : pc = .waitNew t uaddr ts ∨ ∃ v, l = .readEq t uaddr v := by
  cases h with
  | stay | clock => exact .inl hc
  | readEq =>
    obtain ⟨rfl, rfl, -⟩ := Pc.waitNew.inj hc
    exact .inr ⟨_, rfl⟩
  | @resume lt => cases hb : s.inSleep lt <;> simp [hb, Pc.resumed] at hc
  | _ => simp at hc

end Cpu.Step

namespace Machine

variable {m m' : Machine ι τ} {life life' : τ → Life ι} {key : BitVec 32}

/-- `t` has decided to sleep under `key` and is not on the run queue again. -/
structure Watched (m : Machine ι τ) (life : τ → Life ι) (t : τ) (key : BitVec 32) : Prop where
  sleepy : (life t).spot.Sleepy
  entry : ∀ fq ∈ m.shared.futexQueues, fq.futexLt = t → fq.futexKey = key
  new : ∀ i uaddr ts, (m.cpu i).pc = .waitNew t uaddr ts → toFutexKey uaddr = key

variable [DecidableEq ι]

theorem Watched.step (h : Watched m life t key) (hs : LiveStep (m, life) l (m', life')) :
    l = .enqueue t ∨ Watched m' life' t key := by
  obtain ⟨-, ⟨-, hstep⟩, -, hlife⟩ := hs
  obtain ⟨i, hcpu, hother⟩ := hstep.exists_cpu
  refine ((hlife t).sleepy h.sleepy).imp_right fun hsleepy => ⟨hsleepy, ?_, ?_⟩
  · intro fq hfq hlt
    rcases hcpu.entry hfq with ⟨fq', hfq', hlt', hkey⟩ | ⟨uaddr, ts, hpc, hkey⟩
    · rw [← hkey, h.entry fq' hfq' (hlt'.trans hlt)]
    · rw [← hkey, h.new i uaddr ts (hlt ▸ hpc)]
  · intro j uaddr ts hpc
    by_cases hji : j = i
    · subst hji
      rcases hcpu.waitNew_cases hpc with hold | ⟨v, rfl⟩
      · exact h.new j uaddr ts hold
      · obtain ⟨k, hrun, -⟩ := (hlife t).of_readEq
        have hsleepy := h.sleepy
        rw [show (life t).spot = _ from hrun] at hsleepy
        exact hsleepy.elim
    · rw [hother j hji] at hpc
      exact h.new j uaddr ts hpc

theorem watched_of_readEq {uaddr : Word} {val : CInt} (hs : LiveStep (m, life) (.readEq t uaddr val) (m', life')) :
    Watched m' life' t (toFutexKey uaddr) := by
  obtain ⟨-, ⟨-, hstep⟩, hinv, hlife⟩ := hs
  obtain ⟨i, hcpu, hother⟩ := hstep.exists_cpu
  obtain ⟨ts, hpc⟩ := hcpu.of_readEq
  have hspot : (life' t).spot = .cpu i .committed :=
    (hinv.located.roles i t .committed).mp (by rw [hpc]; exact mem_cons_self)
  refine ⟨hspot ▸ trivial, fun fq hfq hlt => ?_, fun j uaddr' ts' hpc' => ?_⟩
  · -- it is not in the queue yet
    have hwait := (hinv.located.waiters t).mp (mem_map.mpr ⟨fq, hfq, hlt⟩)
    simp [hspot] at hwait
  · have hspot' : (life' t).spot = .cpu j .committed :=
      (hinv.located.roles j t .committed).mp (by rw [hpc']; exact mem_cons_self)
    obtain ⟨rfl, -⟩ := Spot.cpu.inj (hspot.symm.trans hspot')
    obtain ⟨-, rfl, -⟩ := Pc.waitNew.inj (hpc.symm.trans hpc')
    rfl

end Machine

/-! ## The waker -/

/-- From this point of its loop, a wake of `num` lthreads under `key` comes to `t` before it has
woken `num` of them. -/
def Reaches (t : τ) (key num w : BitVec 32) (todo : List (FutexQ τ)) : Prop :=
  t ∈ todo.map (·.futexLt) ∧ w.toNat + todo.countP (·.futexKey = key) ≤ num.toNat

/-- `u` is in a wake of `num` lthreads under `key` that has `t` ahead of it. -/
def Pc.Ahead (u t : τ) (key num : BitVec 32) : Pc τ → Prop
  | .take lt (.wake uaddr val) | .spin lt (.wake uaddr val) _ =>
    lt = u ∧ toFutexKey uaddr = key ∧ val = num
  | .sweep (.wake lt key' num' w) todo =>
    lt = u ∧ key' = key ∧ num' = num ∧ Reaches t key num w todo
  | .ready (.wake lt key' num' w) todo lt' =>
    lt = u ∧ key' = key ∧ num' = num ∧ (lt' = t ∨ Reaches t key num w todo)
  | _ => False

namespace Cpu.Step

variable {s s' : Shared τ} {r : CpuCtx} {pc : Pc τ} {c' : Cpu τ} {key num : BitVec 32}

/-- A step of the waker puts `t` on the run queue or leaves it ahead. -/
theorem ahead (h : Cpu.Step s r pc l c' s') (ha : pc.Ahead u t key num)
    (hkey : ∀ fq ∈ pc.todo, fq.futexLt = t → fq.futexKey = key)
    (henter : pc.place ≠ .holding → c'.pc.place = .holding → Reaches t key num 0 s.futexQueues) :
    l = .enqueue t ∨ c'.pc.Ahead u t key num := by
  cases h with
  | stay | clock => exact .inr ha
  | @take lt call =>
    cases call with
    | timedwait => exact ha.elim
    | wake => exact .inr ha
  | enterWake =>
    obtain ⟨rfl, rfl, rfl⟩ := ha
    exact .inr ⟨rfl, rfl, rfl, henter (by simp [Pc.place]) rfl⟩
  | @sweepEnd m =>
    cases m with
    | tick => exact ha.elim
    | wake => exact absurd ha.2.2.2.1 (by simp)
  | @pick m fq tmp hsel =>
    cases m with
    | tick => exact ha.elim
    | wake lt key' num' w =>
      obtain ⟨rfl, rfl, rfl, hmem, hle⟩ := ha
      obtain ⟨hfq, hw⟩ := hsel
      refine .inr ⟨rfl, rfl, rfl, or_iff_not_imp_left.mpr fun hne => ⟨?_, ?_⟩⟩
      · simpa [Ne.symm hne] using hmem
      · rw [countP_cons_of_pos (by simpa using hfq)] at hle
        bv_omega
  | @skip m fq tmp hsel =>
    cases m with
    | tick => exact ha.elim
    | wake lt key' num' w =>
      obtain ⟨rfl, rfl, rfl, hmem, hle⟩ := ha
      -- an entry with the key is not skipped, for the count is below `num`
      have hfq : fq.futexKey ≠ key' := by
        intro hfq
        rw [countP_cons_of_pos (by simpa using hfq)] at hle
        exact hsel ⟨hfq, by bv_omega⟩
      have hne : t ≠ fq.futexLt := fun ht => hfq (hkey fq mem_cons_self ht.symm)
      refine .inr ⟨rfl, rfl, rfl, by simpa [hne] using hmem, ?_⟩
      rwa [countP_cons_of_neg (by simpa using hfq)] at hle
  | @ready m todo lt' =>
    cases m with
    | tick => exact ha.elim
    | wake lt key' num' w =>
      obtain ⟨rfl, rfl, rfl, rfl | hreach⟩ := ha
      · exact .inl rfl
      · exact .inr ⟨rfl, rfl, rfl, hreach⟩
  | _ => exact ha.elim

theorem of_wakeCall {uaddr : Word} {val : CInt}
    (h : Cpu.Step s r pc (.wakeCall u uaddr val) c' s') : c'.pc = .take u (.wake uaddr val) := by
  cases h with
  | wakeCall => rfl

theorem of_wakeRet {rc : CInt} (h : Cpu.Step s r pc (.wakeRet u rc) c' s') :
    ∃ key num w, pc = .swept (.wake u key num w) := by
  cases h with
  | wakeRet => exact ⟨_, _, _, rfl⟩

end Cpu.Step

omit [DecidableEq τ] in
theorem Pc.Ahead.mem_roles {pc : Pc τ} {key num : BitVec 32} (h : pc.Ahead u t key num) :
    (u, .running) ∈ pc.roles := by
  unfold Ahead at h
  split at h
  all_goals first
    | obtain ⟨rfl, -⟩ := h
      simp [roles, Sweep.roles]
    | exact h.elim

namespace Machine

variable [DecidableEq ι] {m m' : Machine ι τ} {life life' : τ → Life ι} {i : ι}
  {key num : BitVec 32}

/-- When the waker gets the lock, the sleeper is in the queue. -/
theorem Watched.reaches (hnum : 2 ^ 31 ≤ num.toNat + 1) (h : Watched m life t key)
    (hs : LiveStep (m, life) l (m', life')) (hother : ∀ j, j ≠ i → m'.cpu j = m.cpu j)
    (hout : (m.cpu i).pc.place ≠ .holding) (hin : (m'.cpu i).pc.place = .holding) :
    Reaches t key num 0 m.shared.futexQueues := by
  obtain ⟨hinv, ⟨hcount, -⟩, hinv', -⟩ := hs
  -- an lthread that is not asleep yet, or no more, is in the hands of a holder of the lock
  have hnot : ∀ j ρ, (life t).spot = .cpu j ρ → ρ = .committed ∨ ρ = .queued ∨ ρ = .held →
      False := by
    intro j ρ hspot hρ
    have hplace := Pc.place_of_roles ((hinv.located.roles j t ρ).mpr hspot) hρ
    by_cases hji : j = i
    · exact hout (hji ▸ hplace)
    · exact hji (hinv'.holder_unique (by rwa [hother j hji]) hin)
  have hasleep : (life t).spot = .asleep := by
    have := h.sleepy
    unfold Spot.Sleepy at this
    split at this
    · exact (hnot _ _ ‹_› (by simp)).elim
    · exact (hnot _ _ ‹_› (by simp)).elim
    · assumption
    · exact (hnot _ _ ‹_› (by simp)).elim
    all_goals exact this.elim
  refine ⟨(hinv.located.waiters t).mpr (.inl hasleep), ?_⟩
  have hlen : m.shared.futexQueues.length < 2 ^ 31 := hcount
  have := countP_le_length (p := fun fq : FutexQ τ => fq.futexKey = key)
    (l := m.shared.futexQueues)
  simp only [BitVec.ofNat_eq_ofNat, BitVec.toNat_ofNat, Nat.zero_mod]
  omega

theorem Watched.ahead_step (hnum : 2 ^ 31 ≤ num.toNat + 1)
    (h : Watched m life t key) (ha : (m.cpu i).pc.Ahead u t key num) (hs : LiveStep (m, life) l (m', life')) :
    l = .enqueue t ∨ (m'.cpu i).pc.Ahead u t key num := by
  obtain ⟨j, hcpu, hother⟩ := hs.2.1.2.exists_cpu
  by_cases hij : i = j
  · subst hij
    refine hcpu.ahead ha (fun fq hfq => h.entry fq ((hs.1.todo i).mem hfq)) fun hout hin => ?_
    exact h.reaches hnum hs hother hout hin
  · exact .inr (by rwa [show m'.cpu i = m.cpu i from hother i hij])

theorem Inv.not_wakeRet {rc : CInt} (hinv : m.Inv life) (ha : (m.cpu i).pc.Ahead u t key num) :
    ¬ m.Step (.wakeRet u rc) m' := by
  intro hstep
  obtain ⟨j, hcpu, -⟩ := hstep.exists_cpu
  obtain ⟨key', num', w, hpc⟩ := hcpu.of_wakeRet
  have hi := (hinv.located.roles i u .running).mp ha.mem_roles
  have hj := (hinv.located.roles j u .running).mp (by simp [hpc, Pc.roles, Sweep.roles])
  obtain ⟨rfl, -⟩ := Spot.cpu.inj (hi.symm.trans hj)
  rw [hpc] at ha
  exact ha

/-- **A wake that is called after the sleeper has read the futex puts it on the run queue** before it
returns, if nobody has done so before. -/
theorem enqueue_mem_of_wake {uaddr : Word} {num rc : CInt}
    (hnum : 2 ^ 31 ≤ num.toNat + 1) {x y : Machine ι τ × (τ → Life ι)} {l₁ l₂ : List (Label τ)}
    (hx : Watched x.1 x.2 t (toFutexKey uaddr))
    (hrun : Run LiveStep x (l₁ ++ Label.wakeCall u uaddr num :: (l₂ ++ [Label.wakeRet u rc])) y) :
    Label.enqueue t ∈ l₁ ++ Label.wakeCall u uaddr num :: (l₂ ++ [Label.wakeRet u rc]) := by
  have hwatch : ∀ (x : Machine ι τ × (τ → Life ι)) l y, Watched x.1 x.2 t (toFutexKey uaddr) →
      LiveStep x l y → l = Label.enqueue t ∨ Watched y.1 y.2 t (toFutexKey uaddr) :=
    fun _ _ _ h hs => h.step hs
  have hboth : ∀ i (x : Machine ι τ × (τ → Life ι)) l y,
      Watched x.1 x.2 t (toFutexKey uaddr) ∧ (x.1.cpu i).pc.Ahead u t (toFutexKey uaddr) num →
      LiveStep x l y → l = Label.enqueue t ∨
        Watched y.1 y.2 t (toFutexKey uaddr) ∧ (y.1.cpu i).pc.Ahead u t (toFutexKey uaddr) num :=
    fun _ _ _ _ h hs => or_and_left.mpr ⟨h.1.step hs, h.1.ahead_step hnum h.2 hs⟩
  obtain ⟨⟨m, life⟩, hrun₁, hrun⟩ := hrun.split
  rcases hrun₁.inv_or_exists hwatch hx with ⟨l, hl, rfl⟩ | hw
  · exact mem_append_left _ hl
  · cases hrun with
    | @cons _ z _ _ _ hcall hrun =>
    obtain ⟨m', life'⟩ := z
    obtain ⟨i, hcpu, -⟩ := hcall.2.1.2.exists_cpu
    have hahead : (m'.cpu i).pc.Ahead u t (toFutexKey uaddr) num := by
      rw [show (m'.cpu i).pc = _ from hcpu.of_wakeCall]
      exact ⟨rfl, rfl, rfl⟩
    have hw' : Watched m' life' t (toFutexKey uaddr) := (hw.step hcall).resolve_left (by simp)
    obtain ⟨⟨m'', life''⟩, hrun₂, hret⟩ := hrun.split
    rcases hrun₂.inv_or_exists (hboth i) ⟨hw', hahead⟩ with ⟨l, hl, rfl⟩ | ⟨-, hahead⟩
    · simp [hl]
    · cases hret with
      | cons hs => exact absurd hs.2.1.2 (hs.1.not_wakeRet hahead)

omit [DecidableEq τ] [DecidableEq ι] in
theorem Inv.futexLt_ne (hinv : m.Inv life) (hasleep : (life t).spot ≠ .asleep)
    (hqueued : ∀ i, (life t).spot ≠ .cpu i .queued) : ∀ fq ∈ m.shared.futexQueues, fq.futexLt ≠ t := by
  intro fq hfq hlt
  rcases (hinv.located.waiters t).mp (mem_map.mpr ⟨fq, hfq, hlt⟩) with h | ⟨i, h⟩
  · exact hasleep h
  · exact hqueued i h

/-- **No wakeup is lost.** In every run: if `t` reads the value it expects at `uaddr`, and then some `u` stores there
and completes a wake of `INT_MAX`, then `t` goes into the futex queue, its registers are saved, and it goes out of the
queue and on the run queue, once before it runs again, with these registers. -/
theorem no_lost_wakeup [Fintype ι] (hι : Fintype.card ι < 2 ^ 32) {m₀ m : Machine ι τ} (h₀ : m₀.Init)
    {l₁ l₂ l₃ l₄ : List (Label τ)} {uaddr : Word} {val val' rc : CInt}
    (hrun : Run CountedStep m₀ (l₁ ++ Label.readEq t uaddr val :: (l₂ ++ Label.store u uaddr val' ::
      (l₃ ++ Label.wakeCall u uaddr 0x7fffffff :: (l₄ ++ [Label.wakeRet u rc])))) m) :
    ∃ regs later, movesOf t (l₂ ++ Label.store u uaddr val' ::
          (l₃ ++ Label.wakeCall u uaddr 0x7fffffff :: (l₄ ++ [Label.wakeRet u rc]))) =
        Label.insert t :: Label.saved t regs :: Label.pick t :: Label.enqueue t :: later ∧
      (later = [] ∧ (∀ fq ∈ m.shared.futexQueues, fq.futexLt ≠ t) ∧
          m.shared.schedulerQueue.count t = 1 ∧ m.shared.ctx t = regs ∨
        later = [Label.dequeue t] ∧ (∀ fq ∈ m.shared.futexQueues, fq.futexLt ≠ t) ∧
          m.shared.schedulerQueue.count t = 0 ∧ m.shared.ctx t = regs ∨
        ∃ later', later = Label.dequeue t :: Label.resume t regs :: later') := by
  obtain ⟨life, hlive, hinv⟩ := exists_liveRun hι hrun h₀.inv
  obtain ⟨⟨m₁, life₁⟩, -, hlive⟩ := hlive.split
  cases hlive with
  | @cons _ z _ _ _ hread hlive =>
  obtain ⟨m₂, life₂⟩ := z
  have hmem : Label.enqueue t ∈ l₂ ++ Label.store u uaddr val' ::
      (l₃ ++ Label.wakeCall u uaddr 0x7fffffff :: (l₄ ++ [Label.wakeRet u rc])) := by
    rw [← cons_append, ← append_assoc] at hlive ⊢
    exact enqueue_mem_of_wake (by decide) (watched_of_readEq hread) hlive
  obtain ⟨i, -, hspot⟩ := (hread.2.2.2 t).of_readEq
  obtain ⟨regs, later, hmoves, hlater⟩ := movesOf_sleep
    (hlive.map (fun x => x.2 t) fun _ _ _ hs => hs.2.2.2 t) hspot hmem
  refine ⟨regs, later, hmoves, hlater.imp ?_ (Or.imp_left ?_)⟩
  · rintro ⟨rfl, hlife : life t = _⟩
    refine ⟨rfl, hinv.futexLt_ne (by simp [hlife]) (by simp [hlife]), ?_, ?_⟩
    · exact count_eq_one_of_mem hinv.located.ready_nodup
        ((hinv.located.ready t).mpr (by rw [hlife]))
    · rw [hinv.frame t (by rw [hlife]; trivial), hlife]
  · rintro ⟨j, rfl, hlife : life t = _⟩
    refine ⟨rfl, hinv.futexLt_ne (by simp [hlife]) (by simp [hlife]), ?_, ?_⟩
    · exact count_eq_zero_of_not_mem fun hmem => by
        simpa [hlife] using (hinv.located.ready t).mp hmem
    · rw [hinv.frame t (by rw [hlife]; trivial), hlife]

def twoCpus : Machine (Fin 2) (Fin 2) where
  cpu _ := ⟨.loop, fun _ => 0⟩
  shared :=
    { futexQueues := [], futexSleepers := 0, err := fun _ => 0, schedulerQueue := [0, 1],
      lock := ⟨0, 0⟩, mem := fun _ => 0, nanos := 0, ctx := fun t _ => t.val, alive := fun _ => true,
      inSleep := fun _ => false }

/-- Both lthreads run. The first one waits; after it has read the futex the second one stores to it,
calls for a wake and spins. The first one goes to sleep, and is woken. -/
def sleepAndWake : List (Fin 2 × Act (Fin 2)) :=
  let go (i : Fin 2) (n : ℕ) : List (Fin 2 × Act (Fin 2)) := List.replicate n (i, .go)
  List.flatten [go 0 10, go 1 10, [(0, .call (.timedwait 0x1000 0 none))], go 0 3,
    [(1, .store 0x1000 1), (1, .call (.wake 0x1000 0x7fffffff))], go 1 2, go 0 13, go 1 5]

theorem no_lost_wakeup_twoCpus : ∃ (m : Machine (Fin 2) (Fin 2)) (l₁ l₄ : List (Label (Fin 2))) (rc : CInt),
      Run CountedStep twoCpus (l₁ ++ Label.readEq 0 0x1000 0 :: ([] ++ Label.store 1 0x1000 1 ::
        ([] ++ Label.wakeCall 1 0x1000 0x7fffffff :: (l₄ ++ [Label.wakeRet 1 rc])))) m ∧
      ∃ regs later, movesOf 0 ([] ++ Label.store 1 0x1000 1 ::
          ([] ++ Label.wakeCall 1 0x1000 0x7fffffff :: (l₄ ++ [Label.wakeRet 1 rc]))) =
        Label.insert 0 :: Label.saved 0 regs :: Label.pick 0 :: Label.enqueue 0 :: later := by
  have hinit : twoCpus.Init := ⟨fun _ => rfl, rfl, rfl, by decide, by decide⟩
  let ls := ((exec sleepAndWake twoCpus).map Prod.fst).getD []
  have hexec : ∃ rc m, exec sleepAndWake twoCpus = some
      (ls.take 23 ++ Label.readEq 0 0x1000 0 :: ([] ++ Label.store 1 0x1000 1 ::
        ([] ++ Label.wakeCall 1 0x1000 0x7fffffff ::
          ((ls.drop 26).dropLast ++ [Label.wakeRet 1 rc]))), m) := ⟨_, _, rfl⟩
  obtain ⟨rc, m, hexec⟩ := hexec
  have hrun := run_countedStep (by decide) (by decide) (run_of_exec hexec) hinit
  obtain ⟨regs, later, h, -⟩ := no_lost_wakeup (by decide) hinit hrun
  exact ⟨m, _, _, rc, hrun, regs, later, h⟩

/-- **A switch restores what was saved.** An lthread that runs again has the registers with which it called `_switch`
the last time, or with which it was created. It is on one scheduler and in no queue. -/
theorem resume_restores [Fintype ι] (hι : Fintype.card ι < 2 ^ 32) {m₀ : Machine ι τ} (h₀ : m₀.Init) {f : CpuCtx}
    (hrun : Run Step m₀ (ls ++ [.resume t f]) m) : f = ls.foldl (Label.frame t) (m₀.shared.ctx t) ∧
      (∃ i, ∀ j ρ, (t, ρ) ∈ (m.cpu j).pc.roles ↔ j = i ∧ ρ = .running) ∧
      t ∉ m.shared.schedulerQueue ∧ ∀ fq ∈ m.shared.futexQueues, fq.futexLt ≠ t := by
  obtain ⟨m₁, hrun, hlast⟩ := hrun.split
  obtain ⟨life, hinv, hframe⟩ := hrun.history (I := fun ls m => ∃ life, m.Inv life ∧
      ∀ t, (life t).frame = ls.foldl (Label.frame t) (m₀.shared.ctx t)) (by
    rintro ls m l m' ⟨life, hinv, hframe⟩ hs
    obtain ⟨life', hinv', hlife⟩ := hinv.step hι hs
    refine ⟨life', hinv', fun t => ?_⟩
    rw [(hlife t).frame_eq, hframe, foldl_append]
    rfl) ⟨_, h₀.inv, fun _ => rfl⟩
  cases hlast with
  | cons hs hnil =>
    cases hnil
    obtain ⟨life', hinv', hlife⟩ := hinv.step hι hs
    obtain ⟨hf, i, hspot⟩ := (hlife t).of_resume
    refine ⟨by rw [← hf, hframe], ⟨i, fun j ρ => ?_⟩, ?_, hinv'.futexLt_ne (by simp [hspot]) (by simp [hspot])⟩
    · rw [hinv'.located.roles, hspot, Spot.cpu.injEq, eq_comm, eq_comm (a := ρ)]
    · simp [hinv'.located.ready, hspot]

theorem resume_restores_twoCpus : ∃ f m, Run Step twoCpus (.dequeue 0 :: List.replicate 8 .tau ++ [.resume 0 f]) m ∧
    f = twoCpus.shared.ctx 0 := by
  have hinit : twoCpus.Init := ⟨fun _ => rfl, rfl, rfl, by decide, by decide⟩
  obtain ⟨f, m, hexec⟩ : ∃ f m, exec (List.replicate 10 (0, .go)) twoCpus =
      some (.dequeue 0 :: List.replicate 8 .tau ++ [.resume 0 f], m) := ⟨_, _, rfl⟩
  exact ⟨f, m, run_of_exec hexec, (resume_restores (by decide) hinit (run_of_exec hexec)).1⟩

/-- One more step of the code of a scheduler in front. -/
theorem exec_go_cons {c : Cpu τ} {s : Shared τ} {n : ℕ} {ls : List (Label τ)} {m' : Machine ι τ}
    (h : (m.cpu i).code m.shared = some (l, c, s))
    (hexec : exec (List.replicate n (i, .go)) (m.set i c s) = some (ls, m')) :
    exec (List.replicate (n + 1) (i, .go)) m = some (l :: ls, m') := by
  have hstep : m.step i .go = some (l, m.set i c s) := by
    rw [step, Cpu.step, h]
    rfl
  exact execute_cons hstep hexec

/-- **The loop of `futex_wake`**, if nobody interrupts it: the steps of its scheduler do what the sequential loop
does. -/
theorem run_futexWakeLoop (m : Machine ι τ) (i : ι) {u : τ} {key num w : BitVec 32}
    {todo : List (FutexQ τ)} (hpc : (m.cpu i).pc = .sweep (.wake u key num w) todo) :
    ∃ n ls m', exec (List.replicate n (i, .go)) m = some (ls, m') ∧
      (m'.cpu i).pc = .swept (.wake u key num (m.shared.toFutexes.futexWakeLoop key num todo w).1) ∧
      m'.shared.toFutexes = (m.shared.toFutexes.futexWakeLoop key num todo w).2 := by
  induction todo generalizing m w with
  | nil =>
    have hend : (m.cpu i).code m.shared = some (.tau, (m.cpu i).goto (.swept (.wake u key num w)), m.shared) := by
      simp only [Cpu.code, hpc]
    exact ⟨1, _, _, exec_go_cons (n := 0) hend rfl, by simp [Cpu.goto, Futexes.futexWakeLoop], rfl⟩
  | cons fq tmp ih =>
    by_cases hsel : fq.futexKey = key ∧ w < num
    · let m₁ := m.set i ((m.cpu i).goto (.ready (.wake u key num (w + 1)) tmp fq.futexLt))
        { m.shared with toFutexes := m.shared.unlink fq futexNone }
      have hpick : (m.cpu i).code m.shared = some (.pick fq.futexLt,
          (m.cpu i).goto (.ready (.wake u key num (w + 1)) tmp fq.futexLt),
          { m.shared with toFutexes := m.shared.unlink fq futexNone }) := by
        have hsel' : Sweep.Selects fq (.wake u key num w) := hsel
        simp only [Cpu.code, hpc, if_pos hsel']
        rfl
      let m₂ := m₁.set i ((m₁.cpu i).goto (.sweep (.wake u key num (w + 1)) tmp))
        { m₁.shared with toFutexes := m₁.shared.schedulerEnqueue fq.futexLt }
      have henq : (m₁.cpu i).code m₁.shared = some (.enqueue fq.futexLt,
          (m₁.cpu i).goto (.sweep (.wake u key num (w + 1)) tmp),
          { m₁.shared with toFutexes := m₁.shared.schedulerEnqueue fq.futexLt }) := by
        simp [m₁, Cpu.code, Cpu.goto]
      obtain ⟨n, ls, m', hexec, hpc', hfut⟩ := ih m₂ (w := w + 1) (by simp [m₂, Cpu.goto])
      refine ⟨n + 2, _, m', exec_go_cons hpick (exec_go_cons henq hexec), ?_⟩
      simpa only [Futexes.futexWakeLoop, if_pos hsel] using ⟨hpc', hfut⟩
    · let m₁ := m.set i ((m.cpu i).goto (.sweep (.wake u key num w) tmp)) m.shared
      have hskip : (m.cpu i).code m.shared = some (.tau, (m.cpu i).goto (.sweep (.wake u key num w) tmp),
          m.shared) := by
        have hsel' : ¬ Sweep.Selects fq (.wake u key num w) := hsel
        simp only [Cpu.code, hpc, if_neg hsel']
      obtain ⟨n, ls, m', hexec, hpc', hfut⟩ := ih m₁ (w := w) (by simp [m₁, Cpu.goto])
      refine ⟨n + 1, _, m', exec_go_cons hskip hexec, ?_⟩
      simpa only [Futexes.futexWakeLoop, if_neg hsel] using ⟨hpc', hfut⟩

/-- One of two entries has the key. -/
theorem run_futexWakeLoop_twoCpus : ∃ n ls m', exec (List.replicate n (1, .go))
      (twoCpus.set 1 ⟨.sweep (.wake 1 4 2 0) [⟨4, 0, 0⟩, ⟨8, 0, 0⟩], fun _ => 0⟩ twoCpus.shared) = some (ls, m') ∧
      (m'.cpu 1).pc = .swept (.wake 1 4 2 1) ∧ m'.shared.schedulerQueue = [0, 1, 0] := by
  obtain ⟨n, ls, m', hexec, hpc, hfutexes⟩ := run_futexWakeLoop
    (twoCpus.set 1 ⟨.sweep (.wake 1 4 2 0) [⟨4, 0, 0⟩, ⟨8, 0, 0⟩], fun _ => 0⟩ twoCpus.shared) 1 rfl
  exact ⟨n, ls, m', hexec, hpc, congrArg Futexes.schedulerQueue hfutexes⟩

end Machine

end SgxLkl
