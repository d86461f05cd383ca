import SgxLkl.Lib.Bits
import SgxLkl.Lib.Interleave

/-!
# The clock of the enclave

`enclave_nanos` of `enclave_timer.c` as atomic accesses, made by any number of threads in any order,
while the host writes to its counter what it likes.

* **`Nanos.nanos_lt_iff`**: when a later call returns a larger value.
* **`Nanos.nanos_repeats`**: the same value twice, and time that starts again at `0`.
-/

namespace SgxLkl

open List

variable {τ : Type*}

/-! ## The code -/

/-- The counter in the memory of the host, and `internal_counter`. -/
structure Nanos where
  external : Word
  internal : Word

namespace Nanos

inductive Pc
  | idle
  | loadExternal
  /-- At the load of `internal_counter`. -/
  | loadInternal (e : Word)
  | compareExchange (e i : Word)
  | fetchAdd

/-- How a call came to its result: it has set the counter, it has seen that another call did so, or
it has added to the counter. -/
inductive Way
  | set
  | seen
  | add
  deriving DecidableEq

inductive Event (τ : Type*)
  | tau
  | host (e : Word)
  | call (t : τ)
  | ret (t : τ) (r : Word) (w : Way)
  deriving DecidableEq

/-- The next access of thread `t`, or a write of the host. -/
inductive Step (t : τ) : Pc → Nanos → Event τ → Pc → Nanos → Prop
  | host {pc : Pc} {s : Nanos} (e : Word) : Step t pc s (.host e) pc { s with external := e }
  | call {s : Nanos} : Step t .idle s (.call t) .loadExternal s
  | loadExternal {s : Nanos} : Step t .loadExternal s .tau (.loadInternal s.external) s
  | ahead {s : Nanos} {e : Word} (h : s.internal < e) :
      Step t (.loadInternal e) s .tau (.compareExchange e s.internal) s
  | behind {s : Nanos} {e : Word} (h : ¬ s.internal < e) :
      Step t (.loadInternal e) s .tau .fetchAdd s
  | set {s : Nanos} {e i : Word} (h : s.internal = i) :
      Step t (.compareExchange e i) s (.ret t e .set) .idle { s with internal := e }
  | seen {s : Nanos} {e i : Word} (h : s.internal ≠ i) :
      Step t (.compareExchange e i) s (.ret t s.internal .seen) .idle s
  | add {s : Nanos} :
      Step t .fetchAdd s (.ret t s.internal .add) .idle { s with internal := s.internal + 1 }

def Event.Moves : Event τ → Prop
  | .ret _ _ .set | .ret _ _ .add => True
  | _ => False

def NoWrap (ls : List (Event τ)) : Prop := ∀ t, .ret t 0xffffffffffffffff .add ∉ ls

def start (e : Word) : Config τ Pc Nanos := ⟨fun _ => .idle, ⟨e, 0⟩⟩

/-! ## The counter since a return -/

variable {s s' : Nanos} {t u : τ} {pc pc' : Pc} {a : Event τ} {ls : List (Event τ)} {v : Word}

/-- A compare-exchange would set the counter to a larger value. -/
def Pc.Rises : Pc → Prop
  | .compareExchange e i => i < e
  | _ => True

theorem Step.rises (h : Step t pc s a pc' s') (hpc : pc.Rises) : pc'.Rises := by
  cases h with
  | host => exact hpc
  | ahead h => exact h
  | _ => trivial

theorem Step.internal_le (h : Step t pc s a pc' s') (hpc : pc.Rises) (hwrap : a ≠ .ret t 0xffffffffffffffff .add) :
    s.internal ≤ s'.internal ∧ (s'.internal = s.internal ↔ ¬ a.Moves) := by
  cases h with
  | set h =>
    subst h
    exact ⟨BitVec.le_of_lt hpc, by simpa [Event.Moves] using (BitVec.ne_of_lt hpc).symm⟩
  | add =>
    have hne : s.internal ≠ 0xffffffffffffffff := fun h => hwrap (by rw [h])
    have hlt : s.internal < s.internal + 1 := by bv_omega
    exact ⟨BitVec.le_of_lt hlt, by simp [Event.Moves]⟩
  | _ => exact ⟨BitVec.le_refl _, by simp [Event.Moves]⟩

/-- What holds of the counter when it was `v` before the steps `ls`. -/
structure Since (v : Word) (ls : List (Event τ)) (s : Nanos) : Prop where
  le : v ≤ s.internal
  moved : s.internal = v ↔ ∀ a ∈ ls, ¬ a.Moves

theorem Since.step (h : Since v ls s) (hstep : Step t pc s a pc' s') (hpc : pc.Rises)
    (hwrap : a ≠ .ret t 0xffffffffffffffff .add) : Since v (ls ++ [a]) s' := by
  obtain ⟨hle, hmoved⟩ := hstep.internal_le hpc hwrap
  refine ⟨BitVec.le_trans h.le hle, ?_⟩
  rw [forall_mem_append, forall_mem_singleton, ← h.moved, ← hmoved]
  have := h.le
  constructor
  · intro heq
    have : s.internal = v := by bv_omega
    exact ⟨this, heq.trans this.symm⟩
  · rintro ⟨h1, h2⟩
    exact h2.trans h1

/-- What holds of a call that was made after the counter was `v`. -/
def Fresh (v : Word) (s : Nanos) : Pc → Prop
  | .compareExchange _ i => v ≤ i ∧ i ≤ s.internal
  | _ => True

theorem Fresh.mono (h : Fresh v s pc) (hle : s.internal ≤ s'.internal) : Fresh v s' pc := by
  cases pc with
  | compareExchange => exact ⟨h.1, BitVec.le_trans h.2 hle⟩
  | _ => trivial

theorem Step.fresh (h : Step t pc s a pc' s') (hf : Fresh v s pc) (hv : v ≤ s.internal) : Fresh v s' pc' := by
  cases h with
  | host => exact hf.mono (BitVec.le_refl _)
  | ahead => exact ⟨hv, BitVec.le_refl _⟩
  | _ => trivial

variable [DecidableEq τ] {c c' : Config τ Pc Nanos}

theorem rises_of_run {e : Word} (hrun : Run (Interleave Step) (start e) ls c) (t : τ) : (c.loc t).Rises := by
  obtain ⟨-, -, hrises⟩ := Interleave.run_inv (γ := Unit) (H := fun _ => True)
    (G := fun _ _ _ => True) (P := fun _ _ _ pc _ => pc.Rises)
    (fun _ _ _ _ _ _ _ _ _ _ hpc hstep => ⟨(), trivial, hstep.rises hpc, fun _ _ _ hk => hk⟩)
    hrun (fun _ _ => trivial) (k := ()) trivial fun _ => trivial
  exact hrises t

/-- A run since the counter was `v`; the calls of the threads in `N` were made since then. -/
theorem since_run {N : τ → Prop} {l₀ : List (Event τ)} (hrun : Run (Interleave Step) c ls c')
    (hwrap : NoWrap ls) (hrises : ∀ t, (c.loc t).Rises) (hv : Since v l₀ c.shared)
    (hnew : ∀ t, N t → Fresh v c.shared (c.loc t)) :
    Since v (l₀ ++ ls) c'.shared ∧ ∀ t, N t → Fresh v c'.shared (c'.loc t) := by
  have hstep : ∀ ls (g : Unit) t pc s a pc' s', NoWrap (ls ++ [a]) → Since v (l₀ ++ ls) s →
      pc.Rises ∧ (N t → Fresh v s pc) → Step t pc s a pc' s' →
      ∃ _ : Unit, Since v (l₀ ++ (ls ++ [a])) s' ∧ (pc'.Rises ∧ (N t → Fresh v s' pc')) ∧
        ∀ u k, u ≠ t → Pc.Rises k ∧ (N u → Fresh v s k) → Pc.Rises k ∧ (N u → Fresh v s' k) := by
    rintro ls - t pc s a pc' s' hwrap hs ⟨hpc, hfresh⟩ hstep
    have hne : a ≠ .ret t 0xffffffffffffffff .add := fun h => hwrap t (by simp [h])
    refine ⟨(), ?_, ⟨hstep.rises hpc, fun ht => hstep.fresh (hfresh ht) hs.le⟩, ?_⟩
    · rw [← append_assoc]
      exact hs.step hstep hpc hne
    · exact fun u k _ hk => ⟨hk.1, fun hu => (hk.2 hu).mono (hstep.internal_le hpc hne).1⟩
  obtain ⟨-, hsince, hall⟩ := Interleave.run_inv (G := fun ls _ s => Since v (l₀ ++ ls) s)
    (P := fun _ _ t pc s => pc.Rises ∧ (N t → Fresh v s pc)) hstep hrun
    (fun p hp t hmem => hwrap t (hp.subset hmem)) (k := ()) (by rwa [append_nil])
    fun t => ⟨hrises t, hnew t⟩
  exact ⟨hsince, fun t => (hall t).2⟩

section

omit [DecidableEq τ]

theorem Step.internal_of_ret {r : Word} {w : Way} (h : Step u pc s (.ret t r w) pc' s') :
    u = t ∧ s'.internal = if w = .add then r + 1 else r := by
  cases h <;> simp

theorem Step.of_call (h : Step u pc s (.call t) pc' s') : u = t ∧ pc' = .loadExternal ∧ s' = s := by
  cases h with
  | call => exact ⟨rfl, rfl, rfl⟩

theorem Fresh.lt_of_ret {r : Word} {w : Way} (h : Step u pc s (.ret t r w) pc' s')
    (hpc : pc.Rises) (hf : Fresh v s pc) : w ≠ .add ∧ v < r ∨ w = .add ∧ r = s.internal := by
  cases h with
  | set =>
    refine .inl ⟨by simp, ?_⟩
    have hvi := hf.1
    change _ < _ at hpc
    bv_omega
  | seen h =>
    refine .inl ⟨by simp, ?_⟩
    obtain ⟨hvi, hi⟩ := hf
    bv_omega
  | add => exact .inr ⟨rfl, rfl⟩

end

/-- **A later call returns a larger value**, unless an addition wraps around, exactly if not: the
first call took its result from the compare-exchange, the second one from the addition, and no call
has changed the counter in between. -/
theorem nanos_lt_iff {e r₁ r₂ : Word} {w₁ w₂ : Way} {l₁ l₂ l₃ : List (Event τ)}
    (hrun : Run (Interleave Step) (start e) (l₁ ++ Event.ret t r₁ w₁ :: (l₂ ++ Event.call u ::
      (l₃ ++ [Event.ret u r₂ w₂]))) c)
    (hwrap : NoWrap (Event.ret t r₁ w₁ :: (l₂ ++ Event.call u :: l₃))) :
    r₁ < r₂ ↔ ¬ (w₁ ≠ .add ∧ w₂ = .add ∧ ∀ a ∈ l₂ ++ Event.call u :: l₃, ¬ a.Moves) := by
  obtain ⟨c₁, hrun₁, hrun⟩ := hrun.split
  cases hrun with
  | @cons _ c₂ _ _ _ hret hrun =>
  obtain ⟨c₃, hrun₂, hrun⟩ := hrun.split
  cases hrun with
  | @cons _ c₄ _ _ _ hcall hrun =>
  obtain ⟨c₅, hrun₃, hlast⟩ := hrun.split
  have hto₂ := hrun₁.append (.cons hret (.nil c₂))
  have hto₃ := hto₂.append hrun₂
  have hto₄ := hto₃.append (.cons hcall (.nil c₄))
  have hto₅ := hto₄.append hrun₃
  cases hret with
  | @of x _ pc₂ s₂ hret =>
  cases hcall with
  | @of y _ pc₄ s₄ hcall =>
  cases hlast with
  | cons hlast _ =>
  cases hlast with
  | @of z _ pc₆ s₆ hlast =>
  obtain ⟨-, hv⟩ := hret.internal_of_ret
  obtain ⟨rfl, hpc₄, -⟩ := hcall.of_call
  obtain ⟨hz, -⟩ := hlast.internal_of_ret
  -- `v` is the counter after the first return; what follows is about the steps since then
  set v := s₂.internal
  have hsince₂ : Since (τ := τ) v [] s₂ := ⟨BitVec.le_refl _, by simp [v]⟩
  obtain ⟨hsince₃, -⟩ := since_run (N := fun _ => False) hrun₂
    (fun t h => hwrap t (mem_cons_of_mem _ (mem_append_left _ h))) (rises_of_run hto₂)
    hsince₂ (by simp)
  have hsince₄ := hsince₃.step hcall (rises_of_run hto₃ y) (by simp)
  obtain ⟨hsince, hfresh⟩ := since_run (N := (· = y)) hrun₃
    (fun t h => hwrap t (mem_cons_of_mem _ (mem_append_right _ (mem_cons_of_mem _ h))))
    (rises_of_run hto₄) hsince₄ (by rintro t rfl; simp [Fresh, hpc₄])
  have hmoved : c₅.shared.internal = v ↔ ∀ a ∈ l₂ ++ Event.call y :: l₃, ¬ a.Moves := by
    rw [hsince.moved, nil_append, append_assoc, singleton_append]
  have hle := hsince.le
  have hne : w₁ = .add → r₁ ≠ 0xffffffffffffffff := by
    rintro rfl rfl
    exact hwrap t mem_cons_self
  rcases (hfresh z hz).lt_of_ret hlast (rises_of_run hto₅ z) with ⟨hw, hlt⟩ | ⟨rfl, rfl⟩
  · refine iff_of_true ?_ fun h => hw h.2.1
    split_ifs at hv with hadd
    · have := hne hadd
      bv_omega
    · rwa [← hv]
  · by_cases hadd : w₁ = .add
    · refine iff_of_true ?_ fun h => h.1 hadd
      have := hne hadd
      rw [if_pos hadd] at hv
      bv_omega
    · rw [if_neg hadd] at hv
      rw [← hmoved, ← hv]
      simp only [ne_eq, hadd, not_false_eq_true, true_and]
      bv_omega

/-- The host is ahead of the second call, as in the last line of the table. -/
theorem nanos_lt_fifteen : ∃ c : Config Unit Pc Nanos, ∃ l₁,
    Run (Interleave Step) (start 10) (l₁ ++ Event.ret () 10 .set :: ([.host 15] ++ Event.call () ::
      ([.tau, .tau] ++ [Event.ret () 15 .set]))) c ∧ (10 : Word) < 15 := by
  have hrun : Run (Interleave Step) (start 10) ([.call (), .tau, .tau] ++ Event.ret () 10 .set ::
      ([.host 15] ++ Event.call () :: ([.tau, .tau] ++ [Event.ret () 15 .set]))) _ :=
    .cons (.solo .call) (.cons (.solo .loadExternal) (.cons (.solo (.ahead (by decide)))
      (.cons (.solo (.set rfl)) (.cons (.solo (.host 15)) (.cons (.solo .call)
      (.cons (.solo .loadExternal) (.cons (.solo (.ahead (by decide)))
      (.cons (.solo (.set rfl)) (.nil _)))))))))
  exact ⟨_, _, hrun, (nanos_lt_iff hrun (by simp [NoWrap])).mpr (by simp)⟩

/-- **Time stands still, and starts again**: with the host's counter at `10` two calls return `10`;
with the host's counter at `2 ^ 64 - 1` a third call returns `0`. -/
theorem nanos_repeats : (∃ c : Config Unit Pc Nanos, Run (Interleave Step) (start 10)
      [.call (), .tau, .tau, .ret () 10 .set, .call (), .tau, .tau, .ret () 10 .add] c) ∧
    ∃ c : Config Unit Pc Nanos, Run (Interleave Step) (start 0xffffffffffffffff)
      [.call (), .tau, .tau, .ret () 0xffffffffffffffff .set, .call (), .tau, .tau,
        .ret () 0xffffffffffffffff .add, .host 0, .call (), .tau, .tau, .ret () 0 .add] c := by
  have hten : Run (Interleave Step) (start 10)
      [.call (), .tau, .tau, .ret () 10 .set, .call (), .tau, .tau, .ret () 10 .add] _ :=
    .cons (.solo .call) (.cons (.solo .loadExternal) (.cons (.solo (.ahead (by decide)))
      (.cons (.solo (.set rfl)) (.cons (.solo .call) (.cons (.solo .loadExternal)
      (.cons (.solo (.behind (by decide))) (.cons (.solo .add) (.nil _))))))))
  have hmax : Run (Interleave Step) (start 0xffffffffffffffff)
      [.call (), .tau, .tau, .ret () 0xffffffffffffffff .set, .call (), .tau, .tau,
        .ret () 0xffffffffffffffff .add, .host 0, .call (), .tau, .tau, .ret () 0 .add] _ :=
    .cons (.solo .call) (.cons (.solo .loadExternal) (.cons (.solo (.ahead (by decide)))
      (.cons (.solo (.set rfl)) (.cons (.solo .call) (.cons (.solo .loadExternal)
      (.cons (.solo (.behind (by decide))) (.cons (.solo .add) (.cons (.solo (.host 0))
      (.cons (.solo .call) (.cons (.solo .loadExternal) (.cons (.solo (.behind (by decide)))
      (.cons (.solo .add) (.nil _)))))))))))))
  exact ⟨⟨_, hten⟩, ⟨_, hmax⟩⟩

end Nanos

end SgxLkl
