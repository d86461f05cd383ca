import SgxLkl.Lib.Interleave
import SgxLkl.Sched.Ticketlock

/-!
# Callers of the ticket lock

Any number of callers use one lock. Each step is an atomic access of `ticket_lock`, `ticket_trylock` or
`ticket_unlock`, and only a caller that holds the lock unlocks it.

* **`ticketLock_fair`**: one holder at a time, in the order of the tickets; `ticket_trylock` does not get in between.
-/

namespace SgxLkl

open TicketLock List Function Option

variable {τ : Type*}

inductive TicketPc
  | out
  /-- In the loop of `ticket_lock`. -/
  | spin (me : BitVec 32)
  /-- In `ticket_trylock`, before the exchange. -/
  | exchange (me : BitVec 32)
  | held
  deriving DecidableEq

inductive TicketEvent (τ : Type*)
  | tau
  | take (t : τ)
  | acquire (t : τ)
  | tryOk (t : τ)
  | tryFail (t : τ)
  | release (t : τ)

inductive TicketStep (t : τ) : TicketPc → Ticketlock → TicketEvent τ → TicketPc → Ticketlock → Prop
  | take (s : Ticketlock) : TicketStep t .out s (.take t) (.spin (takeTicket s).1) (takeTicket s).2
  | spin {s : Ticketlock} {me : BitVec 32} (h : s.ticket ≠ me) : TicketStep t (.spin me) s .tau (.spin me) s
  | acquire {s : Ticketlock} {me : BitVec 32} (h : s.ticket = me) : TicketStep t (.spin me) s (.acquire t) .held s
  | users (s : Ticketlock) : TicketStep t .out s .tau (.exchange s.users) s
  | tryOk {s s' : Ticketlock} {me : BitVec 32} (h : ticketTrylock me s = some s') :
      TicketStep t (.exchange me) s (.tryOk t) .held s'
  | tryFail {s : Ticketlock} {me : BitVec 32} (h : ticketTrylock me s = none) :
      TicketStep t (.exchange me) s (.tryFail t) .out s
  | release (s : Ticketlock) : TicketStep t .held s (.release t) .out (ticketUnlock s)

def TicketPc.place : TicketPc → Place 32
  | .out => .out
  | .spin me => .waiting me
  | .exchange _ => .out
  | .held => .holding

def takers (ls : List (TicketEvent τ)) : List τ :=
  ls.filterMap fun
    | .take t => some t
    | _ => none

def acquirers (ls : List (TicketEvent τ)) : List τ :=
  ls.filterMap fun
    | .acquire t => some t
    | _ => none

theorem takers_append (ls ls' : List (TicketEvent τ)) : takers (ls ++ ls') = takers ls ++ takers ls' :=
  filterMap_append

theorem acquirers_append (ls ls' : List (TicketEvent τ)) : acquirers (ls ++ ls') = acquirers ls ++ acquirers ls' :=
  filterMap_append

/-- After the events `ls` the callers in `q` wait for the lock or hold it. Those that wait are the ones that took a ticket
and did not get the lock yet. -/
structure LockHistory (ls : List (TicketEvent τ)) (c : Config τ TicketPc Ticketlock) (q : List τ) : Prop where
  queued : Queued c.shared (fun t => (c.loc t).place) q
  order : takers ls = acquirers ls ++ q.filter fun t => c.loc t ≠ .held

variable [DecidableEq τ]

theorem place_update (loc : τ → TicketPc) (t : τ) (pc : TicketPc) :
    (fun u => (update loc t pc u).place) = update (fun u => (loc u).place) t pc.place := by
  funext u
  by_cases hu : u = t
  · simp [hu]
  · simp [hu]

variable {q : List τ}

theorem filter_update_of_notMem (loc : τ → TicketPc) {t : τ} (pc : TicketPc) (h : t ∉ q) :
    (q.filter fun u => update loc t pc u ≠ .held) = q.filter fun u => loc u ≠ .held := by
  refine filter_congr fun u hu => ?_
  have hne : u ≠ t := by
    rintro rfl
    exact h hu
  rw [update_of_ne hne]

section

variable {ls : List (TicketEvent τ)} {c c' : Config τ TicketPc Ticketlock} {q : List τ} {t : τ}

variable {a : TicketEvent τ}

theorem LockHistory.quiet (h : LockHistory ls c q) {pc : TicketPc}
    (hplace : pc.place = (c.loc t).place) (hheld : pc ≠ .held) (hheld' : c.loc t ≠ .held)
    (htake : takers [a] = []) (hacquire : acquirers [a] = []) :
    LockHistory (ls ++ [a]) ⟨update c.loc t pc, c.shared⟩ q := by
  refine ⟨?_, ?_⟩
  · rw [place_update, hplace, update_eq_self_iff.mpr rfl]
    exact h.queued
  · have hfilter : (q.filter fun u => update c.loc t pc u ≠ .held) = q.filter fun u => c.loc u ≠ .held := by
      refine filter_congr fun u _ => ?_
      by_cases hu : u = t
      · simp [hu, hheld, hheld']
      · rw [update_of_ne hu]
    rw [takers_append, acquirers_append, htake, hacquire, append_nil, append_nil, h.order, hfilter]

/-- **A step keeps the history**, as long as there are fewer than `2 ^ 32` callers in the queue. -/
theorem LockHistory.step (h : LockHistory ls c q) (hq : q.length < 2 ^ 32)
    (hs : Interleave TicketStep c a c') : ∃ q', LockHistory (ls ++ [a]) c' q' := by
  cases hs with
  | @of t _ l' s' hs =>
  generalize hpc : c.loc t = pc at hs
  have hqueued := h.queued
  cases hs with
  | take =>
    have hout : (c.loc t).place = .out := by rw [hpc]; rfl
    have hnot : t ∉ q := fun hmem => (hqueued.mem t).mp hmem hout
    refine ⟨q ++ [t], ?_, ?_⟩
    · rw [place_update]
      exact hqueued.take hout
    · rw [takers_append, acquirers_append, h.order, filter_append, filter_update_of_notMem c.loc _ hnot]
      simp [takers, acquirers]
  | spin hne => exact ⟨q, h.quiet (by rw [hpc]) (by simp) (by simp [hpc]) rfl rfl⟩
  | users => exact ⟨q, h.quiet (by rw [hpc]; rfl) (by simp) (by simp [hpc]) rfl rfl⟩
  | tryFail hnone => exact ⟨q, h.quiet (by rw [hpc]; rfl) (by simp) (by simp [hpc]) rfl rfl⟩
  | acquire heq =>
    have hwait : (c.loc t).place = .waiting c.shared.ticket := by rw [hpc, heq]; rfl
    obtain ⟨q', rfl⟩ := head?_eq_some_iff.mp (hqueued.head_of_shown hq hwait)
    have hnot : t ∉ q' := (nodup_cons.mp hqueued.nodup).1
    refine ⟨t :: q', ?_, ?_⟩
    · rw [place_update]
      exact hqueued.enter hq hwait
    · rw [takers_append, acquirers_append, h.order]
      simpa [takers, acquirers, hpc] using (filter_update_of_notMem c.loc .held hnot).symm
  | tryOk hsome =>
    rw [ticketTrylock_eq, ite_none_right_eq_some, some.injEq] at hsome
    obtain ⟨⟨hu, ht⟩, rfl⟩ := hsome
    have hfree : c.shared.users = c.shared.ticket := hu.trans ht.symm
    obtain rfl := hqueued.eq_nil hq hfree
    refine ⟨[t], ?_, ?_⟩
    · rw [place_update]
      exact hqueued.tryTake hq hfree
    · rw [takers_append, acquirers_append, h.order]
      simp [takers, acquirers]
  | release =>
    have hheld : (c.loc t).place = .holding := by rw [hpc]; rfl
    obtain ⟨q', rfl⟩ := head?_eq_some_iff.mp (hqueued.head t hheld)
    have hnot : t ∉ q' := (nodup_cons.mp hqueued.nodup).1
    refine ⟨q', ?_, ?_⟩
    · rw [place_update]
      exact hqueued.leave hheld
    · rw [takers_append, acquirers_append, h.order]
      simpa [takers, acquirers, hpc] using (filter_update_of_notMem c.loc .out hnot).symm

end

/-! ## Runs -/

/-- Fewer than `2 ^ 32` callers are in a call or hold the lock. -/
def FewCallers (c : Config τ TicketPc Ticketlock) (_ : TicketEvent τ) : Prop :=
  ({t | c.loc t ≠ .out} : Set τ).encard < 2 ^ 32

variable {c : Config τ TicketPc Ticketlock}

omit [DecidableEq τ] in
theorem LockHistory.length_lt {ls : List (TicketEvent τ)}
    {a : TicketEvent τ} (h : LockHistory ls c q) (hfew : FewCallers c a) : q.length < 2 ^ 32 := by
  classical
  have hsub : (q.toFinset : Set τ) ⊆ {t | c.loc t ≠ .out} := by
    intro t ht
    have hplace := (h.queued.mem t).mp (by simpa using ht)
    rintro hout
    simp [hout, TicketPc.place] at hplace
  have hle := (Set.encard_le_encard hsub).trans_lt hfew
  rw [Set.encard_coe_eq_coe_finsetCard, toFinset_card_of_nodup h.queued.nodup] at hle
  exact_mod_cast hle

structure TicketInit (c : Config τ TicketPc Ticketlock) : Prop where
  out : ∀ t, c.loc t = .out
  free : c.shared.users = c.shared.ticket

omit [DecidableEq τ] in
theorem TicketInit.history (h : TicketInit c) : LockHistory [] c [] := by
  refine ⟨?_, rfl⟩
  have hplace : (fun t => (c.loc t).place) = fun _ => .out := by
    funext t
    rw [h.out t]
    rfl
  rw [hplace]
  exact queued_nil h.free

/-- One caller at a time holds the lock. Callers of `ticket_lock` get it in the order in which they took their tickets.
A `ticket_trylock` that fails leaves the lock as it was, and one that succeeds finds nobody who holds the lock or waits
for it. -/
theorem ticketLock_fair {c₀ c : Config τ TicketPc Ticketlock} {ls : List (TicketEvent τ)} (hinit : TicketInit c₀)
    (hrun : Run (Guarded (Interleave TicketStep) FewCallers) c₀ ls c) :
    (∀ t u, c.loc t = .held → c.loc u = .held → t = u) ∧ acquirers ls <+: takers ls ∧
      ∀ a c', Guarded (Interleave TicketStep) FewCallers c a c' → ∀ t, (a = .tryFail t → c'.shared = c.shared) ∧
          (a = .tryOk t → ∀ u, c.loc u ≠ .held ∧ ∀ me, c.loc u ≠ .spin me) := by
  obtain ⟨q, h⟩ : ∃ q, LockHistory ls c q := by
    refine hrun.history (I := fun ls c => ∃ q, LockHistory ls c q) ?_ ⟨[], hinit.history⟩
    rintro ls c a c' ⟨q, h⟩ ⟨hfew, hs⟩
    exact h.step (h.length_lt hfew) hs
  refine ⟨?_, ?_, ?_⟩
  · intro t u ht hu
    exact h.queued.holder_unique (by rw [ht]; rfl) (by rw [hu]; rfl)
  · rw [h.order]
    exact prefix_append ..
  · rintro a c' ⟨hfew, hs⟩ t
    cases hs with
    | @of u _ l' s' hs =>
    generalize hpc : c.loc u = pc at hs
    constructor
    · rintro rfl
      cases hs
      rfl
    · rintro rfl v
      cases hs with
      | tryOk hsome =>
        rw [ticketTrylock_eq, ite_none_right_eq_some, some.injEq] at hsome
        obtain rfl := h.queued.eq_nil (h.length_lt hfew) (hsome.1.1.trans hsome.1.2.symm)
        have hout : (c.loc v).place = .out := by
          by_contra hne
          simpa using (h.queued.mem v).mpr hne
        constructor
        · intro hheld
          simp [hheld, TicketPc.place] at hout
        · intro me hspin
          simp [hspin, TicketPc.place] at hout

/-- Caller `0` takes the lock, caller `1` waits for it, and gets it; the counters wrap around. -/
theorem ticketLock_fair_two :
    let c : Config (Fin 2) TicketPc Ticketlock := ⟨fun t => if t = 0 then .out else .held, ⟨0, 1⟩⟩
    (∀ t u, c.loc t = .held → c.loc u = .held → t = u) ∧
      acquirers [.take (0 : Fin 2), .take 1, .acquire 0, .release 0, .acquire 1] <+:
        takers [.take (0 : Fin 2), .take 1, .acquire 0, .release 0, .acquire 1] ∧
      ∀ a c', Guarded (Interleave TicketStep) FewCallers c a c' →
        ∀ t, (a = .tryFail t → c'.shared = c.shared) ∧
          (a = .tryOk t → ∀ u, c.loc u ≠ .held ∧ ∀ me, c.loc u ≠ .spin me) := by
  intro c
  have hfew : ∀ (c : Config (Fin 2) TicketPc Ticketlock) a, FewCallers c a := fun c a =>
    lt_of_le_of_lt (Set.encard_le_encard (Set.subset_univ _)) (by rw [Set.encard_univ]; norm_num)
  have hstep : ∀ {c c' : Config (Fin 2) TicketPc Ticketlock} {a} (t : Fin 2) {l' s'},
      TicketStep t (c.loc t) c.shared a l' s' → c' = ⟨update c.loc t l', s'⟩ →
      Guarded (Interleave TicketStep) FewCallers c a c' := fun {c _ a} t _ _ h hc => ⟨hfew c a, hc ▸ .of t h⟩
  have hinit : TicketInit (⟨fun _ => .out, ⟨-1, -1⟩⟩ : Config (Fin 2) TicketPc Ticketlock) := ⟨fun _ => rfl, rfl⟩
  refine ticketLock_fair hinit ?_
  refine .cons (hstep 0 (.take _) rfl) (.cons (hstep 1 (.take _) rfl) (.cons (hstep 0 (.acquire rfl) rfl)
    (.cons (hstep 0 (.release _) rfl) (.cons (hstep 1 (.acquire rfl) ?_) (.nil _)))))
  rw [Config.mk.injEq]
  exact ⟨funext (by decide), by decide⟩

end SgxLkl
