import Mathlib

/-!
# Ticket locks

A ticket lock of width `w`: a caller takes the number `users` and increments it, waits until
`ticket` shows its number, and increments `ticket` to leave. Both counters wrap around.

* **`Queued.move`**: with fewer than `2 ^ w` callers in the queue, every step keeps such a queue.
* **`Queued.holder_unique`**: at most one caller holds the lock.
-/

namespace SgxLkl

open List Function

namespace TicketLock

structure Lock (w : ℕ) where
  ticket : BitVec w
  users : BitVec w
  deriving DecidableEq

inductive Place (w : ℕ)
  | out
  | waiting (me : BitVec w)
  | holding
  deriving DecidableEq

variable {w : ℕ}

/-- An atomic step of one caller. A lock that nobody uses can also be taken in one step. -/
inductive Move : Lock w → Place w → Lock w → Place w → Prop
  | stay (l : Lock w) (p : Place w) : Move l p l p
  | take (l : Lock w) : Move l .out { l with users := l.users + 1 } (.waiting l.users)
  | enter (l : Lock w) : Move l (.waiting l.ticket) l .holding
  | leave (l : Lock w) : Move l .holding { l with ticket := l.ticket + 1 } .out
  | tryTake (l : Lock w) (h : l.users = l.ticket) :
      Move l .out { l with users := l.users + 1 } .holding

variable {ι : Type*}

/-- The callers that wait for the lock or hold it, in the order of their numbers. -/
structure Queued (l : Lock w) (place : ι → Place w) (q : List ι) : Prop where
  nodup : q.Nodup
  mem : ∀ i, i ∈ q ↔ place i ≠ .out
  users : l.users = l.ticket + BitVec.ofNat w q.length
  number : ∀ k i me, q[k]? = some i → place i = .waiting me → me = l.ticket + BitVec.ofNat w k
  head : ∀ i, place i = .holding → q.head? = some i

theorem queued_nil {l : Lock w} (h : l.users = l.ticket) : Queued (ι := ι) l (fun _ => .out) [] where
  nodup := .nil
  mem := by simp
  users := by simp [h]
  number := by simp
  head := by simp

namespace Queued

variable {l l' : Lock w} {place : ι → Place w} {q : List ι} {i j : ι} {p' : Place w}

/-- **Mutual exclusion.** -/
theorem holder_unique (h : Queued l place q) (hi : place i = .holding) (hj : place j = .holding) : i = j :=
  Option.some.inj ((h.head i hi).symm.trans (h.head j hj))

theorem ofNat_eq_zero_of_add {t : BitVec w} {k : ℕ} (hk : k < 2 ^ w) (h : t = t + BitVec.ofNat w k) : k = 0 := by
  have h0 : BitVec.ofNat w k = 0 := by
    have := congrArg (· - t) h
    simpa [BitVec.add_comm t] using this.symm
  have := congrArg BitVec.toNat h0
  simpa [Nat.mod_eq_of_lt hk] using this

theorem length_lt [Fintype ι] (h : Queued l place q) (hι : Fintype.card ι < 2 ^ w) : q.length < 2 ^ w :=
  h.nodup.length_le_card.trans_lt hι

theorem head_of_shown (h : Queued l place q) (hq : q.length < 2 ^ w)
    (hi : place i = .waiting l.ticket) : q.head? = some i := by
  have hmem : i ∈ q := (h.mem i).mpr (by simp [hi])
  obtain ⟨k, hk⟩ := List.mem_iff_getElem?.mp hmem
  obtain ⟨hlt, -⟩ := List.getElem?_eq_some_iff.mp hk
  have hzero : k = 0 :=
    ofNat_eq_zero_of_add (hlt.trans hq) (h.number k i l.ticket hk hi)
  rw [List.head?_eq_getElem?, ← hzero, hk]

theorem eq_nil (h : Queued l place q) (hq : q.length < 2 ^ w) (heq : l.users = l.ticket) : q = [] :=
  length_eq_zero_iff.mp (ofNat_eq_zero_of_add hq (heq ▸ h.users))

variable [DecidableEq ι]

variable (h : Queued l place q)

include h

theorem take (hi : place i = .out) :
    Queued { l with users := l.users + 1 } (update place i (.waiting l.users))
      (q ++ [i]) := by
  have hiq : i ∉ q := fun hmem => (h.mem i).mp hmem hi
  refine ⟨?_, fun j => ?_, ?_, fun k j me hk hj => ?_, fun j hj => ?_⟩
  · exact h.nodup.append (nodup_singleton i) (by simpa using hiq)
  · by_cases hji : j = i
    · simp [hji]
    · simp [hji, h.mem j]
  · simp [h.users, BitVec.ofNat_add, BitVec.add_assoc]
  · by_cases hji : j = i
    · subst hji
      -- the new caller is the last one
      have hlen : k = q.length := by
        by_contra hne
        have hlt : k < q.length := by
          have := (List.getElem?_eq_some_iff.mp hk).1
          rw [List.length_append, List.length_singleton] at this
          omega
        rw [List.getElem?_append_left hlt] at hk
        exact hiq (mem_of_getElem? hk)
      rw [update_self, Place.waiting.injEq] at hj
      rw [← hj, h.users, hlen]
    · rw [update_of_ne hji] at hj
      refine h.number k j me ?_ hj
      have hlt : k < q.length := by
        by_contra hge
        rw [getElem?_append_right (by omega)] at hk
        exact hji (by simpa using mem_of_getElem? hk)
      rwa [getElem?_append_left hlt] at hk
  · have hji : j ≠ i := by
      rintro rfl
      simp at hj
    rw [update_of_ne hji] at hj
    simp [h.head j hj]

theorem enter (hq : q.length < 2 ^ w)
    (hi : place i = .waiting l.ticket) : Queued l (update place i .holding) q := by
  have hhead := h.head_of_shown hq hi
  refine ⟨h.nodup, fun j => ?_, h.users, fun k j me hk hj => ?_, fun j hj => ?_⟩
  · by_cases hji : j = i
    · subst hji
      simpa using mem_of_head? hhead
    · simp [hji, h.mem j]
  · have hji : j ≠ i := by
      rintro rfl
      simp at hj
    exact h.number k j me hk (by rwa [update_of_ne hji] at hj)
  · by_cases hji : j = i
    · rwa [hji]
    · exact h.head j (by rwa [update_of_ne hji] at hj)

theorem leave (hi : place i = .holding) :
    Queued { l with ticket := l.ticket + 1 } (update place i .out) q.tail := by
  obtain ⟨q', rfl⟩ := head?_eq_some_iff.mp (h.head i hi)
  obtain ⟨hiq, hnodup⟩ := nodup_cons.mp h.nodup
  have hshift : ∀ k, l.ticket + BitVec.ofNat w (k + 1) = l.ticket + 1 + BitVec.ofNat w k := by
    intro k
    rw [Nat.add_comm, BitVec.ofNat_add, BitVec.add_assoc]
    rfl
  refine ⟨hnodup, fun j => ?_, ?_, fun k j me hk hj => ?_, fun j hj => ?_⟩
  · by_cases hji : j = i
    · simpa [hji] using hiq
    · simpa [hji] using h.mem j
  · rw [h.users, length_cons, hshift]
    rfl
  · have hji : j ≠ i := fun hji => hiq (hji ▸ mem_of_getElem? hk)
    rw [update_of_ne hji] at hj
    rw [h.number (k + 1) j me (by simpa using hk) hj, hshift]
  · have hji : j ≠ i := by
      rintro rfl
      simp at hj
    exact absurd (h.holder_unique (by rwa [update_of_ne hji] at hj) hi) hji

theorem tryTake (hq : q.length < 2 ^ w) (heq : l.users = l.ticket) :
    Queued { l with users := l.users + 1 } (update place i .holding) [i] := by
  obtain rfl := h.eq_nil hq heq
  have hout : ∀ j, place j = .out := fun j => not_not.mp fun hj => by simpa using (h.mem j).mpr hj
  refine ⟨nodup_singleton i, fun j => ?_, ?_, fun k j me hk hj => ?_, fun j hj => ?_⟩
  · by_cases hji : j = i
    · simp [hji]
    · simp [hji, hout j]
  · simp [heq]
  · by_cases hji : j = i
    · simp [hji] at hj
    · simp [hji, hout j] at hj
  · by_cases hji : j = i
    · simp [hji]
    · simp [hji, hout j] at hj

/-- **Every step of a caller keeps a queue.** -/
theorem move (hq : q.length < 2 ^ w)
    (hm : Move l (place i) l' p') : ∃ q', Queued l' (update place i p') q' := by
  generalize hp : place i = p at hm
  cases hm with
  | stay => exact ⟨q, by rwa [← hp, update_eq_self]⟩
  | take => exact ⟨_, h.take hp⟩
  | enter => exact ⟨_, h.enter hq hp⟩
  | leave => exact ⟨_, h.leave hp⟩
  | tryTake heq => exact ⟨_, h.tryTake hq heq⟩

end Queued

end TicketLock

end SgxLkl
