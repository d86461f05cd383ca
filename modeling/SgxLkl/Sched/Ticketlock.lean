import SgxLkl.Lib.TicketLock
import SgxLkl.Lib.Bits

/-!
# The ticket lock (`enclave/ticketlock.h`)

The atomic accesses of `ticket_lock`, `ticket_unlock` and `ticket_trylock`. The struct is a union of
the two counters with one 64-bit word, `ticket` in its low half; `ticket_trylock` compares and
exchanges the whole word.
-/

namespace SgxLkl

open TicketLock BitVec

abbrev Ticketlock := Lock 32

/-- The view `u` of the union. -/
def ticketU (t : Ticketlock) : Word := t.users ++ t.ticket

/-- The lock whose view is `u`. -/
def ofTicketU (u : Word) : Ticketlock := ⟨u.extractLsb' 0 32, u.extractLsb' 32 32⟩

/-- `atomic_fetch_add(&t->s.users, 1)`, the first access of `ticket_lock`. -/
def takeTicket (t : Ticketlock) : BitVec 32 × Ticketlock :=
  (t.users, { t with users := t.users + 1 })

def ticketUnlock (t : Ticketlock) : Ticketlock := { t with ticket := t.ticket + 1 }

/-- The compare-exchange of `ticket_trylock` after it has read `me` from `users`; `none` is
failure. -/
def ticketTrylock (me : BitVec 32) (t : Ticketlock) : Option Ticketlock :=
  let menew := me + 1
  let expected := (me.setWidth 64 <<< 32) + me.setWidth 64
  let desired := (menew.setWidth 64 <<< 32) + me.setWidth 64
  if ticketU t = expected then some (ofTicketU desired) else none

theorem toNat_ticketU (t : Ticketlock) : (ticketU t).toNat = t.users.toNat * 2 ^ 32 + t.ticket.toNat := by
  have happend : (ticketU t).toNat = t.users.toNat <<< 32 ||| t.ticket.toNat :=
    toNat_append ..
  rw [happend, ← Nat.shiftLeft_add_eq_or_of_lt t.ticket.isLt, Nat.shiftLeft_eq]

theorem toNat_halves (hi lo : BitVec 32) :
    ((hi.setWidth 64 <<< 32) + lo.setWidth 64 : Word).toNat = hi.toNat * 2 ^ 32 + lo.toNat := by
  have hhi := hi.isLt
  have hlo := lo.isLt
  simp only [toNat_add, toNat_shiftLeft, toNat_setWidth, Nat.shiftLeft_eq]
  omega

theorem ticketU_eq_iff (t : Ticketlock) (hi lo : BitVec 32) :
    ticketU t = (hi.setWidth 64 <<< 32) + lo.setWidth 64 ↔ t.users = hi ∧ t.ticket = lo := by
  rw [← toNat_inj, toNat_ticketU, toNat_halves, ← toNat_inj, ← toNat_inj]
  have := t.ticket.isLt
  have := lo.isLt
  omega

theorem ofTicketU_ticketU (t : Ticketlock) : ofTicketU (ticketU t) = t := by
  have hu : (ticketU t).extractLsb' 32 32 = t.users := extractLsb'_append_eq_left
  have ht : (ticketU t).extractLsb' 0 32 = t.ticket := extractLsb'_append_eq_right
  rw [ofTicketU, hu, ht]

/-- **The exchange succeeds exactly on an unused lock** whose counters show `me`. -/
theorem ticketTrylock_eq (me : BitVec 32) (t : Ticketlock) : ticketTrylock me t =
      if t.users = me ∧ t.ticket = me then some { t with users := t.users + 1 } else none := by
  have hdesired : ofTicketU (((me + 1).setWidth 64 <<< 32) + me.setWidth 64) = ⟨me, me + 1⟩ := by
    rw [← (ticketU_eq_iff ⟨me, me + 1⟩ (me + 1) me).mpr ⟨rfl, rfl⟩, ofTicketU_ticketU]
  simp only [ticketTrylock, ticketU_eq_iff, hdesired]
  split_ifs with h
  · obtain ⟨hu, ht⟩ := h
    rw [hu, ← ht]
  · rfl

theorem move_ticketTrylock {me : BitVec 32} {t t' : Ticketlock}
    (h : ticketTrylock me t = some t') : Move t .out t' .holding := by
  rw [ticketTrylock_eq, Option.ite_none_right_eq_some, Option.some.injEq] at h
  obtain ⟨⟨hu, ht⟩, rfl⟩ := h
  exact .tryTake t (hu.trans ht.symm)

end SgxLkl
