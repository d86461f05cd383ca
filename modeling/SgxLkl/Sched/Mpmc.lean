import SgxLkl.Lib.Bits
import SgxLkl.Lib.Interleave
import SgxLkl.Lib.SeqRing

/-!
# The run queue (`enclave/mpmc_queue.c`)

Any number of threads call `mpmc_enqueue` and `mpmc_dequeue`. A step is one atomic access. The exchanges are weak: they
may fail for no reason.

* **`mpmcq_correct`**: items leave in the order of their positions, each once, and cells are not shared.
-/

namespace SgxLkl

open List Function Option Prod

variable {τ α : Type*}

/-! ## The code -/

/-- `struct mpmcq` with its buffer. -/
structure Mpmcq (α : Type*) where
  bufferMask : Word
  seq : ℕ → Word
  data : ℕ → Option α
  enqueuePos : Word
  dequeuePos : Word

namespace Mpmcq

def cell (q : Mpmcq α) (pos : Word) : ℕ := (pos &&& q.bufferMask).toNat

def capacity (q : Mpmcq α) : ℕ := q.bufferMask.toNat + 1

end Mpmcq

/-- `newmpmcq` for a buffer of `bufferSize` bytes, which holds `data`; `none` if the assertion fails. A cell has 16
bytes. -/
def newmpmcq (bufferSize : Word) (data : ℕ → Option α) : Option (Mpmcq α) :=
  let size := bufferSize / 16
  if 2 ≤ size ∧ size &&& (size - 1) = 0 then some ⟨size - 1, fun i => BitVec.ofNat 64 i, data, 0, 0⟩ else none

inductive MpmcPc (α : Type*)
  | idle
  /-- In `mpmc_enqueue`, at a load of `enqueue_pos`. -/
  | enqLoad (x : α)
  /-- At the load of the number of the cell. -/
  | enqSeq (x : α) (pos : Word)
  | enqExchange (x : α) (pos : Word)
  /-- The position is claimed. -/
  | enqWrite (x : α) (pos : Word)
  | enqPublish (pos : Word)
  /-- In `mpmc_dequeue`, at a load of `dequeue_pos`. -/
  | deqLoad
  | deqSeq (pos : Word)
  | deqExchange (pos : Word)
  /-- The position is claimed. -/
  | deqRead (pos : Word)
  | deqRelease (pos : Word)

inductive MpmcEvent (τ α : Type*)
  | tau
  /-- `t` has claimed `pos` for the item `x`. -/
  | claim (t : τ) (x : α) (pos : Word)
  /-- `t` has claimed `pos` to take an item out. -/
  | take (t : τ) (pos : Word)
  /-- `t` has read the item at `pos`. -/
  | read (t : τ) (pos : Word) (x : Option α)

def enqBranch (x : α) (pos seq : Word) : MpmcPc α :=
  let dif := seq - pos
  if dif = 0 then .enqExchange x pos else if dif.slt 0 then .idle else .enqLoad x

def deqBranch (pos seq : Word) : MpmcPc α :=
  let dif := seq - (pos + 1)
  if dif = 0 then .deqExchange pos else if dif.slt 0 then .idle else .deqLoad

inductive MpmcStep (t : τ) : MpmcPc α → Mpmcq α → MpmcEvent τ α → MpmcPc α → Mpmcq α → Prop
  | enqueue (q : Mpmcq α) (x : α) : MpmcStep t .idle q .tau (.enqLoad x) q
  | enqLoad {q : Mpmcq α} {x : α} : MpmcStep t (.enqLoad x) q .tau (.enqSeq x q.enqueuePos) q
  | enqSeq {q : Mpmcq α} {x : α} {pos : Word} :
      MpmcStep t (.enqSeq x pos) q .tau (enqBranch x pos (q.seq (q.cell pos))) q
  | enqFail {q : Mpmcq α} {x : α} {pos : Word} : MpmcStep t (.enqExchange x pos) q .tau (.enqSeq x pos) q
  | enqExchange {q : Mpmcq α} {x : α} {pos : Word} (h : q.enqueuePos = pos) :
      MpmcStep t (.enqExchange x pos) q (.claim t x pos) (.enqWrite x pos) { q with enqueuePos := pos + 1 }
  | enqWrite {q : Mpmcq α} {x : α} {pos : Word} :
      MpmcStep t (.enqWrite x pos) q .tau (.enqPublish pos)
        { q with data := Function.update q.data (q.cell pos) (some x) }
  | enqPublish {q : Mpmcq α} {pos : Word} :
      MpmcStep t (.enqPublish pos) q .tau .idle { q with seq := Function.update q.seq (q.cell pos) (pos + 1) }
  | dequeue (q : Mpmcq α) : MpmcStep t .idle q .tau .deqLoad q
  | deqLoad {q : Mpmcq α} : MpmcStep t .deqLoad q .tau (.deqSeq q.dequeuePos) q
  | deqSeq {q : Mpmcq α} {pos : Word} :
      MpmcStep t (.deqSeq pos) q .tau (deqBranch pos (q.seq (q.cell pos))) q
  | deqFail {q : Mpmcq α} {pos : Word} : MpmcStep t (.deqExchange pos) q .tau (.deqSeq pos) q
  | deqExchange {q : Mpmcq α} {pos : Word} (h : q.dequeuePos = pos) :
      MpmcStep t (.deqExchange pos) q (.take t pos) (.deqRead pos) { q with dequeuePos := pos + 1 }
  | deqRead {q : Mpmcq α} {pos : Word} :
      MpmcStep t (.deqRead pos) q (.read t pos (q.data (q.cell pos))) (.deqRelease pos) q
  | deqRelease {q : Mpmcq α} {pos : Word} :
      MpmcStep t (.deqRelease pos) q .tau .idle
        { q with seq := Function.update q.seq (q.cell pos) (pos + q.bufferMask + 1) }

/-! ## Histories -/

/-- The items of the producers, with their positions, in the order of the claims. -/
def claims (ls : List (MpmcEvent τ α)) : List (Word × α) :=
  ls.filterMap fun
    | .claim _ x pos => some (pos, x)
    | _ => none

/-- The positions of the consumers, in the order of their claims. -/
def takes (ls : List (MpmcEvent τ α)) : List Word :=
  ls.filterMap fun
    | .take _ pos => some pos
    | _ => none

def reads (ls : List (MpmcEvent τ α)) : List (Word × Option α) :=
  ls.filterMap fun
    | .read _ pos x => some (pos, x)
    | _ => none

structure MpmcHistory (α : Type*) where
  claims : List (Word × α)
  takes : List Word
  reads : List (Word × Option α)

def MpmcHistory.items (hist : MpmcHistory α) : List α := hist.claims.map snd

def history (ls : List (MpmcEvent τ α)) : MpmcHistory α := ⟨claims ls, takes ls, reads ls⟩

def MpmcHistory.add (hist : MpmcHistory α) : MpmcEvent τ α → MpmcHistory α
  | .tau => hist
  | .claim _ x pos => { hist with claims := hist.claims ++ [(pos, x)] }
  | .take _ pos => { hist with takes := hist.takes ++ [pos] }
  | .read _ pos x => { hist with reads := hist.reads ++ [(pos, x)] }

theorem history_append (ls : List (MpmcEvent τ α)) (a : MpmcEvent τ α) :
    history (ls ++ [a]) = (history ls).add a := by
  cases a <;> simp [history, MpmcHistory.add, claims, takes, reads]

/-- The cell that a thread writes or reads. -/
def MpmcPc.owned (q : Mpmcq α) : MpmcPc α → Option ℕ
  | .enqWrite _ pos | .enqPublish pos | .deqRead pos | .deqRelease pos => some (q.cell pos)
  | _ => none

/-! ## The ring -/

/-- The queue with numbers that do not wrap around. -/
def Mpmcq.ring (q : Mpmcq α) : Ring α where
  size := q.capacity
  enq := q.enqueuePos.toNat
  deq := q.dequeuePos.toNat
  seq := fun i => (q.seq i).toNat
  data := q.data

theorem toNat_and_mask {mask : Word} {k : ℕ} (hk : mask.toNat + 1 = 2 ^ k) (pos : Word) :
    (pos &&& mask).toNat = pos.toNat % (mask.toNat + 1) := by
  have hmask : mask.toNat = 2 ^ k - 1 := by omega
  rw [BitVec.toNat_and, hk, hmask, Nat.and_two_pow_sub_one_eq_mod]

/-- What holds of the queue, with the phases `ph` of all positions. -/
structure MpmcGood (n : ℕ) (hist : MpmcHistory α) (ph : ℕ → Phase τ) (q : Mpmcq α) : Prop where
  capacity : q.capacity = n
  pow : ∃ k, n = 2 ^ k
  good : q.ring.Good ph hist.items
  deq : q.dequeuePos.toNat = hist.takes.length
  claims : hist.claims.map (·.1.toNat) = range hist.claims.length
  takes : hist.takes.map BitVec.toNat = range hist.takes.length
  reads : ∀ r ∈ hist.reads, (ph r.1.toNat).Taken ∧ r.2 = hist.items[r.1.toNat]?
  nodup : (hist.reads.map fst).Nodup

/-- What holds of the thread `t`. -/
def MpmcLocal (n : ℕ) (hist : MpmcHistory α) (ph : ℕ → Phase τ) (t : τ) (pc : MpmcPc α) (q : Mpmcq α) : Prop :=
  match pc with
  | .enqExchange _ pos => Ring.Ready n ph pos.toNat
  | .enqWrite x pos => ph pos.toNat = .writing t ∧ hist.items[pos.toNat]? = some x
  | .enqPublish pos => ph pos.toNat = .writing t ∧ q.data (q.cell pos) = hist.items[pos.toNat]?
  | .deqSeq pos => pos.toNat < 2 ^ 63
  | .deqExchange pos => pos.toNat < 2 ^ 63 ∧ ((ph pos.toNat).Filled ∨ (ph pos.toNat).Taken)
  | .deqRead pos => ph pos.toNat = .reading t ∧ pos ∉ hist.reads.map fst
  | .deqRelease pos => ph pos.toNat = .reading t
  | _ => True

/-- What a step of `t` leaves to the other threads. -/
structure Keeps (t : τ) (hist hist' : MpmcHistory α) (ph ph' : ℕ → Phase τ) (q q' : Mpmcq α) : Prop where
  done : ∀ p, ph p = .done → ph' p = .done
  avail : ∀ p, (ph p).Filled ∨ (ph p).Taken → (ph' p).Filled ∨ (ph' p).Taken
  writing : ∀ p u, u ≠ t → ph p = .writing u → ph' p = .writing u
  reading : ∀ p u, u ≠ t → ph p = .reading u → ph' p = .reading u
  items : ∀ p u, ph p = .writing u → hist'.items[p]? = hist.items[p]?
  mask : q'.bufferMask = q.bufferMask
  data : ∀ pos u, u ≠ t → ph pos.toNat = .writing u → q'.data (q.cell pos) = q.data (q.cell pos)
  reads : ∀ pos u, u ≠ t → ph pos.toNat = .reading u → pos ∈ hist'.reads.map fst → pos ∈ hist.reads.map fst

section

variable {n : ℕ} {hist hist' : MpmcHistory α} {ph ph' : ℕ → Phase τ} {q q' : Mpmcq α} {t u : τ} {pc : MpmcPc α}
  {pos : Word} {x : α}

theorem Keeps.local (h : Keeps t hist hist' ph ph' q q') (hu : u ≠ t) (hP : MpmcLocal n hist ph u pc q) :
    MpmcLocal n hist' ph' u pc q' := by
  have hcell : ∀ pos, q'.cell pos = q.cell pos := fun pos => by rw [Mpmcq.cell, h.mask, Mpmcq.cell]
  cases pc with
  | enqExchange x pos => exact Ring.Ready.mono hP h.done
  | enqWrite x pos => exact ⟨h.writing _ u hu hP.1, (h.items _ u hP.1).trans hP.2⟩
  | enqPublish pos =>
    refine ⟨h.writing _ u hu hP.1, ?_⟩
    rw [hcell, h.data pos u hu hP.1, hP.2, h.items _ u hP.1]
  | deqSeq pos => exact hP
  | deqExchange pos => exact ⟨hP.1, h.avail _ hP.2⟩
  | deqRead pos => exact ⟨h.reading _ u hu hP.1, fun hmem => hP.2 (h.reads pos u hu hP.1 hmem)⟩
  | deqRelease pos => exact h.reading _ u hu hP
  | _ => trivial

/-- How the phase of a position goes on when `t` acts. -/
inductive Phase.Next (t : τ) : Phase τ → Phase τ → Prop
  | claim : Next t .free (.writing t)
  | publish : Next t (.writing t) .full
  | take : Next t .full (.reading t)
  | release : Next t (.reading t) .done

theorem Phase.Next.update {p : ℕ} {y : Phase τ} (hnext : Next t (ph p) y) (k : ℕ) :
    Function.update ph p y k = ph k ∨ Next t (ph k) (Function.update ph p y k) := by
  by_cases hk : k = p
  · exact .inr (by rwa [hk, update_self])
  · exact .inl (update_of_ne hk ..)

theorem Phase.Taken.update {p k : ℕ} {y : Phase τ} (hk : (ph k).Taken) (hnext : Next t (ph p) y) :
    (Function.update ph p y k).Taken := by
  rcases hnext.update k with h | h
  · rwa [h]
  · generalize ph k = x at h hk
    generalize Function.update ph p y k = y at h
    cases h <;> simp_all [Taken]

theorem Keeps.of_next {p : ℕ} {y : Phase τ} (hnext : Phase.Next t (ph p) y)
    (hitems : ∀ p u, ph p = .writing u → hist'.items[p]? = hist.items[p]?) (hmask : q'.bufferMask = q.bufferMask)
    (hdata : q'.data = q.data) (hreads : hist'.reads = hist.reads) :
    Keeps t hist hist' ph (update ph p y) q q' := by
  refine ⟨fun k hk => ?_, fun k hk => ?_, fun k u hu hk => ?_, fun k u hu hk => ?_, hitems, hmask,
    fun _ _ _ _ => by rw [hdata], fun _ _ _ _ hmem => hreads ▸ hmem⟩
  all_goals
    rcases hnext.update k with h | h
    · rwa [h]
    · generalize ph k = x at h hk
      generalize update ph p y k = y at h
      cases h <;> simp_all [Phase.Filled, Phase.Taken]

theorem Keeps.refl : Keeps t hist hist ph ph q q where
  done := fun _ h => h
  avail := fun _ h => h
  writing := fun _ _ _ h => h
  reading := fun _ _ _ h => h
  items := fun _ _ _ => rfl
  mask := rfl
  data := fun _ _ _ _ => rfl
  reads := fun _ _ _ _ h => h

section

variable (h : MpmcGood n hist ph q)

include h

theorem MpmcGood.cell_eq (pos : Word) : q.cell pos = pos.toNat % q.ring.size := by
  obtain ⟨k, hk⟩ := h.pow
  exact toNat_and_mask (h.capacity.trans hk) pos

theorem MpmcGood.enq : q.enqueuePos.toNat = hist.claims.length := by
  have henq := h.good.enq
  rwa [MpmcHistory.items, length_map] at henq

theorem MpmcGood.ring_seq (pos x : Word) : { q with seq := Function.update q.seq (q.cell pos) x }.ring =
    { q.ring with seq := update q.ring.seq (pos.toNat % q.ring.size) x.toNat } := by
  rw [← h.cell_eq]
  simp only [Mpmcq.ring, Ring.mk.injEq, true_and, and_true]
  exact ⟨rfl, funext fun i => by by_cases hi : i = q.cell pos <;> simp [hi]⟩

theorem MpmcGood.reads_next {p : ℕ} {y : Phase τ} (hnext : Phase.Next t (ph p) y) :
    ∀ r ∈ hist.reads, (update ph p y r.1.toNat).Taken ∧ r.2 = hist.items[r.1.toNat]? :=
  fun r hr => (h.reads r hr).imp_left (·.update hnext)

/-! ## Steps -/

theorem MpmcGood.claim (hready : Ring.Ready n ph q.enqueuePos.toNat)
    (hfar : hist.claims.length + 1 < 2 ^ 63) (t : τ) (x : α) :
    let hist' := hist.add (.claim t x q.enqueuePos)
    let ph' := Function.update ph q.enqueuePos.toNat (.writing t)
    let q' := { q with enqueuePos := q.enqueuePos + 1 }
    MpmcGood n hist' ph' q' ∧ MpmcLocal n hist' ph' t (.enqWrite x q.enqueuePos) q' ∧
      Keeps t hist hist' ph ph' q q' := by
  intro hist' ph' q'
  have hitems : hist'.items = hist.items ++ [x] := by simp [hist', MpmcHistory.add, MpmcHistory.items]
  have hlen : hist.items.length = q.enqueuePos.toNat := h.good.enq.symm
  have henq := h.enq
  have hfree : ph q.enqueuePos.toNat = .free := (h.good.free_iff _).mpr le_rfl
  have hlt : ∀ p, ph p ≠ .free → p < hist.items.length := fun p hp => hlen ▸ h.good.lt_enq hp
  have hnext : Phase.Next t (ph q.enqueuePos.toNat) (.writing t) := hfree ▸ .claim
  have hsucc : (q.enqueuePos + 1).toNat = q.enqueuePos.toNat + 1 := by bv_omega
  have hring : q'.ring = { q.ring with enq := q.ring.enq + 1 } := by
    simp only [Mpmcq.ring, q', hsucc]
    rfl
  refine ⟨⟨h.capacity, h.pow, ?_, h.deq, ?_, h.takes, ?_, h.nodup⟩, ?_, .of_next hnext ?_ rfl rfl rfl⟩
  · rw [hring, hitems]
    exact h.good.claim (by rw [show q.ring.size = n from h.capacity]; exact hready) t x
  · simp [hist', MpmcHistory.add, h.claims, range_succ, henq]
  · intro r hr
    obtain ⟨hr, hval⟩ := h.reads r hr
    exact ⟨hr.update hnext, by rw [hval, hitems, getElem?_append_left (hlt _ hr.ne_free)]⟩
  · exact ⟨update_self .., by rw [hitems, ← hlen, getElem?_concat_length]⟩
  · exact fun p u hp => by rw [hitems, getElem?_append_left (hlt p (by simp [hp]))]

theorem MpmcGood.write (hP : MpmcLocal n hist ph t (.enqWrite x pos) q) :
    let q' := { q with data := Function.update q.data (q.cell pos) (some x) }
    MpmcGood n hist ph q' ∧ MpmcLocal n hist ph t (.enqPublish pos) q' ∧ Keeps t hist hist ph ph q q' := by
  intro q'
  obtain ⟨hwriting, hitem⟩ := hP
  have hring : q'.ring = { q.ring with data := update q.ring.data (pos.toNat % q.ring.size) (some x) } := by
    rw [← h.cell_eq]
    rfl
  refine ⟨⟨h.capacity, h.pow, ?_, h.deq, h.claims, h.takes, h.reads, h.nodup⟩, ?_, ?_⟩
  · rw [hring]
    exact h.good.write hwriting (some x)
  · exact ⟨hwriting, (update_self ..).trans hitem.symm⟩
  · refine ⟨fun _ hp => hp, fun _ hp => hp, fun _ _ _ hp => hp, fun _ _ _ hp => hp, fun _ _ _ => rfl, rfl, ?_,
      fun _ _ _ _ hmem => hmem⟩
    intro pos' u hu hp
    refine update_of_ne (fun hcell => hu ?_) ..
    rw [h.cell_eq, h.cell_eq] at hcell
    have hpos := h.good.cell_unique (h.good.active_of_writing hp) (h.good.active_of_writing hwriting) hcell
    rw [hpos, hwriting] at hp
    exact (Phase.writing.inj hp).symm

theorem MpmcGood.publish (hP : MpmcLocal n hist ph t (.enqPublish pos) q)
    (hfar : hist.claims.length < 2 ^ 63) :
    let ph' := Function.update ph pos.toNat .full
    let q' := { q with seq := Function.update q.seq (q.cell pos) (pos + 1) }
    MpmcGood n hist ph' q' ∧ Keeps t hist hist ph ph' q q' := by
  intro ph' q'
  obtain ⟨hwriting, hdata⟩ := hP
  have hlt : pos.toNat < hist.claims.length := h.enq ▸ h.good.lt_enq (by simp [hwriting])
  have hsucc : (pos + 1).toNat = pos.toNat + 1 := by bv_omega
  have hnext : Phase.Next t (ph pos.toNat) .full := hwriting ▸ .publish
  refine ⟨⟨h.capacity, h.pow, ?_, h.deq, h.claims, h.takes, h.reads_next hnext, h.nodup⟩,
    .of_next hnext (fun _ _ _ => rfl) rfl rfl rfl⟩
  · rw [h.ring_seq, hsucc]
    exact h.good.publish hwriting (by rw [← h.cell_eq]; exact hdata)

theorem MpmcGood.take (hP : MpmcLocal n hist ph t (.deqExchange q.dequeuePos) q)
    (hfar : hist.claims.length < 2 ^ 63) :
    let hist' := hist.add (.take t q.dequeuePos)
    let ph' := Function.update ph q.dequeuePos.toNat (.reading t)
    let q' := { q with dequeuePos := q.dequeuePos + 1 }
    MpmcGood n hist' ph' q' ∧ MpmcLocal n hist' ph' t (.deqRead q.dequeuePos) q' ∧
      Keeps t hist hist' ph ph' q q' := by
  intro hist' ph' q'
  have hfull : ph q.dequeuePos.toNat = .full := h.good.full_of_deq hP.2
  have hlt : q.dequeuePos.toNat < hist.claims.length := h.enq ▸ h.good.lt_enq (by simp [hfull])
  have hsucc : (q.dequeuePos + 1).toNat = q.dequeuePos.toNat + 1 := by bv_omega
  have hnext : Phase.Next t (ph q.dequeuePos.toNat) (.reading t) := hfull ▸ .take
  have hring : q'.ring = { q.ring with deq := q.ring.deq + 1 } := by
    simp only [Mpmcq.ring, q', hsucc]
    rfl
  have hdeq := h.deq
  refine ⟨⟨h.capacity, h.pow, ?_, ?_, h.claims, ?_, h.reads_next hnext, h.nodup⟩, ?_,
    .of_next hnext (fun _ _ _ => rfl) rfl rfl rfl⟩
  · rw [hring]
    exact h.good.take hfull t
  · exact hsucc.trans (by simp [hist', MpmcHistory.add, hdeq])
  · simp [hist', MpmcHistory.add, h.takes, range_succ, hdeq]
  · refine ⟨update_self .., fun hmem => ?_⟩
    -- a position that was read was claimed before
    obtain ⟨r, hr, heq⟩ := mem_map.mp hmem
    have htaken := (h.reads r hr).1
    rw [heq, hfull] at htaken
    exact htaken

theorem MpmcGood.read (hP : MpmcLocal n hist ph t (.deqRead pos) q) :
    let hist' := hist.add (.read t pos (q.data (q.cell pos)))
    MpmcGood n hist' ph q ∧ MpmcLocal n hist' ph t (.deqRelease pos) q ∧ Keeps t hist hist' ph ph q q := by
  intro hist'
  obtain ⟨hreading, hnot⟩ := hP
  have hreads : hist'.reads = hist.reads ++ [(pos, q.data (q.cell pos))] := rfl
  refine ⟨⟨h.capacity, h.pow, h.good, h.deq, h.claims, h.takes, ?_, ?_⟩, hreading, ?_⟩
  · intro r hr
    rw [hreads, mem_append, mem_singleton] at hr
    rcases hr with hr | rfl
    · exact h.reads r hr
    · refine ⟨by rw [hreading]; trivial, ?_⟩
      rw [h.cell_eq]
      exact h.good.data _ (by rw [hreading]; trivial)
  · rw [hreads, map_append, map_singleton]
    exact h.nodup.append (nodup_singleton _) (by simpa using hnot)
  · refine ⟨fun _ hp => hp, fun _ hp => hp, fun _ _ _ hp => hp, fun _ _ _ hp => hp, fun _ _ _ => rfl, rfl,
      fun _ _ _ _ => rfl, ?_⟩
    intro pos' u hu hp hmem
    rw [hreads, map_append, map_singleton, mem_append, mem_singleton] at hmem
    refine hmem.resolve_right ?_
    rintro rfl
    rw [hreading] at hp
    exact hu (Phase.reading.inj hp).symm

theorem MpmcGood.release (hP : MpmcLocal n hist ph t (.deqRelease pos) q)
    (hfar : hist.claims.length + n < 2 ^ 63) :
    let ph' := Function.update ph pos.toNat .done
    let q' := { q with seq := Function.update q.seq (q.cell pos) (pos + q.bufferMask + 1) }
    MpmcGood n hist ph' q' ∧ Keeps t hist hist ph ph' q q' := by
  intro ph' q'
  have hreading : ph pos.toNat = .reading t := hP
  have hlt : pos.toNat < hist.claims.length := h.enq ▸ h.good.lt_enq (by simp [hreading])
  have hcap := h.capacity
  rw [Mpmcq.capacity] at hcap
  have hround : (pos + q.bufferMask + 1).toNat = pos.toNat + q.ring.size := by
    have hsize : q.ring.size = q.bufferMask.toNat + 1 := rfl
    rw [hsize]
    bv_omega
  have hnext : Phase.Next t (ph pos.toNat) .done := hreading ▸ .release
  refine ⟨⟨h.capacity, h.pow, ?_, h.deq, h.claims, h.takes, h.reads_next hnext, h.nodup⟩,
    .of_next hnext (fun _ _ _ => rfl) rfl rfl rfl⟩
  · rw [h.ring_seq, hround]
    exact h.good.release hreading

theorem MpmcGood.enqSeq : MpmcLocal n hist ph t (enqBranch x pos (q.seq (q.cell pos))) q := by
  unfold enqBranch
  by_cases hdif : q.seq (q.cell pos) - pos = 0
  · have hseq : q.seq (q.cell pos) = pos := by bv_omega
    rw [h.cell_eq] at hseq
    simp only [hdif, if_true]
    have hready := h.good.ready_of_seq (p := pos.toNat) (congrArg BitVec.toNat hseq)
    rwa [show q.ring.size = n from h.capacity] at hready
  · simp only [hdif, if_false]
    split_ifs <;> trivial

theorem MpmcGood.deqSeq (hP : MpmcLocal n hist ph t (.deqSeq pos) q) :
    MpmcLocal n hist ph t (deqBranch pos (q.seq (q.cell pos))) q := by
  unfold deqBranch
  have hpos : pos.toNat < 2 ^ 63 := hP
  by_cases hdif : q.seq (q.cell pos) - (pos + 1) = 0
  · have hseq : q.seq (q.cell pos) = pos + 1 := by bv_omega
    have hsucc : (pos + 1).toNat = pos.toNat + 1 := by bv_omega
    rw [h.cell_eq] at hseq
    simp only [hdif, if_true]
    exact ⟨hpos, .inl (h.good.filled_of_seq ((congrArg BitVec.toNat hseq).trans hsucc))⟩
  · simp only [hdif, if_false]
    split_ifs <;> trivial

end

variable {pc' : MpmcPc α}

/-- **A step keeps the invariant**, and leaves the other threads what they rely on. -/
theorem MpmcStep.keeps {a : MpmcEvent τ α} (hs : MpmcStep t pc q a pc' q')
    (h : MpmcGood n hist ph q) (hP : MpmcLocal n hist ph t pc q) (hfar : (hist.add a).claims.length + n < 2 ^ 63) :
    ∃ ph', MpmcGood n (hist.add a) ph' q' ∧ MpmcLocal n (hist.add a) ph' t pc' q' ∧
      Keeps t hist (hist.add a) ph ph' q q' := by
  have hn : 2 ≤ n := h.capacity ▸ h.good.two_le
  cases hs with
  | enqueue x => exact ⟨ph, h, trivial, .refl⟩
  | enqLoad => exact ⟨ph, h, trivial, .refl⟩
  | enqSeq => exact ⟨ph, h, h.enqSeq, .refl⟩
  | enqFail => exact ⟨ph, h, trivial, .refl⟩
  | enqExchange heq =>
    subst heq
    refine ⟨_, h.claim hP ?_ t _⟩
    simp only [MpmcHistory.add, length_append, length_singleton] at hfar
    omega
  | enqWrite => exact ⟨ph, h.write hP⟩
  | enqPublish =>
    obtain ⟨hgood, hkeeps⟩ := h.publish hP (by simp only [MpmcHistory.add] at hfar; omega)
    exact ⟨_, hgood, trivial, hkeeps⟩
  | dequeue => exact ⟨ph, h, trivial, .refl⟩
  | deqLoad =>
    refine ⟨ph, h, ?_, .refl⟩
    have hle : q.dequeuePos.toNat ≤ q.enqueuePos.toNat := h.good.deq_le_enq
    have henq := h.enq
    simp only [MpmcHistory.add] at hfar
    exact show q.dequeuePos.toNat < 2 ^ 63 by omega
  | deqSeq => exact ⟨ph, h, h.deqSeq hP, .refl⟩
  | deqFail => exact ⟨ph, h, hP.1, .refl⟩
  | deqExchange heq =>
    subst heq
    refine ⟨_, h.take hP ?_⟩
    simp only [MpmcHistory.add] at hfar
    omega
  | deqRead => exact ⟨ph, h.read hP⟩
  | deqRelease =>
    obtain ⟨hgood, hkeeps⟩ := h.release hP hfar
    exact ⟨_, hgood, trivial, hkeeps⟩

theorem MpmcLocal.owner (hP : MpmcLocal n hist ph t pc q) {i : ℕ} (hi : pc.owned q = some i) :
    ∃ pos : Word, q.cell pos = i ∧ (ph pos.toNat = .writing t ∨ ph pos.toNat = .reading t) := by
  cases pc with
  | enqWrite x pos => exact ⟨pos, some.inj hi, .inl hP.1⟩
  | enqPublish pos => exact ⟨pos, some.inj hi, .inl hP.1⟩
  | deqRead pos => exact ⟨pos, some.inj hi, .inr hP.1⟩
  | deqRelease pos => exact ⟨pos, some.inj hi, .inr hP⟩
  | _ => simp [MpmcPc.owned] at hi

theorem MpmcGood.owner_unique (h : MpmcGood n hist ph q) (hP : MpmcLocal n hist ph t pc q)
    (hP' : MpmcLocal n hist ph u pc' q) {i : ℕ} (hi : pc.owned q = some i) (hi' : pc'.owned q = some i) : t = u := by
  obtain ⟨pos, hcell, hown⟩ := hP.owner hi
  obtain ⟨pos', hcell', hown'⟩ := hP'.owner hi'
  have hactive : ∀ (pos : Word) (t : τ), ph pos.toNat = .writing t ∨ ph pos.toNat = .reading t →
      q.ring.Active ph pos.toNat := by
    intro pos t hown
    rcases hown with hown | hown
    · exact h.good.active_of_writing hown
    · exact h.good.active_of_filled (by rw [hown]; trivial)
  have hpos : pos.toNat = pos'.toNat := by
    refine h.good.cell_unique (hactive pos t hown) (hactive pos' u hown') ?_
    rw [← h.cell_eq, ← h.cell_eq, hcell, hcell']
  rw [hpos] at hown
  rcases hown with hown | hown <;> rcases hown' with hown' | hown' <;> simp_all

end

/-! ## Runs -/

/-- A new queue, and threads that have not called yet. -/
structure MpmcInit (bufferSize : Word) (c : Config τ (MpmcPc α) (Mpmcq α)) : Prop where
  idle : ∀ t, c.loc t = .idle
  new : ∃ data, newmpmcq bufferSize data = some c.shared

variable {bufferSize : Word}

theorem newmpmcq_good {data : ℕ → Option α} {q : Mpmcq α} (h : newmpmcq bufferSize data = some q) :
    MpmcGood (τ := τ) q.capacity ⟨[], [], []⟩ (fun _ => .free) q := by
  simp only [newmpmcq, ite_none_right_eq_some, some.injEq] at h
  obtain ⟨⟨htwo, hpow⟩, rfl⟩ := h
  generalize bufferSize / 16 = size at *
  have htwo' : 2 ≤ size.toNat := htwo
  have hmask : (size - 1).toNat = size.toNat - 1 := by bv_omega
  have hcap : (size - 1).toNat + 1 = size.toNat := by omega
  have hpow' : ∃ k, size.toNat = 2 ^ k := by
    refine (Nat.and_sub_one_eq_zero_iff_isPowerOfTwo (by omega)).mp ?_
    rw [← hmask, ← BitVec.toNat_and, hpow]
    rfl
  refine ⟨rfl, ?_, ?_, rfl, rfl, rfl, by simp, nodup_nil⟩
  · change ∃ k, (size - 1).toNat + 1 = 2 ^ k
    rwa [hcap]
  · refine Ring.Good.init ?_ data _ fun i hi => ?_
    · change 2 ≤ (size - 1).toNat + 1
      rwa [hcap]
    · change i < (size - 1).toNat + 1 at hi
      exact (BitVec.toNat_ofNat ..).trans (Nat.mod_eq_of_lt (by omega))

variable [DecidableEq τ]

variable {c c₀ : Config τ (MpmcPc α) (Mpmcq α)} {ls : List (MpmcEvent τ α)}

theorem mpmcq_inv (hinit : MpmcInit bufferSize c₀) (hrun : Run (Interleave MpmcStep) c₀ ls c)
    (hfar : (claims ls).length + c₀.shared.capacity < 2 ^ 63) :
    ∃ ph, MpmcGood c₀.shared.capacity (history ls) ph c.shared ∧
      ∀ t, MpmcLocal c₀.shared.capacity (history ls) ph t (c.loc t) c.shared := by
  obtain ⟨data, hnew⟩ := hinit.new
  refine Interleave.run_inv (H := fun ls => (claims ls).length + c₀.shared.capacity < 2 ^ 63)
    (G := fun ls ph q => MpmcGood c₀.shared.capacity (history ls) ph q)
    (P := fun ls ph t pc q => MpmcLocal c₀.shared.capacity (history ls) ph t pc q) ?_ hrun ?_
    (newmpmcq_good hnew) ?_
  · intro ls ph t pc q a pc' q' hfar h hP hs
    have hclaims : ((history ls).add a).claims.length + c₀.shared.capacity < 2 ^ 63 := by
      rw [← history_append]
      exact hfar
    obtain ⟨ph', hgood, hlocal, hkeeps⟩ := hs.keeps h hP hclaims
    rw [history_append]
    exact ⟨ph', hgood, hlocal, fun u k hu hk => hkeeps.local hu hk⟩
  · intro ls' hls
    have hle : (claims ls').length ≤ (claims ls).length := (hls.filterMap _).length_le
    omega
  · intro t
    rw [hinit.idle t]
    trivial

theorem mem_of_map_eq_range {β : Type*} {l : List β} {f : β → ℕ} (h : l.map f = range l.length) {k : ℕ} {b : β}
    (hb : l[k]? = some b) : f b = k := by
  have hk : (l.map f)[k]? = some (f b) := by rw [getElem?_map, hb]; rfl
  rw [h] at hk
  obtain ⟨hlt, heq⟩ := List.getElem?_eq_some_iff.mp hk
  simpa using heq.symm

/-- Producers and consumers claim the positions 0, 1, 2, … in this order. What is read at a position is the item that
was claimed for it; no position is read twice. No two threads use the same cell, and there are at most as many items
as cells. -/
theorem mpmcq_correct {bufferSize : Word} {c₀ c : Config τ (MpmcPc α) (Mpmcq α)} {ls : List (MpmcEvent τ α)}
    (hinit : MpmcInit bufferSize c₀) (hrun : Run (Interleave MpmcStep) c₀ ls c)
    (hfar : (claims ls).length + c₀.shared.capacity < 2 ^ 63) :
    (claims ls).map (·.1.toNat) = range (claims ls).length ∧
      (takes ls).map BitVec.toNat = range (takes ls).length ∧
      (∀ pos x, (pos, x) ∈ reads ls → pos ∈ takes ls ∧ ∃ y, (pos, y) ∈ claims ls ∧ x = some y) ∧
      ((reads ls).map fst).Nodup ∧
      (∀ t u i, (c.loc t).owned c.shared = some i → (c.loc u).owned c.shared = some i → t = u) ∧
      (takes ls).length ≤ (claims ls).length ∧ (claims ls).length ≤ (takes ls).length + c₀.shared.capacity := by
  obtain ⟨ph, h, hP⟩ := mpmcq_inv hinit hrun hfar
  have henq : c.shared.ring.enq = (claims ls).length := h.enq
  have hdeq : c.shared.ring.deq = (takes ls).length := h.deq
  refine ⟨h.claims, h.takes, ?_, h.nodup, fun t u i hi hi' => h.owner_unique (hP t) (hP u) hi hi', ?_, ?_⟩
  · intro pos x hmem
    obtain ⟨htaken, hval⟩ := h.reads _ hmem
    have hlt : pos.toNat < (takes ls).length := hdeq ▸ (h.good.taken_iff _).mp htaken
    have hlt' : pos.toNat < (claims ls).length := henq ▸ h.good.lt_enq htaken.ne_free
    have htake := getElem?_eq_getElem hlt
    have hclaim := getElem?_eq_getElem hlt'
    constructor
    · have hpos := mem_of_map_eq_range (f := BitVec.toNat) h.takes htake
      rw [← BitVec.eq_of_toNat_eq hpos]
      exact getElem_mem hlt
    · have hpos := mem_of_map_eq_range (f := fun r : Word × α => r.1.toNat) h.claims hclaim
      refine ⟨((claims ls).get ⟨pos.toNat, hlt'⟩).2, ?_, ?_⟩
      · have heq : (claims ls).get ⟨pos.toNat, hlt'⟩ = (pos, ((claims ls).get ⟨pos.toNat, hlt'⟩).2) :=
          Prod.ext (BitVec.eq_of_toNat_eq hpos) rfl
        rw [← heq]
        exact get_mem ..
      · refine hval.trans ?_
        rw [MpmcHistory.items, getElem?_map, show (history ls).claims = claims ls from rfl, hclaim]
        rfl
  · rw [← henq, ← hdeq]
    exact h.good.deq_le_enq
  · rw [← henq, ← hdeq, ← h.capacity]
    exact h.good.enq_le

/-- One thread puts an item in a queue with two cells and takes it out again. -/
theorem mpmcq_correct_solo :
    let ls : List (MpmcEvent Unit ℕ) := [.tau, .tau, .tau, .claim () 7 0, .tau, .tau, .tau, .tau, .tau, .take () 0,
      .read () 0 (some 7), .tau]
    (claims ls).map (·.1.toNat) = range (claims ls).length ∧
      (takes ls).map BitVec.toNat = range (takes ls).length ∧
      (∀ pos x, (pos, x) ∈ reads ls → pos ∈ takes ls ∧ ∃ y, (pos, y) ∈ claims ls ∧ x = some y) ∧
      ((reads ls).map fst).Nodup := by
  intro ls
  let q₀ : Mpmcq ℕ := ⟨1, fun i => BitVec.ofNat 64 i, fun _ => none, 0, 0⟩
  let q₁ : Mpmcq ℕ := { q₀ with enqueuePos := 0 + 1 }
  let q₂ : Mpmcq ℕ := { q₁ with data := update q₁.data (q₁.cell 0) (some 7) }
  let q₃ : Mpmcq ℕ := { q₂ with seq := update q₂.seq (q₂.cell 0) (0 + 1) }
  let q₄ : Mpmcq ℕ := { q₃ with dequeuePos := 0 + 1 }
  let q₅ : Mpmcq ℕ := { q₄ with seq := update q₄.seq (q₄.cell 0) (0 + q₄.bufferMask + 1) }
  have henq : enqBranch 7 0 (q₀.seq (q₀.cell 0)) = .enqExchange 7 0 := by
    simp [enqBranch, q₀, Mpmcq.cell]
  have hdeq : (deqBranch 0 (q₃.seq (q₃.cell 0)) : MpmcPc ℕ) = .deqExchange 0 := by
    simp [deqBranch, q₃, q₂, q₁, q₀, Mpmcq.cell]
  have hdata : q₄.data (q₄.cell 0) = some 7 := by
    simp [q₄, q₃, q₂, q₁, q₀, Mpmcq.cell]
  have henqSeq : MpmcStep () (.enqSeq 7 0) q₀ .tau (.enqExchange 7 0) q₀ := henq ▸ .enqSeq
  have hdeqSeq : MpmcStep () (.deqSeq 0) q₃ .tau (.deqExchange 0) q₃ := hdeq ▸ .deqSeq
  have hclaim : MpmcStep () (.enqExchange 7 0) q₀ (.claim () 7 0) (.enqWrite 7 0) q₁ := .enqExchange rfl
  have htake : MpmcStep () (.deqExchange 0) q₃ (.take () 0) (.deqRead 0) q₄ := .deqExchange rfl
  have hread : MpmcStep () (.deqRead 0) q₄ (.read () 0 (some 7)) (.deqRelease 0) q₄ := hdata ▸ .deqRead
  have hnew : MpmcInit 32 ⟨fun _ : Unit => .idle, q₀⟩ := ⟨fun _ => rfl, fun _ => none, rfl⟩
  have hrun : Run (Interleave (MpmcStep (τ := Unit))) ⟨fun _ => .idle, q₀⟩ ls ⟨fun _ => .idle, q₅⟩ :=
    .cons (Interleave.solo (.enqueue q₀ 7)) <| .cons (Interleave.solo .enqLoad) <|
    .cons (Interleave.solo henqSeq) <| .cons (Interleave.solo hclaim) <|
    .cons (Interleave.solo .enqWrite) <| .cons (Interleave.solo .enqPublish) <|
    .cons (Interleave.solo (.dequeue q₃)) <| .cons (Interleave.solo .deqLoad) <|
    .cons (Interleave.solo hdeqSeq) <| .cons (Interleave.solo htake) <|
    .cons (Interleave.solo hread) <| .cons (Interleave.solo .deqRelease) <| .nil _
  have hall := mpmcq_correct hnew hrun (by decide)
  exact ⟨hall.1, hall.2.1, hall.2.2.1, hall.2.2.2.1⟩

end SgxLkl
