import SgxLkl.Host.Virtio
import SgxLkl.Lib.FreeRing

/-!
# The rings of a queue (`virtio_process_queue`)

The driver posts the heads of chains in the available ring and takes them back from the used ring; the device serves
them in between. All indices run modulo `2 ^ 16`.

* **`rings_in_order`**: the heads come back in the order in which they were posted; `ring_stalls`: not if `2 ^ 16` of
  them may be outstanding.
-/

namespace SgxLkl.Host

open List BitVec Function

/-! ## Devices -/

/-- What a call of `enqueue` does with the request: the length it completes it with, if it does, and whether it returns
a value that is not negative. -/
structure Outcome where
  completed : Option (BitVec 32)
  ok : Bool

structure VirtioDevOps (σ : Type*) where
  enqueue : σ → VirtioReq → σ × Outcome

structure QueueState (σ : Type*) where
  dev : σ
  queue : Virtq
  irqs : ℕ := 0

def QueueState.settle {σ : Type*} (s : QueueState σ) (req : VirtioReq) (dev : σ) : Option (BitVec 32) → QueueState σ
  | none => { s with dev }
  | some len =>
    let (queue, irq) := virtioReqComplete s.queue req len
    ⟨dev, queue, s.irqs + irq.toNat⟩

namespace VirtioDevOps

variable {σ : Type*} (ops : VirtioDevOps σ)

def virtioProcessOne (s : QueueState σ) : QueueState σ × Bool :=
  let req := s.queue.request
  let (dev, outcome) := ops.enqueue s.dev req
  (s.settle req dev outcome.completed, outcome.ok)

/-- At most `n` rounds of the loop of `virtio_process_queue`, and whether it was left by `break`. -/
def processLoop : ℕ → QueueState σ → QueueState σ × Bool
  | 0, s => (s, false)
  | n + 1, s =>
    if s.queue.lastAvailIdx = s.queue.availIdx then (s, false)
    else
      let (s, ok) := ops.virtioProcessOne s
      if ok then
        processLoop n (if s.queue.lastAvailIdx = s.queue.availIdx
          then { s with queue := virtioSetAvailEvent s.queue s.queue.availIdx } else s)
      else (s, true)

/-- `virtio_process_queue`, and whether it stopped early. If every request takes one entry of the available ring, there
are as many rounds as entries. -/
def virtioProcessQueue (s : QueueState σ) : QueueState σ × Bool :=
  if s.queue.ready then ops.processLoop s.queue.pending s else (s, true)

/-- The device completes the requests, with less than `2 ^ 16` bytes, or says that it does not. -/
structure Short : Prop where
  len : ∀ s req len, (ops.enqueue s req).2.completed = some len → len.toNat < 2 ^ 16
  ok : ∀ s req, (ops.enqueue s req).2.completed = none → (ops.enqueue s req).2.ok = false

end VirtioDevOps

/-! ## The driver and the device -/

def Virtq.post (q : Virtq) (desc : BitVec 32 → VirtqDesc) (head : BitVec 16) : Virtq :=
  { q with desc, availRing := update q.availRing (q.slot q.availIdx) head, availIdx := q.availIdx + 1 }

def Virtq.setUsedEvent (q : Virtq) (event : BitVec 16) : Virtq :=
  { q with availRing := update q.availRing q.num event }

/-- The queue, with the index up to which the driver has seen the used ring. -/
structure Rings (σ : Type*) extends QueueState σ where
  seen : BitVec 16

namespace Rings

inductive Label
  | post (head : BitVec 16)
  | usedEvent
  | take (id : BitVec 32)
  | run (stopped : Bool)

variable {σ : Type*} (ops : VirtioDevOps σ)

/-- A step of the driver, or a run of the device. -/
inductive Step : Rings σ → Label → Rings σ → Prop
  | post (r : Rings σ) (desc : BitVec 32 → VirtqDesc) (head : BitVec 16) :
    Step r (.post head) { r with queue := r.queue.post desc head }
  | usedEvent (r : Rings σ) (event : BitVec 16) :
    Step r .usedEvent { r with queue := r.queue.setUsedEvent event }
  | take (r : Rings σ) (h : r.seen ≠ r.queue.usedIdx) :
    Step r (.take (r.queue.usedRing (r.queue.slot r.seen)).id) { r with seen := r.seen + 1 }
  | run {r : Rings σ} {s : QueueState σ} {stopped : Bool} (h : ops.virtioProcessQueue r.toQueueState = (s, stopped)) :
    Step r (.run stopped) { r with toQueueState := s }

def Label.posted : Label → List (BitVec 32)
  | .post head => [head.setWidth 32]
  | .usedEvent => []
  | .take _ => []
  | .run _ => []

def Label.taken : Label → List (BitVec 32)
  | .take id => [id]
  | .post _ => []
  | .usedEvent => []
  | .run _ => []

def posted (ls : List Label) : List (BitVec 32) := ls.flatMap Label.posted

def taken (ls : List Label) : List (BitVec 32) := ls.flatMap Label.taken

@[simp] theorem posted_append (ls : List Label) (l : Label) : posted (ls ++ [l]) = posted ls ++ l.posted := by
  simp [posted]

@[simp] theorem taken_append (ls : List Label) (l : Label) : taken (ls ++ [l]) = taken ls ++ l.taken := by
  simp [taken]

/-- There are never more than `limit` heads posted and not taken back. -/
def Bounded (limit : ℕ) (ls : List Label) : Prop :=
  ∀ l₁ head l₂, ls = l₁ ++ .post head :: l₂ → (posted l₁).length < (taken l₁).length + limit

end Rings

/-! ## The entries of the rings -/

def Virtq.unseen (q : Virtq) (seen : BitVec 16) : List (BitVec 32) :=
  ringEntries (fun j => (q.usedRing j).id) q.slot seen (q.usedIdx - seen).toNat

def Virtq.waiting (q : Virtq) : List (BitVec 32) :=
  ringEntries (fun j => (q.availRing j).setWidth 32) q.slot q.lastAvailIdx q.pending

/-- The number of heads that may be outstanding: there is an entry for each of them, and the indices tell a full ring
from an empty one. -/
def limit (k : ℕ) : ℕ := min (2 ^ k) (2 ^ 16 - 1)

/-- The entries that the driver has not seen, and those that the device has not taken. -/
structure Fifo (k : ℕ) (seen : BitVec 16) (xs ys : List (BitVec 32)) (q : Virtq) : Prop where
  num : q.num = BitVec.ofNat 32 (2 ^ k)
  merge : q.maxMergeLen = 0
  unseen : q.unseen seen = xs
  waiting : q.waiting = ys
  le : xs.length + ys.length ≤ limit k

section

variable {k : ℕ} {q : Virtq}

theorem slot_ne_num (hk : k < 32) (hnum : q.num = BitVec.ofNat 32 (2 ^ k)) (idx : BitVec 16) : q.slot idx ≠ q.num := by
  intro heq
  have hlt : idx.toNat % 2 ^ k < 2 ^ k := Nat.mod_lt _ (Nat.two_pow_pos k)
  rw [← toNat_slot hk hnum, heq, hnum, toNat_ofNat, Nat.mod_eq_of_lt (Nat.pow_lt_pow_right (by decide) hk)] at hlt
  exact lt_irrefl _ hlt

theorem apart_slot (hk : k < 32) (hnum : q.num = BitVec.ofNat 32 (2 ^ k)) :
    Apart q.slot (min (2 ^ k) (2 ^ 16)) := by
  intro idx i hpos hi heq
  rw [lt_min_iff] at hi
  rcases le_or_gt k 16 with hle | hgt
  · exact slot_add_ne hle hnum idx hpos hi.1 heq
  · -- the whole index is the place
    have hidx := idx.isLt
    have hpow : 2 ^ 16 < 2 ^ k := Nat.pow_lt_pow_right (by decide) hgt
    have hmod := congrArg BitVec.toNat heq
    rw [toNat_slot hk hnum, toNat_slot hk hnum, Nat.mod_eq_of_lt (by omega), Nat.mod_eq_of_lt (by omega),
      toNat_add, toNat_ofNat] at hmod
    omega

end

namespace Fifo

variable {k : ℕ} {seen : BitVec 16} {xs ys : List (BitVec 32)} {q : Virtq} (h : Fifo k seen xs ys q)

include h

theorem length_unseen : xs.length = (q.usedIdx - seen).toNat := by
  rw [← h.unseen, Virtq.unseen, length_ringEntries]

theorem length_waiting : ys.length = q.pending := by
  rw [← h.waiting, Virtq.waiting, length_ringEntries]

theorem post (hk : k < 32) (hlt : xs.length + ys.length < limit k) (desc : BitVec 32 → VirtqDesc) (head : BitVec 16) :
    Fifo k seen xs (ys ++ [head.setWidth 32]) (q.post desc head) where
  num := h.num
  merge := h.merge
  unseen := h.unseen
  waiting := by
    have hpending := h.length_waiting
    rw [limit, lt_min_iff] at hlt
    have hidx : q.availIdx = q.lastAvailIdx + BitVec.ofNat 16 q.pending := by
      rw [Virtq.pending, ofNat_toNat, setWidth_eq]
      bv_omega
    have hnext : (q.post desc head).pending = q.pending + 1 := by
      have hlt16 : q.pending + 1 < 2 ^ 16 := by omega
      simp only [Virtq.pending, Virtq.post] at hlt16 ⊢
      bv_omega
    have hpush := ringEntries_push (apart_slot hk h.num) (fun j => (q.availRing j).setWidth 32) q.lastAvailIdx
      (n := q.pending) (by omega) (head.setWidth 32)
    rw [← hidx] at hpush
    rw [← h.waiting, Virtq.waiting, hnext, Virtq.waiting, ← hpush]
    congr 1
    exact comp_update (setWidth 32) q.availRing (q.slot q.availIdx) head
  le := by
    rw [length_append, length_singleton]
    omega

theorem setUsedEvent (hk : k < 32) (event : BitVec 16) : Fifo k seen xs ys (q.setUsedEvent event) where
  num := h.num
  merge := h.merge
  unseen := h.unseen
  waiting := by
    have hslot : ∀ i < q.pending, q.slot (q.lastAvailIdx + BitVec.ofNat 16 i) ≠ q.num :=
      fun i _ => slot_ne_num hk h.num _
    rw [← h.waiting, Virtq.waiting, Virtq.waiting,
      ← ringEntries_update (fun j => (q.availRing j).setWidth 32) (event.setWidth 32) hslot]
    congr 1
    exact comp_update (setWidth 32) q.availRing q.num event
  le := h.le

theorem take (hseen : seen ≠ q.usedIdx) :
    ∃ xs', xs = (q.usedRing (q.slot seen)).id :: xs' ∧ Fifo k (seen + 1) xs' ys q := by
  have hlength := h.length_unseen
  obtain ⟨n, hn⟩ : ∃ n, (q.usedIdx - seen).toNat = n + 1 := Nat.exists_eq_succ_of_ne_zero (by bv_omega)
  have hnext : (q.usedIdx - (seen + 1)).toNat = n := by bv_omega
  have hxs := h.unseen
  have hle := h.le
  rw [Virtq.unseen, hn, ringEntries_succ] at hxs
  subst hxs
  refine ⟨_, rfl, h.num, h.merge, ?_, h.waiting, ?_⟩
  · rw [Virtq.unseen, hnext]
  · rw [length_cons] at hle
    omega

theorem complete (hk : k < 32) (hne : q.lastAvailIdx ≠ q.availIdx) {len : BitVec 32} (hlen : len.toNat < 2 ^ 16) :
    ∃ y ys', ys = y :: ys' ∧ Fifo k seen (xs ++ [y]) ys' (virtioReqComplete q q.request len).1 := by
  have hlength := h.length_unseen
  have hwaiting := h.length_waiting
  have hle := h.le
  have hlens : usedLens q.maxMergeLen q.request.buf len = [len.setWidth 16] := by
    rw [h.merge]
    exact usedLens_of_lt (gather_ne_nil q 18 _ _ _) hlen
  obtain ⟨n, hn⟩ : ∃ n, q.pending = n + 1 := by
    refine Nat.exists_eq_succ_of_ne_zero fun hzero => hne ?_
    unfold Virtq.pending at hzero
    bv_omega
  have hys := h.waiting
  rw [Virtq.waiting, hn, ringEntries_succ] at hys
  subst hys
  rw [length_cons, length_ringEntries, limit, le_min_iff] at hle
  refine ⟨_, _, rfl, ?_⟩
  rw [virtioReqComplete_eq, hlens]
  constructor
  case num => exact h.num
  case merge => exact h.merge
  case unseen =>
    have hidx : q.usedIdx = seen + BitVec.ofNat 16 (q.usedIdx - seen).toNat := by
      rw [ofNat_toNat, setWidth_eq]
      bv_omega
    have hnext : (q.usedIdx + 1 - seen).toNat = (q.usedIdx - seen).toNat + 1 := by
      have hlt16 : (q.usedIdx - seen).toNat + 1 < 2 ^ 16 := by omega
      bv_omega
    have hpush := ringEntries_push (apart_slot hk h.num) (fun j => (q.usedRing j).id) seen
      (n := (q.usedIdx - seen).toNat) (by omega) ((q.availRing (q.slot q.lastAvailIdx)).setWidth 32)
    rw [← hidx] at hpush
    rw [← h.unseen, Virtq.unseen, Virtq.unseen, ← hpush]
    change ringEntries _ q.slot seen (q.usedIdx + 1 - seen).toNat = _
    rw [hnext]
    congr 1
    exact comp_update UsedElem.id q.usedRing (q.slot q.usedIdx) _
  case waiting =>
    have hnext : (q.availIdx - (q.lastAvailIdx + 1)).toNat = n := by
      unfold Virtq.pending at hn
      bv_omega
    change ringEntries _ q.slot (q.lastAvailIdx + 1) (q.availIdx - (q.lastAvailIdx + 1)).toNat = _
    rw [hnext]
  case le =>
    rw [length_append, length_singleton, length_ringEntries, limit, le_min_iff]
    omega

theorem setAvailEvent (val : BitVec 16) : Fifo k seen xs ys (virtioSetAvailEvent q val) :=
  ⟨h.num, h.merge, h.unseen, h.waiting, h.le⟩

end Fifo

section

variable {σ : Type*} {ops : VirtioDevOps σ} (hops : ops.Short) {k : ℕ} (hk : k < 32) {seen : BitVec 16}
  {xs ys : List (BitVec 32)} {s s' : QueueState σ}

include hops hk

theorem Fifo.processOne (h : Fifo k seen xs ys s.queue) (hne : s.queue.lastAvailIdx ≠ s.queue.availIdx) {ok : Bool}
    (heq : ops.virtioProcessOne s = (s', ok)) :
    (s'.queue = s.queue ∧ ok = false) ∨ ∃ y ys', ys = y :: ys' ∧ Fifo k seen (xs ++ [y]) ys' s'.queue := by
  obtain ⟨rfl, rfl⟩ := Prod.mk.inj heq
  rcases hcompleted : (ops.enqueue s.dev s.queue.request).2.completed with _ | len
  · exact .inl ⟨rfl, hops.ok _ _ hcompleted⟩
  · exact .inr (h.complete hk hne (hops.len _ _ _ hcompleted))

/-- The device serves a part of the entries, and all of them if it does not stop. -/
theorem Fifo.processLoop {n : ℕ} (h : Fifo k seen xs ys s.queue) (hn : s.queue.pending = n) {stopped : Bool}
    (heq : ops.processLoop n s = (s', stopped)) :
    ∃ ys₁ ys₂, ys = ys₁ ++ ys₂ ∧ Fifo k seen (xs ++ ys₁) ys₂ s'.queue ∧ (stopped = false → ys₂ = []) := by
  induction n generalizing xs ys s with
  | zero =>
    obtain ⟨rfl, rfl⟩ := Prod.mk.inj heq
    have hys : ys = [] := eq_nil_of_length_eq_zero (h.length_waiting.trans hn)
    exact ⟨[], ys, rfl, by rwa [append_nil], fun _ => hys⟩
  | succ n ih =>
    have hne : s.queue.lastAvailIdx ≠ s.queue.availIdx := by
      intro hsame
      simp [Virtq.pending, hsame] at hn
    rw [VirtioDevOps.processLoop, if_neg hne] at heq
    rcases hone : ops.virtioProcessOne s with ⟨s₁, ok⟩
    rw [hone] at heq
    dsimp only at heq
    rcases h.processOne hops hk hne hone with ⟨hqueue, rfl⟩ | ⟨y, ys', rfl, h₁⟩
    · rw [if_neg (by decide)] at heq
      obtain ⟨rfl, rfl⟩ := Prod.mk.inj heq
      exact ⟨[], ys, rfl, by rwa [append_nil, hqueue], by simp⟩
    · cases ok with
      | false =>
        rw [if_neg (by decide)] at heq
        obtain ⟨rfl, rfl⟩ := Prod.mk.inj heq
        exact ⟨[y], ys', rfl, h₁, by simp⟩
      | true =>
        rw [if_pos rfl] at heq
        -- the queue behind the round, with or without a new `avail_event`
        set s₂ : QueueState σ := if s₁.queue.lastAvailIdx = s₁.queue.availIdx
          then { s₁ with queue := virtioSetAvailEvent s₁.queue s₁.queue.availIdx } else s₁ with hs₂
        have hround : Fifo k seen (xs ++ [y]) ys' s₂.queue := by
          rw [hs₂]
          split_ifs
          · exact h₁.setAvailEvent _
          · exact h₁
        have hlength := h.length_waiting
        rw [length_cons, hn] at hlength
        obtain ⟨ys₁, ys₂, rfl, h₂, hstopped⟩ :=
          ih hround (hround.length_waiting.symm.trans (Nat.succ.inj hlength)) heq
        exact ⟨y :: ys₁, ys₂, rfl, by simpa using h₂, hstopped⟩

end

/-! ## Runs -/

namespace Rings

variable {σ : Type*} {ops : VirtioDevOps σ}

/-- A queue of size `2 ^ k` that does not merge, and nothing outstanding. -/
structure Init (k : ℕ) (r : Rings σ) : Prop where
  num : r.queue.num = BitVec.ofNat 32 (2 ^ k)
  merge : r.queue.maxMergeLen = 0
  avail : r.queue.availIdx = r.queue.lastAvailIdx
  used : r.queue.usedIdx = r.seen

/-- What was posted was taken back, or is in one of the rings. -/
def Inv (k : ℕ) (ls : List Label) (r : Rings σ) : Prop :=
  ∃ xs ys, posted ls = taken ls ++ xs ++ ys ∧ Fifo k r.seen xs ys r.queue ∧
    ((∃ l₁, ls = l₁ ++ [.run false]) → ys = [])

variable {k n : ℕ}

theorem Init.inv {r : Rings σ} (h : Init k r) : Inv k [] r := by
  refine ⟨[], [], rfl, ⟨h.num, h.merge, ?_, ?_, ?_⟩, fun _ => rfl⟩
  · simp [Virtq.unseen, h.used]
  · simp [Virtq.waiting, Virtq.pending, h.avail]
  · simp

theorem length_posted_le (ls : List Label) : (posted ls).length ≤ ls.length := by
  induction ls using reverseRecOn with
  | nil => simp [posted]
  | append_singleton ls l ih => cases l <;> simp [Label.posted] <;> omega

variable {ls : List Label}

theorem Bounded.of_length_le (h : ls.length ≤ n) : Bounded n ls := by
  rintro l₁ head l₂ rfl
  have hle := length_posted_le l₁
  rw [length_append, length_cons] at h
  omega

theorem Bounded.run (h : Bounded n ls) (stopped : Bool) : Bounded n (ls ++ [.run stopped]) := by
  intro l₁ head l₂ hls
  rcases append_singleton_eq hls with ⟨-, heq, -⟩ | ⟨l₃, hls₃, -⟩
  · simp at heq
  · exact h l₁ head l₃ hls₃

variable {l : Label}

theorem Bounded.of_append (h : Bounded n (ls ++ [l])) : Bounded n ls :=
  fun l₁ head l₂ hls => h l₁ head (l₂ ++ [l]) (by simp [hls])

theorem Inv.step (hops : ops.Short) (hk : k < 32) {r r' : Rings σ}
    (h : Inv k ls r) (hstep : Step ops r l r') (hb : Bounded (limit k) (ls ++ [l])) : Inv k (ls ++ [l]) r' := by
  obtain ⟨xs, ys, hposted, hfifo, -⟩ := h
  cases hstep with
  | post desc head =>
    have hlt := hb ls head [] rfl
    rw [hposted, length_append, length_append] at hlt
    refine ⟨xs, ys ++ [head.setWidth 32], ?_, hfifo.post hk (by omega) desc head, by simp⟩
    simp [Label.posted, Label.taken, hposted]
  | usedEvent event =>
    refine ⟨xs, ys, ?_, hfifo.setUsedEvent hk event, by simp⟩
    simpa [Label.posted, Label.taken] using hposted
  | take hseen =>
    obtain ⟨xs', rfl, hfifo'⟩ := hfifo.take hseen
    refine ⟨xs', ys, ?_, hfifo', by simp⟩
    simpa [Label.posted, Label.taken] using hposted
  | @run s stopped hrun =>
    have hposted' : posted (ls ++ [.run stopped]) = taken (ls ++ [.run stopped]) ++ xs ++ ys := by
      simpa [Label.posted, Label.taken] using hposted
    rw [VirtioDevOps.virtioProcessQueue] at hrun
    split_ifs at hrun with hready
    · obtain ⟨ys₁, ys₂, rfl, hfifo', hstopped⟩ := hfifo.processLoop hops hk rfl hrun
      refine ⟨xs ++ ys₁, ys₂, by simpa using hposted', hfifo', ?_⟩
      rintro ⟨l₁, hl₁⟩
      obtain ⟨-, hrun⟩ := append_inj' hl₁ rfl
      exact hstopped (by simpa using hrun)
    · obtain ⟨rfl, rfl⟩ := Prod.mk.inj hrun
      exact ⟨xs, ys, hposted', hfifo, by simp⟩

end Rings

/-- **Rings are served in order.** A queue of size `2 ^ k` does not merge, the device completes the requests with less
than `2 ^ 16` bytes, and at most `2 ^ k` and fewer than `2 ^ 16` heads are outstanding. Then what was posted is, in
this order, what was taken back, what is in the used ring, and what the device has not served. -/
theorem rings_in_order {σ : Type*} {ops : VirtioDevOps σ} (hops : ops.Short) {k : ℕ} (hk : k < 32) {r₀ r : Rings σ}
    {ls : List Rings.Label} (h₀ : r₀.Init k) (hr : Run (Rings.Step ops) r₀ ls r) (hb : Rings.Bounded (limit k) ls) :
    Rings.posted ls = Rings.taken ls ++ r.queue.unseen r.seen ++ r.queue.waiting ∧ ∀ l₁, ls = l₁ ++ [.run false] →
        r.queue.lastAvailIdx = r.queue.availIdx ∧ Rings.posted ls = Rings.taken ls ++ r.queue.unseen r.seen := by
  have h : Rings.Inv k ls r :=
    hr.history (I := fun ls r => Rings.Bounded (limit k) ls → Rings.Inv k ls r)
      (fun _ _ _ _ ih hstep hb => (ih hb.of_append).step hops hk hstep hb) (fun _ => h₀.inv) hb
  obtain ⟨xs, ys, hposted, hfifo, hstopped⟩ := h
  rw [hfifo.unseen, hfifo.waiting]
  refine ⟨hposted, fun l₁ hl₁ => ?_⟩
  obtain rfl := hstopped ⟨l₁, hl₁⟩
  have hpending := hfifo.length_waiting
  refine ⟨?_, by simpa using hposted⟩
  rw [length_nil, Virtq.pending] at hpending
  bv_omega

/-- A device that completes every request with no bytes, as the block device does. -/
def zeroOps : VirtioDevOps Unit := ⟨fun _ _ => ((), ⟨some 0, true⟩)⟩

theorem zeroOps_short : zeroOps.Short where
  len := by
    rintro - - len ⟨⟩
    decide
  ok := by simp [zeroOps]

/-- A queue of size `2 ^ k` at the start. -/
def newRings (k : ℕ) : Rings Unit where
  dev := ()
  queue :=
    { num := BitVec.ofNat 32 (2 ^ k), ready := true, maxMergeLen := 0, desc := fun _ => ⟨0, 0, 0, 0⟩
      availIdx := 0, availRing := fun _ => 0, usedIdx := 0, usedRing := fun _ => ⟨0, 0⟩
      availEvent := 0, lastAvailIdx := 0, lastUsedIdxSignaled := 0 }
  seen := 0

theorem newRings_init (k : ℕ) : (newRings k).Init k := ⟨rfl, rfl, rfl, rfl⟩

/-- A head is posted in a ring with two entries, and comes back. -/
theorem rings_in_order_newRings :
    ∃ r, Run (Rings.Step zeroOps) (newRings 1) [.post 5, .run false] r ∧ r.queue.unseen r.seen = [5] := by
  obtain ⟨s, hs⟩ : ∃ s, zeroOps.virtioProcessQueue
      { newRings 1 with queue := (newRings 1).queue.post (fun _ => ⟨0, 0, 0, 0⟩) 5 }.toQueueState = (s, false) := ⟨_, rfl⟩
  have hr : Run (Rings.Step zeroOps) (newRings 1) [.post 5, .run false] _ := .cons (.post _ _ 5)
    (.cons (.run hs) (.nil _))
  have hb : Rings.Bounded (limit 1) ([.post 5] ++ [.run false]) := (Rings.Bounded.of_length_le (by decide)).run false
  have horder := (rings_in_order zeroOps_short (by decide) (newRings_init 1) hr hb).2 [.post 5] rfl
  exact ⟨_, hr, by simpa [Rings.posted, Rings.taken, Rings.Label.posted, Rings.Label.taken] using horder.2.symm⟩

theorem exists_posts (n : ℕ) :
    ∃ ls r, Run (Rings.Step zeroOps) (newRings 16) ls r ∧ ls.length = n ∧ (Rings.posted ls).length = n ∧
      Rings.taken ls = [] ∧ r.queue.availIdx = BitVec.ofNat 16 n ∧ r.queue.lastAvailIdx = 0 ∧ r.queue.usedIdx = 0 ∧
      r.seen = 0 ∧ r.queue.ready = true := by
  induction n with
  | zero => exact ⟨[], newRings 16, .nil _, rfl, rfl, rfl, rfl, rfl, rfl, rfl, rfl⟩
  | succ n ih =>
    obtain ⟨ls, r, hr, hlength, hposted, htaken, havail, hlast, hused, hseen, hready⟩ := ih
    refine ⟨ls ++ [.post 0], { r with queue := r.queue.post (fun _ => ⟨0, 0, 0, 0⟩) 0 },
      hr.append (.cons (.post r _ 0) (.nil _)), ?_, ?_, ?_, ?_, hlast, hused, hseen, hready⟩
    · simp [hlength]
    · simp [Rings.Label.posted, hposted]
    · simp [Rings.Label.taken, htaken]
    · simp only [Virtq.post, havail, ofNat_add]
      rfl

/-- In a ring with `2 ^ 16` entries the driver fills all of them. The indices are equal again, and a run of the device
that does not stop early serves none of them. -/
theorem ring_stalls : ∃ ls r, Run (Rings.Step zeroOps) (newRings 16) (ls ++ [.run false]) r ∧
      Rings.Bounded (2 ^ 16) (ls ++ [.run false]) ∧ (Rings.posted (ls ++ [.run false])).length = 2 ^ 16 ∧
      Rings.taken (ls ++ [.run false]) = [] ∧ r.queue.unseen r.seen = [] := by
  obtain ⟨ls, r, hr, hlength, hposted, htaken, havail, hlast, hused, hseen, hready⟩ := exists_posts (2 ^ 16)
  have hpending : r.queue.pending = 0 := by
    rw [Virtq.pending, havail, hlast]
    rfl
  have hrun : zeroOps.virtioProcessQueue r.toQueueState = (r.toQueueState, false) := by
    rw [VirtioDevOps.virtioProcessQueue, if_pos hready, hpending]
    rfl
  refine ⟨ls, r, hr.append (.cons (.run hrun) (.nil _)), (Rings.Bounded.of_length_le hlength.le).run false, ?_, ?_, ?_⟩
  · simpa [Rings.Label.posted] using hposted
  · simpa [Rings.Label.taken] using htaken
  · simp [Virtq.unseen, hused, hseen]

end SgxLkl.Host
