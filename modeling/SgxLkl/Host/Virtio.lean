import SgxLkl.Host.Blkdev
import SgxLkl.Lib.Lts

/-!
# Completions (`virtio_req_complete` in `host_interface/virtio.c`)

A request that is done goes to the used ring: one entry for a chain of descriptors, and one for each buffer if the queue
merges buffers. Then the driver is interrupted, if it asked for an entry that was now added or if nothing is available.

* **`completedOnce_iff`**: a chain gives one entry exactly if its length has 16 bits or it is a single buffer.
* **`irq_iff_wanted`**: an interrupt is raised exactly if the driver wants it.
-/

namespace SgxLkl.Host

open List

/-! ## The entries of a request -/

def usedLens (merge : BitVec 32) : List Iovec → BitVec 32 → List (BitVec 16)
  | [], _ => []
  | buf :: bufs, len =>
    let usedLen : BitVec 16 :=
      if merge = 0 then len.setWidth 16
      else if len.setWidth 64 < buf.len then len.setWidth 16 else buf.len.setWidth 16
    usedLen :: if len - usedLen.setWidth 32 = 0 then [] else usedLens merge bufs (len - usedLen.setWidth 32)

def addUsed : List (BitVec 16) → Virtq → BitVec 16 → BitVec 16 → Virtq
  | [], q, _, _ => q
  | len :: lens, q, usedIdx, availIdx => addUsed lens (virtioAddUsed q usedIdx availIdx len) (usedIdx + 1) (availIdx + 1)

theorem add_one_ofNat (x : BitVec 16) (n : ℕ) : x + 1 + BitVec.ofNat 16 n = x + BitVec.ofNat 16 (n + 1) := by
  rw [BitVec.add_assoc, Nat.add_comm n 1, BitVec.ofNat_add]
  rfl

theorem addUsedLoop_eq (bufs : List Iovec) (q : Virtq) (usedIdx availIdx : BitVec 16) (len : BitVec 32) :
    let lens := usedLens q.maxMergeLen bufs len
    addUsedLoop bufs q usedIdx availIdx len = (addUsed lens q usedIdx availIdx,
      usedIdx + BitVec.ofNat 16 lens.length, availIdx + BitVec.ofNat 16 lens.length) := by
  induction bufs generalizing q usedIdx availIdx len with
  | nil => simp [addUsedLoop, usedLens, addUsed]
  | cons buf bufs ih =>
    simp only [addUsedLoop, usedLens]
    generalize (if q.maxMergeLen = 0 then len.setWidth 16
      else if len.setWidth 64 < buf.len then len.setWidth 16 else buf.len.setWidth 16) = usedLen
    by_cases hlen : len - usedLen.setWidth 32 = 0
    · simp [hlen, addUsed]
    · rw [if_neg hlen, if_neg hlen, ih]
      simp only [length_cons, addUsed, add_one_ofNat]
      rfl

theorem addUsed_eq (lens : List (BitVec 16)) (q : Virtq) (usedIdx availIdx : BitVec 16) :
    ∃ usedRing, addUsed lens q usedIdx availIdx = { q with usedRing } := by
  induction lens generalizing q usedIdx availIdx with
  | nil => exact ⟨q.usedRing, rfl⟩
  | cons len lens ih =>
    obtain ⟨usedRing, heq⟩ := ih (virtioAddUsed q usedIdx availIdx len) (usedIdx + 1) (availIdx + 1)
    exact ⟨usedRing, heq⟩

/-- The queue behind a completion: the entries, the two indices, and the mark of the last interrupt. -/
theorem virtioReqComplete_eq (q : Virtq) (req : VirtioReq) (len : BitVec 32) :
    let lens := usedLens q.maxMergeLen req.buf len
    let usedIdx := q.usedIdx + BitVec.ofNat 16 lens.length
    let lastAvailIdx := q.lastAvailIdx + BitVec.ofNat 16 lens.length
    let irq := decide (lastAvailIdx = q.availIdx) || vringNeedEvent (q.availRing q.num) usedIdx q.lastUsedIdxSignaled
    virtioReqComplete q req len =
      ({ q with usedRing := (addUsed lens q q.usedIdx q.lastAvailIdx).usedRing, usedIdx, lastAvailIdx,
                lastUsedIdxSignaled := if irq then usedIdx else q.lastUsedIdxSignaled }, irq) := by
  obtain ⟨usedRing, hadd⟩ := addUsed_eq (usedLens q.maxMergeLen req.buf len) q q.usedIdx q.lastAvailIdx
  have hor : ∀ {p : Prop} [Decidable p] {b : Bool}, (p ∨ b = true) = ((decide p || b) = true) := by simp
  simp only [virtioReqComplete, addUsedLoop_eq, hadd, hor]
  cases hirq : decide (q.lastAvailIdx + BitVec.ofNat 16 (usedLens q.maxMergeLen req.buf len).length = q.availIdx) ||
    vringNeedEvent (q.availRing q.num) (q.usedIdx + BitVec.ofNat 16 (usedLens q.maxMergeLen req.buf len).length)
      q.lastUsedIdxSignaled <;> rfl

/-! ## A chain of descriptors -/

theorem usedLens_chain (buf : Iovec) (bufs : List Iovec) (len : BitVec 32) :
    usedLens 0 (buf :: bufs) len = len.setWidth 16 ::
      if len - (len.setWidth 16).setWidth 32 = 0 then [] else usedLens 0 bufs (len - (len.setWidth 16).setWidth 32) := by
  simp only [usedLens, if_true]

variable {bufs : List Iovec} {len : BitVec 32}

theorem usedLens_of_lt (hbufs : bufs ≠ []) (hlen : len.toNat < 2 ^ 16) :
    usedLens 0 bufs len = [len.setWidth 16] := by
  obtain ⟨buf, bufs, rfl⟩ := exists_cons_of_ne_nil hbufs
  have hzero : len - (len.setWidth 16).setWidth 32 = 0 := by
    bv_omega
  rw [usedLens_chain, if_pos hzero]

theorem length_usedLens_of_low (hlow : len.setWidth 16 = 0) (hne : len ≠ 0) :
    (usedLens 0 bufs len).length = bufs.length := by
  induction bufs with
  | nil => rfl
  | cons buf bufs ih =>
    have hsame : len - (len.setWidth 16).setWidth 32 = len := by
      rw [hlow]
      bv_omega
    rw [usedLens_chain, hsame, if_neg hne, length_cons, ih, length_cons]

theorem length_usedLens_of_le (hlen : 2 ^ 16 ≤ len.toNat) : (usedLens 0 bufs len).length = bufs.length := by
  cases bufs with
  | nil => rfl
  | cons buf bufs =>
    have hlow : (len - (len.setWidth 16).setWidth 32).setWidth 16 = (0 : BitVec 16) := by
      bv_omega
    have hne : len - (len.setWidth 16).setWidth 32 ≠ 0 := by
      bv_omega
    rw [usedLens_chain, if_neg hne, length_cons, length_usedLens_of_low hlow hne, length_cons]

theorem length_gather_le (q : Virtq) (n : ℕ) (req : VirtioReq) (desc : VirtqDesc) (idx : BitVec 16) :
    (gather q n req desc idx).buf.length ≤ req.buf.length + n := by
  induction n generalizing req desc idx with
  | zero => simp [gather]
  | succ n ih =>
    simp only [gather]
    split_ifs
    · simp [addDevBufFromVringDesc]
    · cases getNextDesc q desc idx with
      | none => simp [addDevBufFromVringDesc]
      | some next =>
        refine (ih _ next.1 next.2).trans ?_
        simp only [addDevBufFromVringDesc, length_append, length_singleton]
        omega

/-- The request was completed with one entry, which names the head of its chain. -/
structure CompletedOnce (len : BitVec 32) (q q' : Virtq) : Prop where
  usedIdx : q'.usedIdx = q.usedIdx + 1
  usedRing : q'.usedRing = Function.update q.usedRing (q.slot q.usedIdx)
    ⟨(q.availRing (q.slot q.lastAvailIdx)).setWidth 32, (len.setWidth 16).setWidth 32⟩
  lastAvailIdx : q'.lastAvailIdx = q.lastAvailIdx + 1

theorem completedOnce_of_usedLens {q : Virtq} {req : VirtioReq}
    (h : usedLens q.maxMergeLen req.buf len = [len.setWidth 16]) :
    CompletedOnce len q (virtioReqComplete q req len).1 := by
  rw [virtioReqComplete_eq, h]
  exact ⟨rfl, rfl, rfl⟩

/-- **One completion for a request.** A queue that does not merge completes a chain with one entry for its head, and
takes one entry of the available ring, exactly if the length has 16 bits or the chain is a single buffer. -/
theorem completedOnce_iff {q : Virtq} (hmerge : q.maxMergeLen = 0) (len : BitVec 32) :
    CompletedOnce len q (virtioReqComplete q q.request len).1 ↔ len.toNat < 2 ^ 16 ∨ q.request.buf.length = 1 := by
  have hne : q.request.buf ≠ [] := gather_ne_nil q 18 _ _ _
  have hle : q.request.buf.length ≤ 19 := length_gather_le q virtioReqMaxBufs {} _ q.lastAvailIdx
  constructor
  · intro h
    by_contra hnot
    rw [not_or, not_lt] at hnot
    -- one entry for each buffer
    have hidx := h.usedIdx
    rw [virtioReqComplete_eq] at hidx
    simp only [hmerge, length_usedLens_of_le hnot.1] at hidx
    bv_omega
  · rintro (hlen | hone)
    · exact completedOnce_of_usedLens (hmerge ▸ usedLens_of_lt hne hlen)
    · obtain ⟨buf, hbuf⟩ := length_eq_one_iff.mp hone
      refine completedOnce_of_usedLens ?_
      rw [hmerge, hbuf, usedLens_chain, usedLens, ite_self]

/-- A read of 512 bytes, which takes three buffers. -/
theorem completedOnce_iff_readBackend :
    CompletedOnce 0 (readBackend 512).queue (virtioReqComplete (readBackend 512).queue
      (readBackend 512).queue.request 0).1 :=
  (completedOnce_iff rfl 0).mpr (.inl (by decide))

/-- A queue with one request, a chain of two buffers of `0x8000` bytes. -/
def twoBuffers : Virtq :=
  { (readBackend 512).queue with
    desc := fun i => if i = 0 then ⟨0x10000, 0x8000, 1, 1⟩ else ⟨0x20000, 0x8000, 0, 0⟩ }

/-- The device fills or sends both buffers: two entries are added, and the available ring is taken beyond its end. -/
theorem completed_twice : twoBuffers.maxMergeLen = 0 ∧ twoBuffers.request.totalLen = 0x10000 ∧
      (virtioReqComplete twoBuffers twoBuffers.request 0x10000).1.usedIdx = 2 ∧
      (virtioReqComplete twoBuffers twoBuffers.request 0x10000).1.lastAvailIdx = 2 ∧
      ¬ CompletedOnce 0x10000 twoBuffers (virtioReqComplete twoBuffers twoBuffers.request 0x10000).1 := by
  refine ⟨rfl, by decide, by decide, by decide, fun h => ?_⟩
  exact absurd h.usedIdx (by decide)

/-! ## Interrupts -/

namespace Completion

inductive Label
  /-- The driver changes what it owns: the descriptors, the available ring with its index and `used_event`. -/
  | driver
  /-- A completion that adds `n` entries, when the driver has asked for the entry `event`. -/
  | complete (n : ℕ) (event : BitVec 16) (emptied irq : Bool)

/-- A step on a queue: of the driver, or the completion of a request. -/
inductive Step : Virtq → Label → Virtq → Prop
  | driver (q : Virtq) (desc : BitVec 32 → VirtqDesc) (availIdx : BitVec 16) (availRing : BitVec 32 → BitVec 16) :
    Step q .driver { q with desc, availIdx, availRing }
  | complete {q q' : Virtq} {req : VirtioReq} {len : BitVec 32} {irq : Bool}
    (h : virtioReqComplete q req len = (q', irq)) :
    Step q (.complete (usedLens q.maxMergeLen req.buf len).length (q.availRing q.num)
      (decide (q'.lastAvailIdx = q'.availIdx)) irq) q'

/-- The number of entries that were added, and the number at the last interrupt, behind a step. -/
def Label.count : ℕ × ℕ → Label → ℕ × ℕ
  | c, .driver => c
  | (added, signaled), .complete n _ _ irq => (added + n, if irq then added + n else signaled)

def count (ls : List Label) : ℕ × ℕ := ls.foldl Label.count (0, 0)

@[simp] theorem count_append (ls : List Label) (l : Label) : count (ls ++ [l]) = l.count (count ls) := by
  simp [count]

/-- The indices of the queue count the entries modulo `2 ^ 16`. -/
structure Inv (ls : List Label) (q : Virtq) : Prop where
  usedIdx : q.usedIdx = BitVec.ofNat 16 (count ls).1
  signaled : q.lastUsedIdxSignaled = BitVec.ofNat 16 (count ls).2
  le : (count ls).2 ≤ (count ls).1

/-- The driver wants an interrupt: the entry it has asked for is one of those added since the last interrupt. -/
def Wanted (signaled added : ℕ) (event : BitVec 16) : Prop :=
  ∃ p, signaled ≤ p ∧ p < added ∧ BitVec.ofNat 16 p = event

/-- `lkl_vring_need_event` compares in the right window, if fewer than `2 ^ 16` entries were added. -/
theorem vringNeedEvent_iff {signaled added : ℕ} (event : BitVec 16) (hle : signaled ≤ added)
    (hlt : added < signaled + 2 ^ 16) :
    vringNeedEvent event (BitVec.ofNat 16 added) (BitVec.ofNat 16 signaled) = true ↔ Wanted signaled added event := by
  have hevent := event.isLt
  have hcode : vringNeedEvent event (BitVec.ofNat 16 added) (BitVec.ofNat 16 signaled) = true ↔
      (2 ^ 16 - 1 + (2 ^ 16 - event.toNat + added % 2 ^ 16) % 2 ^ 16) % 2 ^ 16 < added - signaled := by
    have hdiff : (2 ^ 16 - signaled % 2 ^ 16 + added % 2 ^ 16) % 2 ^ 16 = added - signaled := by omega
    rw [vringNeedEvent, decide_eq_true_iff, BitVec.lt_def, BitVec.toNat_sub, BitVec.toNat_sub, BitVec.toNat_sub,
      BitVec.toNat_ofNat, BitVec.toNat_ofNat, hdiff]
    rfl
  rw [hcode]
  constructor
  · intro hlt
    refine ⟨signaled + (event.toNat + 2 ^ 16 - signaled % 2 ^ 16) % 2 ^ 16, by omega, by omega, ?_⟩
    apply BitVec.eq_of_toNat_eq
    rw [BitVec.toNat_ofNat]
    omega
  · rintro ⟨p, hp, hpa, rfl⟩
    rw [BitVec.toNat_ofNat] at hevent ⊢
    omega

theorem Inv.step {ls : List Label} {l : Label} {q q' : Virtq} (h : Inv ls q) (hstep : Step q l q') :
    Inv (ls ++ [l]) q' := by
  cases hstep with
  | driver desc availIdx availRing =>
    have hcount : count (ls ++ [.driver]) = count ls := by simp [Label.count]
    constructor <;> rw [hcount]
    exacts [h.usedIdx, h.signaled, h.le]
  | complete heq =>
    rw [virtioReqComplete_eq] at heq
    obtain ⟨rfl, rfl⟩ := Prod.mk.inj heq
    have hle := h.le
    constructor
    case usedIdx => simp [Label.count, h.usedIdx, BitVec.ofNat_add]
    case signaled =>
      simp only [count_append, Label.count]
      split_ifs
      · rw [h.usedIdx, BitVec.ofNat_add]
      · exact h.signaled
    case le =>
      simp only [count_append, Label.count]
      split_ifs <;> omega

end Completion

/-- **Interrupts are raised as wanted.** In every run from a new queue, a completion behind which fewer than `2 ^ 16`
entries were added since the last interrupt raises an interrupt exactly if the entry that the driver has asked for is
one of these, or nothing is available any more. -/
theorem irq_iff_wanted {q₀ q : Virtq} {ls l₁ l₂ : List Completion.Label} {n : ℕ} {event : BitVec 16}
    {emptied irq : Bool} (hused : q₀.usedIdx = 0) (hsignaled : q₀.lastUsedIdxSignaled = 0)
    (hr : Run Completion.Step q₀ ls q) (hls : ls = l₁ ++ .complete n event emptied irq :: l₂)
    (hlt : (Completion.count l₁).1 + n < (Completion.count l₁).2 + 2 ^ 16) : irq = true ↔
      Completion.Wanted (Completion.count l₁).2 ((Completion.count l₁).1 + n) event ∨ emptied = true := by
  subst hls
  obtain ⟨q₁, hr₁, hr₂⟩ := hr.split
  have h : Completion.Inv l₁ q₁ := by
    refine hr₁.history (fun _ _ _ _ ih hstep => ih.step hstep) ⟨?_, ?_, ?_⟩
    · simpa [Completion.count] using hused
    · simpa [Completion.count] using hsignaled
    · simp [Completion.count]
  obtain - | ⟨hstep, -⟩ := hr₂
  cases hstep with
  | complete heq =>
    rw [virtioReqComplete_eq] at heq
    obtain ⟨rfl, rfl⟩ := Prod.mk.inj heq
    have hneed := Completion.vringNeedEvent_iff (q₁.availRing q₁.num) (h.le.trans (Nat.le_add_right _ _)) hlt
    rw [BitVec.ofNat_add, ← h.usedIdx, ← h.signaled] at hneed
    simp only [Bool.or_eq_true, decide_eq_true_eq, hneed]
    exact or_comm

/-- The first completion of a queue with one request. -/
theorem irq_iff_wanted_readBackend : ∃ q, Run Completion.Step (readBackend 512).queue [.complete 1 0 true true] q ∧
      (true = true ↔ Completion.Wanted 0 1 0 ∨ true = true) := by
  obtain ⟨q, hq⟩ : ∃ q, virtioReqComplete (readBackend 512).queue (readBackend 512).queue.request 0 = (q, true) :=
    ⟨_, rfl⟩
  have hidx : decide (q.lastAvailIdx = q.availIdx) = true := by
    cases hq
    decide
  have hstep := Completion.Step.complete hq
  rw [hidx] at hstep
  have hr : Run Completion.Step (readBackend 512).queue [.complete 1 0 true true] q := .cons hstep (.nil q)
  have hls : [Completion.Label.complete 1 0 true true] = [] ++ .complete 1 0 true true :: [] := rfl
  exact ⟨q, hr, irq_iff_wanted rfl rfl hr hls (by decide)⟩

end SgxLkl.Host
