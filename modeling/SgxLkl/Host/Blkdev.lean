import SgxLkl.Lib.Disk
import SgxLkl.Mem.Model

/-!
# The block device of the host

The driver in the enclave puts requests into the available ring of a queue. A request is a chain of descriptors:
a header, the data and a trailer with one status byte. The host runs it and moves it to the used ring.

* **`status_iff_completed`**: when the status tells whether the data was transferred.
-/

namespace SgxLkl.Host

open BitVec Nat

/-! ## The queue -/

structure VirtqDesc where
  addr : Word
  len : BitVec 32
  flags : BitVec 16
  next : BitVec 16

structure UsedElem where
  id : BitVec 32
  len : BitVec 32
  deriving DecidableEq

/-- `struct virtq` with its rings. The place behind the available ring is `used_event`, and the one behind the used
ring is `avail_event`. -/
structure Virtq where
  num : BitVec 32
  ready : Bool
  maxMergeLen : BitVec 32
  desc : BitVec 32 → VirtqDesc
  availIdx : BitVec 16
  availRing : BitVec 32 → BitVec 16
  usedIdx : BitVec 16
  usedRing : BitVec 32 → UsedElem
  availEvent : BitVec 16
  lastAvailIdx : BitVec 16
  lastUsedIdxSignaled : BitVec 16

def Virtq.slot (q : Virtq) (idx : BitVec 16) : BitVec 32 := idx.setWidth 32 &&& (q.num - 1)

def Virtq.vringDescAtAvailIdx (q : Virtq) (idx : BitVec 16) : VirtqDesc :=
  q.desc (q.slot (q.availRing (q.slot idx)))

structure Iovec where
  base : Word
  len : Word
  deriving DecidableEq

/-- `struct virtio_req`; `buf_count` is the length of the list. -/
structure VirtioReq where
  buf : List Iovec := []
  totalLen : BitVec 32 := 0

def addDevBufFromVringDesc (req : VirtioReq) (desc : VirtqDesc) : VirtioReq :=
  let buf : Iovec := ⟨desc.addr, desc.len.setWidth 64⟩
  ⟨req.buf ++ [buf], req.totalLen + desc.len⟩

def vringDescFNext : BitVec 16 := 1

def getNextDesc (q : Virtq) (desc : VirtqDesc) (idx : BitVec 16) : Option (VirtqDesc × BitVec 16) :=
  if q.maxMergeLen ≠ 0 then
    if idx + 1 = q.availIdx then none
    else some (q.vringDescAtAvailIdx (idx + 1), idx + 1)
  else if desc.flags &&& vringDescFNext = 0 then none
  else some (q.desc (q.slot desc.next), idx)

def virtioReqMaxBufs : ℕ := 19

/-- The loop of `virtio_process_one` with room for `n` more buffers. -/
def gather (q : Virtq) : ℕ → VirtioReq → VirtqDesc → BitVec 16 → VirtioReq
  | 0, req, _, _ => req
  | n + 1, req, desc, idx =>
    let req := addDevBufFromVringDesc req desc
    if q.maxMergeLen ≠ 0 ∧ q.maxMergeLen < req.totalLen then req
    else
      match getNextDesc q desc idx with
      | none => req
      | some (desc, idx) => gather q n req desc idx

def Virtq.request (q : Virtq) : VirtioReq :=
  gather q virtioReqMaxBufs {} (q.vringDescAtAvailIdx q.lastAvailIdx) q.lastAvailIdx

/-! ## The block device -/

inductive HostCall
  | pread (base len offset : Word)
  | pwrite (data : List Byte) (len offset : Word)
  | fsync

/-- What the host returns, and what it has put into the buffer. The `int` of `fsync` is extended with its sign. -/
structure Answer where
  ret : Word
  data : List Byte := []

def statusIoerr : Byte := 1

def statusUnsup : Byte := 2

def loadLe (mem : ℕ → Byte) (addr : ℕ) : ℕ → ℕ
  | 0 => 0
  | n + 1 => (mem addr).toNat + 256 * loadLe mem (addr + 1) n

/-- The call for a request with the data buffer `data`, or `none` if the type of the request is not known. -/
def blkCall (mem : ℕ → Byte) (h data : Iovec) : Option HostCall :=
  -- `type` is at 0, `ioprio` at 4, `sector` at 8
  let offset := BitVec.ofNat 64 (loadLe mem (h.base.toNat + 8) 8) * 512
  match loadLe mem h.base.toNat 4 with
  | 0 => some (.pread data.base data.len offset)
  | 1 => some (.pwrite (readRange mem data.base.toNat data.len.toNat) data.len offset)
  | 4 => some .fsync
  | 5 => some .fsync
  | _ => none

def HostCall.land (mem : ℕ → Byte) (answer : Answer) : HostCall → ℕ → Byte
  | .pread base len _ => writeRange mem base.toNat (answer.data.take len.toNat)
  | .pwrite .. => mem
  | .fsync => mem

def setStatus (mem : ℕ → Byte) (t : Iovec) (status : Byte) : ℕ → Byte := writeRange mem t.base.toNat [status]

/-- `blk_enqueue` for a request with a header, data and a trailer. -/
def blkServe (host : HostCall → Answer) (mem : ℕ → Byte) (h data t : Iovec) : ℕ → Byte :=
  let mem := setStatus mem t statusIoerr
  if h.len ≠ 16 then mem
  else if t.len ≠ 1 then mem
  else
    match blkCall mem h data with
    | some call =>
      let answer := host call
      -- `t->status = ret` keeps the low byte
      setStatus (call.land mem answer) t (answer.ret.setWidth 8)
    | none => setStatus mem t statusUnsup

/-- `blk_enqueue` up to the completion of the request. The trailer is the last buffer. -/
def blkEnqueue (host : HostCall → Answer) (mem : ℕ → Byte) : List Iovec → ℕ → Byte
  | h :: data :: b :: rest => blkServe host mem h data ((b :: rest).getLast (List.cons_ne_nil _ _))
  | _ => mem

/-! ## Requests -/

def virtioAddUsed (q : Virtq) (usedIdx availIdx len : BitVec 16) : Virtq :=
  let elem : UsedElem := ⟨(q.availRing (q.slot availIdx)).setWidth 32, len.setWidth 32⟩
  { q with usedRing := Function.update q.usedRing (q.slot usedIdx) elem }

def addUsedLoop : List Iovec → Virtq → BitVec 16 → BitVec 16 → BitVec 32 → Virtq × BitVec 16 × BitVec 16
  | [], q, usedIdx, availIdx, _ => (q, usedIdx, availIdx)
  | buf :: bufs, q, usedIdx, availIdx, len =>
    let usedLen : BitVec 16 :=
      if q.maxMergeLen = 0 then len.setWidth 16
      else if len.setWidth 64 < buf.len then len.setWidth 16 else buf.len.setWidth 16
    let q := virtioAddUsed q usedIdx availIdx usedLen
    let len := len - usedLen.setWidth 32
    if len = 0 then (q, usedIdx + 1, availIdx + 1)
    else addUsedLoop bufs q (usedIdx + 1) (availIdx + 1) len

def vringNeedEvent (eventIdx newIdx old : BitVec 16) : Bool := newIdx - eventIdx - 1 < newIdx - old

/-- The queue after `virtio_req_complete`, and whether the driver is notified. -/
def virtioReqComplete (q : Virtq) (req : VirtioReq) (len : BitVec 32) : Virtq × Bool :=
  let (q, usedIdx, availIdx) := addUsedLoop req.buf q q.usedIdx q.lastAvailIdx len
  let q := { q with usedIdx, lastAvailIdx := availIdx }
  if q.lastAvailIdx = q.availIdx ∨ vringNeedEvent (q.availRing q.num) q.usedIdx q.lastUsedIdxSignaled then
    ({ q with lastUsedIdxSignaled := q.usedIdx }, true)
  else (q, false)

/-- The memory that is shared with the enclave. -/
structure Backend where
  mem : ℕ → Byte
  queue : Virtq
  irqs : ℕ := 0

def virtioProcessOne (host : HostCall → Answer) (s : Backend) : Backend :=
  let req := s.queue.request
  let mem := blkEnqueue host s.mem req.buf
  let (q, irq) := virtioReqComplete s.queue req 0
  ⟨mem, q, s.irqs + irq.toNat⟩

def virtioSetAvailEvent (q : Virtq) (val : BitVec 16) : Virtq := { q with availEvent := val }

def Virtq.pending (q : Virtq) : ℕ := (q.availIdx - q.lastAvailIdx).toNat

/-! ## The status -/

def HostCall.Completed (ret : Word) : HostCall → Prop
  | .pread _ len _ => ret = len
  | .pwrite _ len _ => ret = len
  | .fsync => ret = 0

/-- The low byte of what the host returns says whether the call has done all that was asked for. -/
def HostCall.Told (ret : Word) : HostCall → Prop
  | .pread _ len _ => if ret = len then 256 ∣ len.toNat else ¬ 256 ∣ ret.toNat
  | .pwrite _ len _ => if ret = len then 256 ∣ len.toNat else ¬ 256 ∣ ret.toNat
  | .fsync => ret = 0 ∨ ¬ 256 ∣ ret.toNat

def requestCall (mem : ℕ → Byte) (h data t : Iovec) : Option HostCall :=
  if h.len = 16 ∧ t.len = 1 then blkCall (setStatus mem t statusIoerr) h data else none

@[simp] theorem setStatus_self (mem : ℕ → Byte) (t : Iovec) (status : Byte) :
    setStatus mem t status t.base.toNat = status := by
  simp [setStatus, writeRange]

theorem setWidth_eq_zero_iff (ret : Word) : ret.setWidth 8 = (0 : Byte) ↔ 256 ∣ ret.toNat := by
  rw [← toNat_inj, toNat_setWidth]
  exact (dvd_iff_mod_eq_zero).symm

theorem blkServe_status (host : HostCall → Answer) (mem : ℕ → Byte) (h data t : Iovec) :
    blkServe host mem h data t t.base.toNat = 0 ↔
      ∃ call, requestCall mem h data t = some call ∧ 256 ∣ (host call).ret.toNat := by
  unfold blkServe requestCall
  by_cases hh : h.len = 16
  · by_cases ht : t.len = 1
    · rw [if_neg (not_not.mpr hh), if_neg (not_not.mpr ht), if_pos ⟨hh, ht⟩]
      cases hcall : blkCall (setStatus mem t statusIoerr) h data with
      | none => simp [statusUnsup]
      | some call => simpa using setWidth_eq_zero_iff (host call).ret
    · rw [if_neg (not_not.mpr hh), if_pos ht, if_neg fun hlen => ht hlen.2]
      simp [statusIoerr]
  · rw [if_pos hh, if_neg fun hlen => hh hlen.1]
    simp [statusIoerr]

theorem HostCall.dvd_iff_completed (call : HostCall) (ret : Word) :
    (256 ∣ ret.toNat ↔ call.Completed ret) ↔ call.Told ret := by
  cases call with
  | pread base len offset =>
    by_cases hret : ret = len <;> simp [Completed, Told, hret]
  | pwrite data len offset =>
    by_cases hret : ret = len <;> simp [Completed, Told, hret]
  | fsync =>
    by_cases hret : ret = 0
    · simp [Completed, Told, hret]
    · simp only [Completed, Told, hret, iff_false, false_or]

/-- The status of a request with one data buffer is 0 exactly if the call was made and has done all that was asked
for, provided that the low byte of its result says so, and only then. -/
theorem status_iff_completed (host : HostCall → Answer) (s : Backend) {h data t : Iovec}
    (hreq : s.queue.request.buf = [h, data, t]) : ((virtioProcessOne host s).mem t.base.toNat = 0 ↔
        ∃ call, requestCall s.mem h data t = some call ∧ call.Completed (host call).ret) ↔
      ∀ call, requestCall s.mem h data t = some call → call.Told (host call).ret := by
  have hmem : (virtioProcessOne host s).mem = blkServe host s.mem h data t := by
    simp [virtioProcessOne, hreq, blkEnqueue]
  rw [hmem, blkServe_status]
  cases hcall : requestCall s.mem h data t with
  | none => simp
  | some call => simpa using call.dvd_iff_completed (host call).ret

/-- A queue with a read of `len` bytes: the memory is 0, so the header asks for a read of sector 0. -/
def readBackend (len : BitVec 32) : Backend where
  mem := fun _ => 0
  queue :=
    { num := 32, ready := true, maxMergeLen := 0
      desc := fun i => if i = 0 then ⟨0x1000, 16, 1, 1⟩ else if i = 1 then ⟨0x2000, len, 3, 2⟩ else ⟨0x3000, 1, 2, 0⟩
      availIdx := 1, availRing := fun _ => 0, usedIdx := 0, usedRing := fun _ => ⟨0, 0⟩
      availEvent := 0, lastAvailIdx := 0, lastUsedIdxSignaled := 0 }

theorem status_iff_completed_readBackend :
    ((virtioProcessOne (fun _ => ⟨512, []⟩) (readBackend 512)).mem 0x3000 = 0 ↔
        ∃ call, requestCall (fun _ => 0) ⟨0x1000, 16⟩ ⟨0x2000, 512⟩ ⟨0x3000, 1⟩ = some call ∧ call.Completed 512) ↔
      ∀ call, requestCall (fun _ => 0) ⟨0x1000, 16⟩ ⟨0x2000, 512⟩ ⟨0x3000, 1⟩ = some call → call.Told 512 :=
  have hreq : (readBackend 512).queue.request.buf = [⟨0x1000, 16⟩, ⟨0x2000, 512⟩, ⟨0x3000, 1⟩] := by decide
  status_iff_completed (fun _ => ⟨512, []⟩) (readBackend 512) hreq

/-- The host reads 256 of 512 bytes, and the status is 0. -/
theorem short_read_is_ok : (readBackend 512).queue.request.buf = [⟨0x1000, 16⟩, ⟨0x2000, 512⟩, ⟨0x3000, 1⟩] ∧
      requestCall (readBackend 512).mem ⟨0x1000, 16⟩ ⟨0x2000, 512⟩ ⟨0x3000, 1⟩ = some (.pread 0x2000 512 0) ∧
      ¬ HostCall.Completed 256 (.pread 0x2000 512 0) ∧
      (virtioProcessOne (fun _ => ⟨256, []⟩) (readBackend 512)).mem 0x3000 = 0 := by
  refine ⟨by decide, rfl, ?_, by decide⟩
  simp [HostCall.Completed]

/-! ## The used ring -/

theorem addUsedLoop_zero {bufs : List Iovec} (h : bufs ≠ []) (q : Virtq) (usedIdx availIdx : BitVec 16) :
    addUsedLoop bufs q usedIdx availIdx 0 = (virtioAddUsed q usedIdx availIdx 0, usedIdx + 1, availIdx + 1) := by
  obtain ⟨buf, bufs, rfl⟩ := List.exists_cons_of_ne_nil h
  have hlen : (if q.maxMergeLen = 0 then (0 : BitVec 32).setWidth 16
      else if (0 : BitVec 32).setWidth 64 < buf.len then (0 : BitVec 32).setWidth 16
      else buf.len.setWidth 16) = 0 := by
    split_ifs with hmerge hlt
    · rfl
    · rfl
    · have hzero : buf.len = 0 := by bv_omega
      rw [hzero]
      rfl
  simp only [addUsedLoop, hlen]
  simp

theorem gather_ne_nil (q : Virtq) (n : ℕ) (req : VirtioReq) (desc : VirtqDesc) (idx : BitVec 16) :
    (gather q (n + 1) req desc idx).buf ≠ [] := by
  induction n generalizing req desc idx with
  | zero =>
    simp only [gather]
    split_ifs
    · simp [addDevBufFromVringDesc]
    · cases getNextDesc q desc idx with
      | none => simp [addDevBufFromVringDesc]
      | some next => simp [addDevBufFromVringDesc]
  | succ n ih =>
    simp only [gather]
    split_ifs
    · simp [addDevBufFromVringDesc]
    · cases getNextDesc q desc idx with
      | none => simp [addDevBufFromVringDesc]
      | some next => exact ih _ next.1 next.2

structure Answered (q q' : Virtq) : Prop where
  num : q'.num = q.num
  availIdx : q'.availIdx = q.availIdx
  availRing : q'.availRing = q.availRing
  lastAvailIdx : q'.lastAvailIdx = q.lastAvailIdx + 1
  usedIdx : q'.usedIdx = q.usedIdx + 1
  usedRing : q'.usedRing =
    Function.update q.usedRing (q.slot q.usedIdx) ⟨(q.availRing (q.slot q.lastAvailIdx)).setWidth 32, 0⟩

theorem virtioReqComplete_answered (q : Virtq) {req : VirtioReq} (h : req.buf ≠ []) :
    Answered q (virtioReqComplete q req 0).1 := by
  simp only [virtioReqComplete, addUsedLoop_zero h]
  split_ifs <;> constructor <;> rfl

theorem toNat_slot {q : Virtq} {k : ℕ} (hk : k < 32) (hnum : q.num = BitVec.ofNat 32 (2 ^ k)) (idx : BitVec 16) :
    (q.slot idx).toNat = idx.toNat % 2 ^ k := by
  have hlt : 2 ^ k < 2 ^ 32 := Nat.pow_lt_pow_right (by decide) hk
  have hmask : (q.num - 1).toNat = 2 ^ k - 1 := by
    rw [hnum, toNat_sub_of_le]
    · rw [toNat_ofNat, mod_eq_of_lt hlt]
      rfl
    · rw [le_def, toNat_ofNat, mod_eq_of_lt hlt]
      exact Nat.one_le_two_pow
  rw [Virtq.slot, toNat_and, hmask, and_two_pow_sub_one_eq_mod, toNat_setWidth,
    mod_eq_of_lt (idx.isLt.trans (by decide))]

theorem slot_add_ne {q : Virtq} {k : ℕ} (hk : k ≤ 16) (hnum : q.num = BitVec.ofNat 32 (2 ^ k)) (idx : BitVec 16)
    {i : ℕ} (hpos : 0 < i) (hi : i < 2 ^ k) : q.slot (idx + BitVec.ofNat 16 i) ≠ q.slot idx := by
  intro heq
  have hdvd : 2 ^ k ∣ 2 ^ 16 := Nat.pow_dvd_pow 2 hk
  have hmod := congrArg BitVec.toNat heq
  have hk' : k < 32 := by omega
  rw [toNat_slot hk' hnum, toNat_slot hk' hnum, BitVec.toNat_add, BitVec.toNat_ofNat, add_mod_mod,
    mod_mod_of_dvd _ hdvd] at hmod
  have hzero : (i : ℕ) ≡ 0 [MOD 2 ^ k] := Nat.ModEq.add_left_cancel' idx.toNat hmod
  exact hpos.ne' (eq_zero_of_dvd_of_lt (Nat.modEq_zero_iff_dvd.mp hzero) hi)

end SgxLkl.Host
