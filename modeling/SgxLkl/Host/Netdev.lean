import SgxLkl.Host.Rings

/-!
# The network device of the host (`host_interface/virtio_netdev.c`)

A packet is sent from the buffers of a request or received into them. A queue that merges buffers
receives into several entries of the available ring, and the packet says in its header how many.

* **`rx_accounting`**: the header, the used ring and the available ring agree on the buffers of a
  received packet; `rx_exact_fit`: the host ends if the packet fills them.
-/

namespace SgxLkl.Host

open List

/-! ## Calls to the host -/

/-- What a call that moves bytes returns: their number (and the bytes, if it reads), or `errno`. -/
inductive IoResult
  | done (n : ℕ) (data : List Byte)
  | error (errno : ℕ)
  deriving DecidableEq

def eintr : ℕ := 4

def ebadf : ℕ := 9

def eagain : ℕ := 11

/-- The call is repeated until it is not interrupted; `none` if all of these calls are. -/
def restart : List IoResult → Option IoResult
  | [] => none
  | .done n data :: _ => some (.done n data)
  | .error errno :: calls => if errno = eintr then restart calls else some (.error errno)

/-- `readv` puts bytes into the buffers, one behind the other. -/
def scatter : List Iovec → List Byte → (ℕ → Byte) → ℕ → Byte
  | [], _, mem => mem
  | buf :: bufs, data, mem =>
    scatter bufs (data.drop buf.len.toNat)
      (writeRange mem buf.base.toNat (data.take buf.len.toNat))

/-! ## The device -/

/-- What `virtio_netdev_init` has set: `has_vnet_hdr`, and `VIRTIO_NET_F_GUEST_CSUM`. -/
structure NetConfig where
  hasVnetHdr : Bool
  guestCsum : Bool

def netHdrLen : ℕ := 12

/-- The result of a call, if the host goes on: the number of bytes, or `none` for a negative value.
The byte in the pipe wakes the thread that polls. -/
def virtioNetFdNetTx (io pipe : IoResult) : Option (Option ℕ) :=
  match io with
  | .done n _ => some (some n)
  | .error errno =>
    if errno = eagain then
      match pipe with
      | .done n _ => if n = 0 then none else some none
      | .error errno => if errno = ebadf then some none else none
    else if errno = ebadf then some none
    else none

/-- As for sending, but an error that is not known is only logged. -/
def virtioNetFdNetRx (io pipe : IoResult) : Option (Option (ℕ × List Byte)) :=
  match io with
  | .done n data => some (some (n, data))
  | .error errno =>
    if errno = eagain then
      match pipe with
      | .done _ _ => some none
      | .error errno => if errno = ebadf then some none else none
    else some none

def skipHeader : List Iovec → List Iovec
  | [] => []
  | buf :: bufs =>
    ⟨buf.base + BitVec.ofNat 64 netHdrLen, buf.len - BitVec.ofNat 64 netHdrLen⟩ :: bufs

/-- How many buffers a packet takes. The loop stops within the buffers if the packet fits. -/
def countBuffers : List Iovec → BitVec 32 → ℕ
  | [], _ => 0
  | buf :: bufs, len =>
    if BitVec.slt 0 len then countBuffers bufs ((len.signExtend 64 - buf.len).setWidth 32) + 1 else 0

def storeLe16 (mem : ℕ → Byte) (addr n : ℕ) : ℕ → Byte :=
  writeRange mem addr [BitVec.ofNat 8 n, BitVec.ofNat 8 (n / 256)]

/-- The header of a received packet: `flags` is at 0, `gso_type` at 1, `num_buffers` at 10. -/
def setHeader (cfg : NetConfig) (mem : ℕ → Byte) (header count : ℕ) : ℕ → Byte :=
  let mem := if cfg.hasVnetHdr then mem else writeRange mem header [0, 0]
  let mem := storeLe16 mem (header + 10) count
  -- `VIRTIO_NET_HDR_F_DATA_VALID`
  if cfg.guestCsum then writeRange mem header [mem header ||| 2] else mem

inductive NetQueue
  | rx
  | tx
  deriving DecidableEq

/-- `net_enqueue`, up to `virtio_req_complete`; `none` if the host ends, or is still in the loop. -/
def netEnqueue (cfg : NetConfig) (calls : List IoResult) (pipe : IoResult) (queue : NetQueue)
    (mem : ℕ → Byte) (req : VirtioReq) : Option ((ℕ → Byte) × Outcome) :=
  let iov := if cfg.hasVnetHdr then req.buf else skipHeader req.buf
  let header := (req.buf.head?.map fun buf => buf.base.toNat).getD 0
  let hdrLen := if cfg.hasVnetHdr then 0 else netHdrLen
  (restart calls).bind fun io =>
    match queue with
    | .tx =>
      (virtioNetFdNetTx io pipe).map fun
        | none => (mem, ⟨none, false⟩)
        | some n => (mem, ⟨some (BitVec.ofNat 32 (n + hdrLen)), true⟩)
    | .rx =>
      (virtioNetFdNetRx io pipe).bind fun
        | none => some (mem, ⟨none, false⟩)
        | some (n, data) =>
          -- `PKT is likely truncated!`
          if cfg.hasVnetHdr ∧ req.totalLen = BitVec.ofNat 32 n then none
          else
            let mem := scatter iov data mem
            let count := countBuffers iov (BitVec.ofNat 32 n)
            some (setHeader cfg mem header count, ⟨some (BitVec.ofNat 32 (n + hdrLen)), true⟩)

/-! ## Buffers of a packet -/

def room (bufs : List Iovec) : ℕ := (bufs.map fun buf => buf.len.toNat).sum

/-- The entries of a packet of `n` bytes: all but the last are filled. -/
structure Filled (bufs : List Iovec) (n : ℕ) (lens : List (BitVec 16)) : Prop where
  length : lens.length ≤ bufs.length
  sum : (lens.map BitVec.toNat).sum = n
  full : ∀ i, i + 1 < lens.length →
    lens[i]?.map BitVec.toNat = bufs[i]?.map fun buf => buf.len.toNat

theorem zero_slt_iff (x : BitVec 32) : BitVec.slt 0 x = true ↔ 0 < x.toNat ∧ x.toNat < 2 ^ 31 := by
  have hzero : (0 : BitVec 32).toInt = 0 := rfl
  rw [BitVec.slt, decide_eq_true_iff, hzero, BitVec.toInt_eq_toNat_cond x]
  split_ifs <;> omega

variable {len : BitVec 32} {bufs : List Iovec}

theorem countBuffers_of_not_pos (h : ¬ BitVec.slt 0 len = true)
    (bufs : List Iovec) : countBuffers bufs len = 0 := by
  cases bufs with
  | nil => rfl
  | cons buf bufs => rw [countBuffers, if_neg h]

section

variable {merge : BitVec 32} (hmerge : merge ≠ 0) {buf : Iovec} (hbuf : buf.len.toNat < 2 ^ 16)
  {bufs : List Iovec} {len : BitVec 32}

include hmerge hbuf

theorem usedLens_last (hle : len.toNat ≤ buf.len.toNat) : usedLens merge (buf :: bufs) len = [len.setWidth 16] := by
  have hzero : len - (len.setWidth 16).setWidth 32 = 0 := by bv_omega
  have hlen : (if len.setWidth 64 < buf.len then len.setWidth 16 else buf.len.setWidth 16) = len.setWidth 16 := by
    split_ifs with hlt
    · rfl
    · bv_omega
  simp only [usedLens, if_neg hmerge, hlen, if_pos hzero]

theorem usedLens_full (hlt : buf.len.toNat < len.toNat) : usedLens merge (buf :: bufs) len =
      buf.len.setWidth 16 :: usedLens merge bufs (len - buf.len.setWidth 32) := by
  have hlen : ¬ len.setWidth 64 < buf.len := by bv_omega
  have hwidth : (buf.len.setWidth 16).setWidth 32 = buf.len.setWidth 32 := by bv_omega
  have hne : len - buf.len.setWidth 32 ≠ 0 := by bv_omega
  simp only [usedLens, if_neg hmerge, if_neg hlen, hwidth, if_neg hne]

omit hmerge in
theorem countBuffers_cons (hpos : 0 < len.toNat) (hsmall : len.toNat < 2 ^ 31) : countBuffers (buf :: bufs) len =
      if len.toNat ≤ buf.len.toNat then 1
      else countBuffers bufs (len - buf.len.setWidth 32) + 1 := by
  have hsign : len.signExtend 64 = len.setWidth 64 :=
    BitVec.signExtend_eq_setWidth_of_msb_false (BitVec.msb_eq_false_iff_two_mul_lt.mpr (by omega))
  have hnext : (len.setWidth 64 - buf.len).setWidth 32 = len - buf.len.setWidth 32 := by bv_omega
  rw [countBuffers, if_pos ((zero_slt_iff len).mpr ⟨hpos, hsmall⟩), hsign, hnext]
  split_ifs with hle
  · rw [countBuffers_of_not_pos]
    rw [zero_slt_iff]
    bv_omega
  · rfl

end

/-- **The two loops agree**, and the entries are filled one behind the other. -/
theorem usedLens_filled {merge : BitVec 32} (hmerge : merge ≠ 0)
    (hbufs : ∀ buf ∈ bufs, buf.len.toNat < 2 ^ 16) (hpos : 0 < len.toNat)
    (hsmall : len.toNat < 2 ^ 31) (hfit : len.toNat ≤ room bufs) : Filled bufs len.toNat (usedLens merge bufs len) ∧
      countBuffers bufs len = (usedLens merge bufs len).length := by
  induction bufs generalizing len with
  | nil => simp [room] at hfit; omega
  | cons buf bufs ih =>
    have hbuf := hbufs buf mem_cons_self
    rw [countBuffers_cons hbuf hpos hsmall]
    rcases le_or_gt len.toNat buf.len.toNat with hle | hlt
    · rw [usedLens_last hmerge hbuf hle, if_pos hle]
      refine ⟨⟨by simp, ?_, by simp⟩, rfl⟩
      have hmod : len.toNat % 2 ^ 16 = len.toNat := Nat.mod_eq_of_lt (by omega)
      simpa using hmod
    · have hrest : (len - buf.len.setWidth 32).toNat = len.toNat - buf.len.toNat := by bv_omega
      rw [room, map_cons, sum_cons] at hfit
      have hpos' : 0 < (len - buf.len.setWidth 32).toNat := by omega
      obtain ⟨hfilled, hcount⟩ := ih (fun b hb => hbufs b (mem_cons_of_mem _ hb)) hpos'
        (by omega) (by rw [room]; omega)
      rw [usedLens_full hmerge hbuf hlt, if_neg (not_le.mpr hlt)]
      refine ⟨⟨?_, ?_, ?_⟩, ?_⟩
      · simpa using hfilled.length
      · have hsum := hfilled.sum
        have hmod : (buf.len.setWidth 16).toNat = buf.len.toNat := by bv_omega
        rw [map_cons, sum_cons, hsum, hrest, hmod]
        omega
      · intro i hi
        cases i with
        | zero =>
          have hmod : buf.len.toNat % 2 ^ 16 = buf.len.toNat := Nat.mod_eq_of_lt hbuf
          simpa using hmod
        | succ i => simpa using hfilled.full i (by simpa using hi)
      · rw [hcount, length_cons]

/-! ## Entries of a packet -/

theorem addUsed_usedRing_of_ne (lens : List (BitVec 16)) (q : Virtq) (usedIdx availIdx : BitVec 16)
    {j : BitVec 32} (hj : ∀ i < lens.length, q.slot (usedIdx + BitVec.ofNat 16 i) ≠ j) :
    (addUsed lens q usedIdx availIdx).usedRing j = q.usedRing j := by
  induction lens generalizing q usedIdx availIdx with
  | nil => rfl
  | cons len lens ih =>
    have hfirst : q.slot usedIdx ≠ j := by simpa using hj 0 (by simp)
    rw [addUsed, ih]
    · exact Function.update_of_ne hfirst.symm _ _
    · intro i hi
      rw [add_one_ofNat]
      exact hj (i + 1) (by simpa using hi)

theorem map_len_addUsed (lens : List (BitVec 16)) (q : Virtq) (usedIdx availIdx : BitVec 16)
    {m : ℕ} (hslot : Apart q.slot m) (hm : lens.length ≤ m) :
    (ringEntries (addUsed lens q usedIdx availIdx).usedRing q.slot usedIdx lens.length).map
      (fun elem => elem.len.toNat) = lens.map BitVec.toNat := by
  induction lens generalizing q usedIdx availIdx with
  | nil => rfl
  | cons len lens ih =>
    rw [length_cons] at hm
    have hne : ∀ i < lens.length, q.slot (usedIdx + 1 + BitVec.ofNat 16 i) ≠ q.slot usedIdx := by
      intro i hi
      rw [add_one_ofNat]
      exact hslot usedIdx (i + 1) (by omega) (by omega)
    have hrest := ih (virtioAddUsed q usedIdx availIdx len) (usedIdx + 1) (availIdx + 1) hslot
      (by omega)
    rw [length_cons, ringEntries_succ, map_cons, map_cons, addUsed]
    congr 1
    rw [addUsed_usedRing_of_ne lens (virtioAddUsed q usedIdx availIdx len) _ _ hne]
    simp only [virtioAddUsed, Function.update_self]
    exact BitVec.toNat_setWidth_of_le (by decide)

theorem length_gather_le_pending {q : Virtq} (hmerge : q.maxMergeLen ≠ 0) (n : ℕ)
    (req : VirtioReq) (desc : VirtqDesc) {idx : BitVec 16} (hidx : idx ≠ q.availIdx) :
    (gather q n req desc idx).buf.length ≤ req.buf.length + (q.availIdx - idx).toNat := by
  induction n generalizing req desc idx with
  | zero => simp [gather]
  | succ n ih =>
    have hpos : 1 ≤ (q.availIdx - idx).toNat := by bv_omega
    have hone : (addDevBufFromVringDesc req desc).buf.length = req.buf.length + 1 := by
      simp [addDevBufFromVringDesc]
    simp only [gather, getNextDesc, if_pos hmerge]
    split_ifs with hlong hnext
    · omega
    · dsimp only
      omega
    · have hle := ih (addDevBufFromVringDesc req desc) (q.vringDescAtAvailIdx (idx + 1)) hnext
      have hsub : (q.availIdx - (idx + 1)).toNat + 1 = (q.availIdx - idx).toNat := by bv_omega
      dsimp only
      omega

theorem totalLen_gather (q : Virtq) (n : ℕ) (req : VirtioReq) (desc : VirtqDesc) (idx : BitVec 16)
    (hreq : req.totalLen = BitVec.ofNat 32 (room req.buf)) :
    (gather q n req desc idx).totalLen = BitVec.ofNat 32 (room (gather q n req desc idx).buf) := by
  induction n generalizing req desc idx with
  | zero => exact hreq
  | succ n ih =>
    have hone : (addDevBufFromVringDesc req desc).totalLen =
        BitVec.ofNat 32 (room (addDevBufFromVringDesc req desc).buf) := by
      have hlen : BitVec.ofNat 32 (desc.len.setWidth 64).toNat = desc.len := by bv_omega
      simp only [addDevBufFromVringDesc, hreq, room, map_append, sum_append, map_cons,
        map_nil, sum_cons, sum_nil, BitVec.ofNat_add, hlen]
      simp
    simp only [gather]
    split_ifs
    · exact hone
    · cases getNextDesc q desc idx with
      | none => exact hone
      | some next => exact ih _ next.1 next.2 hone

theorem loadLe_storeLe16 (mem : ℕ → Byte) (addr : ℕ) {n : ℕ} (hn : n < 2 ^ 16) :
    loadLe (storeLe16 mem addr n) addr 2 = n := by
  simp only [loadLe, storeLe16, writeRange]
  simp
  omega

theorem loadLe_setHeader (cfg : NetConfig) (mem : ℕ → Byte) (header : ℕ) {count : ℕ} (hcount : count < 2 ^ 16) :
    loadLe (setHeader cfg mem header count) (header + 10) 2 = count := by
  have hother : ∀ (mem : ℕ → Byte) (b : Byte),
      loadLe (writeRange mem header [b]) (header + 10) 2 = loadLe mem (header + 10) 2 := by
    intro mem b
    simp only [loadLe]
    rw [writeRange_of_notMem, writeRange_of_notMem] <;> simp
  unfold setHeader
  dsimp only
  by_cases hcsum : cfg.guestCsum = true
  · rw [if_pos hcsum, hother, loadLe_storeLe16 _ _ hcount]
  · rw [if_neg hcsum, loadLe_storeLe16 _ _ hcount]

theorem countBuffers_skipHeader {first : Iovec} (hlt : first.len.toNat < 2 ^ 16)
    (hfirst : netHdrLen ≤ first.len.toNat) (rest : List Iovec) {n : ℕ} (hpos : 0 < n)
    (hsmall : n + netHdrLen < 2 ^ 31) : countBuffers (skipHeader (first :: rest)) (BitVec.ofNat 32 n) =
      countBuffers (first :: rest) (BitVec.ofNat 32 (n + netHdrLen)) := by
  unfold netHdrLen at hfirst hsmall
  have hn : (BitVec.ofNat 32 n).toNat = n := Nat.mod_eq_of_lt (by omega)
  have hn' : (BitVec.ofNat 32 (n + netHdrLen)).toNat = n + 12 :=
    Nat.mod_eq_of_lt (by rw [netHdrLen]; omega)
  have hlen : (first.len - BitVec.ofNat 64 netHdrLen).toNat = first.len.toNat - 12 := by
    rw [netHdrLen]
    bv_omega
  have hrest : BitVec.ofNat 32 n - (first.len - BitVec.ofNat 64 netHdrLen).setWidth 32 =
      BitVec.ofNat 32 (n + netHdrLen) - first.len.setWidth 32 := by
    rw [netHdrLen]
    bv_omega
  rw [skipHeader, countBuffers_cons (by rw [hlen]; omega) (by omega) (by omega),
    countBuffers_cons hlt (by omega) (by omega), hrest, hn, hn', hlen]
  by_cases hle : n + 12 ≤ first.len.toNat
  · rw [if_pos hle, if_pos (by omega)]
  · rw [if_neg hle, if_neg (by omega)]

theorem room_le (hbufs : ∀ buf ∈ bufs, buf.len.toNat < 2 ^ 16) : room bufs ≤ bufs.length * 2 ^ 16 := by
  refine (sum_le_card_nsmul _ (2 ^ 16) ?_).trans (by simp)
  simp only [mem_map, forall_exists_index, and_imp, forall_apply_eq_imp_iff₂]
  exact fun buf hbuf => (hbufs buf hbuf).le

/-- **Receiving into merged buffers.** For a packet that fits, `num_buffers` of the header is the number of entries
added to the used ring and taken from the available ring, their lengths sum up to the packet, and all but the last one
are filled. -/
theorem rx_accounting (cfg : NetConfig) {q : Virtq} {k : ℕ} (hk : k < 32)
    (hnum : q.num = BitVec.ofNat 32 (2 ^ k)) (hmerge : q.maxMergeLen ≠ 0)
    (havail : q.lastAvailIdx ≠ q.availIdx) (hpending : q.pending ≤ 2 ^ k) {first : Iovec}
    {rest : List Iovec} (hreq : q.request.buf = first :: rest)
    (hbufs : ∀ buf ∈ q.request.buf, buf.len.toNat < 2 ^ 16)
    (hfirst : netHdrLen ≤ first.len.toNat)
    (mem : ℕ → Byte) {calls : List IoResult} (pipe : IoResult) {n : ℕ} {data : List Byte}
    (hio : restart calls = some (.done n data)) (hpos : 0 < n)
    (hfit : if cfg.hasVnetHdr then n < room q.request.buf
      else n + netHdrLen ≤ room q.request.buf) :
    ∃ mem' len, netEnqueue cfg calls pipe .rx mem q.request = some (mem', ⟨some len, true⟩) ∧
      let count := loadLe mem' (first.base.toNat + 10) 2
      let q' := (virtioReqComplete q q.request len).1
      let entries := ringEntries q'.usedRing q.slot q.usedIdx count
      q'.usedIdx = q.usedIdx + BitVec.ofNat 16 count ∧
      q'.lastAvailIdx = q.lastAvailIdx + BitVec.ofNat 16 count ∧
      (entries.map fun elem => elem.len.toNat).sum =
        n + (if cfg.hasVnetHdr then 0 else netHdrLen) ∧
      ∀ i, i + 1 < count →
        (entries[i]?.map fun elem => elem.len.toNat) =
          q.request.buf[i]?.map fun buf => buf.len.toNat := by
  set hdrLen := if cfg.hasVnetHdr then 0 else netHdrLen with hhdrLen
  have hlt : first.len.toNat < 2 ^ 16 := hbufs first (by simp [hreq])
  have hlength : q.request.buf.length ≤ 19 :=
    length_gather_le q virtioReqMaxBufs {} _ q.lastAvailIdx
  have hentries : q.request.buf.length ≤ q.pending :=
    le_of_le_of_eq (length_gather_le_pending hmerge virtioReqMaxBufs {} _ havail) (Nat.zero_add _)
  have hroom : room q.request.buf ≤ 19 * 2 ^ 16 :=
    (room_le hbufs).trans (Nat.mul_le_mul_right _ hlength)
  have hle : n + hdrLen ≤ room q.request.buf := by
    rw [hhdrLen]
    split_ifs at hfit ⊢ <;> omega
  have hlen : (BitVec.ofNat 32 (n + hdrLen)).toNat = n + hdrLen := Nat.mod_eq_of_lt (by omega)
  have hlenpos : 0 < (BitVec.ofNat 32 (n + hdrLen)).toNat := by omega
  obtain ⟨hfilled, hcount⟩ := usedLens_filled hmerge hbufs hlenpos (by omega) (by omega)
  set lens := usedLens q.maxMergeLen q.request.buf (BitVec.ofNat 32 (n + hdrLen)) with hlens
  have hfew := hfilled.length
  have hiov : countBuffers (if cfg.hasVnetHdr then q.request.buf else skipHeader q.request.buf)
      (BitVec.ofNat 32 n) = lens.length := by
    rw [← hcount, hhdrLen, hreq]
    split_ifs
    · rfl
    · exact countBuffers_skipHeader hlt hfirst rest hpos (by rw [netHdrLen]; omega)
  have hexact : ¬ (cfg.hasVnetHdr = true ∧ q.request.totalLen = BitVec.ofNat 32 n) := by
    rintro ⟨hvnet, htotal⟩
    have htotal' : q.request.totalLen = BitVec.ofNat 32 (room q.request.buf) :=
      totalLen_gather q virtioReqMaxBufs {} _ q.lastAvailIdx rfl
    rw [if_pos hvnet] at hfit
    rw [htotal'] at htotal
    have hnat := congrArg BitVec.toNat htotal
    rw [BitVec.toNat_ofNat, BitVec.toNat_ofNat, Nat.mod_eq_of_lt (by omega), Nat.mod_eq_of_lt (by omega)] at hnat
    omega
  set iov := if cfg.hasVnetHdr then q.request.buf else skipHeader q.request.buf with hiovdef
  refine ⟨setHeader cfg (scatter iov data mem) first.base.toNat lens.length, BitVec.ofNat 32 (n + hdrLen), ?_, ?_⟩
  · simp only [netEnqueue, hio, Option.bind_some, virtioNetFdNetRx, if_neg hexact, ← hhdrLen, ← hiovdef, hiov]
    simp [hreq]
  · rw [loadLe_setHeader cfg _ _ (by omega), virtioReqComplete_eq]
    have hring := map_len_addUsed lens q q.usedIdx q.lastAvailIdx (apart_slot hk hnum)
      (le_min (by omega) (by omega))
    refine ⟨rfl, rfl, ?_, ?_⟩
    · dsimp only
      rw [← hlens, hring, hfilled.sum, hlen]
    · intro i hi
      dsimp only
      rw [← hlens, ← getElem?_map, hring, getElem?_map]
      exact hfilled.full i hi

def mergeQueue : Virtq :=
  { (readBackend 512).queue with
    num := 128, maxMergeLen := 65536, availIdx := 2, availRing := fun j => if j = 1 then 1 else 0
    desc := fun j => if j = 0 then ⟨0x1000, 100, 2, 0⟩ else ⟨0x2000, 100, 2, 0⟩ }

theorem mergeQueue_buf : mergeQueue.request.buf = [⟨0x1000, 100⟩, ⟨0x2000, 100⟩] := by decide

/-- A packet of 150 bytes. -/
theorem rx_accounting_mergeQueue : ∃ mem' len, netEnqueue ⟨true, true⟩ [.error eintr, .done 150 []] (.done 1 []) .rx
        (fun _ => 0) mergeQueue.request = some (mem', ⟨some len, true⟩) ∧
      (virtioReqComplete mergeQueue mergeQueue.request len).1.usedIdx =
        BitVec.ofNat 16 (loadLe mem' (0x1000 + 10) 2) := by
  have hroom : room mergeQueue.request.buf = 200 := by decide
  have hbufs : ∀ buf ∈ mergeQueue.request.buf, buf.len.toNat < 2 ^ 16 := by decide
  have hio : restart [.error eintr, .done 150 []] = some (.done 150 []) := by decide
  obtain ⟨mem', len, henqueue, hidx, -⟩ :=
    rx_accounting ⟨true, true⟩ (q := mergeQueue) (k := 7) (by decide) (by decide) (by decide)
      (by decide) (by decide) mergeQueue_buf hbufs (by decide) (fun _ => 0) (.done 1 []) hio
      (by decide) (by rw [if_pos rfl, hroom]; decide)
  exact ⟨mem', len, henqueue, hidx.trans (BitVec.zero_add _)⟩

/-- A packet of 200 bytes fits, but the host takes it for a part of a longer one and ends. -/
theorem rx_exact_fit : room mergeQueue.request.buf = 200 ∧
      netEnqueue ⟨true, true⟩ [.done 200 []] (.done 1 []) .rx (fun _ => 0) mergeQueue.request = none := by
  have htotal : mergeQueue.request.totalLen = BitVec.ofNat 32 200 := by decide
  refine ⟨by decide, ?_⟩
  simp [netEnqueue, restart, virtioNetFdNetRx, htotal]

end SgxLkl.Host
