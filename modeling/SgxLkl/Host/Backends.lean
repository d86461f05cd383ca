import SgxLkl.Host.Netdev

/-!
# What `enqueue` promises

A callback returns a negative value if it has not queued the request, and the queue is then to be as
it was; else all that the request sends is to be with the host.

* **`contract_iff`**: when the network device, the console and the block device keep it;
  `console_drops_request`: the console consumes a request that it reports as failed.
-/

namespace SgxLkl.Host

open Option

/-! ## The console (`host_interface/virtio_console.c`) and the block device -/

inductive ConsoleQueue
  | rx
  | tx
  deriving DecidableEq

/-- `console_enqueue`, up to `virtio_req_complete`; `none` if it is still in the loop. -/
def consoleEnqueue (calls : List IoResult) (queue : ConsoleQueue) (mem : ℕ → Byte)
    (req : VirtioReq) : Option ((ℕ → Byte) × Outcome) :=
  (restart calls).map fun
    | .done n data =>
      let mem := match queue with
        | .rx => scatter req.buf data mem
        | .tx => mem
      (mem, ⟨some (BitVec.ofNat 32 n), true⟩)
    -- the request is completed in any case
    | .error _ => (mem, ⟨some 0, false⟩)

def blkOps (host : HostCall → Answer) : VirtioDevOps (ℕ → Byte) :=
  ⟨fun mem req => (blkEnqueue host mem req.buf, ⟨some 0, true⟩)⟩

theorem blkOps_virtioProcessOne (host : HostCall → Answer) (s : Backend) :
    (blkOps host).virtioProcessOne ⟨s.mem, s.queue, s.irqs⟩ =
      (⟨(virtioProcessOne host s).mem, (virtioProcessOne host s).queue,
        (virtioProcessOne host s).irqs⟩, true) := rfl

theorem blkOps_short (host : HostCall → Answer) : (blkOps host).Short where
  len := by
    rintro - - len ⟨⟩
    decide
  ok := by simp [blkOps]

/-! ## The promise -/

def Virtq.settle (q : Virtq) (o : Outcome) : Virtq :=
  match o.completed with
  | none => q
  | some len => (virtioReqComplete q q.request len).1

structure Unconsumed (q q' : Virtq) : Prop where
  usedRing : q'.usedRing = q.usedRing
  usedIdx : q'.usedIdx = q.usedIdx
  lastAvailIdx : q'.lastAvailIdx = q.lastAvailIdx
  request : q'.request = q.request

/-- If a call fails, its request is not consumed, and if it does not fail, all bytes that the
request sends were accepted. -/
structure Contract (q : Virtq) (o : Outcome) (outputs accepted : ℕ) : Prop where
  failed : o.ok = false → Unconsumed q (q.settle o)
  done : o.ok = true → outputs ≤ accepted

def IoResult.bytes : IoResult → ℕ
  | .done n _ => n
  | .error _ => 0

def netOutputs (cfg : NetConfig) (queue : NetQueue) (req : VirtioReq) : ℕ :=
  match queue with
  | .rx => 0
  | .tx => room (if cfg.hasVnetHdr then req.buf else skipHeader req.buf)

def consoleOutputs (queue : ConsoleQueue) (req : VirtioReq) : ℕ :=
  match queue with
  | .rx => 0
  | .tx => room req.buf

/-- The bytes that a request of the block device sends: the buffers of a write between the header and
the trailer. -/
def blkOutputs (mem : ℕ → Byte) : List Iovec → ℕ
  | [] => 0
  | h :: rest => if loadLe mem h.base.toNat 4 = 1 then room rest.dropLast else 0

/-- The bytes that the host has written for a request of the block device. -/
def blkAccepted (host : HostCall → Answer) (mem : ℕ → Byte) : List Iovec → ℕ
  | h :: data :: b :: rest =>
    match requestCall mem h data ((b :: rest).getLast (List.cons_ne_nil _ _)) with
    | some (.pwrite bytes len offset) => (host (.pwrite bytes len offset)).ret.toInt.toNat
    | some (.pread ..) => 0
    | some .fsync => 0
    | none => 0
  | [] => 0
  | [_] => 0
  | [_, _] => 0

/-- `pwrite` returns a negative value, or how many of the bytes it has written. -/
def WritesAtMost (host : HostCall → Answer) : Prop :=
  ∀ bytes len offset, (host (.pwrite bytes len offset)).ret.toInt ≤ len.toNat

/-- A write whose data is in one buffer, all of which the host has written. -/
def BlkWritten (host : HostCall → Answer) (mem : ℕ → Byte) : List Iovec → Prop
  | h :: data :: b :: rest =>
    room (b :: rest).dropLast = 0 ∧ ∃ bytes len offset,
      requestCall mem h data ((b :: rest).getLast (List.cons_ne_nil _ _)) =
        some (.pwrite bytes len offset) ∧ (host (.pwrite bytes len offset)).ret.toInt = len.toNat
  | [] => False
  | [_] => False
  | [_, _] => False

theorem Unconsumed.refl (q : Virtq) : Unconsumed q q := ⟨rfl, rfl, rfl, rfl⟩

theorem not_unconsumed (q : Virtq) : ¬ Unconsumed q (virtioReqComplete q q.request 0).1 := by
  intro h
  have hanswered : Answered q (virtioReqComplete q q.request 0).1 :=
    virtioReqComplete_answered q (gather_ne_nil q 18 _ _ _)
  have hidx := hanswered.usedIdx.symm.trans h.usedIdx
  bv_omega

/-! ## The three devices -/

variable {errno : ℕ} {io pipe : IoResult} {cfg : NetConfig} {calls : List IoResult}
variable {queue : NetQueue} {mem mem' : ℕ → Byte} {o : Outcome} {q : Virtq} {bytes : List Byte}
variable {len offset : Word}

theorem virtioNetFdNetTx_error {r : Option ℕ} (h : virtioNetFdNetTx (.error errno) pipe = some r) : r = none := by
  cases pipe <;> simp only [virtioNetFdNetTx] at h <;> split_ifs at h <;> cases h <;> rfl

theorem virtioNetFdNetRx_error {r : Option (ℕ × List Byte)}
    (h : virtioNetFdNetRx (.error errno) pipe = some r) : r = none := by
  cases pipe <;> simp only [virtioNetFdNetRx] at h <;> split_ifs at h <;> cases h <;> rfl

theorem netEnqueue_cases {req : VirtioReq} (hio : restart calls = some io)
    (h : netEnqueue cfg calls pipe queue mem req = some (mem', o)) :
    (o = ⟨none, false⟩ ∧ ∃ errno, io = .error errno) ∨ (o.ok = true ∧ ∃ n data, io = .done n data) := by
  unfold netEnqueue at h
  dsimp only at h
  rw [hio, bind_some] at h
  cases queue with
  | tx =>
    obtain ⟨r, hr, heq⟩ := map_eq_some_iff.mp h
    cases io with
    | done n data =>
      cases hr
      cases heq
      exact .inr ⟨rfl, n, data, rfl⟩
    | error errno =>
      cases virtioNetFdNetTx_error hr
      cases heq
      exact .inl ⟨rfl, errno, rfl⟩
  | rx =>
    obtain ⟨r, hr, heq⟩ := bind_eq_some_iff.mp h
    cases io with
    | done n data =>
      cases hr
      dsimp only at heq
      split_ifs at heq <;> cases heq <;> exact .inr ⟨rfl, n, data, rfl⟩
    | error errno =>
      cases virtioNetFdNetRx_error hr
      cases heq
      exact .inl ⟨rfl, errno, rfl⟩

theorem net_contract_iff (hio : restart calls = some io)
    (h : netEnqueue cfg calls pipe queue mem q.request = some (mem', o)) :
    Contract q o (netOutputs cfg queue q.request) io.bytes ↔
      ∀ n data, queue = .tx → io = .done n data → netOutputs cfg queue q.request ≤ n := by
  rcases netEnqueue_cases hio h with ⟨rfl, errno, rfl⟩ | ⟨hok, n, data, rfl⟩
  · constructor
    · rintro - n data - ⟨⟩
    · exact fun _ => ⟨fun _ => .refl q, by simp⟩
  · constructor
    · rintro hc n' data' - heq
      cases heq
      exact hc.done hok
    · intro hall
      refine ⟨fun hfail => ?_, fun _ => ?_⟩
      · rw [hok] at hfail
        cases hfail
      · cases queue with
        | rx => exact Nat.zero_le _
        | tx => exact hall n data rfl rfl

theorem console_contract_iff {queue : ConsoleQueue} (hio : restart calls = some io)
    (h : consoleEnqueue calls queue mem q.request = some (mem', o)) :
    Contract q o (consoleOutputs queue q.request) io.bytes ↔
      ∃ n data, io = .done n data ∧ consoleOutputs queue q.request ≤ n := by
  rw [consoleEnqueue, hio] at h
  obtain ⟨rfl, rfl⟩ := Prod.mk.inj (some.inj h)
  cases io with
  | done n data =>
    refine ⟨fun hc => ⟨n, data, rfl, hc.done rfl⟩, ?_⟩
    rintro ⟨n', data', heq, hle⟩
    cases heq
    exact ⟨by simp, fun _ => hle⟩
  | error errno =>
    refine ⟨fun hc => absurd (hc.failed rfl) (not_unconsumed q), ?_⟩
    rintro ⟨n, data, heq, -⟩
    cases heq

theorem blkCall_pwrite {h data : Iovec}
    (heq : blkCall mem h data = some (.pwrite bytes len offset)) : len = data.len := by
  unfold blkCall at heq
  dsimp only at heq
  split at heq <;> cases heq
  rfl

theorem requestCall_pwrite {h data t : Iovec} (heq : requestCall mem h data t = some (.pwrite bytes len offset)) :
    len = data.len := by
  unfold requestCall at heq
  split_ifs at heq
  exact blkCall_pwrite heq

theorem blk_contract_iff {host : HostCall → Answer} (hhost : WritesAtMost host)
    (mem : ℕ → Byte) (q : Virtq) (bufs : List Iovec) :
    Contract q ⟨some 0, true⟩ (blkOutputs mem bufs) (blkAccepted host mem bufs) ↔
      blkOutputs mem bufs = 0 ∨ BlkWritten host mem bufs := by
  have hcontract : Contract q ⟨some 0, true⟩ (blkOutputs mem bufs) (blkAccepted host mem bufs) ↔
        blkOutputs mem bufs ≤ blkAccepted host mem bufs :=
    ⟨fun hc => hc.done rfl, fun hle => ⟨by simp, fun _ => hle⟩⟩
  rw [hcontract]
  rcases bufs with _ | ⟨h, _ | ⟨data, _ | ⟨b, rest⟩⟩⟩
  · simp [blkOutputs, blkAccepted, BlkWritten]
  · simp [blkAccepted, BlkWritten]
  · simp [blkAccepted, BlkWritten]
  · set t := (b :: rest).getLast (List.cons_ne_nil b rest) with ht
    have houtputs : blkOutputs mem (h :: data :: b :: rest) = 0 ∨
        blkOutputs mem (h :: data :: b :: rest) = data.len.toNat + room (b :: rest).dropLast := by
      rw [blkOutputs]
      split_ifs
      · exact .inr (by simp [room])
      · exact .inl rfl
    simp only [blkAccepted, BlkWritten, ← ht]
    rcases houtputs with hzero | hsum
    · rw [hzero]
      simp
    · rw [hsum]
      cases hcall : requestCall mem h data t with
      | none => simp
      | some call =>
        cases call with
        | pread base len offset => simp
        | fsync => simp
        | pwrite bytes len offset =>
          obtain rfl := requestCall_pwrite hcall
          have hle := hhost bytes data.len offset
          simp only [some.injEq, HostCall.pwrite.injEq, Nat.add_eq_zero_iff]
          constructor
          · intro hsent
            by_cases hempty : data.len.toNat = 0 ∧ room (b :: rest).dropLast = 0
            · exact .inl hempty
            · exact .inr ⟨by omega, bytes, data.len, offset, ⟨rfl, rfl, rfl⟩, by omega⟩
          · rintro (⟨hlen, hroom⟩ | ⟨hroom, bytes', len', offset', ⟨rfl, rfl, rfl⟩, hret⟩)
            · omega
            · omega

/-- **When a device keeps the promise of `enqueue`.** The network device, if a packet that was sent
was sent as a whole. The console, if the call to the host does not fail and has moved all that the
request sends. The block device, if the request is no write of any bytes, or its data is in one
buffer that the host has written as a whole. -/
theorem contract_iff (calls : List IoResult) (io : IoResult) (mem : ℕ → Byte) (q : Virtq) :
    (∀ (cfg : NetConfig) (pipe : IoResult) (queue : NetQueue) (mem' : ℕ → Byte) (o : Outcome),
      restart calls = some io → netEnqueue cfg calls pipe queue mem q.request = some (mem', o) →
      (Contract q o (netOutputs cfg queue q.request) io.bytes ↔
        ∀ n data, queue = .tx → io = .done n data → netOutputs cfg queue q.request ≤ n)) ∧
    (∀ (queue : ConsoleQueue) (mem' : ℕ → Byte) (o : Outcome), restart calls = some io →
      consoleEnqueue calls queue mem q.request = some (mem', o) →
      (Contract q o (consoleOutputs queue q.request) io.bytes ↔
        ∃ n data, io = .done n data ∧ consoleOutputs queue q.request ≤ n)) ∧
    ∀ host : HostCall → Answer, WritesAtMost host →
      (Contract q ((blkOps host).enqueue mem q.request).2 (blkOutputs mem q.request.buf)
          (blkAccepted host mem q.request.buf) ↔
        blkOutputs mem q.request.buf = 0 ∨ BlkWritten host mem q.request.buf) := by
  refine ⟨?_, ?_, ?_⟩
  · intro cfg pipe queue mem' o hio h
    exact net_contract_iff hio h
  · intro queue mem' o hio h
    exact console_contract_iff hio h
  · intro host hhost
    exact blk_contract_iff hhost mem q q.request.buf

/-- The console writes both buffers of a request. -/
theorem contract_iff_twoBuffers :
    ∃ o, consoleEnqueue [.error eintr, .done 0x10000 []] .tx (fun _ => 0) twoBuffers.request =
        some (fun _ => 0, o) ∧ Contract twoBuffers o 0x10000 0x10000 := by
  have hio : restart [.error eintr, .done 0x10000 []] = some (.done 0x10000 []) := by decide
  have hroom : consoleOutputs .tx twoBuffers.request = 0x10000 := by decide
  have h : consoleEnqueue [.error eintr, .done 0x10000 []] .tx (fun _ => 0) twoBuffers.request =
      some (fun _ => 0, ⟨some (BitVec.ofNat 32 0x10000), true⟩) := rfl
  have hc := ((contract_iff _ _ _ twoBuffers).2.1 _ _ _ hio h).mpr ⟨_, _, rfl, hroom.le⟩
  rw [hroom] at hc
  exact ⟨_, h, hc⟩

/-- The host cannot write to the console. The request fails, and it is consumed. -/
theorem console_drops_request : ∃ o, consoleEnqueue [.error ebadf] .tx (fun _ => 0) twoBuffers.request =
        some (fun _ => 0, o) ∧ o.ok = false ∧ (twoBuffers.settle o).usedIdx = 1 ∧
      (twoBuffers.settle o).lastAvailIdx = 1 ∧ ∀ outputs accepted, ¬ Contract twoBuffers o outputs accepted := by
  refine ⟨⟨some 0, false⟩, rfl, rfl, by decide, by decide, fun outputs accepted hc => ?_⟩
  exact not_unconsumed twoBuffers (hc.failed rfl)

end SgxLkl.Host
