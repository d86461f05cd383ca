import SgxLkl.Lib.Lts
import SgxLkl.Luks.Header

/-!
# Block device windows

A block device is a file of which a window is used: the bytes from the offset up to the size. All values have
64 bits, and `lseek`, `read` and `write` work on signed ones. For the offset `-1` the error of `lseek` is taken for
success, and the transfer is where the file descriptor stands.

* `Bd.Window`: the window lies in the file; `Fd.window_step` says which calls keep it.
* **`window_of_run`**: after which calls the window lies in the file, and which transfers are those of the window.
* **`Bd.Window.device_get`**, **`Bd.Window.device_put`**: the window is a block device as LUKS uses it.
-/

namespace SgxLkl.Luks

open BitVec

/-! ## Files -/

/-- A regular file. -/
structure File where
  size : ℕ
  data : ℕ → Byte
  small : size < 2 ^ 63

/-- `MAX_RW_COUNT`: one call transfers no more. -/
def maxRwCount : ℕ := 0x7ffff000

/-- `lseek` to a place takes no negative offset. That it fails is not seen for `-1`, see `Fd`. -/
def seeks (off : Word) : Bool := off.toNat < 2 ^ 63

/-- `read` at a place: what it returns, and the bytes. -/
def File.read (f : File) (readable : Bool) (off size : Word) : ℤ × List Byte :=
  if ¬ readable ∨ 2 ^ 63 ≤ size.toNat then (-1, [])
  else
    let n := min (min size.toNat maxRwCount) (f.size - off.toNat)
    (n, readRange f.data off.toNat n)

/-- `write` at a place: what it returns, and the file. -/
def File.write (f : File) (writable : Bool) (off size : Word) (blocks : List Byte) : ℤ × File :=
  if ¬ writable ∨ 2 ^ 63 ≤ size.toNat then (-1, f)
  else
    let n := min size.toNat maxRwCount
    if h : off.toNat + n < 2 ^ 63 then
      (n, ⟨max f.size (off.toNat + n), writeRange f.data off.toNat (blocks.take n), max_lt f.small h⟩)
    else (-1, f)

variable {f : File} {off size blkno nblocks : Word} {blocks : List Byte}

theorem File.read_eq {readable : Bool} (h : (f.read readable off size).1 = (size.toNat : ℤ)) :
    (f.read readable off size).2 = readRange f.data off.toNat size.toNat := by
  unfold File.read at h ⊢
  split_ifs at h ⊢ with hbad
  · dsimp only at h
    omega
  · exact congrArg (readRange f.data off.toNat) (Int.ofNat_inj.mp h)

theorem File.write_eq {writable : Bool} (h : (f.write writable off size blocks).1 = (size.toNat : ℤ)) :
    (f.write writable off size blocks).2.data = writeRange f.data off.toNat (blocks.take size.toNat) := by
  unfold File.write at h ⊢
  split_ifs at h ⊢ with hbad
  · dsimp only at h
    omega
  · dsimp only at h ⊢
    split_ifs at h ⊢ with hsmall
    · exact congrArg (fun n => writeRange f.data off.toNat (blocks.take n)) (Int.ofNat_inj.mp h)
    · dsimp only at h
      omega

/-! ## Block devices -/

/-- `VIC_RDONLY`, `VIC_WRONLY`, `VIC_RDWR`, `VIC_CREATE` and `VIC_TRUNC`. -/
structure Flags where
  rdonly : Bool := false
  wronly : Bool := false
  rdwr : Bool := false
  create : Bool := false
  trunc : Bool := false

/-- `blockdev_t` with its file; `readable` and `writable` come from the flags of `open`. -/
structure Bd where
  file : File
  fullSize : Word
  size : Word
  offset : Word
  blockSize : Word
  create : Bool
  readable : Bool
  writable : Bool

/-- `_is_power_of_two`. -/
def isPowerOfTwo (x : Word) : Bool := (List.range 64).any fun i => x = 1 <<< i

/-- `vic_blockdev_open` of a regular file that exists. -/
def vicBlockdevOpen (file : File) (flags : Flags) (blockSize : Word) : Except VicResult Bd :=
  let blockSize := if blockSize = 0 then 512 else blockSize
  if (flags.rdwr && (flags.rdonly || flags.wronly)) || (flags.rdonly && flags.wronly) then .error .badFlags
  else if ¬ isPowerOfTwo blockSize then .error .badParameter
  else
    let file : File := if flags.trunc then ⟨0, file.data, by decide⟩ else file
    let size := BitVec.ofNat 64 file.size
    if size % blockSize ≠ 0 then .error .notBlockMultiple
    else .ok ⟨file, size, size, 0, blockSize, flags.create, !flags.wronly, flags.rdwr || flags.wronly⟩

/-- `_bd_set_offset`. -/
def Bd.setOffset (bd : Bd) (offset : Word) : VicResult × Bd :=
  if offset % bd.blockSize ≠ 0 then (.badParameter, bd)
  else if bd.size < offset then (.badParameter, bd)
  else (.ok, { bd with offset := offset })

/-- `_bd_set_size`. -/
def Bd.setSize (bd : Bd) (size : Word) : VicResult × Bd :=
  if size % bd.blockSize ≠ 0 then (.badParameter, bd)
  else if bd.fullSize < size then (.badParameter, bd)
  else (.ok, { bd with size := size })

/-- `_bd_set_block_size`. -/
def Bd.setBlockSize (bd : Bd) (blockSize : Word) : VicResult × Bd :=
  if blockSize = 0 ∨ ¬ isPowerOfTwo blockSize then (.badParameter, bd)
  else if bd.size % blockSize ≠ 0 then (.notBlockMultiple, bd)
  else (.ok, { bd with blockSize := blockSize })

/-- `_bd_get_size`. -/
def Bd.getSize (bd : Bd) : Word := bd.size - bd.offset

/-- `_bd_get`, where `lseek` goes to the offset or fails. -/
def Bd.get (bd : Bd) (blkno nblocks : Word) : Except VicResult (List Byte) :=
  let off := blkno * bd.blockSize + bd.offset
  let size := nblocks * bd.blockSize
  if bd.size < off + size then .error .seekFailed
  else if !seeks off then .error .seekFailed
  else
    let r := bd.file.read bd.readable off size
    if r.1 ≠ size.toInt then .error .readFailed else .ok r.2

/-- `_bd_put`, where `lseek` goes to the offset or fails. -/
def Bd.put (bd : Bd) (blkno nblocks : Word) (blocks : List Byte) : VicResult × Bd :=
  let off := blkno * bd.blockSize + bd.offset
  let size := nblocks * bd.blockSize
  if ¬ bd.create ∧ bd.size < off + size then (.seekFailed, bd)
  else if !seeks off then (.seekFailed, bd)
  else
    let r := bd.file.write bd.writable off size blocks
    if r.1 ≠ size.toInt then (.readFailed, { bd with file := r.2 })
    else if bd.create ∧ bd.size < off + size then (.ok, { bd with file := r.2, size := off + size })
    else (.ok, { bd with file := r.2 })

/-- A block device with the position of its file descriptor. -/
structure Fd where
  bd : Bd
  position : Word

/-- The offset of a transfer in the file, and its size. -/
def Bd.extent (bd : Bd) (blkno nblocks : Word) : Word × Word :=
  (blkno * bd.blockSize + bd.offset, nblocks * bd.blockSize)

/-- `_bd_get`: what it returns, and where it leaves the file descriptor. -/
def Fd.get (fd : Fd) (blkno nblocks : Word) : Except VicResult (List Byte) × Fd :=
  let (off, size) := fd.bd.extent blkno nblocks
  if fd.bd.size < off + size then (.error .seekFailed, fd)
  else if off = -1 then
    -- `lseek` fails with the result that is asked for
    let r := fd.bd.file.read fd.bd.readable fd.position size
    (if r.1 ≠ size.toInt then .error .readFailed else .ok r.2, { fd with position := fd.position + BitVec.ofInt 64 (max r.1 0) })
  else if !seeks off then (.error .seekFailed, fd)
  else
    (fd.bd.get blkno nblocks,
      { fd with position := off + BitVec.ofInt 64 (max (fd.bd.file.read fd.bd.readable off size).1 0) })

/-- `_bd_put`. -/
def Fd.put (fd : Fd) (blkno nblocks : Word) (blocks : List Byte) : VicResult × Fd :=
  let (off, size) := fd.bd.extent blkno nblocks
  if ¬ fd.bd.create ∧ fd.bd.size < off + size then (.seekFailed, fd)
  else if off = -1 then
    let r := fd.bd.file.write fd.bd.writable fd.position size blocks
    let position := fd.position + BitVec.ofInt 64 (max r.1 0)
    if r.1 ≠ size.toInt then (.readFailed, ⟨{ fd.bd with file := r.2 }, position⟩)
    else if fd.bd.create ∧ fd.bd.size < off + size then
      (.ok, ⟨{ fd.bd with file := r.2, size := off + size }, position⟩)
    else (.ok, ⟨{ fd.bd with file := r.2 }, position⟩)
  else if !seeks off then (.seekFailed, fd)
  else
    let r := fd.bd.put blkno nblocks blocks
    (r.1, ⟨r.2, off + BitVec.ofInt 64 (max (fd.bd.file.write fd.bd.writable off size blocks).1 0)⟩)

/-- The calls for an open block device. -/
inductive Call
  | setBlockSize (blockSize : Word)
  | setSize (size : Word)
  | setOffset (offset : Word)
  | get (blkno nblocks : Word)
  | put (blkno nblocks : Word) (blocks : List Byte)

/-- A call, and what it returns. -/
def Fd.call (fd : Fd) : Call → VicResult × Fd
  | .setBlockSize n => ((fd.bd.setBlockSize n).1, { fd with bd := (fd.bd.setBlockSize n).2 })
  | .setSize n => ((fd.bd.setSize n).1, { fd with bd := (fd.bd.setSize n).2 })
  | .setOffset n => ((fd.bd.setOffset n).1, { fd with bd := (fd.bd.setOffset n).2 })
  | .get blkno nblocks =>
    match fd.get blkno nblocks with
    | (.ok _, fd) => (.ok, fd)
    | (.error r, fd) => (r, fd)
  | .put blkno nblocks blocks => fd.put blkno nblocks blocks

/-- One call with its result. -/
def FdStep (fd : Fd) (c : Call × VicResult) (fd' : Fd) : Prop := fd.call c.1 = (c.2, fd')

/-! ## The window -/

/-- The sizes that hold after all calls without `VIC_CREATE`: a write may make the file larger. -/
structure Bd.Sized (bd : Bd) : Prop where
  create : bd.create = false
  size_le : bd.size.toNat ≤ bd.fullSize.toNat
  file : bd.fullSize.toNat ≤ bd.file.size

/-- The window lies in the file. -/
structure Bd.Window (bd : Bd) : Prop extends bd.Sized where
  offset_le : bd.offset.toNat ≤ bd.size.toNat

variable {bd : Bd}

theorem window_of_open {flags : Flags} {blockSize : Word}
    (hcreate : flags.create = false) (h : vicBlockdevOpen f flags blockSize = .ok bd) : bd.Window := by
  have hfile : ∀ g : File, (BitVec.ofNat 64 g.size).toNat = g.size := fun g => by
    rw [BitVec.toNat_ofNat]
    exact Nat.mod_eq_of_lt (g.small.trans (by decide))
  unfold vicBlockdevOpen at h
  dsimp only at h
  split_ifs at h <;> cases h
  all_goals exact ⟨⟨hcreate, le_rfl, (hfile _).le⟩, Nat.zero_le _⟩

section

variable {bd bd' : Bd} {blkno nblocks : Word} {blocks : List Byte}

theorem File.size_le_write (f : File) (writable : Bool) (off size : Word) (blocks : List Byte) :
    f.size ≤ (f.write writable off size blocks).2.size := by
  unfold File.write
  split_ifs
  · exact le_rfl
  · dsimp only
    split_ifs
    · exact le_max_left _ _
    · exact le_rfl

theorem Bd.Sized.write (h : bd.Sized) (off size : Word) (blocks : List Byte) :
    { bd with file := (bd.file.write bd.writable off size blocks).2 }.Sized :=
  ⟨h.create, h.size_le, h.file.trans (bd.file.size_le_write _ _ _ _)⟩

/-- A transfer leaves the window as it is, and does not make the file smaller. -/
theorem Bd.Sized.put (h : bd.Sized) (blkno nblocks : Word) (blocks : List Byte) :
    (bd.put blkno nblocks blocks).2.Sized ∧ (bd.put blkno nblocks blocks).2.offset = bd.offset ∧
      (bd.put blkno nblocks blocks).2.size = bd.size := by
  unfold Bd.put
  dsimp only
  split_ifs with hle hseek hfailed hgrow
  · exact ⟨h, rfl, rfl⟩
  · exact ⟨h, rfl, rfl⟩
  · exact ⟨h.write _ _ _, rfl, rfl⟩
  · rw [h.create] at hgrow
    cases hgrow.1
  · exact ⟨h.write _ _ _, rfl, rfl⟩

theorem Fd.put_sized {fd : Fd} (h : fd.bd.Sized) (blkno nblocks : Word) (blocks : List Byte) :
    (fd.put blkno nblocks blocks).2.bd.Sized ∧ (fd.put blkno nblocks blocks).2.bd.offset = fd.bd.offset ∧
      (fd.put blkno nblocks blocks).2.bd.size = fd.bd.size := by
  unfold Fd.put
  dsimp only [Bd.extent]
  split_ifs with hle hminus hfailed hgrow hseek
  · exact ⟨h, rfl, rfl⟩
  · exact ⟨h.write _ _ _, rfl, rfl⟩
  · rw [h.create] at hgrow
    cases hgrow.1
  · exact ⟨h.write _ _ _, rfl, rfl⟩
  · exact ⟨h, rfl, rfl⟩
  · exact h.put blkno nblocks blocks

theorem Fd.get_bd (fd : Fd) (blkno nblocks : Word) : (fd.get blkno nblocks).2.bd = fd.bd := by
  unfold Fd.get
  dsimp only [Bd.extent]
  split_ifs <;> rfl

/-- The calls that keep the window: the size is not set below the offset. -/
def Fd.Keeps (fd : Fd) (c : Call × VicResult) : Prop :=
  match c with
  | (.setSize size, .ok) => fd.bd.offset ≤ size
  | _ => True

/-- **One call** keeps the sizes, and it keeps the window unless it sets the size below the offset. -/
theorem Fd.window_step {fd fd' : Fd} {c : Call × VicResult} (h : fd.bd.Window) (hstep : FdStep fd c fd') :
    fd'.bd.Sized ∧ (fd'.bd.offset.toNat ≤ fd'.bd.size.toNat ↔ fd.Keeps c) := by
  obtain ⟨call, r⟩ := c
  have hstep : fd.call call = (r, fd') := hstep
  have hsized := h.toSized
  have hle := h.offset_le
  cases call with
  | setBlockSize n =>
    have hbd : fd'.bd = (fd.bd.setBlockSize n).2 := congrArg (fun x => x.2.bd) hstep.symm
    have hkeeps : fd.Keeps (.setBlockSize n, r) := trivial
    rw [hbd, iff_true_right hkeeps]
    unfold Bd.setBlockSize
    split_ifs
    · exact ⟨hsized, hle⟩
    · exact ⟨hsized, hle⟩
    · exact ⟨⟨hsized.create, hsized.size_le, hsized.file⟩, hle⟩
  | setSize n =>
    have hbd : fd'.bd = (fd.bd.setSize n).2 := congrArg (fun x => x.2.bd) hstep.symm
    have hr : r = (fd.bd.setSize n).1 := congrArg Prod.fst hstep.symm
    rw [hbd, hr]
    unfold Bd.setSize
    split_ifs with hmod hfull
    · exact ⟨hsized, iff_of_true hle trivial⟩
    · exact ⟨hsized, iff_of_true hle trivial⟩
    · exact ⟨⟨hsized.create, Nat.not_lt.mp hfull, hsized.file⟩, Iff.rfl⟩
  | setOffset n =>
    have hbd : fd'.bd = (fd.bd.setOffset n).2 := congrArg (fun x => x.2.bd) hstep.symm
    have hkeeps : fd.Keeps (.setOffset n, r) := trivial
    rw [hbd, iff_true_right hkeeps]
    unfold Bd.setOffset
    split_ifs with hmod hsize
    · exact ⟨hsized, hle⟩
    · exact ⟨hsized, hle⟩
    · exact ⟨⟨hsized.create, hsized.size_le, hsized.file⟩, Nat.not_lt.mp hsize⟩
  | get blkno nblocks =>
    have hbd : fd'.bd = fd.bd := by
      have hfd : fd' = (fd.call (.get blkno nblocks)).2 := congrArg Prod.snd hstep.symm
      rw [hfd, ← fd.get_bd blkno nblocks]
      unfold Fd.call
      dsimp only
      split <;> next heq => rw [heq]
    have hkeeps : fd.Keeps (.get blkno nblocks, r) := trivial
    rw [hbd, iff_true_right hkeeps]
    exact ⟨hsized, hle⟩
  | put blkno nblocks blocks =>
    have hfd : fd' = (fd.put blkno nblocks blocks).2 := congrArg Prod.snd hstep.symm
    have hkeeps : fd.Keeps (.put blkno nblocks blocks, r) := trivial
    obtain ⟨hput, hoffset, hsize⟩ := Fd.put_sized hsized blkno nblocks blocks
    rw [hfd, iff_true_right hkeeps, hoffset, hsize]
    exact ⟨hput, hle⟩

/-! ## What is transferred -/

/-- The products do not overflow, and a transfer is not as long as a negative number. -/
def Bd.Exact (bd : Bd) (blkno nblocks : Word) : Prop :=
  blkno.toNat * bd.blockSize.toNat + bd.offset.toNat < 2 ^ 64 ∧ nblocks.toNat * bd.blockSize.toNat < 2 ^ 63

theorem Bd.Exact.toNat_off (h : bd.Exact blkno nblocks) :
    (blkno * bd.blockSize + bd.offset).toNat = blkno.toNat * bd.blockSize.toNat + bd.offset.toNat := by
  rw [toNat_add, toNat_mul, Nat.mod_add_mod, Nat.mod_eq_of_lt h.1]

theorem Bd.Exact.toNat_size (h : bd.Exact blkno nblocks) :
    (nblocks * bd.blockSize).toNat = nblocks.toNat * bd.blockSize.toNat := by
  rw [toNat_mul, Nat.mod_eq_of_lt (h.2.trans (by decide))]

theorem Bd.Exact.toInt_size (h : bd.Exact blkno nblocks) :
    (nblocks * bd.blockSize).toInt = (nblocks.toNat * bd.blockSize.toNat : ℕ) := by
  rw [toInt_eq_toNat_of_lt, h.toNat_size]
  rw [h.toNat_size]
  have := h.2
  omega

/-- The transfer stays in the window. -/
def Bd.Inside (bd : Bd) (blkno nblocks : Word) : Prop :=
  bd.offset.toNat + blkno.toNat * bd.blockSize.toNat + nblocks.toNat * bd.blockSize.toNat ≤ bd.size.toNat

theorem Bd.Exact.inside (h : bd.Exact blkno nblocks) (hoff : seeks (blkno * bd.blockSize + bd.offset) = true)
    (hle : ¬ bd.size < blkno * bd.blockSize + bd.offset + nblocks * bd.blockSize) : bd.Inside blkno nblocks := by
  have hoff : (blkno * bd.blockSize + bd.offset).toNat < 2 ^ 63 := of_decide_eq_true hoff
  have hsize := h.2
  rw [lt_def, toNat_add, h.toNat_off, h.toNat_size, Nat.mod_eq_of_lt (by rw [h.toNat_off] at hoff; omega)]
    at hle
  unfold Bd.Inside
  omega

/-- **Blocks are read from the window.** -/
theorem Bd.Exact.get_eq (hexact : bd.Exact blkno nblocks) {xs : List Byte} (hget : bd.get blkno nblocks = .ok xs) :
    bd.Inside blkno nblocks ∧ xs = readRange bd.file.data
      (bd.offset.toNat + blkno.toNat * bd.blockSize.toNat) (nblocks.toNat * bd.blockSize.toNat) := by
  unfold Bd.get at hget
  dsimp only at hget
  split_ifs at hget with hle hseek hread
  cases hget
  refine ⟨hexact.inside (by simpa using hseek) hle, ?_⟩
  have hread := not_not.mp hread
  rw [hexact.toInt_size, ← hexact.toNat_size] at hread
  rw [File.read_eq hread, hexact.toNat_off, hexact.toNat_size, Nat.add_comm]

theorem Bd.Exact.put_eq (hexact : bd.Exact blkno nblocks) (hput : bd.put blkno nblocks blocks = (.ok, bd')) :
    seeks (blkno * bd.blockSize + bd.offset) = true ∧
      ∃ size, bd' = { bd with size := size, file := bd'.file } ∧
        bd'.file.data = writeRange bd.file.data (bd.offset.toNat + blkno.toNat * bd.blockSize.toNat)
          (blocks.take (nblocks.toNat * bd.blockSize.toNat)) := by
  unfold Bd.put at hput
  dsimp only at hput
  split_ifs at hput with hle hseek hwrite hgrow
  · cases hput
  · cases hput
  · cases hput
  all_goals
    have hwrite := not_not.mp hwrite
    rw [hexact.toInt_size, ← hexact.toNat_size] at hwrite
    cases hput
    refine ⟨by simpa using hseek, _, rfl, ?_⟩
    rw [File.write_eq hwrite, hexact.toNat_off, hexact.toNat_size, Nat.add_comm]

/-- A write into the window does not change the size of the file. -/
theorem Bd.Window.size_write (h : bd.Window) (hexact : bd.Exact blkno nblocks) (hinside : bd.Inside blkno nblocks)
    (blocks : List Byte) :
    (bd.file.write bd.writable (blkno * bd.blockSize + bd.offset) (nblocks * bd.blockSize) blocks).2.size =
      bd.file.size := by
  unfold File.write
  split_ifs
  · rfl
  · dsimp only
    split_ifs
    · have hsize := h.size_le
      have hfile := h.file
      have hoff := hexact.toNat_off
      have hlength := hexact.toNat_size
      unfold Bd.Inside at hinside
      exact max_eq_left (by omega)
    · rfl

/-- **Blocks are written to the window**, and nothing else is changed. -/
theorem Bd.Window.put_eq (h : bd.Window) (hexact : bd.Exact blkno nblocks)
    (hput : bd.put blkno nblocks blocks = (.ok, bd')) :
    bd.Inside blkno nblocks ∧ ∃ file, bd' = { bd with file := file } ∧ file.size = bd.file.size ∧
      file.data = writeRange bd.file.data (bd.offset.toNat + blkno.toNat * bd.blockSize.toNat)
        (blocks.take (nblocks.toNat * bd.blockSize.toNat)) := by
  have hcreate := h.create
  unfold Bd.put at hput
  dsimp only at hput
  split_ifs at hput with hle hseek hwrite hgrow
  · cases hput
  · cases hput
  · cases hput
  · rw [hcreate] at hgrow
    cases hgrow.1
  · cases hput
    have hle : ¬ bd.size < blkno * bd.blockSize + bd.offset + nblocks * bd.blockSize := by
      simpa [hcreate] using hle
    have hinside := hexact.inside (by simpa using hseek) hle
    have hwrite := not_not.mp hwrite
    rw [hexact.toInt_size, ← hexact.toNat_size] at hwrite
    refine ⟨hinside, _, rfl, h.size_write hexact hinside blocks, ?_⟩
    rw [File.write_eq hwrite, hexact.toNat_off, hexact.toNat_size, Nat.add_comm]

/-- The window is in the file, so a transfer inside of it does not come near `2 ^ 63`. -/
theorem Bd.Sized.exact_of_inside (h : bd.Sized) (hinside : bd.Inside blkno nblocks) :
    blkno.toNat * bd.blockSize.toNat + bd.offset.toNat < 2 ^ 64 - 1 ∧
      nblocks.toNat * bd.blockSize.toNat < 2 ^ 63 := by
  have hsize := h.size_le
  have hfile := h.file
  have hsmall := bd.file.small
  unfold Bd.Inside at hinside
  omega

end

section

variable {fd fd' : Fd} {blkno nblocks : Word} {blocks xs : List Byte}

/-- The products do not overflow, the offset is not `-1`, and a transfer is not as long as a negative number. -/
def Fd.Exact (fd : Fd) (blkno nblocks : Word) : Prop :=
  blkno.toNat * fd.bd.blockSize.toNat + fd.bd.offset.toNat < 2 ^ 64 - 1 ∧
    nblocks.toNat * fd.bd.blockSize.toNat < 2 ^ 63

theorem Fd.Exact.toBd (h : fd.Exact blkno nblocks) : fd.bd.Exact blkno nblocks := ⟨h.1.trans (by decide), h.2⟩

theorem Fd.Exact.off_ne (h : fd.Exact blkno nblocks) : blkno * fd.bd.blockSize + fd.bd.offset ≠ -1 := by
  intro heq
  have hoff := h.toBd.toNat_off
  rw [heq, show (-1 : Word).toNat = 2 ^ 64 - 1 from rfl] at hoff
  exact absurd h.1 (by omega)

/-- **A read that succeeds** is one of the window if and only if it is exact. -/
theorem Fd.get_iff (h : fd.bd.Window) (hget : fd.get blkno nblocks = (.ok xs, fd')) :
    (fd.bd.Inside blkno nblocks ∧ xs = readRange fd.bd.file.data
      (fd.bd.offset.toNat + blkno.toNat * fd.bd.blockSize.toNat) (nblocks.toNat * fd.bd.blockSize.toNat)) ↔
      fd.Exact blkno nblocks := by
  refine ⟨fun hin => h.exact_of_inside hin.1, fun hexact => hexact.toBd.get_eq ?_⟩
  unfold Fd.get at hget
  dsimp only [Bd.extent] at hget
  rw [if_neg hexact.off_ne] at hget
  split_ifs at hget with hle hseek
  · cases hget
  · cases hget
  · exact congrArg Prod.fst hget

/-- **A write that succeeds** is one to the window if and only if it is exact. -/
theorem Fd.put_iff (h : fd.bd.Window) (hput : fd.put blkno nblocks blocks = (.ok, fd')) :
    (fd.bd.Inside blkno nblocks ∧ fd'.bd.file.size = fd.bd.file.size ∧
      fd'.bd.file.data = writeRange fd.bd.file.data (fd.bd.offset.toNat + blkno.toNat * fd.bd.blockSize.toNat)
        (blocks.take (nblocks.toNat * fd.bd.blockSize.toNat))) ↔ fd.Exact blkno nblocks := by
  refine ⟨fun hin => h.exact_of_inside hin.1, fun hexact => ?_⟩
  unfold Fd.put at hput
  dsimp only [Bd.extent] at hput
  rw [if_neg hexact.off_ne] at hput
  split_ifs at hput with hle hseek
  · cases hput
  · cases hput
  · have hbd : fd.bd.put blkno nblocks blocks = (.ok, fd'.bd) :=
      Prod.ext (congrArg (fun x => x.1) hput) (congrArg (fun x => x.2.bd) hput)
    obtain ⟨hinside, file, hfd, hsize, hdata⟩ := h.put_eq hexact.toBd hbd
    rw [hfd]
    exact ⟨hinside, hsize, hdata⟩

end

/-- **Block device windows.** After any calls that do not set the size below the offset, the window lies in the file and
the reported size is its length. The next call keeps it so if and only if it does not do that either. A transfer that
succeeds is one of the window if and only if it is exact. -/
theorem window_of_run {f : File} {flags : Flags} {blockSize : Word} {bd₀ : Bd} {fd : Fd} {calls : List (Call × VicResult)}
    (hcreate : flags.create = false) (hopen : vicBlockdevOpen f flags blockSize = .ok bd₀)
    (hrun : Run (Guarded FdStep Fd.Keeps) ⟨bd₀, 0⟩ calls fd) :
    (fd.bd.offset.toNat ≤ fd.bd.size.toNat ∧ fd.bd.size.toNat ≤ fd.bd.file.size ∧
      fd.bd.getSize.toNat = fd.bd.size.toNat - fd.bd.offset.toNat) ∧
      (∀ c fd', FdStep fd c fd' → (fd'.bd.offset.toNat ≤ fd'.bd.size.toNat ↔ fd.Keeps c)) ∧
      (∀ blkno nblocks xs fd', fd.get blkno nblocks = (.ok xs, fd') →
        ((fd.bd.Inside blkno nblocks ∧ xs = readRange fd.bd.file.data
          (fd.bd.offset.toNat + blkno.toNat * fd.bd.blockSize.toNat) (nblocks.toNat * fd.bd.blockSize.toNat)) ↔
          fd.Exact blkno nblocks)) ∧
      ∀ blkno nblocks blocks fd', fd.put blkno nblocks blocks = (.ok, fd') →
        ((fd.bd.Inside blkno nblocks ∧ fd'.bd.file.size = fd.bd.file.size ∧ fd'.bd.file.data =
          writeRange fd.bd.file.data (fd.bd.offset.toNat + blkno.toNat * fd.bd.blockSize.toNat)
            (blocks.take (nblocks.toNat * fd.bd.blockSize.toNat))) ↔ fd.Exact blkno nblocks) := by
  have h : fd.bd.Window := hrun.inv (I := fun fd => fd.bd.Window)
    (fun _ _ _ h hstep => ⟨(Fd.window_step h hstep.2).1, (Fd.window_step h hstep.2).2.mpr hstep.1⟩)
    (window_of_open hcreate hopen)
  exact ⟨⟨h.offset_le, h.size_le.trans h.file, toNat_sub_of_le h.offset_le⟩,
    fun _ _ hstep => (Fd.window_step h hstep).2, fun _ _ _ _ => Fd.get_iff h, fun _ _ _ _ => Fd.put_iff h⟩

/-- A file of eight blocks. -/
def sampleFile : File := ⟨4096, fun i => BitVec.ofNat 8 (i / 512), by decide⟩

/-- A window of that file. -/
def sampleBd (offset size : Word) : Bd := ⟨sampleFile, 4096, size, offset, 512, false, true, true⟩

theorem open_sampleFile : vicBlockdevOpen sampleFile { rdwr := true } 0 = .ok (sampleBd 0 4096) := rfl

/-- Blocks of a window that does not begin with the file. -/
theorem window_of_run_sample : (sampleBd 512 2048).getSize.toNat = 1536 ∧ (sampleBd 512 2048).Inside 1 2 := by
  have hrun : Run (Guarded FdStep Fd.Keeps) ⟨sampleBd 0 4096, 0⟩ [(.setOffset 512, .ok), (.setSize 2048, .ok)]
      ⟨sampleBd 512 2048, 0⟩ :=
    .cons ⟨trivial, rfl⟩ (.cons ⟨by unfold Fd.Keeps; decide, rfl⟩ (.nil _))
  obtain ⟨⟨-, -, hsize⟩, -, hget, -⟩ := window_of_run rfl open_sampleFile hrun
  obtain ⟨xs, fd', hread⟩ : ∃ xs fd', Fd.get ⟨sampleBd 512 2048, 0⟩ 1 2 = (.ok xs, fd') := ⟨_, _, rfl⟩
  exact ⟨hsize, ((hget 1 2 xs fd' hread).mpr (by unfold Fd.Exact; decide)).1⟩

/-- The size is set below the offset, and the reported size is negative; a block far behind the end of the file is read,
from the begin of the file; and with blocks of one byte the byte at offset `-1` is read, from where the file stands. -/
theorem window_lost :
    Run FdStep ⟨sampleBd 0 4096, 0⟩ [(.setOffset 2048, .ok), (.setSize 1024, .ok)] ⟨sampleBd 2048 1024, 0⟩ ∧
      (sampleBd 2048 1024).size < (sampleBd 2048 1024).offset ∧ (sampleBd 2048 1024).getSize.toNat = 2 ^ 64 - 1024 ∧
      (Fd.get ⟨sampleBd 0 4096, 0⟩ (2 ^ 55) 1).1 = .ok (List.replicate 512 0) ∧
      (Fd.get ⟨{ sampleBd 0 4096 with blockSize := 1 }, 512⟩ (2 ^ 64 - 1) 1).1 = .ok [1] :=
  ⟨.cons rfl (.cons rfl (.nil _)), by decide, rfl, by decide +kernel, by decide +kernel⟩

/-! ## The block device of LUKS -/

/-- The window as a block device. -/
def Bd.device (bd : Bd) : Blockdev :=
  ⟨bd.blockSize.toNat, bd.size.toNat - bd.offset.toNat, fun k => bd.file.data (bd.offset.toNat + k)⟩

variable {bd bd' : Bd} {blkno nblocks : Word} {blocks xs : List Byte}

/-- **What is read from the window** is read from the device. -/
theorem Bd.Window.device_get (h : bd.Window) (hexact : bd.Exact blkno nblocks) (hget : bd.get blkno nblocks = .ok xs) :
    bd.device.get blkno.toNat nblocks.toNat = some xs := by
  obtain ⟨hinside, rfl⟩ := hexact.get_eq hget
  have hle := h.offset_le
  unfold Bd.Inside at hinside
  have hfits : blkno.toNat * bd.device.blockSize + nblocks.toNat * bd.device.blockSize ≤ bd.device.size := by
    dsimp only [Bd.device]
    omega
  rw [Blockdev.get, if_pos hfits]
  simp only [readRange, Bd.device, Nat.add_assoc]

/-- **What is written to the window** is written to the device. -/
theorem Bd.Window.device_put (h : bd.Window) (hexact : bd.Exact blkno nblocks)
    (hput : bd.put blkno nblocks blocks = (.ok, bd')) :
    bd.device.put blkno.toNat nblocks.toNat blocks = some bd'.device := by
  obtain ⟨hinside, file, rfl, -, hdata⟩ := h.put_eq hexact hput
  have hle := h.offset_le
  unfold Bd.Inside at hinside
  have hfits : blkno.toNat * bd.device.blockSize + nblocks.toNat * bd.device.blockSize ≤ bd.device.size := by
    dsimp only [Bd.device]
    omega
  rw [Blockdev.put, if_pos hfits]
  refine congrArg some (congrArg (Blockdev.mk _ _) (funext fun k => ?_))
  simp only [Bd.device, hdata, writeRange_apply, Nat.add_sub_add_left, Nat.add_le_add_iff_left]

end SgxLkl.Luks
