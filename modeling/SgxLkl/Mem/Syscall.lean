import SgxLkl.Mem.Ops

/-!
# The `mmap` system call (`lkl/syscall-overrides-mem.c`)

`syscall_SYS_mmap` over the memory manager and a kernel of any type `κ` that answers `pread`. A
mapping of a file is an `enclave_mmap` without zeroing, followed by a loop of reads.

* **`readLoop_keeps`**: the loop changes bytes only, `readLoop_ends`: it ends as the reads do.
-/

namespace SgxLkl

open Mman BitVec

def mapShared : CInt := 1

def mapPrivate : CInt := 2

def mapFixed : CInt := 0x10

def mapAnonymous : CInt := 0x20

def enclaveMmapFilesPrivate : CInt := 1

def enclaveMmapFilesShared : CInt := 2

/-- The answer to a `pread`: its result and the bytes it puts into the buffer. -/
structure ReadResult (κ : Type) where
  ret : Word
  data : List Byte
  kernel : κ

/-- `pread_fn`, for a descriptor, a number of bytes and an offset. -/
abbrev Pread (κ : Type) := κ → CInt → Word → Word → ReadResult κ

/-- What a system call does; `none` if it never returns. -/
structure SysOutcome (κ : Type) where
  ret : Option Word
  kernel : κ
  st : Mman

def Mman.store (s : Mman) (buf : Word) (data : List Byte) : Mman :=
  { s with mem := fun a => data.getD (a - buf).toNat (s.mem a) }

def Mman.enclaveMmapFilesFlagsSupported (s : Mman) (flags : CInt) : CInt :=
  let supportedFlags :=
    if s.mmapFiles = enclaveMmapFilesShared then mapPrivate ||| mapShared
    else if s.mmapFiles = enclaveMmapFilesPrivate then mapPrivate
    else 0
  supportedFlags &&& flags

section Read

variable {κ : Type} (pread : Pread κ) (fd : CInt)

/-- The read loop of `syscall_SYS_mmap`; it returns the result of the last read. -/
def readLoop (mem length : Word) : ℕ → Word → Word → κ → Mman → Option (Word × κ × Mman)
  | 0, _, _, _, _ => none
  | fuel + 1, readb, offset, k, s =>
    let x := pread k fd (length - readb) offset
    let s := s.store (mem + readb) x.data
    if 0 < x.ret.toInt then readLoop mem length fuel (readb + x.ret) (offset + x.ret) x.kernel s
    else some (x.ret, x.kernel, s)

/-- The result of the last read of a sequence of reads of `count` bytes in all. -/
def readEnds : ℕ → Word → Word → κ → Option Word
  | 0, _, _, _ => none
  | fuel + 1, count, offset, k =>
    let x := pread k fd count offset
    if 0 < x.ret.toInt then readEnds fuel (count - x.ret) (offset + x.ret) x.kernel else some x.ret

/-- The file-backed mapping of `syscall_SYS_mmap`. The loop of reads takes at most `length + 1`
rounds, as a read returns no more bytes than are left. -/
def mapFile (addr length : Word) (prot flags : CInt) (offset : Word) (k : κ) (s : Mman) : SysOutcome κ :=
  let x := enclaveMmap addr length (flags &&& mapFixed) (prot ||| protWrite) 0 s
  match x.ret with
  | none => ⟨none, k, x.st⟩
  | some mem =>
    -- a comparison of pointers: it holds for the error values too
    if mem > 0 then
      match readLoop pread fd mem length (length.toNat + 1) 0 offset k x.st with
      | none => ⟨none, k, x.st⟩
      | some (ret, k, s) =>
        if ret.toInt < 0 then
          -- unmaps the region at the hint, not the one at `mem`
          let y := enclaveMunmap addr length s
          ⟨y.ret.map fun _ => -eBadf, k, y.st⟩
        else ⟨some mem, k, if prot ||| protWrite ≠ prot then s.mprotect mem length prot else s⟩
    else ⟨some mem, k, x.st⟩

def syscallSysMmap (addr length : Word) (prot flags : CInt) (offset : Word) (k : κ) (s : Mman) : SysOutcome κ :=
  if flags &&& mapShared ≠ 0 ∧ flags &&& mapPrivate ≠ 0 then ⟨some (-eInval), k, s⟩
  else if flags &&& mapAnonymous ≠ 0 then
    let x := enclaveMmap addr length (flags &&& mapFixed) prot 1 s
    ⟨x.ret, k, x.st⟩
  else if 0 ≤ fd.toInt ∧ s.enclaveMmapFilesFlagsSupported flags ≠ 0 then
    mapFile pread fd addr length prot flags offset k s
  else ⟨some (-eInval), k, s⟩

/-! ## The read loop -/

variable {pread fd}

theorem readLoop_keeps {mem length : Word} {fuel : ℕ} {readb offset ret : Word} {k k' : κ}
    {s s' : Mman} (h : readLoop pread fd mem length fuel readb offset k s = some (ret, k', s')) :
    s'.words = s.words ∧ s'.layout = s.layout := by
  induction fuel generalizing readb offset k s with
  | zero => cases h
  | succ fuel ih =>
    simp only [readLoop] at h
    split_ifs at h
    · have hk := ih h
      exact hk
    · cases h
      exact ⟨rfl, rfl⟩

theorem readLoop_ends (mem length : Word) (fuel : ℕ) (readb offset : Word) (k : κ) (s : Mman) :
    (readLoop pread fd mem length fuel readb offset k s).map Prod.fst =
      readEnds pread fd fuel (length - readb) offset k := by
  induction fuel generalizing readb offset k s with
  | zero => rfl
  | succ fuel ih =>
    simp only [readLoop, readEnds]
    split_ifs
    · rw [ih, sub_sub]
    · rfl

/-- A read returns no more bytes than it is asked for. -/
def Pread.Bounded (pread : Pread κ) (fd : CInt) : Prop :=
  ∀ k count offset, 0 < (pread k fd count offset).ret.toInt →
    (pread k fd count offset).ret.toNat ≤ count.toNat

theorem exists_readEnds (hb : pread.Bounded fd) {fuel : ℕ} {count : Word} (h : count.toNat < fuel)
    (offset : Word) (k : κ) : ∃ e, readEnds pread fd fuel count offset k = some e ∧ ¬ 0 < e.toInt := by
  induction fuel generalizing count offset k with
  | zero => omega
  | succ fuel ih =>
    simp only [readEnds]
    split_ifs with hpos
    · have hle := hb k count offset hpos
      have hne : 0 < (pread k fd count offset).ret.toNat := by
        rw [toInt_eq_toNat_cond] at hpos
        split_ifs at hpos <;> omega
      refine ih ?_ _ _
      have := count.isLt
      rw [toNat_sub]
      omega
    · exact ⟨_, rfl, hpos⟩

end Read

/-! ## A mapping of a file -/

section MapFile

variable {κ : Type} {pread : Pread κ} {fd : CInt} {s : Mman} {addr length offset : Word}

/-- The request is one for a mapping of a file, and such mappings are allowed. -/
def Mman.FileBacked (s : Mman) (flags fd : CInt) : Prop :=
  ¬ (flags &&& mapShared ≠ 0 ∧ flags &&& mapPrivate ≠ 0) ∧ flags &&& mapAnonymous = 0 ∧
    0 ≤ fd.toInt ∧ s.enclaveMmapFilesFlagsSupported flags ≠ 0

instance (s : Mman) (flags fd : CInt) : Decidable (s.FileBacked flags fd) :=
  inferInstanceAs (Decidable (_ ∧ _))

theorem syscallSysMmap_file {flags : CInt} (h : s.FileBacked flags fd) (prot : CInt) (k : κ) :
    syscallSysMmap pread fd addr length prot flags offset k s =
      mapFile pread fd addr length prot flags offset k s := by
  rw [syscallSysMmap, if_neg h.1, if_neg (not_not.mpr h.2.1), if_pos h.2.2]

theorem Mman.MmapResult.pos (hs : s.Laid) (hw : ValidArgs addr length → s.NoWrap addr length)
    {mmapFixed prot zeroPages : CInt} {mem : Word} {s' : Mman}
    (h : s.MmapResult addr length mmapFixed prot zeroPages mem s') : mem > 0 := by
  cases h with
  | inval _ => decide
  | nomem _ _ => decide
  | mapped t hv ht =>
    have hfit := ht.fits hs (hw hv) hv
    have hp := pageCount_pos hv.2
    have haddr := hs.pageAddr_eq (i := t + pageCount length - 1) (by omega)
    have hlow := hs.low
    rw [gt_iff_lt, lt_def, toNat_mapAddr hs hfit hv.2, mapAddr]
    change 0 < _
    omega

/-- **A mapping of a file**: the mapping, the reads, and an unmapping if they fail. -/
theorem mapFile_result (hs : s.Laid) (hw : ValidArgs addr length → s.NoWrap addr length)
    (hb : pread.Bounded fd) (prot flags : CInt) (offset : Word) (k : κ) : ∃ mem s₁ e k' s₂,
      s.MmapResult addr length (flags &&& mapFixed) (prot ||| protWrite) 0 mem s₁ ∧
      readLoop pread fd mem length (length.toNat + 1) 0 offset k s₁ = some (e, k', s₂) ∧
      readEnds pread fd (length.toNat + 1) length offset k = some e ∧
      ((e.toInt < 0 ∧ ∃ r s₃, s₂.MunmapResult addr length r s₃ ∧
          (mapFile pread fd addr length prot flags offset k s).ret = some (-eBadf) ∧
          (mapFile pread fd addr length prot flags offset k s).st = s₃) ∨
        (¬ e.toInt < 0 ∧ (mapFile pread fd addr length prot flags offset k s).ret = some mem ∧
          (mapFile pread fd addr length prot flags offset k s).st.words = s₂.words ∧
          (mapFile pread fd addr length prot flags offset k s).st.mem = s₂.mem)) := by
  obtain ⟨mem, s₁, hgives, hres⟩ :=
    enclaveMmap_gives hs hw (flags &&& mapFixed) (prot ||| protWrite) 0
  obtain ⟨e, hends, -⟩ := exists_readEnds hb (Nat.lt_succ_self length.toNat) offset k
  have hloop : (readLoop pread fd mem length (length.toNat + 1) 0 offset k s₁).map Prod.fst = some e := by
    rw [readLoop_ends, show length - 0 = length from sub_zero _, hends]
  obtain ⟨⟨e', k', s₂⟩, hrun, rfl⟩ := Option.map_eq_some_iff.mp hloop
  refine ⟨mem, s₁, e', k', s₂, hres, hrun, hends, ?_⟩
  have hlay : s₂.layout = s.layout := (readLoop_keeps hrun).2.trans hres.layout
  have hst : (enclaveMmap addr length (flags &&& mapFixed) (prot ||| protWrite) 0 s).st = s₁ :=
    hgives.st
  rw [mapFile, hgives.ret, hst]
  dsimp only
  rw [if_pos (hres.pos hs hw), hrun]
  dsimp only
  by_cases he : e'.toInt < 0
  · rw [if_pos he]
    obtain ⟨r, s₃, hun, hres'⟩ := enclaveMunmap_gives (hs.congr hlay)
      fun hv => (NoWrap_congr hlay _ _).mpr (hw hv)
    exact .inl ⟨he, r, s₃, hres', by rw [hun.ret]; rfl, hun.st⟩
  · rw [if_neg he]
    refine .inr ⟨he, rfl, ?_, ?_⟩ <;> dsimp only <;> split_ifs <;> rfl

end MapFile

end SgxLkl
