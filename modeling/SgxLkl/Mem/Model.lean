import SgxLkl.Mem.Bitops

/-!
# The enclave memory manager (`enclave/enclave_mem.c`)

`enclave_mmap`, `enclave_munmap` and `enclave_mremap` over an explicit state `Mman`. Addresses and
sizes are 64-bit words with wrap-around, counters that the source declares `int` or `unsigned` are
32 bits wide. `PAGE_SIZE` is `4096`; mmap tracing is off, so no replaced page is counted.

The bitmaps lie in one memory of words, the fresh-page bitmap right after the allocation bitmap as
`enclave_mman_init` places them. The bytes of the pages are a store of their own.

A call is an `Outcome`: its result, `none` if the call never returns, the state it leaves, and the
ranges of bits it named in a bitmap operation.
-/

namespace SgxLkl

abbrev Byte := BitVec 8

def pageSize : Word := 4096

def eBadf : Word := 9

def eNomem : Word := 12

def eInval : Word := 22

def protWrite : CInt := 2

def divRoundup (x y : Word) : Word := (x + (y - 1)) / y

/-! ## Counting and searching bitmaps -/

/-- The loop of `bitmap_count_set_bits`; `bit` and `retval` are `unsigned`. -/
def countLoop (m : ℤ → Word) (map : ℤ) (size start nr : Word) : ℕ → CInt → CInt → Option Word
  | 0, _, _ => none
  | fuel + 1, bit, retval =>
    if bit.setWidth 64 < start + nr then
      countLoop m map size start nr fuel
        ((findNextBit m map size ((bit + 1).setWidth 64)).setWidth 32) (retval + 1)
    else some (retval.setWidth 64)

/-- `bitmap_count_set_bits`. A round that goes on finds a set bit below `size` or stands still at
`size`, so a loop that outlives `size + 1` rounds never ends. -/
def bitmapCountSetBits (m : ℤ → Word) (map : ℤ) (size start nr : Word) : Option Word :=
  countLoop m map size start nr (size.toNat + 1)
    ((findNextBit m map size start).setWidth 32) 0

/-- The loop of `bitmap_find_next_zero_area`. -/
def zeroAreaLoop (m : ℤ → Word) (map : ℤ) (size nr : Word) : ℕ → Word → Option Word
  | 0, _ => none
  | fuel + 1, start =>
    let index := findNextZeroBit m map size start
    let stop := index + nr
    if stop > size then some stop
    else
      let i := findNextBit m map stop index
      if i < stop then zeroAreaLoop m map size nr fuel (i + 1) else some index

/-- `bitmap_find_next_zero_area`. The start moves up in every round and never passes `size`. -/
def bitmapFindNextZeroArea (m : ℤ → Word) (map : ℤ) (size start nr : Word) : Option Word :=
  zeroAreaLoop m map size nr (size.toNat + 1) start

/-! ## State -/

structure Mprotect where
  addr : Word
  length : Word
  prot : CInt
  deriving DecidableEq

structure Mman where
  /-- The words from `mmap_bitmap` on. -/
  words : ℤ → Word
  /-- `mmap_fresh_bitmap`, in words from `mmap_bitmap`. -/
  mmapFreshBitmap : ℤ
  mmapBase : Word
  mmapEnd : Word
  mmapNumPages : Word
  usedPages : Word
  mmapFiles : CInt
  mem : Word → Byte
  /-- The protection changes asked of the host, newest first. -/
  mprotects : List Mprotect

/-- The bits `start, …, start + nr - 1` named in a bitmap operation. -/
structure BitRange where
  start : Word
  nr : Word
  deriving DecidableEq

/-- What a call does: it may fail to return. -/
structure Outcome (α : Type) where
  ret : Option α
  st : Mman
  touched : List BitRange

def Outcome.bind {α β : Type} (x : Outcome α) (f : α → Mman → Outcome β) : Outcome β :=
  match x.ret with
  | none => ⟨none, x.st, x.touched⟩
  | some a => ⟨(f a x.st).ret, (f a x.st).st, x.touched ++ (f a x.st).touched⟩

namespace Mman

/-- `bitmap_set(mmap_bitmap, start, nr)`; both arguments become `int`. -/
def setAlloc (s : Mman) (start nr : Word) : Mman :=
  { s with words := bitmapSet s.words 0 (cInt start) (cInt nr) }

def clearAlloc (s : Mman) (start nr : Word) : Mman :=
  { s with words := bitmapClear s.words 0 (cInt start) (cInt nr) }

def clearFresh (s : Mman) (start nr : Word) : Mman :=
  { s with words := bitmapClear s.words s.mmapFreshBitmap (cInt start) (cInt nr) }

def memset (s : Mman) (dst : Word) (c : Byte) (n : Word) : Mman :=
  { s with mem := fun a => if a - dst < n then c else s.mem a }

def memcpy (s : Mman) (dst src n : Word) : Mman :=
  { s with mem := fun a => if a - dst < n then s.mem (src + (a - dst)) else s.mem a }

/-- `sgxlkl_host_syscall_mprotect`; its result is not looked at. -/
def mprotect (s : Mman) (addr length : Word) (prot : CInt) : Mman :=
  { s with mprotects := ⟨addr, length, prot⟩ :: s.mprotects }

def inMmapRange (s : Mman) (addr size : Word) : Prop := s.mmapBase ≤ addr ∧ addr + size ≤ s.mmapEnd

instance (s : Mman) (addr size : Word) : Decidable (s.inMmapRange addr size) :=
  inferInstanceAs (Decidable (_ ∧ _))

def indexToAddr (s : Mman) (index : Word) : Word := s.mmapEnd - index * pageSize

/-- `addr_to_index`; the difference of two pointers is signed. -/
def addrToIndex (s : Mman) (addr : Word) : Word := (s.mmapEnd - addr).sdiv pageSize

/-- `enclave_mem_info`: the total and the free number of bytes. -/
def enclaveMemInfo (s : Mman) : Word × Word :=
  (s.mmapNumPages * pageSize, (s.mmapNumPages - s.usedPages) * pageSize)

/-- `enclave_mman_init`, over whatever the memory held before. -/
def enclaveMmanInit (s : Mman) (base numPages : Word) (mmapFiles : CInt) : Mman :=
  -- the page at address 0 is not used
  let base' := if base = 0 then base + pageSize else base
  let numPages' := if base = 0 then numPages - 1 else numPages
  let bitmapReqPages := divRoundup numPages' (8 * pageSize)
  let mmapNumPages := numPages' - 2 * bitmapReqPages
  let mmapFreshBitmap : ℤ := (bitmapReqPages * pageSize).toNat / 8
  let mmapBase := base' + 2 * bitmapReqPages * pageSize
  { s with
    words := bitmapSet (bitmapClear s.words 0 0 (cInt mmapNumPages)) mmapFreshBitmap 0
      (cInt mmapNumPages)
    mmapFreshBitmap := mmapFreshBitmap
    mmapBase := mmapBase
    -- one page less than the number of pages, see issue 742 of the repository
    mmapEnd := mmapBase + (mmapNumPages - 2) * pageSize
    mmapNumPages := mmapNumPages
    mmapFiles := mmapFiles }

/-! ## `enclave_mmap` -/

/-- The index of the last page of a region at `addr`, which comes first in the bitmap. -/
def indexTop (s : Mman) (addr pages : Word) : Word := s.addrToIndex addr - (pages - 1)

/-- A fixed allocation, or one with a hint: the value of `ret`, `0` if there is none yet, and
`index_top`. -/
def mmapAt (addr length pages : Word) (mmapFixed : CInt) (s : Mman) : Outcome (Word × Word) :=
  let top := s.indexTop addr pages
  if mmapFixed ≠ 0 then
    if s.inMmapRange addr length then ⟨some (addr, top), s.setAlloc top pages, [⟨top, pages⟩]⟩
    else ⟨some (-eNomem, 0), s, []⟩
  else if addr ≠ 0 ∧ s.inMmapRange addr length then
    match bitmapCountSetBits s.words 0 s.mmapNumPages top pages with
    | none => ⟨none, s, [⟨top, pages⟩]⟩
    | some count =>
      if count = 0 then ⟨some (addr, top), s.setAlloc top pages, [⟨top, pages⟩, ⟨top, pages⟩]⟩
      else ⟨some (0, top), s, [⟨top, pages⟩]⟩
  else ⟨some (0, 0), s, []⟩

/-- The search for an area with sufficient space, when `ret` is still `0`. -/
def mmapFind (pages : Word) (r : Word × Word) (s : Mman) : Outcome (Word × Word) :=
  if r.1 = 0 then
    match bitmapFindNextZeroArea s.words 0 s.mmapNumPages 0 pages with
    | none => ⟨none, s, []⟩
    | some top =>
      if top + pages > s.mmapNumPages then ⟨some (-eNomem, top), s, []⟩
      else ⟨some (s.indexToAddr (top + (pages - 1)), top), s.setAlloc top pages, [⟨top, pages⟩]⟩
  else ⟨some r, s, []⟩

/-- Are all the allocated pages fresh? Only looked up if they have to be zero. -/
def onlyFresh (pages : Word) (zeroPages : CInt) (top : Word) (s : Mman) : Outcome Bool :=
  if zeroPages ≠ 0 then
    ⟨(bitmapCountSetBits s.words s.mmapFreshBitmap s.mmapNumPages top pages).map (· == pages), s,
      [⟨top, pages⟩]⟩
  else ⟨some false, s, []⟩

/-- Zeroing, protection and page accounting of a successful allocation, once it is known whether
all its pages are fresh. -/
def mmapFinish (length pages : Word) (prot zeroPages : CInt) (ret top : Word) (fresh : Bool) (s : Mman) : Mman :=
  let s := s.clearFresh top pages
  let s :=
    if zeroPages ≠ 0 ∧ fresh = false then
      -- the pages may have lost their write permission
      let s := if prot ≠ -1 then s.mprotect ret length (prot ||| protWrite) else s
      let s := s.memset ret 0 (pages * pageSize)
      if prot ≠ -1 ∧ prot ||| protWrite ≠ prot then s.mprotect ret length prot else s
    else s
  let s := if prot ≠ -1 ∧ (zeroPages = 0 ∨ fresh = true) then s.mprotect ret length prot else s
  { s with usedPages := s.usedPages + pages }

/-- What follows the choice of a region: nothing if it failed. -/
def mmapCommit (length pages : Word) (prot zeroPages : CInt) (r : Word × Word) (s : Mman) : Outcome Word :=
  if 0 ≤ r.1.toInt then
    (onlyFresh pages zeroPages r.2 s).bind fun fresh s =>
      ⟨some r.1, mmapFinish length pages prot zeroPages r.1 r.2 fresh s, [⟨r.2, pages⟩]⟩
  else ⟨some r.1, s, []⟩

def enclaveMmap (addr length : Word) (mmapFixed prot zeroPages : CInt) (s : Mman) : Outcome Word :=
  let pages := divRoundup length pageSize
  if addr % pageSize ≠ 0 ∨ length = 0 then ⟨some (-eInval), s, []⟩
  else
    ((mmapAt addr length pages mmapFixed s).bind (mmapFind pages)).bind
      (mmapCommit length pages prot zeroPages)

/-! ## `enclave_munmap` and `enclave_mremap` -/

def enclaveMunmap (addr length : Word) (s : Mman) : Outcome Word :=
  let pages := divRoundup length pageSize
  if addr % pageSize ≠ 0 ∨ length = 0 ∨ ¬ s.inMmapRange addr length then ⟨some (-eInval), s, []⟩
  else
    let top := s.indexTop addr pages
    match bitmapCountSetBits s.words 0 s.mmapNumPages top pages with
    | none => ⟨none, s, [⟨top, pages⟩]⟩
    | some occupied =>
      ⟨some 0, { s.clearAlloc top pages with usedPages := s.usedPages - occupied },
        [⟨top, pages⟩, ⟨top, pages⟩]⟩

def enclaveMremap (oldAddr oldLength newAddr newLength : Word) (mremapFixed : CInt) (s : Mman) : Outcome Word :=
  if mremapFixed ≠ 0 then ⟨some (-eInval), s, []⟩
  else
    (enclaveMmap newAddr newLength 0 (-1) 0 s).bind fun ret s =>
      if 0 ≤ ret.toInt then
        let s := s.memcpy ret oldAddr (if oldLength > newLength then newLength else oldLength)
        -- the result of the inner call is dropped
        (enclaveMunmap oldAddr oldLength s).bind fun _ s => ⟨some ret, s, []⟩
      else ⟨some ret, s, []⟩

end Mman

end SgxLkl
