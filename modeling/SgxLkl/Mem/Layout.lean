import SgxLkl.Mem.Model

/-!
# The layout of the managed heap

`Mman.Laid s` is what `enclave_mman_init` establishes for a heap of whole pages in user space
(`HeapOk.laid_init`) and no later call changes: the page of index `i` lies at `pageAddr s i`,
counted down from `mmap_end`.

* `Mman.NoWrap.inMmapRange_iff`, **`Mman.Laid.indexTop_eq`**: under `NoWrap` the range test and the
  index arithmetic of the source are those of the exact numbers.
-/

namespace SgxLkl

open BitVec

def pageCount (length : Word) : ℕ := (length.toNat + 4095) / 4096

namespace Mman

def numPages (s : Mman) : ℕ := s.mmapNumPages.toNat

def allocated (s : Mman) (i : ℕ) : Bool := mapBit s.words 0 i

def fresh (s : Mman) (i : ℕ) : Bool := mapBit s.words s.mmapFreshBitmap i

def free (s : Mman) (i : ℕ) : Prop := s.allocated i = false

def pageAddr (s : Mman) (i : ℕ) : ℕ := s.mmapEnd.toNat - 4096 * i

/-- The state of a memory manager whose heap is laid out. -/
structure Laid (s : Mman) : Prop where
  aligned : s.mmapBase.toNat % 4096 = 0
  low : 12288 ≤ s.mmapBase.toNat
  stop : s.mmapEnd.toNat + 8192 = s.mmapBase.toNat + 4096 * s.numPages
  high : s.mmapBase.toNat + 4096 * s.numPages ≤ 2 ^ 63
  small : s.numPages < 2 ^ 31
  fresh : (s.numPages : ℤ) ≤ 64 * s.mmapFreshBitmap

/-- Neither the rounding of the length to pages nor a range test that succeeds wraps around. -/
def NoWrap (s : Mman) (addr length : Word) : Prop :=
  (s.inMmapRange addr length → addr.toNat + length.toNat < 2 ^ 64) ∧ length.toNat + 4095 < 2 ^ 64

instance (s : Mman) (addr length : Word) : Decidable (s.NoWrap addr length) :=
  inferInstanceAs (Decidable (_ ∧ _))

/-- The lowest index of a region at `addr`. -/
def topAt (s : Mman) (addr length : Word) : ℕ :=
  (s.mmapEnd.toNat - addr.toNat) / 4096 + 1 - pageCount length

end Mman

/-! ## Numbers of pages -/

theorem toNat_pageSize : pageSize.toNat = 4096 := rfl

theorem toNat_mod_pageSize (a : Word) : (a % pageSize).toNat = a.toNat % 4096 := by
  rw [toNat_umod, toNat_pageSize]

variable {a length : Word}

theorem mod_pageSize_eq_zero : a % pageSize = 0 ↔ a.toNat % 4096 = 0 := by
  rw [← toNat_inj, toNat_mod_pageSize]
  rfl

theorem toNat_pos : 0 < a.toNat ↔ a ≠ 0 := by
  rw [Nat.pos_iff_ne_zero, Ne, Ne, ← toNat_inj]
  rfl

theorem toNat_divRoundup (h : length.toNat + 4095 < 2 ^ 64) :
    (divRoundup length pageSize).toNat = pageCount length := by
  rw [divRoundup, toNat_udiv, toNat_add, toNat_pageSize, pageCount]
  rw [show (pageSize - 1).toNat = 4095 from rfl, Nat.mod_eq_of_lt h]

theorem divRoundup_of_wrap (h : 2 ^ 64 ≤ length.toNat + 4095) : divRoundup length pageSize = 0 := by
  have hlt := length.isLt
  rw [← toNat_inj, divRoundup, toNat_udiv, toNat_add, toNat_pageSize, show (pageSize - 1).toNat = 4095 from rfl]
  change _ = 0
  omega

theorem length_le_pageCount (length : Word) : length.toNat ≤ 4096 * pageCount length := by
  rw [pageCount]
  omega

theorem pageCount_lt_length (length : Word) : 4096 * pageCount length < length.toNat + 4096 := by
  rw [pageCount]
  omega

theorem pageCount_pos (h : length ≠ 0) : 0 < pageCount length := by
  have := toNat_pos.mpr h
  rw [pageCount]
  omega

namespace Mman

variable {s : Mman} {addr length : Word}

/-! ## Addresses and indices -/

/-- **The range test, without wrap-around.** -/
theorem NoWrap.inMmapRange_iff (hw : s.NoWrap addr length) : s.inMmapRange addr length ↔
      s.mmapBase.toNat ≤ addr.toNat ∧ addr.toNat + length.toNat ≤ s.mmapEnd.toNat := by
  have hend := s.mmapEnd.isLt
  constructor
  · intro h
    have hlt := hw.1 h
    rw [inMmapRange, le_def, le_def, toNat_add, Nat.mod_eq_of_lt hlt] at h
    exact h
  · rintro ⟨h1, h2⟩
    rw [inMmapRange, le_def, le_def, toNat_add, Nat.mod_eq_of_lt (by omega)]
    exact ⟨h1, h2⟩

namespace Laid

variable (hs : s.Laid)

include hs

theorem mmapEnd_lt : s.mmapEnd.toNat < 2 ^ 63 := by
  have := hs.stop; have := hs.high
  omega

theorem mmapEnd_mod : s.mmapEnd.toNat % 4096 = 0 := by
  have := hs.stop; have := hs.aligned
  omega

theorem pageAddr_eq {i : ℕ} (hi : i < s.numPages) :
    s.pageAddr i + 4096 * i + 8192 = s.mmapBase.toNat + 4096 * s.numPages := by
  have hstop := hs.stop; have hlow := hs.low
  simp only [pageAddr]
  omega

theorem toNat_indexToAddr {index : Word} (hi : index.toNat < s.numPages) :
    (s.indexToAddr index).toNat = s.pageAddr index.toNat := by
  have hstop := hs.stop; have hlow := hs.low; have hsmall := hs.small; have hlt := hs.mmapEnd_lt
  have hmul : (index * pageSize).toNat = 4096 * index.toNat := by
    rw [toNat_mul, toNat_pageSize, Nat.mod_eq_of_lt (by omega), Nat.mul_comm]
  rw [indexToAddr, pageAddr, toNat_sub, hmul]
  omega

theorem toNat_addrToIndex (hle : addr.toNat ≤ s.mmapEnd.toNat) :
    (s.addrToIndex addr).toNat = (s.mmapEnd.toNat - addr.toNat) / 4096 := by
  have hlt := hs.mmapEnd_lt
  have hsub : (s.mmapEnd - addr).toNat = s.mmapEnd.toNat - addr.toNat := by
    rw [toNat_sub]; omega
  have hmsb : (s.mmapEnd - addr).msb = false := by
    rw [msb_eq_false_iff_two_mul_lt, hsub]; omega
  rw [addrToIndex, sdiv_eq, hmsb, show pageSize.msb = false from rfl]
  rw [udiv_eq, toNat_udiv, hsub, toNat_pageSize]

/-- **The index arithmetic for a region in range.** The region takes the `pageCount length` indices
from `topAt` on, none of them `0` or the last one. -/
theorem topAt_spec (hal : addr.toNat % 4096 = 0) (hpos : length ≠ 0) (hbase : s.mmapBase.toNat ≤ addr.toNat)
    (hend : addr.toNat + length.toNat ≤ s.mmapEnd.toNat) :
    1 ≤ s.topAt addr length ∧ s.topAt addr length + pageCount length + 1 ≤ s.numPages ∧
      s.pageAddr (s.topAt addr length + pageCount length - 1) = addr.toNat := by
  have := hs.stop; have := hs.mmapEnd_mod; have := toNat_pos.mpr hpos
  simp only [topAt, pageAddr, pageCount]
  omega

theorem indexTop_eq (hal : addr.toNat % 4096 = 0) (hpos : length ≠ 0)
    (hlen : length.toNat + 4095 < 2 ^ 64) (hbase : s.mmapBase.toNat ≤ addr.toNat)
    (hend : addr.toNat + length.toNat ≤ s.mmapEnd.toNat) :
    (s.indexTop addr (divRoundup length pageSize)).toNat = s.topAt addr length := by
  have hidx := @toNat_addrToIndex s addr hs (by omega)
  have hspec := hs.topAt_spec hal hpos hbase hend
  have hp := pageCount_pos hpos
  have := hs.small
  rw [indexTop, toNat_sub, toNat_sub, toNat_divRoundup hlen, hidx]
  simp only [topAt] at hspec ⊢
  rw [show (1 : Word).toNat = 1 from rfl]
  omega

end Laid

end Mman

/-! ## The initial layout -/

def heapPages (base numPages : Word) : ℕ :=
  if base = 0 then numPages.toNat - 1 else numPages.toNat

def bitmapPages (base numPages : Word) : ℕ := (heapPages base numPages + 32767) / 32768

/-- A heap that `enclave_mman_init` can lay out. The first two fields are what Open Enclave promises of its heap, the
last two are limits of the code: room for the bitmaps, and page counts that fit an `int`. -/
structure HeapOk (base numPages : Word) : Prop where
  aligned : base.toNat % 4096 = 0
  user : base.toNat + 4096 * numPages.toNat ≤ 2 ^ 63
  two : 2 ≤ heapPages base numPages
  small : heapPages base numPages - 2 * bitmapPages base numPages < 2 ^ 31

/-- The variables and the memory before `enclave_mman_init`: all zero. -/
def Mman.unset : Mman := ⟨fun _ => 0, 0, 0, 0, 0, 0, 0, fun _ => 0, []⟩

/-- A heap of `16` pages at `0x100000`, fourteen of which are left to manage. -/
abbrev Mman.sixteen : Mman := Mman.unset.enclaveMmanInit 0x100000 16 0

theorem heapOk_sixteen : HeapOk 0x100000 16 := ⟨by decide, by decide, by decide, by decide⟩

namespace HeapOk

variable {base numPages : Word} (h : HeapOk base numPages) (s : Mman) (files : CInt)

include h

theorem range : 4096 ≤ (if base = 0 then base + pageSize else base).toNat ∧
    (if base = 0 then base + pageSize else base).toNat % 4096 = 0 ∧
    (if base = 0 then base + pageSize else base).toNat + 4096 * heapPages base numPages ≤ 2 ^ 63 ∧
    1 ≤ bitmapPages base numPages ∧ 2 * bitmapPages base numPages ≤ heapPages base numPages ∧
    heapPages base numPages ≤ 32768 * bitmapPages base numPages := by
  have hal := h.aligned; have huser := h.user; have htwo := h.two
  have hreq : bitmapPages base numPages = (heapPages base numPages + 32767) / 32768 := rfl
  by_cases hb : base = 0
  · subst hb
    rw [if_pos rfl, show ((0 : Word) + pageSize).toNat = 4096 from rfl]
    rw [heapPages, if_pos rfl] at *
    have : (0 : Word).toNat = 0 := rfl
    omega
  · have := toNat_pos.mpr hb
    rw [if_neg hb]
    rw [heapPages, if_neg hb] at *
    omega

theorem toNat_numPages : (if base = 0 then numPages - 1 else numPages).toNat = heapPages base numPages := by
  have htwo := h.two
  rw [heapPages] at htwo ⊢
  split_ifs with hb
  · rw [if_pos hb] at htwo
    have := numPages.isLt
    rw [toNat_sub, show (1 : Word).toNat = 1 from rfl]
    omega
  · rfl

theorem toNat_reqPages : (divRoundup (if base = 0 then numPages - 1 else numPages) (8 * pageSize)).toNat =
      bitmapPages base numPages := by
  obtain ⟨-, -, huser, -⟩ := h.range
  rw [divRoundup, toNat_udiv, toNat_add, h.toNat_numPages, bitmapPages,
    show (8 * pageSize - 1).toNat = 32767 from rfl, show (8 * pageSize).toNat = 32768 from rfl,
    Nat.mod_eq_of_lt (by omega)]

theorem numPages_init : (s.enclaveMmanInit base numPages files).numPages =
      heapPages base numPages - 2 * bitmapPages base numPages := by
  obtain ⟨-, -, huser, -, hroom, -⟩ := h.range
  simp only [Mman.numPages, Mman.enclaveMmanInit]
  rw [toNat_sub, toNat_mul, h.toNat_numPages, h.toNat_reqPages, show (2 : Word).toNat = 2 from rfl]
  omega

theorem toNat_mmapBase_init : (s.enclaveMmanInit base numPages files).mmapBase.toNat =
    (if base = 0 then base + pageSize else base).toNat + 8192 * bitmapPages base numPages := by
  obtain ⟨-, -, huser, -, hroom, -⟩ := h.range
  simp only [Mman.enclaveMmanInit]
  rw [toNat_add, toNat_mul, toNat_mul, h.toNat_reqPages, toNat_pageSize, show (2 : Word).toNat = 2 from rfl]
  omega

theorem end_init : (s.enclaveMmanInit base numPages files).mmapBase.toNat +
    4096 * (s.enclaveMmanInit base numPages files).numPages = base.toNat + 4096 * numPages.toNat := by
  obtain ⟨-, -, -, -, hroom, -⟩ := h.range
  have htwo := h.two
  have hheap : (if base = 0 then base + pageSize else base).toNat + 4096 * heapPages base numPages =
      base.toNat + 4096 * numPages.toNat := by
    rw [heapPages] at htwo ⊢
    split_ifs at htwo ⊢ with hb
    · subst hb
      rw [show ((0 : Word) + pageSize).toNat = 4096 from rfl, show (0 : Word).toNat = 0 from rfl]
      omega
    · rfl
  rw [h.toNat_mmapBase_init, h.numPages_init]
  omega

/-- **`enclave_mman_init` lays out the heap.** -/
theorem laid_init : (s.enclaveMmanInit base numPages files).Laid := by
  obtain ⟨hlow, hal, huser, hone, hroom, hmap⟩ := h.range
  have hn := h.numPages_init s files
  have hbase := h.toNat_mmapBase_init s files
  refine ⟨by omega, by omega, ?_, by omega, by rw [hn]; exact h.small, ?_⟩
  · have hend : (s.enclaveMmanInit base numPages files).mmapEnd = (s.enclaveMmanInit base numPages files).mmapBase +
          ((s.enclaveMmanInit base numPages files).mmapNumPages - 2) * pageSize := rfl
    have hsub : (s.enclaveMmanInit base numPages files).mmapNumPages.toNat =
        heapPages base numPages - 2 * bitmapPages base numPages := hn
    rw [hend, toNat_add, toNat_mul, toNat_sub, toNat_pageSize, hsub, show (2 : Word).toNat = 2 from rfl]
    omega
  · have hfresh : (s.enclaveMmanInit base numPages files).mmapFreshBitmap = 512 * bitmapPages base numPages := by
      simp only [Mman.enclaveMmanInit]
      rw [toNat_mul, h.toNat_reqPages, toNat_pageSize]
      omega
    rw [hfresh]
    omega

theorem bits_init {i : ℕ} (hi : i < (s.enclaveMmanInit base numPages files).numPages) :
    (s.enclaveMmanInit base numPages files).allocated i = false ∧
      (s.enclaveMmanInit base numPages files).fresh i = true := by
  have hlaid := h.laid_init s files
  have hcast : cInt (s.enclaveMmanInit base numPages files).mmapNumPages =
      ((s.enclaveMmanInit base numPages files).numPages : ℤ) := cInt_of_lt hlaid.small
  have hwords : (s.enclaveMmanInit base numPages files).words =
      bitmapSet (bitmapClear s.words 0 0 (s.enclaveMmanInit base numPages files).numPages)
        (s.enclaveMmanInit base numPages files).mmapFreshBitmap 0
        (s.enclaveMmanInit base numPages files).numPages := by
    rw [← hcast]; rfl
  have hfresh := hlaid.fresh
  constructor
  · rw [Mman.allocated, mapBit, hwords, bitAt_bitmapSet _ _ _ _ le_rfl (by omega),
      if_neg (by omega), bitAt_bitmapClear _ _ _ _ le_rfl (by omega), if_pos (by omega)]
  · rw [Mman.fresh, mapBit, hwords, bitAt_bitmapSet _ _ _ _ le_rfl (by omega), if_pos (by omega)]

end HeapOk

end SgxLkl
