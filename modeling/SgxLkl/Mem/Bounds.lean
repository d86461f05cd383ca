import SgxLkl.Mem.Regions

/-!
# Bit indices and wrap-around

For every 64-bit address and length, the bits a call names in a bitmap operation are those of managed
pages, and a mapping reserves the length asked for, exactly if neither the rounding of the length nor
the range test wraps around (`MmapFits`, `MunmapFits`).

* **`bit_indices_iff`**.
-/

namespace SgxLkl

open Mman List

variable {s : Mman} {addr length : Word}

def Outcome.InBounds {α : Type} (x : Outcome α) (n : ℕ) : Prop := ∀ b ∈ x.touched, b.Below n

namespace Mman

/-- If `enclave_mmap` succeeds, it returns the address of a run of pages that are allocated then, of
at least `length` bytes in all. -/
def Reserves (s : Mman) (length : Word) (x : Outcome Word) : Prop :=
  ∀ r, x.ret = some r → 0 ≤ r.toInt → ∃ t p, t + p ≤ s.numPages ∧ length.toNat ≤ 4096 * p ∧
    r.toNat = s.pageAddr (t + p - 1) ∧ ∀ i, t ≤ i → i < t + p → x.st.allocated i = true

/-- The arguments of `enclave_mmap` do not wrap around. The length of a fixed mapping is rounded
only after the range test. -/
def MmapFits (s : Mman) (addr length : Word) (mmapFixed : CInt) : Prop :=
  ValidArgs addr length → (mmapFixed = 0 → length.toNat + 4095 < 2 ^ 64) ∧
    (s.inMmapRange addr length → addr.toNat + length.toNat < 2 ^ 64)

/-- The arguments of `enclave_munmap` do not wrap around. A length that rounds to no page names no
bit. -/
def MunmapFits (s : Mman) (addr length : Word) : Prop :=
  ValidArgs addr length → length.toNat + 4095 < 2 ^ 64 →
    s.inMmapRange addr length → addr.toNat + length.toNat < 2 ^ 64

/-! ## Ranges that wrap around -/

section Wrap

variable (hs : s.Laid) (hv : ValidArgs addr length)

include hs hv

theorem toInt_addrToIndex : 4096 * (s.addrToIndex addr).toInt = (s.mmapEnd - addr).toInt := by
  have hmod := hs.mmapEnd_mod; have hal := hv.1
  have hsub : (s.mmapEnd - addr).toNat = (2 ^ 64 - addr.toNat + s.mmapEnd.toNat) % 2 ^ 64 :=
    BitVec.toNat_sub ..
  have hcond := BitVec.toInt_eq_toNat_cond (s.mmapEnd - addr)
  have hdvd : (4096 : ℤ) ∣ (s.mmapEnd - addr).toInt := by
    rw [hcond, hsub]
    split_ifs <;> omega
  have hlt := BitVec.toInt_lt (x := s.mmapEnd - addr)
  have hge := BitVec.le_toInt (s.mmapEnd - addr)
  rw [addrToIndex, BitVec.toInt_sdiv, show pageSize.toInt = 4096 from rfl,
    Int.tdiv_eq_ediv_of_dvd hdvd, Int.bmod_eq_of_le (by omega) (by omega)]
  omega

/-- **A region whose end wraps around leaves the bitmap**: its index range starts behind the bitmap,
or it ends there. -/
theorem indexTop_wrap (hin : s.inMmapRange addr length) (hlen : length.toNat + 4095 < 2 ^ 64)
    (hwrap : 2 ^ 64 ≤ addr.toNat + length.toNat) :
    ¬ BitRange.Below ⟨s.indexTop addr (divRoundup length pageSize), divRoundup length pageSize⟩ s.numPages := by
  have hal := hv.1; have hmod := hs.mmapEnd_mod; have hstop := hs.stop; have hlow := hs.low
  have hend := hs.mmapEnd_lt; have hsmall := hs.small
  have hp := pageCount_pos hv.2; have hplt := pageCount_lt hlen
  have hup := length_le_pageCount length; have hdown := pageCount_lt_length length
  rw [inMmapRange, BitVec.le_def, BitVec.le_def, BitVec.toNat_add] at hin
  obtain ⟨hbase, hle⟩ := hin
  have haddr := addr.isLt; have hlength := length.isLt
  have hsub : (s.mmapEnd - addr).toNat = (2 ^ 64 - addr.toNat + s.mmapEnd.toNat) % 2 ^ 64 :=
    BitVec.toNat_sub ..
  have hidx := toInt_addrToIndex hs hv
  rw [BitVec.toInt_eq_toNat_cond, BitVec.toInt_eq_toNat_cond, hsub] at hidx
  have htop : (s.indexTop addr (divRoundup length pageSize)).toNat =
      (2 ^ 64 - (pageCount length - 1) + (s.addrToIndex addr).toNat) % 2 ^ 64 := by
    rw [indexTop, BitVec.toNat_sub, BitVec.toNat_sub, toNat_divRoundup hlen, show (1 : Word).toNat = 1 from rfl]
    congr 3
    omega
  have hpages := toNat_divRoundup hlen
  intro hbelow
  have hfirst := hbelow 0 (by rw [hpages]; exact hp)
  have hlast := hbelow (pageCount length - 1) (by rw [hpages]; omega)
  simp only [htop] at hfirst hlast
  set j := (s.addrToIndex addr).toNat
  have hj : j < 2 ^ 64 := (s.addrToIndex addr).isLt
  split_ifs at hidx <;> omega

end Wrap

/-! ## Lengths that round to no page -/

theorem below_zero (start : Word) (n : ℕ) : BitRange.Below ⟨start, 0⟩ n := fun k hk => by
  exact absurd hk (Nat.not_lt_zero k)

theorem bitmapCountSetBits_zero (m : ℤ → Word) (map : ℤ) {size start : Word}
    (hsize : size.toNat < 2 ^ 31) (hstart : start.toNat ≤ size.toNat) :
    bitmapCountSetBits m map size start 0 = some 0 := by
  rw [bitmapCountSetBits_eq m map hsize (show start.toNat + (0 : Word).toNat ≤ size.toNat from hstart),
    show start.toNat + (0 : Word).toNat = start.toNat from rfl, countIn_self]
  rfl

section PagesZero

variable (hs : s.Laid)

include hs

theorem mmapCommit_zero (length : Word) (prot zeroPages : CInt) {ret top : Word} (hret : 0 ≤ ret.toInt)
    (htop : top.toNat ≤ s.numPages) :
    ∃ s', (mmapCommit length 0 prot zeroPages (ret, top) s).Gives s.numPages ret s' := by
  have honly : ∃ fresh, (onlyFresh 0 zeroPages top s).Gives s.numPages fresh s := by
    rw [onlyFresh]
    split_ifs
    · rw [bitmapCountSetBits_zero _ _ hs.small htop]
      exact ⟨_, rfl, rfl, forall_mem_singleton.mpr (below_zero _ _)⟩
    · exact ⟨_, rfl, rfl, by simp⟩
  obtain ⟨fresh, honly⟩ := honly
  rw [mmapCommit, if_pos hret]
  exact ⟨_, honly.bind ⟨rfl, rfl, forall_mem_singleton.mpr (below_zero _ _)⟩⟩

theorem indexTop_zero (hv : ValidArgs addr length) (hlen : 2 ^ 64 ≤ length.toNat + 4095)
    (hin : s.inMmapRange addr length) : addr ≠ 0 ∧ 0 ≤ addr.toInt ∧ (s.indexTop addr 0).toNat ≤ s.numPages := by
  have hstop := hs.stop; have hlow := hs.low; have hmod := hs.mmapEnd_mod; have hend := hs.mmapEnd_lt
  have hal := hv.1; have haddr := addr.isLt; have hlength := length.isLt
  rw [inMmapRange, BitVec.le_def, BitVec.le_def, BitVec.toNat_add] at hin
  have hle : addr.toNat ≤ s.mmapEnd.toNat := by omega
  refine ⟨toNat_pos.mp (by omega), ?_, ?_⟩
  · rw [BitVec.toInt_eq_toNat_of_lt (by omega)]
    omega
  · rw [indexTop, BitVec.toNat_sub, hs.toNat_addrToIndex hle, show ((0 : Word) - 1).toNat = 2 ^ 64 - 1 from rfl]
    omega

/-- **A length that rounds to no page is mapped**, unless it is fixed and out of range, and no bit
is named. -/
theorem enclaveMmap_pages_zero (hv : ValidArgs addr length) (hlen : 2 ^ 64 ≤ length.toNat + 4095)
    {mmapFixed : CInt} (hf : mmapFixed = 0 ∨ s.inMmapRange addr length) (prot zeroPages : CInt) :
    ∃ r s', (enclaveMmap addr length mmapFixed prot zeroPages s).Gives s.numPages r s' ∧ 0 ≤ r.toInt := by
  rw [enclaveMmap, if_neg (fun h => not_validArgs.mp h hv), divRoundup_of_wrap hlen]
  by_cases hin : s.inMmapRange addr length
  · -- the region is taken, for an empty run
    obtain ⟨hne, hnonneg, htop⟩ := indexTop_zero hs hv hlen hin
    have hat : (mmapAt addr length 0 mmapFixed s).Gives s.numPages (addr, s.indexTop addr 0)
        (s.setAlloc (s.indexTop addr 0) 0) := by
      rw [mmapAt, bitmapCountSetBits_zero _ _ hs.small htop]
      split_ifs
      · exact ⟨rfl, rfl, forall_mem_singleton.mpr (below_zero _ _)⟩
      · exact ⟨rfl, rfl, forall_mem_cons.mpr ⟨below_zero _ _, forall_mem_singleton.mpr (below_zero _ _)⟩⟩
      · exact absurd (And.intro hne hin) ‹_›
    have hfind : (mmapFind 0 (addr, s.indexTop addr 0) (s.setAlloc (s.indexTop addr 0) 0)).Gives
        s.numPages (addr, s.indexTop addr 0) (s.setAlloc (s.indexTop addr 0) 0) := by
      rw [mmapFind, if_neg hne]
      exact ⟨rfl, rfl, by simp⟩
    obtain ⟨s', hcommit⟩ := mmapCommit_zero (hs.congr (layout_setAlloc s (s.indexTop addr 0) 0))
      length prot zeroPages hnonneg htop
    exact ⟨_, _, (hat.bind hfind).bind hcommit, hnonneg⟩
  · -- the search finds an empty run
    have hf : mmapFixed = 0 := hf.resolve_right hin
    have hat : (mmapAt addr length 0 mmapFixed s).Gives s.numPages (0, 0) s := by
      rw [mmapAt, if_neg (not_not.mpr hf), if_neg (fun h => hin h.2)]
      exact ⟨rfl, rfl, by simp⟩
    obtain ⟨top, hzero, htop⟩ := bitmapFindNextZeroArea_zero s.words 0 hs.small
    have hfind : (mmapFind 0 (0, 0) s).Gives s.numPages (s.indexToAddr (top + (0 - 1)), top)
        (s.setAlloc top 0) := by
      have hle : ¬ top + 0 > s.mmapNumPages := by
        rw [show top + 0 = top from BitVec.add_zero _, gt_iff_lt, BitVec.lt_def]
        exact not_lt.mpr htop
      rw [mmapFind, if_pos rfl, hzero]
      dsimp only
      rw [if_neg hle]
      exact ⟨rfl, rfl, forall_mem_singleton.mpr (below_zero _ _)⟩
    have hnat : (s.indexToAddr (top + (0 - 1))).toNat < 2 ^ 63 := by
      have hstop := hs.stop; have hlow := hs.low; have hhigh := hs.high; have hsmall := hs.small
      have htop' : top.toNat ≤ s.numPages := htop
      rw [indexToAddr, BitVec.toNat_sub, BitVec.toNat_mul, BitVec.toNat_add, toNat_pageSize,
        show ((0 : Word) - 1).toNat = 2 ^ 64 - 1 from rfl]
      rcases Nat.eq_zero_or_pos top.toNat with h0 | hpos <;> omega
    have hnonneg : 0 ≤ (s.indexToAddr (top + (0 - 1))).toInt := by
      rw [BitVec.toInt_eq_toNat_of_lt (by omega)]
      omega
    obtain ⟨s', hcommit⟩ := mmapCommit_zero (hs.congr (layout_setAlloc s top 0)) length prot zeroPages
      hnonneg htop
    exact ⟨_, _, (hat.bind hfind).bind hcommit, hnonneg⟩

end PagesZero

/-! ## Calls -/

variable {α β : Type} {x : Outcome α}

theorem mem_touched_bind (f : α → Mman → Outcome β) {b : BitRange}
    (hb : b ∈ x.touched) : b ∈ (x.bind f).touched := by
  rw [Outcome.bind]
  cases x.ret with
  | none => exact hb
  | some a => exact mem_append_left _ hb

variable {f : α → Mman → Outcome β}

theorem inBounds_bind {a : α} {n : ℕ} (h : x.ret = some a) :
    (x.bind f).InBounds n ↔ x.InBounds n ∧ (f a x.st).InBounds n := by
  rw [Outcome.bind, h]
  exact forall_mem_append

theorem inBounds_bind_nil {n : ℕ} (h : ∀ a s, (f a s).touched = []) : (x.bind f).InBounds n ↔ x.InBounds n := by
  rw [Outcome.bind]
  cases x.ret with
  | none => rfl
  | some a => simp only [Outcome.InBounds, h, append_nil]

theorem munmapFits_congr {s' : Mman} (h : s'.layout = s.layout) :
    s'.MunmapFits addr length ↔ s.MunmapFits addr length := by
  rw [MunmapFits, MunmapFits, inMmapRange_congr h]

theorem mem_touched_enclaveMmap (hs : s.Laid) (hv : ValidArgs addr length)
    (hin : s.inMmapRange addr length) (mmapFixed prot zeroPages : CInt) :
    ⟨s.indexTop addr (divRoundup length pageSize), divRoundup length pageSize⟩ ∈
      (enclaveMmap addr length mmapFixed prot zeroPages s).touched := by
  have hne : addr ≠ 0 := by
    have hlow := hs.low; have hbase : s.mmapBase.toNat ≤ addr.toNat := BitVec.le_def.mp hin.1
    exact toNat_pos.mp (by omega)
  rw [enclaveMmap, if_neg (fun h => not_validArgs.mp h hv)]
  refine mem_touched_bind _ (mem_touched_bind _ ?_)
  simp only [mmapAt]
  split_ifs
  · exact mem_singleton_self _
  · cases bitmapCountSetBits s.words 0 s.mmapNumPages
      (s.indexTop addr (divRoundup length pageSize)) (divRoundup length pageSize) with
    | none => exact mem_singleton_self _
    | some count => dsimp only; split_ifs <;> exact mem_cons_self
  · exact absurd (And.intro hne hin) ‹_›

theorem touched_enclaveMunmap (hv : ValidArgs addr length) (hin : s.inMmapRange addr length) :
    ∃ l, (enclaveMunmap addr length s).touched =
      ⟨s.indexTop addr (divRoundup length pageSize), divRoundup length pageSize⟩ :: l ∧
      ∀ b ∈ l, b = ⟨s.indexTop addr (divRoundup length pageSize), divRoundup length pageSize⟩ := by
  rw [enclaveMunmap, if_neg (by rw [← or_assoc, not_validArgs]; tauto)]
  dsimp only
  cases bitmapCountSetBits s.words 0 s.mmapNumPages
    (s.indexTop addr (divRoundup length pageSize)) (divRoundup length pageSize) with
  | none => exact ⟨[], rfl, by simp⟩
  | some count => exact ⟨_, rfl, by simp⟩

section Iff

variable (hs : s.Laid)

include hs

theorem reserves_of_noWrap (hw : ValidArgs addr length → s.NoWrap addr length) (mmapFixed prot zeroPages : CInt) :
    s.Reserves length (enclaveMmap addr length mmapFixed prot zeroPages s) := by
  refine (forall_mmap_iff hs hw mmapFixed prot zeroPages (Q := fun r s' => ∃ t p,
    t + p ≤ s.numPages ∧ length.toNat ≤ 4096 * p ∧ r.toNat = s.pageAddr (t + p - 1) ∧
      ∀ i, t ≤ i → i < t + p → s'.allocated i = true)).mpr fun t hv ht => ?_
  have hfit := ht.fits hs (hw hv) hv
  refine ⟨t, pageCount length, hfit, length_le_pageCount length, toNat_mapAddr hs hfit hv.2, fun i h1 h2 => ?_⟩
  rw [allocated_reserve hs hfit (hw hv).2 _ _ (by omega), if_pos ⟨h1, h2⟩]

theorem mmap_bounds_iff (addr length : Word) (mmapFixed prot zeroPages : CInt) :
    (enclaveMmap addr length mmapFixed prot zeroPages s).InBounds s.numPages ∧
        s.Reserves length (enclaveMmap addr length mmapFixed prot zeroPages s) ↔
      s.MmapFits addr length mmapFixed := by
  have hsmall := hs.small
  constructor
  · rintro ⟨hb, hr⟩ hv
    -- a length that rounds to no page cannot be reserved
    have hround : (mmapFixed = 0 ∨ s.inMmapRange addr length) → length.toNat + 4095 < 2 ^ 64 := by
      intro hf
      by_contra hlen
      obtain ⟨r, s', hgives, hnonneg⟩ :=
        enclaveMmap_pages_zero hs hv (not_lt.mp hlen) hf prot zeroPages
      obtain ⟨t, p, hfit, hle, -⟩ := hr r hgives.ret hnonneg
      omega
    refine ⟨fun hf => hround (.inl hf), fun hin => ?_⟩
    by_contra hwrap
    exact indexTop_wrap hs hv hin (hround (.inr hin)) (not_lt.mp hwrap)
      (hb _ (mem_touched_enclaveMmap hs hv hin mmapFixed prot zeroPages))
  · intro hfits
    by_cases hw : ValidArgs addr length → s.NoWrap addr length
    · obtain ⟨r, s', hgives, -⟩ := enclaveMmap_gives hs hw mmapFixed prot zeroPages
      exact ⟨hgives.below, reserves_of_noWrap hs hw mmapFixed prot zeroPages⟩
    · -- only a fixed mapping out of range is left
      obtain ⟨hv, hno⟩ := Classical.not_imp.mp hw
      obtain ⟨hlen, hrange⟩ := hfits hv
      have hround : ¬ length.toNat + 4095 < 2 ^ 64 := fun h => hno ⟨hrange, h⟩
      have hf : mmapFixed ≠ 0 := fun h => hround (hlen h)
      have hout : ¬ s.inMmapRange addr length := by
        intro hin
        have hend := hs.mmapEnd_lt
        have hlt := hrange hin
        rw [inMmapRange, BitVec.le_def, BitVec.le_def, BitVec.toNat_add, Nat.mod_eq_of_lt hlt] at hin
        omega
      have heq : enclaveMmap addr length mmapFixed prot zeroPages s = ⟨some (-eNomem), s, []⟩ := by
        rw [enclaveMmap, if_neg (fun h => not_validArgs.mp h hv), mmapAt, if_pos hf, if_neg hout]
        rfl
      rw [heq]
      refine ⟨by simp [Outcome.InBounds], ?_⟩
      rintro r ⟨⟩ hr
      exact absurd hr (by decide)

theorem munmap_bounds_iff (addr length : Word) :
    (enclaveMunmap addr length s).InBounds s.numPages ↔ s.MunmapFits addr length := by
  constructor
  · intro hb hv hlen hin
    by_contra hwrap
    obtain ⟨l, hl, -⟩ := touched_enclaveMunmap hv hin
    exact indexTop_wrap hs hv hin hlen (not_lt.mp hwrap) (hb _ (by rw [hl]; exact mem_cons_self))
  · intro hfits
    by_cases hw : ValidArgs addr length → s.NoWrap addr length
    · obtain ⟨r, s', hgives, -⟩ := enclaveMunmap_gives hs hw
      exact hgives.below
    · obtain ⟨hv, hno⟩ := Classical.not_imp.mp hw
      by_cases hin : s.inMmapRange addr length
      · -- the length rounds to no page
        have hlen : ¬ length.toNat + 4095 < 2 ^ 64 := fun h => hno ⟨fun _ => hfits hv h hin, h⟩
        obtain ⟨l, hl, hall⟩ := touched_enclaveMunmap hv hin
        rw [Outcome.InBounds, hl, divRoundup_of_wrap (not_lt.mp hlen)] at *
        exact forall_mem_cons.mpr
          ⟨below_zero _ _, fun b hb => by rw [hall b hb]; exact below_zero _ _⟩
      · rw [enclaveMunmap, if_pos (.inr (.inr hin))]
        simp [Outcome.InBounds]

theorem mmap_succeeds_iff (hfits : s.MmapFits addr length 0) (prot zeroPages : CInt) :
    ∃ r s', (enclaveMmap addr length 0 prot zeroPages s).Gives s.numPages r s' ∧ s'.layout = s.layout ∧
      (0 ≤ r.toInt ↔ ValidArgs addr length ∧ ∃ t, s.Placed addr length 0 t) := by
  have hw : ValidArgs addr length → s.NoWrap addr length :=
    fun hv => ⟨(hfits hv).2, (hfits hv).1 rfl⟩
  obtain ⟨r, s', hgives, hres⟩ := enclaveMmap_gives hs hw 0 prot zeroPages
  refine ⟨r, s', hgives, ?_⟩
  cases hres with
  | inval hv => exact ⟨rfl, iff_of_false (by decide) fun h => hv h.1⟩
  | nomem hv hno => exact ⟨rfl, iff_of_false (by decide) fun h => h.2.elim hno⟩
  | mapped t hv ht =>
    have hfit := ht.fits hs (hw hv) hv
    refine ⟨layout_reserve .., iff_of_true ?_ ⟨hv, t, ht⟩⟩
    exact nonneg_mapAddr hs hfit hv.2

theorem mremap_bounds_iff (oldAddr oldLength newAddr newLength : Word) (mremapFixed : CInt) :
    (enclaveMremap oldAddr oldLength newAddr newLength mremapFixed s).InBounds s.numPages ∧
        (mremapFixed = 0 → s.Reserves newLength (enclaveMmap newAddr newLength 0 (-1) 0 s)) ↔
      (mremapFixed = 0 → s.MmapFits newAddr newLength 0 ∧
        (ValidArgs newAddr newLength → (∃ t, s.Placed newAddr newLength 0 t) →
          s.MunmapFits oldAddr oldLength)) := by
  by_cases hf : mremapFixed = 0
  swap
  · rw [enclaveMremap, if_pos hf]
    exact iff_of_true ⟨by simp [Outcome.InBounds], fun h => absurd h hf⟩ fun h => absurd h hf
  rw [enclaveMremap, if_neg (not_not.mpr hf), forall_prop_of_true hf, forall_prop_of_true hf]
  have hmmap := mmap_bounds_iff hs newAddr newLength 0 (-1) 0
  by_cases hfits : s.MmapFits newAddr newLength 0
  swap
  · -- the inner `enclave_mmap` is at fault already
    exact iff_of_false (fun h => hfits (hmmap.mp ⟨fun b hb => h.1 b (mem_touched_bind _ hb), h.2⟩))
      fun h => hfits h.1
  obtain ⟨hin, hres⟩ := hmmap.mpr hfits
  obtain ⟨r, s', hgives, hlay, hsucc⟩ := mmap_succeeds_iff hs hfits (-1) 0
  rw [inBounds_bind hgives.ret, hgives.st, and_iff_right hin, and_iff_left hres, and_iff_right hfits]
  by_cases hr : 0 ≤ r.toInt
  · obtain ⟨hv, hplaced⟩ := hsucc.mp hr
    have hlay' : (s'.memcpy r oldAddr
        (if oldLength > newLength then newLength else oldLength)).layout = s.layout := hlay
    have hiff := munmap_bounds_iff (hs.congr hlay') oldAddr oldLength
    rw [numPages_congr hlay', munmapFits_congr hlay'] at hiff
    rw [if_pos hr, forall_prop_of_true hv, forall_prop_of_true hplaced, ← hiff]
    exact inBounds_bind_nil fun _ _ => rfl
  · rw [if_neg hr]
    exact iff_of_true (by simp [Outcome.InBounds]) fun hv hplaced => absurd (hsucc.mpr ⟨hv, hplaced⟩) hr

end Iff

end Mman

/-- **Bit indices and reserved lengths.** In every state of every history and for all arguments,
`enclave_mmap`, `enclave_munmap` and `enclave_mremap` name only bits of managed pages and reserve at
least the length asked for, exactly if the arguments do not wrap around. -/
theorem bit_indices_iff {base numPages : Word} (h : HeapOk base numPages) {s₀ : Mman} {files : CInt}
    {l : List MemOp} (hrun : Run MemOp.Step (s₀.enclaveMmanInit base numPages files) l s) :
    (∀ addr length mmapFixed prot zeroPages,
      (enclaveMmap addr length mmapFixed prot zeroPages s).InBounds s.numPages ∧
          s.Reserves length (enclaveMmap addr length mmapFixed prot zeroPages s) ↔
        s.MmapFits addr length mmapFixed) ∧
    (∀ addr length, (enclaveMunmap addr length s).InBounds s.numPages ↔ s.MunmapFits addr length) ∧
    ∀ oldAddr oldLength newAddr newLength mremapFixed,
      (enclaveMremap oldAddr oldLength newAddr newLength mremapFixed s).InBounds s.numPages ∧
          (mremapFixed = 0 → s.Reserves newLength (enclaveMmap newAddr newLength 0 (-1) 0 s)) ↔
        (mremapFixed = 0 → s.MmapFits newAddr newLength 0 ∧
          (ValidArgs newAddr newLength → (∃ t, s.Placed newAddr newLength 0 t) →
            s.MunmapFits oldAddr oldLength)) := by
  obtain ⟨hs, -⟩ := laid_of_run h hrun
  exact ⟨mmap_bounds_iff hs, munmap_bounds_iff hs, mremap_bounds_iff hs⟩

theorem bit_indices_sixteen : (enclaveMmap 0x108000 0x3000 1 3 1 sixteen).InBounds sixteen.numPages ∧
      sixteen.Reserves 0x3000 (enclaveMmap 0x108000 0x3000 1 3 1 sixteen) :=
  ((bit_indices_iff heapOk_sixteen (.nil _)).1 _ _ _ _ _).mpr fun _ =>
    ⟨fun h => absurd h (by decide), fun _ => by decide⟩

/-- A length of `2 ^ 64 - 1` bytes is mapped behind the last page and reserves nothing, and the
unmapping of a range that wraps around counts bits behind the bitmap. -/
theorem bit_indices_wrap : (enclaveMmap 0 0xffffffffffffffff 0 3 1 sixteen).ret = some 0x10f000 ∧
      ¬ sixteen.Reserves 0xffffffffffffffff (enclaveMmap 0 0xffffffffffffffff 0 3 1 sixteen) ∧
      ¬ (enclaveMunmap 0xfffffffffffff000 0x2000 sixteen).InBounds sixteen.numPages := by
  have hret : (enclaveMmap 0 0xffffffffffffffff 0 3 1 sixteen).ret = some 0x10f000 := by
    decide +kernel
  refine ⟨hret, fun h => ?_, fun h => ?_⟩
  · obtain ⟨t, p, hfit, hle, -⟩ := h _ hret (by decide)
    have hn : sixteen.numPages = 14 := by decide
    have hL : (0xffffffffffffffff : Word).toNat = 18446744073709551615 := rfl
    omega
  · have hmem : (⟨270, 2⟩ : BitRange) ∈ (enclaveMunmap 0xfffffffffffff000 0x2000 sixteen).touched := by
      decide
    exact absurd (h _ hmem 0 (by decide)) (by decide)

end SgxLkl
