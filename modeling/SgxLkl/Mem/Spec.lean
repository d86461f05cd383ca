import SgxLkl.Mem.Layout
import SgxLkl.Mem.Search

/-!
# What the calls of the memory manager do

For a heap that is laid out and arguments that do not wrap around, every call returns, and
`MmapResult`, `MunmapResult`, `MremapResult` list all it can do:

* **`enclaveMmap_gives`**, **`enclaveMunmap_gives`**, **`enclaveMremap_gives`**; `forall_mmap_iff`.
-/

namespace SgxLkl

namespace Mman

/-! ## Layout -/

/-- The variables that `enclave_mman_init` sets for good. -/
def layout (s : Mman) : ℤ × Word × Word × Word × CInt :=
  (s.mmapFreshBitmap, s.mmapBase, s.mmapEnd, s.mmapNumPages, s.mmapFiles)

variable {s : Mman} {addr length : Word} {t : ℕ}

theorem allocated_congr {s' : Mman} (hwords : s'.words = s.words) (i : ℕ) : s'.allocated i = s.allocated i := by
  rw [allocated, allocated, hwords]

section Layout

variable {s s' : Mman} (h : s'.layout = s.layout)

include h

theorem mmapFreshBitmap_congr : s'.mmapFreshBitmap = s.mmapFreshBitmap := congrArg (·.1) h

theorem mmapBase_congr : s'.mmapBase = s.mmapBase := congrArg (·.2.1) h

theorem mmapEnd_congr : s'.mmapEnd = s.mmapEnd := congrArg (·.2.2.1) h

theorem mmapNumPages_congr : s'.mmapNumPages = s.mmapNumPages := congrArg (·.2.2.2.1) h

theorem numPages_congr : s'.numPages = s.numPages := congrArg BitVec.toNat (mmapNumPages_congr h)

theorem fresh_congr (hwords : s'.words = s.words) (i : ℕ) : s'.fresh i = s.fresh i := by
  rw [fresh, fresh, hwords, mmapFreshBitmap_congr h]

theorem pageAddr_congr (i : ℕ) : s'.pageAddr i = s.pageAddr i := by
  rw [pageAddr, pageAddr, mmapEnd_congr h]

theorem topAt_congr (addr length : Word) : s'.topAt addr length = s.topAt addr length := by
  rw [topAt, topAt, mmapEnd_congr h]

theorem inMmapRange_congr (addr length : Word) : s'.inMmapRange addr length ↔ s.inMmapRange addr length := by
  rw [inMmapRange, inMmapRange, mmapBase_congr h, mmapEnd_congr h]

theorem NoWrap_congr (addr length : Word) : s'.NoWrap addr length ↔ s.NoWrap addr length := by
  rw [NoWrap, NoWrap, inMmapRange_congr h]

theorem Laid.congr (hs : s.Laid) : s'.Laid := by
  have hn := numPages_congr h
  refine ⟨?_, ?_, ?_, ?_, ?_, ?_⟩
  · rw [mmapBase_congr h]; exact hs.aligned
  · rw [mmapBase_congr h]; exact hs.low
  · rw [mmapBase_congr h, mmapEnd_congr h, hn]; exact hs.stop
  · rw [mmapBase_congr h, hn]; exact hs.high
  · rw [hn]; exact hs.small
  · rw [mmapFreshBitmap_congr h, hn]; exact hs.fresh

end Layout

/-! ## Placement -/

/-- The hinted region is in range and entirely free. -/
def Hinted (s : Mman) (addr length : Word) : Prop :=
  addr ≠ 0 ∧ s.inMmapRange addr length ∧ FreeRun s.free (s.topAt addr length) (pageCount length)

/-- The mapping takes the indices from `t` on. -/
def Placed (s : Mman) (addr length : Word) (mmapFixed : CInt) (t : ℕ) : Prop :=
  if mmapFixed ≠ 0 then s.inMmapRange addr length ∧ t = s.topAt addr length
  else s.Hinted addr length ∧ t = s.topAt addr length ∨
    ¬ s.Hinted addr length ∧ IsFirstFit s.free s.numPages (pageCount length) t

theorem placed_zero : s.Placed addr length 0 t ↔ s.Hinted addr length ∧ t = s.topAt addr length ∨
      ¬ s.Hinted addr length ∧ IsFirstFit s.free s.numPages (pageCount length) t := by
  rw [Placed, if_neg (not_not.mpr rfl)]

theorem Placed.unique {mmapFixed : CInt} {t' : ℕ}
    (h : s.Placed addr length mmapFixed t) (h' : s.Placed addr length mmapFixed t') : t = t' := by
  rw [Placed] at h h'
  split_ifs at h h'
  · exact h.2.trans h'.2.symm
  · rcases h with ⟨hh, rfl⟩ | ⟨hh, hfit⟩ <;> rcases h' with ⟨hh', rfl⟩ | ⟨hh', hfit'⟩
    · rfl
    · exact absurd hh hh'
    · exact absurd hh' hh
    · exact hfit.unique hfit'

theorem exists_placed (ht : t + pageCount length ≤ s.numPages)
    (hrun : FreeRun s.free t (pageCount length)) (addr : Word) : ∃ t', s.Placed addr length 0 t' := by
  by_cases hh : s.Hinted addr length
  · exact ⟨_, placed_zero.mpr (.inl ⟨hh, rfl⟩)⟩
  · obtain ⟨j, hj⟩ := exists_firstFit ht hrun
    exact ⟨j, placed_zero.mpr (.inr ⟨hh, hj⟩)⟩

/-- The arguments pass the checks at the start of the calls. -/
def ValidArgs (addr length : Word) : Prop := addr.toNat % 4096 = 0 ∧ length ≠ 0

instance (addr length : Word) : Decidable (ValidArgs addr length) :=
  inferInstanceAs (Decidable (_ ∧ _))

theorem not_validArgs : (addr % pageSize ≠ 0 ∨ length = 0) ↔ ¬ ValidArgs addr length := by
  rw [ValidArgs, Ne, mod_pageSize_eq_zero]
  tauto

/-- The address of a mapping of `length` bytes at the indices from `t` on. -/
def mapAddr (s : Mman) (length : Word) (t : ℕ) : ℕ := s.pageAddr (t + pageCount length - 1)

def withMem (s : Mman) (m : Word → Byte) : Mman := { s with mem := m }

def allFresh (s : Mman) (t p : ℕ) : Bool := countIn s.fresh t (t + p) == p

/-- The state after a mapping at the indices from `t` on. -/
def reserve (s : Mman) (length : Word) (prot zeroPages : CInt) (t : ℕ) : Mman :=
  mmapFinish length (divRoundup length pageSize) prot zeroPages
    (BitVec.ofNat 64 (s.mapAddr length t)) (BitVec.ofNat 64 t)
    (decide (zeroPages ≠ 0) && s.allFresh t (pageCount length))
    (s.setAlloc (BitVec.ofNat 64 t) (divRoundup length pageSize))

/-- The state after the `p` pages from index `t` on are unmapped. -/
def release (s : Mman) (t p : ℕ) : Mman :=
  { s with
    words := bitmapClear s.words 0 t p
    usedPages := s.usedPages - BitVec.ofNat 64 (countIn s.allocated t (t + p)) }

end Mman

def BitRange.Below (b : BitRange) (n : ℕ) : Prop := ∀ k < b.nr.toNat, b.start.toNat + k < n

/-- The call returns `r`, leaves `s`, and names no bit from `n` on. -/
structure Outcome.Gives {α : Type} (x : Outcome α) (n : ℕ) (r : α) (s : Mman) : Prop where
  ret : x.ret = some r
  st : x.st = s
  below : ∀ b ∈ x.touched, b.Below n

theorem Outcome.Gives.bind {α β : Type} {x : Outcome α} {f : α → Mman → Outcome β} {n : ℕ} {a : α}
    {b : β} {s s' : Mman} (hx : x.Gives n a s) (hf : (f a s).Gives n b s') : (x.bind f).Gives n b s' := by
  obtain ⟨r, st, touched⟩ := x
  obtain ⟨rfl, rfl, hbelow⟩ := hx
  refine ⟨hf.ret, hf.st, fun c hc => ?_⟩
  exact (List.mem_append.mp hc).elim (hbelow c) (hf.below c)

namespace Mman

inductive MmapResult (s : Mman) (addr length : Word) (mmapFixed prot zeroPages : CInt) :
    Word → Mman → Prop
  | inval : ¬ ValidArgs addr length →
      MmapResult s addr length mmapFixed prot zeroPages (-eInval) s
  | nomem : ValidArgs addr length → (∀ t, ¬ s.Placed addr length mmapFixed t) →
      MmapResult s addr length mmapFixed prot zeroPages (-eNomem) s
  | mapped (t : ℕ) : ValidArgs addr length → s.Placed addr length mmapFixed t →
      MmapResult s addr length mmapFixed prot zeroPages (BitVec.ofNat 64 (s.mapAddr length t))
        (s.reserve length prot zeroPages t)

inductive MunmapResult (s : Mman) (addr length : Word) : Word → Mman → Prop
  | inval : ¬ (ValidArgs addr length ∧ s.inMmapRange addr length) →
      MunmapResult s addr length (-eInval) s
  | unmapped : ValidArgs addr length → s.inMmapRange addr length →
      MunmapResult s addr length 0 (s.release (s.topAt addr length) (pageCount length))

/-- The state of `enclave_mremap` once the new region is mapped and the old contents are copied. -/
def moved (s : Mman) (oldAddr oldLength newLength : Word) (t : ℕ) : Mman :=
  (s.reserve newLength (-1) 0 t).memcpy (BitVec.ofNat 64 (s.mapAddr newLength t)) oldAddr
    (if oldLength > newLength then newLength else oldLength)

/-- All that `enclave_mremap` can do. Whether the old region was unmapped does not show in its
result. -/
inductive MremapResult (s : Mman) (oldAddr oldLength newAddr newLength : Word) (mremapFixed : CInt) :
    Word → Mman → Prop
  | fixed : mremapFixed ≠ 0 →
      MremapResult s oldAddr oldLength newAddr newLength mremapFixed (-eInval) s
  | inval : mremapFixed = 0 → ¬ ValidArgs newAddr newLength →
      MremapResult s oldAddr oldLength newAddr newLength mremapFixed (-eInval) s
  | nomem : mremapFixed = 0 → ValidArgs newAddr newLength →
      (∀ t, ¬ s.Placed newAddr newLength 0 t) →
      MremapResult s oldAddr oldLength newAddr newLength mremapFixed (-eNomem) s
  | moved (t : ℕ) (r : Word) (s' : Mman) : mremapFixed = 0 → ValidArgs newAddr newLength →
      s.Placed newAddr newLength 0 t →
      MunmapResult (s.moved oldAddr oldLength newLength t) oldAddr oldLength r s' →
      MremapResult s oldAddr oldLength newAddr newLength mremapFixed
        (BitVec.ofNat 64 (s.mapAddr newLength t)) s'

/-! ## Effects -/

section Effects

variable {s : Mman} {length : Word} {t p : ℕ}

theorem sub_lt_iff {a b n : Word} (h : b.toNat + n.toNat ≤ 2 ^ 64) :
    a - b < n ↔ b.toNat ≤ a.toNat ∧ a.toNat < b.toNat + n.toNat := by
  have := a.isLt
  rw [BitVec.lt_def, BitVec.toNat_sub]
  omega

theorem cInt_ofNat {t : ℕ} (h : t < 2 ^ 31) : cInt (BitVec.ofNat 64 t) = t := by
  have ht : (BitVec.ofNat 64 t).toNat = t := by rw [BitVec.toNat_ofNat]; omega
  rw [cInt_of_lt (by omega), ht]

theorem cInt_divRoundup (hlen : length.toNat + 4095 < 2 ^ 64) (hp : pageCount length < 2 ^ 31) :
    cInt (divRoundup length pageSize) = pageCount length := by
  rw [cInt_of_lt (by rw [toNat_divRoundup hlen]; exact hp), toNat_divRoundup hlen]

section

variable (length pages : Word) (prot zeroPages : CInt) (ret top : Word) (fresh : Bool) (s : Mman)

theorem words_mmapFinish : (mmapFinish length pages prot zeroPages ret top fresh s).words = (s.clearFresh top pages).words := by
  simp only [mmapFinish]
  split_ifs <;> rfl

theorem mem_mmapFinish :
    (mmapFinish length pages prot zeroPages ret top fresh s).mem =
      if zeroPages ≠ 0 ∧ fresh = false then (s.memset ret 0 (pages * pageSize)).mem else s.mem := by
  simp only [mmapFinish]
  split_ifs <;> rfl

theorem layout_mmapFinish : (mmapFinish length pages prot zeroPages ret top fresh s).layout = s.layout := by
  simp only [mmapFinish]
  split_ifs <;> rfl

end

theorem layout_withMem (s : Mman) (m : Word → Byte) : (s.withMem m).layout = s.layout := rfl

theorem layout_setAlloc (s : Mman) (start nr : Word) : (s.setAlloc start nr).layout = s.layout := rfl

theorem layout_reserve (s : Mman) (length : Word) (prot zeroPages : CInt) (t : ℕ) :
    (s.reserve length prot zeroPages t).layout = s.layout :=
  layout_mmapFinish ..

theorem layout_moved (s : Mman) (oldAddr oldLength newLength : Word) (t : ℕ) :
    (s.moved oldAddr oldLength newLength t).layout = s.layout :=
  layout_reserve s newLength (-1) 0 t

theorem layout_release (s : Mman) (t p : ℕ) : (s.release t p).layout = s.layout := rfl

theorem mem_reserve_zero (s : Mman) (length : Word) (prot : CInt) (t : ℕ) :
    (s.reserve length prot 0 t).mem = s.mem := by
  rw [reserve, mem_mmapFinish, if_neg (fun h => h.1 rfl)]
  rfl

theorem allFresh_iff : s.allFresh t p = true ↔ ∀ i, t ≤ i → i < t + p → s.fresh i = true := by
  rw [allFresh, beq_iff_eq]
  have := @countIn_eq_length s.fresh t (t + p)
  rwa [Nat.add_sub_cancel_left] at this

theorem allocated_release (i : ℕ) :
    (s.release t p).allocated i = if t ≤ i ∧ i < t + p then false else s.allocated i := by
  rw [allocated, mapBit, release, bitAt_bitmapClear _ _ _ _ (by omega) (by omega)]
  refine if_congr ?_ rfl rfl
  omega

variable (hs : s.Laid)

include hs

theorem fresh_release (hfit : t + p ≤ s.numPages) (i : ℕ) : (s.release t p).fresh i = s.fresh i := by
  have := hs.fresh
  change bitAt (bitmapClear s.words 0 t p) (64 * s.mmapFreshBitmap + i) = _
  rw [bitAt_bitmapClear _ _ _ _ (by omega) (by omega), if_neg (by omega)]
  rfl

variable (hfit : t + pageCount length ≤ s.numPages)

include hfit

theorem mapAddr_add_le (hpos : length ≠ 0) : s.mapAddr length t + 4096 * pageCount length ≤ 2 ^ 63 := by
  have hp := pageCount_pos hpos
  have haddr := hs.pageAddr_eq (i := t + pageCount length - 1) (by omega)
  have hhigh := hs.high
  rw [mapAddr]
  omega

theorem toNat_mapAddr (hpos : length ≠ 0) : (BitVec.ofNat 64 (s.mapAddr length t)).toNat = s.mapAddr length t := by
  have := mapAddr_add_le hs hfit hpos
  rw [BitVec.toNat_ofNat]
  omega

theorem nonneg_mapAddr (hpos : length ≠ 0) : 0 ≤ (BitVec.ofNat 64 (s.mapAddr length t)).toInt := by
  have hle := mapAddr_add_le hs hfit hpos
  have hp := pageCount_pos hpos
  rw [BitVec.toInt_eq_toNat_of_lt (by rw [toNat_mapAddr hs hfit hpos]; omega)]
  omega

variable (hlen : length.toNat + 4095 < 2 ^ 64)

include hlen

theorem words_reserve (prot zeroPages : CInt) : (s.reserve length prot zeroPages t).words =
      bitmapClear (bitmapSet s.words 0 t (pageCount length)) s.mmapFreshBitmap t (pageCount length) := by
  have := hs.small
  rw [reserve, words_mmapFinish, clearFresh, setAlloc, cInt_ofNat (by omega), cInt_divRoundup hlen (by omega)]

theorem allocated_reserve (prot zeroPages : CInt) {i : ℕ} (hi : i < s.numPages) :
    (s.reserve length prot zeroPages t).allocated i =
      if t ≤ i ∧ i < t + pageCount length then true else s.allocated i := by
  have := hs.fresh
  rw [allocated, mapBit, words_reserve hs hfit hlen, bitAt_bitmapClear _ _ _ _ (by omega) (by omega),
    if_neg (by omega), bitAt_bitmapSet _ _ _ _ (by omega) (by omega)]
  refine if_congr ?_ rfl rfl
  omega

theorem fresh_reserve (prot zeroPages : CInt) (i : ℕ) : (s.reserve length prot zeroPages t).fresh i =
      if t ≤ i ∧ i < t + pageCount length then false else s.fresh i := by
  have := hs.fresh
  rw [fresh, mapBit, mmapFreshBitmap_congr (layout_reserve ..), words_reserve hs hfit hlen,
    bitAt_bitmapClear _ _ _ _ (by omega) (by omega)]
  refine if_congr (by omega) rfl ?_
  rw [bitAt_bitmapSet _ _ _ _ (by omega) (by omega), if_neg (by omega)]
  rfl

theorem mem_reserve (prot zeroPages : CInt) (hpos : length ≠ 0) (a : Word) :
    (s.reserve length prot zeroPages t).mem a =
      if (zeroPages ≠ 0 ∧ s.allFresh t (pageCount length) = false) ∧
          s.mapAddr length t ≤ a.toNat ∧
          a.toNat < s.mapAddr length t + 4096 * pageCount length then 0
      else s.mem a := by
  have hle := mapAddr_add_le hs hfit hpos
  have hto := toNat_mapAddr hs hfit hpos
  have hmul : (divRoundup length pageSize * pageSize).toNat = 4096 * pageCount length := by
    rw [BitVec.toNat_mul, toNat_divRoundup hlen, toNat_pageSize]
    omega
  rw [reserve, mem_mmapFinish]
  by_cases hz : zeroPages ≠ 0 ∧ s.allFresh t (pageCount length) = false
  · rw [if_pos ⟨hz.1, by simp [hz.2]⟩]
    have hiff := @sub_lt_iff a (BitVec.ofNat 64 (s.mapAddr length t))
      (divRoundup length pageSize * pageSize) (by rw [hto, hmul]; omega)
    rw [hto, hmul] at hiff
    exact if_congr (hiff.trans (and_iff_right hz).symm) rfl rfl
  · rw [if_neg, if_neg (fun h => hz h.1)]
    · rfl
    · rintro ⟨h1, h2⟩
      rw [decide_eq_true h1, Bool.true_and] at h2
      exact hz ⟨h1, h2⟩

end Effects

/-! ## Calls -/

section Calls

variable {s : Mman} {addr length : Word}

theorem pageCount_lt (hlen : length.toNat + 4095 < 2 ^ 64) : pageCount length < 2 ^ 53 := by
  rw [pageCount]
  omega

theorem toNat_ofNat_countIn (q : ℕ → Bool) {a b : ℕ} (hb : b < 2 ^ 64) :
    (BitVec.ofNat 64 (countIn q a b)).toNat = countIn q a b := by
  have := @countIn_le q a b
  rw [BitVec.toNat_ofNat]
  omega

theorem ofNat_countIn_eq_zero {t p : ℕ} (h : t + p < 2 ^ 64) :
    BitVec.ofNat 64 (countIn s.allocated t (t + p)) = 0 ↔ FreeRun s.free t p := by
  rw [← BitVec.toNat_inj, toNat_ofNat_countIn _ h]
  exact countIn_eq_zero

variable {s' : Mman}

theorem MmapResult.layout {mmapFixed prot zeroPages : CInt} {mem : Word}
    (h : s.MmapResult addr length mmapFixed prot zeroPages mem s') : s'.layout = s.layout := by
  cases h with
  | inval _ => rfl
  | nomem _ _ => rfl
  | mapped t _ _ => exact layout_reserve ..

theorem MunmapResult.allocated {r : Word} (h : s.MunmapResult addr length r s') (i : ℕ) :
    (ValidArgs addr length ∧ s.inMmapRange addr length ∧ s'.allocated i =
      if s.topAt addr length ≤ i ∧ i < s.topAt addr length + pageCount length then false
      else s.allocated i) ∨
    (¬ (ValidArgs addr length ∧ s.inMmapRange addr length) ∧ s'.allocated i = s.allocated i) := by
  cases h with
  | inval h => exact .inr ⟨h, rfl⟩
  | unmapped hv hin => exact .inl ⟨hv, hin, allocated_release i⟩

variable (hs : s.Laid)

include hs

/-- The first stage of `enclave_mmap`: the region at `addr`, a failure, or a search to be made. -/
theorem mmapAt_gives (hw : s.NoWrap addr length) (hv : ValidArgs addr length) (mmapFixed : CInt) :
    ∃ r s', (mmapAt addr length (divRoundup length pageSize) mmapFixed s).Gives s.numPages r s' ∧
      ((s.inMmapRange addr length ∧ (mmapFixed = 0 → s.Hinted addr length) ∧ r.1 = addr ∧
          r.2.toNat = s.topAt addr length ∧ s' = s.setAlloc r.2 (divRoundup length pageSize)) ∨
        (mmapFixed ≠ 0 ∧ ¬ s.inMmapRange addr length ∧ r.1 = -eNomem ∧ s' = s) ∨
        (mmapFixed = 0 ∧ ¬ s.Hinted addr length ∧ r.1 = 0 ∧ s' = s)) := by
  have hsmall := hs.small; have hlow := hs.low
  by_cases hin : s.inMmapRange addr length
  swap
  · by_cases hf : mmapFixed = 0
    · rw [mmapAt, if_neg (not_not.mpr hf), if_neg (fun h => hin h.2)]
      exact ⟨_, _, ⟨rfl, rfl, by simp⟩, .inr (.inr ⟨hf, fun h => hin h.2.1, rfl, rfl⟩)⟩
    · rw [mmapAt, if_pos hf, if_neg hin]
      exact ⟨_, _, ⟨rfl, rfl, by simp⟩, .inr (.inl ⟨hf, hin, rfl, rfl⟩)⟩
  have hrange := hw.inMmapRange_iff.mp hin
  obtain ⟨-, hfit, -⟩ := hs.topAt_spec hv.1 hv.2 hrange.1 hrange.2
  have hpages := toNat_divRoundup hw.2
  have htop := hs.indexTop_eq hv.1 hv.2 hw.2 hrange.1 hrange.2
  have hne : addr ≠ 0 := toNat_pos.mp (by omega)
  rw [mmapAt]
  set pages := divRoundup length pageSize
  set top := s.indexTop addr pages
  have hbelow : BitRange.Below ⟨top, pages⟩ s.numPages := fun k hk => by
    simp only [htop, hpages] at hk ⊢; omega
  by_cases hf : mmapFixed = 0
  · have hend : top.toNat + pages.toNat ≤ s.mmapNumPages.toNat := by
      rw [htop, hpages]; exact Nat.le_of_succ_le hfit
    have hzero := @ofNat_countIn_eq_zero s (s.topAt addr length) (pageCount length) (by omega)
    rw [if_neg (not_not.mpr hf), if_pos ⟨hne, hin⟩, bitmapCountSetBits_eq s.words 0 hsmall hend, htop, hpages]
    dsimp only
    split_ifs with hfree
    · exact ⟨_, _, ⟨rfl, rfl, by simp [hbelow]⟩, .inl ⟨hin, fun _ => ⟨hne, hin, hzero.mp hfree⟩, rfl, htop, rfl⟩⟩
    · exact ⟨_, _, ⟨rfl, rfl, by simp [hbelow]⟩, .inr (.inr ⟨hf, fun h => hfree (hzero.mpr h.2.2), rfl, rfl⟩)⟩
  · rw [if_pos hf, if_pos hin]
    exact ⟨_, _, ⟨rfl, rfl, by simp [hbelow]⟩, .inl ⟨hin, fun h => absurd h hf, rfl, htop, rfl⟩⟩

theorem mmapFind_gives (hlen : length.toNat + 4095 < 2 ^ 64) (hpos : length ≠ 0) {r : Word × Word} (hr : r.1 = 0) :
    ∃ r' s', (mmapFind (divRoundup length pageSize) r s).Gives s.numPages r' s' ∧
      ((IsFirstFit s.free s.numPages (pageCount length) r'.2.toNat ∧ r'.1.toNat = s.mapAddr length r'.2.toNat ∧
          s' = s.setAlloc r'.2 (divRoundup length pageSize)) ∨
        (r'.1 = -eNomem ∧ s' = s ∧ ∀ t, ¬ IsFirstFit s.free s.numPages (pageCount length) t)) := by
  have hsmall := hs.small
  have hp := pageCount_pos hpos
  have hplt := pageCount_lt hlen
  have hpages := toNat_divRoundup hlen
  rw [mmapFind, if_pos hr]
  set pages := divRoundup length pageSize
  obtain ⟨top, htop, hcase⟩ := bitmapFindNextZeroArea_spec s.words 0 hsmall
    (show 0 < pages.toNat by omega) (by omega)
  rw [hpages] at hcase
  have hadd : (top + pages).toNat = top.toNat + pageCount length := by
    have : top.toNat < 2 ^ 63 + 2 ^ 32 := by
      rcases hcase with hfit | hno
      · have : top.toNat + pageCount length ≤ s.numPages := hfit.fits
        omega
      · exact hno.2.1
    rw [BitVec.toNat_add, hpages]
    omega
  rw [htop]
  dsimp only
  rcases hcase with hfit | ⟨hbig, -, hno⟩
  · have hle : top.toNat + pageCount length ≤ s.numPages := hfit.fits
    have hsub : (top + (pages - 1)).toNat = top.toNat + pageCount length - 1 := by
      rw [BitVec.toNat_add, BitVec.toNat_sub, hpages, show (1 : Word).toNat = 1 from rfl]
      omega
    rw [if_neg (by rw [gt_iff_lt, BitVec.lt_def, hadd]; exact not_lt.mpr hle)]
    refine ⟨_, _, ⟨rfl, rfl, ?_⟩, .inl ⟨hfit, ?_, rfl⟩⟩
    · intro b hb k hk
      rw [List.mem_singleton] at hb
      subst hb
      rw [hpages] at hk
      exact lt_of_lt_of_le (Nat.add_lt_add_left hk _) hle
    · rw [hs.toNat_indexToAddr (by omega), hsub, mapAddr]
  · rw [if_pos (by rw [gt_iff_lt, BitVec.lt_def, hadd]; exact Nat.lt_add_right _ hbig)]
    exact ⟨_, _, ⟨rfl, rfl, by simp⟩, .inr ⟨rfl, rfl, fun t ht => hno t ht.fits ht.run⟩⟩

theorem mmapCommit_gives (hlen : length.toNat + 4095 < 2 ^ 64) (hpos : length ≠ 0)
    (prot zeroPages : CInt) {ret top : Word} (hfit : top.toNat + pageCount length ≤ s.numPages)
    (hret : ret.toNat = s.mapAddr length top.toNat) :
    (mmapCommit length (divRoundup length pageSize) prot zeroPages (ret, top)
        (s.setAlloc top (divRoundup length pageSize))).Gives s.numPages
      (BitVec.ofNat 64 (s.mapAddr length top.toNat)) (s.reserve length prot zeroPages top.toNat) := by
  have hsmall := hs.small
  have hpages := toNat_divRoundup hlen
  have hle := mapAddr_add_le hs hfit hpos
  have hp := pageCount_pos hpos
  have hret' : BitVec.ofNat 64 (s.mapAddr length top.toNat) = ret := by
    rw [← hret, BitVec.ofNat_toNat, BitVec.setWidth_eq]
  have htop' : BitVec.ofNat 64 top.toNat = top := by
    rw [BitVec.ofNat_toNat, BitVec.setWidth_eq]
  have hbelow : BitRange.Below ⟨top, divRoundup length pageSize⟩ s.numPages := fun k hk => by
    simp only [hpages] at hk ⊢; omega
  have hnonneg : 0 ≤ ret.toInt := by
    rw [BitVec.toInt_eq_toNat_of_lt (by omega)]
    omega
  -- setting allocation bits does not touch the fresh bits
  have hfresh : mapBit (s.setAlloc top (divRoundup length pageSize)).words s.mmapFreshBitmap =
      s.fresh := by
    have := hs.fresh
    funext i
    rw [mapBit, setAlloc, cInt_of_lt (by omega), cInt_divRoundup hlen (by omega),
      bitAt_bitmapSet _ _ _ _ (by omega) (by omega), if_neg (by omega)]
    rfl
  have honly : (onlyFresh (divRoundup length pageSize) zeroPages top
      (s.setAlloc top (divRoundup length pageSize))).Gives s.numPages
      (decide (zeroPages ≠ 0) && s.allFresh top.toNat (pageCount length))
      (s.setAlloc top (divRoundup length pageSize)) := by
    rw [onlyFresh]
    by_cases hz : zeroPages = 0
    · rw [if_neg (not_not.mpr hz), decide_eq_false (not_not.mpr hz)]
      exact ⟨rfl, rfl, by simp⟩
    · rw [if_pos hz, decide_eq_true hz]
      refine ⟨?_, rfl, by simp [hbelow]⟩
      have hcount := bitmapCountSetBits_eq (s.setAlloc top (divRoundup length pageSize)).words
        s.mmapFreshBitmap hsmall (show top.toNat + (divRoundup length pageSize).toNat ≤
          s.mmapNumPages.toNat by rw [hpages]; exact hfit)
      rw [hfresh, hpages] at hcount
      change (bitmapCountSetBits (s.setAlloc top (divRoundup length pageSize)).words
        s.mmapFreshBitmap s.mmapNumPages top (divRoundup length pageSize)).map _ = _
      rw [hcount, Option.map_some, Bool.true_and, allFresh]
      congr 1
      rw [Bool.eq_iff_iff, beq_iff_eq, beq_iff_eq, ← BitVec.toNat_inj, hpages, toNat_ofNat_countIn _ (by omega)]
  rw [mmapCommit, if_pos hnonneg]
  refine honly.bind ⟨?_, ?_, by simp [hbelow]⟩
  · rw [hret']
  · rw [reserve, hret', htop']

theorem topAt_fits (hw : s.NoWrap addr length) (hv : ValidArgs addr length) (hin : s.inMmapRange addr length) :
    1 ≤ s.topAt addr length ∧ s.topAt addr length + pageCount length + 1 ≤ s.numPages ∧
      s.mapAddr length (s.topAt addr length) = addr.toNat := by
  have hrange := hw.inMmapRange_iff.mp hin
  exact hs.topAt_spec hv.1 hv.2 hrange.1 hrange.2

theorem Placed.fits {mmapFixed : CInt} {t : ℕ} (h : s.Placed addr length mmapFixed t)
    (hw : s.NoWrap addr length) (hv : ValidArgs addr length) : t + pageCount length ≤ s.numPages := by
  rw [Placed] at h
  split_ifs at h
  · obtain ⟨-, hfit, -⟩ := topAt_fits hs hw hv h.1
    omega
  · rcases h with ⟨hh, rfl⟩ | ⟨-, hfit⟩
    · obtain ⟨-, hfit, -⟩ := topAt_fits hs hw hv hh.2.1
      omega
    · exact hfit.fits

theorem ne_zero_of_inMmapRange (hw : s.NoWrap addr length) (hin : s.inMmapRange addr length) : addr ≠ 0 := by
  have := hs.low; have := (hw.inMmapRange_iff.mp hin).1
  exact toNat_pos.mp (by omega)

section

variable (hw : ValidArgs addr length → s.NoWrap addr length)

include hw

/-- **`enclave_mmap` returns**, names only bits of managed pages, and does what `MmapResult`
lists. -/
theorem enclaveMmap_gives (mmapFixed prot zeroPages : CInt) :
    ∃ r s', (enclaveMmap addr length mmapFixed prot zeroPages s).Gives s.numPages r s' ∧
      s.MmapResult addr length mmapFixed prot zeroPages r s' := by
  by_cases hv : ValidArgs addr length
  swap
  · rw [enclaveMmap, if_pos (not_validArgs.mpr hv)]
    exact ⟨_, _, ⟨rfl, rfl, by simp⟩, .inval hv⟩
  have hw := hw hv
  rw [enclaveMmap, if_neg (fun h => not_validArgs.mp h hv)]
  have hfail : ∀ top, (mmapCommit length (divRoundup length pageSize) prot zeroPages
      (-eNomem, top) s).Gives s.numPages (-eNomem) s := fun top => by
    rw [mmapCommit, if_neg (show ¬ 0 ≤ (-eNomem).toInt by decide)]
    exact ⟨rfl, rfl, by simp⟩
  obtain ⟨⟨ret, top⟩, s', hat, hcase⟩ := mmapAt_gives hs hw hv mmapFixed
  rcases hcase with ⟨hin, hhint, hret, htop, rfl⟩ | ⟨hf, hin, hret, rfl⟩ | ⟨hf, hhint, hret, rfl⟩
  · -- the region at `addr`
    obtain ⟨-, hfit, hmap⟩ := topAt_fits hs hw hv hin
    have hlow := hs.low
    have hrange := hw.inMmapRange_iff.mp hin
    simp only at hret htop
    subst hret
    have hne : ret ≠ 0 := toNat_pos.mp (by omega)
    rw [← htop] at hfit hmap
    have hfind : (mmapFind (divRoundup length pageSize) (ret, top)
        (s.setAlloc top (divRoundup length pageSize))).Gives s.numPages (ret, top)
        (s.setAlloc top (divRoundup length pageSize)) := by
      rw [mmapFind, if_neg hne]
      exact ⟨rfl, rfl, by simp⟩
    refine ⟨_, _, (hat.bind hfind).bind
      (mmapCommit_gives hs hw.2 hv.2 prot zeroPages (by omega) hmap.symm), .mapped _ hv ?_⟩
    rw [Placed]
    split_ifs with hf
    · exact ⟨hin, htop⟩
    · exact .inl ⟨hhint (not_not.mp hf), htop⟩
  · -- a fixed region out of range
    simp only at hret
    subst hret
    have hfind : (mmapFind (divRoundup length pageSize) (-eNomem, top) s').Gives s'.numPages
        (-eNomem, top) s' := by
      rw [mmapFind, if_neg (show -eNomem ≠ 0 by decide)]
      exact ⟨rfl, rfl, by simp⟩
    refine ⟨_, _, (hat.bind hfind).bind (hfail top), .nomem hv fun t ht => ?_⟩
    rw [Placed, if_pos hf] at ht
    exact hin ht.1
  · -- the search
    obtain ⟨⟨ret', top'⟩, s'', hfind, hcase⟩ := mmapFind_gives hs hw.2 hv.2 hret
    rcases hcase with ⟨hfit, hmap, rfl⟩ | ⟨hret', rfl, hno⟩
    · refine ⟨_, _, (hat.bind hfind).bind
        (mmapCommit_gives hs hw.2 hv.2 prot zeroPages hfit.fits hmap), .mapped _ hv ?_⟩
      rw [Placed, if_neg (not_not.mpr hf)]
      exact .inr ⟨hhint, hfit⟩
    · simp only at hret'
      subst hret'
      refine ⟨_, _, (hat.bind hfind).bind (hfail top'), .nomem hv fun t ht => ?_⟩
      rw [Placed, if_neg (not_not.mpr hf)] at ht
      exact ht.elim (fun h => hhint h.1) (fun h => hno t h.2)

/-- **What holds of every successful `enclave_mmap`** holds of every mapping at its place. -/
theorem forall_mmap_iff (mmapFixed prot zeroPages : CInt) {Q : Word → Mman → Prop} :
    (∀ r, (enclaveMmap addr length mmapFixed prot zeroPages s).ret = some r → 0 ≤ r.toInt →
      Q r (enclaveMmap addr length mmapFixed prot zeroPages s).st) ↔
      ∀ t, ValidArgs addr length → s.Placed addr length mmapFixed t →
        Q (BitVec.ofNat 64 (s.mapAddr length t)) (s.reserve length prot zeroPages t) := by
  obtain ⟨r, s', hgives, hres⟩ := enclaveMmap_gives hs hw mmapFixed prot zeroPages
  rw [hgives.ret, hgives.st]
  cases hres with
  | inval hv =>
    refine iff_of_true ?_ fun t hv' => absurd hv' hv
    rintro r ⟨⟩ hr
    exact absurd hr (by decide)
  | nomem hv hno =>
    refine iff_of_true ?_ fun t _ ht => absurd ht (hno t)
    rintro r ⟨⟩ hr
    exact absurd hr (by decide)
  | mapped t hv ht =>
    have hnonneg := nonneg_mapAddr hs (ht.fits hs (hw hv) hv) hv.2
    constructor
    · intro h t' _ ht'
      obtain rfl := ht.unique ht'
      exact h _ rfl hnonneg
    · rintro h r ⟨⟩ -
      exact h t hv ht

/-- **`enclave_munmap` returns**, names only bits of managed pages, and does what `MunmapResult`
lists. -/
theorem enclaveMunmap_gives : ∃ r s', (enclaveMunmap addr length s).Gives s.numPages r s' ∧
      s.MunmapResult addr length r s' := by
  by_cases h : ValidArgs addr length ∧ s.inMmapRange addr length
  swap
  · rw [enclaveMunmap, if_pos]
    · exact ⟨_, _, ⟨rfl, rfl, by simp⟩, .inval h⟩
    · rw [← or_assoc, not_validArgs]
      tauto
  obtain ⟨hv, hin⟩ := h
  have hw := hw hv
  have hsmall := hs.small
  obtain ⟨-, hfit, -⟩ := topAt_fits hs hw hv hin
  have hrange := hw.inMmapRange_iff.mp hin
  have hpages := toNat_divRoundup hw.2
  have htop := hs.indexTop_eq hv.1 hv.2 hw.2 hrange.1 hrange.2
  rw [enclaveMunmap, if_neg (by rw [← or_assoc, not_validArgs]; tauto)]
  have hcint := cInt_divRoundup hw.2 (show pageCount length < 2 ^ 31 by omega)
  set pages := divRoundup length pageSize
  set top := s.indexTop addr pages
  have hbelow : BitRange.Below ⟨top, pages⟩ s.numPages := fun k hk => by
    simp only [htop, hpages] at hk ⊢; omega
  have hend : top.toNat + pages.toNat ≤ s.mmapNumPages.toNat := by
    rw [htop, hpages]; exact Nat.le_of_succ_le hfit
  dsimp only
  rw [bitmapCountSetBits_eq s.words 0 hsmall hend]
  refine ⟨_, _, ⟨rfl, ?_, by simp [hbelow]⟩, .unmapped hv hin⟩
  dsimp only
  rw [clearAlloc, hcint, cInt_of_lt (by omega), htop, hpages]
  rfl

end

/-- **`enclave_mremap` returns**, names only bits of managed pages, and does what `MremapResult`
lists. -/
theorem enclaveMremap_gives {oldAddr oldLength newAddr newLength : Word}
    (hnew : ValidArgs newAddr newLength → s.NoWrap newAddr newLength)
    (hold : ValidArgs oldAddr oldLength → s.NoWrap oldAddr oldLength) (mremapFixed : CInt) :
    ∃ r s', (enclaveMremap oldAddr oldLength newAddr newLength mremapFixed s).Gives s.numPages r s' ∧
      s.MremapResult oldAddr oldLength newAddr newLength mremapFixed r s' := by
  by_cases hf : mremapFixed = 0
  swap
  · rw [enclaveMremap, if_pos hf]
    exact ⟨_, _, ⟨rfl, rfl, by simp⟩, .fixed hf⟩
  rw [enclaveMremap, if_neg (not_not.mpr hf)]
  obtain ⟨r, s', hgives, hres⟩ := enclaveMmap_gives hs hnew 0 (-1) 0
  cases hres with
  | inval hv =>
    refine ⟨_, _, hgives.bind ?_, .inval hf hv⟩
    rw [if_neg (show ¬ 0 ≤ (-eInval).toInt by decide)]
    exact ⟨rfl, rfl, by simp⟩
  | nomem hv hno =>
    refine ⟨_, _, hgives.bind ?_, .nomem hf hv hno⟩
    rw [if_neg (show ¬ 0 ≤ (-eNomem).toInt by decide)]
    exact ⟨rfl, rfl, by simp⟩
  | mapped t hv ht =>
    have hlay := layout_moved s oldAddr oldLength newLength t
    obtain ⟨r', s', hun, hres'⟩ := enclaveMunmap_gives (hs.congr hlay)
      fun hv => (NoWrap_congr hlay _ _).mpr (hold hv)
    rw [numPages_congr hlay] at hun
    refine ⟨_, _, hgives.bind ?_, .moved t r' s' hf hv ht hres'⟩
    rw [if_pos (nonneg_mapAddr hs (ht.fits hs (hnew hv) hv) hv.2)]
    exact hun.bind ⟨rfl, rfl, by simp⟩

end Calls

end Mman

end SgxLkl
