import SgxLkl.Mem.Zero

/-!
# The number of used pages

`used_pages` is counted up by a mapping and down by the pages that an unmapping finds mapped. A
fixed mapping counts all its pages, also those that it maps over: `MemOp.replaced`, and `replacedIn`
for a history.

* `surplus_exec`: an operation adds exactly the pages it maps over to the surplus of `used_pages`
  over the bits that are set.
* **`usedPages_eq_setBits`**: after every history `used_pages` is the number of set bits if and only
  if nothing was mapped over; then `enclave_mem_info` tells the size of the free pages.
-/

namespace SgxLkl

open Mman BitVec

namespace Mman

/-- The number of set bits of `mmap_bitmap`. -/
def setBits (s : Mman) : ℕ := countIn s.allocated 0 s.numPages

/-- How much `used_pages` is above the number of set bits. -/
def surplus (s : Mman) : Word := s.usedPages - BitVec.ofNat 64 s.setBits

variable {s s' : Mman} {addr length : Word} {t p : ℕ}

theorem usedPages_reserve (prot zeroPages : CInt) :
    (s.reserve length prot zeroPages t).usedPages = s.usedPages + divRoundup length pageSize := by
  rw [reserve]
  simp only [mmapFinish]
  split_ifs <;> rfl

/-- A mapping adds the pages that were mapped before. -/
theorem surplus_reserve (hs : s.Laid) (hfit : t + pageCount length ≤ s.numPages)
    (hlen : length.toNat + 4095 < 2 ^ 64) (prot zeroPages : CInt) : (s.reserve length prot zeroPages t).surplus =
      s.surplus + BitVec.ofNat 64 (countIn s.allocated t (t + pageCount length)) := by
  have hbits := fun i (hi : i < s.numPages) => allocated_reserve hs hfit hlen prot zeroPages hi
  have hnew : countIn (s.reserve length prot zeroPages t).allocated t (t + pageCount length) =
      pageCount length := by
    have := @countIn_eq_length (s.reserve length prot zeroPages t).allocated t (t + pageCount length)
    rw [Nat.add_sub_cancel_left] at this
    exact this.mpr fun i h1 h2 => by rw [hbits i (by omega), if_pos ⟨h1, h2⟩]
  have hcount := countIn_update (q := s.allocated) hfit
    fun i hi hout => (hbits i hi).trans (if_neg hout)
  rw [hnew] at hcount
  have hpages : divRoundup length pageSize = BitVec.ofNat 64 (pageCount length) := by
    rw [← toNat_divRoundup hlen, ofNat_toNat, setWidth_eq]
  have hword := congrArg (BitVec.ofNat 64) hcount
  rw [ofNat_add, ofNat_add] at hword
  rw [surplus, surplus, usedPages_reserve, setBits, setBits, numPages_congr (layout_reserve ..), hpages]
  grind

/-- An unmapping counts exactly the bits that it clears. -/
theorem surplus_release (hfit : t + p ≤ s.numPages) : (s.release t p).surplus = s.surplus := by
  have hnew : countIn (s.release t p).allocated t (t + p) = 0 :=
    countIn_eq_zero.mpr fun i h1 h2 => by rw [allocated_release, if_pos ⟨h1, h2⟩]
  have hcount := countIn_update hfit
    fun i (_ : i < s.numPages) hout => (allocated_release (s := s) i).trans (if_neg hout)
  rw [hnew, Nat.add_zero] at hcount
  have hword := congrArg (BitVec.ofNat 64) hcount
  rw [ofNat_add] at hword
  change s.usedPages - BitVec.ofNat 64 (countIn s.allocated t (t + p)) -
    BitVec.ofNat 64 (countIn (s.release t p).allocated 0 s.numPages) = _
  rw [surplus, setBits, ← hword]
  grind

theorem surplus_congr (hused : s'.usedPages = s.usedPages) (hwords : s'.words = s.words)
    (hlay : s'.layout = s.layout) : s'.surplus = s.surplus := by
  rw [surplus, surplus, setBits, setBits, numPages_congr hlay, hused,
    countIn_congr fun i _ _ => allocated_congr hwords i]

theorem MunmapResult.surplus {r : Word} (h : s.MunmapResult addr length r s') (hs : s.Laid)
    (hw : ValidArgs addr length → s.NoWrap addr length) : s'.surplus = s.surplus := by
  cases h with
  | inval _ => rfl
  | unmapped hv hin =>
    have hfits := (topAt_fits hs (hw hv) hv hin).2.1
    exact surplus_release (by omega)

/-- What is not fixed is mapped at free pages. -/
theorem countIn_placed_zero (h : s.Placed addr length 0 t) : countIn s.allocated t (t + pageCount length) = 0 := by
  rcases placed_zero.mp h with ⟨hh, rfl⟩ | ⟨-, hfit⟩
  · exact countIn_eq_zero.mpr hh.2.2
  · exact countIn_eq_zero.mpr hfit.run

end Mman

/-! ## Histories -/

/-- The mapped pages that the operation maps over. -/
def MemOp.replaced (s : Mman) : MemOp → ℕ
  | mmap addr length mmapFixed _ _ =>
    if mmapFixed ≠ 0 ∧ ValidArgs addr length ∧ s.inMmapRange addr length then
      countIn s.allocated (s.topAt addr length) (s.topAt addr length + pageCount length)
    else 0
  | _ => 0

/-- The mapped pages that the operations of a history map over. -/
def replacedIn : List MemOp → Mman → ℕ
  | [], _ => 0
  | o :: l, s => o.replaced s + replacedIn l (o.exec s).st

variable {s s' : Mman}

/-- The pages of a mapping that were mapped before are those that a fixed one maps over. -/
theorem replaced_mmap {addr length : Word} {mmapFixed : CInt} {t : ℕ}
    (h : s.Placed addr length mmapFixed t) (hv : ValidArgs addr length) (prot zeroPages : CInt) :
    (MemOp.mmap addr length mmapFixed prot zeroPages).replaced s =
      countIn s.allocated t (t + pageCount length) := by
  by_cases hf : mmapFixed = 0
  · subst hf
    rw [countIn_placed_zero h, MemOp.replaced, if_neg fun hc => hc.1 rfl]
  · rw [Placed, if_pos hf] at h
    rw [h.2]
    exact if_pos ⟨hf, hv, h.1⟩

/-- **An operation adds exactly the pages that it maps over.** -/
theorem surplus_exec (o : MemOp) (hs : s.Laid) (ho : o.NoWrap s) :
    (o.exec s).st.surplus = s.surplus + BitVec.ofNat 64 (o.replaced s) := by
  cases o with
  | mmap addr length mmapFixed prot zeroPages =>
    obtain ⟨r, s', hgives, hres⟩ := enclaveMmap_gives hs ho mmapFixed prot zeroPages
    rw [MemOp.exec, hgives.st]
    cases hres with
    | inval hv =>
      rw [MemOp.replaced, if_neg fun hc => hv hc.2.1]
      exact (BitVec.add_zero _).symm
    | nomem hv hno =>
      rw [MemOp.replaced, if_neg]
      · exact (BitVec.add_zero _).symm
      · rintro ⟨hf, -, hin⟩
        exact hno _ (by rw [Placed, if_pos hf]; exact ⟨hin, rfl⟩)
    | mapped t hv ht =>
      rw [surplus_reserve hs (ht.fits hs (ho hv) hv) (ho hv).2, replaced_mmap ht hv]
  | munmap addr length =>
    obtain ⟨r, s', hgives, hres⟩ := enclaveMunmap_gives hs ho
    rw [MemOp.exec, hgives.st, hres.surplus hs ho]
    exact (BitVec.add_zero _).symm
  | mremap oldAddr oldLength newAddr newLength mremapFixed =>
    obtain ⟨r, s', hgives, hres⟩ := enclaveMremap_gives hs ho.1 ho.2 mremapFixed
    rw [MemOp.exec, hgives.st]
    refine Eq.trans ?_ (BitVec.add_zero _).symm
    cases hres with
    | fixed _ => rfl
    | inval _ _ => rfl
    | nomem _ _ _ => rfl
    | moved t r' s' _ hv ht hres' =>
      have hw := ho.1 hv
      have hlay := layout_moved s oldAddr oldLength newLength t
      rw [hres'.surplus (hs.congr hlay) fun hv' => (NoWrap_congr hlay _ _).mpr (ho.2 hv')]
      change (s.reserve newLength (-1) 0 t).surplus = _
      rw [surplus_reserve hs (ht.fits hs hw hv) hw.2, countIn_placed_zero ht]
      exact BitVec.add_zero _
  | write addr b => exact (surplus_congr rfl rfl rfl).trans (BitVec.add_zero _).symm

theorem surplus_of_run {l : List MemOp} (hs : s.Laid) (hrun : Run (Guarded MemOp.Step MemOp.NoWrap) s l s') :
    s'.surplus = s.surplus + BitVec.ofNat 64 (replacedIn l s) := by
  induction hrun with
  | nil => exact (BitVec.add_zero _).symm
  | @cons s t s' o l hstep _ ih =>
    obtain ⟨hok, -, rfl⟩ := hstep
    rw [ih (hs.congr (layout_exec o)), surplus_exec o hs hok, replacedIn, ofNat_add, BitVec.add_assoc]

/-- **Page accounting.** After every history `used_pages` is the number of set bits if and only if
the number of pages that fixed mappings have mapped over is `0` (modulo `2 ^ 64`), and then
`enclave_mem_info` reports the size of the pages that are free. -/
theorem usedPages_eq_setBits {base numPages : Word} (h : HeapOk base numPages) {s₀ : Mman}
    (hused : s₀.usedPages = 0) (files : CInt) {l : List MemOp}
    (hrun : Run (Guarded MemOp.Step MemOp.NoWrap) (s₀.enclaveMmanInit base numPages files) l s) :
    (s.usedPages = BitVec.ofNat 64 s.setBits ↔ 2 ^ 64 ∣ replacedIn l (s₀.enclaveMmanInit base numPages files)) ∧
    (replacedIn l (s₀.enclaveMmanInit base numPages files) = 0 →
      s.usedPages.toNat = s.setBits ∧ s.setBits ≤ s.numPages ∧
      s.enclaveMemInfo.2.toNat = (s.numPages - s.setBits) * 4096) := by
  set init := s₀.enclaveMmanInit base numPages files
  have hs := (h.laid_init s₀ files).congr (layout_of_run (hrun.mono fun _ _ _ hstep => hstep.2))
  have hzero : init.surplus = 0 := by
    have hbits : init.setBits = 0 := countIn_eq_zero.mpr fun i _ hi => (h.bits_init s₀ files hi).1
    rw [surplus, hbits, show init.usedPages = 0 from hused]
    rfl
  have hsurplus := surplus_of_run (h.laid_init s₀ files) hrun
  rw [hzero, zero_add] at hsurplus
  have hiff : s.usedPages = BitVec.ofNat 64 s.setBits ↔ 2 ^ 64 ∣ replacedIn l init := by
    rw [← sub_eq_zero, show s.usedPages - _ = s.surplus from rfl, hsurplus,
      ← toNat_inj, toNat_ofNat, Nat.dvd_iff_mod_eq_zero]
    rfl
  refine ⟨hiff, fun hnone => ?_⟩
  have heq := hiff.mpr (hnone ▸ dvd_zero _)
  have hle : s.setBits ≤ s.numPages := countIn_le 0 s.numPages
  have hsmall := hs.small
  have htoNat : s.usedPages.toNat = s.setBits := by
    rw [heq, toNat_ofNat, Nat.mod_eq_of_lt (by omega)]
  refine ⟨htoNat, hle, ?_⟩
  change ((s.mmapNumPages - s.usedPages) * pageSize).toNat = _
  have hsub : (s.mmapNumPages - s.usedPages).toNat = s.numPages - s.setBits := by
    rw [toNat_sub_of_le (by rw [le_def, htoNat]; exact hle), htoNat]
    rfl
  rw [toNat_mul, hsub, toNat_pageSize, Nat.mod_eq_of_lt (by omega)]

theorem usedPages_eq_setBits_sixteen : replacedIn usedHistory sixteen = 0 ∧
      (execAll usedHistory sixteen).usedPages.toNat = (execAll usedHistory sixteen).setBits := by
  have hreturns : Returns MemOp.NoWrap usedHistory sixteen := by decide +kernel
  have hnone : replacedIn usedHistory sixteen = 0 := by decide +kernel
  have hused : unset.usedPages = 0 := rfl
  exact ⟨hnone, ((usedPages_eq_setBits heapOk_sixteen hused 0 hreturns.run).2 hnone).1⟩

/-- A page is mapped twice at the same address: it counts twice, and one page too few is free. -/
theorem mapped_over_counts_twice :
    (execAll [.mmap 0x108000 0x1000 1 3 0, .mmap 0x108000 0x1000 1 3 0] sixteen).usedPages = 2 ∧
      (execAll [.mmap 0x108000 0x1000 1 3 0, .mmap 0x108000 0x1000 1 3 0] sixteen).setBits = 1 ∧
      (execAll [.mmap 0x108000 0x1000 1 3 0, .mmap 0x108000 0x1000 1 3 0] sixteen).enclaveMemInfo.2 =
        12 * 4096 := by
  decide +kernel

end SgxLkl
