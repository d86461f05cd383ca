import SgxLkl.Mem.Ops

/-!
# Where mappings lie, and how they are undone

`index_to_addr` puts the page of index `0` at `mmap_end`, where `in_mmap_range` accepts nothing, and
the page of the last index below `mmap_base`. Every other index is fine:

* **`mmap_inside_iff`**: a mapping lies between `mmap_base` and the end of the heap unless the first
  fit takes the last index.
* **`munmap_mmap_iff`**: `enclave_munmap` undoes `enclave_mmap` unless the first fit takes the first
  or the last index.
-/

namespace SgxLkl

open Mman

variable {s : Mman} {addr length : Word} {mmapFixed : CInt} {t : ℕ}

namespace Mman

/-- The first fit, if it comes to it, does not take the last index. -/
def SparesLast (s : Mman) (addr length : Word) (mmapFixed : CInt) : Prop :=
  mmapFixed = 0 → ¬ s.Hinted addr length →
    ¬ IsFirstFit s.free s.numPages (pageCount length) (s.numPages - pageCount length)

/-- The first fit, if it comes to it, does not take the first index. -/
def SparesFirst (s : Mman) (addr length : Word) (mmapFixed : CInt) : Prop :=
  mmapFixed = 0 → ¬ s.Hinted addr length → ¬ IsFirstFit s.free s.numPages (pageCount length) 0

theorem Placed.freeRun (h : s.Placed addr length 0 t) : FreeRun s.free t (pageCount length) := by
  rcases placed_zero.mp h with ⟨hh, rfl⟩ | ⟨-, hfit⟩
  · exact hh.2.2
  · exact hfit.run

section Placed

variable (hs : s.Laid) (hw : s.NoWrap addr length) (hv : ValidArgs addr length)

include hs hw hv

theorem Placed.inner (h : s.Placed addr length mmapFixed t) :
    (mmapFixed = 0 ∧ ¬ s.Hinted addr length ∧ IsFirstFit s.free s.numPages (pageCount length) t) ∨
      (1 ≤ t ∧ t + pageCount length < s.numPages) := by
  rw [Placed] at h
  split_ifs at h with hf
  · obtain ⟨hin, rfl⟩ := h
    obtain ⟨hone, hfit, -⟩ := topAt_fits hs hw hv hin
    exact .inr ⟨hone, by omega⟩
  · rcases h with ⟨hh, rfl⟩ | ⟨hh, hfit⟩
    · obtain ⟨hone, hfit, -⟩ := topAt_fits hs hw hv hh.2.1
      exact .inr ⟨hone, by omega⟩
    · exact .inl ⟨not_not.mp hf, hh, hfit⟩

theorem sparesLast_iff : s.SparesLast addr length mmapFixed ↔
    ∀ t, s.Placed addr length mmapFixed t → t + pageCount length < s.numPages := by
  constructor
  · intro hspare t ht
    rcases ht.inner hs hw hv with ⟨hf, hh, hfit⟩ | h
    · refine lt_of_le_of_ne hfit.fits fun heq => hspare hf hh ?_
      rwa [show s.numPages - pageCount length = t by omega]
    · exact h.2
  · rintro h rfl hh hlast
    have hfit := hlast.fits
    have := h _ (placed_zero.mpr (.inr ⟨hh, hlast⟩))
    omega

theorem sparesFirst_iff : s.SparesFirst addr length mmapFixed ↔ ∀ t, s.Placed addr length mmapFixed t → 1 ≤ t := by
  constructor
  · intro hspare t ht
    rcases ht.inner hs hw hv with ⟨hf, hh, hfit⟩ | h
    · refine Nat.one_le_iff_ne_zero.mpr fun heq => hspare hf hh ?_
      rwa [← heq]
    · exact h.1
  · rintro h rfl hh hfirst
    exact absurd (h 0 (placed_zero.mpr (.inr ⟨hh, hfirst⟩))) (by omega)

end Placed

end Mman

/-! ## Regions -/

section Region

variable (hs : s.Laid) (hpos : length ≠ 0) (hfit : t + pageCount length ≤ s.numPages)

include hs hpos hfit

theorem mapAddr_add : s.mapAddr length t + 4096 * pageCount length + 4096 * t + 4096 =
      s.mmapBase.toNat + 4096 * s.numPages := by
  have hp := pageCount_pos hpos
  have haddr := hs.pageAddr_eq (i := t + pageCount length - 1) (by omega)
  rw [mapAddr]
  omega

theorem mmapBase_le_mapAddr : s.mmapBase.toNat ≤ s.mapAddr length t ↔ t + pageCount length < s.numPages := by
  have := mapAddr_add hs hpos hfit
  omega

end Region

/-- **A mapping lies in the managed range** exactly if the first fit spares the last index, in every
state of every history. -/
theorem mmap_inside_iff {base numPages : Word} (h : HeapOk base numPages) {s₀ : Mman} {files : CInt}
    {l : List MemOp} (hrun : Run MemOp.Step (s₀.enclaveMmanInit base numPages files) l s)
    (hw : ValidArgs addr length → s.NoWrap addr length) (prot zeroPages : CInt) :
    (∀ r, (enclaveMmap addr length mmapFixed prot zeroPages s).ret = some r → 0 ≤ r.toInt →
      s.mmapBase.toNat ≤ r.toNat ∧ r.toNat + 4096 * pageCount length ≤ base.toNat + 4096 * numPages.toNat) ↔
      (ValidArgs addr length → s.SparesLast addr length mmapFixed) := by
  obtain ⟨hs, hlayout⟩ := laid_of_run h hrun
  have hend : s.mmapBase.toNat + 4096 * s.numPages = base.toNat + 4096 * numPages.toNat := by
    rw [mmapBase_congr hlayout, numPages_congr hlayout, h.end_init]
  refine (forall_mmap_iff hs hw mmapFixed prot zeroPages (Q := fun r _ =>
    s.mmapBase.toNat ≤ r.toNat ∧
      r.toNat + 4096 * pageCount length ≤ base.toNat + 4096 * numPages.toNat)).trans ?_
  rw [forall_comm]
  refine forall_congr' fun hv => ?_
  rw [sparesLast_iff hs (hw hv) hv]
  refine forall_congr' fun t => forall_congr' fun ht => ?_
  have hfit := ht.fits hs (hw hv) hv
  have hadd := mapAddr_add hs hv.2 hfit
  rw [toNat_mapAddr hs hfit hv.2, mmapBase_le_mapAddr hs hv.2 hfit]
  exact and_iff_left (by omega)

theorem mmap_inside_sixteen : (enclaveMmap 0 0x3000 0 3 1 sixteen).ret = some 0x10c000 ∧
      sixteen.mmapBase.toNat ≤ (0x10c000 : Word).toNat ∧ (0x10c000 : Word).toNat + 4096 * pageCount 0x3000 ≤
          (0x100000 : Word).toNat + 4096 * (16 : Word).toNat := by
  have hret : (enclaveMmap 0 0x3000 0 3 1 sixteen).ret = some 0x10c000 := by decide +kernel
  have hspare : sixteen.SparesLast 0 0x3000 0 := fun _ _ hlast =>
    hlast.least 0 (by decide) fun _ _ hj =>
      (heapOk_sixteen.bits_init unset 0 (lt_trans hj (by decide))).1
  exact ⟨hret, (mmap_inside_iff heapOk_sixteen (.nil _) (fun _ => by decide) 3 1).mpr
    (fun _ => hspare) _ hret (by decide)⟩

/-- A mapping of all the managed pages starts below `mmap_base`, in the last page of the bitmaps. -/
theorem mmap_all_outside : ∃ r, (enclaveMmap 0 0xe000 0 3 1 sixteen).ret = some r ∧ 0 ≤ r.toInt ∧
      r.toNat < sixteen.mmapBase.toNat :=
  ⟨0x101000, by decide +kernel⟩

/-! ## Undoing a mapping -/

section Undo

variable (hs : s.Laid) (hv : ValidArgs addr length) (hlen : length.toNat + 4095 < 2 ^ 64)
  (hfit : t + pageCount length ≤ s.numPages) (prot zeroPages : CInt)

include hs hv hlen hfit

theorem inMmapRange_mapAddr : ValidArgs (BitVec.ofNat 64 (s.mapAddr length t)) length ∧
      s.NoWrap (BitVec.ofNat 64 (s.mapAddr length t)) length ∧
      (s.inMmapRange (BitVec.ofNat 64 (s.mapAddr length t)) length ↔ 1 ≤ t ∧ t + pageCount length < s.numPages) ∧
      s.topAt (BitVec.ofNat 64 (s.mapAddr length t)) length = t := by
  have hto := toNat_mapAddr hs hfit hv.2
  have hle := mapAddr_add_le hs hfit hv.2
  have hadd := mapAddr_add hs hv.2 hfit
  have hstop := hs.stop; have hal := hs.aligned; have hp := pageCount_pos hv.2
  have hup := length_le_pageCount length; have hdown := pageCount_lt_length length
  have hw : s.NoWrap (BitVec.ofNat 64 (s.mapAddr length t)) length := ⟨fun _ => by omega, hlen⟩
  refine ⟨⟨by omega, hv.2⟩, hw, ?_, ?_⟩
  · rw [hw.inMmapRange_iff, hto]
    omega
  · rw [topAt, hto]
    omega

theorem munmap_reserve : ((enclaveMunmap (BitVec.ofNat 64 (s.mapAddr length t)) length
        (s.reserve length prot zeroPages t)).ret = some 0 ↔
      1 ≤ t ∧ t + pageCount length < s.numPages) ∧
    (1 ≤ t ∧ t + pageCount length < s.numPages → (enclaveMunmap (BitVec.ofNat 64 (s.mapAddr length t)) length
        (s.reserve length prot zeroPages t)).st =
        (s.reserve length prot zeroPages t).release t (pageCount length)) := by
  obtain ⟨hv', hw, hin, htop⟩ := inMmapRange_mapAddr hs hv hlen hfit
  have hlay := layout_reserve s length prot zeroPages t
  rw [← inMmapRange_congr hlay] at hin
  rw [← topAt_congr hlay] at htop
  obtain ⟨r, s', hgives, hres⟩ :=
    enclaveMunmap_gives (hs.congr hlay) fun _ => (NoWrap_congr hlay _ _).mpr hw
  rw [hgives.ret, hgives.st]
  cases hres with
  | inval hno =>
    have hout : ¬ (1 ≤ t ∧ t + pageCount length < s.numPages) := fun h => hno ⟨hv', hin.mpr h⟩
    exact ⟨iff_of_false (by decide) hout, fun h => absurd h hout⟩
  | unmapped _ h =>
    rw [htop]
    exact ⟨iff_of_true rfl (hin.mp h), fun _ => rfl⟩

end Undo

/-- **`enclave_munmap` undoes `enclave_mmap`** exactly if the first fit spares the first and the last
index, in every state of every history. -/
theorem munmap_mmap_iff {base numPages : Word} (h : HeapOk base numPages) {s₀ : Mman} {files : CInt}
    {l : List MemOp} (hrun : Run MemOp.Step (s₀.enclaveMmanInit base numPages files) l s)
    (hw : ValidArgs addr length → s.NoWrap addr length) (prot zeroPages : CInt) :
    (∀ r, (enclaveMmap addr length mmapFixed prot zeroPages s).ret = some r → 0 ≤ r.toInt →
      (enclaveMunmap r length (enclaveMmap addr length mmapFixed prot zeroPages s).st).ret = some 0 ∧
        (mmapFixed = 0 → ∀ i < s.numPages, (enclaveMunmap r length
            (enclaveMmap addr length mmapFixed prot zeroPages s).st).st.allocated i = s.allocated i)) ↔
      (ValidArgs addr length → s.SparesFirst addr length mmapFixed ∧ s.SparesLast addr length mmapFixed) := by
  obtain ⟨hs, -⟩ := laid_of_run h hrun
  refine (forall_mmap_iff hs hw mmapFixed prot zeroPages (Q := fun r s' =>
    (enclaveMunmap r length s').ret = some 0 ∧ (mmapFixed = 0 → ∀ i < s.numPages,
      (enclaveMunmap r length s').st.allocated i = s.allocated i))).trans ?_
  rw [forall_comm]
  refine forall_congr' fun hv => ?_
  rw [sparesFirst_iff hs (hw hv) hv, sparesLast_iff hs (hw hv) hv, ← forall_and]
  refine forall_congr' fun t => ?_
  rw [← imp_and]
  refine forall_congr' fun ht => ?_
  have hfit := ht.fits hs (hw hv) hv
  obtain ⟨hret, hst⟩ := munmap_reserve hs hv (hw hv).2 hfit prot zeroPages
  rw [hret]
  refine and_iff_left_of_imp fun hin hf i hi => ?_
  subst hf
  rw [hst hin, allocated_release, allocated_reserve hs hfit (hw hv).2 _ _ hi]
  split_ifs with hi'
  · exact (ht.freeRun i hi'.1 hi'.2).symm
  · rfl

theorem munmap_mmap_hint_sixteen : (enclaveMmap 0x108000 0x3000 0 3 1 sixteen).ret = some 0x108000 ∧
      (enclaveMunmap 0x108000 0x3000 (enclaveMmap 0x108000 0x3000 0 3 1 sixteen).st).ret = some 0 ∧
      ∀ i < sixteen.numPages, (enclaveMunmap 0x108000 0x3000
          (enclaveMmap 0x108000 0x3000 0 3 1 sixteen).st).st.allocated i = sixteen.allocated i := by
  have hret : (enclaveMmap 0x108000 0x3000 0 3 1 sixteen).ret = some 0x108000 := by decide +kernel
  have hh : sixteen.Hinted 0x108000 0x3000 := ⟨by decide, by decide, fun _ _ hj =>
    (heapOk_sixteen.bits_init unset 0 (lt_trans hj (by decide))).1⟩
  obtain ⟨hzero, hbits⟩ := (munmap_mmap_iff heapOk_sixteen (.nil _) (fun _ => by decide) 3 1).mpr
    (fun _ => ⟨fun _ hno => absurd hh hno, fun _ hno => absurd hh hno⟩) _ hret (by decide)
  exact ⟨hret, hzero, hbits rfl⟩

/-- The first mapping of a heap cannot be unmapped: it ends behind `mmap_end`. -/
theorem munmap_first_mapping : (enclaveMmap 0 0x1000 0 3 1 sixteen).ret = some 0x10e000 ∧
      (enclaveMunmap 0x10e000 0x1000 (enclaveMmap 0 0x1000 0 3 1 sixteen).st).ret = some (-eInval) := by
  decide +kernel

end SgxLkl
