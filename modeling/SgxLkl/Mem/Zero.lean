import SgxLkl.Mem.Ops

/-!
# Anonymous mappings are zero

`enclave_mmap` leaves out the `memset` if all the pages of a mapping are marked fresh. `Zeroed s`
says that fresh pages are zero and that no allocated page is fresh.

* `zeroed_exec`: a sound operation keeps `Zeroed`, **`zero_pages_of_run`**: after every history of
  sound operations a mapping that asks for zero pages gets them.
-/

namespace SgxLkl

open Mman

variable {s s' : Mman}

namespace Mman

/-- The byte at `a` belongs to the page of index `i`. -/
def OnPage (s : Mman) (i : ℕ) (a : Word) : Prop :=
  s.pageAddr i ≤ a.toNat ∧ a.toNat < s.pageAddr i + 4096

instance (s : Mman) (i : ℕ) (a : Word) : Decidable (s.OnPage i a) :=
  inferInstanceAs (Decidable (_ ∧ _))

/-- Fresh pages are zero, and none of them is allocated. -/
structure Zeroed (s : Mman) : Prop where
  laid : s.Laid
  zero : ∀ i < s.numPages, s.fresh i = true → ∀ a, s.OnPage i a → s.mem a = 0
  used : ∀ i < s.numPages, s.allocated i = true → s.fresh i = false

end Mman

namespace MemOp

def WritesAllocated (s : Mman) : MemOp → Prop
  | write addr _ => ∀ i < s.numPages, s.OnPage i addr → s.allocated i = true
  | _ => True

instance (s : Mman) : (o : MemOp) → Decidable (o.WritesAllocated s)
  | mmap .. | munmap .. | mremap .. => isTrue trivial
  | write addr _ =>
    inferInstanceAs (Decidable (∀ i < s.numPages, s.OnPage i addr → s.allocated i = true))

/-- The arguments of a call do not wrap around. -/
def NoWrap (s : Mman) : MemOp → Prop
  | mmap addr length _ _ _ | munmap addr length => ValidArgs addr length → s.NoWrap addr length
  | mremap oldAddr oldLength newAddr newLength _ =>
    (ValidArgs newAddr newLength → s.NoWrap newAddr newLength) ∧
      (ValidArgs oldAddr oldLength → s.NoWrap oldAddr oldLength)
  | write .. => True

instance (s : Mman) : (o : MemOp) → Decidable (o.NoWrap s)
  | mmap addr length _ _ _ | munmap addr length =>
    inferInstanceAs (Decidable (ValidArgs addr length → s.NoWrap addr length))
  | mremap oldAddr oldLength newAddr newLength _ =>
    inferInstanceAs (Decidable ((ValidArgs newAddr newLength → s.NoWrap newAddr newLength) ∧
      (ValidArgs oldAddr oldLength → s.NoWrap oldAddr oldLength)))
  | write .. => isTrue trivial

/-- The operations that keep the fresh pages zero. -/
def Sound (s : Mman) (o : MemOp) : Prop := o.WritesAllocated s ∧ o.NoWrap s

instance (s : Mman) (o : MemOp) : Decidable (o.Sound s) := inferInstanceAs (Decidable (_ ∧ _))

end MemOp

namespace Mman

theorem onPage_congr (h : s'.layout = s.layout) (i : ℕ) (a : Word) : s'.OnPage i a ↔ s.OnPage i a := by
  rw [OnPage, OnPage, pageAddr_congr h]

section Steps

variable {length : Word} {t p : ℕ}

theorem onPage_iff (hs : s.Laid) (hpos : length ≠ 0) (hfit : t + pageCount length ≤ s.numPages)
    {i : ℕ} (hi : i < s.numPages) {a : Word} (ha : s.OnPage i a) :
    (s.mapAddr length t ≤ a.toNat ∧ a.toNat < s.mapAddr length t + 4096 * pageCount length) ↔
      t ≤ i ∧ i < t + pageCount length := by
  have hp := pageCount_pos hpos
  have hmap := hs.pageAddr_eq (i := t + pageCount length - 1) (by omega)
  have hpage := hs.pageAddr_eq hi
  rw [OnPage] at ha
  rw [mapAddr]
  omega

theorem exists_onPage (hs : s.Laid) (hpos : length ≠ 0) (hfit : t + pageCount length ≤ s.numPages)
    {a : Word} (h1 : s.mapAddr length t ≤ a.toNat) (h2 : a.toNat < s.mapAddr length t + 4096 * pageCount length) :
    ∃ i, t ≤ i ∧ i < t + pageCount length ∧ s.OnPage i a := by
  have hp := pageCount_pos hpos
  have hstop := hs.stop; have hlow := hs.low
  simp only [mapAddr, OnPage, pageAddr] at h1 h2 ⊢
  obtain ⟨i, hi⟩ : ∃ i, i = (s.mmapEnd.toNat + 4095 - a.toNat) / 4096 := ⟨_, rfl⟩
  have hle : 4096 * (t + pageCount length - 1) ≤ s.mmapEnd.toNat := by omega
  exact ⟨i, by omega, by omega, by omega, by omega⟩

theorem Zeroed.of_mem (hz : s.Zeroed) (hlay : s'.layout = s.layout) (hwords : s'.words = s.words)
    (h : ∀ a, s'.mem a ≠ s.mem a → ∀ i < s.numPages, s.OnPage i a → s.fresh i = false) : s'.Zeroed := by
  refine ⟨hz.laid.congr hlay, fun i hi hfresh a ha => ?_, fun i hi hall => ?_⟩
  · rw [numPages_congr hlay] at hi
    rw [fresh_congr hlay hwords] at hfresh
    rw [onPage_congr hlay] at ha
    by_cases hm : s'.mem a = s.mem a
    · exact hm.trans (hz.zero i hi hfresh a ha)
    · exact absurd hfresh (by rw [h a hm i hi ha]; exact Bool.false_ne_true)
  · rw [numPages_congr hlay] at hi
    rw [fresh_congr hlay hwords]
    rw [allocated_congr hwords] at hall
    exact hz.used i hi hall

theorem Zeroed.release (hz : s.Zeroed) (hfit : t + p ≤ s.numPages) : (s.release t p).Zeroed := by
  refine ⟨hz.laid.congr (layout_release ..), fun i hi hfresh a ha => ?_, fun i hi hall => ?_⟩
  · rw [fresh_release hz.laid hfit] at hfresh
    exact hz.zero i hi hfresh a ha
  · rw [fresh_release hz.laid hfit]
    rw [allocated_release] at hall
    split_ifs at hall
    exact hz.used i hi hall

theorem Zeroed.reserve (hz : s.Zeroed) (hpos : length ≠ 0) (hlen : length.toNat + 4095 < 2 ^ 64)
    (hfit : t + pageCount length ≤ s.numPages) (prot zeroPages : CInt) :
    (s.reserve length prot zeroPages t).Zeroed := by
  have hs := hz.laid
  have hlay := layout_reserve s length prot zeroPages t
  refine ⟨hs.congr hlay, fun i hi hfresh a ha => ?_, fun i hi hall => ?_⟩
  · rw [numPages_congr hlay] at hi
    rw [onPage_congr hlay] at ha
    rw [fresh_reserve hs hfit hlen] at hfresh
    split_ifs at hfresh with hin
    rw [mem_reserve hs hfit hlen _ _ hpos, if_neg (fun h => hin ((onPage_iff hs hpos hfit hi ha).mp h.2))]
    exact hz.zero i hi hfresh a ha
  · rw [numPages_congr hlay] at hi
    rw [allocated_reserve hs hfit hlen _ _ hi] at hall
    rw [fresh_reserve hs hfit hlen]
    split_ifs at hall ⊢
    · rfl
    · exact hz.used i hi hall

theorem Zeroed.moved (hz : s.Zeroed) (hpos : length ≠ 0) (hlen : length.toNat + 4095 < 2 ^ 64)
    (hfit : t + pageCount length ≤ s.numPages) (oldAddr oldLength : Word) :
    (s.moved oldAddr oldLength length t).Zeroed := by
  have hs := hz.laid
  have hlay := layout_reserve s length (-1) 0 t
  refine (hz.reserve hpos hlen hfit (-1) 0).of_mem rfl rfl fun a hne i hi ha => ?_
  rw [numPages_congr hlay] at hi
  rw [onPage_congr hlay] at ha
  -- the copy stays inside the new mapping
  have hto := toNat_mapAddr hs hfit hpos
  have hle := mapAddr_add_le hs hfit hpos
  have hup := length_le_pageCount length
  have hcount : (if oldLength > length then length else oldLength).toNat ≤ length.toNat := by
    split_ifs with h
    · exact le_rfl
    · exact BitVec.le_def.mp (BitVec.not_lt.mp h)
  have hin : a - BitVec.ofNat 64 (s.mapAddr length t) < (if oldLength > length then length else oldLength) := by
    by_contra hout
    exact hne (if_neg hout)
  rw [sub_lt_iff (by rw [hto]; omega), hto] at hin
  rw [fresh_reserve hs hfit hlen, if_pos ((onPage_iff hs hpos hfit hi ha).mp ⟨hin.1, by omega⟩)]

theorem MunmapResult.zeroed {addr r : Word} (h : s.MunmapResult addr length r s') (hz : s.Zeroed)
    (hw : ValidArgs addr length → s.NoWrap addr length) : s'.Zeroed := by
  cases h with
  | inval _ => exact hz
  | unmapped hv hin =>
    have hfits := (topAt_fits hz.laid (hw hv) hv hin).2.1
    exact hz.release (by omega)

end Steps

end Mman

/-- **A sound operation keeps the fresh pages zero.** -/
theorem zeroed_exec (o : MemOp) (hz : s.Zeroed) (hsound : o.Sound s) (hstep : o.Step s s') : s'.Zeroed := by
  have hs := hz.laid
  have ho := hsound.2
  rw [← hstep.2]
  cases o with
  | mmap addr length mmapFixed prot zeroPages =>
    obtain ⟨r, s', hgives, hres⟩ := enclaveMmap_gives hs ho mmapFixed prot zeroPages
    rw [MemOp.exec, hgives.st]
    cases hres with
    | inval _ => exact hz
    | nomem _ _ => exact hz
    | mapped t hv ht => exact hz.reserve hv.2 (ho hv).2 (ht.fits hs (ho hv) hv) prot zeroPages
  | munmap addr length =>
    obtain ⟨r, s', hgives, hres⟩ := enclaveMunmap_gives hs ho
    rw [MemOp.exec, hgives.st]
    exact hres.zeroed hz ho
  | mremap oldAddr oldLength newAddr newLength mremapFixed =>
    obtain ⟨r, s', hgives, hres⟩ := enclaveMremap_gives hs ho.1 ho.2 mremapFixed
    rw [MemOp.exec, hgives.st]
    cases hres with
    | fixed _ => exact hz
    | inval _ _ => exact hz
    | nomem _ _ _ => exact hz
    | moved t r' s' _ hv ht hres' =>
      have hw := ho.1 hv
      refine hres'.zeroed (hz.moved hv.2 hw.2 (ht.fits hs hw hv) oldAddr oldLength) fun hv' => ?_
      exact (NoWrap_congr (layout_moved ..) _ _).mpr (ho.2 hv')
  | write addr b =>
    refine hz.of_mem rfl rfl fun a hne i hi ha => hz.used i hi (hsound.1 i hi ?_)
    have hin : a - addr < 1 := by
      by_contra hout
      exact hne (if_neg hout)
    have ha' : a = addr := by
      rw [BitVec.lt_def, BitVec.toNat_sub, show (1 : Word).toNat = 1 from rfl] at hin
      have := a.isLt; have := addr.isLt
      exact BitVec.eq_of_toNat_eq (by omega)
    rwa [← ha']

/-- **Zero pages.** After every history of sound operations on a heap that is zero at first, a mapping
that asks for zero pages consists of zeros. -/
theorem zero_pages_of_run {base numPages : Word} (h : HeapOk base numPages) (s₀ : Mman) (files : CInt)
    (hzero : ∀ i < (s₀.enclaveMmanInit base numPages files).numPages, ∀ a,
      (s₀.enclaveMmanInit base numPages files).OnPage i a → s₀.mem a = 0)
    {l : List MemOp} (hrun : Run (Guarded MemOp.Step MemOp.Sound) (s₀.enclaveMmanInit base numPages files) l s)
    {addr length : Word} (hw : ValidArgs addr length → s.NoWrap addr length)
    (mmapFixed prot : CInt) {zeroPages : CInt} (hz : zeroPages ≠ 0) :
    ∀ r, (enclaveMmap addr length mmapFixed prot zeroPages s).ret = some r → 0 ≤ r.toInt →
      ∀ a : Word, r.toNat ≤ a.toNat → a.toNat < r.toNat + 4096 * pageCount length →
        (enclaveMmap addr length mmapFixed prot zeroPages s).st.mem a = 0 := by
  have hinit : (s₀.enclaveMmanInit base numPages files).Zeroed :=
    ⟨h.laid_init s₀ files, fun i hi _ => hzero i hi,
      fun i hi hall => absurd hall (by rw [(h.bits_init s₀ files hi).1]; exact Bool.false_ne_true)⟩
  have hs : s.Zeroed := hrun.inv (I := Zeroed)
    (fun t o t' ht hstep => zeroed_exec o ht hstep.1 hstep.2) hinit
  refine (forall_mmap_iff hs.laid hw mmapFixed prot zeroPages (Q := fun r s' =>
    ∀ a : Word, r.toNat ≤ a.toNat → a.toNat < r.toNat + 4096 * pageCount length →
      s'.mem a = 0)).mpr fun t hv ht a h1 h2 => ?_
  have hfit := ht.fits hs.laid (hw hv) hv
  rw [toNat_mapAddr hs.laid hfit hv.2] at h1 h2
  rw [mem_reserve hs.laid hfit (hw hv).2 _ _ hv.2]
  by_cases hfresh : s.allFresh t (pageCount length) = true
  · -- no `memset`: each byte is on a fresh page
    rw [if_neg (fun hc => by rw [hfresh] at hc; exact Bool.noConfusion hc.1.2)]
    obtain ⟨i, hi1, hi2, ha⟩ := exists_onPage hs.laid hv.2 hfit h1 h2
    exact hs.zero i (by omega) (allFresh_iff.mp hfresh i hi1 hi2) a ha
  · rw [if_pos ⟨⟨hz, Bool.not_eq_true _ ▸ hfresh⟩, h1, h2⟩]

abbrev usedHistory : List MemOp :=
  [.mmap 0x108000 0x1000 0 3 0, .write 0x108000 0xff, .munmap 0x108000 0x1000]

theorem zero_pages_used : (enclaveMmap 0x108000 0x1000 0 3 1 (execAll usedHistory sixteen)).ret = some 0x108000 ∧
      ∀ a : Word, (0x108000 : Word).toNat ≤ a.toNat → a.toNat < (0x108000 : Word).toNat + 4096 * pageCount 0x1000 →
          (enclaveMmap 0x108000 0x1000 0 3 1 (execAll usedHistory sixteen)).st.mem a = 0 := by
  have hsound : Returns MemOp.Sound usedHistory sixteen := by decide +kernel
  have hret : (enclaveMmap 0x108000 0x1000 0 3 1 (execAll usedHistory sixteen)).ret =
      some 0x108000 := by decide +kernel
  exact ⟨hret, zero_pages_of_run heapOk_sixteen unset 0 (fun _ _ _ _ => rfl) hsound.run
    (fun _ => by decide +kernel) 0 3 (by decide) _ hret (by decide)⟩

/-- A heap of eight pages, six of them managed, whose page numbers are just above the number of bits
of a bitmap. -/
abbrev Mman.eight : Mman := unset.enclaveMmanInit 0x7ffe000 8 0

/-- A page is used and unmapped, and a fixed mapping that wraps around marks it fresh again. -/
abbrev staleHistory : List MemOp :=
  [.mmap 0x8000000 0x1000 0 3 1, .write 0x8000000 0xff, .munmap 0x8000000 0x1000,
    .mmap 0xfffffffffffff000 0x2000 1 3 1]

/-- The next mapping of that page asks for zeros and gets the old contents. -/
theorem zero_pages_stale : HeapOk 0x7ffe000 8 ∧ Returns MemOp.WritesAllocated staleHistory eight ∧
      (enclaveMmap 0x8000000 0x1000 0 3 1 (execAll staleHistory eight)).ret = some 0x8000000 ∧
      (enclaveMmap 0x8000000 0x1000 0 3 1 (execAll staleHistory eight)).st.mem 0x8000000 = 0xff :=
  ⟨⟨by decide, by decide, by decide, by decide⟩, by decide +kernel, by decide +kernel,
    by decide +kernel⟩

end SgxLkl
