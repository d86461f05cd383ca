import SgxLkl.Mem.Regions
import SgxLkl.Mem.Zero

/-!
# Moving a mapping

`enclave_mremap` maps a new region, copies and unmaps the old one, without looking whether that
succeeds, and without zeroing what the new region has more.

* `Remapped`: what a successful call should do, `Live`: the old mapping.
* **`mremap_iff`**: it does so exactly if the old region is in range and the bytes behind the old
  length are zero already.
-/

namespace SgxLkl

open Mman

variable {s s' : Mman} {old oldLength newAddr newLength : Word} {t₀ : ℕ}

namespace Mman

/-- A mapping of `length` bytes at `addr`: the allocated pages from index `t` on. -/
structure Live (s : Mman) (addr length : Word) (t : ℕ) : Prop where
  pos : length ≠ 0
  fits : t + pageCount length ≤ s.numPages
  addr : addr = BitVec.ofNat 64 (s.mapAddr length t)
  allocated : ∀ i, t ≤ i → i < t + pageCount length → s.allocated i = true

/-- From `s` to `s'` the mapping of index `t₀` was moved to `r`. -/
structure Remapped (s s' : Mman) (old oldLength newLength r : Word) (t₀ : ℕ) : Prop where
  copied : ∀ j < min oldLength.toNat newLength.toNat,
    s'.mem (r + BitVec.ofNat 64 j) = s.mem (old + BitVec.ofNat 64 j)
  zero : ∀ j, oldLength.toNat ≤ j → j < newLength.toNat → s'.mem (r + BitVec.ofNat 64 j) = 0
  pages : ∃ t, t + pageCount newLength ≤ s.numPages ∧ r.toNat = s.mapAddr newLength t ∧
    FreeRun s.free t (pageCount newLength) ∧ ∀ i < s.numPages,
      (s'.allocated i = if t ≤ i ∧ i < t + pageCount newLength then true
        else if t₀ ≤ i ∧ i < t₀ + pageCount oldLength then false else s.allocated i) ∧
      (¬ (t ≤ i ∧ i < t + pageCount newLength) → ¬ (t₀ ≤ i ∧ i < t₀ + pageCount oldLength) →
        ∀ a, s.OnPage i a → s'.mem a = s.mem a)

theorem MunmapResult.mem {addr length r : Word} (h : s.MunmapResult addr length r s') : s'.mem = s.mem := by
  cases h with
  | inval _ => rfl
  | unmapped _ _ => rfl

section Moved

variable {t : ℕ} (hs : s.Laid) (hpos : newLength ≠ 0) (hfit : t + pageCount newLength ≤ s.numPages)
  (old oldLength)

include hs hpos hfit

theorem mem_moved (a : Word) : (s.moved old oldLength newLength t).mem a = if s.mapAddr newLength t ≤ a.toNat ∧
          a.toNat < s.mapAddr newLength t + min oldLength.toNat newLength.toNat then
        s.mem (old + (a - BitVec.ofNat 64 (s.mapAddr newLength t)))
      else s.mem a := by
  have hto := toNat_mapAddr hs hfit hpos
  have hle := mapAddr_add_le hs hfit hpos
  have hup := length_le_pageCount newLength
  have hcount : (if oldLength > newLength then newLength else oldLength).toNat =
      min oldLength.toNat newLength.toNat := by
    split_ifs with h
    · exact (min_eq_right (le_of_lt (BitVec.lt_def.mp h))).symm
    · exact (min_eq_left (BitVec.le_def.mp (BitVec.not_lt.mp h))).symm
  have hiff := @sub_lt_iff a (BitVec.ofNat 64 (s.mapAddr newLength t))
    (if oldLength > newLength then newLength else oldLength) (by rw [hto, hcount]; omega)
  rw [hto, hcount] at hiff
  have hmem := mem_reserve_zero s newLength (-1) t
  rw [moved, memcpy]
  simp only [hmem]
  exact if_congr hiff rfl rfl

theorem mem_moved_add {j : ℕ} (hj : j < newLength.toNat) :
    (s.moved old oldLength newLength t).mem (BitVec.ofNat 64 (s.mapAddr newLength t) + BitVec.ofNat 64 j) =
      if j < oldLength.toNat then s.mem (old + BitVec.ofNat 64 j)
      else s.mem (BitVec.ofNat 64 (s.mapAddr newLength t) + BitVec.ofNat 64 j) := by
  have hle := mapAddr_add_le hs hfit hpos
  have hup := length_le_pageCount newLength
  have hto : (BitVec.ofNat 64 (s.mapAddr newLength t) + BitVec.ofNat 64 j).toNat = s.mapAddr newLength t + j := by
    rw [BitVec.toNat_add, toNat_mapAddr hs hfit hpos, BitVec.toNat_ofNat]
    omega
  rw [mem_moved old oldLength hs hpos hfit, hto]
  refine if_congr (by omega) ?_ rfl
  rw [BitVec.add_comm (BitVec.ofNat 64 (s.mapAddr newLength t)), BitVec.add_sub_cancel]

end Moved

theorem Live.inMmapRange (hlive : s.Live old oldLength t₀) (hs : s.Laid) :
    ValidArgs old oldLength ∧ s.NoWrap old oldLength ∧
      (s.inMmapRange old oldLength ↔ 1 ≤ t₀ ∧ t₀ + pageCount oldLength < s.numPages) ∧
      s.topAt old oldLength = t₀ := by
  have hup := length_le_pageCount oldLength; have hfits := hlive.fits; have hhigh := hs.high
  have hv : ValidArgs 0 oldLength := ⟨rfl, hlive.pos⟩
  rw [hlive.addr]
  exact inMmapRange_mapAddr hs hv (by omega) hfits

section Move

variable {t : ℕ} {r : Word} (hs : s.Laid) (hlive : s.Live old oldLength t₀)
  (hw : s.NoWrap newAddr newLength) (hv : ValidArgs newAddr newLength)
  (ht : s.Placed newAddr newLength 0 t)
  (hun : (s.moved old oldLength newLength t).MunmapResult old oldLength r s')

include hs hlive hw hv ht hun

/-- What is allocated after a move: the old pages are only freed if the old region is in range. -/
theorem allocated_of_moved {i : ℕ} (hi : i < s.numPages) : s'.allocated i =
      if t ≤ i ∧ i < t + pageCount newLength then true
      else if (1 ≤ t₀ ∧ t₀ + pageCount oldLength < s.numPages) ∧
          t₀ ≤ i ∧ i < t₀ + pageCount oldLength then false
      else s.allocated i := by
  obtain ⟨hvo, -, hin, htop⟩ := hlive.inMmapRange hs
  have hfit := ht.fits hs hw hv
  have hlay := layout_moved s old oldLength newLength t
  have hall := hun.allocated i
  rw [topAt_congr hlay, inMmapRange_congr hlay, htop, hin, show (s.moved old oldLength newLength t).allocated i =
      (s.reserve newLength (-1) 0 t).allocated i from rfl,
    allocated_reserve hs hfit hw.2 _ _ hi] at hall
  -- old and new pages are different ones
  have hdisj : t₀ ≤ i ∧ i < t₀ + pageCount oldLength → ¬ (t ≤ i ∧ i < t + pageCount newLength) := by
    intro ho hn
    have h1 := hlive.allocated i ho.1 ho.2
    have h2 : s.allocated i = false := ht.freeRun i hn.1 hn.2
    rw [h1] at h2
    exact Bool.noConfusion h2
  rcases hall with ⟨-, hin', hall⟩ | ⟨hout, hall⟩
  · rw [hall]
    by_cases ho : t₀ ≤ i ∧ i < t₀ + pageCount oldLength
    · rw [if_pos ho, if_neg (hdisj ho), if_pos ⟨hin', ho⟩]
    · rw [if_neg ho]
      exact if_congr Iff.rfl rfl (if_neg fun h => ho h.2).symm
  · rw [hall]
    exact if_congr Iff.rfl rfl (if_neg fun h => hout ⟨hvo, h.1⟩).symm

theorem remapped_iff : s.Remapped s' old oldLength newLength (BitVec.ofNat 64 (s.mapAddr newLength t)) t₀ ↔
      (1 ≤ t₀ ∧ t₀ + pageCount oldLength < s.numPages) ∧ ∀ j, oldLength.toNat ≤ j → j < newLength.toNat →
          s.mem (BitVec.ofNat 64 (s.mapAddr newLength t) + BitVec.ofNat 64 j) = 0 := by
  have hfit := ht.fits hs hw hv
  have hall := fun i => allocated_of_moved hs hlive hw hv ht hun (i := i)
  have hmem := hun.mem
  constructor
  · intro h
    refine ⟨?_, fun j h1 h2 => ?_⟩
    · -- the first old page is free only if the old region was unmapped
      obtain ⟨t', hfit', -, hfree, hpages⟩ := h.pages
      have hp₀ := pageCount_pos hlive.pos; have hfits₀ := hlive.fits
      have hold : s.allocated t₀ = true := hlive.allocated t₀ le_rfl (by omega)
      have hnew : ∀ u, FreeRun s.free u (pageCount newLength) → ¬ (u ≤ t₀ ∧ t₀ < u + pageCount newLength) := by
        intro u hu hin
        have : s.allocated t₀ = false := hu t₀ hin.1 hin.2
        rw [hold] at this
        exact Bool.noConfusion this
      by_contra hout
      have hfreed := (hpages t₀ (by omega)).1
      rw [hall t₀ (by omega), if_neg (hnew t ht.freeRun), if_neg (fun hc => hout hc.1), hold,
        if_neg (hnew t' hfree), if_pos ⟨le_rfl, by omega⟩] at hfreed
      exact Bool.noConfusion hfreed
    · have := h.zero j h1 h2
      rwa [hmem, mem_moved_add old oldLength hs hv.2 hfit h2, if_neg (by omega)] at this
  · rintro ⟨hin, hzero⟩
    refine ⟨fun j hj => ?_, fun j h1 h2 => ?_, t, hfit, toNat_mapAddr hs hfit hv.2, ht.freeRun,
      fun i hi => ⟨?_, fun hn _ a ha => ?_⟩⟩
    · rw [hmem, mem_moved_add old oldLength hs hv.2 hfit (by omega), if_pos (by omega)]
    · rw [hmem, mem_moved_add old oldLength hs hv.2 hfit h2, if_neg (by omega)]
      exact hzero j h1 h2
    · rw [hall i hi]
      simp only [hin, and_self, true_and]
    · have hup := length_le_pageCount newLength
      rw [hmem, mem_moved old oldLength hs hv.2 hfit]
      exact if_neg fun hc => hn ((onPage_iff hs hv.2 hfit hi ha).mp ⟨hc.1, by omega⟩)

end Move

end Mman

/-! ## The page of the fresh bitmap -/

/-- The last index stands for the page in front of `mmap_base`, which is the last one of the fresh bitmap, and nobody
has it. Only then are the bytes of the pages and the words of the bitmaps different memory, as they are in `Mman`. -/
def Mman.SparesFresh (s : Mman) : Prop := s.allocated (s.numPages - 1) = false

instance (s : Mman) : Decidable s.SparesFresh := inferInstanceAs (Decidable (_ = _))

/-- The operation leaves the bitmaps to the memory manager: it does not give away the last index, and the application
writes to pages that it has. -/
def MemOp.Apart (s : Mman) (o : MemOp) : Prop :=
  (o.exec s).st.SparesFresh ∧ match o with
    | .write addr _ => ∃ i < s.numPages, s.OnPage i addr ∧ s.allocated i = true
    | _ => True

instance (s : Mman) : (o : MemOp) → Decidable (o.Apart s)
  | .mmap .. | .munmap .. | .mremap .. => inferInstanceAs (Decidable (_ ∧ True))
  | .write addr _ => inferInstanceAs (Decidable (_ ∧ ∃ i < s.numPages, s.OnPage i addr ∧ s.allocated i = true))

/-- **`enclave_mremap` moves a live mapping** exactly if the old region is in range and, where the new
one goes, the bytes behind the old length are zero already; its errors change nothing. In every state
of every history that leaves the bitmaps alone, as does the call. -/
theorem mremap_iff {base numPages : Word} (h : HeapOk base numPages) {s₀ : Mman} {files : CInt}
    {l : List MemOp} (hrun : Run (Guarded MemOp.Step MemOp.Apart) (s₀.enclaveMmanInit base numPages files) l s)
    (hlive : s.Live old oldLength t₀) (hlen : newLength.toNat ≤ 4096 * s.numPages)
    (hw : ValidArgs newAddr newLength → s.inMmapRange newAddr newLength →
      newAddr.toNat + newLength.toNat < 2 ^ 64) (mremapFixed : CInt)
    (_hcall : MemOp.Apart s (.mremap old oldLength newAddr newLength mremapFixed)) :
    (∀ r, (enclaveMremap old oldLength newAddr newLength mremapFixed s).ret = some r →
      (0 ≤ r.toInt → s.Remapped (enclaveMremap old oldLength newAddr newLength mremapFixed s).st
        old oldLength newLength r t₀) ∧
      (r.toInt < 0 → (enclaveMremap old oldLength newAddr newLength mremapFixed s).st.mem = s.mem ∧
        ∀ i < s.numPages, (enclaveMremap old oldLength newAddr newLength mremapFixed s).st.allocated i =
            s.allocated i)) ↔
      (mremapFixed = 0 → ValidArgs newAddr newLength → ∀ t, s.Placed newAddr newLength 0 t →
        (1 ≤ t₀ ∧ t₀ + pageCount oldLength < s.numPages) ∧ ∀ j, oldLength.toNat ≤ j → j < newLength.toNat →
            s.mem (BitVec.ofNat 64 (s.mapAddr newLength t) + BitVec.ofNat 64 j) = 0) := by
  obtain ⟨hs, -⟩ := laid_of_run h (hrun.mono fun _ _ _ hstep => hstep.2)
  have hhigh := hs.high
  have hnew : ValidArgs newAddr newLength → s.NoWrap newAddr newLength :=
    fun hv => ⟨hw hv, by omega⟩
  obtain ⟨r, s', hgives, hres⟩ :=
    enclaveMremap_gives hs hnew (fun _ => (hlive.inMmapRange hs).2.1) mremapFixed
  rw [hgives.ret, hgives.st]
  have herror : ∀ e : Word, ¬ 0 ≤ e.toInt → ∀ r, some e = some r →
      (0 ≤ r.toInt → s.Remapped s old oldLength newLength r t₀) ∧
      (r.toInt < 0 → s.mem = s.mem ∧ ∀ i < s.numPages, s.allocated i = s.allocated i) := by
    rintro e he r ⟨⟩
    exact ⟨fun hr => absurd hr he, fun _ => ⟨rfl, fun _ _ => rfl⟩⟩
  cases hres with
  | fixed hf => exact iff_of_true (herror _ (by decide)) fun hf' => absurd hf' hf
  | inval _ hv => exact iff_of_true (herror _ (by decide)) fun _ hv' => absurd hv' hv
  | nomem _ _ hno => exact iff_of_true (herror _ (by decide)) fun _ _ t ht => absurd ht (hno t)
  | moved t r' s' hf hv ht hun =>
    have hnonneg := nonneg_mapAddr hs (ht.fits hs (hnew hv) hv) hv.2
    have hiff := remapped_iff hs hlive (hnew hv) hv ht hun
    constructor
    · intro hall _ _ t' ht'
      obtain rfl := ht.unique ht'
      exact hiff.mp ((hall _ rfl).1 hnonneg)
    · rintro hcond r ⟨⟩
      exact ⟨fun _ => hiff.mpr (hcond hf hv t ht), fun hneg => absurd hnonneg (not_le.mpr hneg)⟩

abbrev onePage : List MemOp := [.mmap 0x106000 0x1000 0 3 1]

theorem live_onePage : (execAll onePage sixteen).Live 0x106000 0x1000 8 := by
  refine ⟨by decide, by decide +kernel, by decide +kernel, fun i h1 h2 => ?_⟩
  have hp : pageCount 0x1000 = 1 := rfl
  obtain rfl : i = 8 := by omega
  decide +kernel

theorem mremap_onePage : (enclaveMremap 0x106000 0x1000 0x10a000 0x1002 0 (execAll onePage sixteen)).ret =
        some 0x10a000 ∧
      (execAll onePage sixteen).Remapped
        (enclaveMremap 0x106000 0x1000 0x10a000 0x1002 0 (execAll onePage sixteen)).st
        0x106000 0x1000 0x1002 0x10a000 8 := by
  have hapart : Returns MemOp.Apart onePage sixteen := by decide +kernel
  have hret : (enclaveMremap 0x106000 0x1000 0x10a000 0x1002 0 (execAll onePage sixteen)).ret =
      some 0x10a000 := by decide +kernel
  refine ⟨hret, ((mremap_iff heapOk_sixteen hapart.run
    live_onePage (by decide +kernel) (fun _ => by decide +kernel) 0 (by decide +kernel)).mpr
    (fun _ _ t ht => ⟨by decide +kernel, ?_⟩) _ hret).1 (by decide)⟩
  have hp : pageCount 0x1002 = 2 := rfl
  have htop : (execAll onePage sixteen).topAt 0x10a000 0x1002 = 3 := by decide +kernel
  have hin : (execAll onePage sixteen).inMmapRange 0x10a000 0x1002 := by decide +kernel
  have hfree : FreeRun (execAll onePage sixteen).free 3 2 := by
    intro j h1 h2
    rw [free]
    obtain rfl | rfl : j = 3 ∨ j = 4 := by omega
    · decide +kernel
    · decide +kernel
  have hhint : (execAll onePage sixteen).Hinted 0x10a000 0x1002 := by
    rw [Hinted, htop, hp]
    exact ⟨by decide, hin, hfree⟩
  have ht3 : t = 3 := ht.unique (placed_zero.mpr (.inl ⟨hhint, htop.symm⟩))
  subst ht3
  intro j h1 h2
  have h1' : 4096 ≤ j := h1
  have h2' : j < 4098 := h2
  obtain rfl | rfl : j = 4096 ∨ j = 4097 := by omega
  · decide +kernel
  · decide +kernel

abbrev firstPage : List MemOp := [.mmap 0 0x1000 0 3 1]

abbrev usedPage : List MemOp :=
  [.mmap 0x10b000 0x1000 0 3 1, .write 0x10b000 0xff, .munmap 0x10b000 0x1000,
    .mmap 0x106000 0x1000 0 3 1]

/-- The first mapping of a heap is still allocated after a move, and a mapping that grows into a used
page gets its old contents. Both histories leave the bitmaps alone. -/
theorem mremap_not_moved : (Returns MemOp.Apart (firstPage ++ [.mremap 0x10e000 0x1000 0 0x2000 0]) sixteen ∧
        (execAll firstPage sixteen).Live 0x10e000 0x1000 0 ∧
        (enclaveMremap 0x10e000 0x1000 0 0x2000 0 (execAll firstPage sixteen)).ret = some 0x10c000 ∧
        (enclaveMremap 0x10e000 0x1000 0 0x2000 0 (execAll firstPage sixteen)).st.allocated 0 = true) ∧
      Returns MemOp.Apart (usedPage ++ [.mremap 0x106000 0x1000 0x10a000 0x2000 0]) sixteen ∧
        (execAll usedPage sixteen).Live 0x106000 0x1000 8 ∧
        (enclaveMremap 0x106000 0x1000 0x10a000 0x2000 0 (execAll usedPage sixteen)).ret = some 0x10a000 ∧
        (enclaveMremap 0x106000 0x1000 0x10a000 0x2000 0 (execAll usedPage sixteen)).st.mem 0x10b000 = 0xff := by
  have hp : pageCount 0x1000 = 1 := rfl
  refine ⟨⟨by decide +kernel, ⟨by decide, by decide +kernel, by decide +kernel, fun i h1 h2 => ?_⟩, by decide +kernel,
    by decide +kernel⟩, by decide +kernel, ⟨by decide, by decide +kernel, by decide +kernel, fun i h1 h2 => ?_⟩,
    by decide +kernel, by decide +kernel⟩
  · obtain rfl : i = 0 := by omega
    decide +kernel
  · obtain rfl : i = 8 := by omega
    decide +kernel

end SgxLkl
