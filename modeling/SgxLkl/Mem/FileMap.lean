import SgxLkl.Mem.Regions
import SgxLkl.Mem.Syscall

/-!
# Failing and succeeding mappings of files

* **`syscall_error_iff`**: an error of `syscall_SYS_mmap` leaves the allocated pages as they were,
  unless a read fails and the region at the hint is not the one that was mapped, or was in use
  (`Stranded`).
* **`file_contents_iff`**: a mapped file has the contents of the file and zeros behind its end
  whatever the pages held before, exactly if the file reaches to the end of the last page.
-/

namespace SgxLkl

open Mman List

variable {κ : Type} {pread : Pread κ} {fd : CInt} {s : Mman} {addr length : Word}

/-! ## Errors -/

def ReadFails (pread : Pread κ) (fd : CInt) (length offset : Word) (k : κ) : Prop :=
  ∃ e, readEnds pread fd (length.toNat + 1) length offset k = some e ∧ e.toInt < 0

namespace Mman

/-- Unmapping the region at `addr` does not undo the mapping: the region is in range and was not
entirely free, or it is not in range and the mapping is somewhere else. -/
def Stranded (s : Mman) (addr length : Word) (mmapFixed : CInt) : Prop :=
  (s.inMmapRange addr length ∧ ¬ FreeRun s.free (s.topAt addr length) (pageCount length)) ∨
    (mmapFixed = 0 ∧ ¬ s.inMmapRange addr length ∧
      ∃ t, t + pageCount length ≤ s.numPages ∧ FreeRun s.free t (pageCount length))

end Mman

theorem not_freeRun {t p : ℕ} (h : ¬ FreeRun s.free t p) : ∃ i, t ≤ i ∧ i < t + p ∧ s.allocated i = true := by
  simp only [FreeRun, free, not_forall, Bool.not_eq_false] at h
  obtain ⟨i, h1, h2, h3⟩ := h
  exact ⟨i, h1, h2, h3⟩

variable {prot mmapFixed : CInt} {r mem count offset : Word} {s' : Mman} {file : List Byte}

theorem Mman.Placed.eq_topAt (hs : s.Laid) (hw : s.NoWrap addr length) {t : ℕ}
    (h : s.Placed addr length mmapFixed t) (hin : s.inMmapRange addr length)
    (hfree : FreeRun s.free (s.topAt addr length) (pageCount length)) : t = s.topAt addr length := by
  rw [Placed] at h
  split_ifs at h
  · exact h.2
  · exact h.elim And.right fun h' =>
      absurd ⟨ne_zero_of_inMmapRange hs hw hin, hin, hfree⟩ h'.1

/-- The unmapping after a failed read restores the allocated pages exactly if the mapping is not
stranded. -/
theorem cleanup_iff (hs : s.Laid) (hw : ValidArgs addr length → s.NoWrap addr length) {s₁ s₂ s₃ : Mman}
    (hmap : s.MmapResult addr length mmapFixed prot 0 mem s₁) (hwords : s₂.words = s₁.words)
    (hlay : s₂.layout = s₁.layout) (hun : s₂.MunmapResult addr length r s₃) :
    (∀ i < s.numPages, s₃.allocated i = s.allocated i) ↔
      ¬ (ValidArgs addr length ∧ s.Stranded addr length mmapFixed) := by
  have hlay' : s₂.layout = s.layout := hlay.trans hmap.layout
  have hall := hun.allocated
  simp only [topAt_congr hlay', inMmapRange_congr hlay', allocated_congr hwords] at hall
  by_cases hv : ValidArgs addr length
  swap
  · refine iff_of_true (fun i _ => ?_) fun h => hv h.1
    cases hmap with
    | inval _ => exact ((hall i).resolve_left fun h => hv h.1).2
    | nomem hv' _ | mapped _ hv' _ => exact absurd hv' hv
  have hw := hw hv
  rw [not_and, forall_prop_of_true hv]
  by_cases hin : s.inMmapRange addr length
  · -- the region at `addr` is unmapped
    have hall' := fun i => ((hall i).resolve_right fun h => h.1 ⟨hv, hin⟩).2.2
    have hfits := (topAt_fits hs hw hv hin).2.1
    by_cases hfree : FreeRun s.free (s.topAt addr length) (pageCount length)
    · refine iff_of_true (fun i hi => ?_) fun h => h.elim (fun h => h.2 hfree) fun h => h.2.1 hin
      rw [hall']
      split_ifs with hi'
      · exact (hfree i hi'.1 hi'.2).symm
      · cases hmap with
        | inval hv' => exact absurd hv hv'
        | nomem _ _ => rfl
        | mapped t _ ht =>
          obtain rfl := ht.eq_topAt hs hw hin hfree
          rw [allocated_reserve hs (by omega) hw.2 _ _ hi, if_neg hi']
    · obtain ⟨i, h1, h2, h3⟩ := not_freeRun hfree
      refine iff_of_false (fun h => ?_) fun h => h (.inl ⟨hin, hfree⟩)
      have := h i (by omega)
      rw [hall', if_pos ⟨h1, h2⟩, h3] at this
      exact Bool.noConfusion this
  · -- nothing is unmapped
    have hall' := fun i => ((hall i).resolve_left fun h => hin h.2.1).2
    cases hmap with
    | inval hv' => exact absurd hv hv'
    | nomem _ hno =>
      refine iff_of_true (fun i _ => hall' i) ?_
      rintro (h | ⟨rfl, -, t, ht, hrun⟩)
      · exact hin h.1
      · obtain ⟨t', ht'⟩ := exists_placed ht hrun addr
        exact hno t' ht'
    | mapped t _ ht =>
      have hf : mmapFixed = 0 := by
        by_contra hf
        rw [Placed, if_pos hf] at ht
        exact hin ht.1
      subst hf
      have hfit := ht.fits hs hw hv
      have hp := pageCount_pos hv.2
      refine iff_of_false (fun h => ?_) fun h => h (.inr ⟨rfl, hin, t, hfit, ht.freeRun⟩)
      have := h t (by omega)
      rw [hall', allocated_reserve hs hfit hw.2 _ _ (by omega), if_pos ⟨le_rfl, by omega⟩,
        ht.freeRun.head hp] at this
      exact Bool.noConfusion this

theorem Mman.MmapResult.eq_of_neg (hs : s.Laid) (hw : ValidArgs addr length → s.NoWrap addr length)
    {zeroPages : CInt}
    (h : s.MmapResult addr length mmapFixed prot zeroPages r s') (hr : r.toInt < 0) : s' = s := by
  cases h with
  | inval _ => rfl
  | nomem _ _ => rfl
  | mapped t hv ht =>
    exact absurd (nonneg_mapAddr hs (ht.fits hs (hw hv) hv) hv.2) (not_le.mpr hr)

theorem mapFile_error_iff (hs : s.Laid) (hw : ValidArgs addr length → s.NoWrap addr length)
    (hb : pread.Bounded fd) (prot flags : CInt) (offset : Word) (k : κ) :
    (∀ r, (mapFile pread fd addr length prot flags offset k s).ret = some r → r.toInt < 0 →
      ∀ i < s.numPages, (mapFile pread fd addr length prot flags offset k s).st.allocated i = s.allocated i) ↔
      ¬ (ValidArgs addr length ∧ ReadFails pread fd length offset k ∧
        s.Stranded addr length (flags &&& mapFixed)) := by
  obtain ⟨mem, s₁, e, k', s₂, hmap, hloop, hends, hcase⟩ :=
    mapFile_result hs hw hb prot flags offset k
  obtain ⟨hwords, hlay⟩ := readLoop_keeps hloop
  rcases hcase with ⟨he, r, s₃, hun, hret, hst⟩ | ⟨he, hret, hst, -⟩
  · -- a failed read: the result is `-EBADF`
    have hfails : ReadFails pread fd length offset k := ⟨e, hends, he⟩
    have hclean := cleanup_iff hs hw hmap hwords hlay hun
    rw [hret, hst, and_iff_right hfails, ← hclean]
    refine ⟨fun h => h _ rfl (by decide), fun h r _ _ => h⟩
  · refine iff_of_true (fun r hr hneg i _ => ?_) ?_
    · rw [hret] at hr
      cases hr
      rw [allocated_congr hst, allocated_congr hwords, hmap.eq_of_neg hs hw hneg]
    · rintro ⟨-, ⟨e', hends', he'⟩, -⟩
      rw [hends] at hends'
      cases hends'
      exact he he'

/-- **Errors of `syscall_SYS_mmap`** leave the allocated pages as they were, in every state of every
history, exactly if no read of a file fails whose mapping is stranded. -/
theorem syscall_error_iff {base numPages : Word} (h : HeapOk base numPages) {s₀ : Mman}
    {files : CInt} {l : List MemOp} (hrun : Run MemOp.Step (s₀.enclaveMmanInit base numPages files) l s)
    (hw : ValidArgs addr length → s.NoWrap addr length) (hb : pread.Bounded fd)
    (prot flags : CInt) (offset : Word) (k : κ) :
    (∀ r, (syscallSysMmap pread fd addr length prot flags offset k s).ret = some r → r.toInt < 0 →
      ∀ i < s.numPages, (syscallSysMmap pread fd addr length prot flags offset k s).st.allocated i =
        s.allocated i) ↔
      ¬ (s.FileBacked flags fd ∧ ValidArgs addr length ∧ ReadFails pread fd length offset k ∧
        s.Stranded addr length (flags &&& mapFixed)) := by
  obtain ⟨hs, -⟩ := laid_of_run h hrun
  by_cases hfile : s.FileBacked flags fd
  · rw [syscallSysMmap_file hfile, and_iff_right hfile]
    exact mapFile_error_iff hs hw hb prot flags offset k
  · refine iff_of_true ?_ fun h => hfile h.1
    rw [syscallSysMmap]
    split_ifs with hboth hanon hsupp
    · exact fun _ _ _ _ _ => rfl
    · intro r hr hneg i _
      obtain ⟨r', s', hgives, hres⟩ := enclaveMmap_gives hs hw (flags &&& mapFixed) prot 1
      dsimp only at hr ⊢
      rw [hgives.ret] at hr
      cases hr
      rw [hgives.st, hres.eq_of_neg hs hw hneg]
    · exact absurd ⟨hboth, not_not.mp hanon, hsupp⟩ hfile
    · exact fun _ _ _ _ _ => rfl

/-- A kernel that answers every read with the error `EBADF`. -/
abbrev failingPread : Pread Unit := fun _ _ _ _ => ⟨-eBadf, [], ()⟩

theorem syscall_error_sixteen : (syscallSysMmap failingPread 3 0x108000 0x1000 1 2 0 ()
        (unset.enclaveMmanInit 0x100000 16 2)).ret = some (-eBadf) ∧
      ∀ i < (unset.enclaveMmanInit 0x100000 16 2).numPages, (syscallSysMmap failingPread 3 0x108000 0x1000 1 2 0 ()
          (unset.enclaveMmanInit 0x100000 16 2)).st.allocated i =
          (unset.enclaveMmanInit 0x100000 16 2).allocated i := by
  have hret : (syscallSysMmap failingPread 3 0x108000 0x1000 1 2 0 ()
      (unset.enclaveMmanInit 0x100000 16 2)).ret = some (-eBadf) := by decide +kernel
  refine ⟨hret, (syscall_error_iff heapOk_sixteen (.nil _) (fun _ => by decide) (fun _ _ _ h => ?_)
    1 2 0 ()).mpr ?_ _ hret (by decide)⟩
  · exact absurd h (show ¬ 0 < (-eBadf).toInt by decide)
  · rintro ⟨-, -, -, ⟨-, hno⟩ | ⟨-, hout, -⟩⟩
    · exact hno fun _ _ hj => (heapOk_sixteen.bits_init unset 2 (lt_trans hj (by decide))).1
    · exact hout (by decide)

/-- A failing read of a file mapped without a hint leaves its page allocated, one of a file mapped
with the hint of a page in use releases that page. -/
theorem syscall_error_leaks :
    (syscallSysMmap failingPread 3 0 0x1000 1 2 0 () (unset.enclaveMmanInit 0x100000 16 2)).ret = some (-eBadf) ∧
      (unset.enclaveMmanInit 0x100000 16 2).allocated 0 = false ∧ (syscallSysMmap failingPread 3 0 0x1000 1 2 0 ()
        (unset.enclaveMmanInit 0x100000 16 2)).st.allocated 0 = true ∧
      (enclaveMmap 0x108000 0x1000 0 3 1 (unset.enclaveMmanInit 0x100000 16 2)).st.allocated 6 = true ∧
      (syscallSysMmap failingPread 3 0x108000 0x1000 1 2 0 () (enclaveMmap 0x108000 0x1000 0 3 1
          (unset.enclaveMmanInit 0x100000 16 2)).st).st.allocated 6 = false := by
  decide +kernel

/-! ## Contents -/

/-- Reads of the descriptor read the bytes of `file`: each at most what it is asked for, and none
only at the end of the file. -/
structure Pread.Serves (pread : Pread κ) (fd : CInt) (file : List Byte) : Prop where
  size : file.length < 2 ^ 63
  read : ∀ k count offset, 0 < (pread k fd count offset).ret.toInt →
    (pread k fd count offset).ret.toNat ≤ count.toNat ∧
      offset.toNat + (pread k fd count offset).ret.toNat ≤ file.length ∧
      (pread k fd count offset).data =
        (file.drop offset.toNat).take (pread k fd count offset).ret.toNat
  stop : ∀ k count offset, (pread k fd count offset).ret = 0 →
    count = 0 ∨ file.length ≤ offset.toNat
  none : ∀ k count offset, ¬ 0 < (pread k fd count offset).ret.toInt →
    (pread k fd count offset).data = []

theorem Pread.Serves.bounded (h : pread.Serves fd file) : pread.Bounded fd :=
  fun k count offset hpos => (h.read k count offset hpos).1

theorem getD_take_drop {o n : ℕ} (h : o + n ≤ file.length) (j : ℕ) (b : Byte) :
    ((file.drop o).take n).getD j b = if j < n then file.getD (o + j) 0 else b := by
  rw [getD_eq_getElem?_getD, getElem?_take]
  split_ifs with hj
  · rw [getElem?_drop, getD_eq_getElem?_getD, getElem?_eq_getElem (by omega)]
    rfl
  · rfl

theorem Pread.Serves.mem_store (h : pread.Serves fd file) {k : κ} (hpos : 0 < (pread k fd count offset).ret.toInt)
    (buf a : Word) (s : Mman) :
    (s.store buf (pread k fd count offset).data).mem a =
      if (a - buf).toNat < (pread k fd count offset).ret.toNat then
        file.getD (offset.toNat + (a - buf).toNat) 0 else s.mem a := by
  obtain ⟨-, hfit, hdata⟩ := h.read k count offset hpos
  rw [← getD_take_drop hfit, ← hdata]
  rfl

theorem Pread.Serves.mem_store_none (h : pread.Serves fd file) {k : κ}
    (hpos : ¬ 0 < (pread k fd count offset).ret.toInt) (buf a : Word)
    (s : Mman) : (s.store buf (pread k fd count offset).data).mem a = s.mem a := by
  rw [h.none k count offset hpos]
  rfl

/-- **The loop reads the file up to its end**, by induction on the rounds: behind the `readb` bytes
that are there the bytes of the file from `offset` on. -/
theorem readLoop_contents (h : pread.Serves fd file) {fuel : ℕ}
    {readb e : Word} {k k' : κ} (hle : readb.toNat ≤ length.toNat)
    (hloop : readLoop pread fd mem length fuel readb offset k s = some (e, k', s'))
    (he : ¬ e.toInt < 0) (a : Word) : s'.mem a = if readb.toNat ≤ (a - mem).toNat ∧ (a - mem).toNat <
        readb.toNat + min (length.toNat - readb.toNat) (file.length - offset.toNat) then
      file.getD (offset.toNat + ((a - mem).toNat - readb.toNat)) 0 else s.mem a := by
  induction fuel generalizing readb offset k s with
  | zero => cases hloop
  | succ fuel ih =>
    simp only [readLoop] at hloop
    have hcount : (length - readb).toNat = length.toNat - readb.toNat := by
      have := length.isLt
      rw [BitVec.toNat_sub]
      omega
    split_ifs at hloop with hpos
    · obtain ⟨hret, hfit, -⟩ := h.read k (length - readb) offset hpos
      have hsize := h.size; have hlength := length.isLt
      have hstore := h.mem_store hpos (mem + readb) a s
      set n := (pread k fd (length - readb) offset).ret
      have hrb : (readb + n).toNat = readb.toNat + n.toNat := by
        rw [BitVec.toNat_add]
        omega
      have hoff : (offset + n).toNat = offset.toNat + n.toNat := by
        rw [BitVec.toNat_add]
        omega
      rw [ih (by omega) hloop, hstore, hrb, hoff, toNat_sub_add]
      by_cases hge : readb.toNat ≤ (a - mem).toNat
      · simp only [if_pos hge]
        by_cases hlt : (a - mem).toNat < readb.toNat + n.toNat
        · rw [if_neg (by omega), if_pos (by omega), if_pos (by omega)]
        · rw [if_neg (show ¬ (a - mem).toNat - readb.toNat < n.toNat by omega)]
          refine if_congr (by omega) ?_ rfl
          congr 1
          omega
      · simp only [if_neg hge]
        rw [if_neg (by omega), if_neg (by omega), if_neg (by omega)]
    · cases hloop
      have hzero : (pread k fd (length - readb) offset).ret = 0 := by
        refine BitVec.toInt_inj.mp ?_
        change _ = 0
        omega
      rw [if_neg, h.mem_store_none hpos]
      rcases h.stop k (length - readb) offset hzero with hstop | hstop
      · rw [hstop] at hcount
        change 0 = _ at hcount
        omega
      · omega

section Contents

variable {file : List Byte} (hs : s.Laid) (hw : ValidArgs addr length → s.NoWrap addr length)
  (h : pread.Serves fd file) (prot flags : CInt) (offset : Word) (k : κ)

include hs hw h

theorem mapFile_contents {r : Word}
    (hret : (mapFile pread fd addr length prot flags offset k s).ret = some r) (hr : 0 ≤ r.toInt) :
    ValidArgs addr length ∧ (∃ t, s.Placed addr length (flags &&& mapFixed) t) ∧
      ¬ ReadFails pread fd length offset k ∧ ∀ j < 4096 * pageCount length,
        (mapFile pread fd addr length prot flags offset k s).st.mem (r + BitVec.ofNat 64 j) =
          if j < min length.toNat (file.length - offset.toNat) then file.getD (offset.toNat + j) 0
          else s.mem (r + BitVec.ofNat 64 j) := by
  obtain ⟨mem, s₁, e, k', s₂, hmap, hloop, hends, hcase⟩ :=
    mapFile_result hs hw h.bounded prot flags offset k
  rcases hcase with ⟨-, -, -, -, hret', -⟩ | ⟨he, hret', -, hmem⟩
  · rw [hret'] at hret
    cases hret
    exact absurd hr (by decide)
  rw [hret'] at hret
  cases hret
  have hfails : ¬ ReadFails pread fd length offset k := by
    rintro ⟨e', hends', he'⟩
    rw [hends] at hends'
    cases hends'
    exact he he'
  cases hmap with
  | inval _ => exact absurd hr (by decide)
  | nomem _ _ => exact absurd hr (by decide)
  | mapped t hv ht =>
    refine ⟨hv, ⟨t, ht⟩, hfails, fun j hj => ?_⟩
    have hfit := ht.fits hs (hw hv) hv
    have hle := mapAddr_add_le hs hfit hv.2
    have hsub : (BitVec.ofNat 64 (s.mapAddr length t) + BitVec.ofNat 64 j -
        BitVec.ofNat 64 (s.mapAddr length t)).toNat = j := by
      rw [BitVec.add_comm, BitVec.add_sub_cancel, BitVec.toNat_ofNat]
      omega
    rw [hmem, readLoop_contents h (Nat.zero_le _) hloop he, hsub, mem_reserve_zero]
    refine if_congr ?_ rfl rfl
    change 0 ≤ j ∧ j < 0 + min (length.toNat - 0) _ ↔ _
    omega

theorem mapFile_succeeds (hv : ValidArgs addr length) {t : ℕ}
    (ht : s.Placed addr length (flags &&& mapFixed) t) (hfails : ¬ ReadFails pread fd length offset k) :
    (mapFile pread fd addr length prot flags offset k s).ret = some (BitVec.ofNat 64 (s.mapAddr length t)) ∧
      0 ≤ (BitVec.ofNat 64 (s.mapAddr length t)).toInt := by
  refine ⟨?_, nonneg_mapAddr hs (ht.fits hs (hw hv) hv) hv.2⟩
  obtain ⟨mem, s₁, e, k', s₂, hmap, -, hends, hcase⟩ :=
    mapFile_result hs hw h.bounded prot flags offset k
  rcases hcase with ⟨he, -⟩ | ⟨-, hret, -⟩
  · exact absurd ⟨e, hends, he⟩ hfails
  · rw [hret]
    cases hmap with
    | inval hv' => exact absurd hv hv'
    | nomem _ hno => exact absurd ht (hno t)
    | mapped t' _ ht' => rw [ht.unique ht']

end Contents

/-- **Contents of a mapped file.** Whatever the pages held before, a mapping of a file holds the bytes
of the file and zeros behind its end, exactly if there is nothing behind its end: the mapping takes
whole pages and the file reaches to the end of the last one. -/
theorem file_contents_iff {base numPages : Word} (hok : HeapOk base numPages) {s₀ : Mman}
    {files : CInt} {l : List MemOp} (hrun : Run MemOp.Step (s₀.enclaveMmanInit base numPages files) l s)
    (hw : ValidArgs addr length → s.NoWrap addr length) {file : List Byte}
    (h : pread.Serves fd file) {flags : CInt} (hfile : s.FileBacked flags fd) (prot : CInt)
    (offset : Word) (k : κ) : (∀ m r, (syscallSysMmap pread fd addr length prot flags offset k (s.withMem m)).ret =
        some r → 0 ≤ r.toInt → ∀ j < 4096 * pageCount length,
      (syscallSysMmap pread fd addr length prot flags offset k (s.withMem m)).st.mem
        (r + BitVec.ofNat 64 j) = file.getD (offset.toNat + j) 0) ↔
      (ValidArgs addr length → (∃ t, s.Placed addr length (flags &&& mapFixed) t) →
        ¬ ReadFails pread fd length offset k →
          4096 ∣ length.toNat ∧ offset.toNat + length.toNat ≤ file.length) := by
  obtain ⟨hs, -⟩ := laid_of_run hok hrun
  have hup := length_le_pageCount length
  have hmap : ∀ m, syscallSysMmap pread fd addr length prot flags offset k (s.withMem m) =
      mapFile pread fd addr length prot flags offset k (s.withMem m) :=
    fun m => syscallSysMmap_file (show (s.withMem m).FileBacked flags fd from hfile) prot k
  have hlaid : ∀ m, (s.withMem m).Laid := fun m => hs.congr (layout_withMem s m)
  simp only [hmap]
  constructor
  · intro hall hv ⟨t, ht⟩ hfails
    by_contra hno
    -- the first byte that was not read keeps whatever it was
    set d := min length.toNat (file.length - offset.toNat) with hd
    have hlt : d < 4096 * pageCount length := by
      by_contra hge
      have := toNat_pos.mpr hv.2
      exact hno ⟨⟨pageCount length, by omega⟩, by omega⟩
    obtain ⟨m, hm⟩ : ∃ m : Byte, m ≠ file.getD (offset.toNat + d) 0 :=
      ⟨file.getD (offset.toNat + d) 0 + 1, by simp⟩
    obtain ⟨hret, hr⟩ := mapFile_succeeds (hlaid fun _ => m) hw h prot flags offset k hv ht hfails
    obtain ⟨-, -, -, hbytes⟩ := mapFile_contents (hlaid fun _ => m) hw h prot flags offset k hret hr
    have := hall (fun _ => m) _ hret hr d hlt
    rw [hbytes d hlt, if_neg (lt_irrefl d)] at this
    exact hm this
  · intro hcond m r hret hr j hj
    obtain ⟨hv, ht, hfails, hbytes⟩ :=
      mapFile_contents (hlaid m) hw h prot flags offset k hret hr
    obtain ⟨⟨q, hq⟩, hfit⟩ := hcond hv ht hfails
    have hdown := pageCount_lt_length length
    rw [hbytes j hj, if_pos (by omega)]

/-- A kernel that reads a file in pieces of at most `chunk` bytes. -/
def chunkPread (chunk : ℕ) (file : List Byte) : Pread Unit := fun _ _ count offset =>
  let data := (file.drop offset.toNat).take (min count.toNat chunk)
  ⟨BitVec.ofNat 64 data.length, data, ()⟩

theorem chunkPread_serves {chunk : ℕ} (hc : 0 < chunk) (hf : file.length < 2 ^ 63)
    (fd : CInt) : (chunkPread chunk file).Serves fd file := by
  have hlen : ∀ count offset : Word, (chunkPread chunk file () fd count offset).ret.toNat =
      min (min count.toNat chunk) (file.length - offset.toNat) := by
    intro count offset
    simp only [chunkPread, length_take, length_drop, BitVec.toNat_ofNat]
    omega
  have hint : ∀ count offset : Word, (chunkPread chunk file () fd count offset).ret.toInt =
      (min (min count.toNat chunk) (file.length - offset.toNat) : ℕ) := by
    intro count offset
    rw [BitVec.toInt_eq_toNat_of_lt (by rw [hlen]; omega), hlen]
  refine ⟨hf, fun _ count offset hpos => ?_, fun _ count offset hzero => ?_, fun _ count offset hpos => ?_⟩
  · rw [hint] at hpos
    refine ⟨by rw [hlen]; omega, by rw [hlen]; omega, ?_⟩
    rw [hlen]
    simp only [chunkPread, take_eq_take_iff, length_drop]
    omega
  · have := hlen count offset
    rw [hzero] at this
    change 0 = _ at this
    rcases Nat.eq_zero_or_pos count.toNat with h0 | h0
    · exact .inl (BitVec.toNat_inj.mp h0)
    · exact .inr (by omega)
  · rw [hint] at hpos
    apply eq_nil_of_length_eq_zero
    simp only [chunkPread, length_take, length_drop]
    omega

theorem file_contents_page : (syscallSysMmap (chunkPread 100 (List.replicate 4096 7)) 3 0 0x1000 1 2 0 ()
        ((unset.enclaveMmanInit 0x100000 16 2).withMem fun _ => 0xff)).ret = some 0x10e000 ∧
      ∀ j < 4096 * pageCount 0x1000, (syscallSysMmap (chunkPread 100 (List.replicate 4096 7)) 3 0 0x1000 1 2 0 ()
          ((unset.enclaveMmanInit 0x100000 16 2).withMem fun _ => 0xff)).st.mem (0x10e000 + BitVec.ofNat 64 j) =
          (List.replicate 4096 (7 : Byte)).getD ((0 : Word).toNat + j) 0 := by
  have hret : (syscallSysMmap (chunkPread 100 (replicate 4096 7)) 3 0 0x1000 1 2 0 ()
      ((unset.enclaveMmanInit 0x100000 16 2).withMem fun _ => 0xff)).ret = some 0x10e000 := by
    decide +kernel
  exact ⟨hret, (file_contents_iff heapOk_sixteen (.nil _) (fun _ => by decide)
    (chunkPread_serves (by decide) (by rw [length_replicate]; decide) 3) (by decide) 1 0 ()).mpr
    (fun _ _ _ => ⟨by decide, by rw [length_replicate]; decide⟩) _ _ hret (by decide)⟩

abbrev writtenPage : List MemOp :=
  [.mmap 0x108000 0x1000 0 3 1, .write 0x108001 0xff, .munmap 0x108000 0x1000]

/-- A file of one byte is mapped there: what follows its end is the old contents. -/
theorem file_contents_stale : (chunkPread 100 [7]).Serves 3 [7] ∧
      Returns (fun _ _ => True) writtenPage (unset.enclaveMmanInit 0x100000 16 2) ∧
      (syscallSysMmap (chunkPread 100 [7]) 3 0x108000 0x1000 1 2 0 ()
        (execAll writtenPage (unset.enclaveMmanInit 0x100000 16 2))).ret = some 0x108000 ∧
      (syscallSysMmap (chunkPread 100 [7]) 3 0x108000 0x1000 1 2 0 ()
        (execAll writtenPage (unset.enclaveMmanInit 0x100000 16 2))).st.mem 0x108001 = 0xff :=
  ⟨chunkPread_serves (by decide) (by decide) 3, by decide +kernel, by decide +kernel,
    by decide +kernel⟩

end SgxLkl
