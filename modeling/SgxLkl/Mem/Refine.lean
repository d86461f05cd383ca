import SgxLkl.Lib.Lts
import SgxLkl.Mem.Spec

/-!
# The allocator refines a set of allocated pages

`PageStep n` is what the allocator is for: an allocator of runs of pages out of `n`, with hints and
first fit, over the set of allocated pages. `Mman.pages` is the set a bitmap stands for,
`Mman.request` and `Mman.value` translate calls and results.

* `exists_pageStep`: a call whose range test does not wrap around returns, and is one step of
  the abstract allocator.
* **`calls_refine`**: so is every sequence of such calls after `enclave_mman_init`.
-/

namespace SgxLkl

/-! ## The abstract allocator -/

/-- A request to the allocator: a mapping with a hint for its first page, or an unmapping. -/
inductive PageRequest
  | map (hint : Option ℕ) (pages : ℕ)
  | unmap (first pages : ℕ)
  | invalid

inductive PageReply
  | mapped (first : ℕ)
  | unmapped
  | full
  | rejected

/-- An allocator of runs of pages out of `n`, over the set of allocated pages. -/
inductive PageStep (n : ℕ) : Set ℕ → PageRequest × PageReply → Set ℕ → Prop
  | hinted {A : Set ℕ} {h p : ℕ} : FreeRun (· ∉ A) h p →
      PageStep n A (.map (some h) p, .mapped h) (A ∪ Set.Ico h (h + p))
  | firstFit {A : Set ℕ} {hint : Option ℕ} {p t : ℕ} : (∀ h ∈ hint, ¬ FreeRun (· ∉ A) h p) →
      IsFirstFit (· ∉ A) n p t → PageStep n A (.map hint p, .mapped t) (A ∪ Set.Ico t (t + p))
  | full {A : Set ℕ} {hint : Option ℕ} {p : ℕ} : (∀ t, t + p ≤ n → ¬ FreeRun (· ∉ A) t p) →
      PageStep n A (.map hint p, .full) A
  | unmap {A : Set ℕ} {t p : ℕ} : PageStep n A (.unmap t p, .unmapped) (A \ Set.Ico t (t + p))
  | invalid {A : Set ℕ} : PageStep n A (.invalid, .rejected) A

/-! ## Calls -/

/-- A call of the memory manager without the fixed flag. -/
inductive Call
  | mmap (addr length : Word) (prot zeroPages : CInt)
  | munmap (addr length : Word)

namespace Call

def addr : Call → Word
  | mmap addr _ _ _ | munmap addr _ => addr

def length : Call → Word
  | mmap _ length _ _ | munmap _ length => length

def exec : Call → Mman → Outcome Word
  | mmap addr length prot zeroPages => Mman.enclaveMmap addr length 0 prot zeroPages
  | munmap addr length => Mman.enclaveMunmap addr length

def Step (s : Mman) (a : Call × Word) (s' : Mman) : Prop :=
  (a.1.exec s).ret = some a.2 ∧ (a.1.exec s).st = s'

/-- The length is at most that of the heap, and a range test that succeeds does not wrap around. -/
def Fits (s : Mman) (c : Call) : Prop :=
  c.length.toNat ≤ 4096 * s.numPages ∧
    (Mman.ValidArgs c.addr c.length → s.inMmapRange c.addr c.length →
      c.addr.toNat + c.length.toNat < 2 ^ 64)

instance (s : Mman) (c : Call) : Decidable (c.Fits s) := inferInstanceAs (Decidable (_ ∧ _))

end Call

namespace Mman

def pages (s : Mman) : Set ℕ := {i | i < s.numPages ∧ s.allocated i = true}

/-- A call in terms of pages. A hint is one only if the hinted region is in range. -/
def request (s : Mman) : Call → PageRequest
  | .mmap addr length _ _ =>
    if ValidArgs addr length then
      .map (if s.inMmapRange addr length then some (s.topAt addr length) else none)
        (pageCount length)
    else .invalid
  | .munmap addr length =>
    if ValidArgs addr length ∧ s.inMmapRange addr length then
      .unmap (s.topAt addr length) (pageCount length)
    else .invalid

def value (s : Mman) (c : Call) : PageReply → Word
  | .mapped t => BitVec.ofNat 64 (s.mapAddr c.length t)
  | .unmapped => 0
  | .full => -eNomem
  | .rejected => -eInval

def Matches (s : Mman) (a : Call × Word) (b : PageRequest × PageReply) : Prop :=
  b.1 = s.request a.1 ∧ a.2 = s.value a.1 b.2

section Pages

variable {s s' : Mman} {length : Word} {t p : ℕ}

theorem mem_pages {i : ℕ} : i ∈ s.pages ↔ i < s.numPages ∧ s.allocated i = true := Iff.rfl

theorem free_iff_notMem {i : ℕ} (hi : i < s.numPages) : s.free i ↔ i ∉ s.pages := by
  rw [free, mem_pages, not_and, Bool.not_eq_true]
  exact ⟨fun h _ => h, fun h => h hi⟩

theorem freeRun_iff_notMem (h : t + p ≤ s.numPages) : FreeRun s.free t p ↔ FreeRun (· ∉ s.pages) t p :=
  forall_congr' fun _ => imp_congr_right fun _ => forall_congr' fun hlt =>
    free_iff_notMem (by omega)

theorem isFirstFit_iff_notMem : IsFirstFit s.free s.numPages p t ↔ IsFirstFit (· ∉ s.pages) s.numPages p t := by
  constructor
  · rintro ⟨hfit, hrun, hleast⟩
    exact ⟨hfit, (freeRun_iff_notMem hfit).mp hrun,
      fun k hk h => hleast k hk ((freeRun_iff_notMem (by omega)).mpr h)⟩
  · rintro ⟨hfit, hrun, hleast⟩
    exact ⟨hfit, (freeRun_iff_notMem hfit).mpr hrun,
      fun k hk h => hleast k hk ((freeRun_iff_notMem (by omega)).mp h)⟩

theorem pages_eq (hn : s'.numPages = s.numPages) {A : Set ℕ} (hA : ∀ i ∈ A, i < s.numPages)
    (h : ∀ i < s.numPages, s'.allocated i = true ↔ i ∈ A) : s'.pages = A := by
  ext i
  rw [mem_pages, hn]
  exact ⟨fun hi => (h i hi.1).mp hi.2, fun hi => ⟨hA i hi, (h i (hA i hi)).mpr hi⟩⟩

theorem pages_reserve (hs : s.Laid) (hlen : length.toNat + 4095 < 2 ^ 64)
    (hfit : t + pageCount length ≤ s.numPages) (prot zeroPages : CInt) :
    (s.reserve length prot zeroPages t).pages = s.pages ∪ Set.Ico t (t + pageCount length) := by
  refine pages_eq (numPages_congr (layout_reserve ..)) ?_ fun i hi => ?_
  · rintro i (hi | hi)
    · exact hi.1
    · exact lt_of_lt_of_le hi.2 hfit
  · rw [allocated_reserve hs hfit hlen _ _ hi, Set.mem_union, Set.mem_Ico, mem_pages]
    split_ifs with h
    · exact iff_of_true rfl (Or.inr h)
    · exact ⟨fun ha => Or.inl ⟨hi, ha⟩, fun ha => (ha.resolve_right h).2⟩

theorem pages_release (t p : ℕ) : (s.release t p).pages = s.pages \ Set.Ico t (t + p) := by
  refine pages_eq rfl (fun i hi => hi.1.1) fun i hi => ?_
  rw [allocated_release, Set.mem_sdiff, Set.mem_Ico, mem_pages]
  split_ifs with h
  · exact iff_of_false id (fun ha => ha.2 h)
  · exact ⟨fun ha => ⟨⟨hi, ha⟩, h⟩, fun ha => ha.1.2⟩

end Pages

end Mman

/-! ## Refinement -/

open Mman

variable {s : Mman}

theorem Call.Fits.noWrap (hs : s.Laid) {c : Call} (h : c.Fits s) (hv : ValidArgs c.addr c.length) :
    s.NoWrap c.addr c.length := by
  have := hs.high; have := h.1
  exact ⟨h.2 hv, by omega⟩

namespace Mman

theorem request_congr {s' : Mman} (h : s'.layout = s.layout) (c : Call) : s'.request c = s.request c := by
  cases c <;> simp only [request, inMmapRange_congr h, topAt_congr h]

theorem value_congr {s' : Mman} (h : s'.layout = s.layout) (c : Call) (x : PageReply) :
    s'.value c x = s.value c x := by
  cases x <;> simp only [value, mapAddr, pageAddr_congr h]

theorem fits_congr {s' : Mman} (h : s'.layout = s.layout) (c : Call) : c.Fits s' ↔ c.Fits s := by
  rw [Call.Fits, Call.Fits, numPages_congr h, inMmapRange_congr h]

/-- **One call, one step of the abstract allocator.** -/
theorem exists_pageStep (hs : s.Laid) {c : Call} (hc : c.Fits s) :
    ∃ r s' x, Call.Step s (c, r) s' ∧ s'.layout = s.layout ∧ r = s.value c x ∧
      PageStep s.numPages s.pages (s.request c, x) s'.pages := by
  cases c with
  | mmap addr length prot zeroPages =>
    have hw : ValidArgs addr length → s.NoWrap addr length := hc.noWrap hs
    obtain ⟨r, s', hgives, hres⟩ := enclaveMmap_gives hs hw 0 prot zeroPages
    have hstep : Call.Step s (.mmap addr length prot zeroPages, r) s' := ⟨hgives.ret, hgives.st⟩
    cases hres with
    | inval hv =>
      refine ⟨_, _, .rejected, hstep, rfl, rfl, ?_⟩
      rw [request, if_neg hv]
      exact .invalid
    | nomem hv hno =>
      refine ⟨_, _, .full, hstep, rfl, rfl, ?_⟩
      rw [request, if_pos hv]
      refine .full fun t ht hrun => ?_
      obtain ⟨t', ht'⟩ := exists_placed ht ((freeRun_iff_notMem ht).mpr hrun) addr
      exact hno t' ht'
    | mapped t hv ht =>
      have hw := hw hv
      refine ⟨_, _, .mapped t, hstep, layout_reserve .., rfl, ?_⟩
      rw [request, if_pos hv, pages_reserve hs hw.2 (ht.fits hs hw hv)]
      rcases placed_zero.mp ht with ⟨hh, rfl⟩ | ⟨hh, hfit⟩
      · rw [if_pos hh.2.1]
        exact .hinted ((freeRun_iff_notMem (ht.fits hs hw hv)).mp hh.2.2)
      · refine .firstFit (fun h hmem hrun => hh ?_) (isFirstFit_iff_notMem.mp hfit)
        split_ifs at hmem with hin
        · obtain rfl := Option.some.inj hmem
          have hfits := (topAt_fits hs hw hv hin).2.1
          exact ⟨ne_zero_of_inMmapRange hs hw hin, hin, (freeRun_iff_notMem (by omega)).mpr hrun⟩
        · exact absurd hmem (by simp)
  | munmap addr length =>
    have hw : ValidArgs addr length → s.NoWrap addr length := hc.noWrap hs
    obtain ⟨r, s', hgives, hres⟩ := enclaveMunmap_gives hs hw
    have hstep : Call.Step s (.munmap addr length, r) s' := ⟨hgives.ret, hgives.st⟩
    cases hres with
    | inval hv =>
      refine ⟨_, _, .rejected, hstep, rfl, rfl, ?_⟩
      rw [request, if_neg hv]
      exact .invalid
    | unmapped hv hin =>
      refine ⟨_, _, .unmapped, hstep, layout_release .., rfl, ?_⟩
      rw [request, if_pos ⟨hv, hin⟩, pages_release]
      exact .unmap

section Runs

variable (s : Mman)

abbrev FitStep : Mman → Call × Word → Mman → Prop :=
  Guarded Call.Step fun _ a => a.1.Fits s

variable {s} (hs : s.Laid)

include hs

theorem exists_fitStep (t : Mman) (c : Call) (ht : t.layout = s.layout) (hc : c.Fits s) :
    ∃ a t', Prod.fst a = c ∧ FitStep s t a t' ∧ t'.layout = s.layout := by
  obtain ⟨r, t', -, hstep, ht', -, -⟩ := exists_pageStep (hs.congr ht) ((fits_congr ht c).mpr hc)
  exact ⟨(c, r), t', rfl, ⟨hc, hstep⟩, ht'.trans ht⟩

theorem fitStep_sim (t : Mman) (a : Call × Word) (t' : Mman) (A : Set ℕ)
    (hR : t.layout = s.layout ∧ t.pages = A) (hstep : FitStep s t a t') :
    ∃ b A', s.Matches a b ∧ PageStep s.numPages A b A' ∧ t'.layout = s.layout ∧ t'.pages = A' := by
  obtain ⟨ht, rfl⟩ := hR
  obtain ⟨r, u, x, hstep', hu, hr, hpage⟩ :=
    exists_pageStep (hs.congr ht) ((fits_congr ht a.1).mpr hstep.1)
  -- the call determines its step
  obtain rfl : t' = u := hstep.2.2.symm.trans hstep'.2
  obtain rfl : a.2 = r := Option.some.inj (hstep.2.1.symm.trans hstep'.1)
  rw [numPages_congr ht, request_congr ht] at hpage
  rw [value_congr ht] at hr
  exact ⟨_, _, ⟨rfl, hr⟩, hpage, hu.trans ht, rfl⟩

end Runs

end Mman

/-- **After `enclave_mman_init` the allocator refines a set of pages.** Every sequence of calls that
fit the heap is answered, and the answers are those of the abstract allocator. -/
theorem calls_refine {base numPages : Word} (h : HeapOk base numPages) (s₀ : Mman) (files : CInt)
    (calls : List Call) (hc : ∀ c ∈ calls, c.Fits (s₀.enclaveMmanInit base numPages files)) :
    ∃ l s', l.map Prod.fst = calls ∧ Run Call.Step (s₀.enclaveMmanInit base numPages files) l s' ∧
      ∃ l', List.Forall₂ (s₀.enclaveMmanInit base numPages files).Matches l l' ∧
        Run (PageStep (s₀.enclaveMmanInit base numPages files).numPages) ∅ l' s'.pages := by
  set s := s₀.enclaveMmanInit base numPages files with hsdef
  have hs : s.Laid := h.laid_init s₀ files
  have hempty : s.pages = ∅ := pages_eq rfl (fun i hi => hi.elim) fun i hi => by
    rw [(h.bits_init s₀ files hi).1]
    simp
  obtain ⟨l, s', hl, hrun⟩ := Run.total (exists_fitStep hs) rfl hc
  obtain ⟨l', A', hmatch, hrun', -, rfl⟩ := hrun.sim (fitStep_sim hs) ⟨rfl, hempty⟩
  exact ⟨l, s', hl, hrun.mono fun _ _ _ hstep => hstep.2, l', hmatch, hrun'⟩

theorem calls_refine_sixteen : ∃ l s', l.map Prod.fst = [.mmap 0 0x3000 3 1, .mmap 0x108000 0x1000 3 1,
        .munmap 0x108000 0x1000] ∧ Run Call.Step sixteen l s' ∧
      ∃ l', List.Forall₂ sixteen.Matches l l' ∧ Run (PageStep sixteen.numPages) ∅ l' s'.pages := by
  refine calls_refine heapOk_sixteen unset 0 _ fun c hc => ?_
  simp only [List.mem_cons, List.not_mem_nil, or_false] at hc
  rcases hc with rfl | rfl | rfl <;> decide

/-- A hint whose end wraps around passes the range test, and the count of the set bits of its run
never ends, whatever the number of rounds, although the first two pages are free. -/
theorem enclaveMmap_hint_stuck : (0x2000 : Word).toNat ≤ 4096 * sixteen.numPages ∧
      IsFirstFit sixteen.free sixteen.numPages (pageCount 0x2000) 0 ∧
      (∀ r s', ¬ Call.Step sixteen (.mmap 0xfffffffffffff000 0x2000 3 1, r) s') ∧
      ∀ fuel, countLoop sixteen.words 0 sixteen.mmapNumPages (sixteen.indexTop 0xfffffffffffff000 2) 2 fuel
        ((findNextBit sixteen.words 0 sixteen.mmapNumPages
          (sixteen.indexTop 0xfffffffffffff000 2)).setWidth 32) 0 = none := by
  refine ⟨by decide, ⟨by decide, fun j _ hj => ?_, by omega⟩, fun r s' h => ?_, fun fuel => ?_⟩
  · have : j < 2 := hj
    exact (heapOk_sixteen.bits_init unset 0 (lt_trans this (by decide))).1
  · have hnone : (Call.exec (.mmap 0xfffffffffffff000 0x2000 3 1) sixteen).ret = none := by
      decide
    rw [h.1] at hnone
    exact Option.some_ne_none _ hnone
  · have hstart : findNextBit sixteen.words 0 sixteen.mmapNumPages
        (sixteen.indexTop 0xfffffffffffff000 2) = sixteen.mmapNumPages := by decide
    rw [hstart]
    exact countLoop_stuck sixteen.words 0 (by decide) (by decide) fuel 0

end SgxLkl
