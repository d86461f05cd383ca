import SgxLkl.Lib.Lts
import SgxLkl.Mem.Spec

/-!
# Histories of the memory manager

`MemOp` are the calls of the memory manager, and writes of the application. `MemOp.Step` is one
operation that returns, a history is a run of them.

* **`laid_of_run`**: in every state of every history after `enclave_mman_init` the heap is laid out
  as it was at first.
-/

namespace SgxLkl

open Mman

inductive MemOp
  | mmap (addr length : Word) (mmapFixed prot zeroPages : CInt)
  | munmap (addr length : Word)
  | mremap (oldAddr oldLength newAddr newLength : Word) (mremapFixed : CInt)
  | write (addr : Word) (b : Byte)

namespace MemOp

/-- A write of the application is one byte of a `memset`. -/
def exec : MemOp → Mman → Outcome Word
  | mmap addr length mmapFixed prot zeroPages => enclaveMmap addr length mmapFixed prot zeroPages
  | munmap addr length => enclaveMunmap addr length
  | mremap oldAddr oldLength newAddr newLength mremapFixed =>
    enclaveMremap oldAddr oldLength newAddr newLength mremapFixed
  | write addr b => fun s => ⟨some 0, s.memset addr b 1, []⟩

def Step (s : Mman) (o : MemOp) (s' : Mman) : Prop :=
  (o.exec s).ret.isSome = true ∧ (o.exec s).st = s'

end MemOp

/-! ## The layout never changes -/

section Layout

variable {s : Mman}

theorem layout_bind {α β : Type} {x : Outcome α} {f : α → Mman → Outcome β}
    (hx : x.st.layout = s.layout) (hf : ∀ a, (f a x.st).st.layout = x.st.layout) :
    (x.bind f).st.layout = s.layout := by
  rw [Outcome.bind]
  cases x.ret with
  | none => exact hx
  | some a => exact (hf a).trans hx

theorem layout_mmapAt (addr length pages : Word) (mmapFixed : CInt) :
    (mmapAt addr length pages mmapFixed s).st.layout = s.layout := by
  simp only [mmapAt]
  split_ifs
  · rfl
  · rfl
  · cases bitmapCountSetBits s.words 0 s.mmapNumPages (s.indexTop addr pages) pages with
    | none => rfl
    | some count => dsimp only; split_ifs <;> rfl
  · rfl

theorem layout_mmapFind (pages : Word) (r : Word × Word) : (mmapFind pages r s).st.layout = s.layout := by
  simp only [mmapFind]
  split_ifs
  · cases bitmapFindNextZeroArea s.words 0 s.mmapNumPages 0 pages with
    | none => rfl
    | some top => dsimp only; split_ifs <;> rfl
  · rfl

theorem layout_mmapCommit (length pages : Word) (prot zeroPages : CInt) (r : Word × Word) :
    (mmapCommit length pages prot zeroPages r s).st.layout = s.layout := by
  rw [mmapCommit]
  split_ifs
  · refine layout_bind ?_ fun fresh => layout_mmapFinish ..
    rw [onlyFresh]
    split_ifs <;> rfl
  · rfl

theorem layout_enclaveMmap (addr length : Word) (mmapFixed prot zeroPages : CInt) :
    (enclaveMmap addr length mmapFixed prot zeroPages s).st.layout = s.layout := by
  simp only [enclaveMmap]
  split_ifs
  · rfl
  · exact layout_bind (layout_bind (layout_mmapAt ..) fun _ => layout_mmapFind ..)
      fun _ => layout_mmapCommit ..

theorem layout_enclaveMunmap (addr length : Word) : (enclaveMunmap addr length s).st.layout = s.layout := by
  simp only [enclaveMunmap]
  split_ifs
  · rfl
  · cases bitmapCountSetBits s.words 0 s.mmapNumPages
      (s.indexTop addr (divRoundup length pageSize)) (divRoundup length pageSize) <;> rfl

theorem layout_enclaveMremap (oldAddr oldLength newAddr newLength : Word) (mremapFixed : CInt) :
    (enclaveMremap oldAddr oldLength newAddr newLength mremapFixed s).st.layout = s.layout := by
  rw [enclaveMremap]
  by_cases hf : mremapFixed ≠ 0
  · rw [if_pos hf]
  · rw [if_neg hf]
    refine layout_bind (layout_enclaveMmap ..) fun ret => ?_
    by_cases hr : 0 ≤ ret.toInt
    · rw [if_pos hr]
      exact layout_bind (layout_enclaveMunmap ..) fun _ => rfl
    · rw [if_neg hr]

theorem layout_exec (o : MemOp) : (o.exec s).st.layout = s.layout := by
  cases o with
  | mmap => exact layout_enclaveMmap ..
  | munmap => exact layout_enclaveMunmap ..
  | mremap => exact layout_enclaveMremap ..
  | write => rfl

theorem layout_of_run {s' : Mman} {l : List MemOp} (h : Run MemOp.Step s l s') : s'.layout = s.layout :=
  h.inv (I := fun t => t.layout = s.layout)
    (fun t o t' ht hstep => by rw [← hstep.2, layout_exec, ht]) rfl

end Layout

theorem laid_of_run {base numPages : Word} (h : HeapOk base numPages) {s₀ s : Mman} {files : CInt}
    {l : List MemOp} (hrun : Run MemOp.Step (s₀.enclaveMmanInit base numPages files) l s) :
    s.Laid ∧ s.layout = (s₀.enclaveMmanInit base numPages files).layout :=
  ⟨(h.laid_init s₀ files).congr (layout_of_run hrun), layout_of_run hrun⟩

/-! ## Running a list of operations -/

def execAll : List MemOp → Mman → Mman
  | [], s => s
  | o :: l, s => execAll l (o.exec s).st

/-- Every operation of the list is admissible and returns. -/
def Returns (ok : Mman → MemOp → Prop) : List MemOp → Mman → Prop
  | [], _ => True
  | o :: l, s => ok s o ∧ (o.exec s).ret.isSome = true ∧ Returns ok l (o.exec s).st

instance decidableReturns (ok : Mman → MemOp → Prop) [∀ s o, Decidable (ok s o)] :
    (l : List MemOp) → (s : Mman) → Decidable (Returns ok l s)
  | [], _ => isTrue trivial
  | o :: l, s =>
    have := decidableReturns ok l (o.exec s).st
    inferInstanceAs (Decidable (_ ∧ _ ∧ Returns ok l (o.exec s).st))

theorem Returns.run {ok : Mman → MemOp → Prop} {l : List MemOp} {s : Mman} (h : Returns ok l s) :
    Run (Guarded MemOp.Step ok) s l (execAll l s) := by
  induction l generalizing s with
  | nil => exact .nil s
  | cons o l ih => exact .cons ⟨h.1, h.2.1, rfl⟩ (ih h.2.2)

end SgxLkl
