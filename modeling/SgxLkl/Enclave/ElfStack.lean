import SgxLkl.Enclave.SharedMemory

/-!
# The stack of the program

`_prepare_elf_stack` of `enclave_oe.c` picks the variables that the configuration imports from the
host's environment, and lays arguments, environment and auxiliary vector out as a program expects them.

* **`prepareElfStack_correct_iff`**: if no name is imported twice, and only then, the arrays hold the arguments, the
  environment with the imported variables behind it, and the auxiliary vector.
* **`prepareElfStack_overflow`**: two host variables of one name are too many.
-/

namespace SgxLkl

open List Option

/-! ## The code -/

/-- How `_strncmp` compares two characters; `char` is signed. -/
def compareChar (x y : Byte) : ℤ := if x = y then 0 else if x.slt y then -1 else 1

def strncmpLoop (x y : CString Byte) : ℕ → ℕ → ℤ
  | 0, i => compareChar (x.get i) (y.get i)
  | n + 1, i =>
    if x.get i ≠ 0 ∧ y.get i ≠ 0 ∧ x.get i = y.get i then strncmpLoop x y n (i + 1)
    else compareChar (x.get i) (y.get i)

def strncmp (x y : CString Byte) (n : ℕ) : ℤ := if n = 0 then 0 else strncmpLoop x y (n - 1) 0

/-- The configuration that is read here; `hwMode` is not `sgxlkl_in_sw_debug_mode`. -/
structure ProcessConfig where
  args : List (CString Byte)
  env : List (CString Byte)
  hostImportEnv : List (CString Byte)
  hwMode : Bool

/-- The loop over the host's environment for one name; `imported` is `imported_env`. -/
def importName (name : CString Byte) : List (Option (CString Byte)) → List (Option (CString Byte)) → ℕ →
      Option (List (Option (CString Byte)) × ℕ)
  | some p :: env, imported, num =>
    if strncmp name p name.length = 0 ∧ p.get name.length = 0x3d then
      (store imported num (some p)).bind fun imported' => importName name env imported' (num + 1)
    else importName name env imported num
  -- `*p != NULL` ends the loop
  | _, imported, num => some (imported, num)

def importNames (env : List (Option (CString Byte))) :
    List (CString Byte) → List (Option (CString Byte)) → ℕ → Option (List (Option (CString Byte)) × ℕ)
  | [], imported, num => some (imported, num)
  | name :: names, imported, num =>
    (importName name env imported num).bind fun r => importNames env names r.1 r.2

def importEnv (cfg : ProcessConfig) (env : Option (List (Option (CString Byte)))) : Option (List (CString Byte)) :=
  match env with
  | none => some []
  | some env =>
    if 0 < cfg.hostImportEnv.length then
      (importNames env cfg.hostImportEnv (List.replicate cfg.hostImportEnv.length none) 0).bind
        fun r => (r.1.take r.2).mapM id
    else some []

/-- A word of the arrays: a number, `NULL` included, or a pointer into `stack->data`. -/
inductive Val
  | int (n : Word)
  | ptr (offset : ℕ)
  deriving DecidableEq

abbrev Val.null : Val := .int 0

/-- `elf64_stack_t`; `argv`, `envp` and `auxv` are places in `out`. -/
structure ElfStack where
  data : List Byte
  out : List Val
  argc : ℕ
  argv : ℕ
  envp : ℕ
  auxv : ℕ

/-- `data`, `out`, `j` and `buf_ptr` while the strings are added. -/
structure Fill where
  data : List Byte
  out : List Val
  j : ℕ
  bufPtr : ℕ

/-- `ADD_STRING` for a row of strings. -/
def addStrings : List (CString Byte) → Fill → Option Fill
  | [], f => some f
  | s :: ss, f =>
    (storeAll f.data f.bufPtr s.cells).bind fun data =>
      (store f.out f.j (.ptr f.bufPtr)).bind fun out =>
        addStrings ss ⟨data, out, f.j + 1, f.bufPtr + s.cells.length⟩

def addNull (f : Fill) : Option Fill :=
  (store f.out f.j .null).map fun out => { f with out := out, j := f.j + 1 }

def auxvEntries : ℕ := 13

/-- `at_platform`, which is `"x86_64"`. -/
def atPlatform : CString Byte := ⟨[0x78, 0x38, 0x36, 0x5f, 0x36, 0x34], by decide⟩

def wordBytes (w : Word) : List Byte := (List.range 8).map fun i => w.extractLsb' (8 * i) 8

variable (atHwMode : { w : Word // w ≠ 0 })

/-- The auxiliary vector that `init_auxv` writes; the random bytes are at `bufPtr`, the name of the
platform is behind them. `AT_HW_MODE` is a number of the C library other than `AT_NULL`. -/
def auxvWords (hwMode : Bool) (bufPtr : ℕ) (pn : Val) : List Val :=
  [.int 17, .int 100, .int 31, pn, .int 16, .int 0, .int 14, .int 0, .int 12, .int 0, .int 13, .int 0,
    .int 6, .int 0, .int 15, .ptr (bufPtr + 16), .int 23, .int 0, .int 11, .int 0, .int 25, .ptr bufPtr,
    .int atHwMode, .int (if hwMode then 1 else 0), .int 0, .int 0]

/-- `init_auxv`, with the two words of `rdrand`. -/
def initAuxv (hwMode : Bool) (rd : Word × Word) (pn : Val)
    (f : Fill) : Option Fill :=
  (storeAll f.data f.bufPtr (wordBytes rd.1 ++ wordBytes rd.2 ++ atPlatform.cells)).bind fun data =>
    (storeAll f.out f.j (auxvWords atHwMode hwMode f.bufPtr pn)).map fun out =>
      { f with data := data, out := out }

def numBytes (cfg : ProcessConfig) (imported : List (CString Byte)) : ℕ :=
  (cfg.args.map fun s => s.length + 1).sum + (cfg.env.map fun s => s.length + 1).sum +
    (imported.map fun s => s.length + 1).sum + (atPlatform.length + 1) + 16

def numPtrs (cfg : ProcessConfig) (imported : List (CString Byte)) : ℕ :=
  (cfg.args.length + 1) + (cfg.env.length + 1) + (imported.length + 1) + 2 * auxvEntries

def sizesHold (cfg : ProcessConfig) (imported : List (CString Byte))
    (f : Fill) : Bool :=
  decide (f.j + 1 = numPtrs cfg imported ∧ f.out[f.j]? = some .null ∧
    f.out[f.j - 4]? = some (.int atHwMode))

def buildStack (cfg : ProcessConfig) (rd : Word × Word)
    (imported : List (CString Byte)) : Option ElfStack := do
  let f ← addStrings cfg.args
    ⟨List.replicate (numBytes cfg imported) 0, List.replicate (numPtrs cfg imported) .null, 0, 0⟩
  let argc := f.j
  let f ← addNull f
  let envp := f.j
  let f ← addStrings cfg.env f
  let f ← addStrings imported f
  let f ← addNull f
  let auxv := f.j
  let pn ← f.out[0]?
  let f ← initAuxv atHwMode cfg.hwMode rd pn f
  if sizesHold atHwMode cfg imported { f with j := f.j + auxvEntries * 2 } then
    some ⟨f.data, f.out, argc, 0, envp, auxv⟩
  else none

def prepareElfStack (cfg : ProcessConfig) (shm : SharedMemory)
    (rd : Word × Word) : Option ElfStack :=
  (importEnv cfg shm.env).bind (buildStack atHwMode cfg rd)

/-! ## How a program reads the stack -/

def readPtrs (data : List Byte) : List Val → Option (List (CString Byte))
  | .ptr offset :: vs => do
    let s ← readString data offset
    let ss ← readPtrs data vs
    some (s :: ss)
  | .int n :: _ => if n = 0 then some [] else none
  | [] => none

def readAuxv : List Val → Option (List (Word × Val))
  | .int n :: v :: vs => if n = 0 then some [] else (readAuxv vs).map ((n, v) :: ·)
  | _ => none

/-! ## The imported variables -/

/-- `p` is a variable of this name. -/
def Imports (name p : CString Byte) : Prop := name.chars ++ [0x3d] <+: p.chars

instance (name p : CString Byte) : Decidable (Imports name p) := inferInstanceAs (Decidable (_ <+: _))

theorem compareChar_eq_zero {x y : Byte} : compareChar x y = 0 ↔ x = y := by
  unfold compareChar
  split_ifs with h h' <;> simp [h]

theorem strncmpLoop_eq_zero {x y : CString Byte} {n i : ℕ} (h : i + n < x.length) :
    strncmpLoop x y n i = 0 ↔ ∀ k, i ≤ k → k ≤ i + n → x.get k = y.get k := by
  induction n generalizing i with
  | zero =>
    rw [strncmpLoop, compareChar_eq_zero]
    constructor
    · intro he k hle hge
      rwa [Nat.le_antisymm hge hle]
    · exact fun hall => hall i le_rfl le_rfl
  | succ n ih =>
    have hne := x.get_ne_zero (i := i) (by omega)
    unfold strncmpLoop
    split_ifs with hloop
    · rw [ih (by omega)]
      constructor
      · intro hall k hle hge
        rcases hle.eq_or_lt with rfl | hlt
        · exact hloop.2.2
        · exact hall k hlt (by omega)
      · exact fun hall k hle hge => hall k (by omega) (by omega)
    · rw [compareChar_eq_zero]
      refine iff_of_false (fun he => hloop ⟨hne, he ▸ hne, he⟩) fun hall => ?_
      have he := hall i le_rfl (by omega)
      exact hloop ⟨hne, he ▸ hne, he⟩

theorem imports_iff {name p : CString Byte} :
    strncmp name p name.length = 0 ∧ p.get name.length = 0x3d ↔ Imports name p := by
  have hnul : (0 : Byte) ∉ name.chars ++ [0x3d] := by
    rw [mem_append, not_or]
    exact ⟨name.nul, by decide⟩
  have hend : (name.chars ++ [0x3d]).getD name.length 0 = (0x3d : Byte) := by simp [CString.length]
  have hstrncmp : strncmp name p name.length = 0 ↔ ∀ k < name.length, name.get k = p.get k := by
    unfold strncmp
    split_ifs with h
    · simp [h]
    · rw [strncmpLoop_eq_zero (by omega)]
      exact ⟨fun hall k hk => hall k (Nat.zero_le k) (by omega), fun hall k _ hk => hall k (by omega)⟩
  rw [hstrncmp, Imports, prefix_iff_getD hnul]
  constructor
  · rintro ⟨hall, heq⟩ k hk
    rw [length_append, length_singleton] at hk
    rcases Nat.lt_succ_iff_lt_or_eq.mp hk with hlt | rfl
    · rw [getD_append _ _ _ _ hlt]
      exact (hall k hlt).symm
    · exact heq.trans hend.symm
  · intro hall
    constructor
    · intro k hk
      have := hall k (by simp only [length_append]; exact Nat.lt_add_right _ hk)
      rw [getD_append _ _ _ _ hk] at this
      exact this.symm
    · exact (hall name.length (by simp [CString.length])).trans hend

/-- The variables that are stored for the names, in the order of the loops. -/
def matching (names env : List (CString Byte)) : List (CString Byte) :=
  names.flatMap fun name => env.filter (Imports name)

theorem importName_eq (name : CString Byte) (env : List (CString Byte))
    (rest imported : List (Option (CString Byte))) (num : ℕ) :
    importName name (env.map some ++ none :: rest) imported num =
      (storeAll imported num ((env.filter (Imports name)).map some)).map
        fun r => (r, num + (env.filter (Imports name)).length) := by
  induction env generalizing imported num with
  | nil => rfl
  | cons p env ih =>
    rw [map_cons, cons_append, importName]
    by_cases h : Imports name p
    · rw [if_pos (imports_iff.mpr h), filter_cons_of_pos (by simpa using h), map_cons, storeAll]
      cases store imported num (some p) with
      | none => rfl
      | some b =>
        simp only [bind_some, ih, length_cons]
        congr 1
        funext r
        rw [Nat.add_assoc, Nat.add_comm 1]
    · rw [if_neg (mt imports_iff.mp h), filter_cons_of_neg (by simpa using h), ih]

theorem importNames_eq (names env : List (CString Byte)) (rest imported : List (Option (CString Byte))) (num : ℕ) :
    importNames (env.map some ++ none :: rest) names imported num =
      (storeAll imported num ((matching names env).map some)).map
        fun r => (r, num + (matching names env).length) := by
  induction names generalizing imported num with
  | nil => rfl
  | cons name names ih =>
    rw [importNames, importName_eq, matching, flatMap_cons, map_append, storeAll_concat]
    cases storeAll imported num ((env.filter (Imports name)).map some) with
    | none => rfl
    | some b =>
      simp only [map_some, bind_some, ih, length_map, length_append, matching, Nat.add_assoc]

theorem countEnv_eq (env : List (CString Byte)) (n : ℕ) : countEnv env n = n + env.length + 1 := by
  induction env generalizing n with
  | nil => rfl
  | cons s env ih =>
    rw [countEnv, ih, length_cons]
    omega

theorem copyEnv_eq (env : List (CString Byte)) : copyEnv env = env.map some ++ [none, none] := by
  have hmap : (range env.length).map (fun i => env[i]?) = env.map some := by
    apply ext_getElem
    · simp
    · intro i h₁ h₂
      simp
  rw [copyEnv, countEnv_eq, Nat.zero_add, range_succ, map_append, hmap]
  simp

theorem mapM_id_map_some (l : List (CString Byte)) : (l.map some).mapM id = some l := by
  induction l with
  | nil => rfl
  | cons s l ih => simp [mapM_cons, ih]

/-- **Imports.** The strings are stored if there is room for all of them. -/
theorem importEnv_eq (cfg : ProcessConfig) (env : List (CString Byte)) : importEnv cfg (some (copyEnv env)) =
      if (matching cfg.hostImportEnv env).length ≤ cfg.hostImportEnv.length then
        some (matching cfg.hostImportEnv env)
      else none := by
  unfold importEnv
  split_ifs with hpos hfit hfit
  · have hle : ((matching cfg.hostImportEnv env).map some).length ≤
        (replicate cfg.hostImportEnv.length (none : Option (CString Byte))).length := by
      simpa using hfit
    have hstore := storeAll_append (l := []) hle
    rw [nil_append, length_nil, nil_append] at hstore
    rw [copyEnv_eq]
    dsimp only
    rw [importNames_eq, hstore]
    simp only [map_some, bind_some, Nat.zero_add]
    rw [take_left' (by simp), mapM_id_map_some]
  · have hlt : (replicate cfg.hostImportEnv.length (none : Option (CString Byte))).length <
        ((matching cfg.hostImportEnv env).map some).length := by
      simpa using hfit
    have hstore := storeAll_eq_none (l := []) hlt
    rw [nil_append, length_nil] at hstore
    rw [copyEnv_eq]
    dsimp only
    rw [importNames_eq, hstore]
    rfl
  · rw [length_pos_iff, not_not] at hpos
    simp [matching, hpos]
  · rw [length_pos_iff, not_not] at hpos
    simp [matching, hpos] at hfit

/-! ## The arrays -/

/-- The strings as they are stored one behind the other. -/
def layout (ss : List (CString Byte)) : List Byte := ss.flatMap CString.cells

def pointers : ℕ → List (CString Byte) → List Val
  | _, [] => []
  | offset, s :: ss => .ptr offset :: pointers (offset + s.cells.length) ss

theorem layout_cons (s : CString Byte) (ss : List (CString Byte)) : layout (s :: ss) = s.cells ++ layout ss := rfl

theorem layout_append (ss ts : List (CString Byte)) : layout (ss ++ ts) = layout ss ++ layout ts :=
  flatMap_append

theorem length_layout (ss : List (CString Byte)) : (layout ss).length = (ss.map fun s => s.length + 1).sum := by
  simp [layout, length_flatMap, CString.length_cells]

theorem length_pointers (offset : ℕ) (ss : List (CString Byte)) : (pointers offset ss).length = ss.length := by
  induction ss generalizing offset with
  | nil => rfl
  | cons s ss ih => rw [pointers, length_cons, ih, length_cons]

theorem pointers_append (offset : ℕ) (ss ts : List (CString Byte)) :
    pointers offset (ss ++ ts) = pointers offset ss ++ pointers (offset + (layout ss).length) ts := by
  induction ss generalizing offset with
  | nil => rfl
  | cons s ss ih =>
    rw [cons_append, pointers, pointers, ih, cons_append, layout_cons, length_append, Nat.add_assoc]

/-- The blocks when `d` and `o` are in use and `r` and `q` are left. -/
def filled (d r : List Byte) (o q : List Val) : Fill := ⟨d ++ r, o ++ q, o.length, d.length⟩

variable {d r : List Byte} {o q : List Val}

theorem addStrings_filled {ss : List (CString Byte)}
    (hr : (layout ss).length ≤ r.length) (hq : ss.length ≤ q.length) :
    addStrings ss (filled d r o q) = some (filled (d ++ layout ss) (r.drop (layout ss).length)
      (o ++ pointers d.length ss) (q.drop ss.length)) := by
  induction ss generalizing d r o q with
  | nil => simp [addStrings, layout, pointers]
  | cons s ss ih =>
    cases q with
    | nil => simp at hq
    | cons v q =>
      rw [layout_cons, length_append] at hr
      have hle : s.cells.length ≤ r.length := by omega
      have hdata := storeAll_append (l := d) hle
      have hih := ih (d := d ++ s.cells) (r := r.drop s.cells.length) (o := o ++ [.ptr d.length]) (q := q)
        (by rw [length_drop]; omega) (by simpa using hq)
      simp only [filled, length_append, length_singleton, append_assoc, singleton_append, drop_drop] at hih
      rw [addStrings]
      simp only [filled, hdata, bind_some, store_append, append_assoc, hih, layout_cons,
        pointers, length_append, length_cons, drop_succ_cons, cons_append]

theorem addNull_filled (hq : 0 < q.length) :
    addNull (filled d r o q) = some (filled d r (o ++ [.null]) q.tail) := by
  cases q with
  | nil => simp at hq
  | cons v q => simp [addNull, filled, store_append]

theorem initAuxv_filled {atHwMode : { w : Word // w ≠ 0 }} {hwMode : Bool} {rd : Word × Word} {pn : Val}
    (hr : 23 ≤ r.length) (hq : 26 ≤ q.length) :
    initAuxv atHwMode hwMode rd pn (filled d r o q) = some
      ⟨d ++ (wordBytes rd.1 ++ wordBytes rd.2 ++ atPlatform.cells) ++ r.drop 23,
        o ++ auxvWords atHwMode hwMode d.length pn ++ q.drop 26, o.length, d.length⟩ := by
  have hbytes : (wordBytes rd.1 ++ wordBytes rd.2 ++ atPlatform.cells).length ≤ r.length := by
    simpa [wordBytes, atPlatform, CString.cells] using hr
  have hwords : (auxvWords atHwMode hwMode d.length pn).length ≤ q.length := hq
  unfold initAuxv filled
  rw [storeAll_append hbytes]
  simp only [bind_some, storeAll_append hwords, map_some]
  rfl

def argv0 (cfg : ProcessConfig) : Val := (pointers 0 cfg.args ++ [Val.null]).headD .null

def elfStack (cfg : ProcessConfig) (rd : Word × Word)
    (imported : List (CString Byte)) : ElfStack where
  data := layout cfg.args ++ layout (cfg.env ++ imported) ++
    (wordBytes rd.1 ++ wordBytes rd.2 ++ atPlatform.cells)
  out := pointers 0 cfg.args ++ .null :: pointers (layout cfg.args).length (cfg.env ++ imported) ++
    .null :: auxvWords atHwMode cfg.hwMode
      ((layout cfg.args).length + (layout (cfg.env ++ imported)).length) (argv0 cfg) ++ [.null]
  argc := cfg.args.length
  argv := 0
  envp := cfg.args.length + 1
  auxv := cfg.args.length + 1 + (cfg.env ++ imported).length + 1

theorem sizesHold_append (cfg : ProcessConfig)
    (imported : List (CString Byte)) (data : List Byte) (bufPtr : ℕ) (o : List Val) {pn : Val} {b : ℕ}
    (h : o.length + 27 = numPtrs cfg imported) :
    sizesHold atHwMode cfg imported ⟨data, o ++ auxvWords atHwMode cfg.hwMode b pn ++ [.null],
      o.length + auxvEntries * 2, bufPtr⟩ = true := by
  have hlen : (auxvWords atHwMode cfg.hwMode b pn).length = 26 := rfl
  refine decide_eq_true ⟨h, ?_, ?_⟩
  · rw [append_assoc, getElem?_append_right (by simp)]
    simp [auxvEntries, hlen]
  · rw [append_assoc, getElem?_append_right (by simp [auxvEntries])]
    rw [show o.length + auxvEntries * 2 - 4 - o.length = 22 by simp [auxvEntries]]
    rfl

theorem buildStack_eq (cfg : ProcessConfig) (rd : Word × Word)
    (imported : List (CString Byte)) :
    buildStack atHwMode cfg rd imported = some (elfStack atHwMode cfg rd imported) := by
  have hbytes : numBytes cfg imported = (layout cfg.args).length + (layout cfg.env).length +
      (layout imported).length + 23 := by
    rw [numBytes, length_layout, length_layout, length_layout, show atPlatform.length = 6 from rfl]
  have hptrs : numPtrs cfg imported = cfg.args.length + cfg.env.length + imported.length + 29 := by
    rw [numPtrs, auxvEntries]
    omega
  -- what is in use and what is left when the auxiliary vector is written
  let d := layout cfg.args ++ layout (cfg.env ++ imported)
  let r : List Byte := replicate 23 0
  let o := pointers 0 cfg.args ++ Val.null :: pointers (layout cfg.args).length (cfg.env ++ imported) ++
    [.null]
  let q := replicate 27 Val.null
  have hd : [] ++ layout cfg.args ++ layout cfg.env ++ layout imported = d := by simp [d, layout_append]
  have ho : [] ++ pointers ([] : List Byte).length cfg.args ++ [Val.null] ++
      pointers ([] ++ layout cfg.args).length cfg.env ++
      pointers ([] ++ layout cfg.args ++ layout cfg.env).length imported ++ [Val.null] = o := by
    simp [o, pointers_append]
  have hr : drop (layout imported).length (drop (layout cfg.env).length
      (drop (layout cfg.args).length (replicate ((layout cfg.args).length +
        (layout cfg.env).length + (layout imported).length + 23) (0 : Byte)))) = r := by
    simp only [drop_replicate, r]
    congr 1
    omega
  have hq : (drop imported.length (drop cfg.env.length (drop cfg.args.length
      (replicate (cfg.args.length + cfg.env.length + imported.length + 29) Val.null)).tail)).tail =
      q := by
    simp only [drop_replicate, tail_replicate, q]
    congr 1
    omega
  unfold buildStack
  rw [show (⟨replicate (numBytes cfg imported) 0, replicate (numPtrs cfg imported) .null, 0, 0⟩
    : Fill) = filled [] (replicate (numBytes cfg imported) 0) []
      (replicate (numPtrs cfg imported) .null) from rfl, hbytes, hptrs]
  rw [addStrings_filled (by simp; omega) (by simp; omega)]
  simp only [bind_eq_bind, bind_some]
  rw [addNull_filled (by simp; omega)]
  simp only [bind_some]
  rw [addStrings_filled (by simp; omega) (by simp; omega)]
  simp only [bind_some]
  rw [addStrings_filled (by simp; omega) (by simp; omega)]
  simp only [bind_some]
  rw [addNull_filled (by simp; omega)]
  simp only [bind_some, hd, ho, hr, hq]
  have hpn : (filled d r o q).out[0]? = some (argv0 cfg) := by
    simp only [filled, o, argv0]
    cases cfg.args with
    | nil => rfl
    | cons s ss => rfl
  rw [hpn, bind_some, initAuxv_filled (by simp [r]) (by simp [q]), bind_some, show q.drop 26 = [Val.null] from rfl]
  dsimp only
  rw [if_pos (sizesHold_append _ _ _ _ _ _ (by simp [o, hptrs, length_pointers]; omega))]
  simp [elfStack, filled, d, o, r, length_pointers]
  omega

/-! ## What a program finds -/

theorem readPtrs_pointers (d r : List Byte) (ss : List (CString Byte)) (vs : List Val) :
    readPtrs (d ++ (layout ss ++ r)) (pointers d.length ss ++ .null :: vs) = some ss := by
  induction ss generalizing d with
  | nil => rfl
  | cons s ss ih =>
    have hrest := ih (d ++ s.cells)
    rw [length_append, append_assoc] at hrest
    rw [layout_cons, append_assoc, pointers, cons_append, readPtrs, readString_append, hrest]
    rfl

def auxiliary (hwMode : Bool) (random platform : ℕ) (execfn : Val) :
    List (Word × Val) :=
  [(17, .int 100), (31, execfn), (16, .int 0), (14, .int 0), (12, .int 0), (13, .int 0), (6, .int 0),
    (15, .ptr platform), (23, .int 0), (11, .int 0), (25, .ptr random),
    (atHwMode, .int (if hwMode then 1 else 0))]

theorem readAuxv_auxvWords (hwMode : Bool) (b : ℕ) (pn : Val) (vs : List Val) :
    readAuxv (auxvWords atHwMode hwMode b pn ++ vs) =
      some (auxiliary atHwMode hwMode b (b + 16) pn) := by
  have hne : ¬ (atHwMode : Word) = 0#64 := atHwMode.2
  simp [auxvWords, auxiliary, readAuxv, hne]

theorem drop_append_cons (l vs : List Val) (v : Val) : (l ++ v :: vs).drop (l.length + 1) = vs := by
  simp

/-- What a program that is started with this stack finds in it. -/
structure Decodes (cfg : ProcessConfig) (rd : Word × Word)
    (env : List (CString Byte)) (st : ElfStack) : Prop where
  argc : st.argc = cfg.args.length
  argv : readPtrs st.data (st.out.drop st.argv) = some cfg.args
  envp : readPtrs st.data (st.out.drop st.envp) = some env
  auxv : ∃ random platform,
    readAuxv (st.out.drop st.auxv) = some (auxiliary atHwMode cfg.hwMode random platform (argv0 cfg)) ∧
    (st.data.drop random).take 16 = wordBytes rd.1 ++ wordBytes rd.2 ∧
    readString st.data platform = some atPlatform

theorem decodes_elfStack (cfg : ProcessConfig) (rd : Word × Word)
    (imported : List (CString Byte)) :
    Decodes atHwMode cfg rd (cfg.env ++ imported) (elfStack atHwMode cfg rd imported) := by
  have hrandom : (wordBytes rd.1 ++ wordBytes rd.2).length = 16 := by simp [wordBytes]
  have hdata : (elfStack atHwMode cfg rd imported).data = layout cfg.args ++
      (layout (cfg.env ++ imported) ++ (wordBytes rd.1 ++ wordBytes rd.2 ++ atPlatform.cells)) := by
    simp [elfStack]
  have hout : (elfStack atHwMode cfg rd imported).out = pointers 0 cfg.args ++
      .null :: (pointers (layout cfg.args).length (cfg.env ++ imported) ++
        .null :: (auxvWords atHwMode cfg.hwMode (layout cfg.args ++ layout (cfg.env ++ imported)).length
          (argv0 cfg) ++ [.null])) := by
    simp [elfStack]
  have henvp : (elfStack atHwMode cfg rd imported).out.drop (cfg.args.length + 1) =
      pointers (layout cfg.args).length (cfg.env ++ imported) ++
        .null :: (auxvWords atHwMode cfg.hwMode (layout cfg.args ++ layout (cfg.env ++ imported)).length
          (argv0 cfg) ++ [.null]) := by
    rw [hout, ← length_pointers 0 cfg.args, drop_append_cons]
  have hauxv : (elfStack atHwMode cfg rd imported).out.drop (cfg.args.length + 1 +
      (cfg.env ++ imported).length + 1) = auxvWords atHwMode cfg.hwMode
        (layout cfg.args ++ layout (cfg.env ++ imported)).length (argv0 cfg) ++ [.null] := by
    rw [Nat.add_assoc _ (cfg.env ++ imported).length 1, ← drop_drop, henvp,
      ← length_pointers (layout cfg.args).length (cfg.env ++ imported), drop_append_cons]
  refine ⟨rfl, ?_, ?_, (layout cfg.args ++ layout (cfg.env ++ imported)).length,
    (layout cfg.args ++ layout (cfg.env ++ imported)).length + 16, ?_, ?_, ?_⟩
  · rw [hdata, hout]
    exact readPtrs_pointers [] _ _ _
  · exact (congrArg _ henvp).trans (hdata ▸ readPtrs_pointers _ _ _ _)
  · exact (congrArg _ hauxv).trans (readAuxv_auxvWords _ _ _ _ _)
  · rw [hdata, ← append_assoc, drop_left, ← hrandom, take_left]
  · rw [hdata, ← hrandom, ← length_append, ← append_assoc, ← append_assoc, ← append_nil atPlatform.cells]
    exact readString_append _ _ _

def imported (names env : List (CString Byte)) : List (CString Byte) :=
  names.filterMap fun name => env.find? (Imports name)

theorem filter_eq_toList {l : List (CString Byte)} {P : CString Byte → Bool}
    (h : (l.filter P).length ≤ 1) : l.filter P = (l.find? P).toList := by
  rw [← head?_filter]
  match hf : l.filter P with
  | [] => rfl
  | [_] => rfl
  | _ :: _ :: _ =>
    rw [hf] at h
    simp at h

theorem matching_eq_imported {names env : List (CString Byte)}
    (h : ∀ name ∈ names, (env.filter (Imports name)).length ≤ 1) : matching names env = imported names env := by
  induction names with
  | nil => rfl
  | cons name names ih =>
    have hname := filter_eq_toList (h name mem_cons_self)
    have hrest := ih fun n hn => h n (mem_cons_of_mem _ hn)
    rw [matching, flatMap_cons, hname, ← matching, hrest]
    unfold imported
    rw [filterMap_cons]
    cases env.find? (Imports name) <;> rfl

theorem length_filter_pos {l : List (CString Byte)} {P : CString Byte → Bool} {s : CString Byte}
    (h : l.find? P = some s) : 0 < (l.filter P).length :=
  length_pos_of_mem (mem_filter.mpr ⟨mem_of_find?_eq_some h, find?_some h⟩)

theorem length_imported_le (names env : List (CString Byte)) :
    (imported names env).length ≤ (matching names env).length := by
  induction names with
  | nil => exact le_rfl
  | cons name names ih =>
    rw [imported, filterMap_cons, matching, flatMap_cons, length_append, ← matching]
    cases hfind : env.find? (Imports name) with
    | none => exact ih.trans (Nat.le_add_left _ _)
    | some s =>
      have hpos : 0 < (env.filter (Imports name)).length := length_filter_pos hfind
      have ih : (filterMap (fun name => env.find? (Imports name)) names).length ≤ _ := ih
      rw [length_cons]
      omega

/-- One string for each name is too few for a name that occurs twice. -/
theorem filter_le_one_of_matching {names env : List (CString Byte)} (h : matching names env = imported names env) :
    ∀ name ∈ names, (env.filter (Imports name)).length ≤ 1 := by
  have hle : (matching names env).length ≤ (imported names env).length := (congrArg length h).le
  clear h
  induction names with
  | nil => exact fun _ hn => absurd hn not_mem_nil
  | cons name names ih =>
    have htail : (imported names env).length ≤ _ := length_imported_le names env
    rw [imported, filterMap_cons, matching, flatMap_cons, length_append, ← matching] at hle
    have hone : (env.filter (Imports name)).length ≤ 1 ∧
        (matching names env).length ≤ (imported names env).length := by
      cases hfind : env.find? (Imports name) with
      | none =>
        rw [hfind] at hle
        have hle : _ ≤ (imported names env).length := hle
        omega
      | some s =>
        have hpos : 0 < (env.filter (Imports name)).length := length_filter_pos hfind
        rw [hfind] at hle
        have hle : _ ≤ (imported names env).length + 1 := hle
        omega
    rintro n (_ | ⟨_, hn⟩)
    · exact hone.1
    · exact ih hone.2 n hn

/-- One string is stored for each name that the host has. -/
theorem importEnv_eq_imported_iff (cfg : ProcessConfig) (io : IoConfig) (host : HostSharedMemory) :
    importEnv cfg (copySharedMemory io host).env = some (imported cfg.hostImportEnv (host.env.getD [])) ↔
      ∀ name ∈ cfg.hostImportEnv, ((host.env.getD []).filter (Imports name)).length ≤ 1 := by
  cases henv : host.env with
  | none =>
    simp only [copySharedMemory, henv, map_none, importEnv, imported, getD_none, find?_nil, filterMap_none,
      filter_nil, length_nil, Nat.zero_le, implies_true]
  | some env =>
    have hlen : (imported cfg.hostImportEnv env).length ≤ cfg.hostImportEnv.length := length_filterMap_le _ _
    rw [show (copySharedMemory io host).env = some (copyEnv env) by simp [copySharedMemory, henv], importEnv_eq,
      getD_some]
    constructor
    · intro h
      split_ifs at h
      exact filter_le_one_of_matching (some.inj h)
    · intro h
      rw [matching_eq_imported h, if_pos hlen]

/-- **Importing variables of the host.** At most one string is stored for each name, all stores are in bounds, the
assertions hold, and the program finds its arguments, its environment with the imported variables behind it, and the
auxiliary vector, if and only if no imported name occurs twice in the host's environment. -/
theorem prepareElfStack_correct_iff (atHwMode : { w : Word // w ≠ 0 }) (cfg : ProcessConfig) (io : IoConfig)
    (host : HostSharedMemory) (rd : Word × Word) :
    (importEnv cfg (copySharedMemory io host).env = some (imported cfg.hostImportEnv (host.env.getD [])) ∧
      (imported cfg.hostImportEnv (host.env.getD [])).length ≤ cfg.hostImportEnv.length ∧
      ∃ st, prepareElfStack atHwMode cfg (copySharedMemory io host) rd = some st ∧
        Decodes atHwMode cfg rd (cfg.env ++ imported cfg.hostImportEnv (host.env.getD [])) st) ↔
      ∀ name ∈ cfg.hostImportEnv, ((host.env.getD []).filter (Imports name)).length ≤ 1 := by
  rw [← importEnv_eq_imported_iff cfg io host]
  refine ⟨fun h => h.1, fun himport => ⟨himport, length_filterMap_le _ _, _, ?_, decodes_elfStack atHwMode cfg rd _⟩⟩
  rw [prepareElfStack, himport, bind_some, buildStack_eq]

abbrev envHost (env : List (CString Byte)) : HostSharedMemory := { honestHost with env := some env }

abbrev varA1 : CString Byte := ⟨[0x41, 0x3d, 0x31], by decide⟩

abbrev varA2 : CString Byte := ⟨[0x41, 0x3d, 0x32], by decide⟩

abbrev importA : ProcessConfig := ⟨[⟨[0x61], by decide⟩], [], [⟨[0x41], by decide⟩], true⟩

/-- A program finds the variable `A` in its environment. -/
theorem prepareElfStack_correct_importA :
    ∃ st, prepareElfStack ⟨1, by decide⟩ importA (copySharedMemory ⟨true, true, true, true⟩ (envHost [varA1]))
      (0, 0) = some st ∧ readPtrs st.data (st.out.drop st.envp) = some [varA1] := by
  obtain ⟨-, -, st, hst, hdecodes⟩ := (prepareElfStack_correct_iff ⟨1, by decide⟩ importA
    ⟨true, true, true, true⟩ (envHost [varA1]) (0, 0)).mpr (by decide)
  exact ⟨st, hst, hdecodes.envp⟩

/-- **Too many variables of one name.** There is room for one string, and the loop stores two. -/
theorem prepareElfStack_overflow :
    importA.hostImportEnv.length = 1 ∧ (matching importA.hostImportEnv [varA1, varA2]).length = 2 ∧
    ∀ (atHwMode : { w : Word // w ≠ 0 }) (io : IoConfig) (rd : Word × Word),
      prepareElfStack atHwMode importA (copySharedMemory io (envHost [varA1, varA2])) rd = none := by
  refine ⟨rfl, by decide, fun atHwMode io rd => ?_⟩
  rw [prepareElfStack, show (copySharedMemory io (envHost [varA1, varA2])).env =
    some (copyEnv [varA1, varA2]) from rfl, importEnv_eq, if_neg (by decide)]
  rfl

end SgxLkl
