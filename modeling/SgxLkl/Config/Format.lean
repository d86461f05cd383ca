import SgxLkl.Config.Read
import SgxLkl.Json.Visit

/-!
# The order of the paths

With `enforce_format` no path may be smaller than the one before it.

* **`Tree.visit_format`**: such a tree passes the check, and its paths are the ones that were seen.
-/

namespace SgxLkl.Config

open Json List

/-! ## Paths as texts -/

theorem strcmp_append (a x y : List Byte) : strcmp (a ++ x) (a ++ y) = strcmp x y := by
  induction a with
  | nil => rfl
  | cons c a ih =>
    have hc : ¬ c < c := BitVec.lt_irrefl c
    rw [cons_append, cons_append, strcmp, if_neg hc, if_neg hc, ih]

theorem strcmp_append_ne_gt (a x : List Byte) : strcmp a (a ++ x) ≠ .gt := by
  have h := strcmp_append a [] x
  rw [append_nil] at h
  rw [h]
  cases x <;> simp [strcmp]

theorem strcmp_append_dot {a b : List Byte} (h : strcmp a b = .lt) (hb : ∀ c ∈ b, ch '.' < c)
    (t : List Byte) : strcmp (a ++ ch '.' :: t) b = .lt := by
  induction a generalizing b with
  | nil =>
    cases b with
    | nil => cases h
    | cons c b => rw [nil_append, strcmp, if_pos (hb c mem_cons_self)]
  | cons x a ih =>
    cases b with
    | nil => cases h
    | cons c b =>
      rw [strcmp] at h
      rw [cons_append, strcmp]
      split_ifs at h ⊢ with h₁ h₂
      · rfl
      · exact ih h fun c' hc' => hb c' (mem_cons_of_mem c hc')

def dottedPrefix (names : List (List Byte)) : List Byte :=
  if names.isEmpty then [] else dotted names ++ [ch '.']

theorem dotted_append (names : List (List Byte)) (k : List Byte) (ks : List (List Byte)) :
    dotted (names ++ k :: ks) = dottedPrefix names ++ dotted (k :: ks) := by
  induction names with
  | nil => rfl
  | cons n names ih =>
    cases names with
    | nil => simp [dotted, dottedPrefix]
    | cons n' names =>
      have hcons : dottedPrefix (n :: n' :: names) = n ++ ch '.' :: dottedPrefix (n' :: names) := by
        simp [dottedPrefix, dotted]
      rw [cons_append, cons_append, dotted, ← cons_append, ih, hcons, append_assoc, cons_append]

theorem strcmp_dotted_append (names ks : List (List Byte)) :
    strcmp (dotted names) (dotted (names ++ ks)) ≠ .gt := by
  cases ks with
  | nil =>
    have h := strcmp_append_ne_gt (dotted names) []
    rwa [append_nil] at h ⊢
  | cons k ks =>
    rw [dotted_append, dottedPrefix]
    split_ifs with h
    · rw [isEmpty_iff.mp h]
      exact strcmp_append_ne_gt [] _
    · rw [append_assoc]
      exact strcmp_append_ne_gt _ _

variable {k l : List Byte} {names : List (List Byte)} {last : Option (List Byte)}

theorem strcmp_dotted_lt (h : strcmp k l = .lt) (hl : ∀ c ∈ l, ch '.' < c) (names ks : List (List Byte)) :
    strcmp (dotted (names ++ k :: ks)) (dotted (names ++ [l])) ≠ .gt := by
  rw [dotted_append, dotted_append, strcmp_append, dotted]
  have hlt : strcmp (dotted (k :: ks)) l = .lt := by
    cases ks with
    | nil => exact h
    | cons k' ks => exact strcmp_append_dot h hl _
  rw [hlt]
  decide

/-- The characters of a path, and the byte behind every name. -/
def pathLength (names : List (List Byte)) : ℕ := (names.map fun n => n.length + 1).sum

theorem length_dotted (h : names ≠ []) : (dotted names).length + 1 = pathLength names := by
  induction names with
  | nil => exact absurd rfl h
  | cons n names ih =>
    cases names with
    | nil => simp [dotted, pathLength]
    | cons n' names =>
      have hih := ih (cons_ne_nil n' names)
      simp only [dotted, length_append, length_cons, pathLength, map_cons, sum_cons] at hih ⊢
      omega

theorem makePath_eq (h : names ≠ []) (hlen : pathLength names ≤ 1024)
    (tmp : List Byte) : makePath names tmp = .ok (dotted names) := by
  have hlength := length_dotted h
  rw [makePath, if_neg (by simpa using h), if_neg (by omega)]

/-! ## Trees in order -/

def isObject : Tree → Bool
  | .object _ => true
  | _ => false

def startsPlain : Trees → Bool
  | .nil => false
  | .cons v _ => !isObject v

mutual

/-- The leaves can be read, and the names of the objects are in order; `n` characters of the buffer are left
for the path. -/
def Ordered : ℕ → Tree → Prop
  | _, .leaf l => ∃ v, l.value = .ok v
  | n, .array vs => OrderedTrees n vs
  | n, .object ms => OrderedMembers n none ms

def OrderedTrees : ℕ → Trees → Prop
  | _, .nil => True
  | n, .cons v vs => Ordered n v ∧ OrderedTrees n vs ∧ (isObject v = true → startsPlain vs = false)

def OrderedMembers : ℕ → Option (List Byte) → Members → Prop
  | _, _, .nil => True
  | n, last, .cons name v ms =>
    (∀ l ∈ last, strcmp l name.name.chars = .lt) ∧ (∀ c ∈ name.name.chars, ch '.' < c) ∧
      name.name.chars.length + 1 ≤ n ∧ Ordered (n - (name.name.chars.length + 1)) v ∧
      OrderedMembers n (some name.name.chars) ms

end

mutual

def valuePaths : List (List Byte) → Tree → List (List (List Byte))
  | names, .leaf _ => [names]
  | names, .array vs => elementPaths names vs
  | names, .object ms => memberPaths names ms

def elementPaths : List (List Byte) → Trees → List (List (List Byte))
  | _, .nil => []
  | names, .cons v vs => valuePaths names v ++ elementPaths names vs

def memberPaths : List (List Byte) → Members → List (List (List Byte))
  | _, .nil => []
  | names, .cons name v ms => valuePaths (names ++ [name.name.chars]) v ++ memberPaths names ms

end

def formatVisitor (r : Reader) : Visitor Progress where
  value cs _ pr := checkValue r cs.names pr
  beginObject names pr := markPath r names pr
  beginArray _ _ pr := .ok pr
  endArray names pr := markPath r names pr

/-- `last_path` has not been freed, and with `enforce_format` it is a text as it is said. -/
def Last (r : Reader) (P : List Byte → Prop) (st : Statics) : Prop :=
  st.lastPath ≠ .freed ∧ (r.enforceFormat = true → ∃ l, st.lastPath = .text l ∧ P l)

theorem Last.mono {r : Reader} {P Q : List Byte → Prop} {st : Statics} (h : Last r P st)
    (hPQ : ∀ l, P l → Q l) : Last r Q st :=
  ⟨h.1, fun hr => let ⟨l, hl, hP⟩ := h.2 hr; ⟨l, hl, hPQ l hP⟩⟩

section

variable {r : Reader} {names : List (List Byte)} {st : Statics}

theorem markPath_spec (h : st.lastPath ≠ .freed) (hnames : names ≠ [] ∨ st.tmp = [])
    (hlen : pathLength names ≤ 1024) (seen : List (List Byte)) :
    ∃ st', markPath r names ⟨st, seen⟩ = .ok ⟨st', seen⟩ ∧ Last r (· = dotted names) st' := by
  cases hr : r.enforceFormat with
  | false =>
    refine ⟨st, ?_, h, fun h' => absurd h' (by rw [hr]; decide)⟩
    rw [markPath, hr]
    rfl
  | true =>
    have hpath : makePath names st.tmp = .ok (dotted names) := by
      by_cases hne : names = []
      · rw [hne, makePath, if_pos isEmpty_nil, dotted, hnames.resolve_left (not_not.mpr hne)]
      · exact makePath_eq hne hlen st.tmp
    refine ⟨⟨dotted names, .text (dotted names)⟩, ?_, nofun, fun _ => ⟨_, rfl, rfl⟩⟩
    rw [markPath, hr, if_pos rfl, replaceLastPath]
    cases hlast : st.lastPath with
    | freed => exact absurd hlast h
    | null => simp only [hpath, Except.map]
    | text l => simp only [hpath, Except.map]

theorem checkValue_spec (hnames : names ≠ []) (hlen : pathLength names ≤ 1024)
    (h : Last r (fun l => strcmp l (dotted names) ≠ .gt) st) (seen : List (List Byte)) :
    ∃ st', checkValue r names ⟨st, seen⟩ = .ok ⟨st', dotted names :: seen⟩ ∧ Last r (· = dotted names) st' := by
  have hpath := makePath_eq hnames hlen
  cases hr : r.enforceFormat with
  | false =>
    refine ⟨{ st with tmp := dotted names }, ?_, h.1, fun h' => absurd h' (by rw [hr]; decide)⟩
    rw [checkValue, hr, if_neg (by decide), addSeen, hpath]
    rfl
  | true =>
    obtain ⟨l, hl, hle⟩ := h.2 hr
    refine ⟨⟨dotted names, .text (dotted names)⟩, ?_, nofun, fun _ => ⟨_, rfl, rfl⟩⟩
    rw [checkValue, hr, if_pos rfl, checkOrder, hpath, hl]
    simp only [Except.bind, if_neg hle, addSeen, hpath, Except.map]

end

/-- What `last_path` is between the members of an object. -/
def After (names : List (List Byte)) : Option (List Byte) → List Byte → Prop
  | none, l => l = dotted names
  | some k, l => ∃ ks, l = dotted (names ++ k :: ks)

theorem After.ne_gt (h : After names last l) (hlt : ∀ l ∈ last, strcmp l k = .lt) (hk : ∀ c ∈ k, ch '.' < c) :
    strcmp l (dotted (names ++ [k])) ≠ .gt := by
  cases last with
  | none =>
    rw [show l = dotted names from h]
    exact strcmp_dotted_append names [k]
  | some k' =>
    obtain ⟨ks, rfl⟩ := h
    exact strcmp_dotted_lt (hlt k' rfl) hk names ks

theorem After.below (h : After names last l) : ∃ ks, l = dotted (names ++ ks) := by
  cases last with
  | none => exact ⟨[], by rw [append_nil]; exact h⟩
  | some k =>
    obtain ⟨ks, h⟩ := h
    exact ⟨k :: ks, h⟩

theorem pathLength_append (names : List (List Byte)) (k : List Byte) :
    pathLength (names ++ [k]) = pathLength names + (k.length + 1) := by
  simp [pathLength]

theorem Crumbs.names_cons (name : CString Byte) (k : ℕ) (cs : Crumbs) :
    Crumbs.names ((name, k) :: cs) = cs.names ++ [name.chars] := by
  simp [Crumbs.names]

mutual

/-- **A tree in order passes the check**, and its paths are the ones that were seen. -/
theorem visit_format {r : Reader} {n : ℕ} (v : Tree) (hv : Ordered n v) (cs : Crumbs)
    (hroom : pathLength cs.names + n ≤ 1024) (st : Statics)
    (hobject : isObject v = true → st.lastPath ≠ .freed ∧ (cs.names ≠ [] ∨ st.tmp = []))
    (hplain : isObject v = false →
      cs.names ≠ [] ∧ Last r (fun l => strcmp l (dotted cs.names) ≠ .gt) st) (seen : List (List Byte)) :
    ∃ st', v.doc.visit (formatVisitor r) cs ⟨st, seen⟩ =
        .ok ⟨st', ((valuePaths cs.names v).map dotted).reverse ++ seen⟩ ∧
      Last r (fun l => ∃ ks, l = dotted (cs.names ++ ks) ∧ (isObject v = false → ks = [])) st' := by
  cases v with
  | leaf l =>
    obtain ⟨hnames, hlast⟩ := hplain rfl
    rw [Ordered] at hv
    obtain ⟨v, hl⟩ := hv
    obtain ⟨st', hcheck, hlast'⟩ := checkValue_spec hnames (by omega) hlast seen
    refine ⟨st', ?_, hlast'.mono fun l hl => ⟨[], by rw [append_nil]; exact hl, fun _ => rfl⟩⟩
    rw [Tree.doc, Doc.visit, hl]
    exact hcheck
  | array vs =>
    obtain ⟨hnames, hlast⟩ := hplain rfl
    rw [Ordered] at hv
    obtain ⟨st₁, hvisit, hfreed⟩ :=
      visit_format_trees vs hv hnames hroom hlast.1 (fun _ => hlast) 0 seen
    obtain ⟨st₂, hmark, hlast₂⟩ := markPath_spec (r := r) hfreed (.inl hnames) (by omega)
      (((elementPaths cs.names vs).map dotted).reverse ++ seen)
    refine ⟨st₂, ?_, hlast₂.mono fun l hl => ⟨[], by rw [append_nil]; exact hl, fun _ => rfl⟩⟩
    rw [Tree.doc, Doc.visit]
    simp only [formatVisitor, Except.bind] at hvisit ⊢
    rw [hvisit]
    exact hmark
  | object ms =>
    obtain ⟨hfreed, htmp⟩ := hobject rfl
    rw [Ordered] at hv
    obtain ⟨st₁, hmark, hlast₁⟩ := markPath_spec (r := r) hfreed htmp (by omega) seen
    obtain ⟨st₂, hvisit, hlast₂⟩ := visit_format_members ms hv hroom hlast₁ seen
    refine ⟨st₂, ?_, hlast₂.mono fun l ⟨ks, hl⟩ => ⟨ks, hl, nofun⟩⟩
    rw [Tree.doc, Doc.visit, show (formatVisitor r).beginObject cs.names ⟨st, seen⟩ = _ from hmark]
    exact hvisit

theorem visit_format_trees {r : Reader} {n : ℕ} (vs : Trees) (hvs : OrderedTrees n vs) {cs : Crumbs}
    (hnames : cs.names ≠ []) (hroom : pathLength cs.names + n ≤ 1024) {st : Statics} (hfreed : st.lastPath ≠ .freed)
    (hplain : startsPlain vs = true → Last r (fun l => strcmp l (dotted cs.names) ≠ .gt) st) (k : ℕ)
    (seen : List (List Byte)) : ∃ st', vs.docs.visit (formatVisitor r) k cs ⟨st, seen⟩ =
        .ok ⟨st', ((elementPaths cs.names vs).map dotted).reverse ++ seen⟩ ∧ st'.lastPath ≠ .freed := by
  cases vs with
  | nil => exact ⟨st, rfl, hfreed⟩
  | cons v vs =>
    rw [OrderedTrees] at hvs
    obtain ⟨hv, hvs, hnext⟩ := hvs
    have hnames' := Crumbs.names_setIndex k cs
    have hstep := visit_format (r := r) v hv (cs.setIndex k) (by rw [hnames']; exact hroom) st
      (fun _ => ⟨hfreed, .inl (by rw [hnames']; exact hnames)⟩)
      (fun hobj => by rw [hnames']; exact ⟨hnames, hplain (by rw [startsPlain, hobj]; rfl)⟩) seen
    rw [hnames'] at hstep
    obtain ⟨st₁, hvisit, hlast⟩ := hstep
    have hplain' : startsPlain vs = true → Last r (fun l => strcmp l (dotted cs.names) ≠ .gt) st₁ := by
      intro hstart
      have hobj : isObject v = false := by
        cases hv : isObject v with
        | false => rfl
        | true => rw [hnext hv] at hstart; cases hstart
      refine hlast.mono fun l ⟨ks, hl, hks⟩ => ?_
      rw [hl, hks hobj, append_nil]
      simpa using strcmp_append_ne_gt (dotted cs.names) []
    obtain ⟨st₂, hvisit₂, hfreed₂⟩ := visit_format_trees vs hvs hnames hroom hlast.1 hplain' (k + 1)
      (((valuePaths cs.names v).map dotted).reverse ++ seen)
    refine ⟨st₂, ?_, hfreed₂⟩
    rw [Trees.docs, Docs.visit, hvisit]
    refine hvisit₂.trans ?_
    rw [elementPaths, map_append, reverse_append, append_assoc]

theorem visit_format_members {r : Reader} {n : ℕ} {last : Option (List Byte)} (ms : Members)
    (hms : OrderedMembers n last ms) {cs : Crumbs} (hroom : pathLength cs.names + n ≤ 1024) {st : Statics}
    (hlast : Last r (After cs.names last) st) (seen : List (List Byte)) :
    ∃ st', ms.docs.visit (formatVisitor r) cs ⟨st, seen⟩ =
        .ok ⟨st', ((memberPaths cs.names ms).map dotted).reverse ++ seen⟩ ∧
      Last r (fun l => ∃ ks, l = dotted (cs.names ++ ks)) st' := by
  cases ms with
  | nil => exact ⟨st, rfl, hlast.mono fun l hl => hl.below⟩
  | cons name v ms =>
    rw [OrderedMembers] at hms
    obtain ⟨hlt, hchars, hlen, hv, hms⟩ := hms
    have hnames := Crumbs.names_cons name.name 0 cs
    have hne : cs.names ++ [name.name.chars] ≠ [] := by simp
    have hstep := visit_format (r := r) v hv ((name.name, 0) :: cs)
      (by rw [hnames, pathLength_append]; omega) st (fun _ => ⟨hlast.1, .inl (by rw [hnames]; exact hne)⟩)
      (fun _ => by rw [hnames]; exact ⟨hne, hlast.mono fun l hl => hl.ne_gt hlt hchars⟩) seen
    rw [hnames] at hstep
    obtain ⟨st₁, hvisit, hlast₁⟩ := hstep
    have hafter : Last r (After cs.names (some name.name.chars)) st₁ := by
      refine hlast₁.mono fun l ⟨ks, hl, _⟩ => ⟨ks, ?_⟩
      rw [hl, append_assoc]
      rfl
    obtain ⟨st₂, hvisit₂, hlast₂⟩ := visit_format_members ms hms hroom hafter
      (((valuePaths (cs.names ++ [name.name.chars]) v).map dotted).reverse ++ seen)
    refine ⟨st₂, ?_, hlast₂⟩
    rw [Members.docs, DocMembers.visit, hvisit]
    refine hvisit₂.trans ?_
    rw [memberPaths, map_append, reverse_append, append_assoc]

end

end SgxLkl.Config
