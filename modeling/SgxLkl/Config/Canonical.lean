import SgxLkl.Config.Store
import SgxLkl.Json.Accept

/-!
# What the order of the paths enforces

With `enforce_format` the path of a plain value is compared with `last_path`. The beginning of an object and the
end of an array only replace `last_path`, and equal paths pass.

* **`accepted_canonical_iff`**: an accepted text is canonical if and only if the names increase where nothing is
  compared, and are different where they are.
-/

namespace SgxLkl.Config

open Json List

/-! ## Documents -/

/-- The first thing that happens at the path is a comparison. -/
def compared : Doc → Bool
  | .leaf _ => true
  | .array (.cons v _) => compared v
  | .array .nil => false
  | .object _ => false

mutual

/-- The names of the members of every object increase. -/
def Canonical : Doc → Prop
  | .leaf _ => True
  | .array vs => CanonicalElements vs
  | .object ms => CanonicalMembers none ms

/-- `Canonical` for all elements. -/
def CanonicalElements : Docs → Prop
  | .nil => True
  | .cons v vs => Canonical v ∧ CanonicalElements vs

/-- `Canonical` for members behind the name `last`. -/
def CanonicalMembers : Option (List Byte) → DocMembers → Prop
  | _, .nil => True
  | last, .cons name v ms =>
    (∀ l ∈ last, strcmp l name.chars = .lt) ∧ Canonical v ∧ CanonicalMembers (some name.chars) ms

end

mutual

/-- No two neighbours have the same name, and those that are not compared are in order. -/
def GuardedDoc : Doc → Prop
  | .leaf _ => True
  | .array vs => GuardedElements vs
  | .object ms => GuardedMembers none ms

/-- `GuardedDoc` for all elements. -/
def GuardedElements : Docs → Prop
  | .nil => True
  | .cons v vs => GuardedDoc v ∧ GuardedElements vs

/-- `GuardedDoc` for members behind the name `last`. -/
def GuardedMembers : Option (List Byte) → DocMembers → Prop
  | _, .nil => True
  | last, .cons name v ms =>
    (∀ l ∈ last, if compared v then l ≠ name.chars else strcmp l name.chars = .lt) ∧ GuardedDoc v ∧
      GuardedMembers (some name.chars) ms

end

/-! ## Comparisons -/

theorem eq_of_strcmp_eq {a b : List Byte} (h : strcmp a b = .eq) : a = b := by
  induction a generalizing b with
  | nil =>
    cases b with
    | nil => rfl
    | cons c b => cases h
  | cons x a ih =>
    cases b with
    | nil => cases h
    | cons c b =>
      rw [strcmp] at h
      split_ifs at h with h₁ h₂
      rw [ih h, BitVec.le_antisymm (BitVec.not_lt.mp h₂) (BitVec.not_lt.mp h₁)]

theorem ne_of_strcmp_lt {a b : List Byte} (h : strcmp a b = .lt) : a ≠ b := by
  rintro rfl
  rw [strcmp_self] at h
  cases h

theorem strcmp_append_gt {a b : List Byte} (h : strcmp a b = .gt) (t : List Byte) : strcmp (a ++ t) b = .gt := by
  induction a generalizing b with
  | nil => cases b <;> cases h
  | cons x a ih =>
    cases b with
    | nil => rfl
    | cons c b =>
      rw [strcmp] at h
      rw [cons_append, strcmp]
      split_ifs at h ⊢ with h₁ h₂
      · rfl
      · exact ih h

theorem strcmp_names {names ks : List (List Byte)} {k l : List Byte}
    (h : strcmp (dotted (names ++ k :: ks)) (dotted (names ++ [l])) ≠ .gt) (hkl : k ≠ l) : strcmp k l = .lt := by
  rw [dotted_append, dotted_append, strcmp_append, dotted] at h
  have hgt : strcmp k l ≠ .gt := by
    intro hgt
    refine h ?_
    cases ks with
    | nil => exact hgt
    | cons k' ks => exact strcmp_append_gt hgt _
  cases hc : strcmp k l with
  | lt => rfl
  | eq => exact absurd (eq_of_strcmp_eq hc) hkl
  | gt => exact absurd hc hgt

/-! ## Steps of the check -/

section

variable {r : Reader} (hr : r.enforceFormat = true) {names : List (List Byte)} {pr pr' : Progress}

theorem makePath_ok {tmp cur : List Byte} (hne : names ≠ []) (h : makePath names tmp = .ok cur) :
    cur = dotted names := by
  rw [makePath, if_neg (by simpa using hne)] at h
  split_ifs at h
  cases h
  rfl

include hr

theorem markPath_ok (hne : names ≠ []) (h : markPath r names pr = .ok pr') :
    pr'.statics.lastPath = .text (dotted names) := by
  rw [markPath, if_pos hr, replaceLastPath] at h
  have hpath : ∀ {x : Except JsonResult Statics}, x = (makePath names pr.statics.tmp).map
      (fun cur => (⟨cur, .text cur⟩ : Statics)) →
      (x.map fun st => ({ pr with statics := st } : Progress)) = .ok pr' →
      pr'.statics.lastPath = .text (dotted names) := by
    rintro x rfl hx
    cases hmake : makePath names pr.statics.tmp with
    | error e => rw [hmake] at hx; cases hx
    | ok cur =>
      rw [hmake] at hx
      cases hx
      rw [makePath_ok hne hmake]
  cases hlast : pr.statics.lastPath with
  | freed => rw [hlast] at h; cases h
  | null => rw [hlast] at h; exact hpath rfl h
  | text l => rw [hlast] at h; exact hpath rfl h

theorem checkValue_ok (hne : names ≠ []) (h : checkValue r names pr = .ok pr') :
    pr'.statics.lastPath = .text (dotted names) ∧
      ∀ l, pr.statics.lastPath = .text l → strcmp l (dotted names) ≠ .gt := by
  rw [checkValue, if_pos hr] at h
  obtain ⟨st, hst, h⟩ := exceptBind_eq_ok.mp h
  rw [checkOrder] at hst
  obtain ⟨cur, hcur, hst⟩ := exceptBind_eq_ok.mp hst
  obtain rfl := makePath_ok hne hcur
  have hseen : pr'.statics.lastPath = st.lastPath := by
    rw [addSeen] at h
    cases hmake : makePath names st.tmp with
    | error e => rw [hmake] at h; cases h
    | ok cur =>
      rw [hmake] at h
      cases h
      rfl
  rw [hseen]
  cases hlast : pr.statics.lastPath with
  | freed => rw [hlast] at hst; cases hst
  | null =>
    rw [hlast] at hst
    cases hst
    exact ⟨rfl, by simp⟩
  | text l =>
    rw [hlast] at hst
    dsimp only at hst
    split_ifs at hst with hgt
    cases hst
    refine ⟨rfl, fun l' hl' => ?_⟩
    cases hl'
    exact hgt

end

/-! ## Visits -/

mutual

theorem visit_canonical {r : Reader} (hr : r.enforceFormat = true) (v : Doc) {cs : Crumbs}
    (hne : cs.names ≠ []) {pr pr' : Progress} (h : v.visit (formatVisitor r) cs pr = .ok pr') :
    (GuardedDoc v ↔ Canonical v) ∧ (∃ ks, pr'.statics.lastPath = .text (dotted (cs.names ++ ks))) ∧
      (compared v = true → ∀ l, pr.statics.lastPath = .text l → strcmp l (dotted cs.names) ≠ .gt) := by
  cases v with
  | leaf l =>
    rw [Doc.visit] at h
    obtain ⟨v, -, h⟩ := exceptBind_eq_ok.mp h
    obtain ⟨hlast, hcompare⟩ := checkValue_ok hr hne h
    refine ⟨?_, ⟨[], by rw [append_nil]; exact hlast⟩, fun _ => hcompare⟩
    rw [GuardedDoc, Canonical]
  | array vs =>
    rw [Doc.visit] at h
    obtain ⟨pr₁, hbegin, h⟩ := exceptBind_eq_ok.mp h
    obtain rfl : pr = pr₁ := Except.ok.inj hbegin
    obtain ⟨pr₂, hvs, hend⟩ := exceptBind_eq_ok.mp h
    obtain ⟨hcanonical, hcompare⟩ := visit_canonical_elements hr vs hne (mapError_eq_ok.mp hvs)
    have hlast := markPath_ok hr hne hend
    refine ⟨?_, ⟨[], by rw [append_nil]; exact hlast⟩, fun hc => ?_⟩
    · rw [GuardedDoc, Canonical]
      exact hcanonical
    · cases vs with
      | nil => rw [compared] at hc; cases hc
      | cons v vs =>
        rw [compared] at hc
        exact hcompare v vs rfl hc
  | object ms =>
    rw [Doc.visit] at h
    obtain ⟨pr₁, hbegin, h⟩ := exceptBind_eq_ok.mp h
    have hlast := markPath_ok hr hne hbegin
    obtain ⟨hcanonical, hafter⟩ := visit_canonical_members hr none ms (fun _ hk => nomatch hk) h
    refine ⟨?_, ?_, fun hc => by rw [compared] at hc; cases hc⟩
    · rw [GuardedDoc, Canonical]
      exact hcanonical
    · rcases hafter with heq | hbelow
      · exact ⟨[], by rw [append_nil, heq]; exact hlast⟩
      · exact hbelow

theorem visit_canonical_elements {r : Reader} (hr : r.enforceFormat = true) (vs : Docs) {cs : Crumbs} {k : ℕ}
    (hne : cs.names ≠ []) {pr pr' : Progress} (h : vs.visit (formatVisitor r) k cs pr = .ok pr') :
    (GuardedElements vs ↔ CanonicalElements vs) ∧ ∀ v vs', vs = .cons v vs' → compared v = true →
        ∀ l, pr.statics.lastPath = .text l → strcmp l (dotted cs.names) ≠ .gt := by
  cases vs with
  | nil => exact ⟨by rw [GuardedElements, CanonicalElements], nofun⟩
  | cons v vs =>
    rw [Docs.visit] at h
    obtain ⟨pr₁, hv, hvs⟩ := exceptBind_eq_ok.mp h
    have hnames := Crumbs.names_setIndex k cs
    obtain ⟨hcanonical, -, hcompare⟩ := visit_canonical hr v (by rw [hnames]; exact hne) hv
    obtain ⟨hrest, -⟩ := visit_canonical_elements hr vs hne hvs
    refine ⟨?_, ?_⟩
    · rw [GuardedElements, CanonicalElements]
      exact and_congr hcanonical hrest
    · rintro v' vs' heq hc
      cases heq
      rw [hnames] at hcompare
      exact hcompare hc

theorem visit_canonical_members {r : Reader} (hr : r.enforceFormat = true) (last : Option (List Byte))
    (ms : DocMembers) {cs : Crumbs} {pr pr' : Progress}
    (hlast : ∀ k, last = some k → ∃ ks, pr.statics.lastPath = .text (dotted (cs.names ++ k :: ks)))
    (h : ms.visit (formatVisitor r) cs pr = .ok pr') : (GuardedMembers last ms ↔ CanonicalMembers last ms) ∧
      (pr'.statics.lastPath = pr.statics.lastPath ∨
        ∃ ks, pr'.statics.lastPath = .text (dotted (cs.names ++ ks))) := by
  cases ms with
  | nil =>
    cases h
    exact ⟨by rw [GuardedMembers, CanonicalMembers], .inl rfl⟩
  | cons name v ms =>
    rw [DocMembers.visit] at h
    obtain ⟨pr₁, hv, hms⟩ := exceptBind_eq_ok.mp h
    have hnames := Crumbs.names_cons name 0 cs
    have hne : Crumbs.names ((name, 0) :: cs) ≠ [] := by rw [hnames]; simp
    obtain ⟨hcanonical, ⟨ks, hbelow⟩, hcompare⟩ := visit_canonical hr v hne hv
    rw [hnames, append_assoc] at hbelow
    rw [hnames] at hcompare
    obtain ⟨hrest, hafter⟩ := visit_canonical_members hr (some name.chars) ms
      (fun k hk => ⟨ks, by cases hk; exact hbelow⟩) hms
    refine ⟨?_, ?_⟩
    · rw [GuardedMembers, CanonicalMembers]
      refine and_congr (forall₂_congr fun k hk => ?_) (and_congr hcanonical hrest)
      obtain ⟨ks, hk'⟩ := hlast k hk
      split_ifs with hc
      · exact ⟨strcmp_names (hcompare hc _ hk'), ne_of_strcmp_lt⟩
      · exact Iff.rfl
    · rcases hafter with heq | hbelow'
      · exact .inr ⟨_, heq.trans hbelow⟩
      · exact .inr hbelow'

end

/-! ## Accepted texts -/

theorem readEnclaveConfig_visit {r : Reader} {behind : List Byte} {st st' : Statics} {text : CString Byte}
    {cfg : EnclaveConfig} (h : readEnclaveConfig r behind st text = some (cfg, st')) :
    ∃ u ms rest d, Taken (!r.enforceFormat) text.chars u ms rest ∧
      (Source.object ms).doc.visit ((formatVisitor r).prod (loadVisitor r)) []
        (⟨st, []⟩, ⟨enclaveConfigDefault, []⟩) = .ok d := by
  rw [readEnclaveConfig] at h
  cases hparse : jsonParse ⟨jsonReadCallback r, !r.enforceFormat, behind⟩ text.chars
      (⟨st, []⟩, ⟨enclaveConfigDefault, []⟩) with
  | error e s => rw [hparse] at h; cases h
  | ok a s =>
    obtain ⟨u, ms, htaken, hdeliver⟩ := jsonParse_ok hparse
    have hvisit := (Source.object ms).doc.deliver_visit (jsonReadCallback_follows r behind) rootPath
      (⟨st, []⟩, ⟨enclaveConfigDefault, []⟩)
    rw [hdeliver] at hvisit
    refine ⟨u, ms, s.rest, s.data, htaken, ?_⟩
    rw [show rootPath.crumbs rootPath.depth = [] from rfl] at hvisit
    cases hd : (Source.object ms).doc.visit ((formatVisitor r).prod (loadVisitor r)) []
        (⟨st, []⟩, ⟨enclaveConfigDefault, []⟩) with
    | error e =>
      rw [hd] at hvisit
      cases hvisit
    | ok d =>
      rw [hd] at hvisit
      obtain ⟨q, hq, -⟩ := hvisit
      cases hq
      rfl

theorem compared_bare : ∀ c : Source, compared c.bare.doc = compared c.doc
  | .leaf _ _ => rfl
  | .array (.nil _) => rfl
  | .array (.cons _ v _) => compared_bare v
  | .object _ => rfl

mutual

theorem canonical_bare : ∀ c : Source, Canonical c.bare.doc ↔ Canonical c.doc
  | .leaf _ _ => Iff.rfl
  | .array es => canonicalElements_bare es
  | .object ms => canonicalMembers_bare none ms

theorem canonicalElements_bare : ∀ es : Elements, CanonicalElements es.bare.docs ↔ CanonicalElements es.docs
  | .nil _ => Iff.rfl
  | .cons _ v es => and_congr (canonical_bare v) (canonicalElements_bare es)

theorem canonicalMembers_bare (last : Option (List Byte)) :
    ∀ ms : Fields, CanonicalMembers last ms.bare.docs ↔ CanonicalMembers last ms.docs
  | .nil _ => Iff.rfl
  | .cons _ _ name _ _ v ms =>
    and_congr_right' (and_congr (canonical_bare v) (canonicalMembers_bare (some name.chars) ms))

end

mutual

theorem guardedDoc_bare : ∀ c : Source, GuardedDoc c.bare.doc ↔ GuardedDoc c.doc
  | .leaf _ _ => Iff.rfl
  | .array es => guardedElements_bare es
  | .object ms => guardedMembers_bare none ms

theorem guardedElements_bare : ∀ es : Elements, GuardedElements es.bare.docs ↔ GuardedElements es.docs
  | .nil _ => Iff.rfl
  | .cons _ v es => and_congr (guardedDoc_bare v) (guardedElements_bare es)

theorem guardedMembers_bare (last : Option (List Byte)) :
    ∀ ms : Fields, GuardedMembers last ms.bare.docs ↔ GuardedMembers last ms.docs
  | .nil _ => Iff.rfl
  | .cons _ _ name _ _ v ms => by
    refine and_congr ?_ (and_congr (guardedDoc_bare v) (guardedMembers_bare (some name.chars) ms))
    rw [compared_bare v]

end

/-- **An accepted text is canonical if and only if it is guarded**, from whatever the static variables were. -/
theorem accepted_canonical_iff {r : Reader} (hr : r.enforceFormat = true) {behind : List Byte} {st st' : Statics}
    {text : CString Byte} {cfg : EnclaveConfig} (h : readEnclaveConfig r behind st text = some (cfg, st')) :
    (∃ u ms rest, Taken false text.chars u ms rest) ∧ ∀ u ms rest, Taken false text.chars u ms rest →
      (Canonical (Source.object ms).doc ↔ GuardedDoc (Source.object ms).doc) := by
  obtain ⟨u, ms, rest, d, htaken, hvisit⟩ := readEnclaveConfig_visit h
  rw [hr, Bool.not_true] at htaken
  refine ⟨⟨u, ms, rest, htaken⟩, fun u' ms' rest' htaken' => ?_⟩
  have hformat := Doc.visit_fst _ hvisit
  rw [Source.doc, Doc.visit] at hformat
  obtain ⟨pr, -, hformat⟩ := exceptBind_eq_ok.mp hformat
  rw [← canonical_bare, ← guardedDoc_bare, Source.bare, ← (htaken.unique htaken').2.1, ← Source.bare, canonical_bare,
    guardedDoc_bare, Source.doc, GuardedDoc, Canonical]
  exact (visit_canonical_members hr none _ (fun _ hk => nomatch hk) hformat).1.symm

/-- A string, as it is written. -/
def stringSource (s : String) : Source := .leaf (quote :: (bytes s ++ [quote])) (.string (cstring (bytes s)))

/-- A member, as it is written behind `gap`. -/
def member (gap : List Byte) (name : String) (v : Source) (ms : Fields) : Fields :=
  .cons gap (bytes name) (cstring (bytes name)) [] [] v ms

/-- What is behind the first brace of `{"args":["a"],"cwd":"/"}`. -/
def orderedFields : Fields :=
  member [] "args" (.array (.cons [] (stringSource "a") (.nil [])))
    (member [comma] "cwd" (stringSource "/") (.nil []))

theorem lax_orderedFields : (Source.object orderedFields).Obeys (laxRules false) := by
  have hnil : ∀ p : Byte → Prop, ∀ c ∈ [], p c := fun _ _ hc => absurd hc not_mem_nil
  refine ⟨hnil _, ⟨fun _ => rfl, _, rfl, rfl⟩, hnil _, hnil _, ⟨hnil _, .string rfl (fun _ => rfl) rfl, ?_, hnil _⟩,
    .of_mem mem_cons_self rfl, ?_, ⟨fun _ => rfl, _, rfl, rfl⟩, hnil _, hnil _, .string rfl (fun _ => rfl) rfl, ?_,
    hnil _⟩
  · exact .of_mem mem_cons_self rfl
  · intro c hc
    rw [mem_singleton.mp hc]
    decide
  · exact .of_mem mem_cons_self rfl

theorem accepted_canonical_ordered : ∃ cfg st, readEnclaveConfig ⟨true, fun _ => 0⟩ [] freshStatics
      (cstring (Source.object orderedFields).text) = some (cfg, st) ∧ Canonical (Source.object orderedFields).doc := by
  have haccepted : (readEnclaveConfig ⟨true, fun _ => 0⟩ [] freshStatics
      (cstring (Source.object orderedFields).text)).isSome = true := by decide +kernel
  obtain ⟨⟨cfg, st⟩, hread⟩ := Option.isSome_iff_exists.mp haccepted
  have htaken : Taken false (cstring (Source.object orderedFields).text).chars [] orderedFields [] :=
    ⟨by decide +kernel, fun _ hc => absurd hc not_mem_nil, lax_orderedFields⟩
  have hguarded : GuardedDoc (Source.object orderedFields).doc :=
    ⟨nofun, ⟨trivial, trivial⟩, by rintro _ ⟨⟩; decide, trivial, trivial⟩
  exact ⟨cfg, st, hread, ((accepted_canonical_iff rfl hread).2 _ _ _ htaken).mpr hguarded⟩

def repeatedMembers : Members :=
  .ofList [(field "args", .array (.ofList [.leaf (stringLeaf (cstring (bytes "a")))])),
    (field "cwd", .leaf (stringLeaf (cstring (bytes "/")))),
    (field "cwd", .leaf (stringLeaf (cstring (bytes "/x"))))]

/-- Equal paths pass the comparison. -/
theorem repeated_accepted : (readEnclaveConfig ⟨true, fun _ => 0⟩ [] freshStatics
      (cstring (Tree.object repeatedMembers).text)).isSome = true ∧
      ¬ Canonical (Tree.object repeatedMembers).doc := by
  refine ⟨by decide +kernel, fun h => ?_⟩
  simp only [Tree.doc, repeatedMembers, Members.ofList, Members.docs, Canonical, CanonicalMembers] at h
  exact absurd (h.2.2.2.2.1 _ rfl) (by decide)

end SgxLkl.Config
