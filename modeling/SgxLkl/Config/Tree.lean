import SgxLkl.Config.Serialize
import SgxLkl.Json.Visit

/-!
# The text of the configuration as a tree

* `JsonObj.tree`: what is printed, as a tree of the parser. A string with a backslash is not printed as such.
* **`printJson_eq`**: the printed text is the text of the tree.
* **`sortJson_objects`**: sorting an object whose members have names.
-/

namespace SgxLkl.Config

open Json List

/-! ## Strings -/

variable {s : List Byte} {key : Str}

theorem mem_escapeQuotes {c : Byte} (h : c ∈ escapeQuotes s) : c = backslash ∨ c ∈ s := by
  obtain ⟨a, ha, hc⟩ := mem_flatMap.mp h
  split_ifs at hc with hq
  · rcases mem_pair.mp hc with rfl | rfl
    · exact .inl rfl
    · exact .inr (hq ▸ ha)
  · rw [mem_singleton.mp hc]
    exact .inr ha

theorem escapeQuotes_cons (c : Byte) (s : List Byte) :
    escapeQuotes (c :: s) = (if c = quote then [backslash, quote] else [c]) ++ escapeQuotes s := rfl

theorem closingQuote_escapeQuotes (h : backslash ∉ s) (rest : List Byte) :
    closingQuote 0 (escapeQuotes s ++ quote :: rest) = some (escapeQuotes s, rest) := by
  induction s with
  | nil => rw [escapeQuotes, flatMap_nil, nil_append, closingQuote, if_pos rfl]
  | cons c s ih =>
    rw [mem_cons, not_or] at h
    have hs := ih h.2
    rw [escapeQuotes_cons]
    split_ifs with hc
    · rw [append_assoc, cons_append, singleton_append, closingQuote, if_neg (by decide),
        if_pos rfl, head?_cons, if_neg (by decide), closingQuote, hs]
      rfl
    · rw [append_assoc, singleton_append, closingQuote_cons hc (Ne.symm h.1), hs]
      rfl

theorem unescape_escapeQuotes (h0 : 0 ∉ s) (h : backslash ∉ s) : unescape (escapeQuotes s) = .ok s := by
  induction s with
  | nil => rfl
  | cons c s ih =>
    rw [mem_cons, not_or] at h h0
    have hs := ih h0.2 h.2
    rw [escapeQuotes_cons]
    split_ifs with hc
    · rw [cons_append, cons_append, nil_append, unescape.eq_def]
      simp only [show (backslash : Byte) ≠ 0 by decide, if_false, if_true,
        show (quote : Byte) ≠ 0 by decide, show simpleEscape quote = some quote by decide, hs, Except.map, hc]
    · rw [singleton_append, unescape_cons (Ne.symm h0.1) (Ne.symm h.1), hs]
      rfl

/-- A printed string; one with a backslash is left out. -/
def printedLeaf (s : CString Byte) : Leaf :=
  if h : backslash ∉ s.chars then quotedLeaf (escapeQuotes s.chars) (closingQuote_escapeQuotes h)
  else nullLeaf

theorem text_printedLeaf {s : CString Byte} (h : backslash ∉ s.chars) :
    (printedLeaf s).text = quote :: (escapeQuotes s.chars ++ [quote]) := by
  rw [printedLeaf, dif_pos h]
  rfl

theorem value_printedLeaf {s : CString Byte} (h : backslash ∉ s.chars) :
    (printedLeaf s).value = .ok (.string s) := by
  rw [printedLeaf, dif_pos h]
  show quotedValue (escapeQuotes s.chars) = _
  rw [quotedValue, unescape_escapeQuotes s.nul h]
  simp only [cstring_chars]

/-! ## Trees -/

def keyName : Str → Name
  | some k => if h : isPlain k.chars = true then Name.plain k (plain_of_isPlain h) else field ""
  | none => field ""

mutual

def JsonObj.tree : JsonObj → Json.Tree
  | .string _ none => .leaf nullLeaf
  | .string _ (some s) => .leaf (printedLeaf s)
  | .boolean _ b => .leaf (boolLeaf b)
  | .array _ elems => .array (elementTrees elems)
  | .objects _ members => .object (memberTrees members)

def elementTrees : List JsonObj → Trees
  | [] => .nil
  | o :: os => .cons o.tree (elementTrees os)

def memberTrees : List JsonObj → Members
  | [] => .nil
  | o :: os => .cons (keyName o.key) o.tree (memberTrees os)

end

def PlainKey (key : Str) : Prop := ∃ k, key = some k ∧ isPlain k.chars = true

mutual

/-- No string has a backslash, the members have plain names, the elements of arrays have none. -/
def JsonObj.Clean : JsonObj → Prop
  | .string _ value => ∀ s ∈ value, backslash ∉ s.chars
  | .boolean _ _ => True
  | .array _ elems => CleanElements elems
  | .objects _ members => CleanMembers members

def CleanElements : List JsonObj → Prop
  | [] => True
  | o :: os => o.key = none ∧ o.Clean ∧ CleanElements os

def CleanMembers : List JsonObj → Prop
  | [] => True
  | o :: os => PlainKey o.key ∧ o.Clean ∧ CleanMembers os

end

theorem printKey_of_plainKey (h : PlainKey key) :
    printKey key = quote :: ((keyName key).text ++ [quote, colon]) := by
  obtain ⟨k, rfl, hk⟩ := h
  rw [printKey, keyName, dif_pos hk]
  rfl

mutual

theorem printJson_eq (o : JsonObj) (h : o.Clean) : printJson o = printKey o.key ++ o.tree.text := by
  cases o with
  | string key value =>
    cases value with
    | none => rw [printJson, JsonObj.tree]; rfl
    | some s =>
      rw [JsonObj.Clean] at h
      rw [printJson, JsonObj.tree, Json.Tree.text, text_printedLeaf (h s rfl)]
      rfl
  | boolean key b => rw [printJson, JsonObj.tree]; rfl
  | array key elems =>
    rw [JsonObj.Clean] at h
    rw [printJson, JsonObj.tree, Json.Tree.text, printElements_eq elems h]
    rfl
  | objects key members =>
    rw [JsonObj.Clean] at h
    rw [printJson, JsonObj.tree, Json.Tree.text, printMembers_eq members h]
    rfl

theorem printElements_eq (os : List JsonObj) (h : CleanElements os) : printAll os = (elementTrees os).text := by
  cases os with
  | nil => rw [printAll]; rfl
  | cons o os =>
    rw [CleanElements] at h
    rw [printAll, elementTrees, Trees.text, printJson_eq o h.2.1, h.1, printElements_eq os h.2.2]
    cases os <;> simp [printKey, elementTrees, Trees.sep]

theorem printMembers_eq (os : List JsonObj) (h : CleanMembers os) : printAll os = (memberTrees os).text := by
  cases os with
  | nil => rw [printAll]; rfl
  | cons o os =>
    rw [CleanMembers] at h
    rw [printAll, memberTrees, Members.text, printJson_eq o h.2.1, printKey_of_plainKey h.1,
      printMembers_eq os h.2.2]
    cases os <;> simp [memberTrees, Members.sep]

end

/-! ## Sorting -/

theorem sortAll_eq {os os' : List JsonObj} (h : List.Forall₂ (fun o o' => sortJson o = some o') os os') :
    sortAll os = some os' := by
  induction h with
  | nil => rw [sortAll]
  | cons ho _ ih => rw [sortAll, ho, ih]; rfl

/-- The elements have these places in the other list. -/
theorem perm_of_places {α : Type*} {l l' : List α} {places : List ℕ} (hplaces : places.Perm (range l'.length))
    (h : l.map some = places.map (l'[·]?)) : l'.Perm l := by
  have hl' : (range l'.length).map (l'[·]?) = l'.map some := by
    refine ext_getElem (by simp) fun i hi _ => ?_
    rw [getElem_map, getElem_map, getElem_range, getElem?_eq_getElem]
  rw [← map_perm_map_iff (Option.some_injective α), h, ← hl']
  exact (hplaces.map _).symm

/-- Sorting an object: `ks` are the sorted names, and `places` the places of the members. -/
theorem sortJson_objects (ks : List Key) (places : List ℕ) {ws vs os : List JsonObj} (hall : sortAll ws = some vs)
    (hplaces : places.Perm (range ks.length)) (hvs : vs.map some = places.map (os[·]?))
    (hkeys : os.map JsonObj.key = ks.map fun k => some k.name) (hks : ks.Pairwise fun k l => k.ctorIdx < l.ctorIdx) :
    sortJson (.objects key ws) = some (.objects key os) := by
  have hlength : os.length = ks.length := by simpa using congrArg length hkeys
  have hsorted : os.Pairwise fun a b => compareKeys a b = some .lt := by
    have hpairs : (os.map JsonObj.key).Pairwise fun a b => ∃ k l, a = some k ∧ b = some l ∧
        strcmp k.chars l.chars = .lt := by
      rw [hkeys, pairwise_map]
      refine hks.imp fun {k l} hlt => ⟨k.name, l.name, rfl, rfl, ?_⟩
      exact (Key.strcmp_text k l).trans (Nat.compare_eq_lt.mpr hlt)
    exact (pairwise_map.mp hpairs).imp compareKeys_eq_some.mpr
  rw [sortJson, hall, Option.bind_some, exchangeSort_eq compareKeys_trans compareKeys_swap
    (perm_of_places (hlength ▸ hplaces) hvs) hsorted]
  rfl

end SgxLkl.Config
