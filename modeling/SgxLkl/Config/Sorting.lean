import SgxLkl.Config.Canonical
import SgxLkl.Config.Serialize

/-!
# `sort_json`

The members of an object are sorted after what is in them. After an exchange `i -= 2` and the `i++` of the loop bring
the index to the pair in front; at the first pair `i -= 2` wraps around.

* **`sortJson_sorts`**: what becomes of a tree; **`sortJson_keyed`** if all members have names.
-/

namespace SgxLkl.Config

open List

mutual

/-- The members of every object of the tree. -/
def JsonObj.EveryObject (P : List JsonObj → Prop) : JsonObj → Prop
  | .string _ _ => True
  | .boolean _ _ => True
  | .array _ elems => everyObject P elems
  | .objects _ members => everyObject P members ∧ P members

/-- The members of every object of the trees. -/
def everyObject (P : List JsonObj → Prop) : List JsonObj → Prop
  | [] => True
  | o :: os => o.EveryObject P ∧ everyObject P os

end

/-- Any two of the members have names, and different ones. -/
def Distinct (ms : List JsonObj) : Prop := (ms.map JsonObj.key).Pairwise fun k l => k ≠ none ∧ l ≠ none ∧ k ≠ l

/-- The members of every object have been sorted, each one after what is in it. -/
inductive Sorted : JsonObj → JsonObj → Prop
  | string (key value : Str) : Sorted (.string key value) (.string key value)
  | boolean (key : Str) (value : Bool) : Sorted (.boolean key value) (.boolean key value)
  | array (key : Str) {es es' : List JsonObj} : Forall₂ Sorted es es' → Sorted (.array key es) (.array key es')
  | objects (key : Str) {ms ms' sorted : List JsonObj} : Forall₂ Sorted ms ms' → sorted.Perm ms' →
      sorted.Pairwise (fun a b => compareKeys a b = some .lt) → Sorted (.objects key ms) (.objects key sorted)

theorem Sorted.key_eq {o o' : JsonObj} (h : Sorted o o') : o'.key = o.key := by cases h <;> rfl

theorem ranked_iff (a b : JsonObj) : Ranked compareKeys a b ↔ a.key ≠ none ∧ b.key ≠ none ∧ a.key ≠ b.key := by
  unfold Ranked compareKeys
  rcases a.key with - | k <;> rcases b.key with - | l <;> simp only [ne_eq, reduceCtorEq, not_true_eq_false,
    false_and, and_false, or_self, not_false_eq_true, true_and, Option.some.injEq]
  have heq : strcmp k.chars l.chars = .eq ↔ k = l :=
    ⟨fun h => by cases k; cases l; congr; exact eq_of_strcmp_eq h, fun h => h ▸ strcmp_self _⟩
  rw [← heq]
  cases strcmp k.chars l.chars <;> simp

theorem pairwise_ranked {ms ms' : List JsonObj} (h : Forall₂ Sorted ms ms') :
    ms'.Pairwise (Ranked compareKeys) ↔ Distinct ms := by
  have hkeys : ms.map JsonObj.key = ms'.map JsonObj.key := by
    induction h with
    | nil => rfl
    | cons h _ ih => rw [map_cons, map_cons, h.key_eq, ih]
  rw [Distinct, hkeys, pairwise_map]
  exact Pairwise.iff ranked_iff

mutual

theorem sortJson_succeeds : (o : JsonObj) → Succeeds (o.EveryObject Distinct) (Sorted o) (sortJson o)
  | .string key value => by rw [sortJson]; exact ⟨trivial, .string key value⟩
  | .boolean key value => by rw [sortJson]; exact ⟨trivial, .boolean key value⟩
  | .array key elems => by rw [sortJson]; exact (sortAll_succeeds elems).map fun _ => .array key
  | .objects key members => by
    rw [sortJson]
    refine (sortAll_succeeds members).bind fun ms hms => ?_
    have hsort := (exchangeSort_spec compareKeys_trans compareKeys_swap ms).1
    rw [pairwise_ranked hms] at hsort
    exact hsort.map fun _ hl => .objects key hms hl.1 hl.2

theorem sortAll_succeeds : (os : List JsonObj) →
    Succeeds (everyObject Distinct os) (Forall₂ Sorted os) (sortAll os)
  | [] => by rw [sortAll]; exact ⟨trivial, .nil⟩
  | o :: os => by
    rw [sortAll]
    exact (sortJson_succeeds o).bind fun o' ho => (sortAll_succeeds os).map fun _ hos => .cons ho hos

end

mutual

theorem JsonObj.everyObject_iff {P Q R : List JsonObj → Prop} (h : ∀ ms, P ms → (Q ms ↔ R ms)) :
    (o : JsonObj) → o.EveryObject P → (o.EveryObject Q ↔ o.EveryObject R)
  | .string _ _, _ => Iff.rfl
  | .boolean _ _, _ => Iff.rfl
  | .array _ elems, ho => everyObject_iff h elems ho
  | .objects _ members, ho => and_congr (everyObject_iff h members ho.1) (h members ho.2)

theorem everyObject_iff {P Q R : List JsonObj → Prop} (h : ∀ ms, P ms → (Q ms ↔ R ms)) :
    (os : List JsonObj) → everyObject P os → (everyObject Q os ↔ everyObject R os)
  | [], _ => Iff.rfl
  | o :: os, hos => and_congr (o.everyObject_iff h hos.1) (everyObject_iff h os hos.2)

end

theorem distinct_iff_nodup {ms : List JsonObj} (h : ∀ m ∈ ms, m.key ≠ none) :
    Distinct ms ↔ (ms.map JsonObj.key).Nodup := by
  refine Pairwise.iff_of_mem fun {k l} hk hl => ?_
  obtain ⟨m, hm, rfl⟩ := mem_map.mp hk
  obtain ⟨m', hm', rfl⟩ := mem_map.mp hl
  simp [h m hm, h m' hm']

/-- **`sort_json` sorts.** It fails just if an object has two members without different names, and otherwise puts the
members of every object in ascending order. Its loop over `k` members ends in at most `k ^ 2 + 1` rounds. -/
theorem sortJson_sorts (o : JsonObj) :
    (o.EveryObject Distinct → ∃ o', sortJson o = some o' ∧ Sorted o o') ∧
      (sortJson o = none ↔ ¬ o.EveryObject Distinct) ∧
      ∀ ms n, ms.length * ms.length < n → exchangeRounds compareKeys n [] ms = some (exchangeSort compareKeys ms) := by
  have hsort := sortJson_succeeds o
  have hends := fun ms => (exchangeSort_spec compareKeys_trans compareKeys_swap ms).2
  cases hr : sortJson o with
  | none => rw [hr] at hsort; exact ⟨fun hd => absurd hd hsort, iff_of_true rfl hsort, hends⟩
  | some o' => rw [hr] at hsort; exact ⟨fun _ => ⟨o', rfl, hsort.2⟩, by simpa using hsort.1, hends⟩

/-- **`sort_json` on members with names.** It ends; with different names it puts the members of every object in ascending
order; and it fails if and only if some object has two members of one name. -/
theorem sortJson_keyed (o : JsonObj) (h : o.EveryObject fun ms => ∀ m ∈ ms, m.key ≠ none) :
    (∀ ms n, ms.length * ms.length < n → exchangeRounds compareKeys n [] ms = some (exchangeSort compareKeys ms)) ∧
      ((o.EveryObject fun ms => (ms.map JsonObj.key).Nodup) → ∃ o', sortJson o = some o' ∧ Sorted o o') ∧
      (sortJson o = none ↔ ¬ o.EveryObject fun ms => (ms.map JsonObj.key).Nodup) := by
  have hsort := sortJson_succeeds o
  rw [o.everyObject_iff (fun _ => distinct_iff_nodup) h] at hsort
  refine ⟨fun ms => (exchangeSort_spec compareKeys_trans compareKeys_swap ms).2, ?_⟩
  cases hr : sortJson o with
  | none => rw [hr] at hsort; exact ⟨fun hd => absurd hd hsort, iff_of_true rfl hsort⟩
  | some o' => rw [hr] at hsort; exact ⟨fun _ => ⟨o', rfl, hsort.2⟩, by simpa using hsort.1⟩

/-- An array of an object with the members `b`, `a` and another one. -/
def threeMembers (last : String) : JsonObj :=
  .array none [.objects none (["b", "a", last].map fun name => .boolean (some (Json.cstring (Json.bytes name))) true)]

/-- The members `b`, `a`, `c` are sorted, and `b`, `a`, `b` are not. -/
theorem sortJson_keyed_threeMembers :
    (∃ o', sortJson (threeMembers "c") = some o' ∧ Sorted (threeMembers "c") o') ∧
      sortJson (threeMembers "b") = none := by
  have hkeys : ∀ last, (threeMembers last).EveryObject fun ms => ∀ m ∈ ms, m.key ≠ none := by
    intro last
    simp [threeMembers, JsonObj.EveryObject, everyObject, JsonObj.key]
  refine ⟨(sortJson_keyed _ (hkeys "c")).2.1 ?_, (sortJson_keyed _ (hkeys "b")).2.2.mpr ?_⟩
  · simp only [threeMembers, JsonObj.EveryObject, everyObject, JsonObj.key, and_true, map_cons, map_nil, true_and,
      Json.cstring, nodup_cons, mem_cons, Option.some.injEq, CString.mk.injEq, not_mem_nil, nodup_nil, or_false]
    decide
  · simp [threeMembers, JsonObj.EveryObject, everyObject, JsonObj.key]

end SgxLkl.Config
