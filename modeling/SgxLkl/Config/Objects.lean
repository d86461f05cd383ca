import SgxLkl.Config.Store
import SgxLkl.Config.Tree

/-!
# Objects that are printed and visited

A printed object passes the check of the reader, which visits its members in order.
-/

namespace SgxLkl.Config

open Json List

/-! ## Objects in order -/

/-- The text is read back, it is not deeper than `m` objects, and the names are in order. -/
structure Good (m : ℕ) (o : JsonObj) : Prop where
  clean : o.Clean
  height : o.tree.height ≤ m
  ordered : ∀ n, 18 * m ≤ n → Ordered n o.tree

theorem Good.mono {m : ℕ} {o : JsonObj} (h : Good 0 o) : Good m o :=
  ⟨h.clean, h.height.trans (Nat.zero_le m), fun n _ => h.ordered n (Nat.zero_le n)⟩

theorem Key.length_text_le : ∀ k : Key, k.text.length ≤ 17 := by decide

theorem Key.dot_lt (k : Key) : ∀ c ∈ k.text, ch '.' < c := by
  have hchar : ∀ c : Byte, isKeyChar c = true → ch '.' < c := by decide
  exact fun c hc => hchar c (all_eq_true.mp k.isKeyChar_text c hc)

theorem keyName_name (k : Key) : (keyName (some k.name)).name = k.name := by
  have hk : isPlain k.name.chars = true := isPlain_of_isKeyChar k.isKeyChar_text
  rw [keyName, dif_pos hk]
  rfl

theorem good_objects (ks : List Key) {m : ℕ} {os : List JsonObj}
    (hkeys : os.map JsonObj.key = ks.map fun k => some k.name) (h : ∀ o ∈ os, Good m o)
    (hsorted : ks.Pairwise fun k l => k.ctorIdx < l.ctorIdx) (key : Str) : Good (m + 1) (.objects key os) := by
  have hall : CleanMembers os ∧ (memberTrees os).height ≤ m ∧ ∀ (last : Option Key) (n : ℕ), 18 * (m + 1) ≤ n →
      (∀ l ∈ last, ∀ k ∈ ks, l.ctorIdx < k.ctorIdx) → OrderedMembers n (last.map Key.text) (memberTrees os) := by
    induction os generalizing ks with
    | nil =>
      exact ⟨by rw [CleanMembers]; trivial, Nat.zero_le m, fun _ _ _ _ => by rw [memberTrees, OrderedMembers]; trivial⟩
    | cons o os ih =>
      cases ks with
      | nil => cases hkeys
      | cons k ks =>
        obtain ⟨hkey, hkeys⟩ := cons.inj hkeys
        obtain ⟨hk, hks⟩ := pairwise_cons.mp hsorted
        obtain ⟨ho, hos⟩ := forall_mem_cons.mp h
        obtain ⟨hclean, hheight, hordered⟩ := ih ks hkeys hos hks
        refine ⟨?_, max_le ho.height hheight, fun last n hn hlast => ?_⟩
        · rw [CleanMembers]
          exact ⟨⟨k.name, hkey, isPlain_of_isKeyChar k.isKeyChar_text⟩, ho.clean, hclean⟩
        · have hlen := k.length_text_le
          rw [memberTrees, OrderedMembers, hkey, keyName_name]
          refine ⟨fun l hl => ?_, k.dot_lt, by show k.text.length + 1 ≤ n; omega,
            ho.ordered _ (by show 18 * m ≤ n - (k.text.length + 1); omega), hordered (some k) n hn ?_⟩
          · obtain ⟨l', hl', rfl⟩ := Option.mem_map.mp hl
            exact (Key.strcmp_text l' k).trans (Nat.compare_eq_lt.mpr (hlast l' hl' k mem_cons_self))
          · rintro _ ⟨⟩
            exact hk
  refine ⟨by rw [JsonObj.Clean]; exact hall.1, ?_, fun n hn => ?_⟩
  · rw [JsonObj.tree, Json.Tree.height]
    exact Nat.succ_le_succ hall.2.1
  · rw [JsonObj.tree, Ordered]
    exact hall.2.2 none n hn nofun

theorem good_string (key : Str) {value : Str} (h : ∀ s ∈ value, backslash ∉ s.chars) :
    Good 0 (.string key value) where
  clean := by rw [JsonObj.Clean]; exact h
  height := by cases value <;> exact le_rfl
  ordered n _ := by
    cases value with
    | none => rw [JsonObj.tree, Ordered]; exact ⟨.null, rfl⟩
    | some s => rw [JsonObj.tree, Ordered]; exact ⟨.string s, value_printedLeaf (h s rfl)⟩

theorem good_boolean (key : Str) (b : Bool) : Good 0 (.boolean key b) where
  clean := by rw [JsonObj.Clean]; trivial
  height := le_rfl
  ordered n _ := by rw [JsonObj.tree, Ordered]; exact ⟨.boolean b, rfl⟩

theorem good_array {m : ℕ} {os : List JsonObj} (h : ∀ o ∈ os, o.key = none ∧ Good m o)
    (hkind : (∀ o ∈ os, isObject o.tree = true) ∨ ∀ o ∈ os, isObject o.tree = false) (key : Str) :
    Good m (.array key os) := by
  have hall : CleanElements os ∧ (elementTrees os).height ≤ m ∧
      ∀ n, 18 * m ≤ n → OrderedTrees n (elementTrees os) := by
    induction os with
    | nil =>
      refine ⟨by rw [CleanElements]; trivial, Nat.zero_le m, fun n _ => ?_⟩
      rw [elementTrees, OrderedTrees]
      trivial
    | cons o os ih =>
      obtain ⟨hnone, ho⟩ := h o mem_cons_self
      obtain ⟨hclean, hheight, hordered⟩ := ih (fun p hp => h p (mem_cons_of_mem o hp))
        (hkind.imp (fun hk p hp => hk p (mem_cons_of_mem o hp)) fun hk p hp =>
          hk p (mem_cons_of_mem o hp))
      refine ⟨by rw [CleanElements]; exact ⟨hnone, ho.clean, hclean⟩,
        by rw [elementTrees, Trees.height]; exact max_le ho.height hheight, fun n hn => ?_⟩
      rw [elementTrees, OrderedTrees]
      refine ⟨ho.ordered n hn, hordered n hn, fun hobject => ?_⟩
      cases os with
      | nil => rfl
      | cons p os =>
        rcases hkind with hk | hk
        · rw [elementTrees, startsPlain, hk p (by simp)]
          rfl
        · rw [hk o mem_cons_self] at hobject
          cases hobject
  exact ⟨by rw [JsonObj.Clean]; exact hall.1, by rw [JsonObj.tree, Json.Tree.height]; exact hall.2.1,
    fun n hn => by rw [JsonObj.tree, Ordered]; exact hall.2.2 n hn⟩

/-! ## Values -/

/-- A `char*` as it arrives at the callback. -/
def strValue : Str → Value
  | none => .null
  | some s => .string s

section

variable {σ : Type} (f : Visitor σ) (cs : Crumbs) (d : σ)

theorem visit_string (key : Str) {value : Str} (h : ∀ s ∈ value, backslash ∉ s.chars) :
    (JsonObj.string key value).tree.doc.visit f cs d = f.value cs (strValue value) d := by
  cases value with
  | none => rw [JsonObj.tree, Json.Tree.doc, Doc.visit]; rfl
  | some s => rw [JsonObj.tree, Json.Tree.doc, Doc.visit, value_printedLeaf (h s rfl)]; rfl

theorem visit_boolean (key : Str) (b : Bool) :
    (JsonObj.boolean key b).tree.doc.visit f cs d = f.value cs (.boolean b) d := by
  rw [JsonObj.tree, Json.Tree.doc, Doc.visit]
  rfl

/-- The visit of members, one by one. -/
inductive Visits : List JsonObj → σ → σ → Prop
  | nil (d : σ) : Visits [] d d
  | cons {k : Key} {o : JsonObj} {os : List JsonObj} {d d' d'' : σ} (hkey : o.key = some k.name)
      (h : o.tree.doc.visit f ((k.name, 0) :: cs) d = .ok d') (hs : Visits os d' d'') : Visits (o :: os) d d''

theorem Visits.visit {os : List JsonObj} {d d' : σ} (h : Visits f cs os d d') :
    (memberTrees os).docs.visit f cs d = .ok d' := by
  induction h with
  | nil d => rfl
  | cons hkey h _ ih =>
    rw [memberTrees, Members.docs, DocMembers.visit, hkey, keyName_name, h]
    exact ih

theorem visit_elementTrees {os : List JsonObj} (P : σ → Prop) (put : ℕ → σ → σ) {k : ℕ}
    (h : ∀ (i : ℕ) (o : JsonObj), os[i]? = some o → ∀ d, P d →
      o.tree.doc.visit f (cs.setIndex (k + i)) d = .ok (put (k + i) d))
    (hP : ∀ i d, P d → P (put i d)) (hd : P d) :
    (elementTrees os).docs.visit f k cs d = .ok ((List.range' k os.length).foldl (fun d i => put i d) d) := by
  induction os generalizing d k with
  | nil => rfl
  | cons o os ih =>
    have h0 := h 0 o rfl d hd
    rw [Nat.add_zero] at h0
    rw [elementTrees, Trees.docs, Docs.visit, h0, length_cons, range'_succ, foldl_cons]
    refine ih _ (fun i p hp d hd => ?_) (hP k d hd)
    have hi := h (i + 1) p hp d hd
    rwa [show k + (i + 1) = k + 1 + i by omega] at hi

end

end SgxLkl.Config
