import SgxLkl.Json.Scan
import SgxLkl.Json.Unique

/-!
# Texts that are accepted

* **`readsAt`**: so it is after every run that succeeds.
* **`accepted_json_iff`**: an accepted text is JSON if and only if what the parser does not look at is.
-/

namespace SgxLkl.Json

open List Option

variable {σ : Type}

/-! ## Single steps -/

variable {allowWhitespace : Bool} {s s' : Parser σ} {v : Value} {w text : List Byte}

theorem skipWhitespace_ok (h : skipWhitespace allowWhitespace s = .ok () s') :
    ∃ u, s.rest = u ++ s'.rest ∧ s' = ⟨s'.rest, s.path, s.data⟩ ∧
      (∀ c ∈ u, isSpace c = true ∧ allowWhitespace = true) ∧
      ∀ c t, s'.rest = c :: t → isSpace c = true → allowWhitespace = true := by
  unfold skipWhitespace at h
  split_ifs at h with hallow hspace
  · cases h
    refine ⟨s.rest.takeWhile isSpace, takeWhile_append_dropWhile.symm, rfl, fun c hc => ⟨?_, hallow⟩,
      fun _ _ _ _ => hallow⟩
    simpa using mem_takeWhile_imp hc
  · cases h
    refine ⟨[], rfl, rfl, fun c hc => absurd hc not_mem_nil, fun c t hrest hc => ?_⟩
    rw [hrest] at hspace
    exact absurd hc hspace

theorem next_ok {c : Byte} (h : next s = .ok c s') : s.rest = c :: s'.rest ∧ s' = ⟨s'.rest, s.path, s.data⟩ := by
  unfold next at h
  cases hs : s.rest with
  | nil => rw [hs] at h; cases h
  | cons d ds =>
    rw [hs] at h
    cases h
    exact ⟨rfl, rfl⟩

theorem expect_ok {str : List Byte} (h : expect str s = .ok () s') :
    s.rest = str ++ s'.rest ∧ s' = ⟨s'.rest, s.path, s.data⟩ := by
  unfold expect at h
  split_ifs at h with hstr
  cases h
  obtain ⟨t, ht⟩ := isPrefixOf_iff_prefix.mp hstr
  exact ⟨by rw [← ht, drop_left], rfl⟩

theorem invoke_false_ok {callback : Callback σ} {reason : Reason}
    (h : invoke callback false reason v s = .ok () s') :
    callback s.path reason v s.data = .ok s'.data ∧ s' = ⟨s.rest, s.path, s'.data⟩ := by
  unfold invoke at h
  rw [if_neg Bool.false_ne_true] at h
  cases hcb : callback s.path reason v s.data with
  | error e => rw [hcb] at h; cases h
  | ok d =>
    rw [hcb] at h
    cases h
    exact ⟨rfl, rfl⟩

theorem enterObject_eq_ok (h : enterObject s = .ok () s') :
    s' = ⟨s.rest, { s.path with depth := s.path.depth + 1 }, s.data⟩ := by
  unfold enterObject at h
  dsimp only at h
  split_ifs at h
  cases h
  rfl

variable {env : Env σ}

theorem leaveObject_ok (h : leaveObject env false s = .ok () s') :
    env.callback s.path .endObject .null s.data = .ok s'.data ∧
      s' = ⟨s.rest, { s.path with depth := s.path.depth - 1 }, s'.data⟩ := by
  unfold leaveObject at h
  obtain ⟨_, s₁, h₁, h⟩ := bind_eq_ok_iff.mp h
  cases h₁
  split_ifs at h
  · cases h
  · obtain ⟨_, s₂, h₂, h⟩ := bind_eq_ok_iff.mp h
    obtain ⟨hcb, hs₂⟩ := invoke_false_ok h₂
    cases h
    refine ⟨hcb, ?_⟩
    rw [hs₂]

theorem expectColon_ok (h : expectColon allowWhitespace s = .ok () s') :
    ∃ u, s.rest = u ++ colon :: s'.rest ∧ s' = ⟨s'.rest, s.path, s.data⟩ ∧
      ∀ c ∈ u, isSpace c = true ∧ allowWhitespace = true := by
  obtain ⟨_, s₁, h₁, h⟩ := bind_eq_ok_iff.mp h
  obtain ⟨c, s₂, h₂, h⟩ := bind_eq_ok_iff.mp h
  obtain ⟨u, hu, hs₁, hblank, -⟩ := skipWhitespace_ok h₁
  obtain ⟨hc, hs₂⟩ := next_ok h₂
  split_ifs at h with hcolon
  · cases h
  · cases h
    rw [not_not] at hcolon
    refine ⟨u, by rw [hu, hc, hcolon], ?_, hblank⟩
    rw [hs₂, hs₁]

theorem orBadSyntax_eq_ok {α : Type} {x : ParseM σ α} {a : α}
    (h : orBadSyntax x s = .ok a s') : x s = .ok a s' := by
  unfold orBadSyntax at h
  cases hx : x s with
  | error e t => rw [hx] at h; cases h
  | ok b t => rwa [hx] at h

theorem lead_toLower : ∀ c : Byte, (lead (toLower c) = .false → c = ch 'f') ∧
    (lead (toLower c) = .null → c = ch 'n') ∧ (lead (toLower c) = .true → c = ch 't') ∧
    (lead (toLower c) = .object → c = openBrace) ∧ (lead (toLower c) = .array → c = openBracket) ∧
    (lead (toLower c) = .string → toLower c = quote) := by decide +kernel

theorem closingQuote_closes {k : ℕ} {t raw rest : List Byte} (h : closingQuote k t = some (raw, rest)) :
    k ≤ raw.length ∧ ∀ rest', closingQuote k (raw ++ quote :: rest') = some (raw, rest') := by
  induction t generalizing k raw with
  | nil => cases k <;> cases h
  | cons c cs ih =>
    cases k with
    | succ k =>
      obtain ⟨⟨raw', rest₀⟩, hcs, hr⟩ := map_eq_some_iff.mp h
      cases hr
      obtain ⟨hlen, hclose⟩ := ih hcs
      refine ⟨Nat.succ_le_succ hlen, fun rest' => ?_⟩
      rw [cons_append, closingQuote, hclose rest']
      rfl
    | zero =>
      refine ⟨Nat.zero_le _, fun rest' => ?_⟩
      rw [closingQuote] at h
      split_ifs at h with hq hb hu hlen
      · cases h
        rw [nil_append, closingQuote, if_pos rfl]
      · obtain ⟨⟨raw', rest₀⟩, hcs, hr⟩ := map_eq_some_iff.mp h
        cases hr
        obtain ⟨hfour, hclose⟩ := ih hcs
        have hraw := closingQuote_suffix hcs
        have hhead : (raw' ++ quote :: rest').head? = some (ch 'u') := by
          cases raw' with
          | nil => exact absurd hfour (by decide)
          | cons d ds =>
            rw [hraw] at hu
            exact hu
        rw [cons_append, closingQuote, if_neg hq, if_pos hb, if_pos hhead, if_neg, hclose rest']
        · rfl
        · simp only [length_append]
          omega
      · obtain ⟨⟨raw', rest₀⟩, hcs, hr⟩ := map_eq_some_iff.mp h
        cases hr
        obtain ⟨hone, hclose⟩ := ih hcs
        have hraw := closingQuote_suffix hcs
        have hhead : (raw' ++ quote :: rest').head? ≠ some (ch 'u') := by
          cases raw' with
          | nil => exact absurd hone (by decide)
          | cons d ds =>
            rw [hraw] at hu
            exact hu
        rw [cons_append, closingQuote, if_neg hq, if_pos hb, if_neg hhead, hclose rest']
        rfl
      · obtain ⟨⟨raw', rest₀⟩, hcs, hr⟩ := map_eq_some_iff.mp h
        cases hr
        rw [cons_append, closingQuote, if_neg hq, if_neg hb, (ih hcs).2 rest']
        rfl

theorem getString_ok {name : CString Byte} (h : getString false s = .ok name s') :
    ∃ raw str, s.rest = raw ++ quote :: s'.rest ∧ s' = ⟨s'.rest, s.path, s.data⟩ ∧ Closes raw ∧
      unescape raw = .ok str ∧ name = cstring str := by
  unfold getString at h
  cases hclose : closingQuote 0 s.rest with
  | none => rw [hclose] at h; cases h
  | some r =>
    obtain ⟨raw, rest⟩ := r
    rw [hclose] at h
    dsimp only at h
    rw [if_neg Bool.false_ne_true] at h
    cases hun : unescape raw with
    | error e => rw [hun] at h; cases h
    | ok str =>
      rw [hun] at h
      cases h
      exact ⟨raw, str, closingQuote_suffix hclose, rfl, (closingQuote_closes hclose).2, hun, rfl⟩

theorem NumberEnds.of_mem {c : Byte} {t rest : List Byte} (hc : c ∈ t) (h : isNumberChar c = false) : NumberEnds t rest :=
  fun ht => absurd (ht c hc) (by simp [h])

theorem NumberEnds.of_append {t rest rest' : List Byte} (h : NumberEnds t (rest ++ rest')) : NumberEnds t rest := by
  intro ht c hc
  refine h ht c ?_
  rw [head?_append, hc]
  rfl

theorem getNumber_ok {behind : List Byte} (h : getNumber allowWhitespace behind s = .ok v s') :
    ∃ t, s.rest = t ++ s'.rest ∧ s' = ⟨s'.rest, s.path, s.data⟩ ∧ LaxLeaf allowWhitespace t v ∧
      NumberEnds t s'.rest := by
  have hends : ∀ c ∈ (s.rest.dropWhile isNumberChar).head?, isNumberChar c = false := fun c hc => by
    simpa [Option.mem_def.mp hc] using head?_dropWhile_not isNumberChar s.rest
  have hsplit : s.rest.takeWhile isNumberChar ++ s.rest.dropWhile isNumberChar = s.rest :=
    takeWhile_append_dropWhile
  have hchars : ∀ c ∈ s.rest.takeWhile isNumberChar, isNumberChar c = true := fun c hc => by
    simpa using mem_takeWhile_imp hc
  have hbehind : s.rest.takeWhile isNumberChar ++ (s.rest.dropWhile isNumberChar ++ behind) =
      s.rest ++ behind := by rw [← append_assoc, hsplit]
  -- a text that was read is not empty
  have hne : ∀ k, ¬ (k ≠ (s.rest.dropWhile isNumberChar ++ behind).length ∨ k = (s.rest ++ behind).length) →
      s.rest.takeWhile isNumberChar ≠ [] := by
    intro k hk hnil
    rw [hnil, nil_append] at hsplit
    rw [hsplit] at hk
    omega
  unfold getNumber at h
  dsimp only at h
  split_ifs at h with hreal hend hend
  · cases h
    refine ⟨_, hsplit.symm, rfl, .number (hne _ hend) hchars ⟨s.rest.dropWhile isNumberChar ++ behind, ?_⟩,
      fun _ => hends⟩
    rw [if_pos hreal, hbehind]
    exact ⟨rfl, by omega⟩
  · cases h
    refine ⟨_, hsplit.symm, rfl, .number (hne _ hend) hchars ⟨s.rest.dropWhile isNumberChar ++ behind, ?_⟩,
      fun _ => hends⟩
    rw [if_neg hreal, hbehind]
    exact ⟨rfl, by omega⟩

/-! ## Gaps in front -/

def Elements.pad (w : List Byte) : Elements → Elements
  | .nil gap => .nil (w ++ gap)
  | .cons gap v es => .cons (w ++ gap) v es

def Fields.pad (w : List Byte) : Fields → Fields
  | .nil gap => .nil (w ++ gap)
  | .cons gap raw name before after v ms => .cons (w ++ gap) raw name before after v ms

theorem Elements.text_pad (w : List Byte) (es : Elements) : (es.pad w).text = w ++ es.text := by
  cases es <;> simp [Elements.pad, Elements.text]

theorem Fields.text_pad (w : List Byte) (ms : Fields) : (ms.pad w).text = w ++ ms.text := by
  cases ms <;> simp [Fields.pad, Fields.text]

theorem Elements.docs_pad (w : List Byte) (es : Elements) : (es.pad w).docs = es.docs := by
  cases es <;> rfl

theorem Fields.docs_pad (w : List Byte) (ms : Fields) : (ms.pad w).docs = ms.docs := by
  cases ms <;> rfl

theorem Elements.obeys_pad {es : Elements}
    (hw : ∀ c ∈ w, c = comma ∨ (isSpace c = true ∧ allowWhitespace = true)) {g : Gap}
    (h : es.Obeys (laxRules allowWhitespace) g) : (es.pad w).Obeys (laxRules allowWhitespace) g := by
  have hgap : ∀ gap : List Byte, (∀ c ∈ gap, c = comma ∨ (isSpace c = true ∧ allowWhitespace = true)) →
      ∀ c ∈ w ++ gap, c = comma ∨ (isSpace c = true ∧ allowWhitespace = true) :=
    fun gap hg c hc => (mem_append.mp hc).elim (hw c) (hg c)
  cases es with
  | nil gap => exact hgap gap h
  | cons gap v es => exact ⟨hgap gap h.1, h.2⟩

theorem Fields.obeys_pad {ms : Fields}
    (hw : ∀ c ∈ w, c ≠ quote ∧ c ≠ closeBrace ∧ (isSpace c = true → allowWhitespace = true)) {g : Gap}
    (h : ms.Obeys (laxRules allowWhitespace) g) : (ms.pad w).Obeys (laxRules allowWhitespace) g := by
  have hgap : ∀ gap : List Byte,
      (∀ c ∈ gap, c ≠ quote ∧ c ≠ closeBrace ∧ (isSpace c = true → allowWhitespace = true)) →
      ∀ c ∈ w ++ gap, c ≠ quote ∧ c ≠ closeBrace ∧ (isSpace c = true → allowWhitespace = true) :=
    fun gap hg c hc => (mem_append.mp hc).elim (hw c) (hg c)
  cases ms with
  | nil gap => exact hgap gap h
  | cons gap raw name before after v ms => exact ⟨hgap gap h.1, h.2⟩

/-! ## What was read -/

section

variable (env : Env σ)

def ValueRead (s s' : Parser σ) : Prop :=
  ∃ (u : List Byte) (c : Source), s.rest = u ++ (c.text ++ s'.rest) ∧ (laxRules env.allowWhitespace).blank u ∧
    c.Obeys (laxRules env.allowWhitespace) ∧ NumberEnds c.text s'.rest ∧
    c.doc.deliver env s.path s.data = .ok (s'.path, s'.data)

def ElementsRead (k m : ℕ) (s s' : Parser σ) : Prop :=
  ∃ es : Elements, s.rest = es.text ++ s'.rest ∧ (∀ g, es.Obeys (laxRules env.allowWhitespace) g) ∧
    es.docs.deliver env k s.path s.data = .ok (s'.path, s'.data) ∧ m = k + es.docs.length

def MembersRead (s s' : Parser σ) : Prop :=
  ∃ ms : Fields, s.rest = ms.text ++ s'.rest ∧ (∀ g, ms.Obeys (laxRules env.allowWhitespace) g) ∧
    ms.docs.deliver env s.path s.data = .ok (s'.path, s'.data)

def ObjectRead (s s' : Parser σ) : Prop :=
  ∃ ms : Fields, s.rest = ms.text ++ s'.rest ∧ (∀ g, ms.Obeys (laxRules env.allowWhitespace) g) ∧
    (Doc.object ms.docs).deliver env s.path s.data = .ok (s'.path, s'.data)

def ReadsAt (n : ℕ) : Prop :=
  (∀ s s', getValue env n false s = .ok () s' → ValueRead env s s') ∧
  (∀ k m s s', getArray env n false k s = .ok m s' → ElementsRead env k m s s') ∧
  (∀ s s', getObject env n false s = .ok () s' → ObjectRead env s s') ∧
  ∀ s s', getMembers env n false s = .ok () s' → MembersRead env s s'

variable {env}

theorem skip_next_ok {α : Type} {f : Parser σ → Byte → ParseM σ α} {s s' : Parser σ} {a : α}
    (h : (do skipWhitespace env.allowWhitespace; let here ← get; let c ← next; f here c) s = .ok a s') :
    ∃ u c t, s.rest = u ++ c :: t ∧ (laxRules env.allowWhitespace).blank u ∧
      f ⟨c :: t, s.path, s.data⟩ c ⟨t, s.path, s.data⟩ = .ok a s' := by
  obtain ⟨_, s₁, h₁, h⟩ := bind_eq_ok_iff.mp h
  obtain ⟨here, s₂, h₂, h⟩ := bind_eq_ok_iff.mp h
  cases h₂
  obtain ⟨c, s₃, h₃, h⟩ := bind_eq_ok_iff.mp h
  obtain ⟨u, hu, hs₁, hblank, -⟩ := skipWhitespace_ok h₁
  obtain ⟨hc, hs₃⟩ := next_ok h₃
  refine ⟨u, c, s₃.rest, by rw [hu, hc], hblank, ?_⟩
  rw [hc] at hs₁
  rw [hs₁] at hs₃
  rw [← hs₁, ← hs₃]
  exact h

variable {n : ℕ}

theorem elementsRead_succ (ih : ReadsAt env n) (k m : ℕ) (s s' : Parser σ)
    (h : getArray env (n + 1) false k s = .ok m s') : ElementsRead env k m s s' := by
  rw [getArray] at h
  obtain ⟨u, c, t, hrest, hblank, h⟩ := skip_next_ok h
  have hgap : ∀ c ∈ u, c = comma ∨ (isSpace c = true ∧ env.allowWhitespace = true) :=
    fun c hc => .inr (hblank c hc)
  split_ifs at h with hcomma hclose
  · obtain ⟨es, htext, hobeys, hdeliver, hm⟩ := ih.2.1 k m _ _ h
    refine ⟨es.pad (u ++ [comma]), ?_, fun g => Elements.obeys_pad ?_ (hobeys g), ?_, ?_⟩
    · have htext' : t = es.text ++ s'.rest := htext
      rw [hrest, hcomma, Elements.text_pad, htext']
      simp
    · intro c hc
      exact (mem_append.mp hc).elim (hgap c) fun h => .inl (mem_singleton.mp h)
    · rw [Elements.docs_pad]
      exact hdeliver
    · rw [Elements.docs_pad]
      exact hm
  · cases h
    exact ⟨.nil u, by rw [hrest, hclose, Elements.text]; simp, fun _ => hgap, rfl, rfl⟩
  · obtain ⟨_, s₁, h₁, h⟩ := bind_eq_ok_iff.mp h
    cases h₁
    obtain ⟨_, s₂, h₂, h⟩ := bind_eq_ok_iff.mp h
    obtain ⟨v, c', htext, hvblank, hvobeys, hvends, hvdeliver⟩ := ih.1 _ _ h₂
    obtain ⟨es, hes, hobeys, hdeliver, hm⟩ := ih.2.1 (k + 1) m _ _ h
    refine ⟨.cons (u ++ v) c' es, ?_, fun g => ⟨?_, hvobeys, (hes ▸ hvends).of_append, hobeys _⟩, ?_, ?_⟩
    · have htext' : c :: t = v ++ (c'.text ++ s₂.rest) := htext
      rw [hrest, htext', hes, Elements.text]
      simp
    · intro c hc
      exact (mem_append.mp hc).elim (hgap c) fun h => .inr (hvblank c h)
    · rw [Elements.docs, Docs.deliver]
      exact exceptBind_eq_ok.mpr ⟨_, hvdeliver, hdeliver⟩
    · rw [Elements.docs, Docs.length, hm]
      omega

theorem objectRead_succ (ih : ReadsAt env n) (s s' : Parser σ)
    (h : getObject env (n + 1) false s = .ok () s') : ObjectRead env s s' := by
  rw [getObject] at h
  obtain ⟨_, s₁, h₁, h⟩ := bind_eq_ok_iff.mp h
  obtain ⟨_, s₂, h₂, h⟩ := bind_eq_ok_iff.mp h
  obtain ⟨_, s₃, h₃, h⟩ := bind_eq_ok_iff.mp h
  obtain ⟨hbegin, hs₁⟩ := invoke_false_ok h₁
  obtain ⟨hend, hs'⟩ := leaveObject_ok h
  obtain rfl := enterObject_eq_ok h₂
  obtain ⟨ms, htext, hobeys, hdeliver⟩ := ih.2.2.2 _ _ h₃
  rw [hs₁] at htext hdeliver
  refine ⟨ms, ?_, hobeys, ?_⟩
  · rw [hs']
    exact htext
  · rw [Doc.deliver, hs']
    refine exceptBind_eq_ok.mpr ⟨_, hbegin, exceptBind_eq_ok.mpr ⟨_, hdeliver, ?_⟩⟩
    exact exceptBind_eq_ok.mpr ⟨_, hend, rfl⟩

theorem membersRead_succ (ih : ReadsAt env n) (s s' : Parser σ)
    (h : getMembers env (n + 1) false s = .ok () s') : MembersRead env s s' := by
  rw [getMembers] at h
  obtain ⟨_, s₁, h₁, h⟩ := bind_eq_ok_iff.mp h
  obtain ⟨c, s₂, h₂, h⟩ := bind_eq_ok_iff.mp h
  obtain ⟨u, hu, hs₁, hblank, hhead⟩ := skipWhitespace_ok h₁
  obtain ⟨hc, hs₂⟩ := next_ok h₂
  rw [hs₁] at hs₂
  have hgap : ∀ c ∈ u, c ≠ quote ∧ c ≠ closeBrace ∧ (isSpace c = true → env.allowWhitespace = true) := by
    intro c hc
    obtain ⟨hspace, hallow⟩ := hblank c hc
    refine ⟨?_, ?_, fun _ => hallow⟩ <;> rintro rfl <;> exact absurd hspace (by decide)
  split_ifs at h with hquote hclose
  · obtain ⟨name, s₃, h₃, h⟩ := bind_eq_ok_iff.mp h
    obtain ⟨_, s₄, h₄, h⟩ := bind_eq_ok_iff.mp h
    cases h₄
    obtain ⟨_, s₅, h₅, h⟩ := bind_eq_ok_iff.mp h
    obtain ⟨_, s₆, h₆, h⟩ := bind_eq_ok_iff.mp h
    obtain ⟨_, s₇, h₇, h⟩ := bind_eq_ok_iff.mp h
    obtain ⟨raw, str, hraw, hs₃, hcloses, hstr, hname⟩ := getString_ok h₃
    obtain ⟨hcb, hs₅⟩ := invoke_false_ok h₅
    obtain ⟨before, hbefore, hs₆, hbblank⟩ := expectColon_ok h₆
    obtain ⟨after, v, hv, hablank, hvobeys, hvends, hvdeliver⟩ := ih.1 _ _ h₇
    obtain ⟨ms, hms, hobeys, hdeliver⟩ := ih.2.2.2 _ _ h
    refine ⟨.cons u raw name before after v ms, ?_, fun g => ⟨hgap, ⟨hcloses, str, hstr, hname⟩, hbblank,
      hablank, hvobeys, (hms ▸ hvends).of_append, hobeys _⟩, ?_⟩
    · rw [hs₅] at hbefore
      have hbefore' : s₃.rest = before ++ colon :: s₆.rest := hbefore
      rw [hu, hc, hquote, hraw, hbefore', hv, hms, Fields.text]
      simp
    · rw [hs₃, hs₂] at hcb hs₅
      rw [hs₅] at hs₆
      rw [hs₆] at hvdeliver
      rw [Fields.docs, DocMembers.deliver]
      exact exceptBind_eq_ok.mpr ⟨_, hcb, exceptBind_eq_ok.mpr ⟨_, hvdeliver, hdeliver⟩⟩
  · cases h
    exact ⟨.nil u, by rw [hu, hc, hclose, Fields.text]; simp, fun _ => hgap, by rw [hs₂]; rfl⟩
  · obtain ⟨ms, hms, hobeys, hdeliver⟩ := ih.2.2.2 _ _ h
    refine ⟨ms.pad (u ++ [c]), ?_, fun g => Fields.obeys_pad ?_ (hobeys g), ?_⟩
    · rw [hu, hc, hms, Fields.text_pad]
      simp
    · intro d hd
      rcases mem_append.mp hd with hd | hd
      · exact hgap d hd
      · rw [mem_singleton.mp hd]
        exact ⟨hquote, hclose, hhead c _ hc⟩
    · rw [Fields.docs_pad]
      rw [hs₂] at hdeliver
      exact hdeliver

theorem valueRead_succ (ih : ReadsAt env n) (s s' : Parser σ)
    (h : getValue env (n + 1) false s = .ok () s') : ValueRead env s s' := by
  rw [getValue] at h
  obtain ⟨u, c, t, hrest, hblank, h⟩ := skip_next_ok h
  have hleaf : ∀ (w rest : List Byte) (v : Value), c :: t = w ++ rest → LaxLeaf env.allowWhitespace w v →
      NumberEnds w rest → invoke env.callback false .value v ⟨rest, s.path, s.data⟩ = .ok () s' → ValueRead env s s' := by
    intro w rest v hw hlax hends hinvoke
    obtain ⟨hcb, hs'⟩ := invoke_false_ok hinvoke
    refine ⟨u, .leaf w v, ?_, hblank, hlax, ?_, ?_⟩
    · rw [hrest, hw, hs', Source.text]
    · rw [hs', Source.text]
      exact hends
    · rw [Source.doc, Doc.deliver, hs']
      exact exceptBind_eq_ok.mpr ⟨v, rfl, exceptBind_eq_ok.mpr ⟨_, hcb, rfl⟩⟩
  have hliteral : ∀ (str : List Byte) (v : Value), LaxLeaf env.allowWhitespace (c :: str) v →
      isNumberChar c = false → (do expect str; invoke env.callback false .value v : ParseM σ Unit) ⟨t, s.path, s.data⟩ = .ok () s' →
      ValueRead env s s' := by
    intro str v hlax hc hexpect
    obtain ⟨_, s₁, h₁, hinvoke⟩ := bind_eq_ok_iff.mp hexpect
    obtain ⟨ht, hs₁⟩ := expect_ok h₁
    have ht' : t = str ++ s₁.rest := ht
    rw [hs₁] at hinvoke
    exact hleaf (c :: str) s₁.rest v (by rw [ht']; rfl) hlax (.of_mem mem_cons_self hc) hinvoke
  obtain ⟨hfalse, hnull, htrue, hobject, harray, hstring⟩ := lead_toLower c
  cases hlead : lead (toLower c) with
  | false =>
    rw [hlead] at h
    exact hliteral (bytes "alse") _ (hfalse hlead ▸ .false) (hfalse hlead ▸ rfl) h
  | null =>
    rw [hlead] at h
    exact hliteral (bytes "ull") _ (hnull hlead ▸ .null) (hnull hlead ▸ rfl) h
  | true =>
    rw [hlead] at h
    exact hliteral (bytes "rue") _ (htrue hlead ▸ .true) (htrue hlead ▸ rfl) h
  | object =>
    rw [hlead] at h
    obtain ⟨ms, hms, hobeys, hdeliver⟩ := ih.2.2.1 _ _ h
    have hms' : t = ms.text ++ s'.rest := hms
    exact ⟨u, .object ms, by rw [hrest, hobject hlead, hms', Source.text]; rfl, hblank, hobeys _,
      .of_mem mem_cons_self rfl, hdeliver⟩
  | string =>
    rw [hlead] at h
    obtain ⟨str, s₁, h₁, h⟩ := bind_eq_ok_iff.mp h
    obtain ⟨raw, str', hraw, hs₁, hcloses, hstr, rfl⟩ := getString_ok (orBadSyntax_eq_ok h₁)
    have hraw' : t = raw ++ quote :: s₁.rest := hraw
    rw [hs₁] at h
    exact hleaf (c :: (raw ++ [quote])) s₁.rest _ (by rw [hraw']; simp) (.string (hstring hlead) hcloses hstr)
      (.of_mem (c := quote) (by simp) rfl) h
  | number =>
    rw [hlead] at h
    obtain ⟨_, s₁, h₁, h⟩ := bind_eq_ok_iff.mp h
    cases h₁
    obtain ⟨v, s₂, h₂, h⟩ := bind_eq_ok_iff.mp h
    obtain ⟨w, hw, hs₂, hlax, hends⟩ := getNumber_ok h₂
    rw [hs₂] at h
    exact hleaf w s₂.rest v hw hlax hends h
  | array =>
    rw [hlead] at h
    obtain ⟨s₀, s₁, h₁, h⟩ := bind_eq_ok_iff.mp h
    cases h₁
    dsimp only at h
    cases hscan : getArray env n true 0 ⟨t, s.path, s.data⟩ with
    | error e w => rw [hscan] at h; cases h
    | ok size w =>
      rw [hscan] at h
      obtain ⟨_, s₂, h₂, h⟩ := bind_eq_ok_iff.mp h
      cases h₂
      obtain ⟨_, s₃, h₃, h⟩ := bind_eq_ok_iff.mp h
      obtain ⟨m, s₄, h₄, h⟩ := bind_eq_ok_iff.mp h
      obtain ⟨hbegin, hs₃⟩ := invoke_false_ok h₃
      obtain ⟨hend, hs'⟩ := invoke_false_ok h
      have hread := orBadSyntax_eq_ok h₄
      obtain ⟨es, hes, hobeys, hdeliver, hm⟩ := ih.2.1 0 m _ _ hread
      -- the scan has counted the elements that were read
      have hsize : m = size := getArray_count (by rw [hs₃]; exact ⟨rfl, rfl⟩) hread hscan
      rw [Nat.zero_add] at hm
      rw [← hsize, hm] at hbegin hend hs₃
      rw [hs₃] at hes hdeliver
      have hes' : t = es.text ++ s₄.rest := hes
      refine ⟨u, .array es, ?_, hblank, hobeys _, .of_mem mem_cons_self rfl, ?_⟩
      · rw [hrest, harray hlead, hes', hs', Source.text]
        rfl
      · rw [Source.doc, Doc.deliver, hs']
        refine exceptBind_eq_ok.mpr ⟨_, hbegin, exceptBind_eq_ok.mpr ⟨(s₄.path, s₄.data), ?_, ?_⟩⟩
        · exact mapError_eq_ok.mpr hdeliver
        · exact exceptBind_eq_ok.mpr ⟨_, hend, rfl⟩

theorem readsAt (n : ℕ) : ReadsAt env n := by
  induction n with
  | zero =>
    refine ⟨fun _ _ h => ?_, fun _ _ _ _ h => ?_, fun _ _ h => ?_, fun _ _ h => ?_⟩
    · rw [getValue] at h; cases h
    · rw [getArray] at h; cases h
    · rw [getObject] at h; cases h
    · rw [getMembers] at h; cases h
  | succ n ih => exact ⟨valueRead_succ ih, elementsRead_succ ih, objectRead_succ ih, membersRead_succ ih⟩

end

/-! ## Whole texts -/

theorem jsonParse_ok {d : σ} (h : jsonParse env text d = .ok () s) : ∃ u ms, Taken env.allowWhitespace text u ms s.rest ∧
    (Source.object ms).doc.deliver env rootPath d = .ok (s.path, s.data) := by
  unfold jsonParse at h
  dsimp only at h
  split_ifs at h
  unfold parse at h
  obtain ⟨_, s₀, h₀, h⟩ := bind_eq_ok_iff.mp h
  cases h₀
  obtain ⟨_, s₁, h₁, h⟩ := bind_eq_ok_iff.mp h
  obtain ⟨c, s₂, h₂, h⟩ := bind_eq_ok_iff.mp h
  obtain ⟨u, hu, hs₁, hblank, -⟩ := skipWhitespace_ok h₁
  obtain ⟨hc, hs₂⟩ := next_ok h₂
  rw [hs₁] at hs₂
  split_ifs at h with hbrace
  · cases h
  · rw [not_not] at hbrace
    obtain ⟨ms, hms, hobeys, hdeliver⟩ := (readsAt _).2.2.1 _ _ h
    rw [hs₂] at hdeliver
    have hu' : text = u ++ s₁.rest := hu
    refine ⟨u, ms, ⟨?_, hblank, hobeys _⟩, hdeliver⟩
    rw [hu', hc, hbrace, hms, Source.text]
    rfl

theorem exists_of_outcome (h : (outcome true [] text).1 = none) :
    ∃ s, jsonParse (logEnv true []) text [] = .ok () s := by
  rw [outcome] at h
  cases hparse : jsonParse (logEnv true []) text [] with
  | ok a s => exact ⟨s, rfl⟩
  | error e s =>
    rw [hparse] at h
    cases h

/-- A digit, as it is written. -/
def digitSource (c : Char) : Source := .leaf [ch c] (.integer (BitVec.ofNat 64 (c.toNat - 0x30)))

/-- What is behind the first brace of `{"a":[1,2] }`. -/
def sampleFields : Fields :=
  .cons [] (bytes "a") (cstring (bytes "a")) [] []
    (.array (.cons [] (digitSource '1') (.cons [comma] (digitSource '2') (.nil [])))) (.nil [ch ' '])

theorem strict_sampleFields : (Source.object sampleFields).Obeys strictRules := by
  have hws : IsWs [] := fun c hc => absurd hc not_mem_nil
  have hdigit : ∀ c ∈ ['1', '2'], (digitSource c).Obeys strictRules := by
    intro c hc
    have hnumber : IsDigits [ch c] ∧ [ch c].head? ≠ some (ch '0') ∧ ReadsNumber true [ch c]
        (.integer (BitVec.ofNat 64 (c.toNat - 0x30))) := by
      rcases mem_pair.mp hc with rfl | rfl <;> exact ⟨⟨by simp, by decide⟩, by decide, [], rfl, rfl⟩
    exact .number ⟨[], [ch c], [], [], rfl, .inl rfl, .inr ⟨hnumber.1, hnumber.2.1⟩, .inl rfl, .inl rfl⟩ hnumber.2.2
  have hchars : IsChars (bytes "a") := .plain (by decide) (by decide) (by decide) .nil
  refine ⟨hws, ⟨hchars, _, rfl, rfl⟩, hws, hws, ⟨hws, hdigit '1' (by simp), trivial, ⟨[], [], rfl, hws, hws⟩,
    hdigit '2' (by simp), trivial, hws⟩, trivial, ?_⟩
  intro c hc
  exact .inl (mem_singleton.mp hc)

end SgxLkl.Json
