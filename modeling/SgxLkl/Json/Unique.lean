import SgxLkl.Json.Source

/-!
# A text is read in one way

* **`Fields.unique`**: two ways to take a text by the lax rules differ in the values of numbers at most.
* `Source.lax_of_strict`: JSON is taken by the lax rules.
-/

namespace SgxLkl.Json

open List

/-! ## Values without parts -/

theorem append_cons_unique {p : Byte → Prop} {w w' t t' : List Byte} {b b' : Byte} (hw : ∀ c ∈ w, p c)
    (hw' : ∀ c ∈ w', p c) (hb : ¬ p b) (hb' : ¬ p b') (h : w ++ b :: t = w' ++ b' :: t') :
    w = w' ∧ b = b' ∧ t = t' := by
  induction w generalizing w' with
  | nil =>
    cases w' with
    | nil => simpa using h
    | cons c w' => exact absurd (hw' c mem_cons_self) ((cons.inj h).1 ▸ hb)
  | cons c w ih =>
    cases w' with
    | nil => exact absurd (hw c mem_cons_self) ((cons.inj h).1 ▸ hb')
    | cons c' w' =>
      obtain ⟨rfl, htail⟩ := cons.inj h
      obtain ⟨rfl, hrest⟩ := ih (fun d hd => hw d (mem_cons_of_mem c hd))
        (fun d hd => hw' d (mem_cons_of_mem c hd)) htail
      exact ⟨rfl, hrest⟩

/-- The value without parts that a text begins with. -/
def leafToken : List Byte → List Byte
  | [] => []
  | c :: cs =>
    match lead (toLower c) with
    | .false => (c :: cs).take 5
    | .null | .true => (c :: cs).take 4
    | .string => c :: (closingQuote 0 cs).elim [] fun r => r.1 ++ [quote]
    | _ => (c :: cs).takeWhile isNumberChar

/-- The first byte of a value without parts. -/
def startsLeaf (c : Byte) : Bool :=
  isNumberChar c || lead (toLower c) ∈ [Lead.false, .null, .true, .string]

variable {allowWhitespace : Bool} {t t' rest rest' : List Byte} {v v' : Value}

theorem lead_of_isNumberChar : ∀ c : Byte, isNumberChar c = true → lead (toLower c) = .number := by decide +kernel

theorem starts_of_laxLeaf (h : LaxLeaf allowWhitespace t v) : ∃ c cs, t = c :: cs ∧ startsLeaf c = true := by
  cases h with
  | false | null | true => exact ⟨_, _, rfl, by decide +kernel⟩
  | string ho _ _ => exact ⟨_, _, rfl, by simp [startsLeaf, ho, lead, ch]⟩
  | number hne ht _ =>
    obtain ⟨c, cs, rfl⟩ := exists_cons_of_ne_nil hne
    exact ⟨c, cs, rfl, by simp [startsLeaf, ht c mem_cons_self]⟩

theorem leafToken_append (h : LaxLeaf allowWhitespace t v) (hr : NumberEnds t rest) : leafToken (t ++ rest) = t := by
  cases h with
  | false | null | true => rfl
  | @string o raw str ho hraw _ =>
    have hlead : lead (toLower o) = .string := by rw [ho]; decide
    rw [cons_append, leafToken, hlead, append_assoc, singleton_append, hraw rest]
    rfl
  | number hne ht _ =>
    obtain ⟨c, cs, rfl⟩ := exists_cons_of_ne_nil hne
    rw [cons_append, leafToken, lead_of_isNumberChar c (ht c mem_cons_self), ← cons_append]
    have hrest : rest.takeWhile isNumberChar = [] := by
      cases rest with
      | nil => rfl
      | cons d ds => rw [takeWhile_cons, hr ht d rfl]; rfl
    rw [takeWhile_append_of_pos ht, hrest, append_nil]

theorem laxLeaf_unique (h : LaxLeaf allowWhitespace t v) (h' : LaxLeaf allowWhitespace t' v')
    (hr : NumberEnds t rest) (hr' : NumberEnds t' rest') (heq : t ++ rest = t' ++ rest') : t = t' := by
  rw [← leafToken_append h hr, heq, leafToken_append h' hr']

theorem NumberEnds.append (h : NumberEnds t rest) (hne : rest ≠ []) : NumberEnds t (rest ++ rest') := by
  obtain ⟨c, cs, rfl⟩ := exists_cons_of_ne_nil hne
  exact h

/-! ## Documents -/

theorem Elements.text_ne_nil : ∀ es : Elements, es.text ≠ []
  | .nil gap => by simp [Elements.text]
  | .cons gap v es => by simp [Elements.text, es.text_ne_nil]

theorem Fields.text_ne_nil (ms : Fields) : ms.text ≠ [] := by cases ms <;> simp [Fields.text]

mutual

/-- Without the values, which are not those of the text if a number goes on behind it. -/
def Source.bare : Source → Source
  | .leaf text _ => .leaf text .null
  | .array es => .array es.bare
  | .object ms => .object ms.bare

/-- `Source.bare` for all elements. -/
def Elements.bare : Elements → Elements
  | .nil gap => .nil gap
  | .cons gap v es => .cons gap v.bare es.bare

/-- `Source.bare` for all members. -/
def Fields.bare : Fields → Fields
  | .nil gap => .nil gap
  | .cons gap raw name before after v ms => .cons gap raw name before after v.bare ms.bare

end

theorem startsLeaf_facts : ∀ c : Byte, startsLeaf c = true ∨ c = openBracket ∨ c = openBrace →
    c ≠ comma ∧ isSpace c = false ∧ c ≠ closeBracket := by decide +kernel

theorem Source.starts {c : Source} (h : c.Obeys (laxRules allowWhitespace)) :
    ∃ b t, c.text = b :: t ∧ ¬ (b = comma ∨ (isSpace b = true ∧ allowWhitespace = true)) ∧ b ≠ closeBracket := by
  have hb : ∃ b t, c.text = b :: t ∧ (startsLeaf b = true ∨ b = openBracket ∨ b = openBrace) := by
    cases c with
    | leaf text v =>
      obtain ⟨b, t, rfl, hb⟩ := starts_of_laxLeaf h
      exact ⟨b, t, rfl, .inl hb⟩
    | array es => exact ⟨_, _, rfl, .inr (.inl rfl)⟩
    | object ms => exact ⟨_, _, rfl, .inr (.inr rfl)⟩
  obtain ⟨b, t, hbt, hb⟩ := hb
  obtain ⟨hcomma, hspace, hclose⟩ := startsLeaf_facts b hb
  exact ⟨b, t, hbt, fun h => h.elim hcomma fun h => absurd h.1 (by simp [hspace]), hclose⟩

theorem not_startsLeaf : startsLeaf openBracket = false ∧ startsLeaf openBrace = false := by decide +kernel

theorem ne_cons_of_laxLeaf (h : LaxLeaf allowWhitespace t v) {b : Byte} (hb : startsLeaf b = false) :
    t ++ rest ≠ b :: rest' := by
  obtain ⟨c, cs, rfl, hc⟩ := starts_of_laxLeaf h
  intro heq
  rw [← (cons.inj heq).1, hc] at hb
  cases hb

mutual

theorem Source.unique {r r' : List Byte} (c c' : Source) (h : c.Obeys (laxRules allowWhitespace))
    (h' : c'.Obeys (laxRules allowWhitespace)) (hr : NumberEnds c.text r) (hr' : NumberEnds c'.text r')
    (heq : c.text ++ r = c'.text ++ r') : c.bare = c'.bare ∧ r = r' := by
  cases c with
  | leaf t v =>
    cases c' with
    | leaf t' v' =>
      obtain rfl : t = t' := laxLeaf_unique h h' hr hr' heq
      exact ⟨by rw [Source.bare, Source.bare], append_cancel_left heq⟩
    | array es' => exact absurd heq (ne_cons_of_laxLeaf h not_startsLeaf.1)
    | object ms' => exact absurd heq (ne_cons_of_laxLeaf h not_startsLeaf.2)
  | array es =>
    cases c' with
    | leaf t' v' => exact absurd heq.symm (ne_cons_of_laxLeaf h' not_startsLeaf.1)
    | array es' =>
      obtain ⟨hes, hr⟩ := Elements.unique es es' h h' (cons.inj heq).2
      exact ⟨by rw [Source.bare, Source.bare, hes], hr⟩
    | object ms' => exact absurd (cons.inj heq).1 (by decide)
  | object ms =>
    cases c' with
    | leaf t' v' => exact absurd heq.symm (ne_cons_of_laxLeaf h' not_startsLeaf.2)
    | array es' => exact absurd (cons.inj heq).1 (by decide)
    | object ms' =>
      obtain ⟨hms, hr⟩ := Fields.unique ms ms' h h' (cons.inj heq).2
      exact ⟨by rw [Source.bare, Source.bare, hms], hr⟩

theorem Elements.unique {g g' : Gap} {r r' : List Byte} (es es' : Elements) (h : es.Obeys (laxRules allowWhitespace) g)
    (h' : es'.Obeys (laxRules allowWhitespace) g') (heq : es.text ++ r = es'.text ++ r') :
    es.bare = es'.bare ∧ r = r' := by
  have hclose : ¬ (closeBracket = comma ∨ (isSpace closeBracket = true ∧ allowWhitespace = true)) := by
    rintro (h | h)
    · exact absurd h (by decide)
    · exact absurd h.1 (by decide)
  cases es with
  | nil gap =>
    cases es' with
    | nil gap' =>
      simp only [Elements.text, append_assoc, singleton_append] at heq
      obtain ⟨rfl, -, rfl⟩ := append_cons_unique h h' hclose hclose heq
      exact ⟨rfl, rfl⟩
    | cons gap' v' es' =>
      obtain ⟨b, t, hbt, hb, hbracket⟩ := Source.starts h'.2.1
      simp only [Elements.text, hbt, append_assoc, cons_append] at heq
      exact absurd (append_cons_unique h h'.1 hclose hb heq).2.1 hbracket.symm
  | cons gap v es =>
    obtain ⟨b, t, hbt, hb, hbracket⟩ := Source.starts h.2.1
    cases es' with
    | nil gap' =>
      simp only [Elements.text, hbt, append_assoc, cons_append] at heq
      exact absurd (append_cons_unique h.1 h' hb hclose heq).2.1 hbracket
    | cons gap' v' es' =>
      obtain ⟨hgap, hv, hends, hes⟩ := h
      obtain ⟨hgap', hv', hends', hes'⟩ := h'
      obtain ⟨b', t', hbt', hb', -⟩ := Source.starts hv'
      have hsplit : gap = gap' ∧ v.text ++ (es.text ++ r) = v'.text ++ (es'.text ++ r') := by
        simp only [Elements.text, hbt, hbt', append_assoc, cons_append] at heq ⊢
        obtain ⟨rfl, rfl, ht⟩ := append_cons_unique hgap hgap' hb hb' heq
        exact ⟨rfl, congrArg _ ht⟩
      obtain ⟨rfl, hvalue⟩ := hsplit
      obtain ⟨hbare, hrest⟩ :=
        Source.unique v v' hv hv' (hends.append es.text_ne_nil) (hends'.append es'.text_ne_nil) hvalue
      obtain ⟨hesbare, rfl⟩ := Elements.unique es es' hes hes' hrest
      exact ⟨by rw [Elements.bare, Elements.bare, hbare, hesbare], rfl⟩

theorem Fields.unique {g g' : Gap} {r r' : List Byte} (ms ms' : Fields) (h : ms.Obeys (laxRules allowWhitespace) g)
    (h' : ms'.Obeys (laxRules allowWhitespace) g') (heq : ms.text ++ r = ms'.text ++ r') :
    ms.bare = ms'.bare ∧ r = r' := by
  have hclose : ¬ (closeBrace ≠ quote ∧ closeBrace ≠ closeBrace ∧
    (isSpace closeBrace = true → allowWhitespace = true)) := by simp
  have hquote : ¬ (quote ≠ quote ∧ quote ≠ closeBrace ∧ (isSpace quote = true → allowWhitespace = true)) := by simp
  cases ms with
  | nil gap =>
    cases ms' with
    | nil gap' =>
      simp only [Fields.text, append_assoc, cons_append] at heq
      obtain ⟨rfl, -, rfl⟩ := append_cons_unique h h' hclose hclose heq
      exact ⟨rfl, rfl⟩
    | cons gap' raw' name' before' after' v' ms' =>
      simp only [Fields.text, append_assoc, cons_append] at heq
      exact absurd (append_cons_unique h h'.1 hclose hquote heq).2.1 (by decide)
  | cons gap raw name before after v ms =>
    cases ms' with
    | nil gap' =>
      simp only [Fields.text, append_assoc, cons_append] at heq
      exact absurd (append_cons_unique h.1 h' hquote hclose heq).2.1 (by decide)
    | cons gap' raw' name' before' after' v' ms' =>
      obtain ⟨hgap, ⟨hraw, str, hstr, rfl⟩, hbefore, hafter, hv, hends, hms⟩ := h
      obtain ⟨hgap', ⟨hraw', str', hstr', rfl⟩, hbefore', hafter', hv', hends', hms'⟩ := h'
      simp only [Fields.text, append_assoc, cons_append] at heq
      obtain ⟨rfl, -, hraws⟩ := append_cons_unique hgap hgap' hquote hquote heq
      -- the closing quote of a name is found
      have hname := hraw (before ++ colon :: (after ++ (v.text ++ (ms.text ++ r))))
      rw [hraws, hraw'] at hname
      obtain ⟨rfl, hcolons⟩ := Prod.mk.inj (Option.some.inj hname)
      obtain rfl : str' = str := Except.ok.inj (hstr'.symm.trans hstr)
      have hcolon : ¬ (isSpace colon = true ∧ allowWhitespace = true) := fun h => absurd h.1 (by decide)
      obtain ⟨rfl, -, hafters⟩ := append_cons_unique hbefore' hbefore hcolon hcolon hcolons
      obtain ⟨b, t, hbt, hb, -⟩ := Source.starts hv
      obtain ⟨b', t', hbt', hb', -⟩ := Source.starts hv'
      have hsplit : after' = after ∧ v'.text ++ (ms'.text ++ r') = v.text ++ (ms.text ++ r) := by
        simp only [hbt, hbt', cons_append] at hafters ⊢
        obtain ⟨rfl, rfl, ht⟩ :=
          append_cons_unique hafter' hafter (fun h => hb' (.inr h)) (fun h => hb (.inr h)) hafters
        exact ⟨rfl, congrArg _ ht⟩
      obtain ⟨rfl, hvalue⟩ := hsplit
      obtain ⟨hbare, hrest⟩ :=
        Source.unique v v' hv hv' (hends.append ms.text_ne_nil) (hends'.append ms'.text_ne_nil) hvalue.symm
      obtain ⟨hmsbare, rfl⟩ := Fields.unique ms ms' hms hms' hrest
      exact ⟨by rw [Fields.bare, Fields.bare, hbare, hmsbare], rfl⟩

end

/-- The text is white space, an object that the parser takes, and a rest. -/
structure Taken (allowWhitespace : Bool) (text u : List Byte) (ms : Fields) (rest : List Byte) : Prop where
  text_eq : text = u ++ ((Source.object ms).text ++ rest)
  blank : (laxRules allowWhitespace).blank u
  obeys : (Source.object ms).Obeys (laxRules allowWhitespace)

theorem Taken.unique {text u u' : List Byte} {ms ms' : Fields} (h : Taken allowWhitespace text u ms rest)
    (h' : Taken allowWhitespace text u' ms' rest') : u = u' ∧ ms.bare = ms'.bare ∧ rest = rest' := by
  have hbrace : ¬ (isSpace openBrace = true ∧ allowWhitespace = true) := fun h => absurd h.1 (by decide)
  have heq := h.text_eq.symm.trans h'.text_eq
  obtain ⟨rfl, -, htail⟩ := append_cons_unique h.blank h'.blank hbrace hbrace heq
  exact ⟨rfl, Fields.unique ms ms' h.obeys h'.obeys htail⟩

/-! ## JSON is taken -/

theorem closes_of_isChars {raw : List Byte} (h : IsChars raw) : Closes raw := by
  intro rest
  induction h with
  | nil => rfl
  | plain _ hq hb _ ih =>
    rw [cons_append, closingQuote, if_neg hq, if_neg hb, ih]
    rfl
  | @escape c cs hc _ ih =>
    have hu : c ≠ ch 'u' := by rintro rfl; exact absurd hc (by decide)
    rw [cons_append, cons_append, closingQuote, if_neg (by decide), if_pos rfl, head?_cons,
      if_neg fun h => hu (Option.some.inj h), closingQuote, ih]
    rfl
  | @hex x y z w cs hc _ ih =>
    have hw : w ≠ quote ∧ w ≠ backslash := by
      have hhex := hc w (by simp)
      constructor <;> rintro rfl <;> exact absurd hhex (by decide)
    simp only [cons_append]
    rw [closingQuote, if_neg (by decide), if_pos rfl, head?_cons, if_pos rfl, if_neg (by simp), closingQuote,
      closingQuote, closingQuote, closingQuote, closingQuote, if_neg hw.1, if_neg hw.2, ih]
    rfl

theorem isNumberChar_of_isDigits {ds : List Byte} (h : IsDigits ds) : ∀ c ∈ ds, isNumberChar c = true :=
  fun c hc => by simp [isNumberChar, h.2 c hc]

theorem IsNumber.isNumberChar (h : IsNumber t) : t ≠ [] ∧ ∀ c ∈ t, isNumberChar c = true := by
  obtain ⟨minus, int, frac, exp, rfl, hminus, hint, hfrac, hexp⟩ := h
  have hne : int ≠ [] := by
    rcases hint with rfl | h
    · simp
    · exact h.1.1
  refine ⟨by simp [hne], fun c hc => ?_⟩
  rw [mem_append, mem_append, mem_append] at hc
  rcases hc with hc | hc | hc | hc
  · rcases hminus with rfl | rfl
    · cases hc
    · rw [mem_singleton.mp hc]; rfl
  · rcases hint with rfl | h
    · rw [mem_singleton.mp hc]; rfl
    · exact isNumberChar_of_isDigits h.1 c hc
  · rcases hfrac with rfl | ⟨ds, rfl, h⟩
    · cases hc
    · rcases mem_cons.mp hc with rfl | hc
      · rfl
      · exact isNumberChar_of_isDigits h c hc
  · rcases hexp with rfl | ⟨e, sign, ds, rfl, he, hsign, h⟩
    · cases hc
    · rcases mem_cons.mp hc with rfl | hc
      · rcases he with rfl | rfl <;> rfl
      · rcases mem_append.mp hc with hc | hc
        · rcases hsign with rfl | rfl | rfl
          · cases hc
          all_goals rw [mem_singleton.mp hc]; rfl
        · exact isNumberChar_of_isDigits h c hc

theorem laxLeaf_of_strict (h : StrictLeaf t v) : LaxLeaf true t v := by
  cases h with
  | false => exact .false
  | null => exact .null
  | true => exact .true
  | string hraw hstr => exact .string (by decide) (closes_of_isChars hraw) hstr
  | number ht hv => exact .number ht.isNumberChar.1 ht.isNumberChar.2 hv

theorem isWs_facts : ∀ c : Byte, c = 0x20 ∨ c = 0x09 ∨ c = 0x0a ∨ c = 0x0d →
    isSpace c = true ∧ isNumberChar c = false ∧ c ≠ quote ∧ c ≠ closeBrace := by decide +kernel

theorem commaGap_mem {g : Gap} {w : List Byte} (h : commaGap g w) {c : Byte} (hc : c ∈ w) :
    c = comma ∨ c = 0x20 ∨ c = 0x09 ∨ c = 0x0a ∨ c = 0x0d := by
  cases g with
  | between =>
    obtain ⟨a, b, rfl, ha, hb⟩ := h
    rcases mem_append.mp hc with hc | hc
    · exact .inr (ha c hc)
    · exact (mem_cons.mp hc).imp_right (hb c)
  | first | last => exact .inr (h c hc)

theorem commaGap_ends {g : Gap} {w : List Byte} (h : commaGap g w) {rest : List Byte}
    (hr : w = [] → ∀ c ∈ rest.head?, isNumberChar c = false) :
    ∀ c ∈ (w ++ rest).head?, isNumberChar c = false := by
  cases w with
  | nil => exact hr rfl
  | cons d w =>
    rintro _ ⟨⟩
    rcases commaGap_mem h mem_cons_self with rfl | hd
    · rfl
    · exact (isWs_facts d hd).2.1

theorem commaGap_between_ne_nil {w : List Byte} (h : commaGap .between w) : w ≠ [] := by
  obtain ⟨a, b, rfl, -⟩ := h
  simp

theorem Elements.ends_of_strict {es : Elements} (h : es.Obeys strictRules .between) (t : List Byte) :
    NumberEnds t es.text := by
  intro _
  cases es with
  | nil gap => exact commaGap_ends (g := .last) h fun _ c hc => by cases hc; rfl
  | cons gap v es => exact commaGap_ends (g := .between) h.1 fun hnil => absurd hnil (commaGap_between_ne_nil h.1)

theorem Fields.ends_of_strict {ms : Fields} (h : ms.Obeys strictRules .between) (t : List Byte) :
    NumberEnds t ms.text := by
  intro _
  cases ms with
  | nil gap => exact commaGap_ends (g := .last) h fun _ c hc => by cases hc; rfl
  | cons gap raw name before after v ms =>
    exact commaGap_ends (g := .between) h.1 fun hnil => absurd hnil (commaGap_between_ne_nil h.1)

theorem elementGap_of_commaGap {g : Gap} {w : List Byte} (h : commaGap g w) : (laxRules true).elementGap g w :=
  fun c hc => (commaGap_mem h hc).imp_right fun hws => ⟨(isWs_facts c hws).1, rfl⟩

theorem memberGap_of_commaGap {g : Gap} {w : List Byte} (h : commaGap g w) : (laxRules true).memberGap g w := by
  intro c hc
  rcases commaGap_mem h hc with rfl | hws
  · exact ⟨by decide, by decide, fun _ => rfl⟩
  · exact ⟨(isWs_facts c hws).2.2.1, (isWs_facts c hws).2.2.2, fun _ => rfl⟩

theorem blank_of_isWs {w : List Byte} (h : IsWs w) : (laxRules true).blank w :=
  fun c hc => ⟨(isWs_facts c (h c hc)).1, rfl⟩

mutual

theorem Source.lax_of_strict : ∀ c : Source, c.Obeys strictRules → c.Obeys (laxRules true)
  | .leaf _ _, h => laxLeaf_of_strict h
  | .array es, h => Elements.lax_of_strict es .first h
  | .object ms, h => Fields.lax_of_strict ms .first h

theorem Elements.lax_of_strict : ∀ (es : Elements) (g : Gap), es.Obeys strictRules g → es.Obeys (laxRules true) g
  | .nil _, _, h => elementGap_of_commaGap h
  | .cons _ v es, _, ⟨hgap, hv, _, hes⟩ =>
    ⟨elementGap_of_commaGap hgap, Source.lax_of_strict v hv, Elements.ends_of_strict hes _,
      Elements.lax_of_strict es _ hes⟩

theorem Fields.lax_of_strict : ∀ (ms : Fields) (g : Gap), ms.Obeys strictRules g → ms.Obeys (laxRules true) g
  | .nil _, _, h => memberGap_of_commaGap h
  | .cons _ _ _ _ _ v ms, _, ⟨hgap, hname, hbefore, hafter, hv, _, hms⟩ =>
    ⟨memberGap_of_commaGap hgap, ⟨closes_of_isChars hname.1, hname.2⟩, blank_of_isWs hbefore, blank_of_isWs hafter,
      Source.lax_of_strict v hv, Fields.ends_of_strict hms _, Fields.lax_of_strict ms _ hms⟩

end

theorem strict_tidy : strictRules.Both strictRules tidyRules where
  elementGap _ _ h _ := h
  memberGap _ _ h _ := h
  blank _ h _ := h
  name _ _ h _ := h.1
  follows _ _ _ _ := trivial
  leaf t v h _ := by
    cases h with
    | false | null | true =>
      refine ⟨fun o raw heq => ?_, fun ht => absurd (ht _ mem_cons_self) (by decide)⟩
      have hquote : quote ∈ o :: (raw ++ [quote]) := by simp
      exact absurd (heq ▸ hquote) (by decide)
    | @string raw str hraw hstr =>
      refine ⟨fun o raw' heq => ?_, fun ht => absurd (ht quote mem_cons_self) (by decide)⟩
      obtain ⟨rfl, htail⟩ := cons.inj heq
      exact ⟨rfl, append_cancel_right htail ▸ hraw⟩
    | number ht hv =>
      refine ⟨fun o raw heq => ?_, fun _ => ht⟩
      exact absurd (ht.isNumberChar.2 quote (heq ▸ by simp)) (by decide)

mutual

theorem Source.tidy_bare : ∀ c : Source, c.bare.Obeys tidyRules ↔ c.Obeys tidyRules
  | .leaf _ _ => Iff.rfl
  | .array es => Elements.tidy_bare es .first
  | .object ms => Fields.tidy_bare ms .first

theorem Elements.tidy_bare : ∀ (es : Elements) (g : Gap), es.bare.Obeys tidyRules g ↔ es.Obeys tidyRules g
  | .nil _, _ => Iff.rfl
  | .cons _ v es, _ => and_congr_right' (and_congr (Source.tidy_bare v) (and_congr_right' (Elements.tidy_bare es _)))

theorem Fields.tidy_bare : ∀ (ms : Fields) (g : Gap), ms.bare.Obeys tidyRules g ↔ ms.Obeys tidyRules g
  | .nil _, _ => Iff.rfl
  | .cons _ _ _ _ _ v ms, _ => and_congr_right' (and_congr_right' (and_congr_right' (and_congr_right'
      (and_congr (Source.tidy_bare v) (and_congr_right' (Fields.tidy_bare ms _))))))

end

end SgxLkl.Json
