import SgxLkl.Json.Doc

/-!
# Written documents

A document together with every byte of the text it was written as. The texts between its parts are recorded, so
that a grammar is a choice of what these texts may be.
-/

namespace SgxLkl.Json

/-! ## Documents with their texts -/

mutual

inductive Source
  | leaf (text : List Byte) (v : Value)
  | array (es : Elements)
  | object (ms : Fields)

/-- The elements of an array. In front of each element, and of the bracket, there is a gap. -/
inductive Elements
  | nil (gap : List Byte)
  | cons (gap : List Byte) (v : Source) (es : Elements)

/-- The members of an object, with the name as it is written and as it is read. -/
inductive Fields
  | nil (gap : List Byte)
  | cons (gap raw : List Byte) (name : CString Byte) (before after : List Byte) (v : Source) (ms : Fields)

end

mutual

def Source.text : Source → List Byte
  | .leaf text _ => text
  | .array es => openBracket :: es.text
  | .object ms => openBrace :: ms.text

def Elements.text : Elements → List Byte
  | .nil gap => gap ++ [closeBracket]
  | .cons gap v es => gap ++ (v.text ++ es.text)

def Fields.text : Fields → List Byte
  | .nil gap => gap ++ [closeBrace]
  | .cons gap raw _ before after v ms =>
    gap ++ quote :: (raw ++ quote :: (before ++ colon :: (after ++ (v.text ++ ms.text))))

end

mutual

def Source.doc : Source → Doc
  | .leaf _ v => .leaf (.ok v)
  | .array es => .array es.docs
  | .object ms => .object ms.docs

def Elements.docs : Elements → Docs
  | .nil _ => .nil
  | .cons _ v es => .cons v.doc es.docs

def Fields.docs : Fields → DocMembers
  | .nil _ => .nil
  | .cons _ _ name _ _ v ms => .cons name v.doc ms.docs

end

/-! ## Grammars -/

inductive Gap
  | first | between | last

/-- What may be in the gaps, around the colons, as a value and as a name, and what may follow a value. -/
structure Rules where
  elementGap : Gap → List Byte → Prop
  memberGap : Gap → List Byte → Prop
  blank : List Byte → Prop
  leaf : List Byte → Value → Prop
  name : List Byte → CString Byte → Prop
  follows : List Byte → List Byte → Prop

mutual

def Source.Obeys (R : Rules) : Source → Prop
  | .leaf text v => R.leaf text v
  | .array es => es.Obeys R .first
  | .object ms => ms.Obeys R .first

def Elements.Obeys (R : Rules) : Elements → Gap → Prop
  | .nil gap, _ => R.elementGap .last gap
  | .cons gap v es, g => R.elementGap g gap ∧ v.Obeys R ∧ R.follows v.text es.text ∧
    es.Obeys R .between

def Fields.Obeys (R : Rules) : Fields → Gap → Prop
  | .nil gap, _ => R.memberGap .last gap
  | .cons gap raw name before after v ms, g => R.memberGap g gap ∧ R.name raw name ∧ R.blank before ∧
    R.blank after ∧ v.Obeys R ∧ R.follows v.text ms.text ∧ ms.Obeys R .between

end

/-- Whatever obeys two sets of rules obeys a third. -/
structure Rules.Both (R S T : Rules) : Prop where
  elementGap : ∀ g w, R.elementGap g w → S.elementGap g w → T.elementGap g w
  memberGap : ∀ g w, R.memberGap g w → S.memberGap g w → T.memberGap g w
  blank : ∀ w, R.blank w → S.blank w → T.blank w
  leaf : ∀ t v, R.leaf t v → S.leaf t v → T.leaf t v
  name : ∀ t s, R.name t s → S.name t s → T.name t s
  follows : ∀ t r, R.follows t r → S.follows t r → T.follows t r

section

variable {R S T : Rules}

mutual

theorem Rules.Both.source (h : R.Both S T) : ∀ c : Source, c.Obeys R → c.Obeys S → c.Obeys T
  | .leaf _ _, hR, hS => h.leaf _ _ hR hS
  | .array es, hR, hS => Rules.Both.elements h es .first hR hS
  | .object ms, hR, hS => Rules.Both.fields h ms .first hR hS

theorem Rules.Both.elements (h : R.Both S T) :
    ∀ (es : Elements) (g : Gap), es.Obeys R g → es.Obeys S g → es.Obeys T g
  | .nil _, _, hR, hS => h.elementGap _ _ hR hS
  | .cons _ v es, _, ⟨hR, hRv, hRf, hRes⟩, ⟨hS, hSv, hSf, hSes⟩ =>
    ⟨h.elementGap _ _ hR hS, Rules.Both.source h v hRv hSv, h.follows _ _ hRf hSf,
      Rules.Both.elements h es _ hRes hSes⟩

theorem Rules.Both.fields (h : R.Both S T) : ∀ (ms : Fields) (g : Gap), ms.Obeys R g → ms.Obeys S g → ms.Obeys T g
  | .nil _, _, hR, hS => h.memberGap _ _ hR hS
  | .cons _ _ _ _ _ v ms, _, ⟨hR, hRn, hRb, hRa, hRv, hRf, hRms⟩, ⟨hS, hSn, hSb, hSa, hSv, hSf, hSms⟩ =>
    ⟨h.memberGap _ _ hR hS, h.name _ _ hRn hSn, h.blank _ hRb hSb, h.blank _ hRa hSa,
      Rules.Both.source h v hRv hSv, h.follows _ _ hRf hSf, Rules.Both.fields h ms _ hRms hSms⟩

end

end

/-! ## What the parser takes -/

/-- The text is followed by the quote that ends it. -/
def Closes (raw : List Byte) : Prop := ∀ rest, closingQuote 0 (raw ++ quote :: rest) = some (raw, rest)

def ReadsNumber (allowWhitespace : Bool) (t : List Byte) (v : Value) : Prop :=
  ∃ rest, if t.any isDecimalOrExponent then
      v = .real (strtod allowWhitespace (t ++ rest)).1 ∧
        (strtod allowWhitespace (t ++ rest)).2.length = rest.length
    else
      v = .integer (strtol allowWhitespace (t ++ rest)).1 ∧
        (strtol allowWhitespace (t ++ rest)).2.length = rest.length

/-- A value without parts, as the parser takes it. A string may also begin with `B`, which `_tolower` turns
into a quote. -/
inductive LaxLeaf (allowWhitespace : Bool) : List Byte → Value → Prop
  | false : LaxLeaf allowWhitespace (bytes "false") (.boolean false)
  | null : LaxLeaf allowWhitespace (bytes "null") .null
  | true : LaxLeaf allowWhitespace (bytes "true") (.boolean true)
  | string {o : Byte} {raw str : List Byte} (ho : toLower o = quote) (hraw : Closes raw)
      (hstr : unescape raw = .ok str) :
      LaxLeaf allowWhitespace (o :: (raw ++ [quote])) (.string (cstring str))
  | number {t : List Byte} {v : Value} (hne : t ≠ []) (ht : ∀ c ∈ t, isNumberChar c = true)
      (hv : ReadsNumber allowWhitespace t v) : LaxLeaf allowWhitespace t v

/-- A number is followed by something that is not part of it. -/
def NumberEnds (t rest : List Byte) : Prop := (∀ c ∈ t, isNumberChar c = true) → ∀ c ∈ rest.head?, isNumberChar c = false

/-- What the parser takes: commas anywhere between the elements, and anything but quotes and braces between
the members. -/
def laxRules (allowWhitespace : Bool) : Rules where
  elementGap _ w := ∀ c ∈ w, c = comma ∨ (isSpace c = true ∧ allowWhitespace = true)
  memberGap _ w := ∀ c ∈ w, c ≠ quote ∧ c ≠ closeBrace ∧ (isSpace c = true → allowWhitespace = true)
  blank w := ∀ c ∈ w, isSpace c = true ∧ allowWhitespace = true
  leaf := LaxLeaf allowWhitespace
  name raw name := Closes raw ∧ ∃ str, unescape raw = .ok str ∧ name = cstring str
  follows := NumberEnds

/-! ## JSON -/

def IsWs (w : List Byte) : Prop := ∀ c ∈ w, c = 0x20 ∨ c = 0x09 ∨ c = 0x0a ∨ c = 0x0d

/-- Single commas between, and none in front or behind. -/
def commaGap : Gap → List Byte → Prop
  | .between, w => ∃ a b, w = a ++ comma :: b ∧ IsWs a ∧ IsWs b
  | _, w => IsWs w

def IsDigits (t : List Byte) : Prop := t ≠ [] ∧ ∀ c ∈ t, isDigit c = true

/-- `number = [ minus ] int [ frac ] [ exp ]`. -/
def IsNumber (t : List Byte) : Prop :=
  ∃ minus int frac exp, t = minus ++ (int ++ (frac ++ exp)) ∧ (minus = [] ∨ minus = [ch '-']) ∧
    (int = [ch '0'] ∨ IsDigits int ∧ int.head? ≠ some (ch '0')) ∧
    (frac = [] ∨ ∃ ds, frac = ch '.' :: ds ∧ IsDigits ds) ∧
    (exp = [] ∨ ∃ e sign ds, exp = e :: (sign ++ ds) ∧ (e = ch 'e' ∨ e = ch 'E') ∧
      (sign = [] ∨ sign = [ch '-'] ∨ sign = [ch '+']) ∧ IsDigits ds)

def isHexDigit (c : Byte) : Bool := isDigit c || (0x61 ≤ c && c ≤ 0x66) || (0x41 ≤ c && c ≤ 0x46)

def hexValue (c : Byte) : ℕ :=
  if isDigit c then (c - 0x30).toNat else if 0x61 ≤ c then (c - 0x57).toNat else (c - 0x37).toNat

inductive IsChars : List Byte → Prop
  | nil : IsChars []
  | plain {c : Byte} {cs : List Byte} (h : 0x20 ≤ c) (hq : c ≠ quote) (hb : c ≠ backslash) (hcs : IsChars cs) :
      IsChars (c :: cs)
  | escape {c : Byte} {cs : List Byte} (h : (simpleEscape c).isSome = true) (hcs : IsChars cs) :
      IsChars (backslash :: c :: cs)
  | hex {x y z w : Byte} {cs : List Byte} (h : ∀ c ∈ [x, y, z, w], isHexDigit c = true) (hcs : IsChars cs) :
      IsChars (backslash :: ch 'u' :: x :: y :: z :: w :: cs)

/-- `value`, without the arrays and objects. -/
inductive StrictLeaf : List Byte → Value → Prop
  | false : StrictLeaf (bytes "false") (.boolean false)
  | null : StrictLeaf (bytes "null") .null
  | true : StrictLeaf (bytes "true") (.boolean true)
  | string {raw str : List Byte} (hraw : IsChars raw) (hstr : unescape raw = .ok str) :
      StrictLeaf (quote :: (raw ++ [quote])) (.string (cstring str))
  | number {t : List Byte} {v : Value} (ht : IsNumber t) (hv : ReadsNumber true t v) : StrictLeaf t v

def strictRules : Rules where
  elementGap := commaGap
  memberGap := commaGap
  blank := IsWs
  leaf := StrictLeaf
  name raw name := IsChars raw ∧ ∃ str, unescape raw = .ok str ∧ name = cstring str
  follows _ _ := True

/-- One object in the grammar of JSON, and white space around it. -/
def IsJson (text : List Byte) (doc : Doc) : Prop :=
  ∃ u ms w, text = u ++ ((Source.object ms).text ++ w) ∧ IsWs u ∧ IsWs w ∧
    (Source.object ms).Obeys strictRules ∧ (Source.object ms).doc = doc

/-- What the parser does not look at: the gaps, the bytes of the strings, how a number is made up. -/
def tidyRules : Rules where
  elementGap := commaGap
  memberGap := commaGap
  blank := IsWs
  leaf t _ := (∀ o raw, t = o :: (raw ++ [quote]) → o = quote ∧ IsChars raw) ∧
    ((∀ c ∈ t, isNumberChar c = true) → IsNumber t)
  name raw _ := IsChars raw
  follows _ _ := True

theorem lax_tidy_strict : (laxRules true).Both tidyRules strictRules where
  elementGap _ _ _ h := h
  memberGap _ _ _ h := h
  blank _ _ h := h
  name _ _ hlax htidy := ⟨htidy, hlax.2⟩
  follows _ _ _ _ := trivial
  leaf t v hlax htidy := by
    cases hlax with
    | false => exact .false
    | null => exact .null
    | true => exact .true
    | string ho hraw hstr =>
      obtain ⟨rfl, hchars⟩ := htidy.1 _ _ rfl
      exact .string hchars hstr
    | number hne ht hv => exact .number (htidy.2 ht) hv

end SgxLkl.Json
