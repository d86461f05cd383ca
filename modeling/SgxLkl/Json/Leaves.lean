import SgxLkl.Json.Tree

/-!
# Leaves

* `stringLeaf`: what `_PrintString` writes. It is an error if a character was printed with a hexadecimal
  letter.
-/

namespace SgxLkl.Json

open List

/-! ## Strings -/

/-- What `_get_value` makes of a text between quotes. -/
def quotedValue (raw : List Byte) : Except JsonResult Value :=
  match unescape raw with
  | .ok str => .ok (.string (cstring str))
  | .error _ => .error .badSyntax

variable {σ : Type} {raw rest : List Byte}

theorem getValue_quoted (env : Env σ) (n : ℕ) (p : Path) (d : σ)
    (closes : closingQuote 0 (raw ++ quote :: rest) = some (raw, rest)) :
    getValue env (n + 1) false ⟨quote :: (raw ++ quote :: rest), p, d⟩ =
      match quotedValue raw with
      | .ok v => invoke env.callback false .value v ⟨rest, p, d⟩
      | .error e => .error e ⟨rest, p, d⟩ := by
  rw [getValue_string, quotedValue]
  cases hraw : unescape raw with
  | error e =>
    have hstr : getString false ⟨raw ++ quote :: rest, p, d⟩ = .error e ⟨rest, p, d⟩ := by
      simp only [getString, closes, hraw, Bool.false_eq_true, if_false]
    exact bind_error (orBadSyntax_error hstr)
  | ok str =>
    have hstr : getString false ⟨raw ++ quote :: rest, p, d⟩ = .ok (cstring str) ⟨rest, p, d⟩ := by
      simp only [getString, closes, hraw, Bool.false_eq_true, if_false]
    exact bind_ok (orBadSyntax_ok hstr)

/-- A text between quotes that ends with the quote that it should end with. -/
def quotedLeaf (raw : List Byte)
    (closes : ∀ rest, closingQuote 0 (raw ++ quote :: rest) = some (raw, rest)) : Leaf where
  text := quote :: (raw ++ [quote])
  value := quotedValue raw
  head := ⟨quote, _, rfl, by decide, by decide, by decide⟩
  scans := by
    intro σ env n p d rest _
    have hstr : getString true ⟨raw ++ quote :: rest, p, d⟩ = .ok (cstring raw) ⟨rest, p, d⟩ := by
      simp only [getString, closes, if_true]
    simp only [cons_append, append_assoc, nil_append]
    rw [getValue_string, bind_ok (orBadSyntax_ok hstr), invoke_scan]
  reads := by
    intro σ env n p d rest _
    simp only [cons_append, append_assoc, nil_append]
    exact getValue_quoted env n p d (closes rest)

def stringLeaf (s : CString Byte) : Leaf :=
  quotedLeaf (printChars s.chars) fun rest => by
    rw [closingQuote_printChars, closingQuote, if_pos rfl, Option.map_some, append_nil]

theorem value_stringLeaf (s : CString Byte) : (stringLeaf s).value =
      if s.chars.all readable then .ok (.string s) else .error .badSyntax := by
  show quotedValue (printChars s.chars) = _
  rw [quotedValue, unescape_printChars]
  split_ifs
  · simp only [cstring_chars]
  · rfl

theorem getValue_printString (env : Env σ) (n : ℕ) (s : CString Byte) (p : Path) (d : σ)
    (rest : List Byte) : getValue env (n + 1) false ⟨printString s ++ rest, p, d⟩ =
      if s.chars.all readable then invoke env.callback false .value (.string s) ⟨rest, p, d⟩
      else .error .badSyntax ⟨rest, p, d⟩ := by
  have hcloses : closingQuote 0 (printChars s.chars ++ quote :: rest) = some (printChars s.chars, rest) := by
    rw [closingQuote_printChars, closingQuote, if_pos rfl, Option.map_some, append_nil]
  have htext : printString s ++ rest = quote :: (printChars s.chars ++ quote :: rest) := by
    simp [printString]
  rw [htext, getValue_quoted env n p d hcloses, show quotedValue (printChars s.chars) = _ from value_stringLeaf s]
  split_ifs <;> rfl

def quietEnv : Env Unit := ⟨fun _ _ _ d => .ok d, true, []⟩
def rootPath : Path := ⟨0, fun _ => ⟨cstring [], 0, 0, 0⟩⟩

/-- **A string is read back as it was printed exactly if no character is printed with a hexadecimal
letter.** -/
theorem printString_parses_iff (s : CString Byte) :
    (∀ (σ : Type) (env : Env σ) (n : ℕ) (p : Path) (d : σ) (rest : List Byte),
      getValue env (n + 1) false ⟨printString s ++ rest, p, d⟩ =
        invoke env.callback false .value (.string s) ⟨rest, p, d⟩) ↔ s.chars.all readable = true := by
  constructor
  · intro h
    by_contra hs
    have hunit := h Unit quietEnv 0 rootPath () []
    rw [getValue_printString, if_neg hs] at hunit
    cases hunit
  · intro hs σ env n p d rest
    rw [getValue_printString, if_pos hs]

theorem printString_parses_quoted :
    getValue quietEnv 1 false ⟨printString (cstring (bytes "a \"b\"\n")) ++ [], rootPath, ()⟩ =
      invoke quietEnv.callback false .value (.string (cstring (bytes "a \"b\"\n"))) ⟨[], rootPath, ()⟩ :=
  (printString_parses_iff (cstring (bytes "a \"b\"\n"))).mpr (by decide) Unit quietEnv 0 rootPath () []

/-- The unit separator is printed as `\u001F`, which is not read. -/
theorem printString_not_parsed : printString (cstring [0x1f]) = bytes "\"\\u001F\"" ∧
      getValue quietEnv 1 false ⟨printString (cstring [0x1f]) ++ [], rootPath, ()⟩ =
        .error .badSyntax ⟨[], rootPath, ()⟩ :=
  ⟨by decide, (getValue_printString quietEnv 0 _ rootPath () []).trans (if_neg (by decide))⟩

/-! ## Plain texts -/

def Plain (raw : List Byte) : Prop := ∀ c ∈ raw, c ≠ quote ∧ c ≠ backslash

def isPlain (raw : List Byte) : Bool := raw.all fun c => c != 0 && c != quote && c != backslash

theorem not_mem_of_isPlain (h : isPlain raw = true) : (0 : Byte) ∉ raw := by
  intro h0
  simpa using all_eq_true.mp h 0 h0

theorem plain_of_isPlain (h : isPlain raw = true) : Plain raw := by
  intro c hc
  have hall := all_eq_true.mp h c hc
  simp only [Bool.and_eq_true, bne_iff_ne] at hall
  exact ⟨hall.1.2, hall.2⟩

theorem closingQuote_plain (h : Plain raw) (rest : List Byte) :
    closingQuote 0 (raw ++ quote :: rest) = some (raw, rest) := by
  induction raw with
  | nil => rw [nil_append, closingQuote, if_pos rfl]
  | cons c raw ih =>
    obtain ⟨hq, hb⟩ := h c mem_cons_self
    rw [cons_append, closingQuote_cons hq hb, ih fun d hd => h d (mem_cons_of_mem c hd), Option.map_some]

theorem unescape_plain (h0 : 0 ∉ raw) (h : Plain raw) : unescape raw = .ok raw := by
  induction raw with
  | nil => rfl
  | cons c raw ih =>
    rw [mem_cons, not_or] at h0
    rw [unescape_cons (Ne.symm h0.1) (h c mem_cons_self).2, ih h0.2 fun d hd => h d (mem_cons_of_mem c hd)]
    rfl

def Name.plain (s : CString Byte) (h : Plain s.chars) : Name where
  text := s.chars
  name := s
  closes := closingQuote_plain h
  reads := unescape_plain s.nul h

def plainLeaf (s : CString Byte) (h : Plain s.chars) : Leaf := quotedLeaf s.chars (closingQuote_plain h)

theorem value_plainLeaf (s : CString Byte) (h : Plain s.chars) : (plainLeaf s h).value = .ok (.string s) := by
  show quotedValue s.chars = _
  rw [quotedValue, unescape_plain s.nul h]
  simp only [cstring_chars]

theorem plain_decimalString (x : ℕ) : Plain (decimalString x).chars := fun c hc =>
  have h := isDigit_facts c (isDigit_of_mem_decimal hc)
  ⟨h.2.2.2.2.2.1, h.2.2.2.2.2.2.1⟩

theorem not_mem_bytes {s : String} (h : isPlain (bytes s) = true) : (0 : Byte) ∉ bytes s := not_mem_of_isPlain h

theorem plain_bytes {s : String} (h : isPlain (bytes s) = true) : Plain (bytes s) := plain_of_isPlain h

theorem isPlain_bytes_nil : isPlain (bytes "") = true := rfl

def field (s : String) (h : isPlain (bytes s) = true := by rfl) : Name :=
  Name.plain ⟨bytes s, not_mem_bytes h⟩ (plain_bytes h)

def indexName (i : ℕ) : Name := Name.plain (decimalString i) (plain_decimalString i)

/-! ## Numbers -/

theorem Ends.not_number (h : Ends rest) : rest.head?.any isNumberChar = false ∧ rest.head?.any isDigit = false := by
  obtain ⟨c, cs, rfl, rfl | rfl | rfl⟩ := h <;> exact ⟨rfl, rfl⟩

theorem takeWhile_append_of_head {α : Type*} {f : α → Bool} {l rest : List α} (hl : ∀ a ∈ l, f a = true)
    (hr : rest.head?.any f = false) : (l ++ rest).takeWhile f = l ∧ (l ++ rest).dropWhile f = rest := by
  rw [takeWhile_append_of_pos hl, dropWhile_append_of_pos hl]
  cases rest with
  | nil => simp
  | cons a rest =>
    have ha : f a = false := by simpa using hr
    simp [ha]

theorem getNumber_decimal (allowWhitespace : Bool) (behind : List Byte) (x : Word) (p : Path)
    (d : σ) (hr : Ends rest) : getNumber allowWhitespace behind ⟨decimal x.toNat ++ rest, p, d⟩ =
      .ok (.integer x) ⟨rest, p, d⟩ := by
  obtain ⟨hnumber, hdigit⟩ := hr.not_number
  obtain ⟨htake, hdrop⟩ := takeWhile_append_of_head (l := decimal x.toNat)
    (fun c hc => (isDigit_facts c (isDigit_of_mem_decimal hc)).2.2.2.1) hnumber
  have hint : (decimal x.toNat).any isDecimalOrExponent = false := by
    rw [any_eq_false]
    intro c hc
    simp [(isDigit_facts c (isDigit_of_mem_decimal hc)).2.2.2.2.1]
  have hbehind : (rest ++ behind).head?.any isDigit = false := by
    obtain ⟨c, cs, rfl, -⟩ := hr
    exact hdigit
  have hlen : 0 < (decimal x.toNat).length := by
    obtain ⟨c, cs, h, -⟩ := decimal_eq_cons x.toNat
    simp [h]
  unfold getNumber
  simp only [htake, hdrop, hint, Bool.false_eq_true, if_false, append_assoc,
    strtol_decimal allowWhitespace x.isLt hbehind, BitVec.ofNat_toNat, BitVec.setWidth_eq]
  rw [if_neg]
  simp only [length_append]
  omega

def numberLeaf (x : Word) : Leaf where
  text := decimal x.toNat
  value := .ok (.integer x)
  head := by
    obtain ⟨c, cs, h, hc⟩ := decimal_eq_cons x.toNat
    obtain ⟨hs, -, -, -, -, -, -, -, hcomma, hclose, -⟩ := isDigit_facts c hc
    exact ⟨c, cs, h, hs, hcomma, hclose⟩
  scans := by
    intro σ env n p d rest hr
    have hnumber := getNumber_decimal env.allowWhitespace env.behind x p d hr
    obtain ⟨c, cs, h, hc⟩ := decimal_eq_cons x.toNat
    rw [h, cons_append] at hnumber ⊢
    rw [getValue_digit env n true _ p d hc, bind_ok hnumber, invoke_scan]
  reads := by
    intro σ env n p d rest hr
    have hnumber := getNumber_decimal env.allowWhitespace env.behind x p d hr
    obtain ⟨c, cs, h, hc⟩ := decimal_eq_cons x.toNat
    rw [h, cons_append] at hnumber ⊢
    rw [getValue_digit env n false _ p d hc, bind_ok hnumber]

/-! ## Words -/

section

variable {σ : Type} (env : Env σ) (n : ℕ) (scan : Bool) (p : Path) (d : σ) (rest : List Byte)

theorem getValue_null :
    getValue env (n + 1) scan ⟨bytes "null" ++ rest, p, d⟩ = invoke env.callback scan .value .null ⟨rest, p, d⟩ := by
  rw [show bytes "null" ++ rest = ch 'n' :: (bytes "ull" ++ rest) from rfl, getValue,
    bind_ok (skipWhitespace_cons _ (by decide) _ p d)]
  rfl

theorem getValue_bool (b : Bool) : getValue env (n + 1) scan ⟨bytes (if b then "true" else "false") ++ rest, p, d⟩ =
      invoke env.callback scan .value (.boolean b) ⟨rest, p, d⟩ := by
  cases b with
  | true =>
    rw [show bytes (if true then "true" else "false") ++ rest = ch 't' :: (bytes "rue" ++ rest) from rfl,
      getValue, bind_ok (skipWhitespace_cons _ (by decide) _ p d)]
    rfl
  | false =>
    rw [show bytes (if false then "true" else "false") ++ rest = ch 'f' :: (bytes "alse" ++ rest) from rfl,
      getValue, bind_ok (skipWhitespace_cons _ (by decide) _ p d)]
    rfl

end

def nullLeaf : Leaf where
  text := bytes "null"
  value := .ok .null
  head := ⟨ch 'n', bytes "ull", rfl, by decide, by decide, by decide⟩
  scans env n p d rest _ := (getValue_null env n true p d rest).trans (invoke_scan _ _ _ _)
  reads env n p d rest _ := getValue_null env n false p d rest

def boolLeaf (b : Bool) : Leaf where
  text := bytes (if b then "true" else "false")
  value := .ok (.boolean b)
  head := by
    cases b with
    | true => exact ⟨ch 't', bytes "rue", rfl, by decide, by decide, by decide⟩
    | false => exact ⟨ch 'f', bytes "alse", rfl, by decide, by decide, by decide⟩
  scans env n p d rest _ := (getValue_bool env n true p d rest b).trans (invoke_scan _ _ _ _)
  reads env n p d rest _ := getValue_bool env n false p d rest b

/-! ## Lists of members and elements -/

def Members.ofList : List (Name × Tree) → Members
  | [] => .nil
  | (name, v) :: ms => .cons name v (ofList ms)

def Trees.ofList : List Tree → Trees
  | [] => .nil
  | v :: vs => .cons v (ofList vs)

end SgxLkl.Json
