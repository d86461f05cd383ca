import SgxLkl.Json.Model

/-!
# Printed strings and numbers

* `unescape_printChars`: a printed string is read back if every character that is printed in hexadecimal
  has two decimal digits; `_char_to_nibble` does not know the letters that `_byte_to_hex_string` writes.
-/

namespace SgxLkl.Json

open List

/-! ## Printing -/

def hexDigit (x : Byte) : Byte := if 0xa ≤ x then x - 0xa + 0x41 else x + 0x30

def printChar (c : Byte) : List Byte :=
  if c = quote then [backslash, quote]
  else if c = backslash then [backslash, backslash]
  else if c = ch '/' then [backslash, ch '/']
  else if c = 0x08 then [backslash, ch 'b']
  else if c = 0x0c then [backslash, ch 'f']
  else if c = 0x0a then [backslash, ch 'n']
  else if c = 0x0d then [backslash, ch 'r']
  else if c = 0x09 then [backslash, ch 't']
  else if isPrint c then [c]
  else [backslash, ch 'u', 0x30, 0x30, hexDigit (c >>> 4), hexDigit (c &&& 0x0f)]

/-- The characters of `_PrintString` between the quotes. -/
def printChars (s : List Byte) : List Byte := s.flatMap printChar

def printString (s : CString Byte) : List Byte := quote :: printChars s.chars ++ [quote]

/-- The digits of a number in front of `acc`; the first argument is larger than the number. -/
def decimalLoop : ℕ → ℕ → List Byte → List Byte
  | 0, _, acc => acc
  | k + 1, x, acc =>
    let acc := BitVec.ofNat 8 (0x30 + x % 10) :: acc
    if x / 10 = 0 then acc else decimalLoop k (x / 10) acc

def decimal (x : ℕ) : List Byte := decimalLoop (x + 1) x []

/-! ## Strings -/

/-- The character is not printed with a hexadecimal letter. -/
def readable (c : Byte) : Bool :=
  isPrint c || c = 0x0a || c = 0x0c || c = 0x0d || (c >>> 4 ≤ 9 && c &&& 0x0f ≤ 9)

theorem hexDigit_low : ∀ c : Byte, hexDigit (c &&& 0x0f) ≠ quote ∧ hexDigit (c &&& 0x0f) ≠ backslash := by
  decide

theorem hexStr4_hexDigit : ∀ c : Byte, isPrint c = false → c ≠ 0x0a → c ≠ 0x0c → c ≠ 0x0d →
    hexStr4 0x30 0x30 (hexDigit (c >>> 4)) (hexDigit (c &&& 0x0f)) =
      if readable c then .ok c else .error .badSyntax := by
  decide

theorem printChar_cases (c : Byte) : (∃ d, d ≠ 0 ∧ d ≠ ch 'u' ∧ simpleEscape d = some c ∧ readable c = true ∧
      printChar c = [backslash, d]) ∨
    (c ≠ quote ∧ c ≠ backslash ∧ readable c = true ∧ printChar c = [c]) ∨
    (isPrint c = false ∧ c ≠ 0x0a ∧ c ≠ 0x0c ∧ c ≠ 0x0d ∧
      printChar c = [backslash, ch 'u', 0x30, 0x30, hexDigit (c >>> 4), hexDigit (c &&& 0x0f)]) := by
  unfold printChar
  split_ifs with h1 h2 h3 h4 h5 h6 h7 h8 h9
  -- the eight escapes
  any_goals
    subst c
    exact .inl ⟨_, by decide, by decide, by decide, by decide, rfl⟩
  · exact .inr (.inl ⟨h1, h2, by simp [readable, h9], rfl⟩)
  · exact .inr (.inr ⟨by simpa using h9, h6, h5, h7, rfl⟩)

variable {c : Byte} {k x : ℕ} {t acc : List Byte}

theorem closingQuote_cons (hq : c ≠ quote) (hb : c ≠ backslash) (t : List Byte) :
    closingQuote 0 (c :: t) = (closingQuote 0 t).map fun r => (c :: r.1, r.2) := by
  rw [closingQuote, if_neg hq, if_neg hb]

theorem closingQuote_printChar (c : Byte) (t : List Byte) : closingQuote 0 (printChar c ++ t) =
      (closingQuote 0 t).map fun r => (printChar c ++ r.1, r.2) := by
  obtain ⟨d, -, hu, -, -, hp⟩ | ⟨hq, hb, -, hp⟩ | ⟨-, -, -, -, hp⟩ := printChar_cases c
  · rw [hp, cons_append, closingQuote, if_neg (by decide), if_pos rfl, if_neg (by simpa using hu)]
    simp only [cons_append, nil_append, closingQuote, Option.map_map]
    rfl
  · rw [hp]
    exact closingQuote_cons hq hb t
  · obtain ⟨hq, hb⟩ := hexDigit_low c
    rw [hp, cons_append, closingQuote, if_neg (by decide), if_pos rfl, if_pos (by simp), if_neg (by simp)]
    simp only [cons_append, nil_append, closingQuote, if_neg hq, if_neg hb, Option.map_map]
    rfl

theorem closingQuote_printChars (s t : List Byte) : closingQuote 0 (printChars s ++ t) =
      (closingQuote 0 t).map fun r => (printChars s ++ r.1, r.2) := by
  induction s with
  | nil => simp [printChars]
  | cons c s ih =>
    rw [printChars, flatMap_cons, append_assoc, closingQuote_printChar, ← printChars, ih, Option.map_map]
    simp only [Function.comp_def, append_assoc]

theorem unescape_cons (h0 : c ≠ 0) (hb : c ≠ backslash) (t : List Byte) :
    unescape (c :: t) = (unescape t).map (c :: ·) := by
  rw [unescape.eq_def]
  simp only [if_neg h0, if_neg hb]

theorem unescape_printChar (h0 : c ≠ 0) (t : List Byte) : unescape (printChar c ++ t) =
      if readable c then (unescape t).map (c :: ·) else .error .badSyntax := by
  obtain ⟨d, hd, -, he, hr, hp⟩ | ⟨-, hb, hr, hp⟩ | ⟨hprint, ha, hc, hd, hp⟩ := printChar_cases c
  · rw [hp, hr, if_pos rfl, cons_append, cons_append, unescape.eq_def]
    simp only [if_neg (show backslash ≠ 0 by decide), if_neg hd, he, if_true, nil_append]
  · rw [hp, hr, if_pos rfl]
    exact unescape_cons h0 hb t
  · have hu : simpleEscape (ch 'u') = none := by decide
    rw [hp, cons_append, unescape.eq_def]
    simp only [if_neg (show backslash ≠ 0 by decide), if_neg (show ch 'u' ≠ 0 by decide), hu, if_true,
      cons_append, nil_append, hexStr4_hexDigit c hprint ha hc hd]
    split_ifs <;> rfl

theorem unescape_printChars (s : CString Byte) : unescape (printChars s.chars) =
      if s.chars.all readable then .ok s.chars else .error .badSyntax := by
  obtain ⟨l, hl⟩ := s
  dsimp only
  induction l with
  | nil => rfl
  | cons c l ih =>
    rw [mem_cons, not_or] at hl
    rw [printChars, flatMap_cons, unescape_printChar (Ne.symm hl.1), ← printChars, ih hl.2, all_cons]
    cases readable c with
    | false => rfl
    | true => cases hall : l.all readable <;> rfl

theorem cstring_chars (s : CString Byte) : cstring s.chars = s := by
  apply CString.ext_chars
  rw [cstring, takeWhile_eq_self_iff]
  intro c hc
  exact decide_eq_true fun h => s.nul (h ▸ hc)

/-! ## Numbers -/

theorem isDigit_digit : ∀ d < 10, isDigit (BitVec.ofNat 8 (0x30 + d)) = true := by decide

theorem digit_value : ∀ d < 10, (BitVec.ofNat 8 (0x30 + d) - 0x30 : Byte).toNat = d := by decide

theorem strtolDigits_decimalLoop (hk : x < k) (hx : x < 2 ^ 64) (acc t : List Byte) :
    strtolDigits 0 (decimalLoop k x acc ++ t) = strtolDigits x (acc ++ t) := by
  have step : ∀ {v x : ℕ}, v = x / 10 → x < 2 ^ 64 → ∀ u,
      strtolDigits v (BitVec.ofNat 8 (0x30 + x % 10) :: u) = strtolDigits x u := by
    rintro _ x rfl hx u
    have hd := Nat.mod_lt x (show 0 < 10 by decide)
    rw [strtolDigits, if_pos (isDigit_digit _ hd), if_neg (by omega), digit_value _ hd,
      if_neg (by omega), Nat.div_add_mod' x 10]
  induction k generalizing x acc with
  | zero => omega
  | succ k ih =>
    unfold decimalLoop
    dsimp only
    split_ifs with h
    · exact step h.symm hx _
    · rw [ih (by omega) (by omega), cons_append, step rfl hx]

theorem all_isDigit_decimalLoop (h : ∀ c ∈ acc, isDigit c = true) :
    ∀ c ∈ decimalLoop k x acc, isDigit c = true := by
  induction k generalizing x acc with
  | zero => exact h
  | succ k ih =>
    have h' : ∀ c ∈ BitVec.ofNat 8 (0x30 + x % 10) :: acc, isDigit c = true := by
      intro c hc
      obtain rfl | hc := mem_cons.mp hc
      · exact isDigit_digit _ (Nat.mod_lt x (by decide))
      · exact h c hc
    unfold decimalLoop
    dsimp only
    split_ifs
    · exact h'
    · exact ih h'

theorem isDigit_of_mem_decimal (h : c ∈ decimal x) : isDigit c = true :=
  all_isDigit_decimalLoop (by simp) c h

theorem decimalLoop_ne_nil (h : acc ≠ [] ∨ 0 < k) : decimalLoop k x acc ≠ [] := by
  induction k generalizing x acc with
  | zero => simpa [decimalLoop] using h
  | succ k ih =>
    unfold decimalLoop
    dsimp only
    split_ifs
    · simp
    · exact ih (.inl (by simp))

theorem decimal_eq_cons (x : ℕ) : ∃ c cs, decimal x = c :: cs ∧ isDigit c = true := by
  obtain ⟨c, cs, h⟩ := exists_cons_of_ne_nil (decimalLoop_ne_nil (.inr (Nat.succ_pos x)) : decimal x ≠ [])
  exact ⟨c, cs, h, isDigit_of_mem_decimal (h ▸ mem_cons_self)⟩

theorem isDigit_facts : ∀ c : Byte, isDigit c = true → isSpace c = false ∧ c ≠ ch '+' ∧ c ≠ ch '-' ∧
    isNumberChar c = true ∧ isDecimalOrExponent c = false ∧ c ≠ quote ∧ c ≠ backslash ∧ c ≠ 0 ∧
    c ≠ comma ∧ c ≠ closeBracket ∧ toLower c = c ∧ lead c = .number := by
  decide

theorem readSign_decimal (x : ℕ) (t : List Byte) :
    readSign ((decimal x ++ t).dropWhile isSpace) = (false, decimal x ++ t) := by
  obtain ⟨c, cs, hcs, hc⟩ := decimal_eq_cons x
  obtain ⟨hspace, hplus, hminus, -⟩ := isDigit_facts c hc
  rw [hcs, cons_append, dropWhile_cons_of_neg (by simp [hspace]), readSign, if_neg hplus, if_neg hminus]

theorem strtolDigits_decimal (hx : x < 2 ^ 64) (ht : t.head?.any isDigit = false) :
    strtolDigits 0 (decimal x ++ t) = (false, x, t) := by
  rw [decimal, strtolDigits_decimalLoop (Nat.lt_succ_self x) hx]
  cases t with
  | nil => rfl
  | cons d t => rw [nil_append, strtolDigits, if_neg (by simpa using ht)]

theorem head_decimal_isSpace (x : ℕ) (t : List Byte) : (decimal x ++ t).head?.any isSpace = false := by
  obtain ⟨c, cs, hcs, hc⟩ := decimal_eq_cons x
  simp [hcs, (isDigit_facts c hc).1]

theorem strtol_decimal (allowWhitespace : Bool) (hx : x < 2 ^ 64) (ht : t.head?.any isDigit = false) :
    strtol allowWhitespace (decimal x ++ t) = (BitVec.ofNat 64 x, t) := by
  obtain ⟨c, cs, hcs, -⟩ := decimal_eq_cons x
  unfold strtol
  rw [if_neg (by rw [head_decimal_isSpace]; exact nofun)]
  simp only [readSign_decimal, strtolDigits_decimal hx ht]
  rw [if_neg (by simp only [hcs, cons_append, length_cons, length_append]; omega), signed]
  rfl

def decimalString (x : ℕ) : CString Byte :=
  ⟨decimal x, fun h => (isDigit_facts 0 (isDigit_of_mem_decimal h)).2.2.2.2.2.2.2.1 rfl⟩

theorem strtou64_decimalString (allowWhitespace : Bool) (hx : x < 2 ^ 64) :
    strtou64 allowWhitespace (decimalString x) = some (BitVec.ofNat 64 x) := by
  have h := strtol_decimal allowWhitespace hx (show ([] : List Byte).head?.any isDigit = false from rfl)
  rw [append_nil] at h
  unfold strtou64
  rw [show (decimalString x).chars = decimal x from rfl, h]

end SgxLkl.Json
