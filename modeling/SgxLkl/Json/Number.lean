import SgxLkl.Json.Model

/-!
# Integers

`_strtol` stops where a number gets too large, takes a sign alone for zero, and does not know where the text ends.

* `digitsFrom`, **`strtolDigits_spec`**: the digits that were read, and their value.
* **`integer_token_iff`**: when an integer that is accepted is the one that is written.
-/

namespace SgxLkl.Json

open List

/-! ## Digits -/

def digitsFrom (x : ℕ) (ds : List Byte) : ℕ := ds.foldl (fun x c => x * 10 + (c - 0x30).toNat) x

/-- The digits go on to the first character that is none, or to the digit that makes the value too large. -/
theorem strtolDigits_spec (t : List Byte) {x : ℕ} (hx : x < 2 ^ 64) :
    ∃ ds, t = ds ++ (strtolDigits x t).2.2 ∧ (∀ c ∈ ds, isDigit c = true) ∧
      (strtolDigits x t).2.1 = digitsFrom x ds ∧ digitsFrom x ds < 2 ^ 64 ∧
      ((strtolDigits x t).1 = false → (strtolDigits x t).2.2.head?.any isDigit = false) ∧
      ((strtolDigits x t).1 = true → (strtolDigits x t).2.2.head?.any isDigit = true ∧
        2 ^ 64 ≤ digitsFrom x ds * 10 + 9) := by
  induction t generalizing x with
  | nil => exact ⟨[], by simp [strtolDigits, digitsFrom]; omega⟩
  | cons c cs ih =>
    rw [strtolDigits]
    split_ifs with hc hmul hadd
    · exact ⟨[], by simp [digitsFrom, hc]; omega⟩
    · have hd : (c - 0x30).toNat ≤ 9 := by simp [isDigit, BitVec.le_def] at hc; bv_omega
      exact ⟨[], by simp [digitsFrom, hc]; omega⟩
    · obtain ⟨ds, ht, hds, hrest⟩ := ih (x := x * 10 + (c - 0x30).toNat) (by omega)
      exact ⟨c :: ds, by rw [cons_append, ← ht], by simpa [hc] using hds, hrest⟩
    · exact ⟨[], by simp [digitsFrom, Bool.eq_false_iff.mpr hc]; omega⟩

/-! ## Tokens -/

/-- The token is a number: a sign, if there is one, and digits. -/
def Denotes (token : List Byte) (z : ℤ) : Prop :=
  ∃ ds, ds ≠ [] ∧ (∀ c ∈ ds, isDigit c = true) ∧
    ((token = ds ∨ token = ch '+' :: ds) ∧ z = digitsFrom 0 ds ∨ token = ch '-' :: ds ∧ z = -digitsFrom 0 ds)

/-- What was read of an integer: the sign, the digits, and why the reading stopped. -/
structure IntegerRead (behind : List Byte) (token rest : List Byte) (x : Word) (negative : Bool)
    (ds : List Byte) : Prop where
  token : token = ds ∧ negative = false ∨ token = ch '+' :: ds ∧ negative = false ∨
    token = ch '-' :: ds ∧ negative = true
  digits : ∀ c ∈ ds, isDigit c = true
  lt : digitsFrom 0 ds < 2 ^ 64
  value : x = signed negative (digitsFrom 0 ds) ∧ ¬ (rest = [] ∧ behind.head?.any isDigit = true) ∨
    x = BitVec.allOnes 64 ∧ rest = [] ∧ behind.head?.any isDigit = true ∧ 2 ^ 64 ≤ digitsFrom 0 ds * 10 + 9

theorem readSign_spec (t : List Byte) :
    t = (readSign t).2 ∧ (readSign t).1 = false ∨ t = ch '+' :: (readSign t).2 ∧ (readSign t).1 = false ∨
      t = ch '-' :: (readSign t).2 ∧ (readSign t).1 = true := by
  unfold readSign
  split
  · split_ifs with h₁ h₂ <;> simp_all
  · exact .inl ⟨rfl, rfl⟩

variable {σ : Type} {allowWhitespace : Bool} {behind : List Byte} {s s' : Parser σ} {x : Word}

theorem getNumber_integer (h : getNumber allowWhitespace behind s = .ok (.integer x) s') :
    ∃ negative ds, IntegerRead behind (s.rest.takeWhile isNumberChar) s'.rest x negative ds := by
  set token := s.rest.takeWhile isNumberChar with htoken
  have hsplit : s.rest = token ++ s.rest.dropWhile isNumberChar := takeWhile_append_dropWhile.symm
  unfold getNumber at h
  dsimp only at h
  split_ifs at h with hreal hend hend <;> cases h
  rw [not_or, not_not] at hend
  obtain ⟨hend, hstart⟩ := hend
  set rest := s.rest.dropWhile isNumberChar with hrest
  dsimp only
  have htext : s.rest ++ behind = token ++ (rest ++ behind) := by rw [← append_assoc, ← hsplit]
  rw [htext] at hend hstart ⊢
  -- the token is not empty, so the text does not begin with a blank
  obtain ⟨c, cs, hc⟩ : ∃ c cs, token = c :: cs := by
    cases hnil : token with
    | nil => rw [hnil, nil_append] at hstart hend; exact absurd hend hstart
    | cons c cs => exact ⟨c, cs, rfl⟩
  have hspace : isSpace c = false := by
    have hnumber : isNumberChar c = true := by
      have hmem : c ∈ token := hc ▸ mem_cons_self
      simpa using mem_takeWhile_imp hmem
    exact (by decide +kernel : ∀ c : Byte, isNumberChar c = true → isSpace c = false) c hnumber
  have hskip : (token ++ (rest ++ behind)).dropWhile isSpace = token ++ (rest ++ behind) := by
    rw [hc, cons_append, dropWhile_cons_of_neg (by simp [hspace])]
  have hcond : ¬ (allowWhitespace = false ∧ (token ++ (rest ++ behind)).head?.any isSpace = true) := by
    simp [hc, hspace]
  unfold strtol at hend hstart ⊢
  rw [if_neg hcond, hskip] at hend hstart ⊢
  dsimp only at hend hstart ⊢
  obtain ⟨ds, hds, hdigits, hvalue, hlt, hstop, hlarge⟩ :=
    strtolDigits_spec (readSign (token ++ (rest ++ behind))).2 (x := 0) (by decide)
  have hsign := readSign_spec (token ++ (rest ++ behind))
  generalize readSign (token ++ (rest ++ behind)) = r at hds hvalue hstop hlarge hsign hend hstart ⊢
  generalize strtolDigits 0 r.2 = q at hds hvalue hstop hlarge hend hstart ⊢
  obtain ⟨large, v, t⟩ := q
  obtain ⟨negative, text⟩ := r
  dsimp only at hds hvalue hstop hlarge hsign hend hstart ⊢
  subst hds
  -- the reading has stopped at the end of the token
  have hfit : ∀ sign : List Byte, token ++ (rest ++ behind) = sign ++ (ds ++ t) →
      t.length = (rest ++ behind).length → token = sign ++ ds ∧ t = rest ++ behind := fun sign heq hlen =>
    (append_inj' (heq.trans (append_assoc ..).symm) hlen.symm).imp_right Eq.symm
  have htokens : t.length = (rest ++ behind).length → t = rest ++ behind ∧
      (token = ds ∧ negative = false ∨ token = ch '+' :: ds ∧ negative = false ∨
        token = ch '-' :: ds ∧ negative = true) := by
    intro hlen
    obtain ⟨heq, hneg⟩ | ⟨heq, hneg⟩ | ⟨heq, hneg⟩ := hsign
    · exact ⟨(hfit [] heq hlen).2, .inl ⟨(hfit [] heq hlen).1, hneg⟩⟩
    · exact ⟨(hfit [_] heq hlen).2, .inr (.inl ⟨(hfit [_] heq hlen).1, hneg⟩)⟩
    · exact ⟨(hfit [_] heq hlen).2, .inr (.inr ⟨(hfit [_] heq hlen).1, hneg⟩)⟩
  have hhead : (rest ++ behind).head?.any isDigit = true ↔ rest = [] ∧ behind.head?.any isDigit = true := by
    cases hcase : rest with
    | nil => simp
    | cons d ds' =>
      have hd : isNumberChar d = false := by
        have := head?_dropWhile_not isNumberChar s.rest
        rw [← hrest, hcase] at this
        simpa using this
      have : isDigit d = false := by
        simp only [isNumberChar, Bool.or_eq_false_iff] at hd
        exact hd.1.1.1.1.1
      simp [this]
  cases large with
  | true =>
    obtain ⟨rfl, htoken'⟩ := htokens hend
    obtain ⟨hdigit, hmax⟩ := hlarge rfl
    exact ⟨negative, ds, htoken', hdigits, hlt, .inr ⟨rfl, (hhead.mp hdigit).1, (hhead.mp hdigit).2, hmax⟩⟩
  | false =>
    dsimp only at hend hstart ⊢
    split_ifs at hend hstart ⊢ with hempty
    · exact absurd rfl hstart
    · obtain ⟨rfl, htoken'⟩ := htokens hend
      refine ⟨negative, ds, htoken', hdigits, hlt, .inl ⟨by rw [hvalue], fun hcontra => ?_⟩⟩
      rw [hhead.mpr hcontra] at hstop
      exact absurd (hstop rfl) (by decide)

theorem IntegerRead.denotes_iff {token rest ds : List Byte} {negative : Bool}
    (h : IntegerRead behind token rest x negative ds) (z : ℤ) :
    Denotes token z ↔ ds ≠ [] ∧ z = if negative then -(digitsFrom 0 ds : ℤ) else digitsFrom 0 ds := by
  have hdigits := h.digits
  constructor
  · rintro ⟨ds', hne, hds', hz⟩
    have hplus : isDigit (ch '+') = false := by decide
    have hminus : isDigit (ch '-') = false := by decide
    have hsigns : ch '+' ≠ ch '-' := by decide
    obtain ⟨rfl, rfl⟩ | ⟨rfl, rfl⟩ | ⟨rfl, rfl⟩ := h.token <;> obtain ⟨rfl | heq, rfl⟩ | ⟨heq, rfl⟩ := hz <;>
      simp_all [hsigns.symm]
  · rintro ⟨hne, rfl⟩
    refine ⟨ds, hne, hdigits, ?_⟩
    obtain ⟨heq, rfl⟩ | ⟨heq, rfl⟩ | ⟨heq, rfl⟩ := h.token <;> simp [heq]

theorem signed_modEq {negative : Bool} {v : ℕ} (hv : v < 2 ^ 64) (hneg : negative = true → v ≤ 2 ^ 63) :
    ((signed negative v).toNat : ℤ) ≡ (if negative then -(v : ℤ) else v) [ZMOD 2 ^ 64] := by
  rw [Int.modEq_iff_dvd]
  cases negative with
  | false => exact ⟨0, by simp [signed]; omega⟩
  | true =>
    have hle := hneg rfl
    rw [signed, if_pos rfl, if_pos rfl]
    split_ifs with hbig heq
    · exact ⟨-1, by rw [BitVec.toNat_ofNat]; omega⟩
    · omega
    · rw [BitVec.toNat_neg, BitVec.toNat_ofNat]
      exact ⟨if v = 0 then 0 else -1, by split_ifs <;> omega⟩

/-- **When an integer that is accepted is the one that is written.** The token has a digit, its value is not below
`-2 ^ 63`, and no digit behind the text continues it, unless it is the largest value. -/
theorem integer_token_iff (h : getNumber allowWhitespace behind s = .ok (.integer x) s') :
    (∃ z, Denotes (s.rest.takeWhile isNumberChar) z ∧ -2 ^ 63 ≤ z ∧ z ≤ 2 ^ 64 - 1 ∧ (x.toNat : ℤ) ≡ z [ZMOD 2 ^ 64]) ↔
      ∃ z, Denotes (s.rest.takeWhile isNumberChar) z ∧ -2 ^ 63 ≤ z ∧
        (s'.rest = [] → behind.head?.any isDigit = true → z = 2 ^ 64 - 1) := by
  obtain ⟨negative, ds, hread⟩ := getNumber_integer h
  simp only [hread.denotes_iff]
  have hlt := hread.lt
  constructor
  · rintro ⟨z, ⟨hne, rfl⟩, hlow, -, hmod⟩
    refine ⟨_, ⟨hne, rfl⟩, hlow, fun hend hdigit => ?_⟩
    obtain ⟨-, hnot⟩ | ⟨rfl, -, -, hmax⟩ := hread.value
    · exact absurd ⟨hend, hdigit⟩ hnot
    · obtain ⟨k, hk⟩ := Int.modEq_iff_dvd.mp hmod
      rw [BitVec.toNat_allOnes] at hk
      split_ifs at hk hlow ⊢ <;> omega
  · rintro ⟨z, ⟨hne, rfl⟩, hlow, hend⟩
    have hhigh : (if negative then -(digitsFrom 0 ds : ℤ) else digitsFrom 0 ds) ≤ 2 ^ 64 - 1 := by split_ifs <;> omega
    refine ⟨_, ⟨hne, rfl⟩, hlow, hhigh, ?_⟩
    obtain ⟨rfl, -⟩ | ⟨rfl, hrest, hdigit, -⟩ := hread.value
    · refine signed_modEq hlt fun hneg => ?_
      rw [if_pos hneg] at hlow
      omega
    · rw [hend hrest hdigit]
      rfl

def parserAt (text : List Byte) : Parser Unit := ⟨text, ⟨1, fun _ => ⟨cstring [], 0, 0, 0⟩⟩, ()⟩

/-- The smallest integer is read as it is written. -/
theorem integer_token_smallest :
    ∃ x s', getNumber false [] (parserAt (bytes "-9223372036854775808,")) = .ok (.integer x) s' ∧
      ∃ z, Denotes (bytes "-9223372036854775808") z ∧ -2 ^ 63 ≤ z ∧ z ≤ 2 ^ 64 - 1 ∧
        (x.toNat : ℤ) ≡ z [ZMOD 2 ^ 64] := by
  have htoken : (parserAt (bytes "-9223372036854775808,")).rest.takeWhile isNumberChar =
      bytes "-9223372036854775808" := by decide
  have hread : getNumber false [] (parserAt (bytes "-9223372036854775808,")) =
      .ok (.integer (BitVec.ofNat 64 (2 ^ 63))) (parserAt (bytes ",")) := rfl
  refine ⟨_, _, hread, ?_⟩
  rw [← htoken]
  refine (integer_token_iff hread).mpr ⟨-2 ^ 63, ?_, le_refl _, fun hend => absurd hend (by decide)⟩
  exact ⟨bytes "9223372036854775808", by decide, by decide, .inr ⟨htoken, by decide⟩⟩

/-- A sign alone is accepted as zero, and so is a number that is too small. -/
theorem sign_accepted : (getNumber false [] (parserAt (bytes "-,")) = .ok (.integer 0) (parserAt (bytes ",")) ∧
      ∀ z, ¬ Denotes (bytes "-") z) ∧
    getNumber false [] (parserAt (bytes "-9223372036854775809,")) = .ok (.integer 0) (parserAt (bytes ",")) ∧
      Denotes (bytes "-9223372036854775809") (-9223372036854775809) := by
  refine ⟨⟨rfl, ?_⟩, rfl, bytes "9223372036854775809", by decide, by decide, .inr ⟨by decide, by decide⟩⟩
  rintro z ⟨ds, hne, hds, ⟨rfl | heq, -⟩ | ⟨heq, -⟩⟩
  · exact absurd (hds _ mem_cons_self) (by decide)
  · exact absurd (cons.inj heq).1 (by decide)
  · exact hne (cons.inj heq).2.symm

end SgxLkl.Json
