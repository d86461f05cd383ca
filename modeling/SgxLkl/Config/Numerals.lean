import SgxLkl.Config.Integers
import SgxLkl.Json.Number

/-!
# Numerals

`_strtol` takes nothing at all, or a sign, for zero, and its callers do not all look where it has stopped.

* `Numeral`: a number as it is printed; **`Numeral.eq_decimal`**: there is only one for each value.
* **`json_match_iff`**: when `#` stands for a numeral.
* **`decode_safe_iff`**: when `decode_safe_uint64_t` takes numerals only.
-/

namespace SgxLkl.Config

open Json List Option

/-! ## The digits -/

/-- Digits without a superfluous zero, with a value below `2 ^ 64`. -/
structure Numeral (t : List Byte) : Prop where
  ne_nil : t ≠ []
  digits : ∀ c ∈ t, isDigit c = true
  lead : 1 < t.length → t.head? ≠ some 0x30
  lt : digitsFrom 0 t < 2 ^ 64

variable {t ds rest : List Byte} {x : ℕ}

theorem digitsFrom_concat (ds : List Byte) (c : Byte) :
    digitsFrom x (ds ++ [c]) = digitsFrom x ds * 10 + (c - 0x30).toNat := by
  simp [digitsFrom, foldl_append]

theorem le_digitsFrom (x : ℕ) (ds : List Byte) : x ≤ digitsFrom x ds := by
  induction ds generalizing x with
  | nil => exact le_rfl
  | cons c ds ih => exact le_trans (show x ≤ x * 10 + (c - 0x30).toNat by omega) (ih _)

theorem digit_eq : ∀ c : Byte, isDigit c = true →
    (c - 0x30).toNat < 10 ∧ BitVec.ofNat 8 (0x30 + (c - 0x30).toNat) = c := by
  decide +kernel

theorem decimal_digitsFrom (hne : t ≠ []) (hdigits : ∀ c ∈ t, isDigit c = true)
    (hlead : 1 < t.length → t.head? ≠ some 0x30) : decimal (digitsFrom 0 t) = t := by
  induction t using reverseRecOn with
  | nil => exact absurd rfl hne
  | append_singleton ds c ih =>
    obtain ⟨hlt, hc⟩ := digit_eq c (hdigits c (by simp))
    rw [digitsFrom_concat]
    rcases eq_or_ne ds [] with rfl | hds
    · rw [show digitsFrom 0 [] = 0 from rfl, Nat.zero_mul, Nat.zero_add, decimal_of_lt hlt, hc, nil_append]
    · have hhead : ds.head? ≠ some 0x30 := by
        have := hlead (by simp [length_pos_iff.mpr hds])
        rwa [head?_append_of_ne_nil _ hds] at this
      have hprefix := ih hds (fun d hd => hdigits d (by simp [hd])) fun _ => hhead
      have hpos : digitsFrom 0 ds ≠ 0 := fun h => hhead (by rw [← hprefix, h]; rfl)
      rw [decimal_append (by omega), show (digitsFrom 0 ds * 10 + (c - 0x30).toNat) / 10 = digitsFrom 0 ds by omega,
        show (digitsFrom 0 ds * 10 + (c - 0x30).toNat) % 10 = (c - 0x30).toNat by omega, hprefix, hc]

theorem Numeral.eq_decimal (h : Numeral t) : t = decimal (digitsFrom 0 t) :=
  (decimal_digitsFrom h.ne_nil h.digits h.lead).symm

theorem strtolDigits_append (hds : ∀ c ∈ ds, isDigit c = true) (hrest : rest.head?.any isDigit = false)
    (hx : x < 2 ^ 64) : (digitsFrom x ds < 2 ^ 64 → strtolDigits x (ds ++ rest) = (false, digitsFrom x ds, rest)) ∧
      (2 ^ 64 ≤ digitsFrom x ds → (strtolDigits x (ds ++ rest)).1 = true) := by
  induction ds generalizing x with
  | nil =>
    refine ⟨fun _ => ?_, fun h => absurd h (Nat.not_le.mpr hx)⟩
    cases rest with
    | nil => rfl
    | cons c cs =>
      rw [nil_append, strtolDigits, if_neg (by simpa using hrest)]
      rfl
  | cons c ds ih =>
    have hle : x * 10 + (c - 0x30).toNat ≤ digitsFrom x (c :: ds) := le_digitsFrom _ ds
    rw [cons_append, strtolDigits, if_pos (hds c mem_cons_self)]
    split_ifs with hmul hadd
    · exact ⟨fun h => absurd h (by omega), fun _ => rfl⟩
    · exact ⟨fun h => absurd h (by omega), fun _ => rfl⟩
    · have hx' : x * 10 + (c - 0x30).toNat < 2 ^ 64 := by omega
      exact ih (fun d hd => hds d (mem_cons_of_mem c hd)) hx'

/-! ## Patterns -/

/-- What `_strtou64` takes for a number although it is no numeral: blanks, a sign, digits, or a part of these. -/
def Loose (allowWhitespace : Bool) (t : List Byte) : Prop :=
  ¬ Numeral t ∧ (allowWhitespace = false → t.head?.any isSpace = false) ∧
    (∀ c ∈ (readSign (t.dropWhile isSpace)).2, isDigit c = true) ∧
    digitsFrom 0 (readSign (t.dropWhile isSpace)).2 < 2 ^ 64

variable {allowWhitespace : Bool}

theorem strtou64_of_numeral {s : CString Byte} (h : Numeral s.chars) :
    strtou64 allowWhitespace s = some (BitVec.ofNat 64 (digitsFrom 0 s.chars)) := by
  have hs : s = decimalString (digitsFrom 0 s.chars) := CString.ext_chars h.eq_decimal
  rw [hs, strtou64_decimalString allowWhitespace h.lt, ← hs]

theorem strtou64_isSome_iff (s : CString Byte) :
    (strtou64 allowWhitespace s).isSome ↔ Numeral s.chars ∨ Loose allowWhitespace s.chars := by
  by_cases hnumeral : Numeral s.chars
  · simp [strtou64_of_numeral hnumeral, hnumeral]
  simp only [hnumeral, false_or, Loose, not_false_eq_true, true_and]
  unfold strtou64 strtol
  by_cases hspace : allowWhitespace = false ∧ s.chars.head?.any isSpace = true
  · rw [if_pos hspace]
    cases h : s.chars with
    | nil => simp [h] at hspace
    | cons c cs => simp_all
  rw [if_neg hspace]
  have hblank : allowWhitespace = false → s.chars.head?.any isSpace = false := by simpa using hspace
  simp only [eq_true hblank, true_and]
  obtain ⟨ds, hsplit, hdigits, hvalue, hlt, hstop, hlarge⟩ :=
    strtolDigits_spec (readSign (s.chars.dropWhile isSpace)).2 (x := 0) (by decide)
  generalize (readSign (s.chars.dropWhile isSpace)).2 = u at *
  generalize hq : strtolDigits 0 u = q at *
  obtain ⟨large, v, r⟩ := q
  dsimp only at *
  cases r with
  | nil =>
    have hfalse : large = false := by cases large <;> simp_all
    subst hfalse
    rw [append_nil] at hsplit
    subst hsplit
    simp only [hlt, and_true, eq_true hdigits, iff_true]
    split_ifs with hempty
    · rw [length_nil, eq_comm, length_eq_zero_iff] at hempty
      simp [hempty]
    · rfl
  | cons c cs =>
    refine iff_of_false ?_ fun ⟨hall, hbound⟩ => ?_
    · cases large with
      | true => simp
      | false =>
        dsimp only
        split_ifs with hempty
        · cases h : s.chars <;> simp_all
        · simp
    · have hfull : strtolDigits 0 (u ++ []) = _ := (strtolDigits_append hall rfl (Nat.two_pow_pos 64)).1 hbound
      rw [append_nil, hq] at hfull
      cases hfull

/-- What `json_match` should ask of one component: the name itself, or a numeral for `#`. -/
def Fits (t : List Byte) (name : CString Byte) : Prop := t = name.chars ∨ t = bytes "#" ∧ Numeral name.chars

/-- All components of the pattern go with the names of the path. -/
def Selected (component : List Byte → CString Byte → Prop) (p : Path) (tokens : List (List Byte)) : Prop :=
  tokens.length = p.depth ∧ ∀ i t, tokens[i]? = some t → component t (p.node i).name

/-- What `json_match` asks of one component. -/
def Accepts (allowWhitespace : Bool) (t : List Byte) (name : CString Byte) : Prop :=
  if t = bytes "#" then Numeral name.chars ∨ Loose allowWhitespace name.chars else t = name.chars

theorem forall_getElem?_cons {α : Type} {a : α} {l : List α} {Q : ℕ → α → Prop} :
    (∀ k b, (a :: l)[k]? = some b → Q k b) ↔ Q 0 a ∧ ∀ k b, l[k]? = some b → Q (k + 1) b := by
  refine ⟨fun h => ⟨h 0 a rfl, fun k b hb => h (k + 1) b hb⟩, fun ⟨h₀, h⟩ k b hb => ?_⟩
  cases k with
  | zero => exact some.inj hb ▸ h₀
  | succ k => exact h k b hb

theorem matchTokens_eq_ok (allowWhitespace : Bool) (p : Path) (ts : List (List Byte)) (i : ℕ) :
    matchTokens allowWhitespace p ts i = .ok () ↔
      ∀ k t, ts[k]? = some t → Accepts allowWhitespace t (p.node (i + k)).name := by
  induction ts generalizing i with
  | nil => simp [matchTokens]
  | cons t ts ih =>
    simp only [forall_getElem?_cons, Accepts, ← strtou64_isSome_iff, Nat.add_zero, ← Nat.add_assoc] at ih ⊢
    rw [matchTokens]
    split_ifs with hindex hnone hname <;> simp_all [Nat.add_right_comm, isSome_iff_ne_none]

theorem jsonMatch_eq_ok {p : Path} (hp : p.depth ≤ maxNesting) (pattern : List Byte) :
    jsonMatch allowWhitespace p pattern = .ok () ↔ Selected (Accepts allowWhitespace) p (split pattern) := by
  have hmatch := matchTokens_eq_ok allowWhitespace p (split pattern) 0
  simp only [Nat.zero_add] at hmatch
  rw [Selected, ← hmatch, jsonMatch]
  split_ifs with hlarge hdepth
  · exact iff_of_false nofun fun h => by omega
  · exact iff_of_false nofun fun h => hdepth h.1.symm
  · exact (and_iff_right (not_not.mp hdepth).symm).symm

theorem accepts_hash (allowWhitespace : Bool) (name : CString Byte) :
    Accepts allowWhitespace (bytes "#") name ↔ Numeral name.chars ∨ Loose allowWhitespace name.chars := by
  rw [Accepts, if_pos rfl]

theorem not_loose_hash (allowWhitespace : Bool) : ¬ Numeral (bytes "#") ∧ ¬ Loose allowWhitespace (bytes "#") := by
  have hdigit : ∀ c ∈ bytes "#", ¬ isDigit c = true := by decide
  refine ⟨fun h => hdigit (ch '#') (by decide) (h.digits _ (by decide)), fun h => ?_⟩
  exact hdigit (ch '#') (by decide) (h.2.2.1 _ (by decide))

/-- A component that is no `#` is asked for the name itself. -/
theorem accepts_iff_fits {t : List Byte} (ht : t ≠ bytes "#") (allowWhitespace : Bool) (name : CString Byte) :
    Accepts allowWhitespace t name ↔ Fits t name := by
  rw [Accepts, if_neg ht, Fits, or_iff_left fun h => ht h.1]

/-- The two questions differ for a loose number, and for the name `#`. -/
theorem accepts_hash_iff_fits (allowWhitespace : Bool) (name : CString Byte) :
    (Accepts allowWhitespace (bytes "#") name → ¬ Loose allowWhitespace name.chars → Fits (bytes "#") name) ∧
      (Fits (bytes "#") name → name.chars ≠ bytes "#" → Accepts allowWhitespace (bytes "#") name) := by
  rw [accepts_hash]
  exact ⟨fun h hloose => .inr ⟨rfl, h.resolve_right hloose⟩,
    fun h hname => .inl (h.resolve_left fun heq => hname heq.symm).2⟩

/-- **When `#` stands for a numeral.** `json_match` selects what it should, if and only if a loose number at a `#` goes
with another component that does not match, and a member `#` with another one that should not. Different numerals have
different indices. -/
theorem json_match_iff (p : Path) (hp : p.depth ≤ maxNesting) (pattern : List Byte) :
    ((jsonMatch allowWhitespace p pattern = .ok () ↔ Selected Fits p (split pattern)) ↔
      ((split pattern).length = p.depth → ∀ i, (split pattern)[i]? = some (bytes "#") →
        (Loose allowWhitespace (p.node i).name.chars →
          ∃ j t, (split pattern)[j]? = some t ∧ ¬ Accepts allowWhitespace t (p.node j).name) ∧
        ((p.node i).name.chars = bytes "#" → ∃ j t, (split pattern)[j]? = some t ∧ ¬ Fits t (p.node j).name))) ∧
      ∀ a b : CString Byte, Numeral a.chars → Numeral b.chars →
        (nodeOf allowWhitespace a).number = (nodeOf allowWhitespace b).number → a = b := by
  rw [jsonMatch_eq_ok hp]
  refine ⟨⟨fun h hlen i hi => ⟨fun hloose => ?_, fun hname => ?_⟩, fun h => ?_⟩, fun a b ha hb hab => ?_⟩
  · by_contra! hall
    rcases (h.mp ⟨hlen, hall⟩).2 i _ hi with heq | ⟨-, hnumeral⟩
    · exact (not_loose_hash _).2 (heq ▸ hloose)
    · exact hloose.1 hnumeral
  · by_contra! hall
    have haccepts := (h.mpr ⟨hlen, hall⟩).2 i _ hi
    rw [accepts_hash, hname] at haccepts
    exact haccepts.elim (not_loose_hash allowWhitespace).1 (not_loose_hash _).2
  · refine ⟨fun hsel => ⟨hsel.1, fun i t ht => ?_⟩, fun hsel => ⟨hsel.1, fun i t ht => ?_⟩⟩
    · by_cases hindex : t = bytes "#"
      · subst hindex
        refine (accepts_hash_iff_fits allowWhitespace _).1 (hsel.2 i _ ht) fun hloose => ?_
        obtain ⟨j, u, hu, hnot⟩ := (h hsel.1 i ht).1 hloose
        exact hnot (hsel.2 j u hu)
      · exact (accepts_iff_fits hindex _ _).mp (hsel.2 i t ht)
    · by_cases hindex : t = bytes "#"
      · subst hindex
        refine (accepts_hash_iff_fits allowWhitespace _).2 (hsel.2 i _ ht) fun hname => ?_
        obtain ⟨j, u, hu, hnot⟩ := (h hsel.1 i ht).2 hname
        exact hnot (hsel.2 j u hu)
      · exact (accepts_iff_fits hindex _ _).mpr (hsel.2 i t ht)
  · simp only [nodeOf, strtou64_of_numeral ha, strtou64_of_numeral hb, getD_some] at hab
    have hvalue := congrArg BitVec.toNat hab
    rw [BitVec.toNat_ofNat, BitVec.toNat_ofNat, Nat.mod_eq_of_lt ha.lt, Nat.mod_eq_of_lt hb.lt] at hvalue
    exact CString.ext_chars (by rw [ha.eq_decimal, hb.eq_decimal, hvalue])

/-- A path of one name. -/
def oneName (name : String) : Path := ⟨1, fun _ => nodeOf true (cstring (bytes name))⟩

/-- A path of one numeral meets the condition, and is selected. -/
theorem json_match_iff_seven : jsonMatch true (oneName "7") (bytes "#") = .ok () ∧
    Selected Fits (oneName "7") (split (bytes "#")) := by
  have hok : jsonMatch true (oneName "7") (bytes "#") = .ok () := by decide
  have hiff := (@json_match_iff true (oneName "7") (by decide) (bytes "#")).1.mpr ?_
  · exact ⟨hok, hiff.mp hok⟩
  · have hname : ∀ i, ((oneName "7").node i).name.chars = bytes "7" := fun _ => rfl
    have hseven : Numeral (bytes "7") := ⟨by decide, by decide, by decide, by decide⟩
    intro _ i _
    rw [hname]
    exact ⟨fun hloose => absurd hseven hloose.1, fun heq => absurd heq (by decide)⟩

/-- Two members with one index, and members with no number at all. -/
theorem index_shared : (∀ name ∈ ["1", "01", "+1", " 1"],
    (jsonMatch true (oneName name) (bytes "#")).isOk = true ∧ ((oneName name).node 0).number = 1) ∧
    ∀ name ∈ ["", "-", "  "], (jsonMatch true (oneName name) (bytes "#")).isOk = true := by
  decide

/-! ## Integers in the configuration -/

/-- What is accepted although it is no numeral: nothing, one character that is neither a digit nor a blank,
or digits with something behind them. -/
def Junk (t : List Byte) : Prop :=
  t = [] ∨ (∃ c, t = [c] ∧ isDigit c = false ∧ isSpace c = false) ∨
    ∃ c ds rest, t = c :: ds ++ rest ∧ (∀ d ∈ c :: ds, isDigit d = true) ∧ c ≠ 0x30 ∧
      digitsFrom 0 (c :: ds) < 2 ^ 64 ∧ rest ≠ [] ∧ rest.head?.any isDigit = false

theorem strtoul_single : ∀ c : Byte, strtoul false [c] =
    if isSpace c then .error .badSyntax else .ok (BitVec.ofNat 64 (if isDigit c then digitsFrom 0 [c] else 0)) := by
  decide +kernel

theorem strtoul_digits {c : Byte} (hds : ∀ d ∈ c :: ds, isDigit d = true) (hrest : rest.head?.any isDigit = false) :
    strtoul false (c :: ds ++ rest) =
      if digitsFrom 0 (c :: ds) < 2 ^ 64 then .ok (BitVec.ofNat 64 (digitsFrom 0 (c :: ds)))
      else .error .outOfBounds := by
  obtain ⟨hspace, hplus, hminus, -⟩ := isDigit_facts c (hds c mem_cons_self)
  have hsign : readSign ((c :: ds ++ rest).dropWhile isSpace) = (false, c :: ds ++ rest) := by
    rw [cons_append, dropWhile_cons_of_neg (by simp [hspace]), readSign, if_neg hplus, if_neg hminus]
  obtain ⟨hfits, hlarge⟩ := strtolDigits_append hds hrest (Nat.two_pow_pos 64)
  have hhead : ¬ (false = false ∧ (c :: ds ++ rest).head?.any isSpace = true) := by simp [hspace]
  rw [strtoul, conversionError, if_neg hhead, hsign]
  dsimp only
  by_cases hlt : digitsFrom 0 (c :: ds) < 2 ^ 64
  · rw [if_pos hlt, strtol, if_neg hhead, hsign]
    dsimp only
    rw [hfits hlt]
    have hlen : rest.length ≠ (c :: ds ++ rest).length := by
      rw [length_append, length_cons]
      omega
    dsimp only
    rw [if_neg (by decide), if_neg hlen]
    rfl
  · rw [if_neg hlt, hlarge (Nat.not_lt.mp hlt)]
    rfl

theorem decodeSafe_cons {s : CString Byte} {c : Byte} {cs : List Byte} (hs : s.chars = c :: cs)
    (hc : cs = [] ∨ isDigit c = true ∧ c ≠ 0x30) : decodeSafeUint64 (.string s) = strtoul false (c :: cs) := by
  have hfirst : ∀ c : Byte, isDigit c = true ∧ c ≠ 0x30 → (c ≤ 0x30 || 0x39 < c) = false := by decide +kernel
  rw [decodeSafeUint64, hs, if_neg]
  rintro ⟨hlen, hany⟩
  rcases hc with rfl | hc
  · exact absurd hlen (lt_irrefl 1)
  · exact Bool.false_ne_true ((hfirst c hc).symm.trans hany)

theorem decodeSafe_of_numeral {s : CString Byte} (h : Numeral s.chars) :
    decodeSafeUint64 (.string s) = .ok (BitVec.ofNat 64 (digitsFrom 0 s.chars)) := by
  obtain ⟨c, cs, hs⟩ := exists_cons_of_ne_nil h.ne_nil
  have hdecimal := strtoul_decimal false h.lt
  rw [← h.eq_decimal, hs] at hdecimal
  rw [decodeSafe_cons hs ?_, hs, hdecimal]
  refine or_iff_not_imp_left.mpr fun hcs => ⟨h.digits c (by simp [hs]), fun hzero => ?_⟩
  exact h.lead (by simp [hs, length_pos_iff.mpr hcs]) (by rw [hs, hzero]; rfl)

theorem decodeSafe_of_junk {s : CString Byte} (h : Junk s.chars) :
    ¬ Numeral s.chars ∧ ∃ x, decodeSafeUint64 (.string s) = .ok x := by
  obtain hs | ⟨c, hs, hdigit, hspace⟩ | ⟨c, ds, rest, hs, hds, hc, hlt, hne, hrest⟩ := h
  · refine ⟨fun h => h.ne_nil hs, 0, ?_⟩
    rw [decodeSafeUint64, hs]
    rfl
  · refine ⟨fun h => ?_, 0, ?_⟩
    · rw [h.digits c (by simp [hs])] at hdigit
      cases hdigit
    · rw [decodeSafe_cons hs (.inl rfl), strtoul_single, hspace, hdigit]
      rfl
  · refine ⟨fun h => ?_, BitVec.ofNat 64 (digitsFrom 0 (c :: ds)), ?_⟩
    · obtain ⟨d, rest', rfl⟩ := exists_cons_of_ne_nil hne
      have hd := h.digits d (by simp [hs])
      simp [hd] at hrest
    · rw [decodeSafe_cons hs (.inr ⟨hds c mem_cons_self, hc⟩)]
      exact (strtoul_digits hds hrest).trans (if_pos hlt)

theorem decodeSafe_ok {s : CString Byte} {x : Word} (h : decodeSafeUint64 (.string s) = .ok x) :
    Numeral s.chars ∨ Junk s.chars := by
  cases hs : s.chars with
  | nil => exact .inr (.inl rfl)
  | cons c cs =>
    rcases eq_or_ne cs [] with rfl | hcs
    · rw [decodeSafe_cons hs (.inl rfl), strtoul_single] at h
      by_cases hspace : isSpace c = true
      · rw [if_pos hspace] at h
        cases h
      by_cases hdigit : isDigit c = true
      · have hlt : 0 * 10 + (c - 0x30).toNat < 2 ^ 64 := by
          have := (digit_eq c hdigit).1
          omega
        exact .inl ⟨by simp, by simpa using hdigit, by simp, hlt⟩
      · exact .inr (.inr (.inl ⟨c, rfl, Bool.eq_false_iff.mpr hdigit, Bool.eq_false_iff.mpr hspace⟩))
    · have hc : isDigit c = true ∧ c ≠ 0x30 := by
        by_contra hc
        have hfirst : ∀ c : Byte, ¬ (isDigit c = true ∧ c ≠ 0x30) → (c ≤ 0x30 || 0x39 < c) = true := by decide +kernel
        rw [decodeSafeUint64, hs, if_pos ⟨by simp [length_pos_iff.mpr hcs], hfirst c hc⟩] at h
        cases h
      rw [decodeSafe_cons hs (.inr hc)] at h
      have hsplit : c :: cs.takeWhile isDigit ++ cs.dropWhile isDigit = c :: cs := by
        rw [cons_append, takeWhile_append_dropWhile]
      have hdigits : ∀ d ∈ c :: cs.takeWhile isDigit, isDigit d = true := by
        intro d hd
        rcases mem_cons.mp hd with rfl | hd
        · exact hc.1
        · exact mem_takeWhile_imp hd
      have hend : (cs.dropWhile isDigit).head?.any isDigit = false := by
        have := head?_dropWhile_not isDigit cs
        cases hrest : cs.dropWhile isDigit <;> simp_all
      rw [← hsplit, strtoul_digits hdigits hend] at h
      split_ifs at h with hlt
      rcases eq_or_ne (cs.dropWhile isDigit) [] with hrest | hrest
      · rw [hrest, append_nil] at hsplit
        rw [hsplit] at hdigits hlt
        exact .inl ⟨by simp, hdigits, fun _ heq => hc.2 (some.inj heq), hlt⟩
      · exact .inr (.inr (.inr ⟨c, _, _, hsplit.symm, hdigits, hc.2, hlt, hrest, hend⟩))

/-- **When only numerals are accepted**, with their value. -/
theorem decode_safe_iff (s : CString Byte) :
    (∀ x, decodeSafeUint64 (.string s) = .ok x ↔ Numeral s.chars ∧ x = BitVec.ofNat 64 (digitsFrom 0 s.chars)) ↔
      ¬ Junk s.chars := by
  refine ⟨fun h hjunk => ?_, fun hjunk x => ⟨fun h => ?_, fun ⟨h, hx⟩ => hx ▸ decodeSafe_of_numeral h⟩⟩
  · obtain ⟨hnumeral, x, hx⟩ := decodeSafe_of_junk hjunk
    exact hnumeral ((h x).mp hx).1
  · have hnumeral := (decodeSafe_ok h).resolve_right hjunk
    rw [decodeSafe_of_numeral hnumeral] at h
    exact ⟨hnumeral, (Except.ok.inj h).symm⟩

/-- Nothing is zero, a letter is zero, and what follows the digits is not looked at. -/
theorem decode_safe_junk :
    ["", "x", "-", "12ab"].map (fun s => (decodeSafeUint64 (.string (cstring (bytes s)))).toOption) =
      [some 0, some 0, some 0, some 12] := by
  decide

end SgxLkl.Config
