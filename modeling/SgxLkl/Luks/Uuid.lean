import SgxLkl.Luks.Keys
import SgxLkl.Json.Number

/-!
# UUIDs

`vic_uuid_valid` leaves the syntax to `sscanf`, which takes fewer digits than the width of a field, blanks and signs,
and does not look at what is behind the last field.

* **`vicUuidValid_iff`**: the strings that are accepted.
* **`uuid_iff`**: the two forms of a UUID correspond as long as the string is not one of those, or is canonical.
-/

namespace SgxLkl.Luks.Uuid

open Json (ch isSpace isHexDigit hexValue readSign)
open List Option

/-! ## Reading -/

/-- What becomes of the conversion: the bytes that were written, an error, or a step over the end of the string. -/
inductive Converted
  | ok (bytes : List Byte)
  | failed
  | outside
  deriving DecidableEq

def Converted.cons (b : Byte) : Converted → Converted
  | .ok bytes => .ok (b :: bytes)
  | .failed => .failed
  | .outside => .outside

/-- The loop of `vic_uuid_str2bin`; the first argument is the number of characters that are passed over. -/
def str2binLoop : ℕ → List Byte → Converted
  | 0, [] => .ok []
  | _ + 1, [] => .outside
  | k + 1, _ :: cs => str2binLoop k cs
  | 0, c :: cs =>
    match scanHex 2 (if c = ch '-' then cs else c :: cs) with
    | some x => (str2binLoop (if c = ch '-' then 2 else 1) cs).cons (x.1.setWidth 8)
    | none => .failed

def vicUuidStr2bin (s : List Byte) : Converted := if vicUuidValid s then str2binLoop 0 s else .failed

def vicUuidBin2str (b : List.Vector Byte 16) : List Byte :=
  let group (i n : ℕ) : List Byte := ((b.toList.drop i).take n).flatMap hex2
  group 0 4 ++ ch '-' :: (group 4 2 ++ ch '-' :: (group 6 2 ++ ch '-' :: (group 8 2 ++ ch '-' :: group 10 6)))

/-! ## Canonical strings -/

def IsHex (n : ℕ) (g : List Byte) : Prop := g.length = n ∧ ∀ c ∈ g, isHexDigit c = true

/-- 36 characters: hexadecimal digits, and dashes at 8, 13, 18 and 23. -/
def Canonical (s : List Byte) : Prop :=
  ∃ g₁ g₂ g₃ g₄ g₅, s = g₁ ++ ch '-' :: (g₂ ++ ch '-' :: (g₃ ++ ch '-' :: (g₄ ++ ch '-' :: g₅))) ∧
    IsHex 8 g₁ ∧ IsHex 4 g₂ ∧ IsHex 4 g₃ ∧ IsHex 4 g₄ ∧ IsHex 12 g₅

def lower (c : Byte) : Byte := if 0x41 ≤ c ∧ c ≤ 0x5a then c + 0x20 else c

def hexBytes : List Byte → List Byte
  | a :: b :: t => BitVec.ofNat 8 (hexValue a * 16 + hexValue b) :: hexBytes t
  | _ => []

theorem hexDigit_spec : ∀ c : Byte, isHexDigit c = true →
    isSpace c = false ∧ c ≠ ch '-' ∧ c ≠ ch '+' ∧ c ≠ ch 'x' ∧ c ≠ ch 'X' ∧ hexValue c < 16 ∧
      (if hexValue c < 10 then 0x30 + BitVec.ofNat 8 (hexValue c) else 0x57 + BitVec.ofNat 8 (hexValue c)) = lower c := by
  decide +kernel

variable {g : List Byte}

theorem scanHex_digits {n : ℕ} (hn : 0 < n) (hg : IsHex n g) (rest : List Byte) :
    scanHex n (g ++ rest) = some (BitVec.ofNat 64 (g.foldl (fun x c => x * 16 + hexValue c) 0), rest) := by
  obtain ⟨hlen, hdigits⟩ := hg
  obtain ⟨a, g', rfl⟩ : ∃ a g', g = a :: g' := exists_cons_of_length_pos (hlen ▸ hn)
  obtain ⟨hspace, hminus, hplus, -⟩ := hexDigit_spec a (hdigits a mem_cons_self)
  have hblank : (a :: g' ++ rest).dropWhile isSpace = a :: g' ++ rest := by simp [hspace]
  have hsign : readSign (a :: g' ++ rest) = (false, a :: g' ++ rest) := by simp [readSign, hplus, hminus]
  have hwindow : (a :: g' ++ rest).take n = a :: g' := by rw [← hlen, take_left]
  have hx : ¬ (g'.head? = some (ch 'x') ∨ g'.head? = some (ch 'X')) := by
    cases g' with
    | nil => simp
    | cons b g' =>
      have hb := hexDigit_spec b (hdigits b (by simp))
      simp [hb.2.2.2.1, hb.2.2.2.2.1]
  have hall : (a :: g').takeWhile isHexDigit = a :: g' := takeWhile_eq_self_iff.mpr hdigits
  have hdrop : (a :: g' ++ rest).drop (0 + n) = rest := by rw [Nat.zero_add, ← hlen, drop_left]
  rw [scanHex, hblank, hsign]
  simp only [Nat.sub_self, Nat.sub_zero, scanDigits, hwindow, tail_cons, hx, and_false, if_false, drop_zero, hall,
    hlen, hdrop]
  rfl

theorem scanField_digits {n : ℕ} (hn : 0 < n) (hg : IsHex n g) (rest : List Byte) :
    scanField n (g ++ ch '-' :: rest) = some rest := by
  rw [scanField, scanHex_digits hn hg]; rfl

/-! ## The strings that are accepted -/

/-- What a conversion with a width takes of `text` for a number: blanks, then a sign, `0x` and digits, which have to fit
the width together. A `0` with an `x` behind it is not taken for a digit. -/
def Scanned (width : ℕ) (text rest : List Byte) : Prop :=
  ∃ blanks sign pre digits, text = blanks ++ (sign ++ (pre ++ (digits ++ rest))) ∧
    (∀ c ∈ blanks, isSpace c = true) ∧ (sign = [] ∨ sign = [ch '+'] ∨ sign = [ch '-']) ∧
    (pre = [] ∨ pre = [ch '0', ch 'x'] ∨ pre = [ch '0', ch 'X']) ∧ digits ≠ [] ∧ (∀ c ∈ digits, isHexDigit c = true) ∧
    sign.length + pre.length + digits.length ≤ width ∧
    (pre = [] → digits = [ch '0'] → rest.head? ≠ some (ch 'x') ∧ rest.head? ≠ some (ch 'X'))

theorem readSign_append_sign {sign t : List Byte} (h : sign = [] ∨ sign = [ch '+'] ∨ sign = [ch '-'])
    (ht : t.head? ≠ some (ch '+') ∧ t.head? ≠ some (ch '-')) : (readSign (sign ++ t)).2 = t := by
  rcases h with rfl | rfl | rfl
  · cases t with
    | nil => rfl
    | cons c cs =>
      have hc : c ≠ ch '+' ∧ c ≠ ch '-' := ⟨fun h => ht.1 (congrArg some h), fun h => ht.2 (congrArg some h)⟩
      rw [nil_append, readSign, if_neg hc.1, if_neg hc.2]
  · rfl
  · rfl

/-- The digits behind the sign: what was taken, and that more digits would be taken only up to the width. -/
theorem scanDigits_eq_some {width v : ℕ} {text rest : List Byte} (hwidth : 2 ≤ width)
    (h : scanDigits width text = some (v, rest)) : ∃ pre digits, text = pre ++ (digits ++ rest) ∧
      (pre = [] ∨ pre = [ch '0', ch 'x'] ∨ pre = [ch '0', ch 'X']) ∧ digits ≠ [] ∧
      (∀ c ∈ digits, isHexDigit c = true) ∧ pre.length + digits.length ≤ width ∧
      (pre = [] → digits = [ch '0'] → rest.head? ≠ some (ch 'x') ∧ rest.head? ≠ some (ch 'X')) := by
  unfold scanDigits at h
  dsimp only at h
  -- the digits are a part of the text behind the prefix
  have hsplit (k : ℕ) : (text.drop k).take (((text.take width).drop k).takeWhile isHexDigit).length =
      ((text.take width).drop k).takeWhile isHexDigit := by
    rw [drop_take]
    exact (prefix_iff_eq_take.mp (( takeWhile_prefix _).trans ( take_prefix _ _))).symm
  have hlength (k : ℕ) : (((text.take width).drop k).takeWhile isHexDigit).length ≤ width - k := by
    refine ( takeWhile_prefix _).length_le.trans ?_
    rw [length_drop, length_take]
    omega
  have hdigits (k : ℕ) : ∀ c ∈ ((text.take width).drop k).takeWhile isHexDigit, isHexDigit c = true :=
    fun c hc => mem_takeWhile_imp hc
  have hjoin (k : ℕ) : text.drop k = ((text.take width).drop k).takeWhile isHexDigit ++
      text.drop (k + (((text.take width).drop k).takeWhile isHexDigit).length) := by
    conv_lhs => rw [← take_append_drop (((text.take width).drop k).takeWhile isHexDigit).length (text.drop k)]
    rw [hsplit, drop_drop]
  have hhead : (text.take width).head? = text.head? := by
    match text, width, hwidth with
    | [], _ + 2, _ | _ :: _, _ + 2, _ => rfl
  have hsecond : (text.take width).tail.head? = text.tail.head? := by
    match text, width, hwidth with
    | [], _ + 2, _ | [_], _ + 2, _ | _ :: _ :: _, _ + 2, _ => rfl
  split_ifs at h with hpre hnil hnil
  · obtain ⟨-, rfl⟩ := Prod.mk.inj (some.inj h)
    rw [hhead, hsecond] at hpre
    have hfirst : text = ch '0' :: text.tail := (cons_head?_tail hpre.1).symm
    have hpair : text.take 2 = [ch '0', ch 'x'] ∨ text.take 2 = [ch '0', ch 'X'] := by
      rw [hfirst]
      refine hpre.2.imp (fun hx => ?_) fun hx => ?_
      · rw [take_succ_cons, take_one, hx, Option.toList_some]
      · rw [take_succ_cons, take_one, hx, Option.toList_some]
    refine ⟨text.take 2, _, ?_, .inr hpair, hnil, hdigits 2, ?_, fun hempty => ?_⟩
    · rw [← hjoin, take_append_drop]
    · have := hlength 2
      have := length_take_le 2 text
      omega
    · rcases hpair with hpair | hpair <;> rw [hempty] at hpair <;> cases hpair
  · obtain ⟨-, rfl⟩ := Prod.mk.inj (some.inj h)
    refine ⟨[], _, (hjoin 0), .inl rfl, hnil, hdigits 0, by simpa using hlength 0, fun _ hzero => ?_⟩
    have hfirst : (text.take width).head? = some (ch '0') := by
      have hmem := congrArg head? hzero
      rw [drop_zero] at hmem
      cases hw : text.take width with
      | nil => rw [hw] at hmem; cases hmem
      | cons c cs =>
        rw [hw, takeWhile_cons] at hmem
        split_ifs at hmem
        · exact hmem
        · cases hmem
    have hrest : (text.drop (0 + 1)).head? = text.tail.head? := by rw [Nat.zero_add, drop_one]
    rw [hzero, length_singleton, hrest, ← hsecond]
    exact not_or.mp fun hx => hpre ⟨hfirst, hx⟩

/-- The digits that are taken from a text that begins with digits. -/
theorem takeWhile_take_digits {n : ℕ} {digits : List Byte} (hdigits : ∀ c ∈ digits, isHexDigit c = true)
    (hfit : digits.length ≤ n) (rest : List Byte) : ((digits ++ rest).take n).takeWhile isHexDigit =
      digits ++ (rest.take (n - digits.length)).takeWhile isHexDigit := by
  rw [take_append, take_of_length_le hfit, takeWhile_append_of_pos hdigits]

theorem scanDigits_isSome {width : ℕ} {pre digits rest : List Byte}
    (hpre : pre = [] ∨ pre = [ch '0', ch 'x'] ∨ pre = [ch '0', ch 'X']) (hne : digits ≠ [])
    (hdigits : ∀ c ∈ digits, isHexDigit c = true) (hfit : pre.length + digits.length ≤ width)
    (hzero : pre = [] → digits = [ch '0'] → rest.head? ≠ some (ch 'x') ∧ rest.head? ≠ some (ch 'X')) :
    ∃ v rest', scanDigits width (pre ++ (digits ++ rest)) = some (v, rest') ∧
      (rest.head?.any isHexDigit = false → rest' = rest) := by
  set text := pre ++ (digits ++ rest) with htext
  have hskip : (if (text.take width).head? = some (ch '0') ∧ ((text.take width).tail.head? = some (ch 'x') ∨
      (text.take width).tail.head? = some (ch 'X')) then 2 else 0) = pre.length := by
    obtain ⟨d, ds, rfl⟩ := exists_cons_of_ne_nil hne
    rcases hpre with rfl | rfl | rfl
    · obtain ⟨n, rfl⟩ : ∃ n, width = n + 1 := ⟨width - 1, by simp only [length_cons] at hfit; omega⟩
      refine if_neg fun ⟨hd, hx⟩ => ?_
      have hd' : d = ch '0' := by simpa [htext] using hd
      have hsecond : (ds ++ rest).head? = some (ch 'x') ∨ (ds ++ rest).head? = some (ch 'X') := by
        have htail : (text.take (n + 1)).tail = (ds ++ rest).take n := rfl
        rw [htail, head?_take] at hx
        split_ifs at hx
        · simp at hx
        · exact hx
      cases ds with
      | nil =>
        obtain ⟨hx', hX⟩ := hzero rfl (by rw [hd'])
        exact hsecond.elim hx' hX
      | cons c ds =>
        have hc := hexDigit_spec c (hdigits c (by simp))
        exact hsecond.elim (fun h => hc.2.2.2.1 (some.inj h)) fun h => hc.2.2.2.2.1 (some.inj h)
    · obtain ⟨n, rfl⟩ : ∃ n, width = n + 2 := ⟨width - 2, by simp only [length_cons, length_nil] at hfit; omega⟩
      exact if_pos ⟨rfl, .inl rfl⟩
    · obtain ⟨n, rfl⟩ : ∃ n, width = n + 2 := ⟨width - 2, by simp only [length_cons, length_nil] at hfit; omega⟩
      exact if_pos ⟨rfl, .inr rfl⟩
  have hwindow : ((text.take width).drop pre.length).takeWhile isHexDigit =
      digits ++ (rest.take (width - pre.length - digits.length)).takeWhile isHexDigit := by
    rw [drop_take, htext, drop_left, takeWhile_take_digits hdigits (by omega)]
  unfold scanDigits
  dsimp only
  rw [hskip, hwindow, if_neg (append_ne_nil_of_left_ne_nil hne _)]
  refine ⟨_, _, rfl, fun hstop => ?_⟩
  have hnone : (rest.take (width - pre.length - digits.length)).takeWhile isHexDigit = [] := by
    cases width - pre.length - digits.length with
    | zero => rfl
    | succ k =>
      cases rest with
      | nil => rfl
      | cons c cs => rw [take_succ_cons, takeWhile_cons_of_neg (by simpa using hstop)]
  rw [hnone, append_nil, ← length_append, htext, ← append_assoc, drop_left]

/-- What a conversion takes. -/
theorem scanned_of_scanHex {width : ℕ} {text rest : List Byte} {v : Word} (hwidth : 3 ≤ width)
    (h : scanHex width text = some (v, rest)) : Scanned width text rest := by
  unfold scanHex at h
  obtain ⟨⟨x, rest'⟩, hscan, hrest⟩ := map_eq_some_iff.mp h
  obtain rfl : rest' = rest := congrArg Prod.snd hrest
  have hsign : ∃ sign, text.dropWhile isSpace = sign ++ (readSign (text.dropWhile isSpace)).2 ∧
      (sign = [] ∨ sign = [ch '+'] ∨ sign = [ch '-']) := by
    rcases Json.readSign_spec (text.dropWhile isSpace) with h | h | h
    · exact ⟨[], h.1, .inl rfl⟩
    · exact ⟨_, h.1, .inr (.inl rfl)⟩
    · exact ⟨_, h.1, .inr (.inr rfl)⟩
  obtain ⟨sign, hsplit, hsign⟩ := hsign
  have hlength : sign.length ≤ 1 := by rcases hsign with rfl | rfl | rfl <;> simp
  have hshort : (text.dropWhile isSpace).length - (readSign (text.dropWhile isSpace)).2.length = sign.length := by
    have := congrArg length hsplit
    rw [length_append] at this
    omega
  rw [hshort] at hscan
  obtain ⟨pre, digits, htext, hpre, hne, hdigits, hfit, hzero⟩ := scanDigits_eq_some (by omega) hscan
  refine ⟨text.takeWhile isSpace, sign, pre, digits, ?_, fun c hc => mem_takeWhile_imp hc, hsign, hpre, hne, hdigits,
    by omega, hzero⟩
  rw [← htext, ← hsplit, takeWhile_append_dropWhile]

/-- The conversion takes no less. -/
theorem scanHex_of_scanned {width : ℕ} {text rest : List Byte} (h : Scanned width text rest) :
    ∃ v rest', scanHex width text = some (v, rest') ∧ (rest.head?.any isHexDigit = false → rest' = rest) := by
  obtain ⟨blanks, sign, pre, digits, rfl, hblanks, hsign, hpre, hne, hdigits, hfit, hzero⟩ := h
  obtain ⟨x, rest', hscan, hrest⟩ :=
    scanDigits_isSome hpre hne hdigits (show pre.length + digits.length ≤ width - sign.length by omega) hzero
  -- the first character behind the blanks is neither a blank nor another sign
  have hfirst : ∃ c t, pre ++ (digits ++ rest) = c :: t ∧ isHexDigit c = true := by
    obtain ⟨d, ds, rfl⟩ := exists_cons_of_ne_nil hne
    rcases hpre with rfl | rfl | rfl
    · exact ⟨d, _, rfl, hdigits d mem_cons_self⟩
    · exact ⟨_, _, rfl, by decide⟩
    · exact ⟨_, _, rfl, by decide⟩
  obtain ⟨c, t, hct, hc⟩ := hfirst
  obtain ⟨hspace, hminus, hplus, -⟩ := hexDigit_spec c hc
  have hdrop : (blanks ++ (sign ++ (pre ++ (digits ++ rest)))).dropWhile isSpace =
      sign ++ (pre ++ (digits ++ rest)) := by
    rw [dropWhile_append_of_pos hblanks, hct]
    rcases hsign with rfl | rfl | rfl
    · simp [hspace]
    · rfl
    · rfl
  have hread : (readSign (sign ++ (pre ++ (digits ++ rest)))).2 = pre ++ (digits ++ rest) := by
    refine readSign_append_sign hsign ?_
    rw [hct]
    exact ⟨fun h => hplus (some.inj h), fun h => hminus (some.inj h)⟩
  have hshort : (sign ++ (pre ++ (digits ++ rest))).length - (pre ++ (digits ++ rest)).length = sign.length := by
    rw [length_append]
    omega
  have hhex : ∃ v, scanHex width (blanks ++ (sign ++ (pre ++ (digits ++ rest)))) = some (v, rest') := by
    rw [scanHex, hdrop, hread, hshort, hscan]
    exact ⟨_, rfl⟩
  obtain ⟨v, hv⟩ := hhex
  exact ⟨v, rest', hv, hrest⟩

/-- Five numbers, with dashes between them and anything behind the last one. -/
def Loose (s : List Byte) : Prop :=
  ∃ t₁ t₂ t₃ t₄ rest, Scanned 8 s (ch '-' :: t₁) ∧ Scanned 4 t₁ (ch '-' :: t₂) ∧ Scanned 4 t₂ (ch '-' :: t₃) ∧
    Scanned 4 t₃ (ch '-' :: t₄) ∧ Scanned 12 t₄ rest

theorem scanField_eq_some {width : ℕ} {text rest : List Byte} (hwidth : 3 ≤ width) :
    scanField width text = some rest ↔ Scanned width text (ch '-' :: rest) := by
  constructor
  · intro h
    obtain ⟨⟨v, u⟩, hscan, h⟩ := bind_eq_some_iff.mp h
    split_ifs at h with hdash
    have hu : u = ch '-' :: rest := by
      rw [← some.inj h]
      exact (cons_head?_tail hdash).symm
    exact scanned_of_scanHex hwidth (hu ▸ hscan)
  · intro h
    obtain ⟨v, rest', hscan, hrest⟩ := scanHex_of_scanned h
    rw [scanField, hscan, hrest rfl]
    rfl

/-- **What `vic_uuid_valid` accepts.** -/
theorem vicUuidValid_iff (s : List Byte) : vicUuidValid s = true ↔ s.length = 36 ∧ Loose s := by
  rw [vicUuidValid, Bool.and_eq_true, decide_eq_true_eq, scansUuid]
  refine and_congr_right fun _ => ?_
  simp only [isSome_iff_exists, bind_eq_some_iff, scanField_eq_some (show 3 ≤ 8 by decide),
    scanField_eq_some (show 3 ≤ 4 by decide)]
  constructor
  · rintro ⟨⟨v, rest⟩, t₄, ⟨t₃, ⟨t₂, ⟨t₁, h₁, h₂⟩, h₃⟩, h₄⟩, h₅⟩
    exact ⟨t₁, t₂, t₃, t₄, rest, h₁, h₂, h₃, h₄, scanned_of_scanHex (by decide) h₅⟩
  · rintro ⟨t₁, t₂, t₃, t₄, rest, h₁, h₂, h₃, h₄, h₅⟩
    obtain ⟨v, rest', hscan, -⟩ := scanHex_of_scanned h₅
    exact ⟨_, t₄, ⟨t₃, ⟨t₂, ⟨t₁, h₁, h₂⟩, h₃⟩, h₄⟩, hscan⟩

theorem Canonical.valid {s : List Byte} (h : Canonical s) : vicUuidValid s = true := by
  obtain ⟨g₁, g₂, g₃, g₄, g₅, rfl, h₁, h₂, h₃, h₄, h₅⟩ := h
  have hlast := scanHex_digits (by decide) h₅ []
  rw [append_nil] at hlast
  rw [vicUuidValid, scansUuid, scanField_digits (by decide) h₁, bind_some, scanField_digits (by decide) h₂,
    bind_some, scanField_digits (by decide) h₃, bind_some, scanField_digits (by decide) h₄,
    bind_some, hlast]
  simp [h₁.1, h₂.1, h₃.1, h₄.1, h₅.1]

def Converted.append (bytes : List Byte) (r : Converted) : Converted := bytes.foldr Converted.cons r

theorem str2binLoop_pair {a b : Byte} (ha : isHexDigit a = true) (hb : isHexDigit b = true) (rest : List Byte) :
    str2binLoop 0 (a :: b :: rest) = (str2binLoop 0 rest).cons (BitVec.ofNat 8 (hexValue a * 16 + hexValue b)) ∧
      str2binLoop 0 (ch '-' :: a :: b :: rest) = str2binLoop 0 (a :: b :: rest) := by
  have hscan := scanHex_digits (n := 2) (g := [a, b]) (by decide) ⟨rfl, by simp [ha, hb]⟩ rest
  have hvalue : (BitVec.ofNat 64 (hexValue a * 16 + hexValue b)).setWidth 8 =
      BitVec.ofNat 8 (hexValue a * 16 + hexValue b) := by
    apply BitVec.eq_of_toNat_eq
    simp only [BitVec.toNat_setWidth, BitVec.toNat_ofNat]
    omega
  have hne := (hexDigit_spec a ha).2.1
  simp only [cons_append, nil_append, foldl_cons, foldl_nil, Nat.zero_mul, Nat.zero_add]
    at hscan
  simp only [str2binLoop, if_neg hne, if_true, hscan, hvalue, and_self]

theorem str2binLoop_group {k : ℕ} (hg : IsHex (2 * k) g) (rest : List Byte) :
    str2binLoop 0 (g ++ rest) = (str2binLoop 0 rest).append (hexBytes g) ∧
      (0 < k → str2binLoop 0 (ch '-' :: (g ++ rest)) = str2binLoop 0 (g ++ rest)) ∧ (hexBytes g).length = k ∧
      (hexBytes g).flatMap hex2 = g.map lower := by
  obtain ⟨hlen, hdigits⟩ := hg
  induction k generalizing g with
  | zero =>
    obtain rfl := eq_nil_of_length_eq_zero hlen
    exact ⟨rfl, nofun, rfl, rfl⟩
  | succ k ih =>
    obtain ⟨a, b, g, rfl⟩ : ∃ a b g', g = a :: b :: g' := by
      match g, hlen with
      | a :: b :: g', _ => exact ⟨a, b, g', rfl⟩
    obtain ⟨ha, hb, hdigits⟩ : isHexDigit a = true ∧ isHexDigit b = true ∧ ∀ c ∈ g, isHexDigit c = true := by
      simpa using hdigits
    obtain ⟨hpair, hdash⟩ := str2binLoop_pair ha hb (g ++ rest)
    obtain ⟨hrest, -, hlen', hlower⟩ := ih (by simp only [length_cons] at hlen; omega) hdigits
    have hnibbles : ∀ x < 16, ∀ y < 16, hex2 (BitVec.ofNat 8 (x * 16 + y)) =
        [if x < 10 then 0x30 + BitVec.ofNat 8 x else 0x57 + BitVec.ofNat 8 x,
          if y < 10 then 0x30 + BitVec.ofNat 8 y else 0x57 + BitVec.ofNat 8 y] := by decide +kernel
    have ha' := (hexDigit_spec a ha).2.2.2.2.2
    have hb' := (hexDigit_spec b hb).2.2.2.2.2
    refine ⟨?_, fun _ => hdash, by simp [hexBytes, hlen'], ?_⟩
    · rw [cons_append, cons_append, hpair, hrest]; rfl
    · rw [hexBytes, flatMap_cons, hnibbles _ ha'.1 _ hb'.1, ha'.2, hb'.2, hlower]; rfl

theorem Converted.append_ok (bs cs : List Byte) : (Converted.ok cs).append bs = .ok (bs ++ cs) := by
  induction bs with
  | nil => rfl
  | cons b bs ih => rw [Converted.append, foldr_cons, show bs.foldr Converted.cons (.ok cs) = _ from ih]; rfl

section Groups

variable {g₁ g₂ g₃ g₄ g₅ : List Byte} (h₁ : IsHex 8 g₁) (h₂ : IsHex 4 g₂) (h₃ : IsHex 4 g₃) (h₄ : IsHex 4 g₄)
  (h₅ : IsHex 12 g₅)
include h₁ h₂ h₃ h₄ h₅

theorem str2bin_groups : vicUuidStr2bin (g₁ ++ ch '-' :: (g₂ ++ ch '-' :: (g₃ ++ ch '-' :: (g₄ ++ ch '-' :: g₅)))) =
    .ok (hexBytes g₁ ++ (hexBytes g₂ ++ (hexBytes g₃ ++ (hexBytes g₄ ++ hexBytes g₅)))) := by
  have hvalid := Canonical.valid ⟨g₁, g₂, g₃, g₄, g₅, rfl, h₁, h₂, h₃, h₄, h₅⟩
  obtain ⟨e₁, -⟩ := str2binLoop_group (k := 4) h₁ (ch '-' :: (g₂ ++ ch '-' :: (g₃ ++ ch '-' :: (g₄ ++ ch '-' :: g₅))))
  obtain ⟨e₂, d₂, -⟩ := str2binLoop_group (k := 2) h₂ (ch '-' :: (g₃ ++ ch '-' :: (g₄ ++ ch '-' :: g₅)))
  obtain ⟨e₃, d₃, -⟩ := str2binLoop_group (k := 2) h₃ (ch '-' :: (g₄ ++ ch '-' :: g₅))
  obtain ⟨e₄, d₄, -⟩ := str2binLoop_group (k := 2) h₄ (ch '-' :: g₅)
  obtain ⟨e₅, d₅, -⟩ := str2binLoop_group (k := 6) h₅ []
  rw [append_nil] at e₅ d₅
  rw [vicUuidStr2bin, if_pos hvalid, e₁, d₂ (by decide), e₂, d₃ (by decide), e₃, d₄ (by decide), e₄, d₅ (by decide), e₅,
    str2binLoop]
  simp only [Converted.append_ok, append_nil]

theorem bin2str_groups (b : List.Vector Byte 16)
    (hb : b.toList = hexBytes g₁ ++ (hexBytes g₂ ++ (hexBytes g₃ ++ (hexBytes g₄ ++ hexBytes g₅)))) :
    vicUuidBin2str b = (g₁ ++ ch '-' :: (g₂ ++ ch '-' :: (g₃ ++ ch '-' :: (g₄ ++ ch '-' :: g₅)))).map lower := by
  obtain ⟨-, -, l₁, w₁⟩ := str2binLoop_group (k := 4) h₁ []
  obtain ⟨-, -, l₂, w₂⟩ := str2binLoop_group (k := 2) h₂ []
  obtain ⟨-, -, l₃, w₃⟩ := str2binLoop_group (k := 2) h₃ []
  obtain ⟨-, -, l₄, w₄⟩ := str2binLoop_group (k := 2) h₄ []
  obtain ⟨-, -, l₅, w₅⟩ := str2binLoop_group (k := 6) h₅ []
  have hdash : lower (ch '-') = ch '-' := by decide
  simp only [map_append, map_cons, hdash, ← w₁, ← w₂, ← w₃, ← w₄, ← w₅]
  rw [vicUuidBin2str, hb]
  simp [drop_append, l₁, l₂, l₃, l₄, l₅, take_of_length_le, drop_of_length_le]

end Groups

theorem isHex_flatMap_hex2 (bs : List Byte) :
    IsHex (2 * bs.length) (bs.flatMap hex2) ∧ hexBytes (bs.flatMap hex2) = bs := by
  have hbyte : ∀ c : Byte, (hex2 c).length = 2 ∧ (∀ d ∈ hex2 c, isHexDigit d = true) ∧
      ∀ t, hexBytes (hex2 c ++ t) = c :: hexBytes t := by
    have h : ∀ c : Byte, (hex2 c).all isHexDigit = true ∧ hexBytes (hex2 c) = [c] := by decide +kernel
    exact fun c => ⟨rfl, all_eq_true.mp (h c).1, fun t => congrArg (· ++ hexBytes t) (h c).2⟩
  induction bs with
  | nil => exact ⟨⟨rfl, nofun⟩, rfl⟩
  | cons c bs ih =>
    obtain ⟨⟨hlen, hdigits⟩, hbytes⟩ := ih
    obtain ⟨hc, hd, ht⟩ := hbyte c
    rw [flatMap_cons]
    refine ⟨⟨?_, fun d hmem => ?_⟩, by rw [ht, hbytes]⟩
    · rw [length_append, hc, hlen, length_cons]; omega
    · exact (mem_append.mp hmem).elim (hd d) (hdigits d)

theorem str2bin_bin2str (b : List.Vector Byte 16) : vicUuidStr2bin (vicUuidBin2str b) = .ok b.toList := by
  have hlen : b.toList.length = 16 := b.toList_length
  have hgroup (i n : ℕ) (h : i + n ≤ 16) : IsHex (2 * n) (((b.toList.drop i).take n).flatMap hex2) ∧
      hexBytes (((b.toList.drop i).take n).flatMap hex2) = (b.toList.drop i).take n := by
    have := isHex_flatMap_hex2 ((b.toList.drop i).take n)
    rwa [length_take, length_drop, hlen, Nat.min_eq_left (by omega)] at this
  rw [vicUuidBin2str, str2bin_groups (hgroup 0 4 (by decide)).1 (hgroup 4 2 (by decide)).1 (hgroup 6 2 (by decide)).1
    (hgroup 8 2 (by decide)).1 (hgroup 10 6 (by decide)).1]
  rw [(hgroup 0 4 (by decide)).2, (hgroup 4 2 (by decide)).2, (hgroup 6 2 (by decide)).2, (hgroup 8 2 (by decide)).2,
    (hgroup 10 6 (by decide)).2]
  obtain ⟨b, hb⟩ := b
  match b, hb with
  | [_, _, _, _, _, _, _, _, _, _, _, _, _, _, _, _], _ => rfl

/-- **The two forms of a UUID.** The text of 16 bytes is converted back to them. That a string is accepted exactly if it
is canonical, and is converted to 16 bytes with the string in lower case as text, holds for every string but those that
are loose without being canonical. -/
theorem uuid_iff (s : List Byte) : (∀ b, vicUuidStr2bin (vicUuidBin2str b) = .ok b.toList) ∧
      (((vicUuidValid s = true ↔ Canonical s) ∧ (vicUuidValid s = true →
        ∃ b : List.Vector Byte 16, vicUuidStr2bin s = .ok b.toList ∧ vicUuidBin2str b = s.map lower)) ↔
        (s.length = 36 → Loose s → Canonical s)) := by
  rw [← and_imp, ← vicUuidValid_iff]
  refine ⟨str2bin_bin2str, fun h => h.1.mp, fun h => ⟨⟨h, Canonical.valid⟩, fun hvalid => ?_⟩⟩
  obtain ⟨g₁, g₂, g₃, g₄, g₅, rfl, h₁, h₂, h₃, h₄, h₅⟩ := h hvalid
  have hlen : (hexBytes g₁ ++ (hexBytes g₂ ++ (hexBytes g₃ ++ (hexBytes g₄ ++ hexBytes g₅)))).length = 16 := by
    simp only [length_append, (str2binLoop_group (k := 4) h₁ []).2.2.1, (str2binLoop_group (k := 2) h₂ []).2.2.1,
      (str2binLoop_group (k := 2) h₃ []).2.2.1, (str2binLoop_group (k := 2) h₄ []).2.2.1,
      (str2binLoop_group (k := 6) h₅ []).2.2.1]
  exact ⟨⟨_, hlen⟩, str2bin_groups h₁ h₂ h₃ h₄ h₅, bin2str_groups h₁ h₂ h₃ h₄ h₅ _ rfl⟩

/-- `1-1-1-1-1` and 27 letters: accepted, and 18 bytes are written to the 16 of a UUID. -/
theorem short_fields_accepted : let s := "1-1-1-1-1".toList.map ch ++ List.replicate 27 (ch 'f')
    vicUuidValid s = true ∧ ¬ Canonical s ∧ ∃ bytes, vicUuidStr2bin s = .ok bytes ∧ bytes.length = 18 := by
  refine ⟨by decide, ?_, _, rfl, rfl⟩
  rintro ⟨g₁, g₂, g₃, g₄, g₅, hs, ⟨hlen, hdigits⟩, -⟩
  have hmem : ch '-' ∈ g₁ := by
    rw [← take_left' hlen, ← hs]
    decide
  exact absurd (hdigits _ hmem) (by decide)

end SgxLkl.Luks.Uuid
