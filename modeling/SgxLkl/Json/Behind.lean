import SgxLkl.Json.Leaves
import SgxLkl.Lib.Programs

/-!
# The memory behind the text

`_get_number` gives `_strtol` and `_strtod` a pointer into the text, but not its end. They read on until a
character stops them.

* **`jsonParse_behind`**: the result and the callbacks do not depend on the memory behind a closed text.
-/

namespace SgxLkl.Json

open List

variable {σ α β : Type}

/-! ## Numbers -/

/-- Neither part of a number nor passed over in front of one. -/
def isStop (c : Byte) : Bool := !isNumberChar c && !isSpace c

def hasStop (t : List Byte) : Bool := t.any isStop

/-- Behind every character of a number there is one that stops. -/
def closed : List Byte → Bool
  | [] => true
  | c :: cs => (!isNumberChar c || hasStop cs) && closed cs

variable {c : Byte} {t : List Byte}

theorem isStop_eq_false (h : isNumberChar c = true ∨ isSpace c = true) : isStop c = false := by
  rw [isStop]
  rcases h with h | h <;> simp [h]

theorem hasStop_tail {cs : List Byte} (h : hasStop (c :: cs) = true) (hc : isStop c = false) :
    hasStop cs = true := by
  rw [hasStop, any_cons, hc, Bool.false_or] at h
  exact h

theorem hasStop_ne_nil (h : hasStop t = true) : ∃ c cs, t = c :: cs := by
  cases t with
  | nil => cases h
  | cons c cs => exact ⟨c, cs, rfl⟩

theorem isNumberChar_of_isDigit (h : isDigit c = true) : isNumberChar c = true := by
  simp [isNumberChar, h]

theorem dropWhile_isSpace_append (h : hasStop t = true) (b : List Byte) :
    (t ++ b).dropWhile isSpace = t.dropWhile isSpace ++ b ∧ hasStop (t.dropWhile isSpace) = true := by
  induction t with
  | nil => cases h
  | cons c cs ih =>
    rw [cons_append, dropWhile_cons, dropWhile_cons]
    split_ifs with hc
    · exact ih (hasStop_tail h (isStop_eq_false (.inr hc)))
    · exact ⟨rfl, h⟩

theorem strtolDigits_append (h : hasStop t = true) (b : List Byte) (x : ℕ) : strtolDigits x (t ++ b) =
        ((strtolDigits x t).1, (strtolDigits x t).2.1, (strtolDigits x t).2.2 ++ b) ∧
      hasStop (strtolDigits x t).2.2 = true := by
  induction t generalizing x with
  | nil => cases h
  | cons c cs ih =>
    rw [cons_append, strtolDigits, strtolDigits]
    split_ifs with hc
    · exact ⟨rfl, h⟩
    · exact ⟨rfl, h⟩
    · exact ih (hasStop_tail h (isStop_eq_false (.inl (isNumberChar_of_isDigit hc)))) _
    · exact ⟨rfl, h⟩

theorem readSign_append (h : hasStop t = true) (b : List Byte) :
    readSign (t ++ b) = ((readSign t).1, (readSign t).2 ++ b) ∧ hasStop (readSign t).2 = true := by
  obtain ⟨c, cs, rfl⟩ := hasStop_ne_nil h
  rw [cons_append, readSign, readSign]
  split_ifs with hp hm
  · exact ⟨rfl, hasStop_tail h (hp ▸ by decide)⟩
  · exact ⟨rfl, hasStop_tail h (hm ▸ by decide)⟩
  · exact ⟨rfl, h⟩

theorem head?_append_of_hasStop (h : hasStop t = true) (b : List Byte) : (t ++ b).head? = t.head? := by
  obtain ⟨c, cs, rfl⟩ := hasStop_ne_nil h
  rfl

theorem strtol_append (allowWhitespace : Bool) (h : hasStop t = true) (b : List Byte) :
    strtol allowWhitespace (t ++ b) = ((strtol allowWhitespace t).1, (strtol allowWhitespace t).2 ++ b) ∧
      hasStop (strtol allowWhitespace t).2 = true := by
  obtain ⟨hdrop, hdrop'⟩ := dropWhile_isSpace_append h b
  obtain ⟨hsign, hsign'⟩ := readSign_append hdrop' b
  obtain ⟨hdigits, hdigits'⟩ := strtolDigits_append hsign' b 0
  rw [strtol, strtol, head?_append_of_hasStop h, hdrop, hsign]
  dsimp only
  rw [hdigits]
  split_ifs with hspace
  · exact ⟨rfl, h⟩
  · generalize strtolDigits 0 (readSign (t.dropWhile isSpace)).2 = r at hdigits' ⊢
    obtain ⟨large, x, rest⟩ := r
    cases large with
    | true => exact ⟨rfl, hdigits'⟩
    | false =>
      simp only [length_append, Nat.add_right_cancel_iff]
      split_ifs with hlen
      · exact ⟨rfl, h⟩
      · exact ⟨rfl, hdigits'⟩

theorem strtodExp_append (allowWhitespace : Bool) {p : List Byte} (h : hasStop p = true) (endptr b : List Byte) :
    strtodExp allowWhitespace (p ++ b) (endptr ++ b) =
      ((strtodExp allowWhitespace p endptr).1, (strtodExp allowWhitespace p endptr).2.1,
        (strtodExp allowWhitespace p endptr).2.2 ++ b) := by
  obtain ⟨c, cs, rfl⟩ := hasStop_ne_nil h
  rw [cons_append, strtodExp, strtodExp]
  by_cases hexp : c = ch 'e' ∨ c = ch 'E'
  · have hcs : hasStop cs = true := by
      refine hasStop_tail h ?_
      rcases hexp with rfl | rfl <;> decide
    rw [if_pos hexp, if_pos hexp, head?_append_of_hasStop hcs]
    by_cases hsign : cs.head? = some (ch '-') ∨ cs.head? = some (ch '+')
    · have htail : hasStop cs.tail = true := by
        obtain ⟨d, ds, rfl⟩ := hasStop_ne_nil hcs
        refine hasStop_tail hcs ?_
        rcases hsign with hd | hd <;> cases hd <;> decide
      have happend : (cs ++ b).tail = cs.tail ++ b := by
        obtain ⟨d, ds, rfl⟩ := hasStop_ne_nil hcs
        rfl
      simp only [hsign, if_true, happend, (strtol_append allowWhitespace htail b).1,
        length_append, Nat.add_right_cancel_iff]
      split_ifs <;> rfl
    · simp only [hsign, if_false, (strtol_append allowWhitespace hcs b).1, length_append, Nat.add_right_cancel_iff]
      split_ifs <;> rfl
  · rw [if_neg hexp, if_neg hexp]

theorem strtod_append (allowWhitespace : Bool) (h : hasStop t = true) (b : List Byte) :
    strtod allowWhitespace (t ++ b) = ((strtod allowWhitespace t).1, (strtod allowWhitespace t).2 ++ b) := by
  obtain ⟨hdrop, hdrop'⟩ := dropWhile_isSpace_append h b
  obtain ⟨hsign, hsign'⟩ := readSign_append hdrop' b
  obtain ⟨hwhole, hwhole'⟩ := strtol_append allowWhitespace hsign' b
  rw [strtod, strtod, head?_append_of_hasStop h, hdrop, hsign]
  dsimp only
  rw [hwhole]
  by_cases hspace : allowWhitespace = false ∧ t.head?.any isSpace = true
  · rw [if_pos hspace, if_pos hspace]
  · rw [if_neg hspace, if_neg hspace]
    generalize readSign (t.dropWhile isSpace) = p at hwhole' ⊢
    generalize strtol allowWhitespace p.2 = x at hwhole' ⊢
    obtain ⟨x, rest⟩ := x
    obtain ⟨c, cs, rfl⟩ := hasStop_ne_nil hwhole'
    have hstop : hasStop (c :: cs) = true := hwhole'
    simp only [cons_append, length_append, length_cons, Nat.add_right_comm _ b.length 1]
    by_cases hdot : c = ch '.'
    · have hcs : hasStop cs = true := hasStop_tail hstop (hdot ▸ by decide)
      obtain ⟨hfrac, hfrac'⟩ := strtol_append allowWhitespace hcs b
      rw [if_pos hdot, if_pos hdot, hfrac]
      dsimp only
      simp only [length_append, ne_eq, Nat.add_right_cancel_iff, Nat.add_sub_add_right]
      rw [strtodExp_append allowWhitespace hfrac', strtodExp_append allowWhitespace hcs]
      split_ifs <;> rfl
    · rw [if_neg hdot, if_neg hdot]
      have hexp := strtodExp_append allowWhitespace hstop
      simp only [ne_eq, decide_not, Bool.not_eq_true', decide_eq_false_iff_not, Nat.add_right_cancel_iff,
        ← cons_append]
      split_ifs <;> simp only [hexp]

theorem getNumber_behind (allowWhitespace : Bool) {s : Parser σ} (h : hasStop s.rest = true)
    (b : List Byte) : getNumber allowWhitespace b s = getNumber allowWhitespace [] s := by
  rw [getNumber, getNumber, (strtol_append allowWhitespace h b).1, strtod_append allowWhitespace h b]
  simp only [length_append, append_nil, ne_eq, Nat.add_right_cancel_iff]

/-! ## The steps of the parser -/

theorem closed_of_suffix {r : List Byte} (h : t <:+ r) (hr : closed r = true) : closed t = true := by
  obtain ⟨u, rfl⟩ := h
  induction u with
  | nil => exact hr
  | cons c u ih =>
    rw [cons_append, closed, Bool.and_eq_true] at hr
    exact ih hr.2

/-- The text that is left after the program is a part of the one before. -/
def Shrinks (x : ParseM σ α) : Prop := ∀ s a s', x s = .ok a s' → s'.rest <:+ s.rest

variable {x : ParseM σ α}

theorem shrinks_bind {f : α → ParseM σ β} (hx : Shrinks x) (hf : ∀ a, Shrinks (f a)) : Shrinks (x >>= f) := by
  intro s b s' h
  obtain ⟨a, t, hxa, hfa⟩ := bind_eq_ok_iff.mp h
  exact (hf a t b s' hfa).trans (hx s a t hxa)

theorem shrinks_skipWhitespace (allowWhitespace : Bool) :
    Shrinks (skipWhitespace allowWhitespace : ParseM σ Unit) := by
  intro s a s' h
  unfold skipWhitespace at h
  split_ifs at h
  · cases h
    exact dropWhile_suffix _
  · cases h
    exact suffix_refl _

theorem shrinks_next : Shrinks (next : ParseM σ Byte) := by
  intro s a s' h
  unfold next at h
  split at h
  · cases h
  · next c cs hrest =>
    cases h
    rw [hrest]
    exact suffix_cons _ _

theorem shrinks_expect (str : List Byte) : Shrinks (expect str : ParseM σ Unit) := by
  intro s a s' h
  unfold expect at h
  split_ifs at h
  cases h
  exact drop_suffix _ _

theorem shrinks_invoke (callback : Callback σ) (scan : Bool) (reason : Reason) (v : Value) :
    Shrinks (invoke callback scan reason v) := by
  intro s a s' h
  unfold invoke at h
  split_ifs at h
  · cases h
    exact suffix_refl _
  · split at h
    · cases h
      exact suffix_refl _
    · cases h

theorem closingQuote_suffix {k : ℕ} {raw rest : List Byte} (h : closingQuote k t = some (raw, rest)) :
    t = raw ++ quote :: rest := by
  induction t generalizing k raw with
  | nil => cases k <;> cases h
  | cons c cs ih =>
    have hstep : ∀ {j}, ((closingQuote j cs).map fun r => (c :: r.1, r.2)) = some (raw, rest) →
        c :: cs = raw ++ quote :: rest := by
      intro j hj
      obtain ⟨⟨raw', rest'⟩, hcs, hr⟩ := Option.map_eq_some_iff.mp hj
      cases hr
      rw [ih hcs]
      rfl
    cases k with
    | succ k => exact hstep h
    | zero =>
      rw [closingQuote] at h
      split_ifs at h with hq hb hu hlen
      · cases h
        rw [hq]
        rfl
      · exact hstep h
      · exact hstep h
      · exact hstep h

theorem shrinks_getString (scan : Bool) : Shrinks (getString scan : ParseM σ (CString Byte)) := by
  intro s a s' h
  unfold getString at h
  split at h
  · cases h
  · next raw rest hclose =>
    have hsuffix : rest <:+ s.rest := by
      rw [closingQuote_suffix hclose]
      exact (suffix_cons _ _).trans (suffix_append _ _)
    split_ifs at h
    · cases h
      exact hsuffix
    · split at h
      · cases h
        exact hsuffix
      · cases h

/-! ## Two memories -/

def Parser.Closed (s : Parser σ) : Prop := closed s.rest = true

theorem Shrinks.alike (h : Shrinks x) : Alike Parser.Closed x x fun _ => Parser.Closed :=
  Alike.refl fun s a s' hs hx => closed_of_suffix (h s a s' hx) hs

theorem alike_getNumber (allowWhitespace : Bool) (b b' : List Byte) :
    Alike (fun s : Parser σ => s.Closed ∧ s.rest.head?.any isSpace = false ∧ s.rest ≠ [])
      (getNumber allowWhitespace b) (getNumber allowWhitespace b') fun _ => Parser.Closed := by
  rintro s ⟨hclosed, hspace, hne⟩
  obtain ⟨c, cs, hrest⟩ := exists_cons_of_ne_nil hne
  have hstop : hasStop s.rest = true := by
    rw [Parser.Closed, hrest, closed, Bool.and_eq_true, Bool.or_eq_true] at hclosed
    rw [hrest] at hspace ⊢
    rw [hasStop, any_cons, Bool.or_eq_true]
    rcases hclosed.1 with hc | hcs
    · left
      rw [isStop, hc, Bool.true_and, Bool.not_eq_true']
      exact hspace
    · exact .inr hcs
  rw [getNumber_behind allowWhitespace hstop b, getNumber_behind allowWhitespace hstop b']
  refine ⟨rfl, fun a s' h => ?_⟩
  have hsuffix : s.rest.dropWhile isNumberChar <:+ s.rest := dropWhile_suffix _
  unfold getNumber at h
  dsimp only at h
  split_ifs at h <;> (cases h; exact closed_of_suffix hsuffix hclosed)

theorem alike_skip_next {allowWhitespace : Bool} {f g : Parser σ → Byte → ParseM σ α} {Q : α → Parser σ → Prop}
    (h : ∀ here : Parser σ, here.Closed → here.rest.head?.any isSpace = false → here.rest ≠ [] →
      ∀ c, Alike Parser.Closed (f here c) (g here c) Q) :
    Alike Parser.Closed
      (do skipWhitespace allowWhitespace; let here ← get; let c ← next; f here c)
      (do skipWhitespace allowWhitespace; let here ← get; let c ← next; g here c) Q := by
  refine Alike.bind (Q := fun _ s => s.Closed ∧ s.rest.head?.any isSpace = false) ?_ fun _ => ?_
  · refine Alike.refl fun s _ s' hs hx => ⟨closed_of_suffix (shrinks_skipWhitespace _ s _ s' hx) hs, ?_⟩
    unfold skipWhitespace at hx
    split_ifs at hx with hallow hspace
    · cases hx
      cases hd : s.rest.dropWhile isSpace with
      | nil => rfl
      | cons c cs =>
        have := head?_dropWhile_not isSpace s.rest
        rw [hd] at this
        simpa using this
    · cases hx
      simpa using hspace
  · refine Alike.get_bind fun here hhere => ?_
    refine Alike.bind (Q := fun _ s => s.Closed ∧ here.rest ≠ []) ?_ fun c => ?_
    · refine Alike.refl fun s _ s' hs hx => ⟨closed_of_suffix (shrinks_next s _ s' hx) (hs ▸ hhere.1), ?_⟩
      intro hnil
      subst hs
      unfold next at hx
      rw [hnil] at hx
      cases hx
    · rintro s ⟨hs, hne⟩
      exact h here hhere.1 hhere.2 hne c s hs

section

variable (callback : Callback σ) (allowWhitespace : Bool) (b b' : List Byte)

theorem shrinks_enterObject : Shrinks (enterObject : ParseM σ Unit) := by
  intro s a s' h
  unfold enterObject at h
  dsimp only at h
  split_ifs at h
  cases h
  exact suffix_refl _

theorem shrinks_leaveObject (env : Env σ) (scan : Bool) : Shrinks (leaveObject env scan) := by
  intro s a s' h
  unfold leaveObject at h
  obtain ⟨_, s₁, h₁, h⟩ := bind_eq_ok_iff.mp h
  cases h₁
  split_ifs at h
  · cases h
  · obtain ⟨_, s₂, h₂, h⟩ := bind_eq_ok_iff.mp h
    have hsuffix := shrinks_invoke _ _ _ _ _ _ _ h₂
    cases h
    exact hsuffix

theorem shrinks_expectColon : Shrinks (expectColon allowWhitespace : ParseM σ Unit) := by
  refine shrinks_bind (shrinks_skipWhitespace _) fun _ => shrinks_bind shrinks_next fun c => ?_
  intro s a s' h
  split_ifs at h
  · cases h
  · cases h
    exact suffix_refl _

def AlikeAt (n : ℕ) : Prop :=
  (∀ scan, Alike Parser.Closed (getValue ⟨callback, allowWhitespace, b⟩ n scan)
    (getValue ⟨callback, allowWhitespace, b'⟩ n scan) fun _ => Parser.Closed) ∧
  (∀ scan k, Alike Parser.Closed (getArray ⟨callback, allowWhitespace, b⟩ n scan k)
    (getArray ⟨callback, allowWhitespace, b'⟩ n scan k) fun _ => Parser.Closed) ∧
  (∀ scan, Alike Parser.Closed (getObject ⟨callback, allowWhitespace, b⟩ n scan)
    (getObject ⟨callback, allowWhitespace, b'⟩ n scan) fun _ => Parser.Closed) ∧
  ∀ scan, Alike Parser.Closed (getMembers ⟨callback, allowWhitespace, b⟩ n scan)
    (getMembers ⟨callback, allowWhitespace, b'⟩ n scan) fun _ => Parser.Closed

variable {callback allowWhitespace b b'}

variable {n : ℕ}

section

variable (ih : AlikeAt callback allowWhitespace b b' n)

include ih

theorem alike_getArray_succ (scan : Bool) (k : ℕ) :
    Alike Parser.Closed (getArray ⟨callback, allowWhitespace, b⟩ (n + 1) scan k)
      (getArray ⟨callback, allowWhitespace, b'⟩ (n + 1) scan k) fun _ => Parser.Closed := by
  rw [getArray, getArray]
  refine alike_skip_next fun here hhere _ _ c => ?_
  split_ifs
  · exact ih.2.1 scan k
  · exact Alike.pure fun s hs => hs
  · exact Alike.set_bind (S := Parser.Closed) hhere
      (Alike.bind (ih.1 scan) fun _ => ih.2.1 scan (k + 1))

theorem alike_getObject_succ (scan : Bool) :
    Alike Parser.Closed (getObject ⟨callback, allowWhitespace, b⟩ (n + 1) scan)
      (getObject ⟨callback, allowWhitespace, b'⟩ (n + 1) scan) fun _ => Parser.Closed := by
  rw [getObject, getObject]
  refine Alike.bind (shrinks_invoke _ _ _ _).alike fun _ => ?_
  refine Alike.bind shrinks_enterObject.alike fun _ => ?_
  exact Alike.bind (ih.2.2.2 scan) fun _ => (shrinks_leaveObject _ _).alike

theorem alike_getMembers_succ (scan : Bool) :
    Alike Parser.Closed (getMembers ⟨callback, allowWhitespace, b⟩ (n + 1) scan)
      (getMembers ⟨callback, allowWhitespace, b'⟩ (n + 1) scan) fun _ => Parser.Closed := by
  rw [getMembers, getMembers]
  refine Alike.bind (shrinks_skipWhitespace _).alike fun _ => ?_
  refine Alike.bind shrinks_next.alike fun c => ?_
  split_ifs
  · refine Alike.bind (shrinks_getString scan).alike fun name => ?_
    refine Alike.bind (Q := fun _ => Parser.Closed) (Alike.refl ?_) fun _ => ?_
    · intro s _ s' hs h
      cases h
      exact hs
    refine Alike.bind (shrinks_invoke _ _ _ _).alike fun _ => ?_
    refine Alike.bind (shrinks_expectColon _).alike fun _ => ?_
    exact Alike.bind (ih.1 scan) fun _ => ih.2.2.2 scan
  · exact Alike.pure fun s hs => hs
  · exact ih.2.2.2 scan

end

theorem alike_orBadSyntax {x y : ParseM σ α} {Q : α → Parser σ → Prop} (h : Alike Parser.Closed x y Q) :
    Alike Parser.Closed (orBadSyntax x) (orBadSyntax y) Q := by
  intro s hs
  obtain ⟨heq, hQ⟩ := h s hs
  rw [orBadSyntax, orBadSyntax, ← heq]
  cases hx : x s with
  | error e t => exact ⟨rfl, fun _ _ hne => by cases hne⟩
  | ok a t =>
    refine ⟨rfl, fun a' t' ht => ?_⟩
    cases ht
    exact hQ a t hx

theorem alike_getValue_succ (ih : AlikeAt callback allowWhitespace b b' n) (scan : Bool) :
    Alike Parser.Closed (getValue ⟨callback, allowWhitespace, b⟩ (n + 1) scan)
      (getValue ⟨callback, allowWhitespace, b'⟩ (n + 1) scan) fun _ => Parser.Closed := by
  rw [getValue, getValue]
  refine alike_skip_next fun here hhere hspace hne c => ?_
  have hinvoke : ∀ reason v, Alike Parser.Closed (invoke callback scan reason v)
      (invoke callback scan reason v) fun _ => Parser.Closed :=
    fun reason v => (shrinks_invoke callback scan reason v).alike
  cases lead (toLower c) with
  | false | null | true => exact Alike.bind (shrinks_expect _).alike fun _ => hinvoke _ _
  | object => exact ih.2.2.1 scan
  | string => exact Alike.bind (alike_orBadSyntax (shrinks_getString scan).alike) fun str => hinvoke _ _
  | number =>
    exact Alike.set_bind ⟨hhere, hspace, hne⟩
      (Alike.bind (alike_getNumber allowWhitespace b b') fun v => hinvoke _ _)
  | array =>
    refine Alike.get_bind fun s hs => ?_
    -- the scan sees the same elements
    dsimp only
    rw [← (ih.2.1 true 0 s hs).1]
    cases getArray ⟨callback, allowWhitespace, b⟩ n true 0 s with
    | error e t => exact Alike.throw
    | ok size t =>
      refine Alike.set_bind (S := Parser.Closed) hs ?_
      refine Alike.bind (hinvoke _ _) fun _ => ?_
      exact Alike.bind (alike_orBadSyntax (ih.2.1 scan 0)) fun _ => hinvoke _ _

theorem alikeAt (n : ℕ) : AlikeAt callback allowWhitespace b b' n := by
  induction n with
  | zero =>
    refine ⟨fun _ => ?_, fun _ _ => ?_, fun _ => ?_, fun _ => ?_⟩
    · rw [getValue, getValue]; exact Alike.throw
    · rw [getArray, getArray]; exact Alike.throw
    · rw [getObject, getObject]; exact Alike.throw
    · rw [getMembers, getMembers]; exact Alike.throw
  | succ n ih =>
    exact ⟨alike_getValue_succ ih, alike_getArray_succ ih, alike_getObject_succ ih, alike_getMembers_succ ih⟩

end

/-! ## Whole texts -/

def logEnv (allowWhitespace : Bool) (behind : List Byte) : Env (List Reason) :=
  ⟨fun _ reason _ log => .ok (log ++ [reason]), allowWhitespace, behind⟩

def outcome (allowWhitespace : Bool) (behind text : List Byte) : Option JsonResult × List Reason :=
  match jsonParse (logEnv allowWhitespace behind) text [] with
  | .ok _ s => (none, s.data)
  | .error e s => (some e, s.data)

end SgxLkl.Json
