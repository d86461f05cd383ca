import SgxLkl.Json.Model
import SgxLkl.Lib.Programs

/-!
# The calls of a run

The parser touches the data of its callback in no other way than by calling it. So what every call keeps is kept by the
parser, be the text accepted or not.

* **`jsonParse_keeps`**: the rule for one run.
* `calls`: the calls of a run, in order, with the data they are given.
-/

namespace SgxLkl.Json

open List

variable {σ α β : Type}

/-! ## What the calls keep -/

/-- The program keeps what holds of the data of the callback, also when it fails. -/
def Keeps (I : σ → Prop) (x : ParseM σ α) : Prop :=
  EndsIn (fun s => I s.data) x (fun _ s => I s.data) fun s => I s.data

variable {I : σ → Prop} {x : ParseM σ α}

theorem Keeps.bind {f : α → ParseM σ β} (hx : Keeps I x) (hf : ∀ a, Keeps I (f a)) : Keeps I (x >>= f) :=
  EndsIn.bind hx hf

theorem Keeps.get_bind {f : Parser σ → ParseM σ β} (hf : ∀ s : Parser σ, I s.data → Keeps I (f s)) :
    Keeps I (get >>= f) :=
  EndsIn.get_bind fun s hs => EndsIn.conseq (hf s hs) (fun _ ht => ht ▸ hs) fun _ _ h => h

theorem Keeps.set_bind {s : Parser σ} {f : PUnit → ParseM σ β} (hs : I s.data) (hf : Keeps I (f ⟨⟩)) :
    Keeps I (set s >>= f) :=
  EndsIn.set_bind (S := fun s : Parser σ => I s.data) hs hf

theorem keeps_pure (a : α) : Keeps I (pure a : ParseM σ α) := EndsIn.pure fun _ hs => hs

theorem keeps_throw (e : JsonResult) : Keeps I (throw e : ParseM σ α) := EndsIn.throw fun _ hs => hs

theorem keeps_skipWhitespace (allowWhitespace : Bool) : Keeps I (skipWhitespace allowWhitespace : ParseM σ Unit) := by
  intro s hs
  unfold skipWhitespace
  split_ifs <;> constructor <;> intro _ _ h <;> cases h <;> exact hs

theorem keeps_next : Keeps I (next : ParseM σ Byte) := by
  intro s hs
  unfold next
  split <;> constructor <;> intro _ _ h <;> cases h <;> exact hs

theorem keeps_expect (str : List Byte) : Keeps I (expect str : ParseM σ Unit) := by
  intro s hs
  unfold expect
  split_ifs <;> constructor <;> intro _ _ h <;> cases h <;> exact hs

theorem keeps_getString (scan : Bool) : Keeps I (getString scan : ParseM σ (CString Byte)) := by
  intro s hs
  unfold getString
  split
  · exact ⟨fun _ _ h => (nomatch h), fun _ _ h => by cases h; exact hs⟩
  · split_ifs
    · exact ⟨fun _ _ h => by cases h; exact hs, fun _ _ h => (nomatch h)⟩
    · split <;> constructor <;> intro _ _ h <;> cases h <;> exact hs

theorem keeps_getNumber (allowWhitespace : Bool) (behind : List Byte) :
    Keeps I (getNumber allowWhitespace behind : ParseM σ Value) := by
  intro s hs
  unfold getNumber
  dsimp only
  split_ifs <;> constructor <;> intro _ _ h <;> cases h <;> exact hs

theorem keeps_enterObject : Keeps I (enterObject : ParseM σ Unit) := by
  intro s hs
  unfold enterObject
  dsimp only
  split_ifs <;> constructor <;> intro _ _ h <;> cases h <;> exact hs

theorem keeps_expectColon (allowWhitespace : Bool) : Keeps I (expectColon allowWhitespace : ParseM σ Unit) := by
  unfold expectColon
  refine (keeps_skipWhitespace _).bind fun _ => keeps_next.bind fun c => ?_
  split_ifs
  · exact keeps_throw _
  · exact keeps_pure ()

theorem Keeps.orBadSyntax (hx : Keeps I x) : Keeps I (orBadSyntax x) := by
  intro s hs
  obtain ⟨hok, herror⟩ := hx s hs
  unfold Json.orBadSyntax
  cases h : x s with
  | ok a t => exact ⟨fun _ _ heq => by cases heq; exact hok a t h, fun _ _ hne => (nomatch hne)⟩
  | error e t => exact ⟨fun _ _ hne => (nomatch hne), fun _ _ heq => by cases heq; exact herror e t h⟩

section

variable {env : Env σ} (hI : ∀ {p reason v d d'}, I d → env.callback p reason v d = .ok d' → I d')

include hI

theorem keeps_invoke (scan : Bool) (reason : Reason) (v : Value) : Keeps I (invoke env.callback scan reason v) := by
  intro s hs
  unfold invoke
  split_ifs
  · exact ⟨fun _ _ h => by cases h; exact hs, fun _ _ h => (nomatch h)⟩
  · split
    · next d hcall => exact ⟨fun _ _ h => by cases h; exact hI hs hcall, fun _ _ h => (nomatch h)⟩
    · exact ⟨fun _ _ h => (nomatch h), fun _ _ h => by cases h; exact hs⟩

theorem keeps_leaveObject (scan : Bool) : Keeps I (leaveObject env scan) := by
  unfold leaveObject
  refine Keeps.get_bind fun s _ => ?_
  split_ifs
  · exact (keeps_throw _).bind fun _ => (keeps_invoke hI _ _ _).bind fun _ => fun t ht =>
      ⟨fun _ _ h => by cases h; exact ht, fun _ _ h => (nomatch h)⟩
  · exact (keeps_invoke hI _ _ _).bind fun _ => fun t ht =>
      ⟨fun _ _ h => by cases h; exact ht, fun _ _ h => (nomatch h)⟩

/-- What the calls keep is kept by all functions of the parser. -/
theorem parser_keeps (n : ℕ) : (∀ scan, Keeps I (getValue env n scan)) ∧ (∀ scan k, Keeps I (getArray env n scan k)) ∧
    (∀ scan, Keeps I (getObject env n scan)) ∧ ∀ scan, Keeps I (getMembers env n scan) := by
  induction n with
  | zero =>
    refine ⟨fun _ => ?_, fun _ _ => ?_, fun _ => ?_, fun _ => ?_⟩
    · rw [getValue]; exact keeps_throw _
    · rw [getArray]; exact keeps_throw _
    · rw [getObject]; exact keeps_throw _
    · rw [getMembers]; exact keeps_throw _
  | succ n ih =>
    obtain ⟨hvalue, harray, hobject, hmembers⟩ := ih
    refine ⟨fun scan => ?_, fun scan k => ?_, fun scan => ?_, fun scan => ?_⟩
    · rw [getValue]
      refine (keeps_skipWhitespace _).bind fun _ => Keeps.get_bind fun here hhere => keeps_next.bind fun c => ?_
      cases lead (toLower c) with
      | false | null | true => exact (keeps_expect _).bind fun _ => keeps_invoke hI _ _ _
      | object => exact hobject scan
      | string => exact (keeps_getString _).orBadSyntax.bind fun _ => keeps_invoke hI _ _ _
      | number => exact Keeps.set_bind hhere ((keeps_getNumber _ _).bind fun _ => keeps_invoke hI _ _ _)
      | array =>
        refine Keeps.get_bind fun s hs => ?_
        cases getArray env n true 0 s with
        | error => exact keeps_throw _
        | ok size _ =>
          exact Keeps.set_bind hs ((keeps_invoke hI _ _ _).bind fun _ =>
            (harray scan 0).orBadSyntax.bind fun _ => keeps_invoke hI _ _ _)
    · rw [getArray]
      refine (keeps_skipWhitespace _).bind fun _ => Keeps.get_bind fun here hhere => keeps_next.bind fun c => ?_
      split_ifs
      · exact harray scan k
      · exact keeps_pure k
      · exact Keeps.set_bind hhere ((hvalue scan).bind fun _ => harray scan (k + 1))
    · rw [getObject]
      exact (keeps_invoke hI _ _ _).bind fun _ => keeps_enterObject.bind fun _ =>
        (hmembers scan).bind fun _ => keeps_leaveObject hI scan
    · rw [getMembers]
      refine (keeps_skipWhitespace _).bind fun _ => keeps_next.bind fun c => ?_
      split_ifs
      · refine (keeps_getString _).bind fun name => Keeps.bind (fun s hs => ?_) fun _ => (keeps_invoke hI _ _ _).bind
          fun _ => (keeps_expectColon _).bind fun _ => (hvalue scan).bind fun _ => hmembers scan
        exact ⟨fun _ _ h => by cases h; exact hs, fun _ _ h => (nomatch h)⟩
      · exact keeps_pure ()
      · exact hmembers scan

end

/-! ## The calls -/

/-- A call, with the data of the callback. -/
structure Call (σ : Type) where
  path : Path
  reason : Reason
  value : Value
  data : σ

/-- The calls so far. After a call that fails there are no others. -/
structure Traced (σ : Type) where
  calls : List (Call σ)
  data : σ
  failed : Bool

/-- The callback, with a note of each call. -/
def traced (callback : Callback σ) : Callback (Traced σ) := fun p reason v t =>
  if t.failed then .ok t
  else match callback p reason v t.data with
    | .ok d => .ok ⟨t.calls ++ [⟨p, reason, v, t.data⟩], d, false⟩
    | .error _ => .ok ⟨t.calls ++ [⟨p, reason, v, t.data⟩], t.data, true⟩

/-- All calls for a text, accepted or not. -/
def calls (env : Env σ) (text : List Byte) (d : σ) : List (Call σ) :=
  match jsonParse ⟨traced env.callback, env.allowWhitespace, env.behind⟩ text ⟨[], d, false⟩ with
  | .ok _ s => s.data.calls
  | .error _ s => s.data.calls

/-- The first character that is read. -/
def firstChar (allowWhitespace : Bool) (text : List Byte) : Option Byte :=
  (if allowWhitespace then text.dropWhile isSpace else text).head?

theorem traced_keeps (callback : Callback σ) {c : Call σ} {p : Path} {reason : Reason} {v : Value} {t t' : Traced σ}
    (ht : ∃ cs, t.calls = c :: cs) (h : traced callback p reason v t = .ok t') : ∃ cs, t'.calls = c :: cs := by
  obtain ⟨cs, hcs⟩ := ht
  unfold traced at h
  split_ifs at h
  · cases h
    exact ⟨cs, hcs⟩
  · split at h <;> cases h <;> exact ⟨_, congrArg (· ++ _) hcs⟩

/-- The first call for the root. -/
theorem invoke_traced (callback : Callback σ) (rest : List Byte) (p : Path) (d : σ) : ∃ t,
    invoke (traced callback) false .beginObject .null ⟨rest, p, ⟨[], d, false⟩⟩ = .ok () ⟨rest, p, t⟩ ∧
      t.calls = [⟨p, .beginObject, .null, d⟩] := by
  unfold invoke traced
  dsimp only
  cases callback p .beginObject .null d with
  | ok d' => exact ⟨_, rfl, rfl⟩
  | error e => exact ⟨_, rfl, rfl⟩

/-- The calls of an object begin with the one for its begin. -/
theorem calls_getObject (env : Env σ) (n : ℕ) (rest : List Byte) (p : Path) (d : σ) :
    EndsIn (fun s => s = ⟨rest, p, ⟨[], d, false⟩⟩)
      (getObject ⟨traced env.callback, env.allowWhitespace, env.behind⟩ (n + 1) false)
      (fun _ s => ∃ cs, s.data.calls = ⟨p, .beginObject, .null, d⟩ :: cs)
      fun s => ∃ cs, s.data.calls = ⟨p, .beginObject, .null, d⟩ :: cs := by
  rw [getObject]
  have hI : ∀ {q reason v} {t t' : Traced σ}, (∃ cs, t.calls = ⟨p, .beginObject, .null, d⟩ :: cs) →
      traced env.callback q reason v t = .ok t' → ∃ cs, t'.calls = ⟨p, .beginObject, .null, d⟩ :: cs :=
    fun ht h => traced_keeps _ ht h
  refine EndsIn.bind (Q := fun _ s => ∃ cs, s.data.calls = ⟨p, .beginObject, .null, d⟩ :: cs) ?_ fun _ => ?_
  · rintro _ rfl
    obtain ⟨t, hinvoke, ht⟩ := invoke_traced env.callback rest p d
    rw [hinvoke]
    exact ⟨fun _ _ h => by cases h; exact ⟨[], ht⟩, fun _ _ h => (nomatch h)⟩
  · have hkeeps : Keeps (fun t => ∃ cs, t.calls = ⟨p, .beginObject, .null, d⟩ :: cs)
        (getMembers ⟨traced env.callback, env.allowWhitespace, env.behind⟩ n false) := (parser_keeps hI n).2.2.2 false
    exact keeps_enterObject.bind fun _ => hkeeps.bind fun _ => keeps_leaveObject hI false

/-- The first character is read, or the parser fails before the first call. -/
theorem skip_next (allowWhitespace : Bool) (s : Parser σ) :
    (∃ c rest, (skipWhitespace allowWhitespace >>= fun _ => next) s = .ok c ⟨rest, s.path, s.data⟩ ∧
      firstChar allowWhitespace s.rest = some c) ∨
    ∃ e s', (skipWhitespace allowWhitespace >>= fun _ => next) s = .error e s' ∧ s'.data = s.data ∧
      firstChar allowWhitespace s.rest ≠ some openBrace := by
  simp only [Bind.bind, EStateM.bind, skipWhitespace, next, firstChar]
  split_ifs with hallow hspace
  · cases s.rest.dropWhile isSpace with
    | nil => exact .inr ⟨_, _, rfl, rfl, nofun⟩
    | cons c cs => exact .inl ⟨c, cs, rfl, rfl⟩
  · refine .inr ⟨_, _, rfl, rfl, fun h => ?_⟩
    rw [h] at hspace
    cases hspace
  · dsimp only
    cases s.rest with
    | nil => exact .inr ⟨_, _, rfl, rfl, nofun⟩
    | cons c cs => exact .inl ⟨c, cs, rfl, rfl⟩

/-- **The first call is for the root**, at depth zero, and there is one as soon as an object begins. -/
theorem calls_eq (env : Env σ) (text : List Byte) (d : σ) :
    if firstChar env.allowWhitespace text = some openBrace then
      ∃ c cs, calls env text d = c :: cs ∧ c.path.depth = 0 ∧ c.reason = .beginObject
    else calls env text d = [] := by
  unfold calls jsonParse
  dsimp only
  by_cases hnil : text = []
  · subst hnil
    cases env.allowWhitespace <;> rfl
  rw [if_neg hnil]
  set p : Path := ⟨0, fun _ => ⟨cstring [], 0, 0, 0⟩⟩
  set env' : Env (Traced σ) := ⟨traced env.callback, env.allowWhitespace, env.behind⟩
  have hparse : parse env' ⟨text, p, ⟨[], d, false⟩⟩ =
      ((skipWhitespace env.allowWhitespace >>= fun _ => next) >>= fun c =>
        if c ≠ openBrace then throw .badSyntax >>= fun _ : Unit => getObject env' (2 * text.length + 2) false
        else getObject env' (2 * text.length + 2) false) ⟨text, p, ⟨[], d, false⟩⟩ := by
    rw [bind_assoc]
    unfold parse
    rfl
  rw [hparse]
  rcases skip_next env.allowWhitespace (⟨text, p, ⟨[], d, false⟩⟩ : Parser (Traced σ)) with
    ⟨c, rest, hfirst, hc⟩ | ⟨e, s, hfirst, hs, hne⟩
  · rw [bind_of_ok hfirst, show firstChar env.allowWhitespace text = some c from hc]
    by_cases hbrace : c = openBrace
    · subst hbrace
      rw [if_pos rfl, if_neg (not_not.mpr rfl)]
      obtain ⟨hok, herror⟩ := calls_getObject env (2 * text.length + 1) rest p d ⟨rest, p, ⟨[], d, false⟩⟩ rfl
      cases hrun : getObject env' (2 * text.length + 2) false ⟨rest, p, ⟨[], d, false⟩⟩ with
      | ok a s =>
        obtain ⟨cs, hcs⟩ := hok a s hrun
        exact ⟨_, cs, hcs, rfl, rfl⟩
      | error e s =>
        obtain ⟨cs, hcs⟩ := herror e s hrun
        exact ⟨_, cs, hcs, rfl, rfl⟩
    · rw [if_neg fun h => hbrace (Option.some.inj h), if_pos hbrace]
      rfl
  · rw [if_neg hne]
    simp only [Bind.bind, EStateM.bind] at hfirst ⊢
    rw [hfirst]
    show s.data.calls = []
    rw [hs]

end SgxLkl.Json
