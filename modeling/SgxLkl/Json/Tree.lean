import SgxLkl.Json.Doc

/-!
# Texts of trees

A tree is printed without whitespace.

* `Tree.text`, `Tree.doc`: the text and the document of a tree.
* **`getValue_text`**: the parser delivers the document.
-/

namespace SgxLkl.Json

variable {σ : Type}

/-! ## The monad -/

variable {α β : Type} {x : ParseM σ α} {f : α → ParseM σ β} {s s' : Parser σ} {e : JsonResult}
variable {reason : Reason} {v : Value}

theorem bind_ok {a : α} (h : x s = .ok a s') : (x >>= f) s = f a s' := by
  simp only [bind, EStateM.bind, h]

theorem bind_error (h : x s = .error e s') : (x >>= f) s = .error e s' := by
  simp only [bind, EStateM.bind, h]

theorem skipWhitespace_cons (allowWhitespace : Bool) {c : Byte} (hc : isSpace c = false) (cs : List Byte)
    (p : Path) (d : σ) : skipWhitespace allowWhitespace ⟨c :: cs, p, d⟩ = .ok () ⟨c :: cs, p, d⟩ := by
  unfold skipWhitespace
  cases allowWhitespace <;> simp [hc]

theorem orBadSyntax_ok {a : α} (h : x s = .ok a s') : orBadSyntax x s = .ok a s' := by
  simp only [orBadSyntax, h]

theorem orBadSyntax_error (h : x s = .error e s') : orBadSyntax x s = .error .badSyntax s' := by
  simp only [orBadSyntax, h]

theorem invoke_scan (callback : Callback σ) (reason : Reason) (v : Value) (s : Parser σ) :
    invoke callback true reason v s = .ok () s := rfl

variable {callback : Callback σ}

theorem invoke_ok {p : Path} {d d' : σ} (h : callback p reason v d = .ok d') (t : List Byte) :
    invoke callback false reason v ⟨t, p, d⟩ = .ok () ⟨t, p, d'⟩ := by
  simp only [invoke, h, Bool.false_eq_true, if_false]

theorem invoke_error {p : Path} {d : σ} (h : callback p reason v d = .error e) (t : List Byte) :
    invoke callback false reason v ⟨t, p, d⟩ = .error e ⟨t, p, d⟩ := by
  simp only [invoke, h, Bool.false_eq_true, if_false]

/-! ## What the parser does at a first character -/

section

variable (env : Env σ) (n : ℕ) (scan : Bool) (cs : List Byte) (p : Path) (d : σ)

theorem getValue_object : getValue env (n + 1) scan ⟨openBrace :: cs, p, d⟩ = getObject env n scan ⟨cs, p, d⟩ := by
  rw [getValue, bind_ok (skipWhitespace_cons _ (by decide) cs p d)]
  rfl

theorem getValue_array : getValue env (n + 1) scan ⟨openBracket :: cs, p, d⟩ =
      match getArray env n true 0 ⟨cs, p, d⟩ with
      | .error _ _ => .error .badSyntax ⟨cs, p, d⟩
      | .ok size _ => (do
          invoke env.callback scan .beginArray (.integer (BitVec.ofNat 64 size))
          let _ ← orBadSyntax (getArray env n scan 0)
          invoke env.callback scan .endArray (.integer (BitVec.ofNat 64 size)) : ParseM σ Unit)
        ⟨cs, p.modify fun node => { node with size := size }, d⟩ := by
  rw [getValue, bind_ok (skipWhitespace_cons _ (by decide) cs p d)]
  have hlead : lead (toLower openBracket) = .array := by decide
  simp only [bind, EStateM.bind, get, getThe, MonadStateOf.get, EStateM.get, next, hlead]
  cases getArray env n true 0 ⟨cs, p, d⟩ <;> rfl

theorem getValue_string : getValue env (n + 1) scan ⟨quote :: cs, p, d⟩ = (do
      let str ← orBadSyntax (getString scan)
      invoke env.callback scan .value (.string str) : ParseM σ Unit) ⟨cs, p, d⟩ := by
  rw [getValue, bind_ok (skipWhitespace_cons _ (by decide) cs p d)]
  rfl

theorem getValue_digit {c : Byte} (hc : isDigit c = true) : getValue env (n + 1) scan ⟨c :: cs, p, d⟩ = (do
      let v ← getNumber env.allowWhitespace env.behind
      invoke env.callback scan .value v : ParseM σ Unit) ⟨c :: cs, p, d⟩ := by
  obtain ⟨hspace, -, -, -, -, -, -, -, -, -, hlow, hlead⟩ := isDigit_facts c hc
  rw [getValue, bind_ok (skipWhitespace_cons _ hspace cs p d)]
  simp only [bind, EStateM.bind, get, getThe, MonadStateOf.get, EStateM.get, next, hlow, hlead, set, EStateM.set]

theorem getArray_comma (k : ℕ) :
    getArray env (n + 1) scan k ⟨comma :: cs, p, d⟩ = getArray env n scan k ⟨cs, p, d⟩ := by
  rw [getArray, bind_ok (skipWhitespace_cons _ (by decide) cs p d)]
  rfl

theorem getArray_close (k : ℕ) : getArray env (n + 1) scan k ⟨closeBracket :: cs, p, d⟩ = .ok k ⟨cs, p, d⟩ := by
  rw [getArray, bind_ok (skipWhitespace_cons _ (by decide) cs p d)]
  rfl

theorem getArray_value {c : Byte} (hs : isSpace c = false) (hc : c ≠ comma) (hb : c ≠ closeBracket) (k : ℕ) :
    getArray env (n + 1) scan k ⟨c :: cs, p, d⟩ = (do
      getValue env n scan
      getArray env n scan (k + 1) : ParseM σ ℕ)
        ⟨c :: cs, p.modify fun node => { node with index := k }, d⟩ := by
  rw [getArray, bind_ok (skipWhitespace_cons _ hs cs p d)]
  simp only [bind, EStateM.bind, get, getThe, MonadStateOf.get, EStateM.get, next, if_neg hc, if_neg hb,
    set, EStateM.set]

theorem getMembers_comma : getMembers env (n + 1) scan ⟨comma :: cs, p, d⟩ = getMembers env n scan ⟨cs, p, d⟩ := by
  rw [getMembers, bind_ok (skipWhitespace_cons _ (by decide) cs p d)]
  rfl

theorem getMembers_close : getMembers env (n + 1) scan ⟨closeBrace :: cs, p, d⟩ = .ok () ⟨cs, p, d⟩ := by
  rw [getMembers, bind_ok (skipWhitespace_cons _ (by decide) cs p d)]
  rfl

theorem getMembers_name {name : CString Byte} {t : List Byte}
    (hname : getString scan ⟨cs, p, d⟩ = .ok name ⟨t, p, d⟩) :
    getMembers env (n + 1) scan ⟨quote :: cs, p, d⟩ = (do
      invoke env.callback scan .name (.string name)
      expectColon env.allowWhitespace
      getValue env n scan
      getMembers env n scan : ParseM σ Unit)
        ⟨t, p.modify fun _ => nodeOf env.allowWhitespace name, d⟩ := by
  rw [getMembers, bind_ok (skipWhitespace_cons _ (by decide) cs p d)]
  simp only [bind, EStateM.bind, next, if_true, hname, modify, modifyGet, MonadStateOf.modifyGet, EStateM.modifyGet]

theorem expectColon_cons (allowWhitespace : Bool) :
    expectColon allowWhitespace ⟨colon :: cs, p, d⟩ = .ok () ⟨cs, p, d⟩ := by
  rw [expectColon, bind_ok (skipWhitespace_cons _ (by decide) cs p d)]
  rfl

theorem enterObject_ok (hp : p.depth ≠ maxNesting) :
    enterObject ⟨cs, p, d⟩ = .ok () ⟨cs, { p with depth := p.depth + 1 }, d⟩ := by
  simp only [enterObject, if_neg hp]

theorem leaveObject_eq (hp : p.depth ≠ 0) : leaveObject env scan ⟨cs, p, d⟩ = (do
      invoke env.callback scan .endObject .null
      modify fun s => { s with path := { s.path with depth := s.path.depth - 1 } } : ParseM σ Unit)
        ⟨cs, p, d⟩ := by
  unfold leaveObject
  simp only [bind, EStateM.bind, get, getThe, MonadStateOf.get, EStateM.get, if_neg hp]

end

/-! ## Trees -/

/-- What may come behind a value. -/
def Ends (rest : List Byte) : Prop :=
  ∃ c cs, rest = c :: cs ∧ (c = comma ∨ c = closeBracket ∨ c = closeBrace)

/-- A text that is read as a value, or as an error. -/
structure Leaf where
  text : List Byte
  value : Except JsonResult Value
  head : ∃ c cs, text = c :: cs ∧ isSpace c = false ∧ c ≠ comma ∧ c ≠ closeBracket
  scans : ∀ {σ : Type} (env : Env σ) (n : ℕ) (p : Path) (d : σ) {rest : List Byte}, Ends rest →
    getValue env (n + 1) true ⟨text ++ rest, p, d⟩ = .ok () ⟨rest, p, d⟩
  reads : ∀ {σ : Type} (env : Env σ) (n : ℕ) (p : Path) (d : σ) {rest : List Byte}, Ends rest →
    getValue env (n + 1) false ⟨text ++ rest, p, d⟩ =
      match value with
      | .ok v => invoke env.callback false .value v ⟨rest, p, d⟩
      | .error e => .error e ⟨rest, p, d⟩

/-- The text of a member name, without the quotes. -/
structure Name where
  text : List Byte
  name : CString Byte
  closes : ∀ rest, closingQuote 0 (text ++ quote :: rest) = some (text, rest)
  reads : unescape text = .ok name.chars

mutual

/-- A value that is printed. -/
inductive Tree
  | leaf (l : Leaf)
  | array (vs : Trees)
  | object (ms : Members)

inductive Trees
  | nil
  | cons (v : Tree) (vs : Trees)

inductive Members
  | nil
  | cons (name : Name) (v : Tree) (ms : Members)

end

def Trees.sep : Trees → List Byte
  | .nil => []
  | .cons _ _ => [comma]

def Members.sep : Members → List Byte
  | .nil => []
  | .cons _ _ _ => [comma]

mutual

def Tree.text : Tree → List Byte
  | .leaf l => l.text
  | .array vs => openBracket :: (vs.text ++ [closeBracket])
  | .object ms => openBrace :: (ms.text ++ [closeBrace])

def Trees.text : Trees → List Byte
  | .nil => []
  | .cons v vs => v.text ++ (vs.sep ++ vs.text)

def Members.text : Members → List Byte
  | .nil => []
  | .cons name v ms => quote :: (name.text ++ quote :: colon :: (v.text ++ (ms.sep ++ ms.text)))

end

mutual

/-- The number of objects inside each other. -/
def Tree.height : Tree → ℕ
  | .leaf _ => 0
  | .array vs => vs.height
  | .object ms => ms.height + 1

def Trees.height : Trees → ℕ
  | .nil => 0
  | .cons v vs => max v.height vs.height

def Members.height : Members → ℕ
  | .nil => 0
  | .cons _ v ms => max v.height ms.height

end

mutual

def Tree.doc : Tree → Doc
  | .leaf l => .leaf l.value
  | .array vs => .array vs.docs
  | .object ms => .object ms.docs

def Trees.docs : Trees → Docs
  | .nil => .nil
  | .cons v vs => .cons v.doc vs.docs

def Members.docs : Members → DocMembers
  | .nil => .nil
  | .cons name v ms => .cons name.name v.doc ms.docs

end

/-! ## The parser delivers the tree -/

theorem Tree.head (v : Tree) : ∃ c cs, v.text = c :: cs ∧ isSpace c = false ∧ c ≠ comma ∧ c ≠ closeBracket := by
  cases v with
  | leaf l => simpa only [Tree.text] using l.head
  | array vs => exact ⟨_, _, by rw [Tree.text], by decide, by decide, by decide⟩
  | object ms => exact ⟨_, _, by rw [Tree.text], by decide, by decide, by decide⟩

theorem Tree.length_text_pos (v : Tree) : 0 < v.text.length := by
  obtain ⟨c, cs, h, -⟩ := v.head
  simp [h]

theorem Trees.ends_sep (vs : Trees) (rest : List Byte) : Ends (vs.sep ++ (vs.text ++ closeBracket :: rest)) := by
  cases vs with
  | nil => exact ⟨closeBracket, rest, by simp [Trees.sep, Trees.text], .inr (.inl rfl)⟩
  | cons v vs => exact ⟨comma, _, rfl, .inl rfl⟩

theorem Members.ends_sep (ms : Members) (rest : List Byte) : Ends (ms.sep ++ (ms.text ++ closeBrace :: rest)) := by
  cases ms with
  | nil => exact ⟨closeBrace, rest, by simp [Members.sep, Members.text], .inr (.inr rfl)⟩
  | cons name v ms => exact ⟨comma, _, rfl, .inl rfl⟩

theorem Trees.getArray_sep (vs : Trees) (env : Env σ) (n : ℕ) (scan : Bool) (k : ℕ) (t : List Byte)
    (p : Path) (d : σ) : ∃ m, n ≤ m ∧
      getArray env (n + 1) scan k ⟨vs.sep ++ t, p, d⟩ = getArray env m scan k ⟨t, p, d⟩ := by
  cases vs with
  | nil => exact ⟨n + 1, Nat.le_succ n, rfl⟩
  | cons v vs => exact ⟨n, le_rfl, getArray_comma env n scan t p d k⟩

theorem Members.getMembers_sep (ms : Members) (env : Env σ) (n : ℕ) (scan : Bool) (t : List Byte)
    (p : Path) (d : σ) : ∃ m, n ≤ m ∧
      getMembers env (n + 1) scan ⟨ms.sep ++ t, p, d⟩ = getMembers env m scan ⟨t, p, d⟩ := by
  cases ms with
  | nil => exact ⟨n + 1, Nat.le_succ n, rfl⟩
  | cons name v ms => exact ⟨n, le_rfl, getMembers_comma env n scan t p d⟩

/-- A scan leaves the name as it is written. -/
theorem Name.exists_getString (name : Name) (scan : Bool) (p : Path) (d : σ) (rest : List Byte) :
    ∃ str, (scan = false → str = name.name) ∧
      getString scan ⟨name.text ++ quote :: rest, p, d⟩ = .ok str ⟨rest, p, d⟩ := by
  cases scan with
  | true => exact ⟨cstring name.text, nofun, by simp only [getString, name.closes, if_true]⟩
  | false =>
    refine ⟨name.name, fun _ => rfl, ?_⟩
    simp only [getString, name.closes, name.reads, Bool.false_eq_true, if_false, cstring_chars]

/-- The parser has done what was delivered, and the text `rest` is left. -/
def Agrees {α : Type} (r : Except JsonResult (Path × σ)) (rest : List Byte) (a : α)
    (x : EStateM.Result JsonResult (Parser σ) α) : Prop :=
  match r with
  | .ok (p, d) => x = .ok a ⟨rest, p, d⟩
  | .error e => ∃ s, x = .error e s

/-- The parser has passed over a text, at the same depth: a scan without a callback, a reader as it agrees with
what was delivered. -/
def Passes {α : Type} (scan : Bool) (r : Except JsonResult (Path × σ)) (depth : ℕ) (d : σ) (rest : List Byte)
    (a : α) (x : EStateM.Result JsonResult (Parser σ) α) : Prop :=
  match scan with
  | true => ∃ p : Path, p.depth = depth ∧ x = .ok a ⟨rest, p, d⟩
  | false => Agrees r rest a x ∧ ∀ q, r = .ok q → q.1.depth = depth

section Rules

variable {α β : Type} {callback : Callback σ} {reason : Reason} {v : Value} {p : Path} {d : σ} {scan : Bool}
  {r r' : Except JsonResult (Path × σ)} {rest rest' : List Byte} {a : α} {b : β} {depth depth' : ℕ}

theorem passes_error {e : JsonResult} (s : Parser σ) : Passes false (.error e) depth d rest a (.error e s) :=
  ⟨⟨s, rfl⟩, nofun⟩

theorem Passes.congr {x : EStateM.Result JsonResult (Parser σ) α} (hr : scan = false → r = r')
    (h : Passes scan r depth d rest a x) : Passes scan r' depth d rest a x := by
  cases scan with
  | true => exact h
  | false => exact hr rfl ▸ h

theorem passes_pure (hp : p.depth = depth) : Passes scan (.ok (p, d)) depth d rest a (.ok a ⟨rest, p, d⟩) := by
  cases scan with
  | true => exact ⟨p, hp, rfl⟩
  | false => exact ⟨rfl, fun q hq => by cases hq; exact hp⟩

theorem passes_invoke_bind {g : σ → Except JsonResult (Path × σ)} {f : Unit → ParseM σ β}
    (h : ∀ d', Passes scan (g d') depth d' rest' b (f () ⟨rest, p, d'⟩)) :
    Passes scan ((callback p reason v d).bind g) depth d rest' b
      ((invoke callback scan reason v >>= f) ⟨rest, p, d⟩) := by
  cases scan with
  | true => exact h d
  | false =>
    cases hcb : callback p reason v d with
    | error e =>
      rw [bind_error (invoke_error hcb rest)]
      exact passes_error _
    | ok d' =>
      rw [bind_ok (invoke_ok hcb rest)]
      exact h d'

theorem passes_invoke (hp : p.depth = depth) :
    Passes scan ((callback p reason v d).bind fun d => .ok (p, d)) depth d rest ()
      (invoke callback scan reason v ⟨rest, p, d⟩) := by
  cases scan with
  | true => exact ⟨p, hp, rfl⟩
  | false =>
    cases h : callback p reason v d with
    | error e =>
      rw [invoke_error h rest]
      exact passes_error _
    | ok d' =>
      rw [invoke_ok h rest]
      exact (passes_pure hp : Passes false (.ok (p, d')) depth d' rest () _)

variable {x : ParseM σ α} {s : Parser σ}

theorem Passes.bind (hx : Passes scan r depth d rest a (x s))
    {g : Path × σ → Except JsonResult (Path × σ)} {f : α → ParseM σ β}
    (h : ∀ p d', p.depth = depth → Passes scan (g (p, d')) depth' d' rest' b (f a ⟨rest, p, d'⟩)) :
    Passes scan (r.bind g) depth' d rest' b ((x >>= f) s) := by
  cases scan with
  | true =>
    obtain ⟨p, hp, hx⟩ := hx
    rw [bind_ok hx]
    exact h p d hp
  | false =>
    cases r with
    | error e =>
      obtain ⟨s', hs'⟩ := hx.1
      rw [bind_error hs']
      exact passes_error s'
    | ok q =>
      rw [bind_ok hx.1]
      exact h q.1 q.2 (hx.2 q rfl)

theorem Passes.orBadSyntax (hx : Passes scan r depth d rest a (x s)) :
    Passes scan (r.mapError fun _ => .badSyntax) depth d rest a (orBadSyntax x s) := by
  cases scan with
  | true =>
    obtain ⟨p, hp, hx⟩ := hx
    exact ⟨p, hp, orBadSyntax_ok hx⟩
  | false =>
    cases r with
    | error e =>
      obtain ⟨s', hs'⟩ := hx.1
      rw [orBadSyntax_error hs']
      exact passes_error s'
    | ok q => exact ⟨orBadSyntax_ok hx.1, hx.2⟩

theorem passes_getObject {env : Env σ} {ms : Members} {n : ℕ} (hp : p.depth ≠ maxNesting)
    (hms : ∀ d₁, Passes scan (ms.docs.deliver env { p with depth := p.depth + 1 } d₁) (p.depth + 1) d₁ rest ()
      (getMembers env n scan ⟨ms.text ++ closeBrace :: rest, { p with depth := p.depth + 1 }, d₁⟩)) :
    Passes scan ((Tree.object ms).doc.deliver env p d) p.depth d rest ()
      (getObject env (n + 1) scan ⟨ms.text ++ closeBrace :: rest, p, d⟩) := by
  rw [Tree.doc, Doc.deliver, getObject]
  apply passes_invoke_bind
  intro d₁
  rw [bind_ok (enterObject_ok _ _ _ hp)]
  refine (hms d₁).bind fun q d₂ hq => ?_
  rw [leaveObject_eq _ _ _ _ _ (by rw [hq]; exact Nat.succ_ne_zero _)]
  refine passes_invoke_bind fun d₃ => passes_pure ?_
  simp only [hq, Nat.add_sub_cancel]

end Rules

theorem exceptBind_eq_ok {ε α β : Type*} {x : Except ε α} {f : α → Except ε β} {b : β} :
    x.bind f = .ok b ↔ ∃ a, x = .ok a ∧ f a = .ok b := by
  cases x <;> simp [Except.bind]

theorem mapError_eq_ok {ε ε' α : Type*} {x : Except ε α} {f : ε → ε'} {a : α} :
    x.mapError f = .ok a ↔ x = .ok a := by
  cases x <;> simp [Except.mapError]

mutual

/-- A scan and a reader take the same way; the array is scanned before it is read. -/
theorem Tree.getValue_text (env : Env σ) (scan : Bool) (v : Tree) {n : ℕ} (hn : 2 * v.text.length ≤ n) {p : Path}
    (hp : p.depth + v.height ≤ maxNesting) (d : σ) {rest : List Byte} (hr : Ends rest) :
    Passes scan (v.doc.deliver env p d) p.depth d rest () (getValue env n scan ⟨v.text ++ rest, p, d⟩) := by
  have hpos := v.length_text_pos
  obtain ⟨m, rfl⟩ : ∃ m, n = m + 1 := ⟨n - 1, by omega⟩
  cases v with
  | leaf l =>
    rw [Tree.text]
    cases scan with
    | true => exact ⟨p, rfl, l.scans env m p d hr⟩
    | false =>
      rw [l.reads env m p d hr, Tree.doc, Doc.deliver]
      cases l.value with
      | error e => exact passes_error _
      | ok v => exact passes_invoke rfl
  | array vs =>
    rw [Tree.text] at hn ⊢
    rw [Tree.height] at hp
    simp only [List.length_cons, List.length_append, List.length_nil] at hn
    obtain ⟨q, -, hscan⟩ := Trees.getArray_text env true vs (n := m) (by omega) hp d 0 rest
    rw [Nat.zero_add] at hscan
    simp only [List.cons_append, List.append_assoc, List.nil_append, getValue_array, hscan]
    rw [Tree.doc, Doc.deliver]
    apply passes_invoke_bind
    intro d₁
    have hvs := Trees.getArray_text env scan vs (n := m) (by omega)
      (p := p.modify fun node => { node with size := vs.docs.length }) hp d₁ 0 rest
    exact hvs.orBadSyntax.bind fun q d₂ hq => passes_invoke hq
  | object ms =>
    rw [Tree.text] at hn ⊢
    rw [Tree.height] at hp
    simp only [List.length_cons, List.length_append, List.length_nil] at hn
    obtain ⟨k, rfl⟩ : ∃ k, m = k + 1 := ⟨m - 1, by omega⟩
    simp only [List.cons_append, List.append_assoc, List.nil_append, getValue_object]
    refine passes_getObject (by omega) fun d₁ => ?_
    exact Members.getMembers_text env scan ms (by omega) (by dsimp only; omega) d₁ rest

theorem Trees.getArray_text (env : Env σ) (scan : Bool) (vs : Trees) {n : ℕ}
    (hn : 2 * vs.text.length + 1 ≤ n) {p : Path} (hp : p.depth + vs.height ≤ maxNesting) (d : σ) (k : ℕ)
    (rest : List Byte) : Passes scan (vs.docs.deliver env k p d) p.depth d rest (k + vs.docs.length)
      (getArray env n scan k ⟨vs.text ++ closeBracket :: rest, p, d⟩) := by
  obtain ⟨m, rfl⟩ : ∃ m, n = m + 1 := ⟨n - 1, by omega⟩
  cases vs with
  | nil =>
    rw [Trees.text, List.nil_append, getArray_close env m scan rest p d k]
    exact passes_pure rfl
  | cons v vs =>
    have hpos := v.length_text_pos
    obtain ⟨c, cs, hcs, hspace, hcomma, hclose⟩ := v.head
    rw [Trees.text] at hn ⊢
    simp only [List.length_append] at hn
    rw [Trees.height] at hp
    have hv := Tree.getValue_text env scan v (n := m) (by omega)
      (p := p.modify fun node => { node with index := k }) (by simp only [Path.modify]; omega) d
      (vs.ends_sep rest)
    simp only [List.append_assoc]
    rw [Trees.docs, Docs.deliver, Docs.length, hcs, List.cons_append,
      getArray_value env m scan _ p d hspace hcomma hclose, ← List.cons_append, ← hcs]
    refine hv.bind fun q d₁ hdq => ?_
    obtain ⟨l, rfl⟩ : ∃ l, m = l + 1 := ⟨m - 1, by omega⟩
    obtain ⟨m', hm', hsep⟩ := vs.getArray_sep env l scan (k + 1) (vs.text ++ closeBracket :: rest) q d₁
    have hvs := Trees.getArray_text env scan vs (n := m') (by omega) (p := q)
      (by rw [hdq]; simp only [Path.modify]; omega) d₁ (k + 1) rest
    rw [hsep, Nat.add_comm vs.docs.length, ← Nat.add_assoc]
    rwa [hdq] at hvs

theorem Members.getMembers_text (env : Env σ) (scan : Bool) (ms : Members) {n : ℕ}
    (hn : 2 * ms.text.length + 1 ≤ n) {p : Path} (hp : p.depth + ms.height ≤ maxNesting) (d : σ)
    (rest : List Byte) : Passes scan (ms.docs.deliver env p d) p.depth d rest ()
      (getMembers env n scan ⟨ms.text ++ closeBrace :: rest, p, d⟩) := by
  obtain ⟨m, rfl⟩ : ∃ m, n = m + 1 := ⟨n - 1, by omega⟩
  cases ms with
  | nil =>
    rw [Members.text, List.nil_append, getMembers_close env m scan rest p d]
    exact passes_pure rfl
  | cons name v ms =>
    have hpos := v.length_text_pos
    rw [Members.text] at hn ⊢
    simp only [List.length_append, List.length_cons] at hn
    rw [Members.height] at hp
    simp only [List.append_assoc, List.cons_append]
    obtain ⟨str, hstr, hread⟩ := name.exists_getString scan p d
      (colon :: (v.text ++ (ms.sep ++ (ms.text ++ closeBrace :: rest))))
    rw [getMembers_name env _ scan _ p d hread]
    set q₀ := p.modify fun _ => nodeOf env.allowWhitespace str
    refine Passes.congr (r := (env.callback q₀ .name (.string str) d).bind fun d =>
      (v.doc.deliver env q₀ d).bind fun q => ms.docs.deliver env q.1 q.2) (fun h => ?_) ?_
    · rw [Members.docs, DocMembers.deliver, ← hstr h]
      rfl
    apply passes_invoke_bind
    intro d₁
    have hv := Tree.getValue_text env scan v (n := m) (by omega) (p := q₀)
      (by simp only [q₀, Path.modify]; omega) d₁ (ms.ends_sep rest)
    rw [bind_ok (expectColon_cons _ _ _ _)]
    refine hv.bind fun q d₂ hdq => ?_
    obtain ⟨l, rfl⟩ : ∃ l, m = l + 1 := ⟨m - 1, by omega⟩
    obtain ⟨m', hm', hsep⟩ := ms.getMembers_sep env l scan (ms.text ++ closeBrace :: rest) q d₂
    have hms := Members.getMembers_text env scan ms (n := m') (by omega) (p := q)
      (by rw [hdq]; simp only [q₀, Path.modify]; omega) d₂ rest
    rw [hsep]
    rwa [hdq] at hms

end

theorem jsonParse_object (env : Env σ) (ms : Members) (h : ms.height < maxNesting) (d : σ) (rest : List Byte) :
    Agrees ((Tree.object ms).doc.deliver env ⟨0, fun _ => ⟨cstring [], 0, 0, 0⟩⟩ d) rest ()
      (jsonParse env ((Tree.object ms).text ++ rest) d) := by
  rw [Tree.text, jsonParse, if_neg (by simp)]
  simp only [List.cons_append, List.append_assoc, List.nil_append]
  have hlen : 2 * ms.text.length + 1 ≤ 2 * (openBrace :: (ms.text ++ closeBrace :: rest)).length + 1 := by
    simp only [List.length_cons, List.length_append]
    omega
  have hskip := skipWhitespace_cons env.allowWhitespace (show isSpace openBrace = false by decide)
    (ms.text ++ closeBrace :: rest) ⟨0, fun _ => ⟨cstring [], 0, 0, 0⟩⟩ d
  unfold parse
  simp only [bind, EStateM.bind, get, getThe, MonadStateOf.get, EStateM.get, hskip, next, ne_eq,
    not_true_eq_false, if_false]
  refine (passes_getObject (by decide) fun d₁ => ?_ : Passes false _ _ _ _ _ _).1
  exact Members.getMembers_text env false ms hlen (by dsimp only; omega) d₁ rest

end SgxLkl.Json
