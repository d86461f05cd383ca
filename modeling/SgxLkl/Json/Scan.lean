import SgxLkl.Json.Behind

/-!
# Scanning

The parser scans an array to count its elements before it reads them.

* **`scan_of_ok`**: what was read can be scanned; the scan ends at the same place and counts the same elements.
-/

namespace SgxLkl.Json

variable {σ τ α : Type}

/-- The same text is left, at the same depth. -/
def Beside (s : Parser σ) (t : Parser τ) : Prop := s.rest = t.rest ∧ s.path.depth = t.path.depth

/-- The same text is left at the same depth, and the results are equal. -/
def Besides (a : α) (s : Parser σ) (b : α) (t : Parser τ) : Prop := a = b ∧ Beside s t

variable {x : ParseM σ α} {y : ParseM τ α}

theorem sim_bind {β : Type} {f : α → ParseM σ β} {g : α → ParseM τ β}
    (hx : Sim Beside x y Besides) (hf : ∀ a, Sim Beside (f a) (g a) Besides) :
    Sim Beside (x >>= f) (y >>= g) Besides := by
  refine Sim.bind hx fun a b => ?_
  rintro s t ⟨rfl, hst⟩
  exact hf a s t hst

theorem sim_skipWhitespace (allowWhitespace : Bool) :
    Sim Beside (skipWhitespace allowWhitespace : ParseM σ Unit) (skipWhitespace allowWhitespace : ParseM τ Unit)
      Besides := by
  rintro s t ⟨hrest, hdepth⟩ a s' h
  unfold skipWhitespace at h ⊢
  rw [← hrest]
  split_ifs at h ⊢
  · cases h
    exact ⟨_, _, rfl, rfl, rfl, hdepth⟩
  · cases h
    exact ⟨_, _, rfl, rfl, hrest, hdepth⟩

theorem sim_next : Sim Beside (next : ParseM σ Byte) (next : ParseM τ Byte) Besides := by
  rintro s t ⟨hrest, hdepth⟩ a s' h
  unfold next at h ⊢
  rw [← hrest]
  cases hs : s.rest with
  | nil => rw [hs] at h; cases h
  | cons c cs =>
    rw [hs] at h
    cases h
    exact ⟨_, _, rfl, rfl, rfl, hdepth⟩

theorem sim_expect (str : List Byte) :
    Sim Beside (expect str : ParseM σ Unit) (expect str : ParseM τ Unit) Besides := by
  rintro s t ⟨hrest, hdepth⟩ a s' h
  unfold expect at h ⊢
  rw [← hrest]
  split_ifs at h ⊢
  cases h
  exact ⟨_, _, rfl, rfl, rfl, hdepth⟩

theorem sim_invoke (callback : Callback σ) (callback' : Callback τ) (scan : Bool) (reason : Reason) (v v' : Value) :
    Sim Beside (invoke callback scan reason v) (invoke callback' true reason v') Besides := by
  rintro s t hst a s' h
  refine ⟨(), t, rfl, rfl, ?_⟩
  unfold invoke at h
  split_ifs at h
  · cases h
    exact hst
  · split at h
    · cases h
      exact hst
    · cases h

theorem sim_getString (scan : Bool) :
    Sim Beside (getString scan : ParseM σ (CString Byte)) (getString true : ParseM τ (CString Byte))
      fun _ s _ t => Beside s t := by
  rintro s t ⟨hrest, hdepth⟩ a s' h
  unfold getString at h ⊢
  rw [← hrest]
  cases hclose : closingQuote 0 s.rest with
  | none => rw [hclose] at h; cases h
  | some r =>
    rw [hclose] at h
    refine ⟨_, _, rfl, ?_⟩
    dsimp only at h
    split_ifs at h
    · cases h
      exact ⟨rfl, hdepth⟩
    · cases hun : unescape r.1 with
      | error e => rw [hun] at h; cases h
      | ok str =>
        rw [hun] at h
        cases h
        exact ⟨rfl, hdepth⟩

theorem sim_getNumber (allowWhitespace : Bool) (behind : List Byte) :
    Sim Beside (getNumber allowWhitespace behind : ParseM σ Value)
      (getNumber allowWhitespace behind : ParseM τ Value) Besides := by
  rintro s t ⟨hrest, hdepth⟩ a s' h
  unfold getNumber at h ⊢
  rw [← hrest]
  dsimp only at h ⊢
  split_ifs at h ⊢ <;> (cases h; exact ⟨_, _, rfl, rfl, rfl, hdepth⟩)

theorem sim_enterObject : Sim Beside (enterObject : ParseM σ Unit) (enterObject : ParseM τ Unit) Besides := by
  rintro s t ⟨hrest, hdepth⟩ a s' h
  unfold enterObject at h ⊢
  rw [← hdepth]
  dsimp only at h ⊢
  split_ifs at h ⊢
  cases h
  exact ⟨_, _, rfl, rfl, hrest, by rw [hdepth]⟩

theorem sim_modify_path {f : Path → Path} {g : Path → Path} {m : ℕ → ℕ} (hf : ∀ p, (f p).depth = m p.depth)
    (hg : ∀ p, (g p).depth = m p.depth) :
    Sim Beside (modify fun s => { s with path := f s.path } : ParseM σ PUnit)
      (modify fun s => { s with path := g s.path } : ParseM τ PUnit) Besides := by
  rintro s t ⟨hrest, hdepth⟩ a s' h
  cases h
  exact ⟨_, _, rfl, rfl, hrest, by rw [hf, hg, hdepth]⟩

theorem sim_leaveObject (env : Env σ) (env' : Env τ) (scan : Bool) :
    Sim Beside (leaveObject env scan) (leaveObject env' true) Besides := by
  unfold leaveObject
  refine Sim.get_bind fun s t hst => ?_
  rw [← hst.2]
  split_ifs
  · exact Sim.throw
  · have hpath := sim_modify_path (σ := σ) (τ := τ) (f := fun p => { p with depth := p.depth - 1 })
      (g := fun p => { p with depth := p.depth - 1 }) (m := (· - 1)) (fun _ => rfl) fun _ => rfl
    refine (sim_bind (sim_invoke _ _ _ _ _ _) fun _ => hpath).conseq ?_ fun _ _ _ _ h => h
    rintro _ _ ⟨rfl, rfl⟩
    exact hst

theorem sim_expectColon (allowWhitespace : Bool) :
    Sim Beside (expectColon allowWhitespace : ParseM σ Unit) (expectColon allowWhitespace : ParseM τ Unit)
      Besides := by
  unfold expectColon
  refine sim_bind (sim_skipWhitespace _) fun _ => sim_bind sim_next fun c => ?_
  split_ifs
  · exact Sim.throw
  · exact Sim.pure fun s t hst => ⟨rfl, hst⟩

theorem sim_orBadSyntax {P : Parser σ → Parser τ → Prop}
    {Q : α → Parser σ → α → Parser τ → Prop} (h : Sim P x y Q) : Sim P (orBadSyntax x) (orBadSyntax y) Q := by
  intro s t hst a s' hx
  unfold orBadSyntax at hx
  cases hxs : x s with
  | error e u => rw [hxs] at hx; cases hx
  | ok b u =>
    rw [hxs] at hx
    cases hx
    obtain ⟨b, t', hy, hQ⟩ := h s t hst a s' hxs
    exact ⟨b, t', orBadSyntax_ok hy, hQ⟩

/-! ## Values -/

section

variable (env : Env σ)

/-- With this bound on the recursion, what was read can be scanned. -/
def ScanAt (n : ℕ) : Prop :=
  (∀ scan, Sim Beside (getValue env n scan) (getValue env n true) Besides) ∧
  (∀ scan k, Sim Beside (getArray env n scan k) (getArray env n true k) Besides) ∧
  (∀ scan, Sim Beside (getObject env n scan) (getObject env n true) Besides) ∧
  ∀ scan, Sim Beside (getMembers env n scan) (getMembers env n true) Besides

variable {env}

theorem sim_skip_next {allowWhitespace : Bool} {f g : Parser σ → Byte → ParseM σ α}
    (h : ∀ here here' : Parser σ, Beside here here' → ∀ c, Sim Beside (f here c) (g here' c) Besides) :
    Sim Beside (do skipWhitespace allowWhitespace; let here ← get; let c ← next; f here c)
      (do skipWhitespace allowWhitespace; let here ← get; let c ← next; g here c) Besides := by
  refine sim_bind (sim_skipWhitespace _) fun _ => Sim.get_bind fun here here' hhere => ?_
  refine (sim_bind sim_next fun c => h here here' hhere c).conseq ?_ fun _ _ _ _ h => h
  rintro _ _ ⟨rfl, rfl⟩
  exact hhere

variable {n : ℕ}

theorem scan_getArray (ih : ScanAt env n) (scan : Bool) (k : ℕ) :
    Sim Beside (getArray env (n + 1) scan k) (getArray env (n + 1) true k) Besides := by
  rw [getArray, getArray]
  refine sim_skip_next fun here here' hhere c => ?_
  split_ifs
  · exact ih.2.1 scan k
  · exact Sim.pure fun s t hst => ⟨rfl, hst⟩
  · have hset : Beside { here with path := here.path.modify fun node => { node with index := k } }
        { here' with path := here'.path.modify fun node => { node with index := k } } := hhere
    exact Sim.set_bind hset (sim_bind (ih.1 scan) fun _ => ih.2.1 scan (k + 1))

theorem scan_getObject (ih : ScanAt env n) (scan : Bool) :
    Sim Beside (getObject env (n + 1) scan) (getObject env (n + 1) true) Besides := by
  rw [getObject, getObject]
  refine sim_bind (sim_invoke _ _ _ _ _ _) fun _ => sim_bind sim_enterObject fun _ => ?_
  exact sim_bind (ih.2.2.2 scan) fun _ => sim_leaveObject _ _ _

theorem scan_getMembers (ih : ScanAt env n) (scan : Bool) :
    Sim Beside (getMembers env (n + 1) scan) (getMembers env (n + 1) true) Besides := by
  rw [getMembers, getMembers]
  refine sim_bind (sim_skipWhitespace _) fun _ => sim_bind sim_next fun c => ?_
  split_ifs
  · refine Sim.bind (sim_getString scan) fun name name' => ?_
    have hname : Sim Beside
        (modify fun s => { s with path := s.path.modify fun _ => nodeOf env.allowWhitespace name } : ParseM σ _)
        (modify fun s => { s with path := s.path.modify fun _ => nodeOf env.allowWhitespace name' } : ParseM σ _)
        Besides :=
      sim_modify_path (f := fun p => p.modify fun _ => nodeOf env.allowWhitespace name)
        (g := fun p => p.modify fun _ => nodeOf env.allowWhitespace name') (m := id) (fun _ => rfl) fun _ => rfl
    refine sim_bind hname fun _ => sim_bind (sim_invoke _ _ _ _ _ _) fun _ => ?_
    exact sim_bind (sim_expectColon _) fun _ => sim_bind (ih.1 scan) fun _ => ih.2.2.2 scan
  · exact Sim.pure fun s t hst => ⟨rfl, hst⟩
  · exact ih.2.2.2 scan

theorem scan_getValue (ih : ScanAt env n) (scan : Bool) :
    Sim Beside (getValue env (n + 1) scan) (getValue env (n + 1) true) Besides := by
  rw [getValue, getValue]
  refine sim_skip_next fun here here' hhere c => ?_
  cases lead (toLower c) with
  | false | null | true => exact sim_bind (sim_expect _) fun _ => sim_invoke _ _ _ _ _ _
  | object => exact ih.2.2.1 scan
  | string =>
    exact Sim.bind (sim_orBadSyntax (sim_getString scan)) fun _ _ => sim_invoke _ _ _ _ _ _
  | number =>
    exact Sim.set_bind hhere (sim_bind (sim_getNumber _ _) fun _ => sim_invoke _ _ _ _ _ _)
  | array =>
    refine Sim.get_bind fun s t hst => ?_
    cases hscan : getArray env n true 0 s with
    | error e u => exact Sim.throw
    | ok size u =>
      obtain ⟨size', u', hscan', rfl, -⟩ := ih.2.1 true 0 s t hst size u hscan
      rw [hscan']
      have hset : Beside { s with path := s.path.modify fun node => { node with size := size } }
          { t with path := t.path.modify fun node => { node with size := size } } := hst
      refine Sim.set_bind hset (sim_bind (sim_invoke _ _ _ _ _ _) fun _ => ?_)
      exact sim_bind (sim_orBadSyntax (ih.2.1 scan 0)) fun _ => sim_invoke _ _ _ _ _ _

theorem scan_of_ok (n : ℕ) : ScanAt env n := by
  induction n with
  | zero =>
    refine ⟨fun _ => ?_, fun _ _ => ?_, fun _ => ?_, fun _ => ?_⟩
    · rw [getValue]; exact Sim.throw
    · rw [getArray]; exact Sim.throw
    · rw [getObject]; exact Sim.throw
    · rw [getMembers]; exact Sim.throw
  | succ n ih => exact ⟨scan_getValue ih, scan_getArray ih, scan_getObject ih, scan_getMembers ih⟩

theorem getArray_count {size m : ℕ} {s t s' u : Parser σ} (hst : Beside s t)
    (hread : getArray env n false 0 s = .ok m s') (hscan : getArray env n true 0 t = .ok size u) : m = size := by
  obtain ⟨size', u', hscan', rfl, -⟩ := (scan_of_ok n).2.1 false 0 s t hst m s' hread
  rw [hscan] at hscan'
  cases hscan'
  rfl

end

end SgxLkl.Json
