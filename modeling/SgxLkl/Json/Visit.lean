import SgxLkl.Json.Leaves
import SgxLkl.Json.Doc

/-!
# Visits

A callback that only looks at the names and the indices of the path visits a tree. A visit has no path: it
is told the names and indices on the way to the value, the innermost one first.

* **`Doc.deliver_visit`**: the callbacks of the parser for a document are a visit.
* **`Doc.visit_prod`**: two visits at once.
-/

namespace SgxLkl.Json

open List

variable {σ τ : Type}

/-! ## Crumbs -/

/-- The names and indices on the way to a value. -/
abbrev Crumbs := List (CString Byte × ℕ)

def Crumbs.setIndex (k : ℕ) : Crumbs → Crumbs
  | [] => []
  | c :: cs => (c.1, k) :: cs

def Path.crumbs (p : Path) : ℕ → Crumbs
  | 0 => []
  | n + 1 => ((p.node n).name, (p.node n).index) :: p.crumbs n

variable {p q : Path} {Q Q' : Path → Prop}

theorem Path.crumbs_congr {n : ℕ} (h : ∀ i < n, q.node i = p.node i) : q.crumbs n = p.crumbs n := by
  induction n with
  | zero => rfl
  | succ n ih =>
    rw [Path.crumbs, Path.crumbs, h n (Nat.lt_succ_self n), ih fun i hi => h i (Nat.lt_succ_of_lt hi)]

theorem Path.crumbs_depth (p : Path) (m n : ℕ) : ({ p with depth := m } : Path).crumbs n = p.crumbs n :=
  Path.crumbs_congr fun _ _ => rfl

theorem Path.crumbs_modify (p : Path) (f : Node → Node) {n : ℕ} (hn : n < p.depth) :
    (p.modify f).crumbs n = p.crumbs n :=
  Path.crumbs_congr fun i hi => by
    simp only [Path.modify]
    rw [Function.update_of_ne (by omega)]

theorem Path.crumbs_modify_index (p : Path) (k : ℕ) :
    (p.modify fun node => { node with index := k }).crumbs p.depth =
      Crumbs.setIndex k (p.crumbs p.depth) := by
  cases h : p.depth with
  | zero => rfl
  | succ n =>
    rw [Path.crumbs, Path.crumbs_modify _ _ (by omega), Path.crumbs, Crumbs.setIndex]
    simp [Path.modify, h]

theorem Path.crumbs_modify_size (p : Path) (k n : ℕ) :
    (p.modify fun node => { node with size := k }).crumbs n = p.crumbs n := by
  induction n with
  | zero => rfl
  | succ n ih =>
    rw [Path.crumbs, Path.crumbs, ih]
    simp only [Path.modify, Function.update_apply]
    split_ifs with h <;> simp [h]

/-- The same path up to the index of the last node. -/
def Path.Near (p q : Path) : Prop :=
  q.depth = p.depth ∧ ∀ k, Crumbs.setIndex k (q.crumbs q.depth) = Crumbs.setIndex k (p.crumbs p.depth)

theorem Path.Near.refl (p : Path) : p.Near p := ⟨rfl, fun _ => rfl⟩

theorem Path.Near.trans {s : Path} (h : p.Near q) (h' : q.Near s) : p.Near s :=
  ⟨h'.1.trans h.1, fun k => (h'.2 k).trans (h.2 k)⟩

theorem Path.near_index (p : Path) (k : ℕ) : p.Near (p.modify fun node => { node with index := k }) := by
  refine ⟨rfl, fun l => ?_⟩
  show Crumbs.setIndex l ((p.modify fun node => { node with index := k }).crumbs p.depth) = _
  rw [Path.crumbs_modify_index]
  cases p.crumbs p.depth <;> rfl

theorem Path.near_size (p : Path) (k : ℕ) : p.Near (p.modify fun node => { node with size := k }) :=
  ⟨rfl, fun _ => by rw [Path.crumbs_modify_size]; rfl⟩

theorem Path.Near.crumbs (h : p.Near q) : q.crumbs (p.depth - 1) = p.crumbs (p.depth - 1) := by
  have h0 := h.2 0
  rw [h.1] at h0
  cases hd : p.depth with
  | zero => rfl
  | succ n =>
    rw [hd, Path.crumbs, Path.crumbs, Crumbs.setIndex, Crumbs.setIndex] at h0
    exact (cons.inj h0).2

def Crumbs.names (cs : Crumbs) : List (List Byte) := (cs.map fun c => c.1.chars).reverse

theorem Crumbs.names_setIndex (k : ℕ) (cs : Crumbs) : (Crumbs.setIndex k cs).names = cs.names := by
  cases cs <;> rfl

theorem Path.Near.names (h : p.Near q) : (q.crumbs q.depth).names = (p.crumbs p.depth).names := by
  rw [← Crumbs.names_setIndex 0, h.2 0, Crumbs.names_setIndex]

/-! ## Visits -/

/-- What is done at the values and at the beginning and the end of the containers. -/
structure Visitor (σ : Type) where
  value : Crumbs → Value → σ → Except JsonResult σ
  beginObject : List (List Byte) → σ → Except JsonResult σ
  beginArray : List (List Byte) → Word → σ → Except JsonResult σ
  endArray : List (List Byte) → σ → Except JsonResult σ

mutual

def Doc.visit (f : Visitor σ) : Doc → Crumbs → σ → Except JsonResult σ
  | .leaf v, cs, d => v.bind fun v => f.value cs v d
  | .array vs, cs, d => (f.beginArray cs.names (BitVec.ofNat 64 vs.length) d).bind fun d =>
    ((vs.visit f 0 cs d).mapError fun _ => .badSyntax).bind (f.endArray cs.names)
  | .object ms, cs, d => (f.beginObject cs.names d).bind (ms.visit f cs)

def Docs.visit (f : Visitor σ) : Docs → ℕ → Crumbs → σ → Except JsonResult σ
  | .nil, _, _, d => .ok d
  | .cons v vs, k, cs, d => (v.visit f (cs.setIndex k) d).bind (vs.visit f (k + 1) cs)

def DocMembers.visit (f : Visitor σ) : DocMembers → Crumbs → σ → Except JsonResult σ
  | .nil, _, d => .ok d
  | .cons name v ms, cs, d => (v.visit f ((name, 0) :: cs) d).bind (ms.visit f cs)

end

/-- The callback is a visit. -/
structure Env.Follows (env : Env σ) (f : Visitor σ) : Prop where
  value : ∀ p v d, env.callback p .value v d = f.value (p.crumbs p.depth) v d
  beginObject : ∀ p d, env.callback p .beginObject .null d = f.beginObject (p.crumbs p.depth).names d
  beginArray : ∀ p n d, env.callback p .beginArray (.integer n) d = f.beginArray (p.crumbs p.depth).names n d
  endArray : ∀ p v d, env.callback p .endArray v d = f.endArray (p.crumbs p.depth).names d
  name : ∀ p v d, env.callback p .name v d = .ok d
  endObject : ∀ p v d, env.callback p .endObject v d = .ok d

/-- The callbacks have the result of a visit, and end at a path as it is said. -/
def Visits (Q : Path → Prop) (r : Except JsonResult σ) (x : Except JsonResult (Path × σ)) : Prop :=
  match r with
  | .ok d => ∃ q, x = .ok (q, d) ∧ Q q
  | .error e => x = .error e

variable {r : Except JsonResult σ} {x : Except JsonResult (Path × σ)}

theorem Visits.bind {g : σ → Except JsonResult σ} {h : Path × σ → Except JsonResult (Path × σ)} (hx : Visits Q r x)
    (hgh : ∀ q d, Q q → Visits Q' (g d) (h (q, d))) : Visits Q' (r.bind g) (x.bind h) := by
  cases r with
  | error e =>
    obtain rfl : x = .error e := hx
    rfl
  | ok d =>
    obtain ⟨q, rfl, hq⟩ := hx
    exact hgh q d hq

theorem Visits.mono (hx : Visits Q r x) (h : ∀ q, Q q → Q' q) : Visits Q' r x := by
  cases r with
  | error e => exact hx
  | ok d =>
    obtain ⟨q, hq, hQ⟩ := hx
    exact ⟨q, hq, h q hQ⟩

theorem Visits.mapError
    (hx : Visits Q r x) (g : JsonResult → JsonResult) : Visits Q (r.mapError g) (x.mapError g) := by
  cases r with
  | error e =>
    obtain rfl : x = .error e := hx
    rfl
  | ok d =>
    obtain ⟨q, rfl, hq⟩ := hx
    exact ⟨q, rfl, hq⟩

theorem visits_callback (hp : Q p) : Visits Q r (r.bind fun d => .ok (p, d)) := by
  cases r with
  | error e => rfl
  | ok d => exact ⟨p, rfl, hp⟩

theorem Docs.visit_congr (vs : Docs) (f : Visitor σ) (k : ℕ) {cs cs' : Crumbs}
    (h : ∀ k, Crumbs.setIndex k cs = Crumbs.setIndex k cs') : vs.visit f k cs = vs.visit f k cs' := by
  match vs with
  | .nil => rfl
  | .cons v vs =>
    funext d
    rw [Docs.visit, Docs.visit, h k, Docs.visit_congr vs f (k + 1) h]

mutual

theorem Doc.deliver_visit {env : Env σ} {f : Visitor σ} (hf : env.Follows f) (v : Doc) (p : Path) (d : σ) :
    Visits p.Near (v.visit f (p.crumbs p.depth) d) (v.deliver env p d) := by
  cases v with
  | leaf l =>
    rw [Doc.visit, Doc.deliver]
    cases l with
    | error e => rfl
    | ok v =>
      show Visits p.Near (f.value (p.crumbs p.depth) v d)
        ((env.callback p .value v d).bind fun d => .ok (p, d))
      rw [← hf.value]
      exact visits_callback (Path.Near.refl p)
  | array vs =>
    rw [Doc.visit, Doc.deliver]
    have hsize := p.near_size vs.length
    rw [← hsize.names, ← hf.beginArray]
    cases env.callback (p.modify fun node => { node with size := vs.length }) .beginArray
        (.integer (BitVec.ofNat 64 vs.length)) d with
    | error e => rfl
    | ok d₁ =>
      have hvs := Docs.deliver_visit hf vs 0 (p.modify fun node => { node with size := vs.length }) d₁
      rw [Path.crumbs_modify_size] at hvs
      refine (hvs.mapError _).bind fun q d₂ hq => ?_
      rw [← hq.names, ← hf.endArray q (.integer (BitVec.ofNat 64 vs.length))]
      exact visits_callback (hsize.trans hq)
  | object ms =>
    rw [Doc.visit, Doc.deliver, ← hf.beginObject]
    cases env.callback p .beginObject .null d with
    | error e => rfl
    | ok d₁ =>
      have hms := DocMembers.deliver_visit hf ms { p with depth := p.depth + 1 } (Nat.succ_pos _) d₁
      simp only [Nat.add_sub_cancel, Path.crumbs_depth] at hms
      have hend : DocMembers.visit f ms (p.crumbs p.depth) d₁ =
          (DocMembers.visit f ms (p.crumbs p.depth) d₁).bind .ok := by
        cases DocMembers.visit f ms (p.crumbs p.depth) d₁ <;> rfl
      show Visits p.Near (DocMembers.visit f ms (p.crumbs p.depth) d₁) _
      rw [hend]
      refine hms.bind fun q d₂ hq => ?_
      obtain ⟨hdepth, hcrumbs⟩ := hq
      simp only [hf.endObject]
      refine ⟨{ q with depth := q.depth - 1 }, rfl, ?_, fun k => ?_⟩
      · simp only [hdepth, Nat.add_sub_cancel]
      · simp only [hdepth, Nat.add_sub_cancel, Path.crumbs_depth, hcrumbs]

theorem Docs.deliver_visit {env : Env σ} {f : Visitor σ} (hf : env.Follows f) (vs : Docs) (k : ℕ) (p : Path)
    (d : σ) : Visits p.Near (vs.visit f k (p.crumbs p.depth) d) (vs.deliver env k p d) := by
  cases vs with
  | nil => exact ⟨p, rfl, Path.Near.refl p⟩
  | cons v vs =>
    rw [Docs.visit, Docs.deliver]
    have hindex := p.near_index k
    have hv := Doc.deliver_visit hf v (p.modify fun node => { node with index := k }) d
    rw [← Path.crumbs_modify_index]
    refine hv.bind fun q d₁ hq => ?_
    have hnear := hindex.trans hq
    have hvs := Docs.deliver_visit hf vs (k + 1) q d₁
    rw [vs.visit_congr f (k + 1) hnear.2] at hvs
    exact hvs.mono fun q' hq' => hnear.trans hq'

theorem DocMembers.deliver_visit {env : Env σ} {f : Visitor σ} (hf : env.Follows f) (ms : DocMembers) (p : Path)
    (hp : 0 < p.depth) (d : σ) :
    Visits (fun q => q.depth = p.depth ∧ q.crumbs (p.depth - 1) = p.crumbs (p.depth - 1))
      (ms.visit f (p.crumbs (p.depth - 1)) d) (ms.deliver env p d) := by
  cases ms with
  | nil => exact ⟨p, rfl, rfl, rfl⟩
  | cons name v ms =>
    rw [DocMembers.visit, DocMembers.deliver]
    simp only [hf.name]
    have hnamed : (p.modify fun _ => nodeOf env.allowWhitespace name).crumbs p.depth =
        (name, 0) :: p.crumbs (p.depth - 1) := by
      obtain ⟨n, hn⟩ : ∃ n, p.depth = n + 1 := ⟨p.depth - 1, by omega⟩
      rw [hn, Path.crumbs, Path.crumbs_modify _ _ (by omega), Nat.add_sub_cancel]
      simp [Path.modify, hn, nodeOf]
    have hv := Doc.deliver_visit hf v (p.modify fun _ => nodeOf env.allowWhitespace name) d
    rw [← hnamed]
    refine hv.bind fun q d₁ hq => ?_
    have hdepth : q.depth = p.depth := hq.1
    have hcrumbs : q.crumbs (p.depth - 1) = p.crumbs (p.depth - 1) :=
      hq.crumbs.trans (Path.crumbs_modify _ _ (Nat.sub_lt hp Nat.one_pos))
    have hms := DocMembers.deliver_visit hf ms q (hdepth ▸ hp) d₁
    rw [hdepth, hcrumbs] at hms
    exact hms

end

variable {f : Visitor σ}

/-! ## Two visits at once -/

def both (x : Except JsonResult σ) (y : Except JsonResult τ) : Except JsonResult (σ × τ) :=
  x.bind fun a => y.map fun b => (a, b)

def Visitor.prod (f : Visitor σ) (g : Visitor τ) : Visitor (σ × τ) where
  value cs v d := both (f.value cs v d.1) (g.value cs v d.2)
  beginObject names d := both (f.beginObject names d.1) (g.beginObject names d.2)
  beginArray names n d := both (f.beginArray names n d.1) (g.beginArray names n d.2)
  endArray names d := both (f.endArray names d.1) (g.endArray names d.2)

variable {y : Except JsonResult τ}

theorem both_bind {x : Except JsonResult σ} {f : σ → Except JsonResult σ}
    {g : τ → Except JsonResult τ} {h : σ × τ → Except JsonResult (σ × τ)} {d : σ} {e : τ}
    (hx : x.bind f = .ok d) (hy : y.bind g = .ok e)
    (hh : ∀ a b, f a = .ok d → g b = .ok e → h (a, b) = .ok (d, e)) : (both x y).bind h = .ok (d, e) := by
  cases x with
  | error _ => cases hx
  | ok a =>
    cases y with
    | error _ => cases hy
    | ok b => exact hh a b hx hy

variable {g : Visitor τ}

mutual

theorem Doc.visit_prod (v : Doc) {cs : Crumbs} {d d' : σ} {e e' : τ}
    (hf : v.visit f cs d = .ok d') (hg : v.visit g cs e = .ok e') :
    v.visit (f.prod g) cs (d, e) = .ok (d', e') := by
  cases v with
  | leaf l =>
    rw [Doc.visit] at hf hg ⊢
    cases l with
    | error _ => cases hf
    | ok v =>
      show both (f.value cs v d) (g.value cs v e) = _
      rw [show f.value cs v d = .ok d' from hf, show g.value cs v e = .ok e' from hg]
      rfl
  | array vs =>
    rw [Doc.visit] at hf hg ⊢
    refine both_bind hf hg fun a b ha hb => ?_
    obtain ⟨a₁, hvs, ha₁⟩ := exceptBind_eq_ok.mp ha
    obtain ⟨b₁, hvs', hb₁⟩ := exceptBind_eq_ok.mp hb
    have hprod := Docs.visit_prod vs (mapError_eq_ok.mp hvs) (mapError_eq_ok.mp hvs')
    rw [hprod]
    show both (f.endArray cs.names a₁) (g.endArray cs.names b₁) = _
    rw [ha₁, hb₁]
    rfl
  | object ms =>
    rw [Doc.visit] at hf hg ⊢
    exact both_bind hf hg fun a b ha hb => DocMembers.visit_prod ms ha hb

theorem Docs.visit_prod (vs : Docs) {k : ℕ} {cs : Crumbs} {d d' : σ}
    {e e' : τ} (hf : vs.visit f k cs d = .ok d') (hg : vs.visit g k cs e = .ok e') :
    vs.visit (f.prod g) k cs (d, e) = .ok (d', e') := by
  cases vs with
  | nil =>
    cases hf
    cases hg
    rfl
  | cons v vs =>
    rw [Docs.visit] at hf hg ⊢
    obtain ⟨a, hv, hvs⟩ := exceptBind_eq_ok.mp hf
    obtain ⟨b, hv', hvs'⟩ := exceptBind_eq_ok.mp hg
    rw [Doc.visit_prod v hv hv']
    exact Docs.visit_prod vs hvs hvs'

theorem DocMembers.visit_prod (ms : DocMembers) {cs : Crumbs} {d d' : σ}
    {e e' : τ} (hf : ms.visit f cs d = .ok d') (hg : ms.visit g cs e = .ok e') :
    ms.visit (f.prod g) cs (d, e) = .ok (d', e') := by
  cases ms with
  | nil =>
    cases hf
    cases hg
    rfl
  | cons name v ms =>
    rw [DocMembers.visit] at hf hg ⊢
    obtain ⟨a, hv, hms⟩ := exceptBind_eq_ok.mp hf
    obtain ⟨b, hv', hms'⟩ := exceptBind_eq_ok.mp hg
    rw [Doc.visit_prod v hv hv']
    exact DocMembers.visit_prod ms hms hms'

end

theorem both_fst {x : Except JsonResult σ} {d : σ × τ} (h : both x y = .ok d) : x = .ok d.1 := by
  obtain ⟨a, ha, h⟩ := exceptBind_eq_ok.mp h
  cases y with
  | error e => cases h
  | ok b =>
    cases h
    exact ha

/-! ## A visit in the place of another one -/

/-- What `f` does can be done by `g`, with states in the relation `R`. -/
structure Visitor.Simulates (f : Visitor σ) (g : Visitor τ) (R : σ → τ → Prop) : Prop where
  value : ∀ {cs v d e d'}, R d e → f.value cs v d = .ok d' → ∃ e', g.value cs v e = .ok e' ∧ R d' e'
  beginObject : ∀ {names d e d'}, R d e → f.beginObject names d = .ok d' →
    ∃ e', g.beginObject names e = .ok e' ∧ R d' e'
  beginArray : ∀ {names n d e d'}, R d e → f.beginArray names n d = .ok d' →
    ∃ e', g.beginArray names n e = .ok e' ∧ R d' e'
  endArray : ∀ {names d e d'}, R d e → f.endArray names d = .ok d' → ∃ e', g.endArray names e = .ok e' ∧ R d' e'

variable {R : σ → τ → Prop}

mutual

theorem Doc.visit_simulates (hR : f.Simulates g R) (v : Doc) {cs : Crumbs} {d d' : σ} {e : τ} (hd : R d e)
    (h : v.visit f cs d = .ok d') : ∃ e', v.visit g cs e = .ok e' ∧ R d' e' := by
  cases v with
  | leaf l =>
    rw [Doc.visit] at h ⊢
    obtain ⟨v, rfl, h⟩ := exceptBind_eq_ok.mp h
    exact hR.value hd h
  | array vs =>
    rw [Doc.visit] at h ⊢
    obtain ⟨d₁, hbegin, h⟩ := exceptBind_eq_ok.mp h
    obtain ⟨d₂, hvs, hend⟩ := exceptBind_eq_ok.mp h
    obtain ⟨e₁, hbegin', he₁⟩ := hR.beginArray hd hbegin
    obtain ⟨e₂, hvs', he₂⟩ := Docs.visit_simulates hR vs he₁ (mapError_eq_ok.mp hvs)
    obtain ⟨e₃, hend', he₃⟩ := hR.endArray he₂ hend
    exact ⟨e₃, exceptBind_eq_ok.mpr ⟨e₁, hbegin', exceptBind_eq_ok.mpr ⟨e₂, mapError_eq_ok.mpr hvs', hend'⟩⟩, he₃⟩
  | object ms =>
    rw [Doc.visit] at h ⊢
    obtain ⟨d₁, hbegin, h⟩ := exceptBind_eq_ok.mp h
    obtain ⟨e₁, hbegin', he₁⟩ := hR.beginObject hd hbegin
    obtain ⟨e₂, hms, he₂⟩ := DocMembers.visit_simulates hR ms he₁ h
    exact ⟨e₂, exceptBind_eq_ok.mpr ⟨e₁, hbegin', hms⟩, he₂⟩

theorem Docs.visit_simulates (hR : f.Simulates g R) (vs : Docs) {k : ℕ} {cs : Crumbs} {d d' : σ} {e : τ}
    (hd : R d e) (h : vs.visit f k cs d = .ok d') : ∃ e', vs.visit g k cs e = .ok e' ∧ R d' e' := by
  cases vs with
  | nil =>
    cases h
    exact ⟨e, rfl, hd⟩
  | cons v vs =>
    rw [Docs.visit] at h ⊢
    obtain ⟨d₁, hv, h⟩ := exceptBind_eq_ok.mp h
    obtain ⟨e₁, hv', he₁⟩ := Doc.visit_simulates hR v hd hv
    obtain ⟨e₂, hvs, he₂⟩ := Docs.visit_simulates hR vs he₁ h
    exact ⟨e₂, exceptBind_eq_ok.mpr ⟨e₁, hv', hvs⟩, he₂⟩

theorem DocMembers.visit_simulates (hR : f.Simulates g R) (ms : DocMembers) {cs : Crumbs} {d d' : σ} {e : τ}
    (hd : R d e) (h : ms.visit f cs d = .ok d') : ∃ e', ms.visit g cs e = .ok e' ∧ R d' e' := by
  cases ms with
  | nil =>
    cases h
    exact ⟨e, rfl, hd⟩
  | cons name v ms =>
    rw [DocMembers.visit] at h ⊢
    obtain ⟨d₁, hv, h⟩ := exceptBind_eq_ok.mp h
    obtain ⟨e₁, hv', he₁⟩ := Doc.visit_simulates hR v hd hv
    obtain ⟨e₂, hms, he₂⟩ := DocMembers.visit_simulates hR ms he₁ h
    exact ⟨e₂, exceptBind_eq_ok.mpr ⟨e₁, hv', hms⟩, he₂⟩

end

theorem Visitor.prod_simulates (f : Visitor σ) (g : Visitor τ) :
    (f.prod g).Simulates f fun d e => d.1 = e where
  value hd h := ⟨_, hd ▸ both_fst h, rfl⟩
  beginObject hd h := ⟨_, hd ▸ both_fst h, rfl⟩
  beginArray hd h := ⟨_, hd ▸ both_fst h, rfl⟩
  endArray hd h := ⟨_, hd ▸ both_fst h, rfl⟩

theorem Doc.visit_fst (v : Doc) {cs : Crumbs} {d d' : σ × τ} (h : v.visit (f.prod g) cs d = .ok d') :
    v.visit f cs d.1 = .ok d'.1 := by
  obtain ⟨_, hv, rfl⟩ := v.visit_simulates (f.prod_simulates g) rfl h
  exact hv

/-! ## Patterns without indices -/

theorem matchTokens_isOk_names (allowWhitespace : Bool) (p : Path) {ts : List (List Byte)}
    (h : ∀ t ∈ ts, t ≠ bytes "#") (i : ℕ) : (matchTokens allowWhitespace p ts i).isOk =
      decide (ts = (List.range' i ts.length).map fun i => (p.node i).name.chars) := by
  induction ts generalizing i with
  | nil => rfl
  | cons t ts ih =>
    rw [matchTokens, if_neg (h t mem_cons_self), length_cons, range'_succ, map_cons]
    split_ifs with ht
    · simp only [cons.injEq, ht, false_and, decide_false]
      rfl
    · rw [ih (fun u hu => h u (mem_cons_of_mem t hu)) (i + 1)]
      rw [ne_eq, not_not] at ht
      simp only [cons.injEq, ht, true_and]

theorem Path.names_crumbs (p : Path) (n : ℕ) :
    (p.crumbs n).names = (List.range n).map fun i => (p.node i).name.chars := by
  induction n with
  | zero => rfl
  | succ n ih =>
    rw [Path.crumbs, range_succ, map_append, ← ih]
    simp [Crumbs.names]

theorem jsonMatch_isOk (allowWhitespace : Bool) (p : Path) {pattern : List Byte}
    (h : ∀ t ∈ split pattern, t ≠ bytes "#") (hlen : (split pattern).length ≤ maxNesting) :
    (jsonMatch allowWhitespace p pattern).isOk = decide ((p.crumbs p.depth).names = split pattern) := by
  rw [jsonMatch, if_neg (by omega)]
  split_ifs with hd
  · have hne : (p.crumbs p.depth).names ≠ split pattern := by
      intro heq
      have := congrArg length heq
      rw [Path.names_crumbs, length_map, length_range] at this
      exact hd this
    simp only [hne, decide_false]
    rfl
  · rw [ne_eq, not_not] at hd
    rw [matchTokens_isOk_names allowWhitespace p h 0, Path.names_crumbs, hd, range_eq_range']
    exact decide_eq_decide.mpr eq_comm

end SgxLkl.Json
