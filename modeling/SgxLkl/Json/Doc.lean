import SgxLkl.Json.Print

/-!
# Documents

A document is what the callback is told of a text: the values, the names and how they are nested, but not how
they are written.

* `Doc.deliver`: the callbacks for a document.
-/

namespace SgxLkl.Json

variable {σ : Type}

mutual

/-- A value; one that cannot be read is an error. -/
inductive Doc
  | leaf (v : Except JsonResult Value)
  | array (vs : Docs)
  | object (ms : DocMembers)

inductive Docs
  | nil
  | cons (v : Doc) (vs : Docs)

inductive DocMembers
  | nil
  | cons (name : CString Byte) (v : Doc) (ms : DocMembers)

end

def Docs.length : Docs → ℕ
  | .nil => 0
  | .cons _ vs => vs.length + 1

mutual

/-- The callbacks for a document, with the path that they are shown. -/
def Doc.deliver (env : Env σ) : Doc → Path → σ → Except JsonResult (Path × σ)
  | .leaf v, p, d => do
    let v ← v
    let d ← env.callback p .value v d
    pure (p, d)
  | .array vs, p, d => do
    let p := p.modify fun node => { node with size := vs.length }
    let d ← env.callback p .beginArray (.integer (BitVec.ofNat 64 vs.length)) d
    let (p, d) ← (vs.deliver env 0 p d).mapError fun _ => .badSyntax
    let d ← env.callback p .endArray (.integer (BitVec.ofNat 64 vs.length)) d
    pure (p, d)
  | .object ms, p, d => do
    let d ← env.callback p .beginObject .null d
    let (p, d) ← ms.deliver env { p with depth := p.depth + 1 } d
    let d ← env.callback p .endObject .null d
    pure ({ p with depth := p.depth - 1 }, d)

def Docs.deliver (env : Env σ) : Docs → ℕ → Path → σ → Except JsonResult (Path × σ)
  | .nil, _, p, d => pure (p, d)
  | .cons v vs, k, p, d => do
    let (p, d) ← v.deliver env (p.modify fun node => { node with index := k }) d
    vs.deliver env (k + 1) p d

def DocMembers.deliver (env : Env σ) : DocMembers → Path → σ → Except JsonResult (Path × σ)
  | .nil, p, d => pure (p, d)
  | .cons name v ms, p, d => do
    let p := p.modify fun _ => nodeOf env.allowWhitespace name
    let d ← env.callback p .name (.string name) d
    let (p, d) ← v.deliver env p d
    ms.deliver env p d

end

end SgxLkl.Json
