import SgxLkl.Luks.Metadata

/-!
# Which field a path names

`_json_read_callback` compares the path with one pattern after the other. All patterns but two are of the
form `table.#.names`, and no two of them are the same.

* **`fieldOf_index`**: the field at a path `table.index.names`.
* **`readJson_text`**: reading a text visits its tree; the callbacks only look at the names of the path.
-/

namespace SgxLkl.Luks

open Json List Function

/-! ## Names -/

/-- The names that appear in the patterns with an index. -/
inductive Key
  | keyslots | segments | digests | type | keySize | kdf | time | memory | hash | iterations | cpus | salt
  | af | stripes | area | encryption | offset | size | ivTweak | sectorSize | integrity | journalEncryption
  | journalIntegrity | digest
  deriving DecidableEq

instance : Fintype Key :=
  .ofList [.keyslots, .segments, .digests, .type, .keySize, .kdf, .time, .memory, .hash, .iterations, .cpus,
    .salt, .af, .stripes, .area, .encryption, .offset, .size, .ivTweak, .sectorSize, .integrity,
    .journalEncryption, .journalIntegrity, .digest] fun k => by cases k <;> decide

def Key.text : Key → List Byte
  | .keyslots => bytes "keyslots"
  | .segments => bytes "segments"
  | .digests => bytes "digests"
  | .type => bytes "type"
  | .keySize => bytes "key_size"
  | .kdf => bytes "kdf"
  | .time => bytes "time"
  | .memory => bytes "memory"
  | .hash => bytes "hash"
  | .iterations => bytes "iterations"
  | .cpus => bytes "cpus"
  | .salt => bytes "salt"
  | .af => bytes "af"
  | .stripes => bytes "stripes"
  | .area => bytes "area"
  | .encryption => bytes "encryption"
  | .offset => bytes "offset"
  | .size => bytes "size"
  | .ivTweak => bytes "iv_tweak"
  | .sectorSize => bytes "sector_size"
  | .integrity => bytes "integrity"
  | .journalEncryption => bytes "journal_encryption"
  | .journalIntegrity => bytes "journal_integrity"
  | .digest => bytes "digest"

theorem Key.text_injective : ∀ k l : Key, k.text = l.text → k = l := by decide +kernel

theorem Key.text_ne_hash : ∀ k : Key, k.text ≠ bytes "#" := by decide +kernel

/-- The patterns with an index: the table and the names behind the index. -/
def keyTable : List ((Key × List Key) × Field) :=
  [((.keyslots, [.type]), .keyslotType), ((.keyslots, [.keySize]), .keyslotKeySize),
    ((.keyslots, [.kdf, .type]), .kdfType), ((.keyslots, [.kdf, .time]), .kdfTime),
    ((.keyslots, [.kdf, .memory]), .kdfMemory), ((.keyslots, [.kdf, .hash]), .kdfHash),
    ((.keyslots, [.kdf, .iterations]), .kdfIterations), ((.keyslots, [.kdf, .cpus]), .kdfCpus),
    ((.keyslots, [.kdf, .salt]), .kdfSalt), ((.keyslots, [.af, .type]), .afType),
    ((.keyslots, [.af, .hash]), .afHash), ((.keyslots, [.af, .stripes]), .afStripes),
    ((.keyslots, [.area, .type]), .areaType), ((.keyslots, [.area, .encryption]), .areaEncryption),
    ((.keyslots, [.area, .keySize]), .areaKeySize), ((.keyslots, [.area, .offset]), .areaOffset),
    ((.keyslots, [.area, .size]), .areaSize), ((.segments, [.type]), .segmentType),
    ((.segments, [.offset]), .segmentOffset), ((.segments, [.ivTweak]), .segmentIvTweak),
    ((.segments, [.size]), .segmentSize), ((.segments, [.encryption]), .segmentEncryption),
    ((.segments, [.sectorSize]), .segmentSectorSize), ((.segments, [.integrity, .type]), .integrityType),
    ((.segments, [.integrity, .journalEncryption]), .journalEncryption),
    ((.segments, [.integrity, .journalIntegrity]), .journalIntegrity), ((.digests, [.type]), .digestType),
    ((.digests, [.keyslots]), .digestKeyslots), ((.digests, [.segments]), .digestSegments),
    ((.digests, [.hash]), .digestHash), ((.digests, [.iterations]), .digestIterations),
    ((.digests, [.salt]), .digestSalt), ((.digests, [.digest]), .digestDigest)]

def tokens (r : Key × List Key) : List (List Byte) := r.1.text :: bytes "#" :: r.2.map Key.text

theorem split_patterns : patterns.map (fun r => (split r.1, r.2)) = keyTable.map (fun r => (tokens r.1, r.2)) ++
      [([bytes "config", bytes "json_size"], .configJsonSize),
        ([bytes "config", bytes "keyslots_size"], .configKeyslotsSize)] := by
  decide +kernel

/-! ## Paths -/

def pathOf (ctx : List (CString Byte)) : Path :=
  ⟨ctx.length, fun i => nodeOf true (ctx.getD i (cstring []))⟩

def PathIs (p : Path) (ctx : List (CString Byte)) : Prop :=
  p.depth = ctx.length ∧ ∀ i < ctx.length,
    (p.node i).name = ((pathOf ctx).node i).name ∧ (p.node i).number = ((pathOf ctx).node i).number

def matchNames : List (List Byte) → List (CString Byte) → Bool
  | [], [] => true
  | t :: ts, c :: cs =>
    (if t = bytes "#" then (Json.strtou64 true c).isSome else t = c.chars) && matchNames ts cs
  | _, _ => false

variable {p : Path} {ts : List (List Byte)} {ctx : List (CString Byte)}

theorem matchTokens_isOk {k : ℕ}
    (hlen : ts.length = ctx.length) (h : ∀ i (hi : i < ctx.length), (p.node (k + i)).name = ctx.get ⟨i, hi⟩) :
    (matchTokens true p ts k).isOk = matchNames ts ctx := by
  induction ts generalizing ctx k with
  | nil =>
    obtain rfl := eq_nil_of_length_eq_zero hlen.symm
    rfl
  | cons t ts ih =>
    cases ctx with
    | nil => cases hlen
    | cons c cs =>
      have h0 : (p.node k).name = c := h 0 (Nat.succ_pos _)
      have hrest : (matchTokens true p ts (k + 1)).isOk = matchNames ts cs := by
        refine ih (by simpa using hlen) fun i hi => ?_
        rw [Nat.add_assoc, Nat.add_comm 1 i]
        exact h (i + 1) (Nat.succ_lt_succ hi)
      rw [matchTokens, matchNames, h0, ← hrest]
      by_cases ht : t = bytes "#"
      · rw [if_pos ht, if_pos ht]
        cases Json.strtou64 true c <;> rfl
      · rw [if_neg ht, if_neg ht]
        by_cases hc : t = c.chars
        · rw [if_neg (not_not_intro hc), decide_eq_true hc, Bool.true_and]
        · rw [if_pos hc, decide_eq_false hc]
          rfl

theorem matchNames_length (h : matchNames ts ctx = true) : ts.length = ctx.length := by
  induction ts generalizing ctx with
  | nil =>
    cases ctx with
    | nil => rfl
    | cons c cs => cases h
  | cons t ts ih =>
    cases ctx with
    | nil => cases h
    | cons c cs =>
      rw [matchNames, Bool.and_eq_true] at h
      rw [length_cons, length_cons, ih h.2]

theorem jsonMatch_isOk (hp : PathIs p ctx) {pattern : List Byte} (hpattern : (split pattern).length ≤ maxNesting) :
    (jsonMatch true p pattern).isOk = matchNames (split pattern) ctx := by
  unfold jsonMatch
  rw [if_neg (Nat.not_lt.mpr hpattern), hp.1]
  by_cases hlen : ctx.length = (split pattern).length
  · rw [if_neg (not_not_intro hlen)]
    refine matchTokens_isOk hlen.symm fun i hi => ?_
    rw [Nat.zero_add, (hp.2 i hi).1]
    simp [pathOf, nodeOf, hi]
  · rw [if_pos hlen]
    refine (Bool.eq_false_iff.mpr fun h => hlen ?_).symm
    exact (matchNames_length h).symm

theorem patterns_length : ∀ r ∈ patterns, (split r.1).length ≤ maxNesting := by
  intro r hr
  have hmem : (split r.1, r.2) ∈ patterns.map fun r => (split r.1, r.2) := mem_map_of_mem hr
  have hkeys : ∀ q ∈ keyTable, q.1.2.length ≤ 2 := by decide
  rw [split_patterns, mem_append] at hmem
  obtain hmem | hmem := hmem
  · obtain ⟨q, hq, heq⟩ := mem_map.mp hmem
    rw [← show tokens q.1 = split r.1 from (Prod.mk.inj heq).1]
    have := hkeys q hq
    simp only [tokens, length_cons, length_map, maxNesting]
    omega
  · simp only [mem_cons, Prod.mk.injEq, not_mem_nil, or_false] at hmem
    obtain ⟨h, -⟩ | ⟨h, -⟩ := hmem <;> rw [h] <;> decide

theorem fieldOf_eq (hp : PathIs p ctx) :
    fieldOf p = ((patterns.map fun r => (split r.1, r.2)).find? fun r => matchNames r.1 ctx).map (·.2) := by
  unfold fieldOf
  rw [find?_map, Option.map_map]
  congr 1
  apply find?_congr
  intro r hr
  exact jsonMatch_isOk hp (patterns_length r hr)

/-! ## Fields of tables -/

theorem Key.isPlain_text : ∀ k : Key, isPlain k.text = true := by decide +kernel

def Key.name (k : Key) : CString Byte := ⟨k.text, not_mem_of_isPlain k.isPlain_text⟩

theorem matchNames_keys (ks ls : List Key) : matchNames (ks.map Key.text) (ls.map Key.name) = decide (ks = ls) := by
  induction ks generalizing ls with
  | nil => cases ls <;> rfl
  | cons k ks ih =>
    cases ls with
    | nil => rfl
    | cons l ls =>
      rw [map_cons, map_cons, matchNames, if_neg k.text_ne_hash, ih, ← Bool.decide_and]
      apply decide_eq_decide.mpr
      constructor
      · rintro ⟨h, rfl⟩
        rw [Key.text_injective k l h]
      · intro h
        cases h
        exact ⟨rfl, rfl⟩

theorem fieldOf_index {a : Key} {i : CString Byte} {ls : List Key}
    (hp : PathIs p (a.name :: i :: ls.map Key.name)) (hi : (Json.strtou64 true i).isSome) (hls : ls ≠ []) :
    fieldOf p = (keyTable.find? fun r => r.1 = (a, ls)).map (·.2) := by
  have hconfig : ∀ q : List (List Byte) × Field, q ∈ [([bytes "config", bytes "json_size"], Field.configJsonSize),
      ([bytes "config", bytes "keyslots_size"], .configKeyslotsSize)] →
      ¬ matchNames q.1 (a.name :: i :: ls.map Key.name) = true := by
    intro q hq hmatch
    have hlen := matchNames_length hmatch
    have hpos := length_pos_iff.mpr hls
    simp only [mem_cons, not_mem_nil, or_false] at hq
    obtain rfl | rfl := hq <;>
      simp only [length_cons, length_map, length_nil] at hlen <;> omega
  rw [fieldOf_eq hp, split_patterns, find?_append, find?_eq_none.mpr hconfig, Option.or_none,
    find?_map, Option.map_map]
  congr 1
  apply find?_congr
  intro r _
  simp only [comp_apply, tokens, matchNames, if_neg r.1.1.text_ne_hash, if_true, hi,
    Bool.true_and, matchNames_keys, ← Bool.decide_and]
  apply decide_eq_decide.mpr
  constructor
  · rintro ⟨h, h'⟩
    exact Prod.ext (Key.text_injective _ _ h) h'
  · intro h
    rw [h]
    exact ⟨rfl, rfl⟩

theorem not_matchNames_of_length (hctx : ctx.length ≤ 2) :
    ∀ r ∈ keyTable.map (fun r => (tokens r.1, r.2)), ¬ matchNames r.1 ctx = true := by
  have hkeys : ∀ q ∈ keyTable, 0 < q.1.2.length := by decide
  intro r hr hmatch
  obtain ⟨q, hq, rfl⟩ := mem_map.mp hr
  have hlen := matchNames_length hmatch
  have := hkeys q hq
  simp only [tokens, length_cons, length_map] at hlen
  omega

theorem fieldOf_config {name : CString Byte} (hp : PathIs p [(field "config").name, name]) :
    fieldOf p = if name.chars = bytes "json_size" then some .configJsonSize
      else if name.chars = bytes "keyslots_size" then some .configKeyslotsSize else none := by
  have hne : bytes "config" ≠ bytes "#" := by decide
  have hne₁ : bytes "json_size" ≠ bytes "#" := by decide
  have hne₂ : bytes "keyslots_size" ≠ bytes "#" := by decide
  have hconfig : (field "config").name.chars = bytes "config" := rfl
  rw [fieldOf_eq hp, split_patterns, find?_append,
    find?_eq_none.mpr (not_matchNames_of_length (by simp)), Option.none_or]
  simp only [find?_cons, matchNames, hconfig, if_neg hne, if_neg hne₁, if_neg hne₂, decide_true,
    Bool.true_and, Bool.and_true, find?_nil, eq_comm (a := name.chars)]
  by_cases h₁ : bytes "json_size" = name.chars
  · simp [h₁]
  · by_cases h₂ : bytes "keyslots_size" = name.chars <;> simp [h₁, h₂]

theorem fieldOf_short (hp : PathIs p ctx) (hctx : ctx.length ≤ 1) : fieldOf p = none := by
  have hconfig : ∀ q : List (List Byte) × Field, q ∈ [([bytes "config", bytes "json_size"], Field.configJsonSize),
      ([bytes "config", bytes "keyslots_size"], .configKeyslotsSize)] → ¬ matchNames q.1 ctx = true := by
    intro q hq hmatch
    have hlen := matchNames_length hmatch
    simp only [mem_cons, not_mem_nil, or_false] at hq
    obtain rfl | rfl := hq <;> simp only [length_cons, length_nil] at hlen <;> omega
  rw [fieldOf_eq hp, split_patterns, find?_append,
    find?_eq_none.mpr (not_matchNames_of_length (by omega)), find?_eq_none.mpr hconfig]
  rfl

/-! ## Visiting a tree -/

section Visit

variable (P : Primitives)

def visitValue (ctx : List (CString Byte)) (v : Value) (md : Metadata) : Except JsonResult Metadata :=
  match fieldOf (pathOf ctx) with
  | some field => readField P field v ((pathOf ctx).node 1).number md
  | none => .error .unknownValue

mutual

def visitTree : Tree → List (CString Byte) → Metadata → Except JsonResult Metadata
  | .leaf l, ctx, md => l.value.bind fun v => visitValue P ctx v md
  | .array vs, ctx, md => visitTrees vs ctx md
  | .object ms, ctx, md => visitMembers ms ctx md

def visitTrees : Trees → List (CString Byte) → Metadata → Except JsonResult Metadata
  | .nil, _, md => .ok md
  | .cons v vs, ctx, md => (visitTree v ctx md).bind (visitTrees vs ctx)

def visitMembers : Members → List (CString Byte) → Metadata → Except JsonResult Metadata
  | .nil, _, md => .ok md
  | .cons name v ms, ctx, md => (visitTree v (ctx ++ [name.name]) md).bind (visitMembers ms ctx)

end

variable {P}

/-- The path inside an object at `ctx`. -/
def PathIn (p : Path) (ctx : List (CString Byte)) : Prop :=
  p.depth = ctx.length + 1 ∧ ∀ i < ctx.length,
    (p.node i).name = ((pathOf ctx).node i).name ∧ (p.node i).number = ((pathOf ctx).node i).number

theorem pathIs_pathOf (ctx : List (CString Byte)) : PathIs (pathOf ctx) ctx := ⟨rfl, fun _ _ => ⟨rfl, rfl⟩⟩

variable {p : Path} {ctx : List (CString Byte)} {Q Q' : Path → Prop} {k k' : ℕ}
variable {r : Except JsonResult Metadata} {x : Except JsonResult (Path × ReadData)}
variable {f : Path × ReadData → Except JsonResult (Path × ReadData)}

theorem PathIs.modify (h : PathIs p ctx) {f : Node → Node}
    (hf : ∀ node, (f node).name = node.name ∧ (f node).number = node.number) : PathIs (p.modify f) ctx := by
  refine ⟨h.1, fun i hi => ?_⟩
  unfold Path.modify
  dsimp only
  by_cases hid : i = p.depth - 1
  · subst hid
    rw [update_self, (hf _).1, (hf _).2]
    exact h.2 _ hi
  · rw [update_of_ne hid]
    exact h.2 i hi

theorem PathIn.name (h : PathIn p ctx) (name : CString Byte) :
    PathIs (p.modify fun _ => nodeOf true name) (ctx ++ [name]) := by
  refine ⟨by simpa [Path.modify] using h.1, fun i hi => ?_⟩
  unfold Path.modify pathOf
  dsimp only
  rw [h.1, Nat.add_sub_cancel]
  rw [length_append, length_singleton] at hi
  obtain hlt | rfl := Nat.lt_succ_iff_lt_or_eq.mp hi
  · rw [update_of_ne (Nat.ne_of_lt hlt), getD_append _ _ _ _ hlt]
    exact h.2 i hlt
  · rw [update_self, getD_append_right _ _ _ _ le_rfl, Nat.sub_self]
    exact ⟨rfl, rfl⟩

theorem PathIs.pathIn {name : CString Byte} (h : PathIs p (ctx ++ [name])) : PathIn p ctx := by
  refine ⟨by simpa using h.1, fun i hi => ?_⟩
  have hi' := h.2 i (by rw [length_append]; omega)
  unfold pathOf at hi' ⊢
  dsimp only at hi' ⊢
  rwa [getD_append _ _ _ _ hi] at hi'

theorem jsonReadCallback_value (hp : PathIs p ctx) (v : Value) (md : Metadata) (k : ℕ) :
    jsonReadCallback P p .value v ⟨md, k⟩ = (visitValue P ctx v md).map fun md => ⟨md, k⟩ := by
  have hfield : fieldOf p = fieldOf (pathOf ctx) := by
    rw [fieldOf_eq hp, fieldOf_eq (pathIs_pathOf ctx)]
  unfold jsonReadCallback visitValue
  dsimp only
  rw [hfield]
  by_cases hctx : ctx.length ≤ 1
  · rw [fieldOf_short (pathIs_pathOf ctx) hctx]
    rfl
  · rw [(hp.2 1 (by omega)).2]
    cases fieldOf (pathOf ctx) <;> rfl

/-- The callbacks have done what the visit does, and the path is as `Q` says. -/
def Delivers (Q : Path → Prop) (k : ℕ) (r : Except JsonResult Metadata)
    (x : Except JsonResult (Path × ReadData)) : Prop :=
  match r with
  | .ok md => ∃ p, Q p ∧ x = .ok (p, ⟨md, k⟩)
  | .error _ => ∃ e, x = .error e

theorem Delivers.bind (hx : Delivers Q k r x) {g : Metadata → Except JsonResult Metadata}
    (h : ∀ p md, Q p → Delivers Q' k' (g md) (f (p, ⟨md, k⟩))) : Delivers Q' k' (r.bind g) (x.bind f) := by
  cases r with
  | error e =>
    obtain ⟨e', rfl⟩ := hx
    exact ⟨e', rfl⟩
  | ok md =>
    obtain ⟨p, hp, rfl⟩ := hx
    exact h p md hp

theorem Delivers.andThen (hx : Delivers Q k r x)
    (h : ∀ p md, Q p → ∃ q, Q' q ∧ f (p, ⟨md, k⟩) = .ok (q, ⟨md, k'⟩)) : Delivers Q' k' r (x.bind f) := by
  cases r with
  | error e =>
    obtain ⟨e', rfl⟩ := hx
    exact ⟨e', rfl⟩
  | ok md =>
    obtain ⟨p, hp, rfl⟩ := hx
    exact h p md hp

theorem Delivers.mapError (hx : Delivers Q k r x) (f : JsonResult → JsonResult) :
    Delivers Q k r (x.mapError f) := by
  cases r with
  | error e =>
    obtain ⟨e', rfl⟩ := hx
    exact ⟨f e', rfl⟩
  | ok md =>
    obtain ⟨p, hp, rfl⟩ := hx
    exact ⟨p, hp, rfl⟩

variable (P) in
/-- `luks2_read_hdr` allows whitespace. -/
def readEnv (behind : List Byte) : Env ReadData := ⟨jsonReadCallback P, true, behind⟩

mutual

theorem deliver_visitTree (behind : List Byte) (v : Tree) {p : Path} {ctx : List (CString Byte)}
    (hp : PathIs p ctx) (hv : ctx.length + v.height ≤ maxNesting) (md : Metadata) :
    Delivers (PathIs · ctx) ctx.length (visitTree P v ctx md)
      (v.doc.deliver (readEnv P behind) p ⟨md, ctx.length⟩) := by
  cases v with
  | leaf l =>
    rw [visitTree, Tree.doc, Doc.deliver]
    cases l.value with
    | error e => exact ⟨e, rfl⟩
    | ok v =>
      show Delivers _ _ (visitValue P ctx v md)
        ((jsonReadCallback P p .value v ⟨md, ctx.length⟩).bind fun d => .ok (p, d))
      rw [jsonReadCallback_value hp]
      cases visitValue P ctx v md with
      | error e => exact ⟨e, rfl⟩
      | ok md' => exact ⟨p, hp, rfl⟩
  | array vs =>
    rw [Json.Tree.height] at hv
    rw [visitTree, Tree.doc, Doc.deliver]
    have hp' := hp.modify (f := fun node => { node with size := vs.docs.length }) fun _ => ⟨rfl, rfl⟩
    have hvs := (deliver_visitTrees behind vs hp' hv md 0).mapError fun _ => .badSyntax
    exact hvs.andThen fun q md' hq => ⟨q, hq, rfl⟩
  | object ms =>
    rw [Json.Tree.height] at hv
    rw [visitTree, Tree.doc, Doc.deliver]
    have hbegin : (readEnv P behind).callback p .beginObject .null ⟨md, ctx.length⟩ =
        .ok ⟨md, ctx.length + 1⟩ := if_neg (show ctx.length ≠ maxNesting by omega)
    have hms := deliver_visitMembers behind ms (p := { p with depth := p.depth + 1 })
      ⟨congrArg (· + 1) hp.1, hp.2⟩ (by omega) md
    rw [hbegin]
    refine hms.andThen fun q md' hq => ⟨{ q with depth := q.depth - 1 }, ⟨?_, hq.2⟩, rfl⟩
    rw [hq.1, Nat.add_sub_cancel]

theorem deliver_visitTrees (behind : List Byte) (vs : Trees) {p : Path} {ctx : List (CString Byte)}
    (hp : PathIs p ctx) (hv : ctx.length + vs.height ≤ maxNesting) (md : Metadata) (k : ℕ) :
    Delivers (PathIs · ctx) ctx.length (visitTrees P vs ctx md)
      (vs.docs.deliver (readEnv P behind) k p ⟨md, ctx.length⟩) := by
  cases vs with
  | nil => exact ⟨p, hp, rfl⟩
  | cons v vs =>
    rw [Trees.height] at hv
    rw [visitTrees, Trees.docs, Docs.deliver]
    have hp' := hp.modify (f := fun node => { node with index := k }) fun _ => ⟨rfl, rfl⟩
    exact (deliver_visitTree behind v hp' (by omega) md).bind fun q md' hq =>
      deliver_visitTrees behind vs hq (by omega) md' (k + 1)

theorem deliver_visitMembers (behind : List Byte) (ms : Members) {p : Path} {ctx : List (CString Byte)}
    (hp : PathIn p ctx) (hv : ctx.length + 1 + ms.height ≤ maxNesting) (md : Metadata) :
    Delivers (PathIn · ctx) (ctx.length + 1) (visitMembers P ms ctx md)
      (ms.docs.deliver (readEnv P behind) p ⟨md, ctx.length + 1⟩) := by
  cases ms with
  | nil => exact ⟨p, hp, rfl⟩
  | cons name v ms =>
    rw [Members.height] at hv
    rw [visitMembers, Members.docs, DocMembers.deliver]
    have hlen : (ctx ++ [name.name]).length = ctx.length + 1 := length_append
    have hvisit := deliver_visitTree behind v (hp.name name.name) (by rw [hlen]; omega) md
    rw [hlen] at hvisit
    exact hvisit.bind fun q md' hq => deliver_visitMembers behind ms hq.pathIn (by omega) md'

end

theorem readJson_text (behind : List Byte) {ms : Members} (h : ms.height < maxNesting) (rest : List Byte) :
    readJson P behind ((Tree.object ms).text ++ rest) = (visitMembers P ms [] {}).toOption := by
  have hparse := jsonParse_object (readEnv P behind) ms h ⟨{}, 0⟩ rest
  have hpath : PathIs ⟨0, fun _ => ⟨cstring [], 0, 0, 0⟩⟩ [] :=
    ⟨rfl, fun i hi => absurd hi (Nat.not_lt_zero i)⟩
  have hvisit := deliver_visitTree (P := P) behind (.object ms) hpath
    (by rw [Json.Tree.height, length_nil]; omega) {}
  rw [visitTree] at hvisit
  unfold readJson
  cases hr : visitMembers P ms [] {} with
  | error e =>
    rw [hr] at hvisit
    obtain ⟨e', he'⟩ := hvisit
    rw [length_nil] at he'
    rw [he'] at hparse
    obtain ⟨s, hs⟩ := hparse
    rw [readEnv] at hs
    rw [hs]
    rfl
  | ok md =>
    rw [hr] at hvisit
    obtain ⟨q, -, hq⟩ := hvisit
    rw [length_nil] at hq
    rw [hq, readEnv] at hparse
    rw [show jsonParse _ _ _ = _ from hparse]
    rfl

end Visit

end SgxLkl.Luks
