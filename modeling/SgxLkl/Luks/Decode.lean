import SgxLkl.Luks.Fields

/-!
# The metadata is read back

* **`readJson_toJson`**: the metadata is read back.
-/

namespace SgxLkl.Luks

open Json List Function Except

variable {P : Primitives}

/-! ## Single values -/

theorem digitsValue_decimalLoop {k x : ℕ} (hk : x < k) (acc : List Byte) : digitsValue (decimalLoop k x acc) =
      acc.foldl (fun x c => x * 10 + (c - 0x30).toNat) x := by
  induction k generalizing x acc with
  | zero => omega
  | succ k ih =>
    have hd := digit_value _ (Nat.mod_lt x (show 0 < 10 by decide))
    unfold decimalLoop
    dsimp only
    split_ifs with h
    · rw [digitsValue, foldl_cons, hd]
      congr 1
      omega
    · rw [ih (by omega), foldl_cons, hd]
      congr 1
      omega

theorem strtou64_decimalString {x : ℕ} (hx : x < 2 ^ 64) :
    strtou64 (decimalString x) = some (BitVec.ofNat 64 x) := by
  obtain ⟨c, cs, hcs, hc⟩ := decimal_eq_cons x
  obtain ⟨hspace, hplus, hminus, -⟩ := isDigit_facts c hc
  have hsign : readSign ((decimal x).dropWhile isSpace) = (false, decimal x) := by
    rw [hcs, dropWhile_cons_of_neg (by simp [hspace]), readSign, if_neg hplus, if_neg hminus]
  have htake : (decimal x).takeWhile isDigit = decimal x :=
    takeWhile_eq_self_iff.mpr fun c hc => isDigit_of_mem_decimal hc
  have hdrop : (decimal x).dropWhile isDigit = [] :=
    dropWhile_eq_nil_iff.mpr fun c hc => isDigit_of_mem_decimal hc
  have hvalue : digitsValue (decimal x) = x := digitsValue_decimalLoop (Nat.lt_succ_self x) []
  unfold strtou64 strtoull
  rw [show (decimalString x).chars = decimal x from rfl]
  simp only [hsign, htake, hdrop, hvalue]
  rw [if_neg (by simp [hcs]), if_neg (Nat.not_le.mpr hx)]
  rfl

section

variable {α : Type} {n : ℕ}

theorem toNat_ofNat_fin (hn : n < 2 ^ 64) (i : Fin n) : (BitVec.ofNat 64 (i : ℕ)).toNat = i := by
  rw [BitVec.toNat_ofNat, Nat.mod_eq_of_lt (i.isLt.trans hn)]

theorem stringAt_fin (hn : n < 2 ^ 64) (s : CString Byte) (i : Fin n)
    (f : Fin n → CString Byte → Except JsonResult α) : stringAt (.string s) (BitVec.ofNat 64 i) f = f i s := by
  unfold stringAt
  simp only [toNat_ofNat_fin hn, i.isLt, dif_pos, Fin.eta]

theorem integerAt_fin (hn : n < 2 ^ 64) (x : Word) (i : Fin n) (f : Fin n → Word → α) :
    integerAt (.integer x) (BitVec.ofNat 64 i) f = .ok (f i x) := by
  unfold integerAt
  simp only [toNat_ofNat_fin hn, i.isLt, dif_pos, Fin.eta]

theorem copyStr_toCString (s : Str) (f : Str → α) : copyStr s.toCString f = .ok (f s) := by
  unfold copyStr
  rw [if_neg (Nat.not_le.mpr (show s.toCString.length < 32 from s.fits)), strlcpy_toCString]

theorem copyU64_decimalString (x : Word) (f : Word → α) : copyU64 (decimalString x.toNat) f = .ok (f x) := by
  unfold copyU64
  rw [strtou64_decimalString x.isLt, BitVec.ofNat_toNat, BitVec.setWidth_eq]

theorem copyBase64_base64String {k : ℕ} {data : List Byte} {m : Option ℕ} (hm : m = some data.length)
    (hdata : data.length ≤ k) (old : List.Vector Byte k) (f : List.Vector Byte k → α) :
    copyBase64 P m (base64String P data) old f = .ok (f (toVector k (data ++ old.toList.drop data.length))) := by
  subst hm
  unfold copyBase64
  rw [show (base64String P data).chars = P.base64Encode data from rfl, P.base64Decode_base64Encode]
  simp only
  rw [if_neg (by simp only [ne_eq, not_true_eq_false, or_false]; omega)]

theorem copyIndex_decimalString (hn : n < 2 ^ 64) (i : Fin n) (old : Fin n → Bool) (f : (Fin n → Bool) → α) :
    copyIndex (decimalString i) old f = .ok (f (Function.update old i true)) := by
  unfold copyIndex
  rw [strtou64_decimalString (i.isLt.trans hn)]
  simp only [toNat_ofNat_fin hn, i.isLt, dif_pos, Fin.eta]

end

/-! ## Members -/

/-- The names on the way to a field of a table's entry. -/
def indexPath (a : Key) (i : ℕ) (ls : List Key) : List (CString Byte) :=
  a.name :: decimalString i :: ls.map Key.name

def Names (a : Key) (ls : List Key) (f : Field) : Prop :=
  ls ≠ [] ∧ (keyTable.find? fun r => r.1 = (a, ls)).map (·.2) = some f

instance (a : Key) (ls : List Key) (f : Field) : Decidable (Names a ls f) :=
  inferInstanceAs (Decidable (_ ∧ _))

section

variable {ctx ctx' : List (CString Byte)} {md md' : Metadata} {r : Except JsonResult Metadata}

theorem visit_cons {name : Name} {v : Tree} {ms : List (Name × Tree)} (hctx : ctx ++ [name.name] = ctx')
    (h : visitTree P v ctx' md = .ok md') (hrest : visitMembers P (.ofList ms) ctx md' = r) :
    visitMembers P (.ofList ((name, v) :: ms)) ctx md = r := by
  subst hctx
  rw [Members.ofList, visitMembers, h]
  exact hrest

theorem visit_nil : visitMembers P (.ofList []) ctx md = .ok md := by
  rw [Members.ofList, visitMembers]

theorem visit_object {ms : Members} : visitTree P (.object ms) ctx md = visitMembers P ms ctx md := by
  rw [visitTree]

theorem visit_leaf {a : Key} {ls : List Key} {f : Field} {i : ℕ} {l : Leaf} {v : Value}
    (hf : Names a ls f) (hi : i < 2 ^ 64) (hl : l.value = .ok v) :
    visitTree P (.leaf l) (indexPath a i ls) md = readField P f v (BitVec.ofNat 64 i) md := by
  have hnumber : Json.strtou64 true (decimalString i) = some (BitVec.ofNat 64 i) :=
    Json.strtou64_decimalString true hi
  have hfield : fieldOf (pathOf (indexPath a i ls)) = some f := by
    rw [indexPath, fieldOf_index (pathIs_pathOf _) (by rw [hnumber]; rfl) hf.1, hf.2]
  have hnode : ((pathOf (indexPath a i ls)).node 1).number = BitVec.ofNat 64 i := by
    have hnode : (pathOf (indexPath a i ls)).node 1 = nodeOf true (decimalString i) := rfl
    rw [hnode, nodeOf, hnumber, Option.getD_some]
  rw [visitTree, hl]
  dsimp only [Except.bind]
  unfold visitValue
  rw [hfield, hnode]

end

def Str.Readable (s : Str) : Prop := s.chars.all readable = true

theorem value_putStr {s : Str} (hs : s.Readable) : (stringLeaf s.toCString).value = .ok (.string s.toCString) := by
  rw [value_stringLeaf, if_pos (show s.toCString.chars.all readable = true from hs)]

theorem value_putBase64 (data : List Byte) :
    (stringLeaf (base64String P data)).value = .ok (.string (base64String P data)) := by
  have hall : (base64String P data).chars.all readable = true := by
    apply all_eq_true.mpr
    intro c hc
    simp [readable, P.isPrint_base64Encode data c hc]
  rw [value_stringLeaf, if_pos hall]

theorem mem_setBits {n : ℕ} {f : Fin n → Bool} {j : Fin n} : j ∈ setBits f ↔ f j = true := by
  unfold setBits
  rw [mem_filter]
  exact and_iff_right (mem_finRange j)

/-! ## Tables -/

/-- One of the tables of the metadata. -/
structure Table (α : Type) (n : ℕ) where
  key : Key
  get : Metadata → Fin n → α
  put : Metadata → (Fin n → α) → Metadata
  get_put : ∀ md g, get (put md g) = g
  put_put : ∀ md g h, put (put md g) h = put md h

namespace Table

variable {α : Type} {n : ℕ} (T : Table α n)

def set (md : Metadata) (i : Fin n) (x : α) : Metadata := T.put md (Function.update (T.get md) i x)

variable (md : Metadata) (i : Fin n) (x y : α)

@[simp] theorem get_set : T.get (T.set md i x) i = x := by
  unfold set
  rw [T.get_put, update_self]

@[simp] theorem set_set : T.set (T.set md i x) i y = T.set md i y := by
  unfold set
  rw [T.get_put, T.put_put, update_idem]

variable {md i x} (hn : n < 2 ^ 64)

include hn

theorem visit_str (ls : List Key) (f : Field) (g : α → Str → α) {s : Str} (hs : s.Readable) (hf : Names T.key ls f := by decide)
    (hg : ∀ v k md, readField P f v k md =
      stringAt v k fun i s => copyStr s fun y => T.set md i (g (T.get md i) y) := by intros; rfl) :
    visitTree P (putStr s) (indexPath T.key i ls) (T.set md i x) = .ok (T.set md i (g x s)) := by
  rw [putStr, visit_leaf hf (i.isLt.trans hn) (value_putStr hs), hg, stringAt_fin hn, copyStr_toCString,
    T.get_set, T.set_set]

/-- A field that may only hold the text `lit`. -/
theorem visit_const (ls : List Key) (f : Field) (g : α → Str → α) {s : Str} {lit : List Byte} {e : JsonResult}
    (hs : s.chars = lit) (hlit : lit.all readable = true := by decide) (hf : Names T.key ls f := by decide)
    (hg : ∀ v k md, readField P f v k md = stringAt v k fun i s => if s.chars ≠ lit then .error e
      else copyStr s fun y => T.set md i (g (T.get md i) y) := by intros; rfl) :
    visitTree P (putStr s) (indexPath T.key i ls) (T.set md i x) = .ok (T.set md i (g x s)) := by
  rw [putStr, visit_leaf hf (i.isLt.trans hn) (value_putStr (by rwa [Str.Readable, hs])), hg,
    stringAt_fin hn, if_neg (not_not.mpr (show s.toCString.chars = _ from hs)), copyStr_toCString, T.get_set, T.set_set]

theorem visit_int (ls : List Key) (f : Field) (g : α → Word → α) {w : Word} (hf : Names T.key ls f := by decide)
    (hg : ∀ v k md, readField P f v k md = integerAt v k fun i y => T.set md i (g (T.get md i) y) := by intros; rfl) :
    visitTree P (putNumber w) (indexPath T.key i ls) (T.set md i x) = .ok (T.set md i (g x w)) := by
  rw [putNumber, visit_leaf hf (i.isLt.trans hn) rfl, hg, integerAt_fin hn, T.get_set, T.set_set]

theorem visit_u64 (ls : List Key) (f : Field) (g : α → Word → α) {w : Word} (hf : Names T.key ls f := by decide)
    (hg : ∀ v k md, readField P f v k md =
      stringAt v k fun i s => copyU64 s fun y => T.set md i (g (T.get md i) y) := by intros; rfl) :
    visitTree P (putQuoted w.toNat) (indexPath T.key i ls) (T.set md i x) = .ok (T.set md i (g x w)) := by
  rw [putQuoted, visit_leaf hf (i.isLt.trans hn) (value_plainLeaf _ _), hg, stringAt_fin hn,
    copyU64_decimalString, T.get_set, T.set_set]

theorem visit_salt (ls : List Key) (f : Field) (old : α → List.Vector Byte 32)
    (g : α → List.Vector Byte 32 → α) {salt : List.Vector Byte 32} (hf : Names T.key ls f := by decide)
    (hg : ∀ v k md, readField P f v k md = stringAt v k fun i s =>
      copyBase64 P (some 32) s (old (T.get md i)) fun y => T.set md i (g (T.get md i) y) := by intros; rfl) :
    visitTree P (putBase64 P salt.toList) (indexPath T.key i ls) (T.set md i x) =
      .ok (T.set md i (g x salt)) := by
  have hlen := salt.toList_length
  rw [putBase64, visit_leaf hf (i.isLt.trans hn) (value_putBase64 _), hg, stringAt_fin hn,
    copyBase64_base64String (by rw [hlen]) (le_of_eq hlen), T.get_set, T.set_set, hlen,
    drop_of_length_le (le_of_eq (old x).toList_length), append_nil, toVector_toList]

theorem visit_flags {m : ℕ} (hm : m < 2 ^ 64) (ls : List Key) (f : Field) (old : α → Fin m → Bool)
    (g : α → (Fin m → Bool) → α) (hf : Names T.key ls f)
    (hold : ∀ x y, old (g x y) = y) (hself : ∀ x, g x (old x) = x) (hgg : ∀ x y z, g (g x y) z = g x z)
    (hg : ∀ v k md, readField P f v k md = stringAt v k fun i s =>
      copyIndex s (old (T.get md i)) fun y => T.set md i (g (T.get md i) y)) (js : List (Fin m)) :
    visitTrees P (.ofList (js.map fun j : Fin m => putQuoted j)) (indexPath T.key i ls) (T.set md i x) =
      .ok (T.set md i (g x fun j => old x j || decide (j ∈ js))) := by
  induction js generalizing x with
  | nil =>
    have hx : (fun j => old x j || decide (j ∈ ([] : List (Fin m)))) = old x := by
      funext j
      simp
    rw [hx, hself, map_nil, Trees.ofList, visitTrees]
  | cons j js ih =>
    have hjs : (fun k => update (old x) j true k || decide (k ∈ js)) =
        fun k => old x k || decide (k ∈ j :: js) := by
      funext k
      by_cases hk : k = j
      · subst hk
        simp
      · simp [hk]
    rw [map_cons, Trees.ofList, visitTrees, putQuoted,
      visit_leaf hf (i.isLt.trans hn) (value_plainLeaf _ _), hg, stringAt_fin hn,
      copyIndex_decimalString hm, T.get_set, T.set_set]
    refine ih.trans ?_
    rw [hold, hgg, hjs]

theorem visit_setBits {m : ℕ} (hm : m < 2 ^ 64) (ls : List Key) (f : Field) (old : α → Fin m → Bool)
    (g : α → (Fin m → Bool) → α) {bits : Fin m → Bool} (hf : Names T.key ls f)
    (hold : ∀ x y, old (g x y) = y) (hself : ∀ x, g x (old x) = x) (hgg : ∀ x y z, g (g x y) z = g x z)
    (hg : ∀ v k md, readField P f v k md = stringAt v k fun i s =>
      copyIndex s (old (T.get md i)) fun y => T.set md i (g (T.get md i) y))
    (hx : old x = fun _ => false) :
    visitTree P (.array (.ofList ((setBits bits).map fun j : Fin m => putQuoted j))) (indexPath T.key i ls)
        (T.set md i x) =
      .ok (T.set md i (g x bits)) := by
  have hbits : (fun j => false || decide (j ∈ setBits bits)) = bits := by
    funext j
    simp only [mem_setBits, Bool.false_or, Bool.decide_eq_true]
  rw [visitTree, T.visit_flags hn hm ls f old g hf hold hself hgg hg, hx, hbits]

omit hn in
theorem visit_entries {f : Fin n → α} {dump : α → Tree} {zero : α} {js : List (Fin n)}
    (hdump : ∀ md, ∀ j ∈ js, visitTree P (dump (f j)) (indexPath T.key j []) (T.set md j zero) =
      .ok (T.set md j (f j))) (hjs : js.Nodup) {g : Fin n → α} (hg : ∀ j ∈ js, g j = zero) :
    visitMembers P (.ofList (js.map fun j : Fin n => (indexName j, dump (f j)))) [T.key.name] (T.put md g) =
      .ok (T.put md fun j => if j ∈ js then f j else g j) := by
  induction js generalizing g with
  | nil =>
    rw [map_nil, visit_nil]
    simp
  | cons j js ih =>
    obtain ⟨hj, hjs⟩ := nodup_cons.mp hjs
    have hzero : T.put md g = T.set (T.put md g) j zero := by
      rw [set, T.get_put, T.put_put, ← hg j (by simp), update_eq_self]
    have hone : T.set (T.put md g) j (f j) = T.put md (update g j (f j)) := by
      rw [set, T.get_put, T.put_put]
    have hrest := ih (fun md k hk => hdump md k (mem_cons_of_mem j hk)) hjs
      (g := update g j (f j)) fun k hk => by
        rw [update_of_ne (ne_of_mem_of_not_mem hk hj)]
        exact hg k (mem_cons_of_mem j hk)
    rw [map_cons]
    refine visit_cons rfl ?_ (hrest.trans ?_)
    · rw [hzero, ← hone]
      exact hdump _ j mem_cons_self
    · congr 2
      funext k
      by_cases hk : k = j
      · subst hk
        simp [hj]
      · simp [hk]

omit hn in
theorem visit_dumpTable (md : Metadata) {f : Fin n → α} {used : α → Bool} {dump : α → Tree} {zero : α}
    (hdump : ∀ md j, used (f j) = true → visitTree P (dump (f j)) (indexPath T.key j []) (T.set md j zero) =
      .ok (T.set md j (f j))) (hunused : ∀ j, used (f j) = false → f j = zero) :
    visitMembers P (dumpTable f used dump) [T.key.name] (T.put md fun _ => zero) = .ok (T.put md f) := by
  have hnodup : (setBits fun j => used (f j)).Nodup := (nodup_finRange n).filter _
  have htable : (fun j => if j ∈ setBits fun j => used (f j) then f j else zero) = f := by
    funext j
    by_cases hj : used (f j) = true
    · rw [if_pos (mem_setBits.mpr hj)]
    · rw [if_neg (fun h => hj (mem_setBits.mp h)), hunused j (by simpa using hj)]
  unfold dumpTable
  rw [T.visit_entries (fun md j hj => hdump md j (mem_setBits.mp hj)) hnodup fun _ _ => rfl, htable]

end Table

/-! ## Key slots -/

def keyslotTable : Table Keyslot numKeyslots where
  key := .keyslots
  get md := md.keyslots
  put md g := { md with keyslots := g }
  get_put _ _ := rfl
  put_put _ _ _ := rfl

section

variable {i : Fin numKeyslots} {md : Metadata} {ks : Keyslot}

theorem numKeyslots_lt : numKeyslots < 2 ^ 64 := by decide

theorem visit_area {area : Area} (ht : area.type.Readable) (he : area.encryption.Readable) :
    visitTree P (.object (.ofList [ (field "type", putStr area.type), (field "encryption", putStr area.encryption),
      (field "key_size", putNumber area.keySize), (field "offset", putQuoted area.offset.toNat),
      (field "size", putQuoted area.size.toNat)])) (indexPath .keyslots i [.area]) (keyslotTable.set md i ks) =
      .ok (keyslotTable.set md i { ks with area := area }) := by
  have hn := numKeyslots_lt
  rw [visit_object]
  refine visit_cons rfl (keyslotTable.visit_str hn [.area, .type] .areaType
    (fun ks x => { ks with area := { ks.area with type := x } }) ht) ?_
  refine visit_cons rfl (keyslotTable.visit_str hn [.area, .encryption] .areaEncryption
    (fun ks x => { ks with area := { ks.area with encryption := x } }) he) ?_
  refine visit_cons rfl (keyslotTable.visit_int hn [.area, .keySize] .areaKeySize
    (fun ks x => { ks with area := { ks.area with keySize := x } })) ?_
  refine visit_cons rfl (keyslotTable.visit_u64 hn [.area, .offset] .areaOffset
    (fun ks x => { ks with area := { ks.area with offset := x } })) ?_
  refine visit_cons rfl (keyslotTable.visit_u64 hn [.area, .size] .areaSize
    (fun ks x => { ks with area := { ks.area with size := x } })) ?_
  exact visit_nil

theorem visit_af {af : Af} (ht : af.type.Readable) (hh : af.hash.Readable) : visitTree P (.object (.ofList [
      (field "type", putStr af.type), (field "hash", putStr af.hash),
      (field "stripes", putNumber af.stripes)])) (indexPath .keyslots i [.af]) (keyslotTable.set md i ks) =
      .ok (keyslotTable.set md i { ks with af := af }) := by
  have hn := numKeyslots_lt
  rw [visit_object]
  refine visit_cons rfl (keyslotTable.visit_str hn [.af, .type] .afType
    (fun ks x => { ks with af := { ks.af with type := x } }) ht) ?_
  refine visit_cons rfl (keyslotTable.visit_str hn [.af, .hash] .afHash
    (fun ks x => { ks with af := { ks.af with hash := x } }) hh) ?_
  refine visit_cons rfl (keyslotTable.visit_int hn [.af, .stripes] .afStripes
    (fun ks x => { ks with af := { ks.af with stripes := x } })) ?_
  exact visit_nil

/-- The costs of the other kind of key derivation are not stored. -/
structure Kdf.Valid (kdf : Kdf) : Prop where
  type : validPbkdfType kdf.type.chars = true
  hash : kdf.hash.Readable
  pbkdf2 : kdf.type.chars = bytes "pbkdf2" → kdf.time = 0 ∧ kdf.memory = 0 ∧ kdf.cpus = 0
  argon2 : kdf.type.chars ≠ bytes "pbkdf2" → kdf.hash = default ∧ kdf.iterations = 0

variable {kdf : Kdf}

theorem Kdf.Valid.eq_pbkdf2 (h : kdf.Valid) (hp : kdf.type.chars = bytes "pbkdf2") :
    { type := kdf.type, salt := kdf.salt, hash := kdf.hash, iterations := kdf.iterations } = kdf := by
  obtain ⟨htime, hmemory, hcpus⟩ := h.pbkdf2 hp
  cases kdf
  cases htime
  cases hmemory
  cases hcpus
  rfl

theorem Kdf.Valid.eq_argon2 (h : kdf.Valid) (hp : kdf.type.chars ≠ bytes "pbkdf2") :
    { type := kdf.type, salt := kdf.salt, time := kdf.time, memory := kdf.memory, cpus := kdf.cpus } =
      kdf := by
  obtain ⟨hhash, hiterations⟩ := h.argon2 hp
  cases kdf
  cases hhash
  cases hiterations
  rfl

theorem readable_of_validPbkdfType {s : Str} (h : validPbkdfType s.chars = true) : s.Readable := by
  unfold Str.Readable
  unfold validPbkdfType at h
  simp only [Bool.or_eq_true, decide_eq_true_eq] at h
  obtain (h | h) | h := h <;> rw [h] <;> decide

theorem visit_kdfType {s : Str} (hs : validPbkdfType s.chars = true) :
    visitTree P (putStr s) (indexPath .keyslots i [.kdf, .type]) (keyslotTable.set md i ks) =
      .ok (keyslotTable.set md i { ks with kdf := { ks.kdf with type := s } }) := by
  have hn := numKeyslots_lt
  have hf : Names .keyslots [.kdf, .type] .kdfType := by decide
  rw [putStr, visit_leaf hf (i.isLt.trans hn) (value_putStr (readable_of_validPbkdfType hs))]
  simp only [readField, readKeyslot]
  rw [stringAt_fin hn, copyStr_toCString]
  show (if validPbkdfType s.chars then _ else _) = _
  rw [if_pos hs]
  show ok (keyslotTable.set (keyslotTable.set md i ks) i
    ((fun ks : Keyslot => { ks with kdf := { ks.kdf with type := s } })
      (keyslotTable.get (keyslotTable.set md i ks) i))) = _
  rw [keyslotTable.get_set, keyslotTable.set_set]

theorem visit_kdf (h : kdf.Valid) (hks : ks.kdf = {}) :
    visitTree P (.object (.ofList ((field "type", putStr kdf.type) :: (dumpKdfCosts kdf ++
      [(field "salt", putBase64 P kdf.salt.toList)])))) (indexPath .keyslots i [.kdf])
        (keyslotTable.set md i ks) = .ok (keyslotTable.set md i { ks with kdf := kdf }) := by
  have hn := numKeyslots_lt
  have hsalt (ks : Keyslot) : visitMembers P (.ofList [(field "salt", putBase64 P kdf.salt.toList)])
      (indexPath .keyslots i [.kdf]) (keyslotTable.set md i ks) =
        .ok (keyslotTable.set md i { ks with kdf := { ks.kdf with salt := kdf.salt } }) :=
    visit_cons rfl (keyslotTable.visit_salt hn [.kdf, .salt] .kdfSalt (·.kdf.salt)
      (fun ks x => { ks with kdf := { ks.kdf with salt := x } })) visit_nil
  rw [visit_object]
  refine visit_cons rfl (visit_kdfType h.type) ?_
  unfold dumpKdfCosts
  split_ifs with hp ha
  · refine visit_cons rfl (keyslotTable.visit_int hn [.kdf, .iterations] .kdfIterations
      (fun ks x => { ks with kdf := { ks.kdf with iterations := x } })) ?_
    refine visit_cons rfl (keyslotTable.visit_str hn [.kdf, .hash] .kdfHash
      (fun ks x => { ks with kdf := { ks.kdf with hash := x } }) h.hash) ?_
    refine (hsalt _).trans ?_
    rw [hks]
    exact congrArg (fun kdf => ok (keyslotTable.set md i { ks with kdf := kdf })) (h.eq_pbkdf2 hp)
  · refine visit_cons rfl (keyslotTable.visit_int hn [.kdf, .time] .kdfTime
      (fun ks x => { ks with kdf := { ks.kdf with time := x } })) ?_
    refine visit_cons rfl (keyslotTable.visit_int hn [.kdf, .memory] .kdfMemory
      (fun ks x => { ks with kdf := { ks.kdf with memory := x } })) ?_
    refine visit_cons rfl (keyslotTable.visit_int hn [.kdf, .cpus] .kdfCpus
      (fun ks x => { ks with kdf := { ks.kdf with cpus := x } })) ?_
    refine (hsalt _).trans ?_
    rw [hks]
    exact congrArg (fun kdf => ok (keyslotTable.set md i { ks with kdf := kdf })) (h.eq_argon2 hp)
  · have htype := h.type
    unfold validPbkdfType at htype
    simp only [Bool.or_eq_true, decide_eq_true_eq] at htype
    tauto

structure Keyslot.Valid (ks : Keyslot) : Prop where
  type : ks.type.Readable
  kdf : ks.kdf.Valid
  afType : ks.af.type.Readable
  afHash : ks.af.hash.Readable
  areaType : ks.area.type.Readable
  encryption : ks.area.encryption.Readable

theorem visit_keyslot (h : ks.Valid) :
    visitTree P (dumpKeyslot P ks) (indexPath .keyslots i []) (keyslotTable.set md i {}) =
      .ok (keyslotTable.set md i ks) := by
  have hn := numKeyslots_lt
  rw [dumpKeyslot, visit_object]
  refine visit_cons rfl (keyslotTable.visit_str hn [.type] .keyslotType
    (fun ks x => { ks with type := x }) h.type) ?_
  refine visit_cons rfl (keyslotTable.visit_int hn [.keySize] .keyslotKeySize
    (fun ks x => { ks with keySize := x })) ?_
  refine visit_cons rfl (visit_kdf h.kdf rfl) ?_
  refine visit_cons rfl (visit_af h.afType h.afHash) ?_
  refine visit_cons rfl (visit_area h.areaType h.encryption) ?_
  exact visit_nil

end

/-! ## Segments -/

def segmentTable : Table Segment numSegments where
  key := .segments
  get md := md.segments
  put md g := { md with segments := g }
  get_put _ _ := rfl
  put_put _ _ _ := rfl

/-- A segment that is read back. Only the journals `none` are known. -/
structure Segment.Valid (seg : Segment) : Prop where
  type : seg.type.Readable
  encryption : seg.encryption.Readable
  integrityType : seg.integrity.type.Readable
  noIntegrity : seg.integrity.type.chars = [] → seg.integrity = {}
  journals : seg.integrity.type.chars ≠ [] → seg.integrity.journalEncryption.chars = bytes "none" ∧
    seg.integrity.journalIntegrity.chars = bytes "none"

section

variable {i : Fin numSegments} {md : Metadata} {seg : Segment}

theorem numSegments_lt : numSegments < 2 ^ 64 := by decide

theorem visit_segmentSize {size : Word} :
    visitTree P (if size = BitVec.allOnes 64 then putLiteral "dynamic" else putQuoted size.toNat)
        (indexPath .segments i [.size]) (segmentTable.set md i seg) =
      .ok (segmentTable.set md i { seg with size := size }) := by
  have hn := numSegments_lt
  have hf : Names .segments [.size] .segmentSize := by decide
  have hset (x : Word) : (segmentTable.set md i seg).setSegment i
      { (segmentTable.set md i seg).segments i with size := x } =
        segmentTable.set md i { seg with size := x } := by
    show segmentTable.set (segmentTable.set md i seg) i
      ((fun seg : Segment => { seg with size := x }) (segmentTable.get (segmentTable.set md i seg) i)) = _
    rw [segmentTable.get_set, segmentTable.set_set]
  split_ifs with hsize
  · unfold putLiteral
    rw [visit_leaf hf (i.isLt.trans hn) (value_plainLeaf _ _)]
    simp only [readField, readSegment]
    rw [stringAt_fin hn, if_pos rfl, hset, hsize]
  · -- a number does not begin with a letter
    have hne : (decimalString size.toNat).chars ≠ bytes "dynamic" := by
      intro heq
      have hmem : ch 'd' ∈ (decimalString size.toNat).chars := by
        rw [heq]
        decide
      exact absurd (isDigit_of_mem_decimal hmem) (by decide)
    rw [putQuoted, visit_leaf hf (i.isLt.trans hn) (value_plainLeaf _ _)]
    simp only [readField, readSegment]
    rw [stringAt_fin hn, if_neg hne, copyU64_decimalString, hset]

theorem visit_segment (h : seg.Valid) :
    visitTree P (dumpSegment seg) (indexPath .segments i []) (segmentTable.set md i {}) =
      .ok (segmentTable.set md i seg) := by
  have hn := numSegments_lt
  rw [dumpSegment, visit_object]
  refine visit_cons rfl (segmentTable.visit_str hn [.type] .segmentType
    (fun seg x => { seg with type := x }) h.type) ?_
  refine visit_cons rfl (segmentTable.visit_u64 hn [.offset] .segmentOffset
    (fun seg x => { seg with offset := x })) ?_
  refine visit_cons rfl (segmentTable.visit_u64 hn [.ivTweak] .segmentIvTweak
    (fun seg x => { seg with ivTweak := x })) ?_
  refine visit_cons rfl visit_segmentSize ?_
  refine visit_cons rfl (segmentTable.visit_str hn [.encryption] .segmentEncryption
    (fun seg x => { seg with encryption := x }) h.encryption) ?_
  refine visit_cons rfl (segmentTable.visit_int hn [.sectorSize] .segmentSectorSize
    (fun seg x => { seg with sectorSize := x })) ?_
  unfold dumpIntegrity
  split_ifs with hi
  · refine visit_nil.trans ?_
    exact congrArg (fun x => ok (segmentTable.set md i { seg with integrity := x }))
      (h.noIntegrity hi).symm
  · obtain ⟨hje, hji⟩ := h.journals hi
    refine visit_cons rfl ?_ visit_nil
    rw [visit_object]
    refine visit_cons rfl (segmentTable.visit_str hn [.integrity, .type] .integrityType
      (fun seg x => { seg with integrity := { seg.integrity with type := x } }) h.integrityType
     ) ?_
    refine visit_cons rfl (segmentTable.visit_const hn [.integrity, .journalEncryption] .journalEncryption
      (fun seg x => { seg with integrity := { seg.integrity with journalEncryption := x } }) hje
     ) ?_
    refine visit_cons rfl (segmentTable.visit_const hn [.integrity, .journalIntegrity] .journalIntegrity
      (fun seg x => { seg with integrity := { seg.integrity with journalIntegrity := x } }) hji
     ) ?_
    exact visit_nil

end

/-! ## Digests -/

def digestTable : Table Digest numDigests where
  key := .digests
  get md := md.digests
  put md g := { md with digests := g }
  get_put _ _ := rfl
  put_put _ _ _ := rfl

/-- A digest that is read back. Behind the bytes that are stored there are zeros. -/
structure Digest.Valid (d : Digest) : Prop where
  type : d.type.chars = bytes "pbkdf2"
  hash : ∃ t, vicHashType d.hash.chars = some t ∧
    d.digest.toList.drop t.size = List.replicate (64 - t.size) 0

theorem readable_of_vicHashType {s : Str} {t : HashType} (h : vicHashType s.chars = some t) : s.Readable := by
  unfold Str.Readable
  unfold vicHashType at h
  split_ifs at h with h₁ h₂ h₃ h₄
  · rw [h₁]
    decide
  · rw [h₂]
    decide
  · rw [h₃]
    decide
  · rw [h₄]
    decide

section

variable {i : Fin numDigests} {md : Metadata} {d : Digest}

theorem numDigests_lt : numDigests < 2 ^ 64 := by decide

theorem visit_digestBytes {t : HashType} (ht : vicHashType d.hash.chars = some t)
    {v : List.Vector Byte 64} (hv : v.toList.drop t.size = List.replicate (64 - t.size) 0)
    (hd : d.digest = List.Vector.replicate 64 0) :
    visitTree P (putBase64 P (v.toList.take t.size)) (indexPath .digests i [.digest]) (digestTable.set md i d) =
      .ok (digestTable.set md i { d with digest := v }) := by
  have hn := numDigests_lt
  have hf : Names .digests [.digest] .digestDigest := by decide
  have hsize : t.size ≤ 64 := by cases t <;> decide
  have hlen : (v.toList.take t.size).length = t.size := by
    rw [length_take, v.toList_length, Nat.min_eq_left hsize]
  have hget : (digestTable.set md i d).digests i = d := digestTable.get_set md i d
  rw [putBase64, visit_leaf hf (i.isLt.trans hn) (value_putBase64 _)]
  simp only [readField, readDigest]
  rw [stringAt_fin hn, hget, copyBase64_base64String (by rw [ht, hlen]; rfl) (by rw [hlen]; exact hsize)]
  have hrest : v.toList.take t.size ++ d.digest.toList.drop (v.toList.take t.size).length = v.toList := by
    rw [hlen, hd, show (List.Vector.replicate 64 (0 : Byte)).toList = replicate 64 0 from rfl,
      drop_replicate, ← hv, take_append_drop]
  rw [hrest, toVector_toList]
  exact congrArg ok (digestTable.set_set md i d _)

theorem visit_digest (h : d.Valid) :
    visitTree P (dumpDigest P d) (indexPath .digests i []) (digestTable.set md i {}) =
      .ok (digestTable.set md i d) := by
  have hn := numDigests_lt
  obtain ⟨t, ht, hdigest⟩ := h.hash
  have hbytes : dumpDigestBytes P d = putBase64 P (d.digest.toList.take t.size) := by
    unfold dumpDigestBytes
    rw [ht]
  rw [dumpDigest, visit_object, hbytes]
  refine visit_cons rfl (digestTable.visit_const hn [.type] .digestType (fun d x => { d with type := x }) h.type) ?_
  refine visit_cons rfl (digestTable.visit_setBits hn numKeyslots_lt [.keyslots] .digestKeyslots
    (·.keyslots) (fun d x => { d with keyslots := x }) (by decide) (fun _ _ => rfl) (fun _ => rfl)
    (fun _ _ _ => rfl) (fun _ _ _ => rfl) rfl) ?_
  refine visit_cons rfl (digestTable.visit_setBits hn numSegments_lt [.segments] .digestSegments
    (·.segments) (fun d x => { d with segments := x }) (by decide) (fun _ _ => rfl) (fun _ => rfl)
    (fun _ _ _ => rfl) (fun _ _ _ => rfl) rfl) ?_
  refine visit_cons rfl (digestTable.visit_str hn [.hash] .digestHash
    (fun d x => { d with hash := x }) (readable_of_vicHashType ht)) ?_
  refine visit_cons rfl (digestTable.visit_int hn [.iterations] .digestIterations
    (fun d x => { d with iterations := x })) ?_
  refine visit_cons rfl (digestTable.visit_salt hn [.salt] .digestSalt (·.salt)
    (fun d x => { d with salt := x })) ?_
  refine visit_cons rfl (visit_digestBytes ?_ hdigest ?_) visit_nil
  · exact ht
  · rfl

end

/-! ## The metadata -/

/-- What is printed can be read, and what is not printed is zero. -/
structure Metadata.Valid (md : Metadata) : Prop where
  keyslot : ∀ i, (md.keyslots i).type.chars ≠ [] → (md.keyslots i).Valid
  noKeyslot : ∀ i, (md.keyslots i).type.chars = [] → md.keyslots i = {}
  segment : ∀ i, (md.segments i).type.chars ≠ [] → (md.segments i).Valid
  noSegment : ∀ i, (md.segments i).type.chars = [] → md.segments i = {}
  digest : ∀ i, (md.digests i).type.chars ≠ [] → (md.digests i).Valid
  noDigest : ∀ i, (md.digests i).type.chars = [] → md.digests i = {}

variable {md : Metadata}

theorem visit_configSize {name : CString Byte} (f : Field) (g : Metadata → Word → Metadata) {x : Word}
    (hf : (if name.chars = bytes "json_size" then some Field.configJsonSize
      else if name.chars = bytes "keyslots_size" then some .configKeyslotsSize else none) = some f)
    (hg : ∀ v k md, readField P f v k md = copyConfig v (g md)) :
    visitTree P (putQuoted x.toNat) [(field "config").name, name] md = .ok (g md x) := by
  rw [putQuoted, visitTree, value_plainLeaf]
  dsimp only [Except.bind]
  unfold visitValue
  rw [fieldOf_config (pathIs_pathOf _), hf]
  exact (hg _ _ _).trans (copyU64_decimalString x (g md))

theorem visit_config {config : Config} : visitTree P (.object (.ofList [
      (field "json_size", putQuoted config.jsonSize.toNat),
      (field "keyslots_size", putQuoted config.keyslotsSize.toNat)])) [(field "config").name] md =
      .ok { md with config := config } := by
  rw [visit_object]
  refine visit_cons rfl (visit_configSize .configJsonSize
    (fun md x => { md with config := { md.config with jsonSize := x } }) (by decide) fun _ _ _ => rfl) ?_
  refine visit_cons rfl (visit_configSize .configKeyslotsSize
    (fun md x => { md with config := { md.config with keyslotsSize := x } }) (by decide) fun _ _ _ => rfl) ?_
  exact visit_nil

theorem visit_dumpMembers {md : Metadata} (h : md.Valid) : visitMembers P (dumpMembers P md) [] {} = .ok md := by
  unfold dumpMembers
  refine visit_cons rfl (show visitTree P _ _ _ = .ok { keyslots := md.keyslots } from ?_) ?_
  · rw [visit_object]
    refine keyslotTable.visit_dumpTable {} (fun _ j hj => visit_keyslot (h.keyslot j ?_))
      fun j hj => h.noKeyslot j ?_
    · simpa using hj
    · simpa using hj
  refine visit_cons rfl (visit_object.trans visit_nil) ?_
  refine visit_cons rfl (show visitTree P _ _ _ =
    .ok { keyslots := md.keyslots, segments := md.segments } from ?_) ?_
  · rw [visit_object]
    refine segmentTable.visit_dumpTable { keyslots := md.keyslots }
      (fun _ j hj => visit_segment (h.segment j ?_)) fun j hj => h.noSegment j ?_
    · simpa using hj
    · simpa using hj
  refine visit_cons rfl (show visitTree P _ _ _ = .ok { md with config := {} } from ?_) ?_
  · rw [visit_object]
    refine digestTable.visit_dumpTable { keyslots := md.keyslots, segments := md.segments }
      (fun _ j hj => visit_digest (h.digest j ?_)) fun j hj => h.noDigest j ?_
    · simpa using hj
    · simpa using hj
  exact visit_cons rfl visit_config visit_nil

section

variable {k : ℕ}

theorem height_members {ms : List (Name × Tree)} (h : ∀ m ∈ ms, m.2.height ≤ k) :
    (Members.ofList ms).height ≤ k := by
  induction ms with
  | nil => exact Nat.zero_le k
  | cons m ms ih =>
    obtain ⟨name, v⟩ := m
    rw [Members.ofList, Members.height]
    exact max_le (h _ mem_cons_self) (ih fun m hm => h m (mem_cons_of_mem _ hm))

theorem height_trees {vs : List Json.Tree} (h : ∀ v ∈ vs, v.height ≤ k) : (Trees.ofList vs).height ≤ k := by
  induction vs with
  | nil => exact Nat.zero_le k
  | cons v vs ih =>
    rw [Trees.ofList, Trees.height]
    exact max_le (h v mem_cons_self) (ih fun w hw => h w (mem_cons_of_mem _ hw))

theorem height_dumpTable {α : Type} {n : ℕ} {f : Fin n → α} {used : α → Bool} {dump : α → Json.Tree}
    (h : ∀ x, (dump x).height ≤ k) : (dumpTable f used dump).height ≤ k := by
  unfold dumpTable
  apply height_members
  intro m hm
  obtain ⟨i, -, rfl⟩ := mem_map.mp hm
  exact h (f i)

end

@[simp] theorem height_putStr (s : Str) : (putStr s).height = 0 := rfl
@[simp] theorem height_putNumber (x : Word) : (putNumber x).height = 0 := rfl
@[simp] theorem height_putQuoted (x : ℕ) : (putQuoted x).height = 0 := rfl
@[simp] theorem height_putBase64 (data : List Byte) : (putBase64 P data).height = 0 := rfl

theorem height_dumpKeyslot (ks : Keyslot) : (dumpKeyslot P ks).height ≤ 2 := by
  have hcosts : ∀ m ∈ dumpKdfCosts ks.kdf, m.2.height ≤ 0 := by
    unfold dumpKdfCosts
    split_ifs <;> simp
  have hkdf : ∀ m ∈ (field "type", putStr ks.kdf.type) :: (dumpKdfCosts ks.kdf ++
      [(field "salt", putBase64 P ks.kdf.salt.toList)]), m.2.height ≤ 0 := by
    intro m hm
    simp only [mem_cons, mem_append, not_mem_nil, or_false] at hm
    obtain rfl | hm | rfl := hm
    · rfl
    · exact hcosts m hm
    · rfl
  have := height_members hkdf
  simp [dumpKeyslot, Json.Tree.height, Members.ofList, Members.height] at this ⊢
  omega

theorem height_dumpSegment (seg : Segment) : (dumpSegment seg).height ≤ 2 := by
  have hliteral : (putLiteral "dynamic").height = 0 := rfl
  unfold dumpSegment dumpIntegrity
  split_ifs <;> simp [Json.Tree.height, Members.ofList, Members.height, hliteral]

theorem height_dumpDigest (d : Digest) : (dumpDigest P d).height ≤ 2 := by
  have hbytes : (dumpDigestBytes P d).height = 0 := by
    unfold dumpDigestBytes
    split <;> rfl
  have hindices {n : ℕ} (js : List (Fin n)) : (Trees.ofList (js.map fun j : Fin n => putQuoted j)).height ≤ 0 := by
    apply height_trees
    intro v hv
    obtain ⟨j, -, rfl⟩ := mem_map.mp hv
    rfl
  have h₁ := hindices (setBits d.keyslots)
  have h₂ := hindices (setBits d.segments)
  simp [dumpDigest, Json.Tree.height, Members.ofList, Members.height, hbytes] at h₁ h₂ ⊢
  omega

theorem height_dumpMembers (md : Metadata) : (dumpMembers P md).height < maxNesting := by
  have hks : (dumpTable md.keyslots (fun ks => ks.type.chars ≠ []) (dumpKeyslot P)).height ≤ 2 :=
    height_dumpTable height_dumpKeyslot
  have hseg : (dumpTable md.segments (fun seg => seg.type.chars ≠ []) dumpSegment).height ≤ 2 :=
    height_dumpTable height_dumpSegment
  have hd : (dumpTable md.digests (fun d => d.type.chars ≠ []) (dumpDigest P)).height ≤ 2 :=
    height_dumpTable height_dumpDigest
  simp [dumpMembers, Json.Tree.height, Members.ofList, Members.height, maxNesting] at hks hseg hd ⊢
  omega

theorem readJson_toJson (behind rest : List Byte) (h : md.Valid) :
    readJson P behind (toJson P md ++ rest) = some md := by
  rw [toJson, readJson_text behind (height_dumpMembers md), visit_dumpMembers h]
  rfl

/-! ## A cipher that cannot be read back -/

theorem visit_of_mem {ctx : List (CString Byte)} {ms : List (Name × Json.Tree)} {m : Name × Json.Tree}
    (hm : m ∈ ms) {md' : Metadata} (h : visitMembers P (.ofList ms) ctx md = .ok md') :
    ∃ md₁ md₂, visitTree P m.2 (ctx ++ [m.1.name]) md₁ = .ok md₂ := by
  induction ms generalizing md with
  | nil => cases hm
  | cons m' ms ih =>
    obtain ⟨name, v⟩ := m'
    rw [Members.ofList, visitMembers] at h
    obtain ⟨md₁, hv, h⟩ := exceptBind_eq_ok.mp h
    obtain rfl | hm := mem_cons.mp hm
    · exact ⟨md, md₁, hv⟩
    · exact ih hm h

/-- The metadata is not read if the segment's cipher was printed with a hexadecimal letter. -/
theorem readJson_eq_none (behind rest : List Byte) {i : Fin numSegments}
    (hi : (md.segments i).type.chars ≠ []) (h : ¬ (md.segments i).encryption.Readable) :
    readJson P behind (toJson P md ++ rest) = none := by
  rw [toJson, readJson_text behind (height_dumpMembers md)]
  cases hvisit : visitMembers P (dumpMembers P md) [] {} with
  | error e => rfl
  | ok md' =>
    exfalso
    obtain ⟨_, _, htable⟩ := visit_of_mem (.tail _ (.tail _ (.head _))) hvisit
    rw [visit_object] at htable
    have hmem : i ∈ setBits fun i => decide ((md.segments i).type.chars ≠ []) :=
      mem_setBits.mpr (decide_eq_true hi)
    obtain ⟨_, _, hseg⟩ := visit_of_mem
      (mem_map_of_mem (f := fun i : Fin numSegments => (indexName i, dumpSegment (md.segments i))) hmem)
      htable
    dsimp only at hseg
    rw [dumpSegment, visit_object] at hseg
    obtain ⟨_, _, hleaf⟩ := visit_of_mem (.tail _ (.tail _ (.tail _ (.tail _ (.head _))))) hseg
    rw [putStr, visitTree, value_stringLeaf,
      if_neg (show ¬ (md.segments i).encryption.toCString.chars.all readable = true from h)] at hleaf
    cases hleaf

end SgxLkl.Luks
