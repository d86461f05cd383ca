import SgxLkl.Config.RoundTrip

/-!
# The buffer of the serialised configuration

`serialize_enclave_config` prints into a buffer that it enlarges, and reports the size of the buffer. The
launcher measures that many bytes.
-/

namespace SgxLkl.Config

open Json List Option

/-! ## The append -/

/-- The bytes of a buffer, as many as `*buffer_size`, and the place of the next append. -/
structure Buffer where
  data : List Byte
  position : ℕ

variable (fresh : ℕ → ℕ → Byte)

/-- `realloc` to a larger size: the byte at `i` that the memory of size `size` adds is `fresh size i`. -/
def enlarge (data : List Byte) (size : ℕ) : List Byte :=
  data ++ (List.range' data.length (size - data.length)).map (fresh size)

/-- The growth in `print_to_buffer`: the buffer is at least doubled if `len` bytes would fill it. -/
def makeRoom (b : Buffer) (len : ℕ) : List Byte :=
  let remaining := b.data.length - b.position
  if remaining ≤ len then
    let min := b.data.length + len - remaining
    enlarge fresh b.data (if b.data.length * 2 < min then min else b.data.length * 2)
  else b.data

/-- `print_to_buffer`. -/
def printToBuffer (b : Buffer) (string : List Byte) : Buffer :=
  let len := string.length + 1
  let data := makeRoom fresh b len
  ⟨data.take b.position ++ (string ++ [0]) ++ data.drop (b.position + len), b.position + len - 1⟩

/-! ## The strings of a tree -/

/-- The loop over the quotes of a string, with the characters since the last quote in front. -/
def escapePieces (acc : List Byte) : List Byte → List (List Byte)
  | [] => [acc]
  | c :: cs => if c = quote then acc :: [backslash, quote] :: escapePieces [] cs
    else escapePieces (acc ++ [c]) cs

def keyPieces : Str → List (List Byte)
  | none => []
  | some k => [[quote], k.chars, [quote, colon]]

mutual

def pieces : JsonObj → List (List Byte)
  | .string key value => keyPieces key ++
    match value with
    | none => [bytes "null"]
    | some s => [quote] :: (escapePieces [] s.chars ++ [[quote]])
  | .boolean key value => keyPieces key ++ [bytes (if value then "true" else "false")]
  | .array key elems => keyPieces key ++ [openBracket] :: (piecesAll elems ++ [[closeBracket]])
  | .objects key members => keyPieces key ++ [openBrace] :: (piecesAll members ++ [[closeBrace]])

def piecesAll : List JsonObj → List (List Byte)
  | [] => []
  | o :: os => pieces o ++ ((if os.isEmpty then [] else [[comma]]) ++ piecesAll os)

end

/-- `serialize_enclave_config` with its buffer: the bytes that the launcher copies. -/
def serializeEnclaveConfigTo (config : EnclaveConfig) (buffer : List Byte) : Option (List Byte) :=
  (encodeWg .wg config.wg).bind fun wg =>
    (sortJson (.objects none (rootObjects config wg))).map fun root =>
      ((pieces root).foldl (printToBuffer fresh) ⟨buffer, 0⟩).data

theorem flatten_escapePieces (acc s : List Byte) : (escapePieces acc s).flatten = acc ++ escapeQuotes s := by
  induction s generalizing acc with
  | nil => simp [escapePieces, escapeQuotes]
  | cons c cs ih =>
    rw [escapeQuotes] at ih
    rw [escapePieces, escapeQuotes, flatMap_cons]
    split_ifs
    · rw [flatten_cons, flatten_cons, ih, nil_append]
    · rw [ih, append_assoc]

theorem flatten_keyPieces (key : Str) : (keyPieces key).flatten = printKey key := by
  cases key <;> simp [keyPieces, printKey]

mutual

theorem flatten_pieces : ∀ o : JsonObj, (pieces o).flatten = printJson o
  | .string key none => by simp [pieces, printJson, flatten_keyPieces]
  | .string key (some s) => by simp [pieces, printJson, flatten_keyPieces, flatten_escapePieces]
  | .boolean key value => by simp [pieces, printJson, flatten_keyPieces]
  | .array key elems => by simp [pieces, printJson, flatten_keyPieces, flatten_piecesAll elems]
  | .objects key members => by simp [pieces, printJson, flatten_keyPieces, flatten_piecesAll members]

theorem flatten_piecesAll : ∀ os : List JsonObj, (piecesAll os).flatten = printAll os
  | [] => rfl
  | o :: os => by
    rw [piecesAll, printAll, List.flatten_append, List.flatten_append, flatten_pieces o, flatten_piecesAll os]
    cases os <;> simp

end

/-! ## What the buffer holds -/

/-- The text so far is in front of the position, and `tail` behind it. -/
structure Buffer.Holds (b : Buffer) (text tail : List Byte) : Prop where
  position : b.position = text.length
  data : b.data = text ++ tail

variable {b : Buffer} {text tail : List Byte}

theorem Buffer.Holds.makeRoom (h : b.Holds text tail) (len : ℕ) :
    ∃ size extra, makeRoom fresh b len = text ++ (tail ++ extra) ∧ (∀ x ∈ extra, ∃ i, x = fresh size i) ∧
      (tail ++ extra).length =
        if tail.length ≤ len then max (text.length + 2 * tail.length) len else tail.length := by
  have hsize : b.data.length = text.length + tail.length := by rw [h.data, length_append]
  have hremaining : b.data.length - b.position = tail.length := by rw [hsize, h.position]; omega
  rw [Config.makeRoom, hremaining]
  by_cases hroom : tail.length ≤ len
  · dsimp only
    rw [if_pos hroom, if_pos hroom]
    set size := if b.data.length * 2 < b.data.length + len - tail.length
      then b.data.length + len - tail.length else b.data.length * 2 with hdef
    refine ⟨size, (range' b.data.length (size - b.data.length)).map (fresh size), ?_, ?_, ?_⟩
    · rw [enlarge, ← append_assoc, ← h.data]
    · intro x hx
      obtain ⟨i, -, hi⟩ := mem_map.mp hx
      exact ⟨i, hi.symm⟩
    · have hmax : size = max (b.data.length * 2) (text.length + len) := by
        rw [hdef]
        split_ifs <;> omega
      rw [length_append, length_map, length_range', hmax]
      omega
  · refine ⟨0, [], ?_, by simp, ?_⟩
    · rw [if_neg hroom, h.data, append_nil]
    · rw [if_neg hroom, append_nil]

theorem Buffer.Holds.print (h : b.Holds text tail) (s : List Byte) :
    ∃ size extra, (printToBuffer fresh b s).Holds (text ++ s) (0 :: (tail ++ extra).drop (s.length + 1)) ∧
      (∀ x ∈ extra, ∃ i, x = fresh size i) ∧ (tail ++ extra).length = if tail.length ≤ s.length + 1
        then max (text.length + 2 * tail.length) (s.length + 1) else tail.length := by
  obtain ⟨size, extra, hdata, hfresh, hlength⟩ := h.makeRoom fresh (s.length + 1)
  refine ⟨size, extra, ⟨?_, ?_⟩, hfresh, hlength⟩
  · rw [printToBuffer, h.position, length_append]
    dsimp only
    omega
  · rw [printToBuffer]
    dsimp only
    rw [hdata, h.position, take_left, ← drop_drop, drop_left]
    simp only [append_assoc, cons_append, nil_append]

variable {fresh}

/-- The bytes behind the first one are of the first buffer or of `realloc`. -/
def Spare (fresh : ℕ → ℕ → Byte) (old tail : List Byte) : Prop :=
  ∀ x ∈ tail.drop 1, x ∈ old ∨ ∃ n i, x = fresh n i

variable {old : List Byte}

theorem spare_print {extra : List Byte} {size n : ℕ} (h : Spare fresh old tail)
    (hextra : ∀ x ∈ extra, ∃ i, x = fresh size i) : Spare fresh old (0 :: (tail ++ extra).drop (n + 1)) := by
  intro x hx
  have hmem : x ∈ (tail ++ extra).drop 1 := by
    rw [drop_one, tail_cons, Nat.add_comm, ← drop_drop] at hx
    exact mem_of_mem_drop hx
  rw [drop_append] at hmem
  rcases mem_append.mp hmem with hx | hx
  · exact h x hx
  · exact .inr ⟨size, hextra x (mem_of_mem_drop hx)⟩

theorem Buffer.Holds.foldl (ps : List (List Byte)) (h : b.Holds text tail) (hspare : Spare fresh old tail) :
    ∃ tail', (ps.foldl (printToBuffer fresh) b).Holds (text ++ ps.flatten) tail' ∧
      Spare fresh old tail' ∧ (ps ≠ [] → tail' ≠ []) := by
  induction ps generalizing b text tail with
  | nil => exact ⟨tail, by simpa using h, hspare, fun hne => absurd rfl hne⟩
  | cons p ps ih =>
    obtain ⟨size, extra, hprint, hextra, -⟩ := h.print fresh p
    obtain ⟨tail', hrun, hspare', hne⟩ := ih hprint (spare_print hspare hextra)
    refine ⟨tail', by simpa using hrun, hspare', fun _ => ?_⟩
    cases ps with
    | nil =>
      have hdata := hrun.data.symm.trans hprint.data
      rw [flatten_nil, append_nil] at hdata
      rw [append_cancel_left hdata]
      exact cons_ne_nil _ _
    | cons q qs => exact hne (cons_ne_nil _ _)

theorem Buffer.Holds.print_close (h : b.Holds text tail) (hspare : Spare fresh old tail)
    (htext : text ≠ []) (htail : tail ≠ []) :
    ∃ rest, rest ≠ [] ∧ (printToBuffer fresh b [closeBrace]).data = text ++ [closeBrace] ++ 0 :: rest ∧
      ∀ x ∈ rest, x ∈ old ∨ ∃ n i, x = fresh n i := by
  obtain ⟨size, extra, hprint, hextra, hlength⟩ := h.print fresh [closeBrace]
  refine ⟨_, ?_, hprint.data, spare_print hspare hextra⟩
  have h1 : 0 < text.length := length_pos_of_ne_nil htext
  have h2 : 0 < tail.length := length_pos_of_ne_nil htail
  apply ne_nil_of_length_pos
  rw [length_drop, hlength, length_singleton]
  split_ifs <;> omega

theorem serializeTo_eq {config : EnclaveConfig} (h : serializeEnclaveConfig config = some text)
    (fresh : ℕ → ℕ → Byte) (old : List Byte) :
    ∃ rest, rest ≠ [] ∧ serializeEnclaveConfigTo fresh config old = some (text ++ 0 :: rest) ∧
      ∀ x ∈ rest, x ∈ old ∨ ∃ n i, x = fresh n i := by
  rw [serializeEnclaveConfig, bind_eq_some_iff] at h
  obtain ⟨wg, hwg, h⟩ := h
  obtain ⟨root, hroot, rfl⟩ := map_eq_some_iff.mp h
  obtain ⟨members, rfl⟩ : ∃ members, root = .objects none members := by
    rw [sortJson, bind_eq_some_iff] at hroot
    obtain ⟨ms, -, hms⟩ := hroot
    obtain ⟨members, -, rfl⟩ := map_eq_some_iff.mp hms
    exact ⟨members, rfl⟩
  have hstart : (⟨old, 0⟩ : Buffer).Holds [] old := ⟨rfl, rfl⟩
  have hspare : Spare fresh old old := fun x hx => .inl (mem_of_mem_drop hx)
  obtain ⟨tail, hholds, hspare', hne⟩ := hstart.foldl ([openBrace] :: piecesAll members) hspare
  obtain ⟨rest, hrest, hdata, hfrom⟩ :=
    hholds.print_close hspare' (by simp) (hne (cons_ne_nil _ _))
  refine ⟨rest, hrest, ?_, hfrom⟩
  rw [serializeEnclaveConfigTo, hwg, bind_some, hroot, map_some, pieces, keyPieces,
    nil_append, ← cons_append, foldl_append, foldl_cons, foldl_nil, hdata]
  simp [printJson, printKey, flatten_piecesAll]

/-! ## What is measured -/

/-- The measured bytes are the text, one NUL, and at least one more byte: of the first buffer, or as
`realloc` handed it out. From no buffer and with memory that is zero, they are the text and zeros. -/
theorem measured_bytes {config : EnclaveConfig} {text : List Byte} (h : serializeEnclaveConfig config = some text) :
    (∀ fresh old, ∃ rest, rest ≠ [] ∧ serializeEnclaveConfigTo fresh config old = some (text ++ 0 :: rest) ∧
      ∀ x ∈ rest, x ∈ old ∨ ∃ n i, x = fresh n i) ∧
    ∃ k, serializeEnclaveConfigTo (fun _ _ => 0) config [] = some (text ++ List.replicate (k + 2) 0) := by
  refine ⟨serializeTo_eq h, ?_⟩
  obtain ⟨rest, hrest, heq, hfrom⟩ := serializeTo_eq h (fun _ _ => 0) []
  have hzero : rest = replicate rest.length 0 := eq_replicate_of_mem fun x hx => by
    obtain hx | ⟨-, -, hx⟩ := hfrom x hx
    · exact absurd hx not_mem_nil
    · exact hx
  obtain ⟨k, hk⟩ := Nat.exists_eq_succ_of_ne_zero (length_pos_of_ne_nil hrest).ne'
  rw [hk] at hzero
  exact ⟨k, by rw [heq, hzero]; rfl⟩

theorem measured_sampleConfig : ∃ text k, serializeEnclaveConfigTo (fun _ _ => 0) (sampleConfig 500) [] =
      some (text ++ List.replicate (k + 2) 0) := by
  obtain ⟨text, -, hserialize, -⟩ :=
    read_serialize ⟨true, fun _ => 0⟩ (portable_sampleConfig 500) []
  obtain ⟨k, hk⟩ := (measured_bytes hserialize).2
  exact ⟨text, k, hk⟩

/-- One configuration, two answers of `realloc`, two measurements. -/
theorem measured_undetermined : ∃ data data',
    serializeEnclaveConfigTo (fun _ _ => 0) (sampleConfig 500) [] = some data ∧
    serializeEnclaveConfigTo (fun _ _ => 1) (sampleConfig 500) [] = some data' ∧ data ≠ data' := by
  obtain ⟨text, -, hserialize, -⟩ :=
    read_serialize ⟨true, fun _ => 0⟩ (portable_sampleConfig 500) []
  obtain ⟨rest, hrest, heq, hfrom⟩ := serializeTo_eq hserialize (fun _ _ => 0) []
  obtain ⟨rest', -, heq', hfrom'⟩ := serializeTo_eq hserialize (fun _ _ => 1) []
  refine ⟨_, _, heq, heq', fun h => ?_⟩
  obtain rfl : rest = rest' := (cons.inj (append_cancel_left h)).2
  obtain ⟨x, hx⟩ := exists_mem_of_ne_nil _ hrest
  have h0 : x = 0 := (hfrom x hx).elim (fun h => absurd h not_mem_nil) fun ⟨_, _, h⟩ => h
  have h1 : x = 1 := (hfrom' x hx).elim (fun h => absurd h not_mem_nil) fun ⟨_, _, h⟩ => h
  exact absurd (h0.symm.trans h1) (by decide)

end SgxLkl.Config
