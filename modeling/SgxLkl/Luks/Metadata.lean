import SgxLkl.Json.Leaves
import SgxLkl.Luks.Header

/-!
# The metadata as JSON

`_to_json` prints without white space; `_json_read_callback` finds a field by its path.
-/

namespace SgxLkl.Luks

open Json Function

variable (P : Primitives)

/-! ## Writing -/

def putStr (s : Str) : Tree := .leaf (stringLeaf s.toCString)

def putNumber (x : Word) : Tree := .leaf (numberLeaf x)

def putQuoted (x : ℕ) : Tree := .leaf (plainLeaf (decimalString x) (plain_decimalString x))

def putLiteral (s : String) (h : isPlain (bytes s) = true := by rfl) : Tree :=
  .leaf (plainLeaf ⟨bytes s, not_mem_bytes h⟩ (plain_bytes h))

def base64String (data : List Byte) : CString Byte :=
  ⟨P.base64Encode data, fun h => absurd (P.isPrint_base64Encode data 0 h) (by decide)⟩

def putBase64 (data : List Byte) : Tree := .leaf (stringLeaf (base64String P data))

/-- The members of `kdf` that depend on its type. -/
def dumpKdfCosts (kdf : Kdf) : List (Name × Tree) :=
  if kdf.type.chars = bytes "pbkdf2" then
    [(field "iterations", putNumber kdf.iterations), (field "hash", putStr kdf.hash)]
  else if kdf.type.chars = bytes "argon2i" ∨ kdf.type.chars = bytes "argon2id" then
    [(field "time", putNumber kdf.time), (field "memory", putNumber kdf.memory),
      (field "cpus", putNumber kdf.cpus)]
  else []

def dumpKeyslot (ks : Keyslot) : Tree :=
  .object (.ofList [
    (field "type", putStr ks.type),
    (field "key_size", putNumber ks.keySize),
    (field "kdf", .object (.ofList (
      (field "type", putStr ks.kdf.type) :: (dumpKdfCosts ks.kdf ++
      [(field "salt", putBase64 P ks.kdf.salt.toList)])))),
    (field "af", .object (.ofList [
      (field "type", putStr ks.af.type),
      (field "hash", putStr ks.af.hash),
      (field "stripes", putNumber ks.af.stripes)])),
    (field "area", .object (.ofList [
      (field "type", putStr ks.area.type),
      (field "encryption", putStr ks.area.encryption),
      (field "key_size", putNumber ks.area.keySize),
      (field "offset", putQuoted ks.area.offset.toNat),
      (field "size", putQuoted ks.area.size.toNat)]))])

def dumpIntegrity (integrity : Integrity) : List (Name × Tree) :=
  if integrity.type.chars = [] then []
  else [(field "integrity", .object (.ofList [
    (field "type", putStr integrity.type),
    (field "journal_encryption", putStr integrity.journalEncryption),
    (field "journal_integrity", putStr integrity.journalIntegrity)]))]

def dumpSegment (seg : Segment) : Tree :=
  .object (.ofList ([
    (field "type", putStr seg.type),
    (field "offset", putQuoted seg.offset.toNat),
    (field "iv_tweak", putQuoted seg.ivTweak.toNat),
    (field "size", if seg.size = BitVec.allOnes 64 then putLiteral "dynamic" else putQuoted seg.size.toNat),
    (field "encryption", putStr seg.encryption),
    (field "sector_size", putNumber seg.sectorSize)] ++ dumpIntegrity seg.integrity))

def setBits {n : ℕ} (f : Fin n → Bool) : List (Fin n) := (List.finRange n).filter f

/-- The digest itself. Without a known hash function the assertion fails; nothing is printed if assertions
are off. -/
def dumpDigestBytes (digest : Digest) : Tree :=
  match vicHashType digest.hash.chars with
  | some t => putBase64 P (digest.digest.toList.take t.size)
  | none => putLiteral "" isPlain_bytes_nil

def dumpDigest (digest : Digest) : Tree :=
  .object (.ofList [
    (field "type", putStr digest.type),
    (field "keyslots", .array (.ofList ((setBits digest.keyslots).map fun i : Fin numKeyslots => putQuoted i))),
    (field "segments", .array (.ofList ((setBits digest.segments).map fun i : Fin numSegments => putQuoted i))),
    (field "hash", putStr digest.hash),
    (field "iterations", putNumber digest.iterations),
    (field "salt", putBase64 P digest.salt.toList),
    (field "digest", dumpDigestBytes P digest)])

def dumpTable {α : Type} {n : ℕ} (f : Fin n → α) (used : α → Bool) (dump : α → Tree) : Members :=
  .ofList ((setBits fun i => used (f i)).map fun i : Fin n => (indexName i, dump (f i)))

def dumpMembers (md : Metadata) : Members :=
  .ofList [
    (field "keyslots", .object (dumpTable md.keyslots (fun ks => ks.type.chars ≠ []) (dumpKeyslot P))),
    (field "tokens", .object .nil),
    (field "segments", .object (dumpTable md.segments (fun seg => seg.type.chars ≠ []) dumpSegment)),
    (field "digests", .object (dumpTable md.digests (fun digest => digest.type.chars ≠ []) (dumpDigest P))),
    (field "config", .object (.ofList [
      (field "json_size", putQuoted md.config.jsonSize.toNat),
      (field "keyslots_size", putQuoted md.config.keyslotsSize.toNat)]))]

def toJson (md : Metadata) : List Byte := (Tree.object (dumpMembers P md)).text

/-! ## Reading -/

def digitsValue (ds : List Byte) : ℕ := ds.foldl (fun x c => x * 10 + (c - 0x30).toNat) 0

/-- `strtoull` to base ten: the value, and the text that is left. -/
def strtoull (text : List Byte) : Word × List Byte :=
  let p := readSign (text.dropWhile isSpace)
  let x := digitsValue (p.2.takeWhile isDigit)
  if p.2.takeWhile isDigit = [] then (0, text)
  else
    (if 2 ^ 64 ≤ x then BitVec.allOnes 64 else if p.1 then -BitVec.ofNat 64 x else BitVec.ofNat 64 x,
      p.2.dropWhile isDigit)

def strtou64 (str : CString Byte) : Option Word :=
  match strtoull str.chars with
  | (x, []) => some x
  | (_, _ :: _) => none

inductive Field
  | keyslotType | keyslotKeySize
  | kdfType | kdfTime | kdfMemory | kdfHash | kdfIterations | kdfCpus | kdfSalt
  | afType | afHash | afStripes
  | areaType | areaEncryption | areaKeySize | areaOffset | areaSize
  | segmentType | segmentOffset | segmentIvTweak | segmentSize | segmentEncryption | segmentSectorSize
  | integrityType | journalEncryption | journalIntegrity
  | digestType | digestKeyslots | digestSegments | digestHash | digestIterations | digestSalt | digestDigest
  | configJsonSize | configKeyslotsSize
  deriving DecidableEq

def patterns : List (List Byte × Field) :=
  [(bytes "keyslots.#.type", .keyslotType), (bytes "keyslots.#.key_size", .keyslotKeySize),
    (bytes "keyslots.#.kdf.type", .kdfType), (bytes "keyslots.#.kdf.time", .kdfTime),
    (bytes "keyslots.#.kdf.memory", .kdfMemory), (bytes "keyslots.#.kdf.hash", .kdfHash),
    (bytes "keyslots.#.kdf.iterations", .kdfIterations), (bytes "keyslots.#.kdf.cpus", .kdfCpus),
    (bytes "keyslots.#.kdf.salt", .kdfSalt), (bytes "keyslots.#.af.type", .afType),
    (bytes "keyslots.#.af.hash", .afHash), (bytes "keyslots.#.af.stripes", .afStripes),
    (bytes "keyslots.#.area.type", .areaType), (bytes "keyslots.#.area.encryption", .areaEncryption),
    (bytes "keyslots.#.area.key_size", .areaKeySize), (bytes "keyslots.#.area.offset", .areaOffset),
    (bytes "keyslots.#.area.size", .areaSize), (bytes "segments.#.type", .segmentType),
    (bytes "segments.#.offset", .segmentOffset), (bytes "segments.#.iv_tweak", .segmentIvTweak),
    (bytes "segments.#.size", .segmentSize), (bytes "segments.#.encryption", .segmentEncryption),
    (bytes "segments.#.sector_size", .segmentSectorSize),
    (bytes "segments.#.integrity.type", .integrityType),
    (bytes "segments.#.integrity.journal_encryption", .journalEncryption),
    (bytes "segments.#.integrity.journal_integrity", .journalIntegrity),
    (bytes "digests.#.type", .digestType), (bytes "digests.#.keyslots", .digestKeyslots),
    (bytes "digests.#.segments", .digestSegments), (bytes "digests.#.hash", .digestHash),
    (bytes "digests.#.iterations", .digestIterations), (bytes "digests.#.salt", .digestSalt),
    (bytes "digests.#.digest", .digestDigest), (bytes "config.json_size", .configJsonSize),
    (bytes "config.keyslots_size", .configKeyslotsSize)]

/-- The first pattern that matches; whitespace is allowed. -/
def fieldOf (path : Path) : Option Field :=
  (patterns.find? fun r => (jsonMatch true path r.1).isOk).map (·.2)

section

variable {α β : Type} {n : ℕ}

/-- A value that has to be a string, at an index of a table. -/
def stringAt (v : Value) (i : Word) (f : Fin n → CString Byte → Except JsonResult α) : Except JsonResult α :=
  match v with
  | .string s => if h : i.toNat < n then f ⟨i.toNat, h⟩ s else .error .typeMismatch
  | _ => .error .typeMismatch

def integerAt (v : Value) (i : Word) (f : Fin n → Word → α) : Except JsonResult α :=
  match v with
  | .integer x => if h : i.toNat < n then .ok (f ⟨i.toNat, h⟩ x) else .error .typeMismatch
  | _ => .error .typeMismatch

def copyStr (s : CString Byte) (f : Str → α) : Except JsonResult α :=
  if 32 ≤ s.length then .error .bufferOverflow else .ok (f (strlcpy s))

def copyU64 (s : CString Byte) (f : Word → α) : Except JsonResult α :=
  match strtou64 s with
  | some x => .ok (f x)
  | none => .error .typeMismatch

/-- A string that has to be the base64 text of `m` bytes, which fit in the array. -/
def copyBase64 {k : ℕ} (m : Option ℕ) (s : CString Byte) (old : List.Vector Byte k)
    (f : List.Vector Byte k → α) : Except JsonResult α :=
  match P.base64Decode s.chars with
  | some data =>
    if k < data.length ∨ m ≠ some data.length then .error .typeMismatch
    else .ok (f (toVector k (data ++ old.toList.drop data.length)))
  | none => .error .typeMismatch

def copyIndex (s : CString Byte) (old : Fin n → Bool) (f : (Fin n → Bool) → α) : Except JsonResult α :=
  match strtou64 s with
  | some x =>
    if h : x.toNat < n then .ok (f (update old ⟨x.toNat, h⟩ true)) else .error .outOfBounds
  | none => .error .typeMismatch

/-- A number of the configuration. The type of the value is not looked at. -/
def copyConfig (v : Value) (f : Word → α) : Except JsonResult α :=
  match v with
  | .string s => copyU64 s f
  | _ => .error .fault

end

def validPbkdfType (type : List Byte) : Bool :=
  type = bytes "pbkdf2" || type = bytes "argon2i" || type = bytes "argon2id"

def Metadata.setKeyslot (md : Metadata) (i : Fin numKeyslots) (ks : Keyslot) : Metadata :=
  { md with keyslots := update md.keyslots i ks }

def Metadata.setSegment (md : Metadata) (i : Fin numSegments) (seg : Segment) : Metadata :=
  { md with segments := update md.segments i seg }

def Metadata.setDigest (md : Metadata) (i : Fin numDigests) (digest : Digest) : Metadata :=
  { md with digests := update md.digests i digest }

def readKeyslot (field : Field) (v : Value) (n : Word) (md : Metadata) : Except JsonResult Metadata :=
  let str (f : Keyslot → Str → Keyslot) : Except JsonResult Metadata :=
    stringAt v n fun i s => copyStr s fun x => md.setKeyslot i (f (md.keyslots i) x)
  let int (f : Keyslot → Word → Keyslot) : Except JsonResult Metadata :=
    integerAt v n fun i x => md.setKeyslot i (f (md.keyslots i) x)
  let u64 (f : Keyslot → Word → Keyslot) : Except JsonResult Metadata :=
    stringAt v n fun i s => copyU64 s fun x => md.setKeyslot i (f (md.keyslots i) x)
  match field with
  | .keyslotType => str fun ks x => { ks with type := x }
  | .keyslotKeySize => int fun ks x => { ks with keySize := x }
  | .kdfType =>
    stringAt v n fun i s => (copyStr s id).bind fun x =>
      if validPbkdfType x.chars then
        .ok (md.setKeyslot i { md.keyslots i with kdf := { (md.keyslots i).kdf with type := x } })
      else .error .unsupported
  | .kdfTime => int fun ks x => { ks with kdf := { ks.kdf with time := x } }
  | .kdfMemory => int fun ks x => { ks with kdf := { ks.kdf with memory := x } }
  | .kdfHash => str fun ks x => { ks with kdf := { ks.kdf with hash := x } }
  | .kdfIterations => int fun ks x => { ks with kdf := { ks.kdf with iterations := x } }
  | .kdfCpus => int fun ks x => { ks with kdf := { ks.kdf with cpus := x } }
  | .kdfSalt =>
    stringAt v n fun i s => copyBase64 P (some 32) s (md.keyslots i).kdf.salt fun x =>
      md.setKeyslot i { md.keyslots i with kdf := { (md.keyslots i).kdf with salt := x } }
  | .afType => str fun ks x => { ks with af := { ks.af with type := x } }
  | .afHash => str fun ks x => { ks with af := { ks.af with hash := x } }
  | .afStripes => int fun ks x => { ks with af := { ks.af with stripes := x } }
  | .areaType => str fun ks x => { ks with area := { ks.area with type := x } }
  | .areaEncryption => str fun ks x => { ks with area := { ks.area with encryption := x } }
  | .areaKeySize => int fun ks x => { ks with area := { ks.area with keySize := x } }
  | .areaOffset => u64 fun ks x => { ks with area := { ks.area with offset := x } }
  | .areaSize => u64 fun ks x => { ks with area := { ks.area with size := x } }
  | _ => .error .unknownValue

def readSegment (field : Field) (v : Value) (n : Word) (md : Metadata) : Except JsonResult Metadata :=
  let str (f : Segment → Str → Segment) : Except JsonResult Metadata :=
    stringAt v n fun i s => copyStr s fun x => md.setSegment i (f (md.segments i) x)
  let u64 (f : Segment → Word → Segment) : Except JsonResult Metadata :=
    stringAt v n fun i s => copyU64 s fun x => md.setSegment i (f (md.segments i) x)
  -- only journals without encryption and without integrity are known
  let journal (f : Segment → Str → Segment) : Except JsonResult Metadata :=
    stringAt v n fun i s =>
      if s.chars ≠ bytes "none" then .error .unsupported
      else copyStr s fun x => md.setSegment i (f (md.segments i) x)
  match field with
  | .segmentType => str fun seg x => { seg with type := x }
  | .segmentOffset => u64 fun seg x => { seg with offset := x }
  | .segmentIvTweak => u64 fun seg x => { seg with ivTweak := x }
  | .segmentSize =>
    stringAt v n fun i s =>
      if s.chars = bytes "dynamic" then
        .ok (md.setSegment i { md.segments i with size := BitVec.allOnes 64 })
      else copyU64 s fun x => md.setSegment i { md.segments i with size := x }
  | .segmentEncryption => str fun seg x => { seg with encryption := x }
  | .segmentSectorSize => integerAt v n fun i x => md.setSegment i { md.segments i with sectorSize := x }
  | .integrityType => str fun seg x => { seg with integrity := { seg.integrity with type := x } }
  | .journalEncryption =>
    journal fun seg x => { seg with integrity := { seg.integrity with journalEncryption := x } }
  | .journalIntegrity =>
    journal fun seg x => { seg with integrity := { seg.integrity with journalIntegrity := x } }
  | _ => .error .unknownValue

def readDigest (field : Field) (v : Value) (n : Word) (md : Metadata) : Except JsonResult Metadata :=
  match field with
  | .digestType =>
    stringAt v n fun i s =>
      if s.chars ≠ bytes "pbkdf2" then .error .unsupported
      else copyStr s fun x => md.setDigest i { md.digests i with type := x }
  | .digestKeyslots =>
    stringAt v n fun i s => copyIndex s (md.digests i).keyslots fun x =>
      md.setDigest i { md.digests i with keyslots := x }
  | .digestSegments =>
    stringAt v n fun i s => copyIndex s (md.digests i).segments fun x =>
      md.setDigest i { md.digests i with segments := x }
  | .digestHash =>
    stringAt v n fun i s => copyStr s fun x => md.setDigest i { md.digests i with hash := x }
  | .digestIterations => integerAt v n fun i x => md.setDigest i { md.digests i with iterations := x }
  | .digestSalt =>
    stringAt v n fun i s => copyBase64 P (some 32) s (md.digests i).salt fun x =>
      md.setDigest i { md.digests i with salt := x }
  | .digestDigest =>
    stringAt v n fun i s =>
      copyBase64 P ((vicHashType (md.digests i).hash.chars).map HashType.size) s (md.digests i).digest
        fun x => md.setDigest i { md.digests i with digest := x }
  | _ => .error .unknownValue

/-- What is done with a value; `n` is the number of `path[1]`. -/
def readField (field : Field) (v : Value) (n : Word) (md : Metadata) : Except JsonResult Metadata :=
  match field with
  | .configJsonSize => copyConfig v fun x => { md with config := { md.config with jsonSize := x } }
  | .configKeyslotsSize => copyConfig v fun x => { md with config := { md.config with keyslotsSize := x } }
  | .digestType | .digestKeyslots | .digestSegments | .digestHash | .digestIterations | .digestSalt
  | .digestDigest => readDigest P field v n md
  | .segmentType | .segmentOffset | .segmentIvTweak | .segmentSize | .segmentEncryption
  | .segmentSectorSize | .integrityType | .journalEncryption | .journalIntegrity => readSegment field v n md
  | _ => readKeyslot P field v n md

/-- `json_callback_data_t`; the names of its path are not used. -/
structure ReadData where
  md : Metadata
  depth : ℕ

def jsonReadCallback : Callback ReadData := fun path reason v data =>
  match reason with
  | .name => .ok data
  | .beginObject =>
    if data.depth = maxNesting then .error .nestingOverflow else .ok { data with depth := data.depth + 1 }
  | .endObject =>
    if data.depth = 0 then .error .nestingUnderflow else .ok { data with depth := data.depth - 1 }
  | .beginArray => .ok data
  | .endArray => .ok data
  | .value =>
    match fieldOf path with
    | some field => (readField P field v (path.node 1).number data.md).map fun md => { data with md := md }
    | none => .error .unknownValue

/-- The part of `luks2_read_hdr` that parses the JSON area; `behind` is what is in memory behind the copy
of it. -/
def readJson (behind : List Byte) (json : List Byte) : Option Metadata :=
  match jsonParse ⟨jsonReadCallback P, true, behind⟩ json ⟨{}, 0⟩ with
  | .ok _ s => if s.data.depth ≠ 0 then none else some s.data.md
  | .error _ _ => none

end SgxLkl.Luks
