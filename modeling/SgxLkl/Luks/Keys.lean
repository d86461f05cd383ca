import SgxLkl.Luks.HeaderIo
import SgxLkl.Json.Source

/-!
# Key slots

A key slot stores the master key: split into stripes, and encrypted with a key that is derived from the
password. All functions read the header first. Those that add a key write the header before they generate
the key material.

* `findKeyByPwd`: `_find_key_by_pwd`. The slots are tried in order; an error ends the search.
-/

namespace SgxLkl.Luks

open Json (bytes ch isSpace isHexDigit hexValue readSign)

variable (P : Primitives)

def orRaise {α : Type} (r : VicResult) : Option α → Except VicResult α
  | some x => .ok x
  | none => .error r

/-! ## Finding a key -/

/-- The key that is derived from the password. With an unknown type it is left uninitialised. -/
def deriveKey (ks : Keyslot) (pwd : List Byte) : Except VicResult (List Byte) :=
  if ks.kdf.type.chars = bytes "pbkdf2" then
    orRaise .pbkdf2Failed (vicPbkdf2 P pwd ks.kdf.salt.toList ks.kdf.iterations ks.kdf.hash.chars
      ks.area.keySize.toNat)
  else if ks.kdf.type.chars = bytes "argon2i" then
    orRaise .argon2iFailed (vicArgon2 P .i pwd ks.kdf.salt.toList ks.kdf.time ks.kdf.memory ks.kdf.cpus
      ks.area.keySize)
  else if ks.kdf.type.chars = bytes "argon2id" then
    orRaise .argon2iFailed (vicArgon2 P .id pwd ks.kdf.salt.toList ks.kdf.time ks.kdf.memory ks.kdf.cpus
      ks.area.keySize)
  else .ok P.stack

/-- `_read_key_material`, to a buffer that is zero at first. -/
def readKeyMaterial (dev : Blockdev) (ks : Keyslot) : Option (List Byte) :=
  (dev.get (ks.area.offset.toNat / sectorSize) (ks.area.size.toNat / sectorSize)).map fun data =>
    data ++ List.replicate (ks.area.size.toNat - data.length) 0

def writeKeyMaterial (dev : Blockdev) (ks : Keyslot) (data : List Byte) : Option Blockdev :=
  dev.put (ks.area.offset.toNat / sectorSize) (ks.area.size.toNat / sectorSize) data

/-- The master key that the password opens, if it is the right one. -/
def slotKey (dev : Blockdev) (ks : Keyslot) (pwd : List Byte) : Except VicResult (List Byte) := do
  let key ← deriveKey P ks pwd
  let cipher ← orRaise .keyMaterialReadFailed (readKeyMaterial dev ks)
  let plain ← orRaise .decryptFailed (decrypt P ks.area.encryption.chars ks.area.keySize key cipher)
  orRaise .afmergeFailed (vicAfmerge P ks.keySize.toNat ks.af.stripes ks.af.hash.chars plain)

def findDigest (md : Metadata) (i : Fin numKeyslots) : Option Digest :=
  ((List.finRange numDigests).find? fun j => (md.digests j).keyslots i).map md.digests

def checkDigest (digest : Digest) (mk : List Byte) : Except VicResult Bool := do
  let t ← orRaise .unexpected (vicHashType digest.hash.chars)
  if digest.type.chars = bytes "pbkdf2" then
    let mkDigest ← orRaise .pbkdf2Failed
      (vicPbkdf2 P mk digest.salt.toList digest.iterations digest.hash.chars t.size)
    return digest.digest.toList.take t.size = mkDigest
  else .error .unsupported

def trySlot (dev : Blockdev) (md : Metadata) (pwd : List Byte) (i : Fin numKeyslots) :
    Except VicResult (Option (List Byte)) :=
  let ks := md.keyslots i
  if ks.type.chars = [] then .ok none
  else if ks.type.chars ≠ bytes "luks2" then .error .unknownKeyslotType
  else do
    let mk ← slotKey P dev ks pwd
    let digest ← orRaise .digestNotFound (findDigest md i)
    return if ← checkDigest P digest mk then some mk else none

def findLoop (dev : Blockdev) (md : Metadata) (pwd : List Byte) :
    List (Fin numKeyslots) → Except VicResult (List Byte × Fin numKeyslots)
  | [] => .error .notFound
  | i :: is => do
    match ← trySlot P dev md pwd i with
    | some mk => return (mk, i)
    | none => findLoop dev md pwd is

/-- `_find_key_by_pwd`: the master key and the slot. The size of the key is that of the slot. -/
def findKeyByPwd (dev : Blockdev) (md : Metadata) (pwd : List Byte) :
    Except VicResult (List Byte × Fin numKeyslots) :=
  findLoop P dev md pwd (List.finRange numKeyslots)

/-- `luks2_recover_master_key`: the key and its size. -/
def luks2RecoverMasterKey (dev : Blockdev) (pwd : Option (List Byte)) : Except VicResult (List Byte × Word) := do
  if ¬ isValidDevice dev then .error .badDevice
  let pwd ← orRaise .badParameter pwd
  let ext ← orRaise .headerReadFailed (luks2ReadHdr P dev)
  let (mk, i) ← findKeyByPwd P dev ext.md pwd
  return (mk, (ext.md.keyslots i).keySize)

/-! ## Adding a key -/

structure VicKdf where
  hash : Option (CString Byte) := none
  iterations : Word := 0
  time : Word := 0
  memory : Word := 0
  cpus : Word := 0

def literal (s : String) (h : Json.isPlain (bytes s) = true := by rfl) : CString Byte :=
  ⟨bytes s, Json.not_mem_bytes h⟩

theorem isPlain_aesXts : Json.isPlain (bytes "aes-xts-plain64") = true := rfl

theorem isPlain_pbkdf2 : Json.isPlain (bytes "pbkdf2") = true := rfl

/-- `_get_default_kdf`, for a type that is valid. -/
def getDefaultKdf (kdfType : CString Byte) : VicKdf :=
  if kdfType.chars = bytes "pbkdf2" then { hash := some (literal "sha256"), iterations := 1000 }
  else { time := 4, memory := 744976, cpus := 1 }

def chooseKdf (kdfType : Option (CString Byte)) (kdf : Option VicKdf) : Except VicResult (CString Byte × VicKdf) :=
  let kdfType := kdfType.getD (literal "argon2i")
  if validPbkdfType kdfType.chars then .ok (kdfType, kdf.getD (getDefaultKdf kdfType))
  else .error .badParameter

def vicRoundUp (x m : Word) : Word := (x + m - 1) / m * m

def orDefault (x y : Word) : Word := if x = 0 then y else x

/-- `_init_keyslot`; `salt` is what `vic_random` gives. -/
def initKeyslot (cipher : CString Byte) (keySize areaKeySize : Word) (kdfType : CString Byte) (kdf : VicKdf)
    (index : Fin numKeyslots) (salt : List.Vector Byte 32) : Option Keyslot :=
  let areaSize := vicRoundUp (4000 * keySize) 4096
  let hash := kdf.hash.getD (literal "sha256")
  if keySize = 0 then none
  else if ¬ validPbkdfType kdfType.chars then none
  else if vicHashType hash.chars = none then none
  else
    some {
      type := strlcpy (literal "luks2")
      keySize := keySize
      kdf :=
        if kdfType.chars = bytes "pbkdf2" then
          { type := strlcpy kdfType, salt := salt, hash := strlcpy hash,
            iterations := orDefault kdf.iterations 1000 }
        else
          { type := strlcpy kdfType, salt := salt, time := orDefault kdf.time 4,
            memory := orDefault kdf.memory 744976, cpus := orDefault kdf.cpus 1 }
      af := { type := strlcpy (literal "luks1"), hash := strlcpy hash, stripes := 4000 }
      area := {
        type := strlcpy (literal "raw")
        encryption := strlcpy cipher
        keySize := areaKeySize
        offset := 2 * 16384 + areaSize * BitVec.ofNat 64 index
        size := areaSize } }

def vicIntegrityKeySize (integrity : List Byte) : Word :=
  if integrity = bytes "hmac(sha256)" then 32
  else if integrity = bytes "hmac(sha512)" then 64
  else 0

def findFreeKeyslot (md : Metadata) : Option (Fin numKeyslots) :=
  (List.finRange numKeyslots).find? fun i => (md.keyslots i).type.chars = []

/-- What `vic_random` gives to a new key slot. -/
structure Random where
  salt : List.Vector Byte 32
  stripes : ℕ → Byte

def addSlot (md : Metadata) (cipher : CString Byte) (keySize : Word) (kdf : CString Byte × VicKdf)
    (salt : List.Vector Byte 32) : Except VicResult (Metadata × Fin numKeyslots) := do
  -- the area key excludes the integrity key
  let areaKeySize := keySize - vicIntegrityKeySize (md.segments 0).integrity.type.chars
  let i ← orRaise .outOfKeyslots (findFreeKeyslot md)
  let ks ← orRaise .failed (initKeyslot cipher keySize areaKeySize kdf.1 kdf.2 i salt)
  let digest := md.digests 0
  return ((md.setKeyslot i ks).setDigest 0
    { digest with keyslots := Function.update digest.keyslots i true }, i)

def generateKeyMaterial (ks : Keyslot) (key pwd : List Byte) (stripes : ℕ → Byte) :
    Except VicResult (List Byte) := do
  let pbkdf2Key ← deriveKey P ks pwd
  let n := ks.af.stripes.setWidth 32
  let split ← orRaise .afsplitFailed (vicAfsplit P ks.af.hash.chars key ks.keySize.toNat n
    (readRange stripes 0 (ks.keySize.toNat * n.toNat)))
  let plain := split ++ List.replicate (ks.area.size.toNat - split.length) 0
  orRaise .encryptFailed (encrypt P ks.area.encryption.chars ks.area.keySize pbkdf2Key plain)

/-- What the functions do behind their checks: the header is written, then the key material of one slot is
generated and written. -/
def commitKey (dev : Blockdev) (ext : ExtHdr) (i : Fin numKeyslots) (key pwd : List Byte)
    (stripes : ℕ → Byte) : VicResult × Blockdev :=
  match writeHdr P dev ext with
  | (.ok, dev) =>
    match generateKeyMaterial P (ext.md.keyslots i) key pwd stripes with
    | .ok data =>
      orFail .keyMaterialWriteFailed dev (writeKeyMaterial · (ext.md.keyslots i) data) fun dev => (.ok, dev)
    | .error r => (r, dev)
  | (r, dev) => (r, dev)

/-- A key slot that is to be written: the header, the slot, the master key and the password. -/
structure Plan where
  ext : ExtHdr
  index : Fin numKeyslots
  key : List Byte
  pwd : List Byte

/-- The checks come first; they change nothing. -/
def runPlan (dev : Blockdev) (plan : Except VicResult Plan) (stripes : ℕ → Byte) : VicResult × Blockdev :=
  match plan with
  | .ok plan => commitKey P dev plan.ext plan.index plan.key plan.pwd stripes
  | .error r => (r, dev)

/-- The arguments of `luks2_add_key`; `none` is a null pointer. -/
structure AddArgs where
  keyslotCipher : Option (CString Byte)
  kdfType : Option (CString Byte)
  kdf : Option VicKdf
  pwd : Option (List Byte)
  newPwd : Option (List Byte)

def addKeyPlan (dev : Blockdev) (args : AddArgs) (salt : List.Vector Byte 32) : Except VicResult Plan := do
  if ¬ isValidDevice dev then .error .badParameter
  let pwd ← orRaise .badParameter args.pwd
  let newPwd ← orRaise .badParameter args.newPwd
  let kdf ← chooseKdf args.kdfType args.kdf
  let ext ← orRaise .headerReadFailed (luks2ReadHdr P dev)
  let (key, i) ← findKeyByPwd P dev ext.md pwd
  let ks := ext.md.keyslots i
  let cipher := args.keyslotCipher.getD ks.area.encryption.toCString
  let (md, i) ← addSlot ext.md cipher ks.keySize kdf salt
  return ⟨{ ext with md := md }, i, key, newPwd⟩

def luks2AddKey (dev : Blockdev) (args : AddArgs) (random : Random) : VicResult × Blockdev :=
  runPlan P dev (addKeyPlan P dev args random.salt) random.stripes

/-- The arguments of `luks2_add_key_by_master_key`. -/
structure AddByMasterKeyArgs where
  keyslotCipher : Option (CString Byte)
  kdfType : Option (CString Byte)
  kdf : Option VicKdf
  masterKey : Option (List.Vector Byte 128)
  masterKeyBytes : Word
  pwd : Option (List Byte)

def addKeyByMasterKeyPlan (dev : Blockdev) (args : AddByMasterKeyArgs) (salt : List.Vector Byte 32) :
    Except VicResult Plan := do
  if ¬ isValidDevice dev then .error .badParameter
  let cipher ← orRaise .badParameter args.keyslotCipher
  let masterKey ← orRaise .badParameter args.masterKey
  let pwd ← orRaise .badParameter args.pwd
  let kdf ← chooseKdf args.kdfType args.kdf
  let ext ← orRaise .headerReadFailed (luks2ReadHdr P dev)
  let (md, i) ← addSlot ext.md cipher args.masterKeyBytes kdf salt
  return ⟨{ ext with md := md }, i, masterKey.toList.take args.masterKeyBytes.toNat, pwd⟩

def luks2AddKeyByMasterKey (dev : Blockdev) (args : AddByMasterKeyArgs) (random : Random) : VicResult × Blockdev :=
  runPlan P dev (addKeyByMasterKeyPlan P dev args random.salt) random.stripes

/-! ## Changing and removing a key -/

def changeKeyPlan (dev : Blockdev) (oldPwd newPwd : Option (List Byte)) : Except VicResult Plan := do
  if ¬ isValidDevice dev then .error .badParameter
  let oldPwd ← orRaise .badParameter oldPwd
  let newPwd ← orRaise .badParameter newPwd
  let ext ← orRaise .headerReadFailed (luks2ReadHdr P dev)
  let (key, i) ← findKeyByPwd P dev ext.md oldPwd
  return ⟨ext, i, key, newPwd⟩

def luks2ChangeKey (dev : Blockdev) (oldPwd newPwd : Option (List Byte)) (stripes : ℕ → Byte) :
    VicResult × Blockdev :=
  runPlan P dev (changeKeyPlan P dev oldPwd newPwd) stripes

def countKeyslots (md : Metadata) : ℕ :=
  ((List.finRange numKeyslots).filter fun i => (md.keyslots i).type.chars ≠ []).length

def removeSlot (md : Metadata) (i : Fin numKeyslots) : Metadata :=
  let digest := md.digests 0
  (md.setKeyslot i {}).setDigest 0 { digest with keyslots := Function.update digest.keyslots i false }

/-- The checks of `luks2_remove_key`: the header without the slot, and the slot. -/
def removeKeyPlan (dev : Blockdev) (pwd : Option (List Byte)) : Except VicResult (ExtHdr × Fin numKeyslots) := do
  if ¬ isValidDevice dev then .error .badParameter
  let pwd ← orRaise .badParameter pwd
  let ext ← orRaise .headerReadFailed (luks2ReadHdr P dev)
  let (_, i) ← findKeyByPwd P dev ext.md pwd
  if countKeyslots ext.md = 1 then .error .lastKeyslot
  return ({ ext with md := removeSlot ext.md i }, i)

/-- `luks2_remove_key`. The key material is cleared where the slot says that it is, and the slot is zero
by then. -/
def luks2RemoveKey (dev : Blockdev) (pwd : Option (List Byte)) : VicResult × Blockdev :=
  match removeKeyPlan P dev pwd with
  | .error r => (r, dev)
  | .ok (ext, i) =>
    match writeHdr P dev ext with
    | (.ok, dev) =>
      let ks := ext.md.keyslots i
      orFail .keyMaterialWriteFailed dev
        (writeKeyMaterial · ks (List.replicate ks.area.size.toNat 0)) fun dev => (.ok, dev)
    | (r, dev) => (r, dev)

/-! ## Formatting a device -/

def hex2 (c : Byte) : List Byte :=
  let digit (x : Byte) : Byte := if x < 10 then 0x30 + x else 0x57 + x
  [digit (c >>> 4), digit (c &&& 0x0f)]

def vicUuidGenerate (random : List.Vector Byte 16) : List Byte :=
  (random.toList.zipIdx.map fun (c, i) =>
    (if i = 4 ∨ i = 6 ∨ i = 8 ∨ i = 10 then [Json.ch '-'] else []) ++ hex2 c).flatten

/-- The digits behind the sign, at most `width` of them with the `0x` in front. -/
def scanDigits (width : ℕ) (text : List Byte) : Option (ℕ × List Byte) :=
  let window := text.take width
  let skip := if window.head? = some (ch '0') ∧ (window.tail.head? = some (ch 'x') ∨ window.tail.head? = some (ch 'X'))
    then 2 else 0
  let digits := (window.drop skip).takeWhile isHexDigit
  if digits = [] then none
  else some (digits.foldl (fun x c => x * 16 + hexValue c) 0, text.drop (skip + digits.length))

/-- A conversion `x` of `sscanf` with a width: the value and the text behind it. -/
def scanHex (width : ℕ) (text : List Byte) : Option (Word × List Byte) :=
  let t := text.dropWhile isSpace
  let r := readSign t
  (scanDigits (width - (t.length - r.2.length)) r.2).map fun d =>
    (if r.1 then -BitVec.ofNat 64 d.1 else BitVec.ofNat 64 d.1, d.2)

/-- A conversion, and a dash behind it. -/
def scanField (width : ℕ) (text : List Byte) : Option (List Byte) :=
  (scanHex width text).bind fun r => if r.2.head? = some (ch '-') then some r.2.tail else none

/-- Whether `sscanf` makes the five conversions of `vic_uuid_valid`. -/
def scansUuid (s : List Byte) : Bool :=
  (((((scanField 8 s).bind (scanField 4)).bind (scanField 4)).bind (scanField 4)).bind (scanHex 12)).isSome

/-- `vic_uuid_valid`. -/
def vicUuidValid (uuid : List Byte) : Bool := uuid.length = 36 && scansUuid uuid

def vicIntegrityValid (integrity : List Byte) : Bool :=
  integrity = bytes "aead" || integrity = bytes "hmac(sha256)" || integrity = bytes "hmac(sha512)" ||
    integrity = bytes "cmac(aes)" || integrity = bytes "poly1305"

/-- `OVERHEAD_BYTES` and `MIN_DEVICE_BYTES`. -/
def overheadBytes : ℕ := 16777216
def minDeviceBytes : ℕ := 17825792

structure FormatArgs where
  label : Option (CString Byte)
  subsystem : Option (CString Byte)
  cipher : Option (CString Byte)
  uuid : Option (CString Byte)
  hash : Option (CString Byte)
  iterations : Word
  masterKey : Option (List.Vector Byte 128)
  masterKeyBytes : Word
  integrity : Option (CString Byte)

structure FormatRandom where
  uuid : List.Vector Byte 16
  masterKey : List.Vector Byte 128
  hdrSalt : List.Vector Byte 64
  digestSalt : List.Vector Byte 32

/-- `vic_strlcpy` to an array of `n` characters. -/
def strlcpyTo (n : ℕ) (s : Option (CString Byte)) : List.Vector Byte n :=
  toVector n ((s.map CString.chars).getD [] |>.take (n - 1))

def initIntegrity (integrity : Option (CString Byte)) : Except VicResult Integrity :=
  match integrity with
  | none => .ok {}
  | some integrity =>
    if ¬ vicIntegrityValid integrity.chars then .error .badIntegrityType
    else if 32 ≤ integrity.length then .error .bufferTooSmall
    else .ok ⟨strlcpy integrity, strlcpy (literal "none"), strlcpy (literal "none")⟩

def newHdr (args : FormatArgs) (random : FormatRandom) (uuid : List Byte) : Hdr where
  magic := magic1st
  version := 2
  hdrSize := 16384
  seqid := 1
  label := strlcpyTo 48 args.label
  csumAlg := strlcpyTo 32 (some (literal "sha256"))
  salt := random.hdrSalt
  uuid := toVector 40 uuid
  subsystem := strlcpyTo 48 args.subsystem
  hdrOffset := 0
  padding := List.Vector.replicate 184 0
  csum := List.Vector.replicate 64 0
  padding4096 := List.Vector.replicate 3584 0

def newSegment (args : FormatArgs) (integrity : Integrity) : Segment where
  type := strlcpy (literal "crypt")
  offset := BitVec.ofNat 64 overheadBytes
  size := BitVec.allOnes 64
  encryption := strlcpy (args.cipher.getD (literal "aes-xts-plain64"))
  sectorSize := BitVec.ofNat 64 sectorSize
  integrity := integrity

def newDigest (args : FormatArgs) (random : FormatRandom) (digest : List Byte) : Digest where
  type := strlcpy (literal "pbkdf2")
  segments := fun _ => true
  hash := strlcpy (args.hash.getD (literal "sha256"))
  iterations := if args.iterations < 1000 then 1000 else args.iterations
  salt := random.digestSalt
  digest := toVector 64 digest

def newMetadata (args : FormatArgs) (random : FormatRandom) (integrity : Integrity) (digest : List Byte) :
    Metadata where
  segments := fun _ => newSegment args integrity
  digests := Function.update (fun _ => {}) 0 (newDigest args random digest)
  config := ⟨12288, BitVec.ofNat 64 overheadBytes - 2 * 16384⟩

/-- `_initialize_hdr`. The checksum is SHA-256, which can always be calculated. -/
def initializeHdr (args : FormatArgs) (random : FormatRandom) (key : List Byte) (uuid : List Byte) :
    Except VicResult ExtHdr := do
  let hash := args.hash.getD (literal "sha256")
  let phdr := newHdr args random uuid
  let integrity ← initIntegrity args.integrity
  let t ← orRaise .unexpected (vicHashType hash.chars)
  let iterations := if args.iterations < 1000 then 1000 else args.iterations
  let digest ← orRaise .pbkdf2Failed
    (vicPbkdf2 P key random.digestSalt.toList iterations (strlcpy hash).chars t.size)
  let md := newMetadata args random integrity digest
  if 12288 ≤ (toJson P md).length then .error .failed
  let json := paddedJson P md 12288
  -- the secondary header is a copy that is changed before it is written
  return ⟨withCsum P phdr json, { phdr with magic := magic2nd, hdrOffset := 16384 }, md, 12288, json⟩

def formatKey (args : FormatArgs) (random : FormatRandom) : Except VicResult (List Byte) :=
  match args.masterKey with
  | none => .ok random.masterKey.toList
  | some masterKey =>
    if args.masterKeyBytes = 0 then .error .badParameter
    else if keyBufferSize < args.masterKeyBytes.toNat then .error .keyTooBig
    else .ok (masterKey.toList.take args.masterKeyBytes.toNat)

def formatPlan (dev : Blockdev) (args : FormatArgs) (random : FormatRandom) : Except VicResult ExtHdr := do
  if ¬ isValidDevice dev then .error .badParameter
  let uuid ← match args.uuid with
    | some uuid => if vicUuidValid uuid.chars then .ok uuid.chars else .error .badUuid
    | none => .ok (vicUuidGenerate random.uuid)
  let key ← formatKey args random
  let numDeviceBlocks := dev.size / dev.blockSize
  if numDeviceBlocks * sectorSize < minDeviceBytes then .error .deviceTooSmall
  let ext ← initializeHdr P args random key uuid
  if numDeviceBlocks ≤ (ext.md.segments 0).offset.toNat / sectorSize then .error .deviceTooSmall
  return ext

/-- `luks2_format`. The part for integrity is done by the device mapper: `dm` is its result and what the
payload is after it. -/
def luks2Format (dev : Blockdev) (args : FormatArgs) (random : FormatRandom) (dm : VicResult × (ℕ → Byte)) :
    VicResult × Blockdev :=
  match formatPlan P dev args random with
  | .error r => (r, dev)
  | .ok ext =>
    orFail .failed dev (writeBinaryHdr · ext.phdr true) fun dev =>
      orFail .failed dev (writeJsonArea · ext.phdr ext.jsonData ext.jsonSize) fun dev =>
        writeCopy P dev ext.shdr false ext.jsonData ext.jsonSize fun dev =>
          if args.integrity.isSome then
            (dm.1, { dev with data := fun i => if i < overheadBytes then dev.data i else dm.2 i })
          else (.ok, dev)

end SgxLkl.Luks
