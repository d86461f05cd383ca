import SgxLkl.Lib.BigEndian
import SgxLkl.Lib.Disk
import SgxLkl.Luks.Crypto
import Mathlib.Data.Vector.Basic

/-!
# The block device and the LUKS2 header

The device in blocks, the binary header of 4096 bytes, and the metadata that is stored as JSON.
-/

namespace SgxLkl.Luks

open Json (bytes)
open List

/-! ## The device -/

/-- `vic_result_t`, as far as it is used here. -/
inductive VicResult
  | ok | failed | unexpected | badParameter | badDevice | notFound | keyTooBig | deviceTooSmall
  | headerReadFailed | keyMaterialReadFailed | keyMaterialWriteFailed | pbkdf2Failed | encryptFailed
  | decryptFailed | afmergeFailed | afsplitFailed | unsupported | bufferTooSmall | unknownKeyslotType
  | digestNotFound | argon2iFailed | outOfKeyslots | badUuid | lastKeyslot | badIntegrityType
  | badFlags | notBlockMultiple | seekFailed | readFailed | headerWriteFailed | outOfBounds | fileTooSmall
  | badVersion
  deriving DecidableEq, Repr

/-- A block device without `VIC_CREATE`. -/
structure Blockdev where
  blockSize : ℕ
  size : ℕ
  data : ℕ → Byte

def Blockdev.get (dev : Blockdev) (blkno nblocks : ℕ) : Option (List Byte) :=
  if blkno * dev.blockSize + nblocks * dev.blockSize ≤ dev.size then
    some (readRange dev.data (blkno * dev.blockSize) (nblocks * dev.blockSize))
  else none

/-- `vic_blockdev_put`; of the buffer, `nblocks` blocks are written. -/
def Blockdev.put (dev : Blockdev) (blkno nblocks : ℕ) (blocks : List Byte) : Option Blockdev :=
  if blkno * dev.blockSize + nblocks * dev.blockSize ≤ dev.size then
    some { dev with
      data := writeRange dev.data (blkno * dev.blockSize) (blocks.take (nblocks * dev.blockSize)) }
  else none

def isValidDevice (dev : Blockdev) : Bool := dev.blockSize = sectorSize

/-! ## The binary header -/

def toVector (n : ℕ) (l : List Byte) : List.Vector Byte n :=
  ⟨(l ++ List.replicate n 0).take n, by simp⟩

theorem toVector_toList {n : ℕ} (v : List.Vector Byte n) : toVector n v.toList = v := by
  apply List.Vector.eq
  exact take_left' v.toList_length

def cstr {n : ℕ} (v : List.Vector Byte n) : List Byte := v.toList.takeWhile (· ≠ 0)

structure Hdr where
  magic : List.Vector Byte 6
  version : BitVec 16
  hdrSize : Word
  seqid : Word
  label : List.Vector Byte 48
  csumAlg : List.Vector Byte 32
  salt : List.Vector Byte 64
  uuid : List.Vector Byte 40
  subsystem : List.Vector Byte 48
  hdrOffset : Word
  padding : List.Vector Byte 184
  csum : List.Vector Byte 64
  padding4096 : List.Vector Byte 3584

def hdrBytes : ℕ := 4096

/-- The header as it is stored, after `_fix_luks2_hdr_byte_order`. -/
def Hdr.encode (h : Hdr) : List Byte :=
  h.magic.toList ++ (beBytes 2 h.version.toNat ++ (beBytes 8 h.hdrSize.toNat ++
    (beBytes 8 h.seqid.toNat ++ (h.label.toList ++ (h.csumAlg.toList ++ (h.salt.toList ++
    (h.uuid.toList ++ (h.subsystem.toList ++ (beBytes 8 h.hdrOffset.toNat ++ (h.padding.toList ++
    (h.csum.toList ++ h.padding4096.toList)))))))))))

def Hdr.decode (b : List Byte) : Hdr where
  magic := toVector 6 (b.take 6)
  version := BitVec.ofNat 16 (beNat ((b.drop 6).take 2))
  hdrSize := BitVec.ofNat 64 (beNat ((b.drop 8).take 8))
  seqid := BitVec.ofNat 64 (beNat ((b.drop 16).take 8))
  label := toVector 48 ((b.drop 24).take 48)
  csumAlg := toVector 32 ((b.drop 72).take 32)
  salt := toVector 64 ((b.drop 104).take 64)
  uuid := toVector 40 ((b.drop 168).take 40)
  subsystem := toVector 48 ((b.drop 208).take 48)
  hdrOffset := BitVec.ofNat 64 (beNat ((b.drop 256).take 8))
  padding := toVector 184 ((b.drop 264).take 184)
  csum := toVector 64 ((b.drop 448).take 64)
  padding4096 := toVector 3584 ((b.drop 512).take 3584)

theorem Hdr.length_encode (h : Hdr) : h.encode.length = hdrBytes := by
  simp [Hdr.encode, hdrBytes]

section

variable {b r : List Byte} {i : ℕ}

theorem toVector_field {n : ℕ} {v : List.Vector Byte n} (h : b.drop i = v.toList ++ r) :
    toVector n ((b.drop i).take n) = v ∧ b.drop (i + n) = r :=
  ⟨by rw [h, take_left' v.toList_length, toVector_toList], by rw [← drop_drop, h, drop_left' v.toList_length]⟩

theorem ofNat_field {w n : ℕ} {x : BitVec w} (h : b.drop i = beBytes n x.toNat ++ r) (hw : 256 ^ n = 2 ^ w) :
    BitVec.ofNat w (beNat ((b.drop i).take n)) = x ∧ b.drop (i + n) = r := by
  rw [← drop_drop, h, take_left' (length_beBytes n _), drop_left' (length_beBytes n _), beNat_beBytes, hw,
    Nat.mod_eq_of_lt x.isLt, BitVec.ofNat_toNat, BitVec.setWidth_eq]
  exact ⟨rfl, rfl⟩

end

theorem Hdr.decode_encode (h : Hdr) : Hdr.decode h.encode = h := by
  have h0 : h.encode.drop 0 = h.magic.toList ++ _ := rfl
  -- each field, and what is left behind it
  obtain ⟨hmagic, h6⟩ := toVector_field h0
  obtain ⟨hversion, h8⟩ := ofNat_field h6 rfl
  obtain ⟨hhdrSize, h16⟩ := ofNat_field h8 rfl
  obtain ⟨hseqid, h24⟩ := ofNat_field h16 rfl
  obtain ⟨hlabel, h72⟩ := toVector_field h24
  obtain ⟨hcsumAlg, h104⟩ := toVector_field h72
  obtain ⟨hsalt, h168⟩ := toVector_field h104
  obtain ⟨huuid, h208⟩ := toVector_field h168
  obtain ⟨hsubsystem, h256⟩ := toVector_field h208
  obtain ⟨hhdrOffset, h264⟩ := ofNat_field h256 rfl
  obtain ⟨hpadding, h448⟩ := toVector_field h264
  obtain ⟨hcsum, h512⟩ := toVector_field h448
  obtain ⟨hpadding4096, -⟩ := toVector_field (h512.trans (append_nil _).symm)
  exact Hdr.mk.injEq .. ▸ ⟨hmagic, hversion, hhdrSize, hseqid, hlabel, hcsumAlg, hsalt, huuid, hsubsystem, hhdrOffset,
    hpadding, hcsum, hpadding4096⟩

/-! ## The metadata -/

/-- A string that fits in an array of 32 characters. -/
structure Str where
  chars : List Byte
  nul : (0 : Byte) ∉ chars
  fits : chars.length < 32

def Str.toCString (s : Str) : CString Byte := ⟨s.chars, s.nul⟩

/-- `vic_strlcpy` to an array of 32 characters. -/
def strlcpy (s : CString Byte) : Str :=
  ⟨s.chars.take 31, fun h => s.nul (List.mem_of_mem_take h), by simp⟩

instance : Inhabited Str := ⟨⟨[], by simp, by simp⟩⟩

theorem Str.ext {s t : Str} (h : s.chars = t.chars) : s = t := by
  cases s
  cases t
  cases h
  rfl

theorem strlcpy_toCString (s : Str) : strlcpy s.toCString = s :=
  Str.ext (take_of_length_le (Nat.lt_succ_iff.mp s.fits))

structure Kdf where
  type : Str := default
  salt : List.Vector Byte 32 := List.Vector.replicate 32 0
  hash : Str := default
  iterations : Word := 0
  time : Word := 0
  memory : Word := 0
  cpus : Word := 0

structure Af where
  type : Str := default
  hash : Str := default
  stripes : Word := 0

structure Area where
  type : Str := default
  encryption : Str := default
  keySize : Word := 0
  offset : Word := 0
  size : Word := 0

/-- `luks2_keyslot_t`; without arguments, the slot that is all zero. -/
structure Keyslot where
  type : Str := default
  keySize : Word := 0
  kdf : Kdf := {}
  af : Af := {}
  area : Area := {}

structure Integrity where
  type : Str := default
  journalEncryption : Str := default
  journalIntegrity : Str := default

structure Segment where
  type : Str := default
  offset : Word := 0
  ivTweak : Word := 0
  size : Word := 0
  encryption : Str := default
  sectorSize : Word := 0
  integrity : Integrity := {}

/-- `LUKS2_NUM_KEYSLOTS`, `LUKS2_NUM_SEGMENTS` and `LUKS2_NUM_DIGESTS`. -/
abbrev numKeyslots : ℕ := 64
abbrev numSegments : ℕ := 1
abbrev numDigests : ℕ := 65

instance neZero_numKeyslots : NeZero numKeyslots := ⟨by decide⟩

instance neZero_numDigests : NeZero numDigests := ⟨by decide⟩

structure Digest where
  type : Str := default
  keyslots : Fin numKeyslots → Bool := fun _ => false
  segments : Fin numSegments → Bool := fun _ => false
  hash : Str := default
  iterations : Word := 0
  salt : List.Vector Byte 32 := List.Vector.replicate 32 0
  digest : List.Vector Byte 64 := List.Vector.replicate 64 0

structure Config where
  jsonSize : Word := 0
  keyslotsSize : Word := 0

/-- The part of `luks2_ext_hdr_t` that is stored as JSON. -/
structure Metadata where
  keyslots : Fin numKeyslots → Keyslot := fun _ => {}
  segments : Fin numSegments → Segment := fun _ => {}
  digests : Fin numDigests → Digest := fun _ => {}
  config : Config := {}

end SgxLkl.Luks
