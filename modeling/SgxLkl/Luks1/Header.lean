import SgxLkl.Luks.HeaderIo

/-!
# The LUKS1 header

The header is in the first two sectors of the device. All numbers are big-endian.

* **`Hdr.decode_encode`**: a header is read back from its bytes.
-/

namespace SgxLkl.Luks1

open Luks List

/-! ## The header -/

structure Keyslot where
  active : BitVec 32
  iterations : BitVec 32
  salt : List.Vector Byte 32
  keyMaterialOffset : BitVec 32
  stripes : BitVec 32

abbrev numKeys : ℕ := 8

structure Hdr where
  magic : List.Vector Byte 6
  version : BitVec 16
  cipherName : List.Vector Byte 32
  cipherMode : List.Vector Byte 32
  hashSpec : List.Vector Byte 32
  payloadOffset : BitVec 32
  keyBytes : BitVec 32
  mkDigest : List.Vector Byte 20
  mkDigestSalt : List.Vector Byte 32
  mkDigestIter : BitVec 32
  uuid : List.Vector Byte 40
  keyslots : Fin numKeys → Keyslot

def hdrSize : ℕ := 592

def Keyslot.encode (ks : Keyslot) : List Byte :=
  beBytes 4 ks.active.toNat ++ (beBytes 4 ks.iterations.toNat ++ (ks.salt.toList ++
    (beBytes 4 ks.keyMaterialOffset.toNat ++ beBytes 4 ks.stripes.toNat)))

def Keyslot.decode (b : List Byte) : Keyslot where
  active := BitVec.ofNat 32 (beNat (b.take 4))
  iterations := BitVec.ofNat 32 (beNat ((b.drop 4).take 4))
  salt := toVector 32 ((b.drop 8).take 32)
  keyMaterialOffset := BitVec.ofNat 32 (beNat ((b.drop 40).take 4))
  stripes := BitVec.ofNat 32 (beNat ((b.drop 44).take 4))

/-- The header as it is stored, after `_fix_luks1_hdr_byte_order`. -/
def Hdr.encode (h : Hdr) : List Byte :=
  h.magic.toList ++ (beBytes 2 h.version.toNat ++ (h.cipherName.toList ++ (h.cipherMode.toList ++
    (h.hashSpec.toList ++ (beBytes 4 h.payloadOffset.toNat ++ (beBytes 4 h.keyBytes.toNat ++
    (h.mkDigest.toList ++ (h.mkDigestSalt.toList ++ (beBytes 4 h.mkDigestIter.toNat ++ (h.uuid.toList ++
    (List.ofFn fun i => (h.keyslots i).encode).flatten))))))))))

def Hdr.decode (b : List Byte) : Hdr where
  magic := toVector 6 (b.take 6)
  version := BitVec.ofNat 16 (beNat ((b.drop 6).take 2))
  cipherName := toVector 32 ((b.drop 8).take 32)
  cipherMode := toVector 32 ((b.drop 40).take 32)
  hashSpec := toVector 32 ((b.drop 72).take 32)
  payloadOffset := BitVec.ofNat 32 (beNat ((b.drop 104).take 4))
  keyBytes := BitVec.ofNat 32 (beNat ((b.drop 108).take 4))
  mkDigest := toVector 20 ((b.drop 112).take 20)
  mkDigestSalt := toVector 32 ((b.drop 132).take 32)
  mkDigestIter := BitVec.ofNat 32 (beNat ((b.drop 164).take 4))
  uuid := toVector 40 ((b.drop 168).take 40)
  keyslots := fun i => Keyslot.decode ((b.drop (208 + 48 * i)).take 48)

/-! ## Reading and writing -/

def isValidLuks1Hdr (hdr : Hdr) : Bool := hdr.magic = magic1st && hdr.version = 1

def luks1ReadHdr (dev : Blockdev) : Option Hdr := do
  guard (isValidDevice dev)
  let blocks ← dev.get 0 2
  let hdr := Hdr.decode (blocks.take hdrSize)
  guard (isValidLuks1Hdr hdr)
  return hdr

def Hdr.blocks (hdr : Hdr) : List Byte := hdr.encode ++ List.replicate (2 * sectorSize - hdrSize) 0

/-! ## Reading back -/

theorem drop_flatten_ofFn {α : Type*} {n k : ℕ} {f : Fin k → List α} (hf : ∀ i, (f i).length = n) (i : Fin k) :
    ∃ r, (List.ofFn f).flatten.drop (n * i) = f i ++ r := by
  induction k with
  | zero => exact i.elim0
  | succ k ih =>
    rw [ofFn_succ, flatten_cons]
    cases i using Fin.cases with
    | zero => exact ⟨(ofFn fun i => f i.succ).flatten, by simp⟩
    | succ i =>
      obtain ⟨r, hr⟩ := ih (fun j => hf j.succ) i
      refine ⟨r, ?_⟩
      rw [Fin.val_succ, Nat.mul_succ, Nat.add_comm, ← drop_drop, drop_left' (hf 0), hr]

theorem Keyslot.length_encode (ks : Keyslot) : ks.encode.length = 48 := by simp [encode]

theorem Keyslot.decode_encode (ks : Keyslot) : decode ks.encode = ks := by
  have h0 : ks.encode.drop 0 = beBytes 4 ks.active.toNat ++ _ := rfl
  obtain ⟨hactive, h4⟩ := ofNat_field h0 rfl
  obtain ⟨hiterations, h8⟩ := ofNat_field h4 rfl
  obtain ⟨hsalt, h40⟩ := toVector_field h8
  obtain ⟨hoffset, h44⟩ := ofNat_field h40 rfl
  obtain ⟨hstripes, -⟩ := ofNat_field (h44.trans (append_nil _).symm) rfl
  exact Keyslot.mk.injEq .. ▸ ⟨hactive, hiterations, hsalt, hoffset, hstripes⟩

theorem Hdr.length_encode (h : Hdr) : h.encode.length = hdrSize := by
  have hslots : (map length (ofFn fun i => (h.keyslots i).encode)).sum = 8 * 48 := by
    rw [map_ofFn]
    simp [Function.comp_def, Keyslot.length_encode]
  simp only [encode, length_append, length_flatten, hslots, List.Vector.toList_length, length_beBytes]
  rfl

theorem Hdr.decode_encode (h : Hdr) : decode h.encode = h := by
  have h0 : h.encode.drop 0 = h.magic.toList ++ _ := rfl
  -- each field, and what is left behind it
  obtain ⟨hmagic, h6⟩ := toVector_field h0
  obtain ⟨hversion, h8⟩ := ofNat_field h6 rfl
  obtain ⟨hcipherName, h40⟩ := toVector_field h8
  obtain ⟨hcipherMode, h72⟩ := toVector_field h40
  obtain ⟨hhashSpec, h104⟩ := toVector_field h72
  obtain ⟨hpayloadOffset, h108⟩ := ofNat_field h104 rfl
  obtain ⟨hkeyBytes, h112⟩ := ofNat_field h108 rfl
  obtain ⟨hmkDigest, h132⟩ := toVector_field h112
  obtain ⟨hmkDigestSalt, h164⟩ := toVector_field h132
  obtain ⟨hmkDigestIter, h168⟩ := ofNat_field h164 rfl
  obtain ⟨huuid, h208⟩ := toVector_field h168
  have hslots : (fun i : Fin numKeys => Keyslot.decode ((h.encode.drop (208 + 48 * i)).take 48)) = h.keyslots := by
    funext i
    obtain ⟨r, hr⟩ := drop_flatten_ofFn (fun i => (h.keyslots i).length_encode) i
    rw [← drop_drop, show h.encode.drop 208 = _ from h208, hr, take_left' (h.keyslots i).length_encode,
      Keyslot.decode_encode]
  exact Hdr.mk.injEq .. ▸ ⟨hmagic, hversion, hcipherName, hcipherMode, hhashSpec, hpayloadOffset, hkeyBytes, hmkDigest,
    hmkDigestSalt, hmkDigestIter, huuid, hslots⟩

variable {dev : Blockdev} {hdr : Hdr}

theorem take_readRange (d : ℕ → Byte) (off : ℕ) {n m : ℕ} (h : m ≤ n) :
    (readRange d off n).take m = readRange d off m := by
  have hpart := take_drop_readRange d off (show 0 + m ≤ n by omega)
  rwa [drop_zero, Nat.add_zero] at hpart

theorem luks1ReadHdr_eq_some : luks1ReadHdr dev = some hdr ↔
    dev.blockSize = sectorSize ∧ 2 * sectorSize ≤ dev.size ∧ isValidLuks1Hdr hdr = true ∧
      Hdr.decode (readRange dev.data 0 hdrSize) = hdr := by
  have hpart : (readRange dev.data 0 (2 * sectorSize)).take hdrSize = readRange dev.data 0 hdrSize :=
    take_readRange dev.data 0 (by decide)
  simp only [luks1ReadHdr, isValidDevice, Option.bind_eq_bind, Option.bind_eq_some_iff, Option.guard_eq_some',
    exists_const, Option.pure_def, Option.some.injEq, decide_eq_true_eq]
  constructor
  · rintro ⟨hblock, blocks, hget, hvalid, rfl⟩
    have hsize := Blockdev.le_of_get hblock hget
    rw [Blockdev.get_eq 0 (2 * sectorSize) hblock rfl rfl (by omega)] at hget
    obtain rfl := Option.some.inj hget
    rw [hpart] at hvalid ⊢
    exact ⟨hblock, by omega, hvalid, rfl⟩
  · rintro ⟨hblock, hsize, hvalid, rfl⟩
    refine ⟨hblock, _, Blockdev.get_eq 0 (2 * sectorSize) hblock rfl rfl (by omega), ?_⟩
    rw [hpart]
    exact ⟨hvalid, rfl⟩

theorem Hdr.length_blocks (hdr : Hdr) : hdr.blocks.length = 2 * sectorSize := by
  rw [blocks, length_append, hdr.length_encode, length_replicate]
  rfl

theorem readRange_blocks (d : ℕ → Byte) (hdr : Hdr) :
    readRange (writeRange d 0 hdr.blocks) 0 hdrSize = hdr.encode := by
  have hall := readRange_writeRange d 0 hdr.blocks
  rw [hdr.length_blocks] at hall
  rw [← take_readRange _ 0 (show hdrSize ≤ 2 * sectorSize by decide), hall, Hdr.blocks,
    take_left' hdr.length_encode]

end SgxLkl.Luks1
