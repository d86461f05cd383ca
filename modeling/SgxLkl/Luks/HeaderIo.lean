import SgxLkl.Luks.Decode

/-!
# The two copies of the header

The primary header is at the begin of the device, the secondary one behind its JSON area. Both are followed
by the same JSON area, and both have a checksum over themselves and the JSON area.

* **`luks2ReadHdr_of_holds`**: the header that a device holds is read.
* **`holds_writeHeaders`**: the device holds the header that was written.
-/

namespace SgxLkl.Luks

open Json (bytes)
open List

/-! ## Reading and writing -/

structure ExtHdr where
  phdr : Hdr
  shdr : Hdr
  md : Metadata
  jsonSize : ℕ
  jsonData : List Byte

def magic1st : List.Vector Byte 6 := ⟨bytes "LUKS" ++ [0xba, 0xbe], by decide⟩

def magic2nd : List.Vector Byte 6 := ⟨bytes "SKUL" ++ [0xba, 0xbe], by decide⟩

def defaultHdrSize : ℕ := 16384

/-- `_sec_hdr_offsets`: where a secondary header may be, and the size of the JSON area in kilobytes. -/
def secHdrOffsets : List (ℕ × ℕ) :=
  [(16384, 12), (32768, 28), (65536, 60), (131072, 124), (262144, 252), (524288, 508), (1048576, 1020),
    (2097152, 2044), (4194304, 4092)]

def isValidLuks2Hdr (hdr : Hdr) : Bool :=
  (hdr.magic = magic1st || hdr.magic = magic2nd) && hdr.version = 2

variable (P : Primitives)

def calculateCsum (hdr : Hdr) (json : List Byte) : Option (List Byte) :=
  if json = [] then none
  else match vicHashType (cstr hdr.csumAlg) with
    | none => none
    | some t =>
      if t = .ripemd160 then none
      else some (P.hash t (Hdr.encode { hdr with csum := List.Vector.replicate 64 0 } ++ json))

def readBinaryHdr (dev : Blockdev) (primary : Bool) : Option Hdr := do
  let blocks ← dev.get (if primary then 0 else defaultHdrSize / sectorSize) (hdrBytes / sectorSize)
  let hdr := Hdr.decode blocks
  guard (isValidLuks2Hdr hdr)
  return hdr

def writeBinaryHdr (dev : Blockdev) (hdr : Hdr) (primary : Bool) : Option Blockdev :=
  dev.put (if primary then 0 else hdr.hdrSize.toNat / sectorSize) (hdrBytes / sectorSize) hdr.encode

def jsonBlkno (hdr : Hdr) : ℕ := (BitVec.ofNat 64 hdrBytes + hdr.hdrOffset).toNat / sectorSize

def readJsonArea (dev : Blockdev) (hdr : Hdr) (jsonSize : ℕ) : Option (List Byte) :=
  dev.get (jsonBlkno hdr) (jsonSize / sectorSize)

def writeJsonArea (dev : Blockdev) (hdr : Hdr) (json : List Byte) (jsonSize : ℕ) : Option Blockdev :=
  dev.put (jsonBlkno hdr) (jsonSize / sectorSize) json

def csumMatches (hdr : Hdr) (json : List Byte) : Bool :=
  match calculateCsum P hdr json with
  | some hash => hash = hdr.csum.toList.take hash.length
  | none => false

/-- What `luks2_read_hdr` requires of the secondary header. -/
def isConsistent (hdr shdr : Hdr) : Bool :=
  shdr.magic = magic2nd && shdr.version = hdr.version && shdr.hdrSize = hdr.hdrSize &&
    shdr.seqid = hdr.seqid && cstr shdr.label = cstr hdr.label && cstr shdr.csumAlg = cstr hdr.csumAlg &&
    cstr shdr.uuid = cstr hdr.uuid && cstr shdr.subsystem = cstr hdr.subsystem && shdr.hdrOffset = hdr.hdrSize

def luks2ReadHdr (dev : Blockdev) : Option ExtHdr := do
  guard (isValidDevice dev)
  let hdr ← readBinaryHdr dev true
  guard (hdr.version = 2)
  guard (16384 ≤ hdr.hdrSize.toNat)
  guard (hdrBytes + 12 * 1024 ≤ hdr.hdrSize.toNat)
  let jsonSize := hdr.hdrSize.toNat - hdrBytes
  -- the secondary header has to be at one of the known offsets
  guard ((secHdrOffsets.find? fun r => r.1 = hdr.hdrSize.toNat).map (·.2) = some (jsonSize / 1024))
  let json ← readJsonArea dev hdr jsonSize
  guard (csumMatches P hdr json)
  let md ← readJson P P.behind json
  let shdr ← readBinaryHdr dev false
  guard (csumMatches P shdr json)
  guard (isConsistent hdr shdr)
  let json' ← readJsonArea dev shdr jsonSize
  guard (json = json')
  return ⟨hdr, shdr, md, jsonSize, json⟩

/-- A write that may fail, and what is done behind it. -/
def orFail (r : VicResult) (dev : Blockdev) (write : Blockdev → Option Blockdev)
    (next : Blockdev → VicResult × Blockdev) : VicResult × Blockdev :=
  match write dev with
  | some dev => next dev
  | none => (r, dev)

def bumpSeqid (hdr : Hdr) : Hdr := { hdr with seqid := hdr.seqid + 1 }

def writeCopy (dev : Blockdev) (hdr : Hdr) (primary : Bool) (json : List Byte) (jsonSize : ℕ)
    (next : Blockdev → VicResult × Blockdev) : VicResult × Blockdev :=
  match calculateCsum P hdr json with
  -- the error is not reported
  | none => (.ok, dev)
  | some hash =>
    let hdr := { hdr with csum := toVector 64 hash }
    orFail .failed dev (writeBinaryHdr · hdr primary) fun dev =>
      orFail .failed dev (writeJsonArea · hdr json jsonSize) next

def writeHdr (dev : Blockdev) (ext : ExtHdr) : VicResult × Blockdev :=
  let json := toJson P ext.md
  if ext.jsonSize ≤ json.length then (.failed, dev)
  else
    let json := json ++ List.replicate (ext.jsonSize - json.length) 0
    writeCopy P dev (bumpSeqid ext.phdr) true json ext.jsonSize fun dev =>
      writeCopy P dev (bumpSeqid ext.shdr) false json ext.jsonSize fun dev => (.ok, dev)

/-! ## Blocks -/

variable {P}

section

variable {dev dev' : Blockdev} {blkno nblocks off : ℕ} {xs : List Byte}

theorem Blockdev.get_eq (off n : ℕ) (hdev : dev.blockSize = sectorSize) (hoff : blkno * sectorSize = off)
    (hn : nblocks * sectorSize = n) (hsize : off + n ≤ dev.size) :
    dev.get blkno nblocks = some (readRange dev.data off n) := by
  subst hoff hn
  unfold Blockdev.get
  rw [hdev, if_pos hsize]

theorem Blockdev.put_eq (hdev : dev.blockSize = sectorSize) (hoff : blkno * sectorSize = off)
    (hn : nblocks * sectorSize = xs.length) (hsize : off + xs.length ≤ dev.size) :
    dev.put blkno nblocks xs = some { dev with data := writeRange dev.data off xs } := by
  subst hoff
  unfold Blockdev.put
  rw [hdev, hn, if_pos hsize, take_length]

theorem Blockdev.put_eq_some (h : dev.put blkno nblocks xs = some dev') :
    dev'.blockSize = dev.blockSize ∧ dev'.size = dev.size ∧
      Same (Set.Ico (blkno * dev.blockSize) (blkno * dev.blockSize + nblocks * dev.blockSize))ᶜ dev.data
        dev'.data := by
  unfold Blockdev.put at h
  split_ifs at h
  cases h
  refine ⟨rfl, rfl, same_writeRange dev.data ?_⟩
  apply Set.disjoint_left.mpr
  intro i hi hmem
  have hle : (xs.take (nblocks * dev.blockSize)).length ≤ nblocks * dev.blockSize := length_take_le _ _
  exact hi ⟨hmem.1, lt_of_lt_of_le hmem.2 (Nat.add_le_add_left hle _)⟩

end

/-! ## The header that a device holds -/

/-- The header is as `luks2_format` makes it. -/
structure ExtHdr.Formed (ext : ExtHdr) : Prop where
  jsonSize : ext.jsonSize = 12288
  magic : ext.phdr.magic = magic1st
  version : ext.phdr.version = 2
  hdrSize : ext.phdr.hdrSize = 16384
  hdrOffset : ext.phdr.hdrOffset = 0
  csumAlg : cstr ext.phdr.csumAlg = bytes "sha256"
  shdr : ext.shdr = { ext.phdr with magic := magic2nd, hdrOffset := 16384, csum := ext.shdr.csum }

def paddedJson (P : Primitives) (md : Metadata) (jsonSize : ℕ) : List Byte :=
  toJson P md ++ List.replicate (jsonSize - (toJson P md).length) 0

/-- The JSON area is that of the metadata, and the checksums are right. -/
structure ExtHdr.Sealed (P : Primitives) (ext : ExtHdr) : Prop where
  fits : (toJson P ext.md).length < ext.jsonSize
  json : ext.jsonData = paddedJson P ext.md ext.jsonSize
  pcsum : csumMatches P ext.phdr ext.jsonData = true
  scsum : csumMatches P ext.shdr ext.jsonData = true

structure Holds (dev : Blockdev) (ext : ExtHdr) : Prop where
  blockSize : dev.blockSize = sectorSize
  size : 32768 ≤ dev.size
  phdr : readRange dev.data 0 4096 = ext.phdr.encode
  pjson : readRange dev.data 4096 12288 = ext.jsonData
  shdr : readRange dev.data 16384 4096 = ext.shdr.encode
  sjson : readRange dev.data 20480 12288 = ext.jsonData

theorem length_paddedJson {md : Metadata} {jsonSize : ℕ} (h : (toJson P md).length < jsonSize) :
    (paddedJson P md jsonSize).length = jsonSize := by
  rw [paddedJson, length_append, length_replicate]
  omega

variable {dev dev' : Blockdev} {s : Set ℕ}

theorem Holds.congr {ext : ExtHdr} (h : Holds dev ext)
    (hblock : dev'.blockSize = dev.blockSize) (hsize : dev'.size = dev.size)
    (hsame : Same (Set.Iio 32768) dev.data dev'.data) : Holds dev' ext where
  blockSize := hblock.trans h.blockSize
  size := hsize ▸ h.size
  phdr := (hsame.mono fun i hi => by simp at hi ⊢; omega).readRange.trans h.phdr
  pjson := (hsame.mono fun i hi => by simp at hi ⊢; omega).readRange.trans h.pjson
  shdr := (hsame.mono fun i hi => by simp at hi ⊢; omega).readRange.trans h.shdr
  sjson := (hsame.mono fun i hi => by simp at hi ⊢; omega).readRange.trans h.sjson

section

variable {dev : Blockdev} {ext : ExtHdr}

theorem ExtHdr.Formed.jsonBlkno_phdr (h : ext.Formed) : jsonBlkno ext.phdr = 8 := by
  unfold jsonBlkno
  rw [h.hdrOffset]
  decide

theorem ExtHdr.Formed.jsonBlkno_shdr (h : ext.Formed) : jsonBlkno ext.shdr = 40 := by
  unfold jsonBlkno
  rw [h.shdr]
  show (BitVec.ofNat 64 hdrBytes + 16384).toNat / sectorSize = 40
  decide

theorem readBinaryHdr_eq {hdr : Hdr} {primary : Bool}
    (hget : dev.get (if primary then 0 else defaultHdrSize / sectorSize) (hdrBytes / sectorSize) =
      some hdr.encode) (hvalid : isValidLuks2Hdr hdr = true) : readBinaryHdr dev primary = some hdr := by
  simp only [readBinaryHdr, hget, Option.bind_eq_bind, Option.bind_some, Hdr.decode_encode, hvalid]
  rfl

section

variable (hdev : Holds dev ext) (h : ext.Formed)

include hdev h

theorem readBinaryHdr_primary : readBinaryHdr dev true = some ext.phdr := by
  have hsize := hdev.size
  refine readBinaryHdr_eq ?_ (by simp [isValidLuks2Hdr, h.magic, h.version])
  rw [if_pos rfl, Blockdev.get_eq 0 4096 hdev.blockSize rfl rfl (by omega), hdev.phdr]

theorem readBinaryHdr_secondary : readBinaryHdr dev false = some ext.shdr := by
  have hsize := hdev.size
  refine readBinaryHdr_eq ?_ (by rw [h.shdr]; simp [isValidLuks2Hdr, h.version])
  rw [if_neg Bool.false_ne_true, Blockdev.get_eq 16384 4096 hdev.blockSize rfl rfl (by omega), hdev.shdr]

theorem readJsonArea_primary : readJsonArea dev ext.phdr 12288 = some ext.jsonData := by
  have hsize := hdev.size
  rw [readJsonArea, h.jsonBlkno_phdr, Blockdev.get_eq 4096 12288 hdev.blockSize rfl rfl (by omega), hdev.pjson]

theorem readJsonArea_secondary : readJsonArea dev ext.shdr 12288 = some ext.jsonData := by
  have hsize := hdev.size
  rw [readJsonArea, h.jsonBlkno_shdr, Blockdev.get_eq 20480 12288 hdev.blockSize rfl rfl (by omega), hdev.sjson]

end

theorem ExtHdr.Formed.isConsistent (h : ext.Formed) : Luks.isConsistent ext.phdr ext.shdr = true := by
  rw [h.shdr]
  simp [Luks.isConsistent, h.hdrSize]

theorem luks2ReadHdr_of_holds (hdev : Holds dev ext) (h : ext.Formed) (hs : ext.Sealed P) :
    luks2ReadHdr P dev = (readJson P P.behind ext.jsonData).map fun md => { ext with md := md } := by
  have hvalid : isValidDevice dev = true := by simp [isValidDevice, hdev.blockSize]
  have hhdrSize : ext.phdr.hdrSize.toNat = 16384 := by rw [h.hdrSize]; rfl
  have hjson : ext.jsonSize = 16384 - hdrBytes := h.jsonSize
  have hoffsets : (secHdrOffsets.find? fun r => r.1 = 16384).map (·.2) = some ((16384 - hdrBytes) / 1024) := by
    decide
  simp only [luks2ReadHdr, readBinaryHdr_primary hdev h, readBinaryHdr_secondary hdev h, hvalid, h.version,
    hhdrSize, hoffsets, show 16384 - hdrBytes = 12288 from rfl, readJsonArea_primary hdev h,
    readJsonArea_secondary hdev h, hs.pcsum, hs.scsum, h.isConsistent, Option.bind_eq_bind, Option.bind_some,
    guard, if_true, Option.pure_def]
  cases readJson P P.behind ext.jsonData with
  | none => rfl
  | some md => simp [hdrBytes, h.jsonSize]

end

/-! ## The header that is written -/

def withCsum (P : Primitives) (hdr : Hdr) (json : List Byte) : Hdr :=
  { hdr with csum := toVector 64 ((calculateCsum P hdr json).getD []) }

def ExtHdr.next (P : Primitives) (ext : ExtHdr) : ExtHdr where
  phdr := withCsum P (bumpSeqid ext.phdr) (paddedJson P ext.md ext.jsonSize)
  shdr := withCsum P (bumpSeqid ext.shdr) (paddedJson P ext.md ext.jsonSize)
  md := ext.md
  jsonSize := ext.jsonSize
  jsonData := paddedJson P ext.md ext.jsonSize

section

variable {hdr : Hdr} {json : List Byte}

theorem HashType.size_le (t : HashType) : t.size ≤ 64 := by
  cases t <;> decide

theorem calculateCsum_csum (csum : List.Vector Byte 64) :
    calculateCsum P { hdr with csum := csum } json = calculateCsum P hdr json := rfl

variable {hash : List Byte}

theorem length_calculateCsum (h : calculateCsum P hdr json = some hash) : hash.length ≤ 64 := by
  unfold calculateCsum at h
  split_ifs at h
  split at h
  · cases h
  · split_ifs at h
    cases h
    rw [P.length_hash]
    exact HashType.size_le _

theorem isSome_calculateCsum (hdr : Hdr) (hjson : json ≠ []) (halg : cstr hdr.csumAlg = bytes "sha256") :
    ∃ hash, calculateCsum P hdr json = some hash := by
  have ht : vicHashType (bytes "sha256") = some .sha256 := by decide
  apply Option.isSome_iff_exists.mp
  unfold calculateCsum
  rw [if_neg hjson, halg, ht]
  rfl

theorem csumMatches_withCsum (h : calculateCsum P hdr json = some hash) :
    csumMatches P (withCsum P hdr json) json = true := by
  have htake : (toVector 64 hash).toList.take hash.length = hash := by
    show ((hash ++ replicate 64 0).take 64).take hash.length = hash
    rw [take_take, Nat.min_eq_left (length_calculateCsum h), take_left' rfl]
  unfold csumMatches withCsum
  rw [calculateCsum_csum, h]
  exact decide_eq_true htake.symm

end

def writeHeaders (d : ℕ → Byte) (ext : ExtHdr) : ℕ → Byte :=
  writeRange (writeRange (writeRange (writeRange d 0 ext.phdr.encode) 4096 ext.jsonData) 16384
    ext.shdr.encode) 20480 ext.jsonData

section

variable {dev : Blockdev} {ext : ExtHdr}

theorem ExtHdr.Formed.next (h : ext.Formed) : (ext.next P).Formed where
  jsonSize := h.jsonSize
  magic := h.magic
  version := h.version
  hdrSize := h.hdrSize
  hdrOffset := h.hdrOffset
  csumAlg := h.csumAlg
  shdr := by
    unfold ExtHdr.next withCsum bumpSeqid
    dsimp only
    rw [h.shdr]

theorem ExtHdr.Formed.ne_nil (h : ext.Formed) (hfits : (toJson P ext.md).length < ext.jsonSize) :
    paddedJson P ext.md ext.jsonSize ≠ [] := by
  apply ne_nil_of_length_pos
  rw [length_paddedJson hfits, h.jsonSize]
  decide

theorem ExtHdr.Formed.csumAlg_shdr (h : ext.Formed) : cstr ext.shdr.csumAlg = bytes "sha256" := by
  rw [h.shdr]
  exact h.csumAlg

theorem ExtHdr.Formed.sealed_next (h : ext.Formed) (hfits : (toJson P ext.md).length < ext.jsonSize) :
    (ext.next P).Sealed P where
  fits := hfits
  json := rfl
  pcsum := by
    obtain ⟨hash, hhash⟩ :=
      isSome_calculateCsum (P := P) (bumpSeqid ext.phdr) (h.ne_nil hfits) h.csumAlg
    exact csumMatches_withCsum hhash
  scsum := by
    obtain ⟨hash, hhash⟩ :=
      isSome_calculateCsum (P := P) (bumpSeqid ext.shdr) (h.ne_nil hfits) h.csumAlg_shdr
    exact csumMatches_withCsum hhash

theorem writeCopy_eq (dev : Blockdev) (binOff jsonOff : ℕ) {hdr : Hdr} {primary : Bool} {json : List Byte}
    {jsonSize : ℕ} (hblock : dev.blockSize = sectorSize) {hash : List Byte} (hhash : calculateCsum P hdr json = some hash)
    (hbin : (if primary then 0 else hdr.hdrSize.toNat / sectorSize) * sectorSize = binOff)
    (hjson : jsonBlkno hdr * sectorSize = jsonOff) (hn : jsonSize / sectorSize * sectorSize = json.length)
    (hfits : binOff + 4096 ≤ dev.size) (hfits' : jsonOff + json.length ≤ dev.size)
    (next : Blockdev → VicResult × Blockdev) :
    writeCopy P dev hdr primary json jsonSize next =
      next { dev with
        data := writeRange (writeRange dev.data binOff (withCsum P hdr json).encode) jsonOff json } := by
  have hlen := (withCsum P hdr json).length_encode
  have hcsum : { hdr with csum := toVector 64 hash } = withCsum P hdr json := by
    unfold withCsum
    rw [hhash]
    rfl
  have hput : writeBinaryHdr dev (withCsum P hdr json) primary =
      some { dev with data := writeRange dev.data binOff (withCsum P hdr json).encode } :=
    Blockdev.put_eq hblock hbin (by rw [hlen]; rfl) (by rw [hlen]; exact hfits)
  have hput' : writeJsonArea { dev with data := writeRange dev.data binOff (withCsum P hdr json).encode }
      (withCsum P hdr json) json jsonSize = some { dev with
        data := writeRange (writeRange dev.data binOff (withCsum P hdr json).encode) jsonOff json } :=
    Blockdev.put_eq hblock hjson hn hfits'
  unfold writeCopy
  rw [hhash]
  dsimp only
  rw [hcsum, orFail, hput]
  dsimp only
  rw [orFail, hput']

theorem writeHdr_eq (hblock : dev.blockSize = sectorSize) (hsize : 32768 ≤ dev.size) (h : ext.Formed)
    (hfits : (toJson P ext.md).length < ext.jsonSize) :
    writeHdr P dev ext = (.ok, { dev with data := writeHeaders dev.data (ext.next P) }) := by
  have hlen := length_paddedJson hfits
  obtain ⟨hash, hhash⟩ :=
    isSome_calculateCsum (P := P) (bumpSeqid ext.phdr) (h.ne_nil hfits) h.csumAlg
  obtain ⟨hash', hhash'⟩ :=
    isSome_calculateCsum (P := P) (bumpSeqid ext.shdr) (h.ne_nil hfits) h.csumAlg_shdr
  have hp : jsonBlkno (bumpSeqid ext.phdr) = 8 := h.jsonBlkno_phdr
  have hs : jsonBlkno (bumpSeqid ext.shdr) = 40 := h.jsonBlkno_shdr
  have hsec : (bumpSeqid ext.shdr).hdrSize = 16384 := by
    show ext.shdr.hdrSize = 16384
    rw [h.shdr]
    exact h.hdrSize
  unfold writeHdr
  dsimp only
  rw [if_neg (Nat.not_le.mpr hfits)]
  show writeCopy P dev _ true (paddedJson P ext.md ext.jsonSize) _ _ = _
  rw [writeCopy_eq dev 0 4096 hblock hhash (by simp) (by rw [hp]; rfl)
    (by rw [hlen, h.jsonSize]; rfl) (by omega) (by rw [hlen, h.jsonSize]; omega)]
  refine writeCopy_eq _ 16384 20480 ?_ hhash' ?_ ?_ ?_ ?_ ?_ _
  · exact hblock
  · rw [hsec]
    rfl
  · rw [hs]
    rfl
  · rw [hlen, h.jsonSize]
    rfl
  · dsimp only
    omega
  · rw [hlen, h.jsonSize]
    dsimp only
    omega

/-- The four ranges do not overlap. -/
theorem holds_writeHeaders (hblock : dev.blockSize = sectorSize) (hsize : 32768 ≤ dev.size)
    (hjson : ext.jsonData.length = 12288) : Holds { dev with data := writeHeaders dev.data ext } ext := by
  have hp : ext.phdr.encode.length = 4096 := ext.phdr.length_encode
  have hs : ext.shdr.encode.length = 4096 := ext.shdr.length_encode
  have hdisj {a b c e : ℕ} (h : b ≤ c ∨ e ≤ a) : Disjoint (Set.Ico a b) (Set.Ico c e) := by
    apply Set.disjoint_left.mpr
    rintro i ⟨h₁, h₂⟩ ⟨h₃, h₄⟩
    omega
  constructor
  · exact hblock
  · exact hsize
  · show readRange (writeHeaders dev.data ext) 0 4096 = _
    unfold writeHeaders
    rw [(same_writeRange _ (hdisj (by omega))).readRange, (same_writeRange _ (hdisj (by omega))).readRange,
      (same_writeRange _ (hdisj (by omega))).readRange]
    conv_lhs => rw [← hp]
    exact readRange_writeRange _ _ _
  · show readRange (writeHeaders dev.data ext) 4096 12288 = _
    unfold writeHeaders
    rw [(same_writeRange _ (hdisj (by omega))).readRange, (same_writeRange _ (hdisj (by omega))).readRange]
    conv_lhs => rw [← hjson]
    exact readRange_writeRange _ _ _
  · show readRange (writeHeaders dev.data ext) 16384 4096 = _
    unfold writeHeaders
    rw [(same_writeRange _ (hdisj (by omega))).readRange]
    conv_lhs => rw [← hs]
    exact readRange_writeRange _ _ _
  · show readRange (writeHeaders dev.data ext) 20480 12288 = _
    unfold writeHeaders
    conv_lhs => rw [← hjson]
    exact readRange_writeRange _ _ _

theorem same_writeHeaders (d : ℕ → Byte) (hjson : ext.jsonData.length = 12288) :
    Same (Set.Ici 32768) d (writeHeaders d ext) := by
  have hp : ext.phdr.encode.length = 4096 := ext.phdr.length_encode
  have hs : ext.shdr.encode.length = 4096 := ext.shdr.length_encode
  have hdisj {c e : ℕ} (h : e ≤ 32768) : Disjoint (Set.Ici 32768) (Set.Ico c e) := by
    apply Set.disjoint_left.mpr
    rintro i (h₁ : 32768 ≤ i) ⟨h₃, h₄⟩
    omega
  unfold writeHeaders
  exact (((same_writeRange _ (hdisj (by omega))).trans (same_writeRange _ (hdisj (by omega)))).trans
    (same_writeRange _ (hdisj (by omega)))).trans (same_writeRange _ (hdisj (by omega)))

end

/-! ## What is written in general -/

def Frame (s : Set ℕ) (dev dev' : Blockdev) : Prop :=
  dev'.blockSize = dev.blockSize ∧ dev'.size = dev.size ∧ Same sᶜ dev.data dev'.data

theorem Frame.refl (s : Set ℕ) (dev : Blockdev) : Frame s dev dev := ⟨rfl, rfl, Same.refl _ _⟩

theorem Frame.trans {dev'' : Blockdev} (h : Frame s dev dev') (h' : Frame s dev' dev'') : Frame s dev dev'' :=
  ⟨h'.1.trans h.1, h'.2.1.trans h.2.1, h.2.2.trans h'.2.2⟩

theorem Frame.mono {t : Set ℕ} (h : Frame s dev dev') (hst : s ⊆ t) : Frame t dev dev' :=
  ⟨h.1, h.2.1, h.2.2.mono (Set.compl_subset_compl.mpr hst)⟩

theorem frame_orFail {r : VicResult} {write : Blockdev → Option Blockdev}
    {next : Blockdev → VicResult × Blockdev} (hwrite : ∀ dev', write dev = some dev' → Frame s dev dev')
    (hnext : ∀ dev', Frame s dev dev' → Frame s dev' (next dev').2) : Frame s dev (orFail r dev write next).2 := by
  unfold orFail
  cases h : write dev with
  | none => exact Frame.refl s dev
  | some dev' => exact (hwrite dev' h).trans (hnext dev' (hwrite dev' h))

def copyRange (hdr : Hdr) (primary : Bool) (jsonSize : ℕ) : Set ℕ :=
  let binOff := (if primary then 0 else hdr.hdrSize.toNat / sectorSize) * sectorSize
  let jsonOff := jsonBlkno hdr * sectorSize
  Set.Ico binOff (binOff + hdrBytes) ∪ Set.Ico jsonOff (jsonOff + jsonSize / sectorSize * sectorSize)

def headerRange (ext : ExtHdr) : Set ℕ :=
  copyRange ext.phdr true ext.jsonSize ∪ copyRange ext.shdr false ext.jsonSize

section

variable {dev : Blockdev}

theorem frame_writeCopy {s : Set ℕ} {hdr : Hdr} {primary : Bool} {json : List Byte} {jsonSize : ℕ}
    {next : Blockdev → VicResult × Blockdev} (hblock : dev.blockSize = sectorSize)
    (hs : copyRange hdr primary jsonSize ⊆ s) (hnext : ∀ dev', Frame s dev dev' → Frame s dev' (next dev').2) :
    Frame s dev (writeCopy P dev hdr primary json jsonSize next).2 := by
  have hput {dev' dev'' : Blockdev} {blkno nblocks : ℕ} {xs : List Byte} (hb : dev'.blockSize = sectorSize)
      (hsub : Set.Ico (blkno * sectorSize) (blkno * sectorSize + nblocks * sectorSize) ⊆
        copyRange hdr primary jsonSize)
      (h : dev'.put blkno nblocks xs = some dev'') : Frame s dev' dev'' := by
    have hframe := Blockdev.put_eq_some h
    rw [hb] at hframe
    exact Frame.mono ⟨hframe.1.trans hb.symm, hframe.2.1, hframe.2.2⟩ (hsub.trans hs)
  unfold writeCopy
  cases calculateCsum P hdr json with
  | none => exact Frame.refl s dev
  | some hash =>
    refine frame_orFail (fun dev' h => hput hblock Set.subset_union_left h) fun dev' hdev' => ?_
    refine frame_orFail (fun dev'' h => ?_) fun dev'' hdev'' => hnext dev'' (hdev'.trans hdev'')
    exact hput (hdev'.1.trans hblock) Set.subset_union_right h

variable {ext : ExtHdr}

theorem frame_writeHdr (hblock : dev.blockSize = sectorSize) :
    Frame (headerRange ext) dev (writeHdr P dev ext).2 := by
  unfold writeHdr
  dsimp only
  split_ifs
  · exact Frame.refl _ dev
  · refine frame_writeCopy hblock Set.subset_union_left fun dev' hdev' => ?_
    exact frame_writeCopy (hdev'.1.trans hblock) Set.subset_union_right fun dev'' _ => Frame.refl _ dev''

theorem luks2ReadHdr_eq_some (h : luks2ReadHdr P dev = some ext) :
    dev.blockSize = sectorSize ∧ readBinaryHdr dev true = some ext.phdr ∧
      ext.jsonSize = ext.phdr.hdrSize.toNat - hdrBytes ∧ (∃ r ∈ secHdrOffsets, r.1 = ext.phdr.hdrSize.toNat) ∧
      readJsonArea dev ext.phdr ext.jsonSize = some ext.jsonData ∧
      csumMatches P ext.phdr ext.jsonData = true ∧ csumMatches P ext.shdr ext.jsonData = true ∧
      isConsistent ext.phdr ext.shdr = true ∧ readJsonArea dev ext.shdr ext.jsonSize = some ext.jsonData := by
  simp only [luks2ReadHdr, Option.bind_eq_bind, Option.bind_eq_some_iff, Option.guard_eq_some',
    exists_const, Option.pure_def, Option.some.injEq] at h
  obtain ⟨hvalid, hdr, hhdr, -, -, -, hoffset, json, hjson, hcsum, md, -, shdr, -, hscsum, hcons, json', hjson',
    rfl, rfl⟩ := h
  have hmem : ∃ r ∈ secHdrOffsets, r.1 = hdr.hdrSize.toNat := by
    cases hfind : secHdrOffsets.find? fun r => r.1 = hdr.hdrSize.toNat with
    | none =>
      rw [hfind] at hoffset
      cases hoffset
    | some r => exact ⟨r, mem_of_find?_eq_some hfind, by simpa using find?_some hfind⟩
  exact ⟨by simpa [isValidDevice] using hvalid, hhdr, rfl, hmem, hjson, hcsum, hscsum, hcons, hjson'⟩

theorem calculateCsum_of_csumMatches {hdr hdr' : Hdr} {json json' : List Byte}
    (h : csumMatches P hdr json = true) (halg : hdr'.csumAlg = hdr.csumAlg) (hjson : json' ≠ []) :
    ∃ hash, calculateCsum P hdr' json' = some hash := by
  apply Option.isSome_iff_exists.mp
  unfold csumMatches calculateCsum at h
  unfold calculateCsum
  rw [halg, if_neg hjson]
  split_ifs at h
  cases ht : vicHashType (cstr hdr.csumAlg) with
  | none => simp [ht] at h
  | some t =>
    simp only [ht] at h ⊢
    split_ifs at h ⊢
    rfl

theorem Blockdev.le_of_get {blkno nblocks : ℕ} {xs : List Byte} (hblock : dev.blockSize = sectorSize)
    (h : dev.get blkno nblocks = some xs) : blkno * sectorSize + nblocks * sectorSize ≤ dev.size := by
  unfold Blockdev.get at h
  split_ifs at h with hle
  rwa [hblock] at hle

theorem writeHdr_of_read (h : luks2ReadHdr P dev = some ext) {md : Metadata}
    (hfits : (toJson P md).length < ext.jsonSize) : ∃ dev', writeHdr P dev { ext with md := md } = (.ok, dev') := by
  obtain ⟨hblock, hhdr, hsize, ⟨r, hr, hoffset⟩, hjson, hcsum, hscsum, hcons, hjson'⟩ := luks2ReadHdr_eq_some h
  have htable : ∀ r ∈ secHdrOffsets, 4096 < r.1 ∧ r.1 ≤ 4194304 ∧ r.1 % 512 = 0 := by decide
  obtain ⟨hlarge, hsmall, hmod⟩ := htable r hr
  rw [hoffset] at hlarge hsmall hmod
  have hhdrOffset : ext.shdr.hdrOffset = ext.phdr.hdrSize ∧ ext.shdr.hdrSize = ext.phdr.hdrSize := by
    simp only [isConsistent, Bool.and_eq_true, decide_eq_true_eq] at hcons
    tauto
  have hlen : (paddedJson P md ext.jsonSize).length = ext.jsonSize := length_paddedJson hfits
  have hne : paddedJson P md ext.jsonSize ≠ [] := by
    apply ne_nil_of_length_pos
    omega
  obtain ⟨hash, hhash⟩ : ∃ hash, calculateCsum P (bumpSeqid ext.phdr) (paddedJson P md ext.jsonSize) =
    some hash := calculateCsum_of_csumMatches hcsum rfl hne
  obtain ⟨hash', hhash'⟩ : ∃ hash, calculateCsum P (bumpSeqid ext.shdr) (paddedJson P md ext.jsonSize) =
    some hash := calculateCsum_of_csumMatches hscsum rfl hne
  -- what was read can be written
  have hfit : 4096 ≤ dev.size := by
    simp only [readBinaryHdr, Option.bind_eq_bind, Option.bind_eq_some_iff] at hhdr
    obtain ⟨blocks, hget, -⟩ := hhdr
    have := Blockdev.le_of_get hblock hget
    simpa [hdrBytes, sectorSize] using this
  have hfit₁ := Blockdev.le_of_get hblock hjson
  have hfit₂ := Blockdev.le_of_get hblock hjson'
  have hblkno : jsonBlkno ext.shdr * sectorSize = ext.phdr.hdrSize.toNat + 4096 := by
    unfold jsonBlkno
    rw [hhdrOffset.1, BitVec.toNat_add, BitVec.toNat_ofNat, hdrBytes, sectorSize]
    omega
  have hblocks : ext.jsonSize / sectorSize * sectorSize = ext.jsonSize := by
    rw [hsize, hdrBytes, sectorSize]
    omega
  rw [hblocks] at hfit₁ hfit₂
  rw [hblkno] at hfit₂
  unfold writeHdr
  dsimp only
  rw [if_neg (Nat.not_le.mpr hfits)]
  show ∃ dev', writeCopy P dev _ true (paddedJson P md ext.jsonSize) _ _ = _
  rw [writeCopy_eq dev 0 _ hblock hhash (by simp) rfl (by rw [hlen, hblocks]) (by omega)
    (by rw [hlen]; exact hfit₁)]
  refine ⟨_, writeCopy_eq _ ext.phdr.hdrSize.toNat _ ?_ hhash' ?_ rfl ?_ ?_ ?_ _⟩
  · exact hblock
  · show ext.shdr.hdrSize.toNat / sectorSize * sectorSize = _
    rw [hhdrOffset.2, sectorSize]
    omega
  · rw [hlen, hblocks]
  · show ext.phdr.hdrSize.toNat + 4096 ≤ dev.size
    omega
  · show jsonBlkno ext.shdr * sectorSize + (paddedJson P md ext.jsonSize).length ≤ dev.size
    rw [hlen, hblkno]
    exact hfit₂

end

end SgxLkl.Luks
