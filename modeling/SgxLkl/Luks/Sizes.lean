import SgxLkl.Luks.Crash

/-!
# Header sizes

`luks2_read_hdr` knows nine sizes of a header. The secondary header is written behind the first header of this
size, but it is always read behind a header of the default size.

* **`luks2ReadHdr_image`**: it is read if it has the default size. With a larger one the reader takes a part of
  the JSON area for the secondary header.
-/

namespace SgxLkl.Luks

open Json (bytes)
open List

variable {P : Primitives}

/-- A header and its copy: the size is one that the reader knows, the copies match, the checksums are right. -/
structure Image (P : Primitives) (ext : ExtHdr) : Prop where
  hdrSize : ext.phdr.hdrSize.toNat ∈ secHdrOffsets.map Prod.fst
  magic : ext.phdr.magic = magic1st
  version : ext.phdr.version = 2
  hdrOffset : ext.phdr.hdrOffset = 0
  isConsistent : isConsistent ext.phdr ext.shdr = true
  jsonSize : ext.jsonSize = ext.phdr.hdrSize.toNat - hdrBytes
  fits : (toJson P ext.md).length < ext.jsonSize
  json : ext.jsonData = paddedJson P ext.md ext.jsonSize
  pcsum : csumMatches P ext.phdr ext.jsonData = true
  scsum : csumMatches P ext.shdr ext.jsonData = true
  valid : ext.md.Valid

section

variable {dev : Blockdev} {ext : ExtHdr}

theorem Image.bounds (h : Image P ext) : 16384 ≤ ext.phdr.hdrSize.toNat ∧ ext.phdr.hdrSize.toNat ≤ 4194304 ∧
    ext.phdr.hdrSize.toNat % 512 = 0 ∧ (ext.phdr.hdrSize.toNat = 16384 ∨ 32768 ≤ ext.phdr.hdrSize.toNat) := by
  have htable : ∀ n ∈ secHdrOffsets.map Prod.fst,
      16384 ≤ n ∧ n ≤ 4194304 ∧ n % 512 = 0 ∧ (n = 16384 ∨ 32768 ≤ n) := by
    decide
  exact htable _ h.hdrSize

theorem Image.length_json (h : Image P ext) : ext.jsonData.length = ext.phdr.hdrSize.toNat - 4096 := by
  rw [h.json, length_paddedJson h.fits, h.jsonSize]
  rfl

theorem Image.laid (h : Image P ext) : ext.Laid ext.phdr.hdrSize.toNat := by
  obtain ⟨hmin, hmax, hmod, -⟩ := h.bounds
  obtain ⟨-, -, hsize, -, -, -, -, -, hoffset⟩ := isConsistent_iff.mp h.isConsistent
  exact ⟨hmod, hmin, hmax, h.hdrOffset, congrArg BitVec.toNat hsize, congrArg BitVec.toNat hoffset, h.jsonSize,
    h.length_json⟩

def imageData (d : ℕ → Byte) (ext : ExtHdr) : ℕ → Byte :=
  writeRanges d ((headerRanges ext.phdr.hdrSize.toNat ext).take 4)

theorem Image.areas (h : Image P ext) (d : ℕ → Byte) : readRange (imageData d ext) 0 4096 = ext.phdr.encode ∧
      readRange (imageData d ext) 4096 (ext.phdr.hdrSize.toNat - 4096) = ext.jsonData ∧
      readRange (imageData d ext) ext.phdr.hdrSize.toNat 4096 = ext.shdr.encode ∧
      readRange (imageData d ext) (ext.phdr.hdrSize.toNat + 4096)
        (ext.phdr.hdrSize.toNat - 4096) = ext.jsonData := by
  have hsep := h.laid.pairwise
  have hphdr := readRange_writeRanges_take (d := d) (j := 0) hsep rfl (Hdr.length_encode _) 4
  have hpjson := readRange_writeRanges_take (d := d) (j := 1) hsep rfl h.length_json 4
  have hshdr := readRange_writeRanges_take (d := d) (j := 2) hsep rfl (Hdr.length_encode _) 4
  have hsjson := readRange_writeRanges_take (d := d) (j := 3) hsep rfl h.length_json 4
  exact ⟨hphdr, hpjson, hshdr, hsjson⟩

theorem Image.padding (h : Image P ext) {d : ℕ → Byte} (hlarge : 32768 ≤ ext.phdr.hdrSize.toNat)
    (hshort : (toJson P ext.md).length ≤ 12288)
    (hjson : readRange d 4096 (ext.phdr.hdrSize.toNat - 4096) = ext.jsonData) :
    readRange d 16384 4096 = List.replicate 4096 0 := by
  have hpart := take_drop_readRange d 4096 (n := ext.phdr.hdrSize.toNat - 4096) (i := 12288) (m := 4096)
    (by omega)
  rw [← hpart, hjson, h.json, paddedJson, drop_append, drop_eq_nil_of_le hshort, nil_append,
    drop_replicate, take_replicate, h.jsonSize, hdrBytes]
  exact congrArg (replicate · 0) (by omega)

section

variable (h : Image P ext) (hblock : dev.blockSize = sectorSize) (hsize : 2 * ext.phdr.hdrSize.toNat ≤ dev.size)

include h hblock hsize

theorem Image.runWrites :
    runWrites (copyWrites ext) dev = (.ok, { dev with data := imageData dev.data ext }) :=
  h.laid.runWrites_take hblock hsize 4

theorem Image.read_default (hdefault : ext.phdr.hdrSize = 16384) :
    luks2ReadHdr P { dev with data := imageData dev.data ext } = some ext := by
  obtain ⟨hphdr, hpjson, hshdr, hsjson⟩ := h.areas dev.data
  have hnat : ext.phdr.hdrSize.toNat = 16384 := by
    rw [hdefault]
    rfl
  have hjsonSize : ext.jsonSize = 12288 := by
    rw [h.jsonSize, hnat]
    rfl
  have hsub : 16384 - 4096 = 12288 := rfl
  have hadd : 16384 + 4096 = 20480 := rfl
  rw [hnat, hsub] at hpjson hsjson
  rw [hadd] at hsjson
  rw [hnat] at hshdr hsize
  have hblock' : ({ dev with data := imageData dev.data ext } : Blockdev).blockSize = sectorSize := hblock
  have hvalid : isValidLuks2Hdr ext.phdr = true := by
    simp [isValidLuks2Hdr, h.magic, h.version]
  obtain ⟨hmagic, hversion, -⟩ := isConsistent_iff.mp h.isConsistent
  have hsvalid : isValidLuks2Hdr ext.shdr = true := by
    simp [isValidLuks2Hdr, hmagic, hversion, h.version]
  refine (luks2ReadHdr_iff hblock' hsize hdefault h.hdrOffset).mpr
    ⟨?_, hvalid, hpjson, h.pcsum, ?_, ?_, hsvalid, h.scsum, h.isConsistent, hsjson, hjsonSize⟩
  · exact (congrArg Hdr.decode hphdr).trans (Hdr.decode_encode _)
  · rw [h.json]
    exact readJson_toJson _ _ h.valid
  · exact (congrArg Hdr.decode hshdr).trans (Hdr.decode_encode _)

theorem Image.read_large (hother : ext.phdr.hdrSize ≠ 16384)
    (hshort : (toJson P ext.md).length ≤ 12288) :
    luks2ReadHdr P { dev with data := imageData dev.data ext } = none := by
  obtain ⟨-, -, -, hcases⟩ := h.bounds
  obtain ⟨-, hpjson, -⟩ := h.areas dev.data
  have hlarge : 32768 ≤ ext.phdr.hdrSize.toNat :=
    hcases.resolve_left fun heq => hother (BitVec.eq_of_toNat_eq heq)
  have hzero := h.padding hlarge hshort hpjson
  have hblock' : ({ dev with data := imageData dev.data ext } : Blockdev).blockSize = sectorSize := hblock
  refine Option.eq_none_iff_forall_ne_some.mpr fun ext' hread => ?_
  simp only [luks2ReadHdr, Option.bind_eq_bind, Option.bind_eq_some_iff] at hread
  obtain ⟨-, -, -, -, -, -, -, -, -, -, -, -, -, -, -, -, -, -, shdr, hread, -⟩ := hread
  obtain ⟨hdecode, hvalid⟩ := (readBinaryHdr_iff hblock' (by show 32768 ≤ dev.size; omega)).mp hread
  rw [if_neg Bool.false_ne_true, hzero] at hdecode
  rw [← hdecode] at hvalid
  exact absurd hvalid (by decide)

end

/-- **A header of the default size is read.** With a larger one the reader looks for the secondary header in the
JSON area; if the text is shorter than a JSON area of the default size, it finds zeros there. -/
theorem luks2ReadHdr_image (h : Image P ext) (hblock : dev.blockSize = sectorSize)
    (hsize : 2 * ext.phdr.hdrSize.toNat ≤ dev.size) : ∃ dev', runWrites (copyWrites ext) dev = (.ok, dev') ∧
      (ext.phdr.hdrSize = 16384 → luks2ReadHdr P dev' = some ext) ∧
      (ext.phdr.hdrSize ≠ 16384 → (toJson P ext.md).length ≤ 12288 → luks2ReadHdr P dev' = none) :=
  ⟨_, h.runWrites hblock hsize, h.read_default hblock hsize, h.read_large hblock hsize⟩

end

def sampleImageHdr (n : Word) : Hdr :=
  { newHdr sampleFormatArgs sampleFormatRandom (vicUuidGenerate sampleFormatRandom.uuid) with hdrSize := n }

def sampleImageJson (n : Word) (md : Metadata) : List Byte := paddedJson samplePrimitives md (n.toNat - hdrBytes)

def sampleImage (n : Word) (md : Metadata) : ExtHdr where
  phdr := withCsum samplePrimitives (sampleImageHdr n) (sampleImageJson n md)
  shdr := withCsum samplePrimitives { sampleImageHdr n with magic := magic2nd, hdrOffset := n }
    (sampleImageJson n md)
  md := md
  jsonSize := n.toNat - hdrBytes
  jsonData := sampleImageJson n md

theorem image_sample {n : Word} {md : Metadata} (hn : n.toNat ∈ secHdrOffsets.map Prod.fst)
    (hmd : (toJson samplePrimitives md).length < 12288) (hvalid : md.Valid) :
    Image samplePrimitives (sampleImage n md) := by
  have htable : ∀ n ∈ secHdrOffsets.map Prod.fst, 12288 ≤ n - hdrBytes := by decide
  have hfits : (toJson samplePrimitives md).length < n.toNat - hdrBytes := lt_of_lt_of_le hmd (htable _ hn)
  have hne : sampleImageJson n md ≠ [] := by
    apply ne_nil_of_length_pos
    rw [sampleImageJson, length_paddedJson hfits]
    exact Nat.zero_lt_of_lt hfits
  have halg : cstr (newHdr sampleFormatArgs sampleFormatRandom
      (vicUuidGenerate sampleFormatRandom.uuid)).csumAlg = bytes "sha256" := by
    decide
  obtain ⟨hash, hhash⟩ := isSome_calculateCsum (P := samplePrimitives) (sampleImageHdr n) hne halg
  obtain ⟨hash', hhash'⟩ := isSome_calculateCsum (P := samplePrimitives)
    { sampleImageHdr n with magic := magic2nd, hdrOffset := n } hne halg
  exact ⟨hn, rfl, rfl, rfl, isConsistent_iff.mpr ⟨rfl, rfl, rfl, rfl, rfl, rfl, rfl, rfl, rfl⟩, rfl, hfits, rfl,
    csumMatches_withCsum hhash, csumMatches_withCsum hhash', hvalid⟩

theorem luks2ReadHdr_image_default : ∃ dev',
    runWrites (copyWrites (sampleImage 16384 sampleMetadata)) emptyDevice = (.ok, dev') ∧
      luks2ReadHdr samplePrimitives dev' = some (sampleImage 16384 sampleMetadata) := by
  have hblock : emptyDevice.blockSize = sectorSize := rfl
  obtain ⟨dev', hrun, hread, -⟩ := luks2ReadHdr_image
    (image_sample (n := 16384) (by decide) fits_sampleMetadata inv_sampleDevice.valid) hblock (by decide)
  exact ⟨dev', hrun, hread rfl⟩

/-- The next size is one that the reader knows, but not one that it can read. -/
theorem luks2ReadHdr_image_large : Image samplePrimitives (sampleImage 32768 sampleMetadata) ∧
    ∃ dev', runWrites (copyWrites (sampleImage 32768 sampleMetadata)) emptyDevice = (.ok, dev') ∧
      luks2ReadHdr samplePrimitives dev' = none := by
  have himage : Image samplePrimitives (sampleImage 32768 sampleMetadata) :=
    image_sample (by decide) fits_sampleMetadata inv_sampleDevice.valid
  exact ⟨himage, _, himage.runWrites rfl (by decide),
    himage.read_large rfl (by decide) (by decide) fits_sampleMetadata.le⟩

end SgxLkl.Luks
