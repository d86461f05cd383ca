import SgxLkl.Luks.Enrolled

/-!
# A header that is written in part

`_write_hdr` writes the primary binary header, the primary JSON area, the secondary binary header and the
secondary JSON area, in this order. The device may lose power between two of these writes.

* `hdrWrites`, `runWrites`: the writes, and what they do. `writeHdr_eq_runWrites` says that they are those
  of `_write_hdr`.
* **`Update.read_crashed`**: what is read after some of the writes. The sequence numbers differ after the
  first and after the second one, and then no header is read.
-/

namespace SgxLkl.Luks

open Json (bytes)
open Option

variable {P : Primitives}

/-! ## The writes -/

/-- Writes in this order, up to the first that fails. -/
def runWrites : List (Blockdev → Option Blockdev) → Blockdev → VicResult × Blockdev
  | [], dev => (.ok, dev)
  | write :: writes, dev => orFail .failed dev write (runWrites writes)

def copyWrites (ext : ExtHdr) : List (Blockdev → Option Blockdev) :=
  [(writeBinaryHdr · ext.phdr true), (writeJsonArea · ext.phdr ext.jsonData ext.jsonSize),
    (writeBinaryHdr · ext.shdr false), (writeJsonArea · ext.shdr ext.jsonData ext.jsonSize)]

def hdrWrites (P : Primitives) (ext : ExtHdr) : List (Blockdev → Option Blockdev) := copyWrites (ext.next P)

def crashed (P : Primitives) (dev : Blockdev) (ext : ExtHdr) (k : ℕ) : Blockdev :=
  (runWrites ((hdrWrites P ext).take k) dev).2

theorem writeHdr_eq_runWrites {dev : Blockdev} {ext : ExtHdr} {hash hash' : List Byte}
    (hfits : (toJson P ext.md).length < ext.jsonSize)
    (hhash : calculateCsum P (bumpSeqid ext.phdr) (paddedJson P ext.md ext.jsonSize) = some hash)
    (hhash' : calculateCsum P (bumpSeqid ext.shdr) (paddedJson P ext.md ext.jsonSize) = some hash') :
    writeHdr P dev ext = runWrites (hdrWrites P ext) dev := by
  have hcopy : ∀ {hdr : Hdr} {json hash : List Byte} (primary : Bool) (dev : Blockdev)
      (next : Blockdev → VicResult × Blockdev), calculateCsum P hdr json = some hash →
      writeCopy P dev hdr primary json ext.jsonSize next =
        orFail .failed dev (writeBinaryHdr · (withCsum P hdr json) primary) fun dev =>
          orFail .failed dev (writeJsonArea · (withCsum P hdr json) json ext.jsonSize) next := by
    intro hdr json hash primary dev next h
    rw [writeCopy, withCsum, h]
    rfl
  unfold writeHdr
  dsimp only
  rw [if_neg (Nat.not_le.mpr hfits)]
  refine (hcopy true dev _ hhash).trans ?_
  refine congrArg (orFail .failed dev _) (funext fun dev₁ => congrArg (orFail .failed dev₁ _) (funext fun dev₂ => ?_))
  exact hcopy false dev₂ _ hhash'

/-! ## What is on the device -/

/-- The bytes of a header that can be read, with the layout of `luks2_format`. -/
structure HasHeader (P : Primitives) (d : ℕ → Byte) (ext : ExtHdr) : Prop where
  phdr : Hdr.decode (readRange d 0 4096) = ext.phdr
  pvalid : isValidLuks2Hdr ext.phdr = true
  pjson : readRange d 4096 12288 = ext.jsonData
  pcsum : csumMatches P ext.phdr ext.jsonData = true
  json : readJson P P.behind ext.jsonData = some ext.md
  shdr : Hdr.decode (readRange d 16384 4096) = ext.shdr
  svalid : isValidLuks2Hdr ext.shdr = true
  scsum : csumMatches P ext.shdr ext.jsonData = true
  isConsistent : isConsistent ext.phdr ext.shdr = true
  sjson : readRange d 20480 12288 = ext.jsonData
  jsonSize : ext.jsonSize = 12288

section

variable {dev : Blockdev} {ext : ExtHdr}

theorem readBinaryHdr_iff {primary : Bool} {hdr : Hdr} (hblock : dev.blockSize = sectorSize)
    (hsize : 32768 ≤ dev.size) : readBinaryHdr dev primary = some hdr ↔
      Hdr.decode (readRange dev.data (if primary then 0 else 16384) 4096) = hdr ∧ isValidLuks2Hdr hdr = true := by
  have hget : dev.get (if primary then 0 else defaultHdrSize / sectorSize) (hdrBytes / sectorSize) =
      some (readRange dev.data (if primary then 0 else 16384) 4096) := by
    cases primary
    · exact Blockdev.get_eq 16384 4096 hblock rfl rfl (by omega)
    · exact Blockdev.get_eq 0 4096 hblock rfl rfl (by omega)
  simp only [readBinaryHdr, hget, bind_eq_bind, bind_some, bind_eq_some_iff,
    guard_eq_some', exists_const, pure_def, some.injEq]
  constructor
  · rintro ⟨hvalid, rfl⟩
    exact ⟨rfl, hvalid⟩
  · rintro ⟨rfl, hvalid⟩
    exact ⟨hvalid, rfl⟩

theorem readJsonArea_eq {hdr : Hdr} (off : ℕ) (hblock : dev.blockSize = sectorSize)
    (hoff : jsonBlkno hdr * sectorSize = off) (hsize : off + 12288 ≤ dev.size) :
    readJsonArea dev hdr 12288 = some (readRange dev.data off 12288) :=
  Blockdev.get_eq off 12288 hblock hoff rfl hsize

theorem isConsistent_iff {hdr shdr : Hdr} : isConsistent hdr shdr = true ↔
    shdr.magic = magic2nd ∧ shdr.version = hdr.version ∧ shdr.hdrSize = hdr.hdrSize ∧ shdr.seqid = hdr.seqid ∧
      cstr shdr.label = cstr hdr.label ∧ cstr shdr.csumAlg = cstr hdr.csumAlg ∧
      cstr shdr.uuid = cstr hdr.uuid ∧ cstr shdr.subsystem = cstr hdr.subsystem ∧ shdr.hdrOffset = hdr.hdrSize := by
  simp only [isConsistent, Bool.and_eq_true, decide_eq_true_eq, and_assoc]

/-- **A header is read exactly if it is on the device.** -/
theorem luks2ReadHdr_iff (hblock : dev.blockSize = sectorSize) (hsize : 32768 ≤ dev.size)
    (hhdrSize : ext.phdr.hdrSize = 16384) (hhdrOffset : ext.phdr.hdrOffset = 0) :
    luks2ReadHdr P dev = some ext ↔ HasHeader P dev.data ext := by
  have hnat : ext.phdr.hdrSize.toNat - hdrBytes = 12288 := by
    rw [hhdrSize]
    rfl
  have hpoff : jsonBlkno ext.phdr * sectorSize = 4096 := by
    rw [jsonBlkno, hhdrOffset]
    rfl
  have hsoff : Luks.isConsistent ext.phdr ext.shdr = true → jsonBlkno ext.shdr * sectorSize = 20480 := by
    intro h
    obtain ⟨-, -, -, -, -, -, -, -, hoffset⟩ := isConsistent_iff.mp h
    rw [jsonBlkno, hoffset, hhdrSize]
    rfl
  simp only [luks2ReadHdr, bind_eq_bind, bind_eq_some_iff, guard_eq_some',
    exists_const, pure_def, some.injEq, readBinaryHdr_iff hblock hsize]
  constructor
  · rintro ⟨-, hdr, ⟨hphdr, hpvalid⟩, -, -, -, -, json, hjson, hpcsum, md, hmd, shdr, ⟨hshdr, hsvalid⟩, hscsum,
      hcons, json', hjson', rfl, rfl⟩
    rw [hnat] at hjson hjson'
    rw [readJsonArea_eq 4096 hblock hpoff (by omega)] at hjson
    rw [readJsonArea_eq 20480 hblock (hsoff hcons) (by omega)] at hjson'
    exact ⟨hphdr, hpvalid, some.inj hjson, hpcsum, hmd, hshdr, hsvalid, hscsum, hcons, some.inj hjson', hnat⟩
  · intro h
    refine ⟨by simp [isValidDevice, hblock], ext.phdr, ⟨h.phdr, h.pvalid⟩, ?_, ?_, ?_, ?_, ext.jsonData, ?_, h.pcsum,
      ext.md, h.json, ext.shdr, ⟨h.shdr, h.svalid⟩, h.scsum, h.isConsistent, ext.jsonData, ?_, rfl, ?_⟩
    · have hvalid := h.pvalid
      simp only [isValidLuks2Hdr, Bool.and_eq_true, decide_eq_true_eq] at hvalid
      exact hvalid.2
    · rw [hhdrSize]
      decide
    · rw [hhdrSize]
      decide
    · rw [hhdrSize]
      decide
    · rw [hnat, readJsonArea_eq 4096 hblock hpoff (by omega), h.pjson]
    · rw [hnat, readJsonArea_eq 20480 hblock (hsoff h.isConsistent) (by omega), h.sjson]
    · rw [hnat, ← h.jsonSize]

end

/-! ## After some of the writes -/

theorem runWrites_eq {dev : Blockdev} {writes : List (Blockdev → Option Blockdev)} {ws : List (ℕ × List Byte)}
    (h : List.Forall₂ (fun write w => ∀ d : ℕ → Byte,
      write { dev with data := d } = some { dev with data := writeRange d w.1 w.2 }) writes ws) (d : ℕ → Byte) :
    runWrites writes { dev with data := d } = (.ok, { dev with data := writeRanges d ws }) := by
  induction h generalizing d with
  | nil => rfl
  | cons hwrite _ ih =>
    rw [runWrites, orFail, hwrite]
    exact ih _

/-- What is written where, with headers of `n` bytes. -/
def headerRanges (n : ℕ) (ext : ExtHdr) : List (ℕ × List Byte) :=
  [(0, ext.phdr.encode), (4096, ext.jsonData), (n, ext.shdr.encode), (n + 4096, ext.jsonData)]

/-- A header of `n` bytes and its copy follow each other. -/
structure ExtHdr.Laid (n : ℕ) (ext : ExtHdr) : Prop where
  blocks : n % sectorSize = 0
  large : 16384 ≤ n
  small : n ≤ 4194304
  hdrOffset : ext.phdr.hdrOffset = 0
  shdrSize : ext.shdr.hdrSize.toNat = n
  shdrOffset : ext.shdr.hdrOffset.toNat = n
  jsonSize : ext.jsonSize = n - 4096
  json : ext.jsonData.length = n - 4096

section

variable {dev : Blockdev} {ext : ExtHdr} {n : ℕ}

/-- **The writes succeed** if the device is large enough. -/
theorem ExtHdr.Laid.runWrites_take (h : ext.Laid n) (hblock : dev.blockSize = sectorSize)
    (hsize : 2 * n ≤ dev.size) (k : ℕ) : runWrites ((copyWrites ext).take k) dev =
      (.ok, { dev with data := writeRanges dev.data ((headerRanges n ext).take k) }) := by
  have hblocks := h.blocks
  have hlarge := h.large
  have hsmall := h.small
  have hlen := h.json
  rw [sectorSize] at hblocks
  have hjson : ext.jsonSize / sectorSize * sectorSize = ext.jsonData.length := by
    rw [hlen, h.jsonSize, sectorSize]
    omega
  have hsecond : ext.shdr.hdrSize.toNat / sectorSize * sectorSize = n := by
    rw [h.shdrSize, sectorSize]
    omega
  have hpjson : jsonBlkno ext.phdr * sectorSize = 4096 := by
    rw [jsonBlkno, h.hdrOffset]
    rfl
  have hsjson : jsonBlkno ext.shdr * sectorSize = n + 4096 := by
    rw [jsonBlkno, BitVec.toNat_add, BitVec.toNat_ofNat, h.shdrOffset, hdrBytes, sectorSize]
    omega
  have hwrites : List.Forall₂ (fun write w => ∀ d : ℕ → Byte,
      write { dev with data := d } = some { dev with data := writeRange d w.1 w.2 })
      (copyWrites ext) (headerRanges n ext) := by
    refine .cons (fun d => ?_) (.cons (fun d => ?_) (.cons (fun d => ?_) (.cons (fun d => ?_) .nil)))
    · refine Blockdev.put_eq hblock (Nat.zero_mul _) (by rw [Hdr.length_encode]; rfl) ?_
      rw [Hdr.length_encode]
      show 0 + 4096 ≤ dev.size
      omega
    · refine Blockdev.put_eq hblock hpjson hjson ?_
      show 4096 + ext.jsonData.length ≤ dev.size
      omega
    · refine Blockdev.put_eq hblock hsecond (by rw [Hdr.length_encode]; rfl) ?_
      rw [Hdr.length_encode]
      show n + 4096 ≤ dev.size
      omega
    · refine Blockdev.put_eq hblock hsjson hjson ?_
      show n + 4096 + ext.jsonData.length ≤ dev.size
      omega
  exact runWrites_eq (List.forall₂_take k hwrites) dev.data

theorem ExtHdr.Laid.pairwise (h : ext.Laid n) :
    (headerRanges n ext).Pairwise fun w w' => w.1 + w.2.length ≤ w'.1 := by
  have hlarge := h.large
  simp only [headerRanges, List.pairwise_cons, List.mem_cons, List.not_mem_nil, or_false, forall_eq_or_imp,
    forall_eq, Hdr.length_encode, h.json, hdrBytes]
  refine ⟨⟨by omega, by omega, by omega⟩, ⟨by omega, by omega⟩, le_rfl, ?_⟩
  simp

end

section

variable {dev : Blockdev} {ext : ExtHdr} {md : Metadata}

/-- What the theorems are about: a header with the layout of `luks2_format` that was read from the device, and
metadata that fit in its JSON area. -/
structure Update (P : Primitives) (dev : Blockdev) (ext : ExtHdr) (md : Metadata) : Prop where
  read : luks2ReadHdr P dev = some ext
  hdrSize : ext.phdr.hdrSize = 16384
  hdrOffset : ext.phdr.hdrOffset = 0
  fits : (toJson P md).length < 12288
  valid : md.Valid

section

variable (h : Update P dev ext md)

include h

theorem Update.blockSize : dev.blockSize = sectorSize := (luks2ReadHdr_eq_some h.read).1

theorem Update.consistent :
    ext.shdr.hdrSize = 16384 ∧ ext.shdr.hdrOffset = 16384 ∧ ext.shdr.seqid = ext.phdr.seqid := by
  obtain ⟨-, -, -, -, -, -, -, hcons, -⟩ := luks2ReadHdr_eq_some h.read
  obtain ⟨-, -, hsize, hseqid, -, -, -, -, hoffset⟩ := isConsistent_iff.mp hcons
  exact ⟨hsize.trans h.hdrSize, hoffset.trans h.hdrSize, hseqid⟩

theorem Update.jsonSize : ext.jsonSize = 12288 := by
  rw [(luks2ReadHdr_eq_some h.read).2.2.1, h.hdrSize]
  rfl

theorem Update.size : 32768 ≤ dev.size := by
  obtain ⟨hblock, -, -, -, -, -, -, -, hjson⟩ := luks2ReadHdr_eq_some h.read
  have hle := Blockdev.le_of_get hblock hjson
  rw [h.jsonSize, jsonBlkno, h.consistent.2.1] at hle
  exact hle

theorem Update.hasHeader : HasHeader P dev.data ext :=
  (luks2ReadHdr_iff h.blockSize h.size h.hdrSize h.hdrOffset).mp h.read

theorem Update.length_json : (paddedJson P md ext.jsonSize).length = 12288 := by
  rw [h.jsonSize, length_paddedJson h.fits]

theorem Update.laid : (ExtHdr.next P { ext with md := md }).Laid 16384 where
  blocks := by decide
  large := le_rfl
  small := by decide
  hdrOffset := h.hdrOffset
  shdrSize := by
    show ext.shdr.hdrSize.toNat = 16384
    rw [h.consistent.1]
    rfl
  shdrOffset := by
    show ext.shdr.hdrOffset.toNat = 16384
    rw [h.consistent.2.1]
    rfl
  jsonSize := h.jsonSize
  json := h.length_json

/-- **The device after the first `k` writes.** -/
theorem Update.crashed_eq (k : ℕ) : crashed P dev { ext with md := md } k = { dev with
      data := writeRanges dev.data ((headerRanges 16384 (ExtHdr.next P { ext with md := md })).take k) } :=
  congrArg Prod.snd (h.laid.runWrites_take h.blockSize h.size k)

theorem Update.json_ne_nil : paddedJson P md ext.jsonSize ≠ [] := by
  apply List.ne_nil_of_length_pos
  rw [h.length_json]
  decide

theorem Update.csum : (∃ hash, calculateCsum P (bumpSeqid ext.phdr) (paddedJson P md ext.jsonSize) = some hash) ∧
      ∃ hash, calculateCsum P (bumpSeqid ext.shdr) (paddedJson P md ext.jsonSize) = some hash :=
  ⟨calculateCsum_of_csumMatches h.hasHeader.pcsum rfl h.json_ne_nil,
    calculateCsum_of_csumMatches h.hasHeader.scsum rfl h.json_ne_nil⟩

/-- **`_write_hdr` is all four writes.** -/
theorem Update.writeHdr_eq :
    writeHdr P dev { ext with md := md } = (.ok, crashed P dev { ext with md := md } 4) := by
  obtain ⟨⟨hash, hhash⟩, hash', hhash'⟩ := h.csum
  have hfits : (toJson P md).length < ext.jsonSize := by
    rw [h.jsonSize]
    exact h.fits
  have hrun : writeHdr P dev { ext with md := md } = runWrites (hdrWrites P { ext with md := md }) dev :=
    writeHdr_eq_runWrites hfits hhash hhash'
  have htake : (hdrWrites P { ext with md := md }).take 4 = hdrWrites P { ext with md := md } := rfl
  rw [hrun, ← htake, h.crashed_eq]
  exact h.laid.runWrites_take h.blockSize h.size 4

end

def crashedData (P : Primitives) (dev : Blockdev) (ext : ExtHdr) (k : ℕ) : ℕ → Byte :=
  writeRanges dev.data ((headerRanges 16384 (ext.next P)).take k)

/-- **The headers after the first `k` writes.** -/
theorem Update.areas (h : Update P dev ext md) (k : ℕ) :
    Hdr.decode (readRange (crashedData P dev { ext with md := md } k) 0 4096) =
        (if 0 < k then (ExtHdr.next P { ext with md := md }).phdr else ext.phdr) ∧
      readRange (crashedData P dev { ext with md := md } k) 4096 12288 =
        (if 1 < k then paddedJson P md ext.jsonSize else ext.jsonData) ∧
      Hdr.decode (readRange (crashedData P dev { ext with md := md } k) 16384 4096) =
        (if 2 < k then (ExtHdr.next P { ext with md := md }).shdr else ext.shdr) ∧
      readRange (crashedData P dev { ext with md := md } k) 20480 12288 =
        (if 3 < k then paddedJson P md ext.jsonSize else ext.jsonData) := by
  have hold := h.hasHeader
  have hsep := h.laid.pairwise
  have hphdr := readRange_writeRanges_take (d := dev.data) (j := 0) hsep rfl (Hdr.length_encode _) k
  have hpjson := readRange_writeRanges_take (d := dev.data) (j := 1) hsep rfl h.length_json k
  have hshdr := readRange_writeRanges_take (d := dev.data) (j := 2) hsep rfl (Hdr.length_encode _) k
  have hsjson := readRange_writeRanges_take (d := dev.data) (j := 3) hsep rfl h.length_json k
  rw [hold.pjson] at hpjson
  rw [hold.sjson] at hsjson
  refine ⟨?_, hpjson, ?_, hsjson⟩
  · refine (congrArg Hdr.decode hphdr).trans ?_
    rw [apply_ite Hdr.decode, Hdr.decode_encode]
    exact if_congr Iff.rfl rfl hold.phdr
  · refine (congrArg Hdr.decode hshdr).trans ?_
    rw [apply_ite Hdr.decode, Hdr.decode_encode]
    exact if_congr Iff.rfl rfl hold.shdr

theorem Update.hasHeader_next (h : Update P dev ext md) {d : ℕ → Byte}
    (hphdr : Hdr.decode (readRange d 0 4096) = (ExtHdr.next P { ext with md := md }).phdr)
    (hpjson : readRange d 4096 12288 = paddedJson P md ext.jsonSize)
    (hshdr : Hdr.decode (readRange d 16384 4096) = (ExtHdr.next P { ext with md := md }).shdr)
    (hsjson : readRange d 20480 12288 = paddedJson P md ext.jsonSize) :
    HasHeader P d (ExtHdr.next P { ext with md := md }) := by
  have hold := h.hasHeader
  have hcons : isConsistent (ExtHdr.next P { ext with md := md }).phdr
      (ExtHdr.next P { ext with md := md }).shdr = true := by
    obtain ⟨hmagic, hversion, hsize, hseqid, hnames⟩ := isConsistent_iff.mp hold.isConsistent
    exact isConsistent_iff.mpr ⟨hmagic, hversion, hsize, congrArg (· + 1) hseqid, hnames⟩
  obtain ⟨⟨hash, hhash⟩, hash', hhash'⟩ := h.csum
  exact ⟨hphdr, hold.pvalid, hpjson, csumMatches_withCsum hhash, readJson_toJson _ _ h.valid, hshdr, hold.svalid,
    csumMatches_withCsum hhash', hcons, hsjson, h.jsonSize⟩

/-- **What is read after the first `k` writes.** -/
theorem Update.read_crashed (h : Update P dev ext md) (k : ℕ) :
    luks2ReadHdr P (crashed P dev { ext with md := md } k) =
      if k = 0 then some ext
      else if 4 ≤ k ∨ k = 3 ∧ paddedJson P md ext.jsonSize = ext.jsonData then
        some (ExtHdr.next P { ext with md := md })
      else none := by
  obtain ⟨hphdr, hpjson, hshdr, hsjson⟩ := h.areas k
  have hblock : (crashed P dev { ext with md := md } k).blockSize = sectorSize := by
    rw [h.crashed_eq]
    exact h.blockSize
  have hsize : 32768 ≤ (crashed P dev { ext with md := md } k).size := by
    rw [h.crashed_eq]
    exact h.size
  have hdata : (crashed P dev { ext with md := md } k).data = crashedData P dev { ext with md := md } k := by
    rw [h.crashed_eq]
    rfl
  rw [← hdata] at hphdr hpjson hshdr hsjson
  split_ifs with hzero hnew
  · subst hzero
    exact h.read
  · have hhdrSize : (ExtHdr.next P { ext with md := md }).phdr.hdrSize = 16384 := h.hdrSize
    refine (luks2ReadHdr_iff hblock hsize hhdrSize h.hdrOffset).mpr (h.hasHeader_next ?_ ?_ ?_ ?_)
    · rw [hphdr, if_pos (by omega)]
    · rw [hpjson, if_pos (by omega)]
    · rw [hshdr, if_pos (by omega)]
    · rcases hnew with hk | ⟨rfl, hjson⟩
      · rw [hsjson, if_pos (by omega)]
      · rw [hsjson, if_neg (by omega), hjson]
  · refine eq_none_iff_forall_ne_some.mpr fun ext' hread => ?_
    rw [if_pos (by omega)] at hphdr
    obtain ⟨hblock', hhdr', -⟩ := luks2ReadHdr_eq_some hread
    have hphdr' := ((readBinaryHdr_iff hblock hsize).mp hhdr').1
    rw [if_pos rfl, hphdr] at hphdr'
    have hnew' := (luks2ReadHdr_iff hblock hsize (by rw [← hphdr']; exact h.hdrSize)
      (by rw [← hphdr']; exact h.hdrOffset)).mp hread
    by_cases hk : 2 < k
    -- only the secondary JSON area is old
    · obtain rfl : k = 3 := by omega
      rw [if_pos (by omega)] at hpjson
      rw [if_neg (by omega)] at hsjson
      exact hnew (.inr ⟨rfl, hpjson.symm.trans (hnew'.pjson.trans (hnew'.sjson.symm.trans hsjson))⟩)
    -- the sequence numbers differ
    · rw [if_neg hk] at hshdr
      have hcons := hnew'.isConsistent
      rw [← hphdr', ← hnew'.shdr, hshdr] at hcons
      have hseqid : ext.phdr.seqid = ext.phdr.seqid + 1 :=
        h.consistent.2.2.symm.trans (isConsistent_iff.mp hcons).2.2.2.1
      exact absurd hseqid (by bv_omega)

/-- **Header updates are crash safe** only if no write or all of them were done, or if the last one would have
changed nothing. -/
theorem writeHdr_crash_safe_iff (h : Update P dev ext md) (k : ℕ) :
    (luks2ReadHdr P (crashed P dev { ext with md := md } k) = some ext ∨
        luks2ReadHdr P (crashed P dev { ext with md := md } k) =
          some (ExtHdr.next P { ext with md := md })) ↔
      k = 0 ∨ 4 ≤ k ∨ k = 3 ∧ paddedJson P md ext.jsonSize = ext.jsonData := by
  rw [h.read_crashed]
  split_ifs with hzero hnew
  · simp [hzero]
  · simp [hnew]
  · simp [hzero, hnew]

end

theorem update_sample :
    Update samplePrimitives sampleDevice (sampleHeader.written samplePrimitives) sampleMetadata where
  read := by
    have hread := inv_sampleDevice.read
    dsimp only at hread
    exact hread
  hdrSize := inv_sampleDevice.formed.hdrSize
  hdrOffset := inv_sampleDevice.formed.hdrOffset
  fits := fits_sampleMetadata
  valid := inv_sampleDevice.valid

theorem writeHdr_crash_safe_sample : luks2ReadHdr samplePrimitives (crashed samplePrimitives sampleDevice
        { sampleHeader.written samplePrimitives with md := sampleMetadata } 4) =
          some (sampleHeader.written samplePrimitives) ∨
      luks2ReadHdr samplePrimitives (crashed samplePrimitives sampleDevice
        { sampleHeader.written samplePrimitives with md := sampleMetadata } 4) =
          some (ExtHdr.next samplePrimitives
            { sampleHeader.written samplePrimitives with md := sampleMetadata }) :=
  (writeHdr_crash_safe_iff update_sample 4).mpr (.inr (.inl le_rfl))

/-- A header that was read cannot be read any more after the first write. -/
theorem writeHdr_crash_loses_header :
    luks2ReadHdr samplePrimitives sampleDevice = some (sampleHeader.written samplePrimitives) ∧
      luks2ReadHdr samplePrimitives (crashed samplePrimitives sampleDevice
        { sampleHeader.written samplePrimitives with md := sampleMetadata } 1) = none := by
  refine ⟨update_sample.read, ?_⟩
  rw [update_sample.read_crashed, if_neg (by decide), if_neg (by simp)]

/-- **What `_write_hdr` has written, `luks2_read_hdr` reads.** -/
theorem luks2ReadHdr_writeHdr {dev : Blockdev} {ext : ExtHdr} {md : Metadata} (h : Update P dev ext md) :
    ∃ dev', writeHdr P dev { ext with md := md } = (.ok, dev') ∧
      luks2ReadHdr P dev' = some (ExtHdr.next P { ext with md := md }) :=
  ⟨_, h.writeHdr_eq, by rw [h.read_crashed, if_neg (by decide), if_pos (.inl le_rfl)]⟩

theorem luks2ReadHdr_writeHdr_sample : ∃ dev', writeHdr samplePrimitives sampleDevice
        { sampleHeader.written samplePrimitives with md := sampleMetadata } = (.ok, dev') ∧
      luks2ReadHdr samplePrimitives dev' = some (ExtHdr.next samplePrimitives
        { sampleHeader.written samplePrimitives with md := sampleMetadata }) :=
  luks2ReadHdr_writeHdr update_sample

end SgxLkl.Luks
