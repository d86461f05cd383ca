import SgxLkl.Luks.Runs

/-!
# Formatting a device

* **`inv_luks2Format`**: a device that was formatted holds a header without key slots, or a header that
  cannot be read.
* **`Inv.luks2RecoverMasterKey`**, **`Inv.luks2RemoveKey`**: what the functions return where the invariant
  holds.
-/

namespace SgxLkl.Luks

open Json (bytes)
open List

variable {P : Primitives}

section

variable {args : FormatArgs} {random : FormatRandom} {key uuid : List Byte} {ext : ExtHdr}

theorem formatKey_ne_ok (args : FormatArgs) (random : FormatRandom) : formatKey args random ≠ .error .ok := by
  unfold formatKey
  split
  · exact nofun
  · split_ifs <;> nofun

theorem initIntegrity_ne_ok (integrity : Option (CString Byte)) : initIntegrity integrity ≠ .error .ok := by
  unfold initIntegrity
  split
  · simp
  · split_ifs <;> simp

variable {α : Type} {x : Except VicResult α} {r : VicResult} {dev : Blockdev}

theorem bind_ne_ok {β : Type} {f : α → Except VicResult β} (hx : x ≠ .error .ok)
    (hf : ∀ a, f a ≠ .error .ok) : (x >>= f) ≠ .error .ok := by
  rw [Ne, bind_eq_error, not_or]
  exact ⟨hx, fun ⟨a, _, ha⟩ => hf a ha⟩

theorem orRaise_ne_ok (hr : r ≠ .ok) (o : Option α) : orRaise r o ≠ .error .ok :=
  fun h => hr (orRaise_eq_error.mp h).2

theorem check_ne_ok {c : Prop} [Decidable c] (hr : r ≠ .ok) (hx : x ≠ .error .ok) :
    (if c then (Except.error r : Except VicResult PUnit) >>= fun _ => x else x) ≠ .error .ok := by
  split_ifs
  · exact bind_ne_ok (fun h => hr (Except.error.inj h)) fun _ => hx
  · exact hx

theorem initializeHdr_ne_ok : initializeHdr P args random key uuid ≠ .error .ok := by
  unfold initializeHdr
  refine bind_ne_ok (initIntegrity_ne_ok _) fun _ => bind_ne_ok (orRaise_ne_ok (by decide) _) fun _ =>
    bind_ne_ok (orRaise_ne_ok (by decide) _) fun _ => check_ne_ok (by decide) nofun

def formatUuid (args : FormatArgs) (random : FormatRandom) : Except VicResult (List Byte) :=
  match args.uuid with
  | some uuid => if vicUuidValid uuid.chars then .ok uuid.chars else .error .badUuid
  | none => .ok (vicUuidGenerate random.uuid)

def formatWith (P : Primitives) (dev : Blockdev) (args : FormatArgs) (random : FormatRandom)
    (uuid : List Byte) : Except VicResult ExtHdr := do
  let key ← formatKey args random
  if dev.size / dev.blockSize * sectorSize < minDeviceBytes then .error .deviceTooSmall
  let ext ← initializeHdr P args random key uuid
  if dev.size / dev.blockSize ≤ (ext.md.segments 0).offset.toNat / sectorSize then .error .deviceTooSmall
  return ext

theorem formatPlan_eq (dev : Blockdev) : formatPlan P dev args random =
    if ¬ isValidDevice dev then .error .badParameter
    else formatUuid args random >>= formatWith P dev args random := by
  unfold formatPlan formatUuid
  split_ifs
  · cases args.uuid with
    | none => rfl
    | some uuid =>
      dsimp only
      by_cases hvalid : vicUuidValid uuid.chars = true
      · rw [if_pos hvalid, if_pos hvalid]
        rfl
      · rw [if_neg hvalid, if_neg hvalid]
        rfl
  · rfl

theorem formatPlan_ne_ok : formatPlan P dev args random ≠ .error .ok := by
  rw [formatPlan_eq]
  split_ifs
  · refine bind_ne_ok ?_ fun uuid => bind_ne_ok (formatKey_ne_ok _ _) fun key => check_ne_ok (by decide) ?_
    · unfold formatUuid
      split
      · split_ifs <;> nofun
      · exact nofun
    · exact bind_ne_ok initializeHdr_ne_ok fun ext => check_ne_ok (by decide) nofun
  · exact nofun

theorem formatPlan_eq_ok (h : formatPlan P dev args random = .ok ext) :
    dev.blockSize = sectorSize ∧ minDeviceBytes ≤ dev.size ∧ ∃ key uuid,
      formatKey args random = .ok key ∧ initializeHdr P args random key uuid = .ok ext := by
  rw [formatPlan_eq] at h
  split_ifs at h with hvalid
  have hblock : dev.blockSize = sectorSize := by simpa [isValidDevice] using hvalid
  obtain ⟨uuid, -, h⟩ := bind_eq_ok.mp h
  obtain ⟨key, hkey, h⟩ := bind_eq_ok.mp h
  obtain ⟨hsize, h⟩ := check_eq_ok.mp h
  obtain ⟨ext, hext, h⟩ := bind_eq_ok.mp h
  obtain ⟨-, h⟩ := check_eq_ok.mp h
  cases h
  rw [hblock] at hsize
  exact ⟨hblock, (Nat.not_lt.mp hsize).trans (Nat.div_mul_le_self _ _), key, uuid, hkey, hext⟩

theorem formatKey_eq_ok (h : formatKey args random = .ok key) : 0 < key.length ∧ key.length ≤ 128 := by
  unfold formatKey at h
  split at h
  · cases h
    rw [List.Vector.toList_length]
    decide
  · next masterKey _ =>
    split_ifs at h with h₀ h₁
    cases h
    have hpos : args.masterKeyBytes.toNat ≠ 0 := fun hz => h₀ (BitVec.eq_of_toNat_eq hz)
    rw [length_take, List.Vector.toList_length]
    omega

theorem initializeHdr_eq_ok (h : initializeHdr P args random key uuid = .ok ext) :
    ∃ integrity t digest, initIntegrity args.integrity = .ok integrity ∧
      vicHashType (args.hash.getD (literal "sha256")).chars = some t ∧
      vicPbkdf2 P key random.digestSalt.toList (newDigest args random digest).iterations
        (newDigest args random digest).hash.chars t.size = some digest ∧
      (toJson P (newMetadata args random integrity digest)).length < 12288 ∧
      ext = ⟨withCsum P (newHdr args random uuid) (paddedJson P (newMetadata args random integrity digest) 12288),
        { newHdr args random uuid with magic := magic2nd, hdrOffset := 16384 },
        newMetadata args random integrity digest, 12288,
        paddedJson P (newMetadata args random integrity digest) 12288⟩ := by
  unfold initializeHdr at h
  obtain ⟨integrity, hintegrity, h⟩ := bind_eq_ok.mp h
  obtain ⟨t, ht, h⟩ := bind_eq_ok.mp h
  obtain ⟨digest, hdigest, h⟩ := bind_eq_ok.mp h
  obtain ⟨hfits, h⟩ := check_eq_ok.mp h
  cases h
  exact ⟨integrity, t, digest, hintegrity, orRaise_eq_ok.mp ht, orRaise_eq_ok.mp hdigest, Nat.not_le.mp hfits, rfl⟩

end

/-! ## The metadata of a new device -/

section

variable {args : FormatArgs} {random : FormatRandom} {integrity : Integrity} {digest mk : List Byte}
  {t : HashType}

theorem length_vicPbkdf2 {pwd salt hashSpec : List Byte} {iterations : Word} {n : ℕ}
    (h : vicPbkdf2 P pwd salt iterations hashSpec n = some digest) : digest.length = n := by
  unfold vicPbkdf2 at h
  split_ifs at h
  split at h
  · cases h
  · split_ifs at h
    cases h
    exact P.length_pbkdf2Hmac _ _ _ _ _

theorem type_newDigest : (newDigest args random digest).type.chars = bytes "pbkdf2" := rfl

theorem type_newSegment : (newSegment args integrity).type.chars = bytes "crypt" := rfl

section

variable (ht : vicHashType (args.hash.getD (literal "sha256")).chars = some t)

include ht

theorem hash_newDigest :
    vicHashType (newDigest args random digest).hash.chars = some t := by
  show vicHashType (strlcpy (args.hash.getD (literal "sha256"))).chars = some t
  rw [strlcpy_hash (by rw [ht]; nofun), ht]

theorem digestOf_newDigest (hdigest : vicPbkdf2 P mk random.digestSalt.toList (newDigest args random digest).iterations
      (newDigest args random digest).hash.chars t.size = some digest) :
    DigestOf P mk (newDigest args random digest) := by
  have hlen := length_vicPbkdf2 hdigest
  have htake : (toVector 64 digest).toList.take t.size = digest := by
    show ((digest ++ replicate 64 0).take 64).take t.size = digest
    rw [take_take, Nat.min_eq_left t.size_le, take_left' hlen]
  refine ⟨type_newDigest, t, hash_newDigest ht, ?_⟩
  show _ = some ((toVector 64 digest).toList.take t.size)
  rw [htake]
  exact hdigest

theorem valid_newDigest (hlen : digest.length = t.size) : (newDigest args random digest).Valid := by
  refine ⟨type_newDigest, t, hash_newDigest ht, ?_⟩
  show ((digest ++ replicate 64 0).take 64).drop t.size = replicate (64 - t.size) 0
  have hle := t.size_le
  rw [drop_take, drop_left' hlen, take_replicate, Nat.min_eq_left (Nat.sub_le _ _)]

end

theorem initIntegrity_valid (h : initIntegrity args.integrity = .ok integrity)
    (hcipher : (newSegment args integrity).encryption.Readable) : (newSegment args integrity).Valid := by
  unfold initIntegrity at h
  split at h
  · cases h
    exact ⟨rfl, hcipher, rfl, fun _ => rfl, fun hne => absurd rfl hne⟩
  · next name _ =>
    split_ifs at h with h₁ h₂
    cases h
    have hcases : ∃ w ∈ ["aead", "hmac(sha256)", "hmac(sha512)", "cmac(aes)", "poly1305"],
        name.chars = bytes w := by
      simpa [vicIntegrityValid, or_assoc] using h₁
    have hname : (strlcpy name).Readable ∧ (strlcpy name).chars ≠ [] := by
      obtain ⟨w, hw, hname⟩ := hcases
      show (name.chars.take 31).all Json.readable = true ∧ name.chars.take 31 ≠ []
      rw [hname]
      clear hname
      revert w
      decide
    exact ⟨rfl, hcipher, hname.1, fun hnil => absurd hnil hname.2, fun _ => ⟨rfl, rfl⟩⟩

theorem valid_newMetadata (hintegrity : initIntegrity args.integrity = .ok integrity)
    (ht : vicHashType (args.hash.getD (literal "sha256")).chars = some t) (hlen : digest.length = t.size)
    (hcipher : (newSegment args integrity).encryption.Readable) :
    (newMetadata args random integrity digest).Valid := by
  have hdigests (j : Fin numDigests) :
      (newMetadata args random integrity digest).digests j = newDigest args random digest ∨
      (newMetadata args random integrity digest).digests j = {} := by
    by_cases hj : j = 0
    · subst hj
      exact .inl rfl
    · refine .inr ?_
      show Function.update (fun _ : Fin numDigests => ({} : Digest)) 0 (newDigest args random digest) j = {}
      rw [Function.update_of_ne hj]
  refine ⟨fun i hi => absurd rfl hi, fun i _ => rfl, fun i _ => initIntegrity_valid hintegrity hcipher,
    fun i hi => absurd (type_newSegment.symm.trans hi) (by decide), fun j hj => ?_, fun j hj => ?_⟩
  · rcases hdigests j with h | h
    · rw [h]
      exact valid_newDigest ht hlen
    · rw [h] at hj
      exact absurd rfl hj
  · rcases hdigests j with h | h
    · rw [h] at hj
      exact absurd (type_newDigest.symm.trans hj) (by decide)
    · exact h

end

/-! ## The device -/

def ExtHdr.written (P : Primitives) (ext : ExtHdr) : ExtHdr := { ext with shdr := withCsum P ext.shdr ext.jsonData }

section

variable {dev dev' : Blockdev} {args : FormatArgs} {random : FormatRandom} {dm : VicResult × (ℕ → Byte)}
  {ext : ExtHdr} {key uuid : List Byte}

theorem formed_initializeHdr (h : initializeHdr P args random key uuid = .ok ext) :
    (ext.written P).Formed ∧ (ext.written P).Sealed P := by
  obtain ⟨integrity, t, digest, -, -, -, hfits, rfl⟩ := initializeHdr_eq_ok h
  set json := paddedJson P (newMetadata args random integrity digest) 12288 with hjson
  have halg : cstr (newHdr args random uuid).csumAlg = bytes "sha256" := by
    show cstr (strlcpyTo 32 (some (literal "sha256"))) = bytes "sha256"
    decide
  have hne : json ≠ [] := by
    apply ne_nil_of_length_pos
    rw [hjson, length_paddedJson hfits]
    decide
  obtain ⟨hash, hhash⟩ := isSome_calculateCsum (P := P) (newHdr args random uuid) hne halg
  obtain ⟨hash', hhash'⟩ := isSome_calculateCsum (P := P)
    { newHdr args random uuid with magic := magic2nd, hdrOffset := 16384 } hne halg
  exact ⟨⟨rfl, rfl, rfl, rfl, rfl, halg, rfl⟩,
    ⟨hfits, rfl, csumMatches_withCsum hhash, csumMatches_withCsum hhash'⟩⟩

section

variable (hplan : formatPlan P dev args random = .ok ext)

include hplan

theorem luks2Format_eq : luks2Format P dev args random dm = let data := writeHeaders dev.data (ext.written P)
      if args.integrity.isSome then
        (dm.1, { dev with data := fun i => if i < overheadBytes then data i else dm.2 i })
      else (.ok, { dev with data := data }) := by
  obtain ⟨hblock, hsize, key, uuid, -, hinit⟩ := formatPlan_eq_ok hplan
  obtain ⟨hformed, hsealed⟩ := formed_initializeHdr hinit
  have hsize' : 32768 ≤ dev.size := le_trans (by decide) hsize
  have hjson : ext.jsonData.length = 12288 := by
    have := length_paddedJson hsealed.fits
    rw [← hsealed.json, hformed.jsonSize] at this
    exact this
  have hlen : ext.phdr.encode.length = 4096 := ext.phdr.length_encode
  obtain ⟨hash, hhash⟩ : ∃ hash, calculateCsum P ext.shdr ext.jsonData = some hash :=
    isSome_calculateCsum ext.shdr (ne_nil_of_length_pos (by omega)) hformed.csumAlg_shdr
  have hput₁ : writeBinaryHdr dev ext.phdr true = some { dev with data := writeRange dev.data 0 ext.phdr.encode } :=
    Blockdev.put_eq hblock (by simp) (by rw [hlen]; rfl) (by rw [hlen]; omega)
  have hput₂ : writeJsonArea { dev with data := writeRange dev.data 0 ext.phdr.encode } ext.phdr ext.jsonData
      ext.jsonSize = some { dev with
        data := writeRange (writeRange dev.data 0 ext.phdr.encode) 4096 ext.jsonData } := by
    refine Blockdev.put_eq hblock ?_ ?_ ?_
    · rw [show jsonBlkno ext.phdr = 8 from hformed.jsonBlkno_phdr]
      rfl
    · rw [show ext.jsonSize = 12288 from hformed.jsonSize, hjson]
      rfl
    · rw [hjson]
      exact le_trans (by decide) hsize'
  unfold luks2Format
  rw [hplan]
  dsimp only
  rw [orFail, hput₁]
  dsimp only
  rw [orFail, hput₂]
  dsimp only
  refine (writeCopy_eq _ 16384 20480 ?_ hhash ?_ ?_ ?_ ?_ ?_ _).trans rfl
  · exact hblock
  · have : ext.shdr.hdrSize = 16384 := by
      have := congrArg Hdr.hdrSize hformed.shdr
      exact this.trans hformed.hdrSize
    rw [this]
    rfl
  · have hblkno : jsonBlkno ext.shdr = 40 := hformed.jsonBlkno_shdr
    rw [hblkno]
    rfl
  · rw [show ext.jsonSize = 12288 from hformed.jsonSize, hjson]
    rfl
  · exact le_trans (by decide) hsize'
  · rw [hjson]
    exact le_trans (by decide) hsize'

section

variable (hformat : luks2Format P dev args random dm = (.ok, dev'))

include hformat

theorem holds_luks2Format : Holds dev' (ext.written P) := by
  obtain ⟨hblock, hsize, key, uuid, -, hinit⟩ := formatPlan_eq_ok hplan
  obtain ⟨hformed, hsealed⟩ := formed_initializeHdr hinit
  have hjson : (ext.written P).jsonData.length = 12288 := by
    rw [hsealed.json, length_paddedJson hsealed.fits, hformed.jsonSize]
  have hheaders := holds_writeHeaders hblock (le_trans (by decide) hsize) hjson
  rw [luks2Format_eq hplan] at hformat
  dsimp only at hformat
  split_ifs at hformat
  · cases (congrArg Prod.snd hformat)
    refine hheaders.congr rfl rfl fun i (hi : i < 32768) => ?_
    exact if_pos (hi.trans (by decide))
  · cases hformat
    exact hheaders

theorem inv_of_formatPlan (hkey : formatKey args random = .ok key)
    (hcipher : (ext.md.segments 0).encryption.Readable) : Inv P key ⟨dev', fun _ => none⟩ (ext.written P) := by
  have hholds := holds_luks2Format hplan hformat
  obtain ⟨-, -, key', uuid, hkey', hinit⟩ := formatPlan_eq_ok hplan
  obtain rfl : key' = key := Except.ok.inj (hkey'.symm.trans hkey)
  obtain ⟨hformed, hsealed⟩ := formed_initializeHdr hinit
  obtain ⟨integrity, t, digest, hintegrity, ht, hdigest, -, rfl⟩ := initializeHdr_eq_ok hinit
  exact ⟨⟨hholds, hformed, hsealed, valid_newMetadata hintegrity ht (length_vicPbkdf2 hdigest) hcipher⟩,
    formatKey_eq_ok hkey, digestOf_newDigest ht hdigest, fun i => rfl⟩

theorem read_of_formatPlan (hcipher : ¬ (ext.md.segments 0).encryption.Readable) : luks2ReadHdr P dev' = none := by
  have hholds := holds_luks2Format hplan hformat
  obtain ⟨-, -, key, uuid, -, hinit⟩ := formatPlan_eq_ok hplan
  obtain ⟨hformed, hsealed⟩ := formed_initializeHdr hinit
  obtain ⟨integrity, t, digest, -, -, -, -, rfl⟩ := initializeHdr_eq_ok hinit
  have hsegment : ((newMetadata args random integrity digest).segments 0).type.chars ≠ [] := by
    show (newSegment args integrity).type.chars ≠ []
    rw [type_newSegment]
    decide
  rw [luks2ReadHdr_of_holds hholds hformed hsealed, hsealed.json, paddedJson]
  exact congrArg (Option.map _) (readJson_eq_none _ _ hsegment hcipher)

end

end

theorem inv_luks2Format (hformat : luks2Format P dev args random dm = (.ok, dev'))
    (hkey : formatKey args random = .ok key) :
    (∃ ext, Inv P key ⟨dev', fun _ => none⟩ ext) ∨ luks2ReadHdr P dev' = none := by
  cases hplan : formatPlan P dev args random with
  | ok ext =>
    by_cases hcipher : (ext.md.segments 0).encryption.Readable
    · exact .inl ⟨_, inv_of_formatPlan hplan hformat hkey hcipher⟩
    · exact .inr (read_of_formatPlan hplan hformat hcipher)
  | error r =>
    rw [luks2Format, hplan] at hformat
    cases hformat
    exact absurd hplan formatPlan_ne_ok

end

/-! ## The passwords that are enrolled -/

section

variable {mk q : List Byte} {s : KeyState} {ext : ExtHdr}

section

variable (h : Inv P mk s ext)

include h

theorem Inv.found (hq : q ≠ []) (hhonest : Honest P s q) :
    (q ∈ contents s.slots → ∃ i, Luks.findKeyByPwd P s.dev ext.md q = .ok (mk, i) ∧ s.slots i = some q) ∧
      (q ∉ contents s.slots → Luks.findKeyByPwd P s.dev ext.md q = .error .notFound) := by
  rw [h.findKeyByPwd hq hhonest, mem_contents]
  cases hfind : (finRange numKeyslots).find? fun i => s.slots i = some q with
  | some i =>
    have hi : s.slots i = some q := by simpa using find?_some hfind
    exact ⟨fun _ => ⟨i, rfl, hi⟩, fun hnot => absurd ⟨i, hi⟩ hnot⟩
  | none =>
    refine ⟨fun ⟨i, hi⟩ => ?_, fun _ => rfl⟩
    have := find?_eq_none.mp hfind i (mem_finRange i)
    exact absurd hi (by simpa using this)

theorem Inv.luks2RecoverMasterKey (hq : q ≠ []) (hhonest : Honest P s q) : luks2RecoverMasterKey P s.dev (some q) =
      if q ∈ contents s.slots then .ok (mk, BitVec.ofNat 64 mk.length) else .error .notFound := by
  obtain ⟨hin, hout⟩ := h.found hq hhonest
  simp only [Luks.luks2RecoverMasterKey, h.isValidDevice, not_true_eq_false, if_false, orRaise, h.read, bind,
    Except.bind, pure, Except.pure]
  split_ifs with hmem
  · obtain ⟨i, hfind, hi⟩ := hin hmem
    have hsize : (ext.md.keyslots i).keySize = BitVec.ofNat 64 mk.length := by
      rw [← (h.inUse hi).shaped.keySize, BitVec.ofNat_toNat, BitVec.setWidth_eq]
    rw [hfind, ← hsize]
  · rw [hout hmem]

theorem Inv.countKeyslots : countKeyslots ext.md = (contents s.slots).card := by
  have hused (i : Fin numKeyslots) : (ext.md.keyslots i).type.chars ≠ [] ↔ (s.slots i).isSome := by
    rw [← not_iff_not, not_not, Option.not_isSome_iff_eq_none]
    exact ⟨h.slots_eq_none, h.free⟩
  rw [card_contents, Luks.countKeyslots]
  refine congrArg length (filter_congr fun i _ => ?_)
  rw [Bool.eq_iff_iff, decide_eq_true_eq]
  exact hused i

theorem Inv.removeKeyPlan (q : List Byte) :
    removeKeyPlan P s.dev (some q) = Luks.findKeyByPwd P s.dev ext.md q >>= fun x =>
      if Luks.countKeyslots ext.md = 1 then .error .lastKeyslot
      else .ok ({ ext with md := removeSlot ext.md x.2 }, x.2) := by
  simp only [Luks.removeKeyPlan, h.isValidDevice, not_true_eq_false, if_false, orRaise, h.read, bind, Except.bind]
  cases Luks.findKeyByPwd P s.dev ext.md q with
  | error r => rfl
  | ok x =>
    dsimp only
    split_ifs <;> rfl

theorem Inv.remove_progress {key : List Byte} {i : Fin numKeyslots}
    (hfind : Luks.findKeyByPwd P s.dev ext.md q = .ok (key, i)) (hcount : Luks.countKeyslots ext.md ≠ 1) :
    ∃ dev', Luks.luks2RemoveKey P s.dev (some q) = (.ok, dev') := by
  have hok : Luks.removeKeyPlan P s.dev (some q) = .ok ({ ext with md := removeSlot ext.md i }, i) := by
    rw [h.removeKeyPlan, hfind]
    exact if_neg hcount
  have hfits : (toJson P (removeSlot ext.md i)).length < ext.jsonSize :=
    lt_of_le_of_lt (length_toJson_removeSlot _ _) h.isSealed.fits
  obtain ⟨dev', hwrite⟩ := writeHdr_of_read h.read hfits
  have hzero : (removeSlot ext.md i).keyslots i = {} := by
    rw [keyslots_removeSlot, Function.update_self]
  refine ⟨dev', ?_⟩
  rw [Luks.luks2RemoveKey, hok]
  dsimp only
  rw [hwrite]
  dsimp only
  rw [hzero, orFail, writeKeyMaterial_zero]

theorem Inv.luks2RemoveKey (hq : q ≠ []) (hhonest : Honest P s q) : (luks2RemoveKey P s.dev (some q)).1 =
      if q ∈ contents s.slots then if (contents s.slots).card = 1 then .lastKeyslot else .ok
      else .notFound := by
  obtain ⟨hin, hout⟩ := h.found hq hhonest
  split_ifs with hmem hcard
  · obtain ⟨i, hfind, -⟩ := hin hmem
    have herror : Luks.removeKeyPlan P s.dev (some q) = .error .lastKeyslot := by
      rw [h.removeKeyPlan, hfind]
      exact if_pos (h.countKeyslots.trans hcard)
    rw [Luks.luks2RemoveKey, herror]
  · obtain ⟨i, hfind, -⟩ := hin hmem
    obtain ⟨dev', hok⟩ := h.remove_progress hfind (h.countKeyslots ▸ hcard)
    rw [hok]
  · have herror : Luks.removeKeyPlan P s.dev (some q) = .error .notFound := by
      rw [h.removeKeyPlan, hout hmem]
      rfl
    rw [Luks.luks2RemoveKey, herror]

end

theorem not_keyStep {t : KeyState} {op : KeyOp} (hread : luks2ReadHdr P s.dev = none) : ¬ KeyStep P mk s op t := by
  intro hstep
  obtain ⟨i, x, hslot, -⟩ := hstep.slots
  have hsome : ∃ ext, luks2ReadHdr P s.dev = some ext := by
    cases op with
    | addKey args random =>
      obtain ⟨plan, hplan, -⟩ := map_eq_ok.mp hslot
      obtain ⟨_, ext, _, _, _, -, -, hext, -⟩ := addKeyPlan_eq_ok hplan
      exact ⟨ext, hext⟩
    | addKeyByMasterKey args random =>
      obtain ⟨plan, hplan, -⟩ := map_eq_ok.mp hslot
      obtain ⟨ext, _, _, _, _, -, -, -, hext, -⟩ := addKeyByMasterKeyPlan_eq_ok hplan
      exact ⟨ext, hext⟩
    | changeKey oldPwd newPwd stripes =>
      obtain ⟨plan, hplan, -⟩ := map_eq_ok.mp hslot
      obtain ⟨_, -, -, hext, -⟩ := changeKeyPlan_eq_ok hplan
      exact ⟨plan.ext, hext⟩
    | removeKey pwd =>
      obtain ⟨⟨_, _⟩, hplan, -⟩ := map_eq_ok.mp hslot
      obtain ⟨_, ext, _, -, hext, -⟩ := removeKeyPlan_eq_ok hplan
      exact ⟨ext, hext⟩
  obtain ⟨ext, hext⟩ := hsome
  rw [hread] at hext
  cases hext

def enrolled (ops : List KeyOp) : Multiset (List Byte) := (ops.map KeyOp.effect).foldl TableOp.apply 0

theorem Run.inv_contents {s₀ : KeyState} {ext₀ : ExtHdr} {ops : List KeyOp}
    (hrun : Run (KeyStep P mk) s₀ ops s) (h : Inv P mk s₀ ext₀) : (∃ ext, Inv P mk s ext) ∧
      contents s.slots = (ops.map KeyOp.effect).foldl TableOp.apply (contents s₀.slots) := by
  have hsim := Run.sim (R := fun s f => (∃ ext, Inv P mk s ext) ∧ f = s.slots)
    (L := fun op a => KeyOp.effect op = a) (fun s op t f ⟨⟨ext, hs⟩, hf⟩ hstep => by
      obtain ⟨ht, htable⟩ := hstep.inv hs
      exact ⟨op.effect, t.slots, rfl, hf ▸ htable, ht, rfl⟩) hrun ⟨⟨ext₀, h⟩, rfl⟩
  obtain ⟨ops', f, hops, htable, hinv, rfl⟩ := hsim
  obtain rfl : ops.map KeyOp.effect = ops' := by
    rw [← forall₂_eq_eq_eq]
    exact forall₂_map_left_iff.mpr hops
  exact ⟨hinv, htable.contents⟩

end

end SgxLkl.Luks
