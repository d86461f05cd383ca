import SgxLkl.Luks.Format

/-!
# The passwords that are enrolled

* **`luks2_recover_of_run`**: after any operations on a device that was formatted, exactly the passwords that
  are enrolled recover the master key.
-/

namespace SgxLkl.Luks

open Json (bytes)
open Function Option

variable {P : Primitives}

/-! ## Adding a key -/

section

variable {mk : List Byte} {s : KeyState} {ext : ExtHdr}

variable {i : Fin numKeyslots} {ks : Keyslot} {cipher : CString Byte} {kdf : CString Byte × VicKdf}

theorem Inv.commit_progress (h : Inv P mk s ext) {pwd data : List Byte}
    {stripes : ℕ → Byte} (hks : ks.Shaped mk.length i) (hvalid : ks.Valid)
    (hfits : (toJson P (useSlot ext.md i ks)).length < 12288)
    (hgen : generateKeyMaterial P ks mk pwd stripes = .ok data)
    (hsize : 32768 + areaBytes mk.length * 64 ≤ s.dev.size) :
    ∃ dev', commitKey P s.dev { ext with md := useSlot ext.md i ks } i mk pwd stripes = (.ok, dev') ∧
      Frame (Set.Iio 32768 ∪ ks.area.range) s.dev dev' := by
  have hself : (useSlot ext.md i ks).keyslots i = ks := by
    rw [keyslots_useSlot, update_self]
  have hfits' : (toJson P (useSlot ext.md i ks)).length < ext.jsonSize := h.formed.jsonSize ▸ hfits
  obtain ⟨dev₁, hwrite⟩ := writeHdr_of_read h.read hfits'
  obtain ⟨hstored, hframe⟩ := h.writeHdr (h.valid_useSlot hks hvalid) hwrite
  obtain ⟨dev', hput⟩ := hks.isSome_write hstored.holds.blockSize (hframe.2.1 ▸ hsize) data
  obtain ⟨hframe', -⟩ := hks.opens_written rfl hstored.holds.blockSize hgen hput
  refine ⟨dev', ?_, (hframe.mono Set.subset_union_left).trans (hframe'.mono Set.subset_union_right)⟩
  unfold commitKey
  rw [hwrite]
  dsimp only
  rw [hself, hgen]
  dsimp only
  rw [orFail, hput]

theorem addSlot_of_free {md : Metadata} {keySize : Word}
    {salt : List.Vector Byte 32} (hfree : findFreeKeyslot md = some i)
    (hinit : initKeyslot cipher keySize (keySize - vicIntegrityKeySize (md.segments 0).integrity.type.chars)
      kdf.1 kdf.2 i salt = some ks) :
    addSlot md cipher keySize kdf salt = .ok (useSlot md i ks, i) := by
  simp only [addSlot, hfree, hinit, orRaise, bind, Except.bind, pure, Except.pure]
  rfl

/-- **A key can be added** if there is room for it and its algorithms are known. -/
theorem Inv.addKeyByMasterKey_progress (h : Inv P mk s ext) (args : AddByMasterKeyArgs) (random : Random)
    {masterKey : List.Vector Byte 128} {pwd key : List Byte}
    (hcipher : args.keyslotCipher = some cipher) (hmasterKey : args.masterKey = some masterKey)
    (hpwd : args.pwd = some pwd) (hkdf : chooseKdf args.kdfType args.kdf = .ok kdf)
    (hbytes : args.masterKeyBytes.toNat = mk.length)
    (hmk : masterKey.toList.take args.masterKeyBytes.toNat = mk)
    (hfree : findFreeKeyslot ext.md = some i) (hinit : initKeyslot cipher args.masterKeyBytes
      (args.masterKeyBytes - vicIntegrityKeySize (ext.md.segments 0).integrity.type.chars) kdf.1 kdf.2 i
      random.salt = some ks)
    (hderive : deriveKey P ks pwd = .ok key) (hhash : Diffuses ks.af.hash.chars)
    (hinfo : getCipherInfo ks.area.encryption.chars ks.area.keySize = true)
    (hfits : (toJson P (useSlot ext.md i ks)).length < 12288)
    (hsize : 32768 + areaBytes mk.length * 64 ≤ s.dev.size) :
    ∃ dev', KeyStep P mk s (.addKeyByMasterKey args random) ⟨dev', update s.slots i (some pwd)⟩ ∧
      Inv P mk ⟨dev', update s.slots i (some pwd)⟩
        (ExtHdr.next P { ext with md := useSlot ext.md i ks }) ∧
      Frame (Set.Iio 32768 ∪ ks.area.range) s.dev dev' := by
  have hadd := addSlot_of_free hfree hinit
  have hplan : addKeyByMasterKeyPlan P s.dev args random.salt =
      .ok ⟨{ ext with md := useSlot ext.md i ks }, i, mk, pwd⟩ := by
    simp only [addKeyByMasterKeyPlan, h.isValidDevice, not_true_eq_false, if_false, hcipher, hmasterKey, hpwd,
      hkdf, h.read, hadd, hmk, orRaise, bind, Except.bind, pure, Except.pure]
  have hshaped : ks.Shaped mk.length i := hbytes ▸ initKeyslot_shaped (hbytes ▸ h.key.2) hinit
  obtain ⟨data, hgen⟩ := isOk_generateKeyMaterial mk random.stripes hderive hhash
    (hshaped.keySize ▸ h.key.2) hinfo
  have hvalid : ks.Valid := initKeyslot_valid hinit (initKeyslot_encryption hinit ▸ readable_of_generated hgen)
  obtain ⟨dev', hcommit, hframe⟩ := h.commit_progress hshaped hvalid hfits hgen hsize
  refine ⟨dev', ⟨?_, ⟨i, some pwd, ?_, rfl⟩, ⟨hbytes, ?_⟩, by simp [KeyOp.lookup], by simp [KeyOp.lookup]⟩,
    (h.addSlot hbytes hadd hcommit).2, hframe⟩
  · rw [KeyOp.run, luks2AddKeyByMasterKey, hplan]
    exact hcommit
  · rw [KeyOp.slot, hplan]
    rfl
  · intro masterKey' hmasterKey'
    obtain rfl : masterKey = masterKey' := some.inj (hmasterKey.symm.trans hmasterKey')
    exact hmk

end

/-! ## Functions that can be evaluated -/

def sampleDecode : List Byte → List Byte
  | a :: b :: l => ((a - 0x40) <<< 4 ||| (b - 0x40)) :: sampleDecode l
  | _ => []

def sampleLetters (b : Byte) : List Byte := [(b >>> 4) + 0x40, (b &&& 0x0f) + 0x40]

def sampleEncode (data : List Byte) : List Byte := data.flatMap sampleLetters

theorem sampleLetters_value : ∀ b : Byte, ((b >>> 4) + 0x40 - 0x40) <<< 4 ||| ((b &&& 0x0f) + 0x40 - 0x40) = b := by
  decide

theorem isPrint_sampleLetters : ∀ b : Byte,
    Json.isPrint ((b >>> 4) + 0x40) = true ∧ Json.isPrint ((b &&& 0x0f) + 0x40) = true := by
  decide

theorem sampleDecode_sampleEncode (data : List Byte) : sampleDecode (sampleEncode data) = data := by
  induction data with
  | nil => rfl
  | cons b data ih =>
    show (((b >>> 4) + 0x40 - 0x40) <<< 4 ||| ((b &&& 0x0f) + 0x40 - 0x40)) :: sampleDecode (sampleEncode data) = _
    rw [sampleLetters_value, ih]

/-- Functions that are as simple as the laws allow: passwords are their own keys. -/
def samplePrimitives : Primitives where
  hash t _ := List.replicate t.size 0
  length_hash _ _ := List.length_replicate
  hasMd _ := true
  pbkdf2Hmac _ pwd _ _ n := (pwd ++ List.replicate n 0).take n
  length_pbkdf2Hmac _ _ _ _ _ := by simp
  argon2Accepts _ _ _ _ _ := true
  argon2 _ pwd _ _ _ _ n := (pwd ++ List.replicate n.toNat 0).take n.toNat
  length_argon2 _ _ _ _ _ _ _ := by simp
  xtsEncrypt key _ data := data.map (· ^^^ key.headD 0)
  xtsDecrypt key _ data := data.map (· ^^^ key.headD 0)
  length_xtsEncrypt _ _ _ := List.length_map _
  length_xtsDecrypt _ _ _ := List.length_map _
  xtsDecrypt_xtsEncrypt _ _ data := by simp [comp_def]
  base64Encode := sampleEncode
  base64Decode text := some (sampleDecode text)
  base64Decode_base64Encode data := congrArg some (sampleDecode_sampleEncode data)
  isPrint_base64Encode data c hc := by
    obtain ⟨b, -, hb⟩ := List.mem_flatMap.mp hc
    rcases List.mem_pair.mp hb with rfl | rfl
    · exact (isPrint_sampleLetters b).1
    · exact (isPrint_sampleLetters b).2
  stack := []
  behind := []

def sampleKey : List Byte := List.replicate 32 1

def sampleFormatArgs : FormatArgs where
  label := none
  subsystem := none
  cipher := none
  uuid := none
  hash := none
  iterations := 0
  masterKey := some (List.Vector.replicate 128 1)
  masterKeyBytes := 32
  integrity := none

def sampleFormatRandom : FormatRandom where
  uuid := List.Vector.replicate 16 0
  masterKey := List.Vector.replicate 128 0
  hdrSalt := List.Vector.replicate 64 0
  digestSalt := List.Vector.replicate 32 0

def emptyDevice : Blockdev := ⟨512, 33554432, fun _ => 0⟩

def sampleDevice : Blockdev :=
    (luks2Format samplePrimitives emptyDevice sampleFormatArgs sampleFormatRandom (.ok, fun _ => 0)).2

def sampleMetadata : Metadata := newMetadata sampleFormatArgs sampleFormatRandom {} sampleKey

theorem formatKey_sample : formatKey sampleFormatArgs sampleFormatRandom = .ok sampleKey := by
  decide

theorem fits_sampleMetadata : (toJson samplePrimitives sampleMetadata).length < 12288 := by decide +kernel

def sampleHeader : ExtHdr where
  phdr := withCsum samplePrimitives (newHdr sampleFormatArgs sampleFormatRandom
    (vicUuidGenerate sampleFormatRandom.uuid)) (paddedJson samplePrimitives sampleMetadata 12288)
  shdr := { newHdr sampleFormatArgs sampleFormatRandom (vicUuidGenerate sampleFormatRandom.uuid) with
    magic := magic2nd, hdrOffset := 16384 }
  md := sampleMetadata
  jsonSize := 12288
  jsonData := paddedJson samplePrimitives sampleMetadata 12288

theorem formatPlan_sample :
    formatPlan samplePrimitives emptyDevice sampleFormatArgs sampleFormatRandom = .ok sampleHeader := by
  have hinit : initializeHdr samplePrimitives sampleFormatArgs sampleFormatRandom sampleKey
      (vicUuidGenerate sampleFormatRandom.uuid) = .ok sampleHeader := by
    unfold initializeHdr
    refine bind_eq_ok.mpr ⟨{}, rfl, bind_eq_ok.mpr ⟨.sha256, orRaise_eq_ok.mpr (by decide),
      bind_eq_ok.mpr ⟨sampleKey, orRaise_eq_ok.mpr (by decide), check_eq_ok.mpr ⟨?_, rfl⟩⟩⟩⟩
    exact Nat.not_le.mpr fits_sampleMetadata
  rw [formatPlan_eq, if_neg (by decide)]
  refine bind_eq_ok.mpr ⟨vicUuidGenerate sampleFormatRandom.uuid, rfl, bind_eq_ok.mpr ⟨sampleKey,
    formatKey_sample, check_eq_ok.mpr ⟨by decide, bind_eq_ok.mpr ⟨sampleHeader, hinit,
      check_eq_ok.mpr ⟨?_, rfl⟩⟩⟩⟩⟩
  decide

theorem format_sample : luks2Format samplePrimitives emptyDevice sampleFormatArgs sampleFormatRandom
    (.ok, fun _ => 0) = (.ok, sampleDevice) := by
  unfold sampleDevice
  rw [luks2Format_eq formatPlan_sample]
  rfl

theorem size_sampleDevice : sampleDevice.size = 33554432 := by
  unfold sampleDevice
  rw [luks2Format_eq formatPlan_sample]
  rfl

theorem inv_sampleDevice : Inv samplePrimitives sampleKey ⟨sampleDevice, fun _ => none⟩
    (sampleHeader.written samplePrimitives) := by
  refine inv_of_formatPlan formatPlan_sample format_sample formatKey_sample ?_
  unfold Str.Readable
  decide

def sampleArgs (cipher kdfType : CString Byte) (pwd : List Byte) : AddByMasterKeyArgs where
  keyslotCipher := some cipher
  kdfType := some kdfType
  kdf := none
  masterKey := some (List.Vector.replicate 128 1)
  masterKeyBytes := 32
  pwd := some pwd

def sampleRandom : Random := ⟨List.Vector.replicate 32 0, fun _ => 0⟩

def sampleSlot (cipher kdfType : CString Byte) (i : Fin numKeyslots) : Keyslot :=
  (initKeyslot cipher 32 32 kdfType (getDefaultKdf kdfType) i sampleRandom.salt).getD {}

theorem sample_add (cipher kdfType : CString Byte) (pwd key : List Byte) (i : Fin numKeyslots) {s : KeyState}
    {ext : ExtHdr} (h : Inv samplePrimitives sampleKey s ext) (hsize : s.dev.size = 33554432)
    (hkdf : validPbkdfType kdfType.chars = true) (hfree : findFreeKeyslot ext.md = some i)
    (hinit : (initKeyslot cipher 32 32 kdfType (getDefaultKdf kdfType) i sampleRandom.salt).isSome)
    (hintegrity : vicIntegrityKeySize (ext.md.segments 0).integrity.type.chars = 0)
    (hderive : deriveKey samplePrimitives (sampleSlot cipher kdfType i) pwd = .ok key)
    (hhash : Diffuses (sampleSlot cipher kdfType i).af.hash.chars)
    (hinfo : getCipherInfo (sampleSlot cipher kdfType i).area.encryption.chars
      (sampleSlot cipher kdfType i).area.keySize = true)
    (hfits : (toJson samplePrimitives (useSlot ext.md i (sampleSlot cipher kdfType i))).length < 12288) :
    ∃ dev', KeyStep samplePrimitives sampleKey s
        (.addKeyByMasterKey (sampleArgs cipher kdfType pwd) sampleRandom)
        ⟨dev', update s.slots i (some pwd)⟩ ∧
      Inv samplePrimitives sampleKey ⟨dev', update s.slots i (some pwd)⟩
        (ExtHdr.next samplePrimitives { ext with md := useSlot ext.md i (sampleSlot cipher kdfType i) }) ∧
      Frame (Set.Iio 32768 ∪ (sampleSlot cipher kdfType i).area.range) s.dev dev' := by
  have hchoose : chooseKdf (some kdfType) none = .ok (kdfType, getDefaultKdf kdfType) := if_pos hkdf
  have hslot : initKeyslot cipher 32 (32 - vicIntegrityKeySize (ext.md.segments 0).integrity.type.chars) kdfType
      (getDefaultKdf kdfType) i sampleRandom.salt = some (sampleSlot cipher kdfType i) := by
    obtain ⟨ks, hks⟩ := isSome_iff_exists.mp hinit
    rw [hintegrity, sampleSlot, hks]
    exact hks
  exact h.addKeyByMasterKey_progress (sampleArgs cipher kdfType pwd) sampleRandom rfl rfl rfl hchoose rfl rfl
    hfree hslot hderive hhash hinfo hfits (by rw [hsize]; decide)

def aesXts : CString Byte := literal "aes-xts-plain64" isPlain_aesXts

def sampleSlots : Fin numKeyslots → Option (List Byte) := update (fun _ => none) 0 (some (bytes "a"))

def sampleFirst : ExtHdr :=
  ExtHdr.next samplePrimitives { sampleHeader.written samplePrimitives with
    md := useSlot sampleMetadata 0 (sampleSlot aesXts (literal "pbkdf2" isPlain_pbkdf2) 0) }

theorem sampleSlots_eq_some {i : Fin numKeyslots} {p : List Byte} (h : sampleSlots i = some p) :
    i = 0 ∧ p = bytes "a" := by
  unfold sampleSlots at h
  by_cases hi : i = 0
  · subst hi
    rw [update_self] at h
    exact ⟨rfl, (some.inj h).symm⟩
  · rw [update_of_ne hi] at h
    cases h

theorem sample_first : ∃ dev', KeyStep samplePrimitives sampleKey ⟨sampleDevice, fun _ => none⟩
      (.addKeyByMasterKey (sampleArgs aesXts (literal "pbkdf2") (bytes "a")) sampleRandom) ⟨dev', sampleSlots⟩ ∧
    Inv samplePrimitives sampleKey ⟨dev', sampleSlots⟩ sampleFirst ∧
    Frame (Set.Iio 32768 ∪ (sampleSlot aesXts (literal "pbkdf2") 0).area.range) sampleDevice dev' := by
  obtain ⟨dev', hstep, hinv, hframe⟩ := sample_add aesXts (literal "pbkdf2") (bytes "a")
    (bytes "a" ++ List.replicate 31 0) 0 inv_sampleDevice size_sampleDevice (by decide) (by decide)
    (by decide) (by decide) (by decide) ⟨.sha256, by decide, by decide⟩
    (by decide +kernel) (by decide +kernel)
  dsimp only at hframe
  exact ⟨dev', hstep, hinv, hframe⟩

def sampleSecond (kdfType : CString Byte) : ExtHdr :=
  ExtHdr.next samplePrimitives { sampleFirst with
    md := useSlot sampleFirst.md 1 (sampleSlot aesXts kdfType 1) }

theorem keyslots_sampleSecond (kdfType : CString Byte) :
    (sampleSecond kdfType).md.keyslots 0 = sampleSlot aesXts (literal "pbkdf2") 0 := by
  show (useSlot (useSlot sampleMetadata 0 _) 1 _).keyslots 0 = _
  rw [keyslots_useSlot, update_of_ne (by decide), keyslots_useSlot, update_self]

/-! ## The main theorem -/

variable {dev : Blockdev}

theorem recover_of_unreadable (h : luks2ReadHdr P dev = none) (q : List Byte) :
    ∃ r, luks2RecoverMasterKey P dev (some q) = .error r := by
  unfold luks2RecoverMasterKey
  split_ifs
  · rw [h]
    exact ⟨_, rfl⟩
  · exact ⟨_, rfl⟩

theorem findKeyByPwd_of_error {md : Metadata} {q : List Byte} {r : VicResult}
    (htype : (md.keyslots 0).type.chars = bytes "luks2") (h : slotKey P dev (md.keyslots 0) q = .error r) :
    findKeyByPwd P dev md q = .error r := by
  have hne : (md.keyslots 0).type.chars ≠ [] := by
    rw [htype]
    decide
  have htry : trySlot P dev md q 0 = .error r := by
    unfold trySlot
    dsimp only
    rw [if_neg hne, if_neg (not_not.mpr htype), h]
    rfl
  rw [findKeyByPwd, List.finRange_succ, findLoop, htry]
  rfl

section

variable {mk q : List Byte} {s : KeyState}

variable {dev dev₀ : Blockdev} {args : FormatArgs} {random : FormatRandom} {dm : VicResult × (ℕ → Byte)}
  {ops : List KeyOp}

/-- **Exactly the passwords that are enrolled recover the master key**, after any operations on a device that was
formatted. The last key is not removed. An empty password ends the search, since `vic_pbkdf2` does not take it. -/
theorem luks2_recover_of_run (hformat : luks2Format P dev args random dm = (.ok, dev₀))
    (hkey : formatKey args random = .ok mk) (hrun : Run (KeyStep P mk) ⟨dev₀, fun _ => none⟩ ops s)
    (hq : q ≠ []) (hhonest : Honest P s q) :
    (q ∈ enrolled ops → luks2RecoverMasterKey P s.dev (some q) = .ok (mk, BitVec.ofNat 64 mk.length) ∧
        (luks2RemoveKey P s.dev (some q)).1 = if (enrolled ops).card = 1 then .lastKeyslot else .ok) ∧
      (q ∉ enrolled ops → ∃ r, luks2RecoverMasterKey P s.dev (some q) = .error r) := by
  rcases inv_luks2Format hformat hkey with ⟨ext₀, hinv⟩ | hread
  · obtain ⟨⟨ext, h⟩, hcontents⟩ := Run.inv_contents hrun hinv
    rw [contents_none] at hcontents
    have hrecover := h.luks2RecoverMasterKey hq hhonest
    have hremove := h.luks2RemoveKey hq hhonest
    rw [hcontents] at hrecover hremove
    refine ⟨fun hmem => ⟨hrecover.trans (if_pos hmem), hremove.trans (if_pos hmem)⟩, fun hmem => ?_⟩
    exact ⟨_, hrecover.trans (if_neg hmem)⟩
  · cases hrun with
    | cons hstep _ => exact absurd hstep (not_keyStep hread)
    | nil =>
      exact ⟨fun hmem => absurd hmem (Multiset.notMem_zero q), fun _ => recover_of_unreadable hread q⟩

end

theorem luks2_recover_sample : ∃ ops s,
    Run (KeyStep samplePrimitives sampleKey) ⟨sampleDevice, fun _ => none⟩ ops s ∧ bytes "a" ∈ enrolled ops ∧
      luks2RecoverMasterKey samplePrimitives s.dev (some (bytes "a")) = .ok (sampleKey, 32) := by
  obtain ⟨dev, hstep, -⟩ := sample_first
  have hhonest : Honest samplePrimitives ⟨dev, sampleSlots⟩ (bytes "a") := by
    intro ext _ i p hp hne
    exact absurd (sampleSlots_eq_some hp).2 hne
  have hrun := Run.cons hstep (Run.nil _)
  refine ⟨_, _, hrun, by decide, ?_⟩
  exact ((luks2_recover_of_run format_sample formatKey_sample hrun (by decide) hhonest).1 (by decide)).1

/-- The empty password is enrolled behind a slot with PBKDF2, and is not found there. -/
theorem luks2_recover_empty : ∃ ops s,
    Run (KeyStep samplePrimitives sampleKey) ⟨sampleDevice, fun _ => none⟩ ops s ∧ [] ∈ enrolled ops ∧
      Honest samplePrimitives s [] ∧
      luks2RecoverMasterKey samplePrimitives s.dev (some []) = .error .pbkdf2Failed := by
  obtain ⟨dev₁, hstep₁, hinv₁, hframe₁⟩ := sample_first
  obtain ⟨dev₂, hstep₂, hinv₂, -⟩ := sample_add aesXts (literal "argon2i") [] (List.replicate 32 0) 1 hinv₁
    (hframe₁.2.1.trans size_sampleDevice)
    (by decide) (by decide) (by decide) (by decide) (by decide)
    ⟨.sha256, by decide +kernel, by decide⟩ (by decide +kernel) (by decide +kernel)
  have hderive : deriveKey samplePrimitives (sampleSlot aesXts (literal "pbkdf2") 0) [] = .error .pbkdf2Failed := by
    decide
  have hslot : slotKey samplePrimitives dev₂ (sampleSlot aesXts (literal "pbkdf2") 0) [] = .error .pbkdf2Failed := by
    rw [slotKey, hderive]
    rfl
  have hinv₂ : Inv samplePrimitives sampleKey ⟨dev₂, update sampleSlots 1 (some [])⟩
    (sampleSecond (literal "argon2i")) := hinv₂
  have hkeyslot := keyslots_sampleSecond (literal "argon2i")
  refine ⟨_, _, .cons hstep₁ (.cons hstep₂ (.nil _)), by decide, ?_, ?_⟩
  · intro ext' hread i p hp hne candidate digest hcandidate
    obtain rfl : sampleSecond (literal "argon2i") = ext' := some.inj (hinv₂.read.symm.trans hread)
    change update sampleSlots 1 (some []) i = some p at hp
    by_cases hi : i = 1
    · subst hi
      rw [update_self] at hp
      exact absurd (some.inj hp).symm hne
    · rw [update_of_ne hi] at hp
      rw [(sampleSlots_eq_some hp).1, hkeyslot, hslot] at hcandidate
      cases hcandidate
  · have hfind : findKeyByPwd samplePrimitives dev₂ (sampleSecond (literal "argon2i")).md [] =
        .error .pbkdf2Failed := by
      refine findKeyByPwd_of_error ?_ (hkeyslot ▸ hslot)
      rw [hkeyslot]
      decide
    rw [luks2RecoverMasterKey, if_neg (by rw [hinv₂.isValidDevice]; decide), hinv₂.read]
    simp only [orRaise, hfind, bind, Except.bind]

end SgxLkl.Luks
