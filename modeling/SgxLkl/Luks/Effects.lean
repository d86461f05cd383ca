import SgxLkl.Luks.Enrolled

/-!
# What the operations leave behind

* **`luks2RemoveKey_wipes_iff`**: the key material of a key that was removed is as it was before.
-/

namespace SgxLkl.Luks

open Json (bytes)
open List Option

variable {P : Primitives}

/-! ## Removing a key -/

/-- **Removing a key writes the headers only.** The area of the slot is zero afterwards exactly if it was so
before, since the slot is cleared in the header before it is used to find the area. -/
theorem luks2RemoveKey_wipes_iff {dev dev' : Blockdev} {p : List Byte}
    (h : luks2RemoveKey P dev (some p) = (.ok, dev')) :
    ∃ ext key i, luks2ReadHdr P dev = some ext ∧ findKeyByPwd P dev ext.md p = .ok (key, i) ∧
      Frame (headerRange ext) dev dev' ∧ (Disjoint (ext.md.keyslots i).area.range (headerRange ext) →
        ((∀ k ∈ (ext.md.keyslots i).area.range, dev'.data k = 0) ↔
          ∀ k ∈ (ext.md.keyslots i).area.range, dev.data k = 0)) := by
  obtain ⟨ext', i, hplan, hwrite⟩ := luks2RemoveKey_eq_ok h
  obtain ⟨p', ext, key, hp, hread, hfind, -, rfl⟩ := removeKeyPlan_eq_ok hplan
  cases hp
  have hblock := (luks2ReadHdr_eq_some hread).1
  have hframe : Frame (headerRange ext) dev dev' := by
    have hwritten : Frame (headerRange { ext with md := removeSlot ext.md i }) dev
      (writeHdr P dev { ext with md := removeSlot ext.md i }).2 := frame_writeHdr hblock
    rw [hwrite] at hwritten
    exact hwritten
  refine ⟨ext, key, i, hread, hfind, hframe, fun hdisj => forall₂_congr fun k hk => ?_⟩
  rw [hframe.2.2 k (Set.disjoint_left.mp hdisj hk)]

def sampleSlots₂ : Fin numKeyslots → Option (List Byte) := Function.update sampleSlots 1 (some (bytes "b"))

theorem sample_second : ∃ dev, Inv samplePrimitives sampleKey ⟨dev, sampleSlots₂⟩
    (sampleSecond (literal "pbkdf2")) := by
  obtain ⟨dev₁, -, hinv₁, hframe₁⟩ := sample_first
  obtain ⟨dev₂, -, hinv₂, -⟩ := sample_add aesXts (literal "pbkdf2") (bytes "b")
    (bytes "b" ++ replicate 31 0) 1 hinv₁ (hframe₁.2.1.trans size_sampleDevice) (by decide)
    (by decide) (by decide) (by decide) (by decide)
    ⟨.sha256, by decide +kernel, by decide⟩ (by decide +kernel) (by decide +kernel)
  exact ⟨dev₂, hinv₂⟩

theorem sample_remove : ∃ dev dev', Inv samplePrimitives sampleKey ⟨dev, sampleSlots₂⟩
    (sampleSecond (literal "pbkdf2")) ∧
    findKeyByPwd samplePrimitives dev (sampleSecond (literal "pbkdf2")).md (bytes "a") = .ok (sampleKey, 0) ∧
    luks2RemoveKey samplePrimitives dev (some (bytes "a")) = (.ok, dev') := by
  obtain ⟨dev, hinv⟩ := sample_second
  have htry : trySlot samplePrimitives dev (sampleSecond (literal "pbkdf2")).md (bytes "a") 0 =
      .ok (some sampleKey) := hinv.trySlot_self rfl
  have hfind : findKeyByPwd samplePrimitives dev (sampleSecond (literal "pbkdf2")).md (bytes "a") =
      .ok (sampleKey, 0) := by
    rw [findKeyByPwd, finRange_succ, findLoop, htry]
    rfl
  obtain ⟨dev', hremove⟩ := hinv.remove_progress hfind (by decide)
  exact ⟨dev, dev', hinv, hfind, hremove⟩

theorem luks2RemoveKey_sample : ∃ dev dev' ext, luks2ReadHdr samplePrimitives dev = some ext ∧
    luks2RemoveKey samplePrimitives dev (some (bytes "a")) = (.ok, dev') ∧ Frame (headerRange ext) dev dev' := by
  obtain ⟨dev, dev', -, -, hremove⟩ := sample_remove
  obtain ⟨ext, -, -, hread, -, hframe, -⟩ := luks2RemoveKey_wipes_iff hremove
  exact ⟨dev, dev', ext, hread, hremove, hframe⟩

theorem diffuse_sample (c : Byte) :
    diffuse samplePrimitives (bytes "sha256") (replicate 32 c) = some (replicate 32 0) := by
  have ht : vicHashType (bytes "sha256") = some .sha256 := by decide
  unfold diffuse
  rw [ht, length_replicate]
  rfl

theorem afmergeLoop_sample (c : Byte) {k m : ℕ} (hm : 32 * (k + 1) ≤ m) :
    afmergeLoop samplePrimitives (bytes "sha256") 32 (k + 1) (replicate 32 0) (replicate m c) =
      some (replicate 32 c) := by
  have hxor : computeXor (replicate 32 0) ((replicate m c).take 32) = replicate 32 c := by
    rw [take_replicate, Nat.min_eq_left (by omega), computeXor, zipWith_replicate]
    simp
  induction k generalizing m with
  | zero =>
    rw [afmergeLoop, hxor, if_pos rfl]
  | succ k ih =>
    rw [afmergeLoop, hxor, if_neg (Nat.succ_ne_zero k), diffuse_sample, bind_some, drop_replicate]
    refine ih (by omega) ?_
    rw [take_replicate, Nat.min_eq_left (by omega), computeXor, zipWith_replicate]
    simp

theorem cryptLoop_sample (c : Byte) (k : ℕ) (i : Word) :
    cryptLoop (fun _ data => data.map (· ^^^ c)) k i (replicate (sectorSize * k) 0) =
      replicate (sectorSize * k) c := by
  have hxor : (0 : Byte) ^^^ c = c := BitVec.zero_xor
  induction k generalizing i with
  | zero => rfl
  | succ k ih =>
    rw [cryptLoop, take_replicate, drop_replicate, Nat.mul_succ, Nat.add_sub_cancel, ih,
      Nat.min_eq_left (by omega), map_replicate, hxor, replicate_append_replicate, Nat.add_comm]

variable {dev : Blockdev} {ext : ExtHdr} {i : Fin numKeyslots}

theorem sample_area_ne_zero {md : Metadata} (h : InUse samplePrimitives dev md sampleKey 0 (bytes "a"))
    (hks : md.keyslots 0 = sampleSlot aesXts (literal "pbkdf2") 0) (hblock : dev.blockSize = sectorSize) :
    ∃ k ∈ (md.keyslots 0).area.range, dev.data k ≠ 0 := by
  by_contra hzero
  push Not at hzero
  obtain ⟨key, cipher, plain, hderive, hread, hdecrypt, hmerge⟩ := slotKey_eq_ok.mp h.opens.opens
  obtain ⟨hoffset, hsize⟩ := h.shaped.blocks
  have hbytes : (md.keyslots 0).area.size.toNat = 131072 := h.shaped.size
  have hcipher : cipher = replicate 131072 0 := by
    unfold readKeyMaterial Blockdev.get at hread
    split_ifs at hread
    swap
    · cases hread
    rw [hblock, hoffset, hsize, readRange_eq_replicate hzero, hbytes, map_some,
      length_replicate, Nat.sub_self, replicate_zero, append_nil] at hread
    exact (some.inj hread).symm
  have hderive' : deriveKey samplePrimitives (md.keyslots 0) (bytes "a") = .ok (bytes "a" ++ replicate 31 0) := by
    rw [hks]
    decide
  obtain rfl : bytes "a" ++ replicate 31 0 = key := Except.ok.inj (hderive'.symm.trans hderive)
  have hplain : plain = replicate 131072 0x61 := by
    unfold decrypt crypt at hdecrypt
    split_ifs at hdecrypt
    rw [hcipher, length_replicate] at hdecrypt
    refine (some.inj hdecrypt).symm.trans ?_
    have hkey : ((bytes "a" ++ replicate 31 0).take
        ((md.keyslots 0).area.keySize * 8 / 8).toNat).headD 0 = 0x61 := by
      rw [hks]
      decide
    have hxts : samplePrimitives.xtsDecrypt ((bytes "a" ++ replicate 31 0).take
        ((md.keyslots 0).area.keySize * 8 / 8).toNat) = fun _ data => data.map (· ^^^ 0x61) := by
      rw [← hkey]
      rfl
    rw [hxts]
    exact cryptLoop_sample 0x61 256 0
  have hmerged : vicAfmerge samplePrimitives 32 4000 (bytes "sha256") (replicate 131072 0x61) =
      some (replicate 32 0x61) := by
    rw [vicAfmerge, if_neg (by decide), show (4000 : Word).toNat = 3999 + 1 from rfl]
    exact afmergeLoop_sample 0x61 (by decide)
  have hhash : (md.keyslots 0).af.hash.chars = bytes "sha256" := by
    rw [hks]
    decide
  have hkeySize : (md.keyslots 0).keySize.toNat = 32 := h.shaped.keySize
  have hstripes := h.shaped.stripes
  rw [hplain, hhash, hkeySize, hstripes, hmerged] at hmerge
  exact absurd (some.inj hmerge) (by decide)

/-- The key material of a key that was removed is still there. -/
theorem luks2RemoveKey_leaves_material : ∃ dev dev' ext, luks2ReadHdr samplePrimitives dev = some ext ∧
      findKeyByPwd samplePrimitives dev ext.md (bytes "a") = .ok (sampleKey, 0) ∧
      luks2RemoveKey samplePrimitives dev (some (bytes "a")) = (.ok, dev') ∧
      ∃ k ∈ (ext.md.keyslots 0).area.range, dev'.data k ≠ 0 := by
  obtain ⟨dev, dev', hinv, hfind, hremove⟩ := sample_remove
  have hkeyslot := keyslots_sampleSecond (literal "pbkdf2")
  have hslot : InUse samplePrimitives dev (sampleSecond (literal "pbkdf2")).md sampleKey 0 (bytes "a") :=
    hinv.inUse rfl
  obtain ⟨k, hk, hne⟩ := sample_area_ne_zero hslot hkeyslot hinv.holds.blockSize
  obtain ⟨ext', i, hplan, hwrite⟩ := luks2RemoveKey_eq_ok hremove
  obtain ⟨_, ext, _, _, hread, _, _, rfl⟩ := removeKeyPlan_eq_ok hplan
  obtain rfl : sampleSecond (literal "pbkdf2") = ext := some.inj (hinv.read.symm.trans hread)
  have hframe := (hinv.writeHdr (hinv.valid_removeSlot i) hwrite).2
  refine ⟨dev, dev', _, hinv.read, hfind, hremove, k, hk, ?_⟩
  have hout : k ∉ Set.Iio 32768 := fun (hlt : k < 32768) => not_lt.mpr (hslot.shaped.range_subset hk) hlt
  rw [hframe.2.2 k hout]
  exact hne

end SgxLkl.Luks
