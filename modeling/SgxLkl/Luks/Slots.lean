import SgxLkl.Luks.Keys

/-!
# One key slot

* **`opens_of_generated`**: so it is once the key material was generated and written.
-/

namespace SgxLkl.Luks

open Json (bytes)
open List Option

variable {P : Primitives}

/-! ## Results -/

variable {α : Type} {r : VicResult} {mk key pwd hashSpec splitKey : List Byte} {ks : Keyslot}

theorem bind_eq_ok {β : Type} {x : Except VicResult α} {f : α → Except VicResult β} {b : β} :
    (x >>= f) = .ok b ↔ ∃ a, x = .ok a ∧ f a = .ok b := Json.exceptBind_eq_ok

variable {o : Option α}

theorem orRaise_eq_ok {x : α} : orRaise r o = .ok x ↔ o = some x := by
  cases o with
  | none => exact ⟨nofun, nofun⟩
  | some y => simp [orRaise]

theorem isOk_orRaise (h : o.isSome) : ∃ x, orRaise r o = .ok x := by
  obtain ⟨x, rfl⟩ := isSome_iff_exists.mp h
  exact ⟨x, rfl⟩

section

variable {dev dev' : Blockdev} {ks : Keyslot} {pwd mk data : List Byte} {stripes : ℕ → Byte}

theorem slotKey_eq_ok : slotKey P dev ks pwd = .ok mk ↔ ∃ key cipher plain,
    deriveKey P ks pwd = .ok key ∧ readKeyMaterial dev ks = some cipher ∧
      decrypt P ks.area.encryption.chars ks.area.keySize key cipher = some plain ∧
      vicAfmerge P ks.keySize.toNat ks.af.stripes ks.af.hash.chars plain = some mk := by
  simp only [slotKey, bind_eq_ok, orRaise_eq_ok, exists_and_left]

theorem generateKeyMaterial_eq_ok : generateKeyMaterial P ks mk pwd stripes = .ok data ↔ ∃ key split,
    deriveKey P ks pwd = .ok key ∧
      vicAfsplit P ks.af.hash.chars mk ks.keySize.toNat (ks.af.stripes.setWidth 32)
        (readRange stripes 0 (ks.keySize.toNat * (ks.af.stripes.setWidth 32).toNat)) = some split ∧
      encrypt P ks.area.encryption.chars ks.area.keySize key
        (split ++ List.replicate (ks.area.size.toNat - split.length) 0) = some data := by
  simp only [generateKeyMaterial, bind_eq_ok, orRaise_eq_ok, exists_and_left]

theorem isOk_deriveKey {key : List Byte} (h : deriveKey P ks pwd = .ok key) {q : List Byte} (hq : q ≠ []) :
    ∃ key', deriveKey P ks q = .ok key' := by
  unfold deriveKey at h ⊢
  split_ifs at h ⊢
  · exact isOk_orRaise (isSome_vicPbkdf2 hq (isSome_of_eq_some (orRaise_eq_ok.mp h)))
  · have hsome := orRaise_eq_ok.mp h
    unfold vicArgon2 at hsome ⊢
    split_ifs at hsome ⊢
    exact ⟨_, rfl⟩
  · have hsome := orRaise_eq_ok.mp h
    unfold vicArgon2 at hsome ⊢
    split_ifs at hsome ⊢
    exact ⟨_, rfl⟩
  · exact ⟨_, rfl⟩

end

/-! ## The key material -/

theorem length_afmergeLoop {n k : ℕ} (hkey : key.length = n)
    (hsplit : n * k ≤ splitKey.length) (h : afmergeLoop P hashSpec n k key splitKey = some mk) : mk.length = n := by
  induction k generalizing key splitKey with
  | zero =>
    cases h
    exact hkey
  | succ k ih =>
    rw [Nat.mul_succ] at hsplit
    have hxor : (computeXor key (splitKey.take n)).length = n := by
      rw [length_computeXor, hkey]
      rw [length_take, hkey]
      omega
    unfold afmergeLoop at h
    dsimp only at h
    split_ifs at h
    · cases h
      exact hxor
    · obtain ⟨key', hkey', h⟩ := bind_eq_some_iff.mp h
      refine ih ?_ ?_ h
      · by_cases hd : Diffuses hashSpec
        · obtain ⟨key₂, hkey₂, hlen⟩ := diffuse_eq_some (P := P) hd (computeXor key (splitKey.take n))
          obtain rfl : key₂ = key' := some.inj (hkey₂.symm.trans hkey')
          exact hlen.trans hxor
        · rw [diffuse_eq_none hd] at hkey'
          cases hkey'
      · rw [length_drop]
        omega

theorem length_vicAfmerge {n : ℕ} {stripes : Word} (hsplit : n * stripes.toNat ≤ splitKey.length)
    (h : vicAfmerge P n stripes hashSpec splitKey = some mk) : mk.length = n := by
  unfold vicAfmerge at h
  split_ifs at h
  exact length_afmergeLoop length_replicate hsplit h

theorem length_decrypt {encryption data plain : List Byte} {keyBytes : Word}
    (h : decrypt P encryption keyBytes key data = some plain) : plain.length = data.length := by
  unfold decrypt crypt at h
  split_ifs at h
  cases h
  exact length_cryptLoop (fun i data => P.length_xtsDecrypt _ i data) 0

/-- The password opens the slot, and others can be tried. -/
structure Opens (P : Primitives) (dev : Blockdev) (ks : Keyslot) (mk pwd : List Byte) : Prop where
  opens : slotKey P dev ks pwd = .ok mk
  tries : ∀ q ≠ [], ∃ candidate, slotKey P dev ks q = .ok candidate ∧ candidate.length = mk.length

section

variable {dev dev' : Blockdev} {ks : Keyslot} {pwd mk data : List Byte} {stripes : ℕ → Byte}

theorem opens_of_generated (hstripes : ks.af.stripes = 4000) (hkey : mk.length = ks.keySize.toNat)
    (harea : ks.keySize.toNat * 4000 ≤ ks.area.size.toNat) (hsector : ks.area.size.toNat % sectorSize = 0)
    (hgen : generateKeyMaterial P ks mk pwd stripes = .ok data) (hread : readKeyMaterial dev ks = some data) :
    Opens P dev ks mk pwd := by
  obtain ⟨key, split, hderive, hsplit, hencrypt⟩ := generateKeyMaterial_eq_ok.mp hgen
  rw [hstripes, show (4000 : Word).setWidth 32 = 4000 from rfl] at hsplit
  have hnum : (4000 : BitVec 32).toNat = 4000 := rfl
  have hbound : ((4000 : BitVec 32).toNat - 2) * ks.keySize.toNat < 2 ^ 32 := by
    rw [hnum]
    have := le_of_vicAfsplit hsplit
    rw [keyBufferSize] at this
    omega
  obtain ⟨hlen, hmerge⟩ := vicAfmerge_vicAfsplit (by decide) hbound hkey (length_readRange _ _ _) hsplit
    (replicate (ks.area.size.toNat - split.length) 0)
  rw [hnum] at hlen
  have hplain : (split ++ replicate (ks.area.size.toNat - split.length) 0).length =
      ks.area.size.toNat := by
    rw [length_append, length_replicate]
    omega
  have hdata : data.length = ks.area.size.toNat := (length_encrypt hencrypt).trans hplain
  have hdiffuses : Diffuses ks.af.hash.chars := diffuses_of_vicAfsplit (by decide) hsplit
  constructor
  · refine slotKey_eq_ok.mpr ⟨key, data, _, hderive, hread, decrypt_encrypt ?_ hencrypt, ?_⟩
    · rw [hplain, hsector]
    · rw [hstripes]
      exact hmerge
  · intro q hq
    obtain ⟨key', hderive'⟩ := isOk_deriveKey hderive hq
    obtain ⟨plain, hdecrypt⟩ := isSome_iff_exists.mp
      (isSome_decrypt_of_encrypt hencrypt key' data)
    obtain ⟨candidate, hcandidate⟩ := isSome_iff_exists.mp
      (isSome_vicAfmerge (P := P) hdiffuses ks.keySize.toNat (show ks.af.stripes.toNat < 2 ^ 32 by rw [hstripes]; decide)
        plain)
    refine ⟨candidate, slotKey_eq_ok.mpr ⟨key', data, plain, hderive', hread, hdecrypt, hcandidate⟩, ?_⟩
    rw [hkey]
    refine length_vicAfmerge ?_ hcandidate
    rw [length_decrypt hdecrypt, hdata, hstripes]
    exact harea

end

/-! ## Success -/

theorem isSome_diffuseStripes (h : Diffuses hashSpec) (stripe : ℕ → List Byte) (k i : ℕ)
    (prev : List Byte) : (diffuseStripes P hashSpec stripe k i prev).isSome := by
  induction k generalizing i prev with
  | zero => rfl
  | succ k ih =>
    obtain ⟨prev', hprev', -⟩ := diffuse_eq_some (P := P) h (computeXor prev (stripe i))
    rw [diffuseStripes, hprev', bind_some]
    exact ih _ prev'

theorem isSome_vicAfsplit (h : Diffuses hashSpec) {n : ℕ} (hn : n ≤ keyBufferSize)
    (mk : List Byte) (k : BitVec 32) (src : List Byte) : (vicAfsplit P hashSpec mk n k src).isSome := by
  obtain ⟨prev, hprev⟩ := isSome_iff_exists.mp
    (isSome_diffuseStripes (P := P) h (fun i => stripeAt n src (i * n % 2 ^ 32)) (k - 1).toNat 0 (replicate n 0))
  rw [vicAfsplit, if_neg (Nat.not_lt.mpr hn), genSplitMaterial, hprev]
  rfl

theorem isOk_generateKeyMaterial (mk : List Byte) (stripes : ℕ → Byte)
    (hderive : deriveKey P ks pwd = .ok key) (hhash : Diffuses ks.af.hash.chars)
    (hsize : ks.keySize.toNat ≤ keyBufferSize)
    (hcipher : getCipherInfo ks.area.encryption.chars ks.area.keySize = true) :
    ∃ data, generateKeyMaterial P ks mk pwd stripes = .ok data := by
  obtain ⟨split, hsplit⟩ := isSome_iff_exists.mp (isSome_vicAfsplit (P := P) hhash hsize mk
    (ks.af.stripes.setWidth 32) (readRange stripes 0 (ks.keySize.toNat * (ks.af.stripes.setWidth 32).toNat)))
  have hencrypt : (encrypt P ks.area.encryption.chars ks.area.keySize key
      (split ++ replicate (ks.area.size.toNat - split.length) 0)).isSome := by
    rw [encrypt, crypt, if_pos hcipher]
    rfl
  obtain ⟨data, hdata⟩ := isSome_iff_exists.mp hencrypt
  exact ⟨data, generateKeyMaterial_eq_ok.mpr ⟨key, split, hderive, hsplit, hdata⟩⟩

theorem generateKeyMaterial_of_cipher (mk : List Byte) (stripes : ℕ → Byte)
    (hderive : deriveKey P ks pwd = .ok key) (hhash : Diffuses ks.af.hash.chars)
    (hsize : ks.keySize.toNat ≤ keyBufferSize)
    (hcipher : getCipherInfo ks.area.encryption.chars ks.area.keySize = false) :
    generateKeyMaterial P ks mk pwd stripes = .error .encryptFailed := by
  obtain ⟨split, hsplit⟩ := isSome_iff_exists.mp (isSome_vicAfsplit (P := P) hhash hsize mk
    (ks.af.stripes.setWidth 32) (readRange stripes 0 (ks.keySize.toNat * (ks.af.stripes.setWidth 32).toNat)))
  simp only [generateKeyMaterial, hderive, hsplit, encrypt, crypt, hcipher, orRaise, bind, Except.bind,
    Bool.false_eq_true, if_false]

/-! ## The areas -/

def areaBytes (n : ℕ) : ℕ := (4000 * n + 4095) / 4096 * 4096

def Area.range (area : Area) : Set ℕ := Set.Ico area.offset.toNat (area.offset.toNat + area.size.toNat)

/-- The slot is as `_init_keyslot` makes it, for a key of `n` bytes. -/
structure Keyslot.Shaped (n : ℕ) (i : Fin numKeyslots) (ks : Keyslot) : Prop where
  type : ks.type.chars = bytes "luks2"
  keySize : ks.keySize.toNat = n
  stripes : ks.af.stripes = 4000
  offset : ks.area.offset.toNat = 32768 + areaBytes n * i
  size : ks.area.size.toNat = areaBytes n

theorem le_areaBytes (n : ℕ) : n * 4000 ≤ areaBytes n := by
  unfold areaBytes
  omega

theorem areaBytes_mod (n : ℕ) : areaBytes n % sectorSize = 0 := by
  unfold areaBytes sectorSize
  omega

section

variable {n : ℕ} {i j : Fin numKeyslots} {ks ks' : Keyslot}

theorem Keyslot.Shaped.offset_mod (h : ks.Shaped n i) : ks.area.offset.toNat % sectorSize = 0 := by
  rw [h.offset, areaBytes, sectorSize]
  have : (4000 * n + 4095) / 4096 * 4096 * i.val = 512 * ((4000 * n + 4095) / 4096 * 8 * i.val) := by ring
  omega

theorem Keyslot.Shaped.range_subset (h : ks.Shaped n i) : ks.area.range ⊆ Set.Ici 32768 := by
  intro k hk
  have hle := hk.1
  rw [h.offset] at hle
  exact le_trans (Nat.le_add_right _ _) hle

theorem Keyslot.Shaped.disjoint (h : ks.Shaped n i) (h' : ks'.Shaped n j) (hij : i ≠ j) :
    Disjoint ks.area.range ks'.area.range := by
  have hlt {i j : ℕ} (hij : i < j) : areaBytes n * i + areaBytes n ≤ areaBytes n * j := by
    rw [← Nat.mul_succ]
    exact Nat.mul_le_mul_left _ hij
  apply Set.disjoint_left.mpr
  rintro k ⟨h₁, h₂⟩ ⟨h₃, h₄⟩
  rw [h.offset] at h₁ h₂
  rw [h.size] at h₂
  rw [h'.offset] at h₃ h₄
  rw [h'.size] at h₄
  rcases lt_or_gt_of_ne (Fin.val_ne_of_ne hij) with hlt' | hlt'
  · have := hlt hlt'
    omega
  · have := hlt hlt'
    omega

end

section

variable {dev dev' : Blockdev} {n : ℕ} {i : Fin numKeyslots} {ks : Keyslot} {data : List Byte}

theorem Keyslot.Shaped.blocks (h : ks.Shaped n i) :
    ks.area.offset.toNat / sectorSize * sectorSize = ks.area.offset.toNat ∧
      ks.area.size.toNat / sectorSize * sectorSize = ks.area.size.toNat := by
  have hsize : ks.area.size.toNat % sectorSize = 0 := h.size ▸ areaBytes_mod n
  exact ⟨Nat.div_mul_cancel (Nat.dvd_of_mod_eq_zero h.offset_mod),
    Nat.div_mul_cancel (Nat.dvd_of_mod_eq_zero hsize)⟩

variable {s : Set ℕ} {mk pwd : List Byte} {stripes : ℕ → Byte}

section

variable (h : ks.Shaped n i) (hblock : dev.blockSize = sectorSize)

include h hblock

theorem Keyslot.Shaped.frame_write (hwrite : writeKeyMaterial dev ks data = some dev') : Frame ks.area.range dev dev' := by
  obtain ⟨hoffset, hsize⟩ := h.blocks
  have hframe := Blockdev.put_eq_some hwrite
  rw [hblock, hoffset, hsize] at hframe
  exact ⟨hframe.1.trans hblock.symm, hframe.2.1, hframe.2.2⟩

theorem readKeyMaterial_of_write (hdata : data.length = ks.area.size.toNat) (hwrite : writeKeyMaterial dev ks data = some dev') :
    Frame ks.area.range dev dev' ∧ readKeyMaterial dev' ks = some data := by
  obtain ⟨hoffset, hsize⟩ := h.blocks
  refine ⟨h.frame_write hblock hwrite, ?_⟩
  unfold writeKeyMaterial Blockdev.put at hwrite
  split_ifs at hwrite with hfits
  rw [hblock, hoffset, hsize] at hfits
  rw [hblock, hoffset, hsize, ← hdata, take_length] at hwrite
  cases hwrite
  have hget : Blockdev.get ⟨sectorSize, dev.size, writeRange dev.data ks.area.offset.toNat data⟩
      (ks.area.offset.toNat / sectorSize) (ks.area.size.toNat / sectorSize) = some data := by
    refine (Blockdev.get_eq _ _ ?_ hoffset hsize ?_).trans ?_
    · rfl
    · exact hfits
    · rw [← hdata]
      exact congrArg some (readRange_writeRange _ _ _)
  rw [readKeyMaterial, hget, map_some, hdata, Nat.sub_self, replicate_zero, append_nil]

theorem Keyslot.Shaped.isSome_write (hfits : 32768 + areaBytes n * 64 ≤ dev.size) (data : List Byte) :
    ∃ dev', writeKeyMaterial dev ks data = some dev' := by
  obtain ⟨hoffset, hsize⟩ := h.blocks
  have hle : areaBytes n * i + areaBytes n ≤ areaBytes n * 64 := by
    rw [← Nat.mul_succ]
    exact Nat.mul_le_mul_left _ i.isLt
  unfold writeKeyMaterial Blockdev.put
  rw [hblock, hoffset, hsize, h.offset, h.size, if_pos (by omega)]
  exact ⟨_, rfl⟩

theorem readKeyMaterial_congr (hframe : Frame s dev dev') (hdisj : Disjoint ks.area.range s) :
    readKeyMaterial dev' ks = readKeyMaterial dev ks := by
  obtain ⟨hoffset, hsize⟩ := h.blocks
  obtain ⟨hblock', hsize', hsame⟩ := hframe
  have hrange : readRange dev'.data ks.area.offset.toNat ks.area.size.toNat =
      readRange dev.data ks.area.offset.toNat ks.area.size.toNat :=
    (hsame.mono (Set.disjoint_left.mp hdisj)).readRange
  unfold readKeyMaterial Blockdev.get
  rw [hblock', hsize', hblock, hoffset, hsize, hrange]

theorem slotKey_congr (hframe : Frame s dev dev') (hdisj : Disjoint ks.area.range s) (pwd : List Byte) :
    slotKey P dev' ks pwd = slotKey P dev ks pwd := by
  unfold slotKey
  rw [readKeyMaterial_congr h hblock hframe hdisj]

theorem Opens.congr (hframe : Frame s dev dev') (hdisj : Disjoint ks.area.range s)
    (hopens : Opens P dev ks mk pwd) : Opens P dev' ks mk pwd where
  opens := (slotKey_congr h hblock hframe hdisj pwd).trans hopens.opens
  tries q hq := by
    rw [slotKey_congr h hblock hframe hdisj q]
    exact hopens.tries q hq

end

theorem length_generateKeyMaterial (h : ks.Shaped n i)
    (hkey : mk.length = n) (hgen : generateKeyMaterial P ks mk pwd stripes = .ok data) :
    data.length = ks.area.size.toNat := by
  obtain ⟨key, split, -, hsplit, hencrypt⟩ := generateKeyMaterial_eq_ok.mp hgen
  rw [h.stripes, show (4000 : Word).setWidth 32 = 4000 from rfl] at hsplit
  obtain ⟨-, -, -, -, hlen⟩ := vicAfsplit_eq_some (by decide) (hkey.trans h.keySize.symm) (length_readRange _ _ _) hsplit
  have hle := le_areaBytes n
  rw [h.keySize, show (4000 : BitVec 32).toNat = 4000 from rfl] at hlen
  rw [length_encrypt hencrypt, length_append, length_replicate, hlen, h.size]
  omega

theorem Keyslot.Shaped.opens_written (h : ks.Shaped n i)
    (hkey : mk.length = n) (hblock : dev.blockSize = sectorSize)
    (hgen : generateKeyMaterial P ks mk pwd stripes = .ok data)
    (hwrite : writeKeyMaterial dev ks data = some dev') :
    Frame ks.area.range dev dev' ∧ Opens P dev' ks mk pwd := by
  obtain ⟨hframe, hread⟩ :=
    readKeyMaterial_of_write h hblock (length_generateKeyMaterial h hkey hgen) hwrite
  refine ⟨hframe, opens_of_generated h.stripes (hkey.trans h.keySize.symm) ?_ ?_ hgen hread⟩
  · rw [h.keySize, h.size]
    exact le_areaBytes n
  · rw [h.size]
    exact areaBytes_mod n

end

/-! ## A new slot -/

theorem toNat_vicRoundUp {x : Word} (h : x.toNat ≤ 128) : (vicRoundUp (4000 * x) 4096).toNat = areaBytes x.toNat := by
  have hmul : (4000 * x).toNat = 4000 * x.toNat := by
    rw [BitVec.toNat_mul]
    exact Nat.mod_eq_of_lt (by simp; omega)
  have hadd : (4000 * x + 4096 - 1).toNat = 4000 * x.toNat + 4095 := by
    rw [BitVec.toNat_sub, BitVec.toNat_add, hmul]
    simp only [BitVec.reduceToNat]
    omega
  rw [vicRoundUp, BitVec.toNat_mul, BitVec.toNat_udiv, hadd, areaBytes]
  exact Nat.mod_eq_of_lt (by simp; omega)

theorem toNat_areaOffset {x : Word} (h : x.toNat ≤ 128) (i : Fin numKeyslots) :
    (2 * 16384 + vicRoundUp (4000 * x) 4096 * BitVec.ofNat 64 i).toNat = 32768 + areaBytes x.toNat * i := by
  have hbytes : areaBytes x.toNat ≤ 512000 := by
    unfold areaBytes
    omega
  have hle : areaBytes x.toNat * i ≤ 512000 * 64 := Nat.mul_le_mul hbytes i.isLt.le
  have hi : (BitVec.ofNat 64 i).toNat = i.val := by
    rw [BitVec.toNat_ofNat]
    exact Nat.mod_eq_of_lt (i.isLt.trans (by decide))
  rw [BitVec.toNat_add, BitVec.toNat_mul _ (BitVec.ofNat 64 i), toNat_vicRoundUp h, hi]
  simp only [BitVec.reduceMul, BitVec.reduceToNat]
  omega

theorem strlcpy_hash {hash : CString Byte} (h : vicHashType hash.chars ≠ none) :
    (strlcpy hash).chars = hash.chars := by
  refine take_of_length_le ?_
  unfold vicHashType at h
  split_ifs at h with h₁ h₂ h₃ h₄
  · rw [h₁]; decide
  · rw [h₂]; decide
  · rw [h₃]; decide
  · rw [h₄]; decide
  · exact absurd rfl h

theorem strlcpy_kdfType {type : CString Byte} (h : validPbkdfType type.chars = true) :
    (strlcpy type).chars = type.chars := by
  refine take_of_length_le ?_
  unfold validPbkdfType at h
  simp only [Bool.or_eq_true, decide_eq_true_eq] at h
  obtain (h | h) | h := h <;> rw [h] <;> decide

section

variable {cipher kdfType : CString Byte} {keySize areaKeySize : Word} {kdf : VicKdf} {i : Fin numKeyslots}
  {salt : List.Vector Byte 32} {ks : Keyslot}

theorem initKeyslot_shaped (hsize : keySize.toNat ≤ 128)
    (h : initKeyslot cipher keySize areaKeySize kdfType kdf i salt = some ks) : ks.Shaped keySize.toNat i := by
  unfold initKeyslot at h
  dsimp only at h
  split_ifs at h <;> cases h <;>
    exact ⟨rfl, rfl, rfl, toNat_areaOffset hsize i, toNat_vicRoundUp hsize⟩

theorem initKeyslot_encryption (h : initKeyslot cipher keySize areaKeySize kdfType kdf i salt = some ks) :
    ks.area.encryption = strlcpy cipher := by
  unfold initKeyslot at h
  dsimp only at h
  split_ifs at h <;> cases h <;> rfl

theorem initKeyslot_valid (h : initKeyslot cipher keySize areaKeySize kdfType kdf i salt = some ks)
    (hcipher : (strlcpy cipher).Readable) : ks.Valid := by
  have hluks2 : (strlcpy (literal "luks2")).Readable := by unfold Str.Readable; decide
  have hluks1 : (strlcpy (literal "luks1")).Readable := by unfold Str.Readable; decide
  have hraw : (strlcpy (literal "raw")).Readable := by unfold Str.Readable; decide
  unfold initKeyslot at h
  dsimp only at h
  split_ifs at h with h₁ h₂ h₃ h₄
  all_goals
    have htype : (strlcpy kdfType).chars = kdfType.chars := strlcpy_kdfType (by simpa using h₂)
    have hvalid : validPbkdfType (strlcpy kdfType).chars = true := by
      rw [htype]
      simpa using h₂
    have hhash : (strlcpy (kdf.hash.getD (literal "sha256"))).Readable := by
      obtain ⟨t, ht⟩ := ne_none_iff_exists'.mp h₃
      exact readable_of_vicHashType ((congrArg vicHashType (strlcpy_hash h₃)).trans ht)
    cases h
  · exact ⟨hluks2, ⟨hvalid, hhash, fun _ => ⟨rfl, rfl, rfl⟩, fun hne => absurd (htype.trans h₄) hne⟩,
      hluks1, hhash, hraw, hcipher⟩
  · exact ⟨hluks2, ⟨hvalid, rfl, fun heq => absurd (htype.symm.trans heq) h₄, fun _ => ⟨rfl, rfl⟩⟩,
      hluks1, hhash, hraw, hcipher⟩

end

end SgxLkl.Luks
