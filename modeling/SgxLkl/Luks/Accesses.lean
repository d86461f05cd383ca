import SgxLkl.Luks.Sizes

/-!
# The buffers of the key search

The search keeps keys in buffers of `sizeof(vic_key_t)` bytes, and the stripes of a slot in a buffer as large as
its area. All sizes come from the header.

* `recoverAccesses`: the first bytes of these buffers that the search reads and writes.
* **`recoverAccesses_within_iff`**: when they stay within their buffers.
-/

namespace SgxLkl.Luks

open Json (bytes)
open List

/-- An access to the first bytes of a buffer. -/
structure Access where
  extent : ℕ
  capacity : ℕ

/-- The access stays within the buffer. -/
def Access.Within (a : Access) : Prop := a.extent ≤ a.capacity

section

variable (P : Primitives)

/-- What the loop of `vic_afmerge` reads, with `k` stripes left. -/
def afmergeReads (hashSpec : List Byte) (keyBytes capacity : ℕ) : ℕ → ℕ → List Byte → List Byte → List Access
  | 0, _, _, _ => []
  | k + 1, off, key, splitKey =>
    let key := computeXor key (splitKey.take keyBytes)
    ⟨off + keyBytes, capacity⟩ ::
      if k = 0 then []
      else match diffuse P hashSpec key with
        | none => []
        | some key => afmergeReads hashSpec keyBytes capacity k (off + keyBytes) key (splitKey.drop keyBytes)

/-- `vic_afmerge` clears the key, and then reads the stripes. Its counter has 32 bits: from stripe 2³² on it reads
the same stripes again. -/
def mergeAccesses (keyBytes stripes capacity : ℕ) (hashSpec splitKey : List Byte) : List Access :=
  ⟨keyBytes, keyBufferSize⟩ ::
    afmergeReads P hashSpec keyBytes capacity (min stripes (2 ^ 32)) 0 (replicate keyBytes 0) splitKey

/-- The accesses for the area of a slot, with a key for it. -/
def areaAccesses (dev : Blockdev) (ks : Keyslot) (key : List Byte) : List Access :=
  match (readKeyMaterial dev ks).bind (decrypt P ks.area.encryption.chars ks.area.keySize key) with
  | none => []
  | some plain => mergeAccesses P ks.keySize.toNat ks.af.stripes.toNat ks.area.size.toNat ks.af.hash.chars plain

/-- The accesses for one slot. The derived key is written if the type is known. -/
def slotAccesses (dev : Blockdev) (ks : Keyslot) (pwd : List Byte) : List Access :=
  match deriveKey P ks pwd with
  | .error _ => []
  | .ok key =>
    (if validPbkdfType ks.kdf.type.chars then [⟨key.length, keyBufferSize⟩] else []) ++ areaAccesses P dev ks key

/-- The accesses of the loop of `_find_key_by_pwd`. The key that was found is copied. -/
def findAccesses (dev : Blockdev) (md : Metadata) (pwd : List Byte) : List (Fin numKeyslots) → List Access
  | [] => []
  | i :: is =>
    let ks := md.keyslots i
    if ks.type.chars = [] then findAccesses dev md pwd is
    else if ks.type.chars ≠ bytes "luks2" then []
    else slotAccesses P dev ks pwd ++
      match trySlot P dev md pwd i with
      | .error _ => []
      | .ok (some _) => [⟨ks.keySize.toNat, keyBufferSize⟩]
      | .ok none => findAccesses dev md pwd is

/-- The accesses of `luks2_recover_master_key`. -/
def recoverAccesses (dev : Blockdev) (pwd : List Byte) : List Access :=
  match luks2ReadHdr P dev with
  | none => []
  | some ext => findAccesses P dev ext.md pwd (finRange numKeyslots)

/-- The area of the slot is read and decrypted. -/
def Keyslot.Decrypted (dev : Blockdev) (pwd : List Byte) (ks : Keyslot) : Prop :=
  ∃ key plain, deriveKey P ks pwd = .ok key ∧
    (readKeyMaterial dev ks).bind (decrypt P ks.area.encryption.chars ks.area.keySize key) = some plain

end

/-- The master key and the stripes fit. Without a hash `vic_afmerge` stops at the first stripe. -/
structure Keyslot.Mergeable (ks : Keyslot) : Prop where
  keySize : ks.keySize.toNat ≤ keyBufferSize
  stripe : 0 < ks.af.stripes.toNat → ks.keySize.toNat ≤ ks.area.size.toNat
  stripes : Diffuses ks.af.hash.chars →
    min ks.af.stripes.toNat (2 ^ 32) * ks.keySize.toNat ≤ ks.area.size.toNat

/-- The sizes fit that the search uses before it fails on the slot, if it does. -/
structure Keyslot.Fits (P : Primitives) (dev : Blockdev) (pwd : List Byte) (ks : Keyslot) : Prop where
  derived : ∀ key, deriveKey P ks pwd = .ok key → validPbkdfType ks.kdf.type.chars →
    ks.area.keySize.toNat % 2 ^ 32 ≤ keyBufferSize
  merged : ks.Decrypted P dev pwd → ks.Mergeable

variable {P : Primitives} {key pwd hashSpec splitKey : List Byte} {ks : Keyslot} {dev : Blockdev} {md : Metadata}

/-! ## One slot -/

theorem afmergeReads_within_iff {n capacity k off : ℕ} :
    (∀ a ∈ afmergeReads P hashSpec n capacity k off key splitKey, a.Within) ↔
      (0 < k → off + n ≤ capacity ∧ (Diffuses hashSpec → off + k * n ≤ capacity)) := by
  induction k generalizing off key splitKey with
  | zero => simp [afmergeReads]
  | succ k ih =>
    unfold afmergeReads
    rw [forall_mem_cons, Nat.succ_mul]
    simp only [k.succ_pos, forall_const]
    refine and_congr_right fun (hfirst : off + n ≤ capacity) => ?_
    rcases k.eq_zero_or_pos with rfl | hk
    · simp only [if_true, not_mem_nil, false_imp_iff, implies_true, true_iff]
      exact fun _ => by omega
    · rw [if_neg hk.ne']
      by_cases hhash : Diffuses hashSpec
      · obtain ⟨key', hkey', -⟩ := diffuse_eq_some (P := P) hhash (computeXor key (splitKey.take n))
        have hle : n ≤ k * n := Nat.le_mul_of_pos_left n hk
        simp only [hkey', ih, hk, hhash, forall_const]
        omega
      · simp [diffuse_eq_none hhash, hhash]

theorem length_deriveKey (htype : validPbkdfType ks.kdf.type.chars = true)
    (h : deriveKey P ks pwd = .ok key) : key.length = ks.area.keySize.toNat % 2 ^ 32 := by
  have hargon : ∀ {t : ArgonType}, orRaise VicResult.argon2iFailed (vicArgon2 P t pwd ks.kdf.salt.toList ks.kdf.time
      ks.kdf.memory ks.kdf.cpus ks.area.keySize) = .ok key → key.length = ks.area.keySize.toNat % 2 ^ 32 := by
    intro t h
    have hkey := orRaise_eq_ok.mp h
    unfold vicArgon2 at hkey
    split_ifs at hkey
    cases hkey
    rw [P.length_argon2, BitVec.toNat_setWidth]
  unfold deriveKey at h
  split_ifs at h with hpbkdf2 hargon2i hargon2id
  · have hkey := orRaise_eq_ok.mp h
    have hlength := length_vicPbkdf2 hkey
    unfold vicPbkdf2 at hkey
    split_ifs at hkey
    rw [hlength, Nat.mod_eq_of_lt (by omega)]
  · exact hargon h
  · exact hargon h
  · simp [validPbkdfType, hpbkdf2, hargon2i, hargon2id] at htype

theorem mergeAccesses_within_iff : (∀ a ∈ mergeAccesses P ks.keySize.toNat ks.af.stripes.toNat ks.area.size.toNat
    ks.af.hash.chars splitKey, a.Within) ↔ ks.Mergeable := by
  have hpos : 0 < min ks.af.stripes.toNat (2 ^ 32) ↔ 0 < ks.af.stripes.toNat := by omega
  rw [mergeAccesses, forall_mem_cons, afmergeReads_within_iff, hpos]
  simp only [Nat.zero_add]
  constructor
  · rintro ⟨hkey, hreads⟩
    refine ⟨hkey, fun hs => (hreads hs).1, fun hhash => ?_⟩
    rcases ks.af.stripes.toNat.eq_zero_or_pos with hs | hs
    · simp [hs]
    · exact (hreads hs).2 hhash
  · rintro ⟨hkey, hstripe, hstripes⟩
    exact ⟨hkey, fun hs => ⟨hstripe hs, hstripes⟩⟩

theorem slotAccesses_within_iff : (∀ a ∈ slotAccesses P dev ks pwd, a.Within) ↔ ks.Fits P dev pwd := by
  unfold slotAccesses
  cases hderive : deriveKey P ks pwd with
  | error e => exact ⟨fun _ => ⟨by simp [hderive], by simp [Keyslot.Decrypted, hderive]⟩, by simp⟩
  | ok key =>
    have hderived : (∀ a ∈ if validPbkdfType ks.kdf.type.chars then [(⟨key.length, keyBufferSize⟩ : Access)] else [],
        a.Within) ↔ (validPbkdfType ks.kdf.type.chars → ks.area.keySize.toNat % 2 ^ 32 ≤ keyBufferSize) := by
      split_ifs with htype
      · simp [htype, Access.Within, length_deriveKey htype hderive]
      · simp [htype]
    have hmerged : (∀ a ∈ areaAccesses P dev ks key, a.Within) ↔ (ks.Decrypted P dev pwd → ks.Mergeable) := by
      unfold areaAccesses
      split
      · simp [Keyslot.Decrypted, *]
      · rename_i plain hplain
        have hdecrypted : ks.Decrypted P dev pwd := ⟨key, plain, hderive, hplain⟩
        rw [mergeAccesses_within_iff]
        exact ⟨fun h _ => h, fun h => h hdecrypted⟩
    rw [forall_mem_append]
    exact (and_congr hderived hmerged).trans ⟨fun h => ⟨fun _ _ => h.1, h.2⟩, fun h => ⟨h.derived key hderive, h.merged⟩⟩

/-- A slot whose key is compared has been decrypted. -/
theorem decrypted_of_trySlot {i : Fin numKeyslots} {found : Option (List Byte)}
    (htype : (md.keyslots i).type.chars = bytes "luks2") (h : trySlot P dev md pwd i = .ok found) :
    (md.keyslots i).Decrypted P dev pwd := by
  have hluks : ¬ (md.keyslots i).type.chars = [] := by rw [htype]; decide
  rw [trySlot, if_neg hluks, if_neg (not_not.mpr htype)] at h
  obtain ⟨mk, hslot, -⟩ := bind_eq_ok.mp h
  obtain ⟨key, cipher, plain, hderive, hread, hdecrypt, -⟩ := slotKey_eq_ok.mp hslot
  exact ⟨key, plain, hderive, Option.bind_eq_some_iff.mpr ⟨cipher, hread, hdecrypt⟩⟩

/-! ## The search -/

/-- What is asked of the elements before which all others have a property, for a list in order. -/
theorem forall_first_cons {n : ℕ} {i : Fin n} {is : List (Fin n)} (h : (i :: is).Pairwise (· < ·))
    (N Q : Fin n → Prop) : (∀ k ∈ i :: is, (∀ j ∈ i :: is, j < k → N j) → Q k) ↔
      Q i ∧ (N i → ∀ k ∈ is, (∀ j ∈ is, j < k → N j) → Q k) := by
  obtain ⟨hi, -⟩ := pairwise_cons.mp h
  have hfirst : ∀ j ∈ i :: is, ¬ j < i := by
    intro j hj
    rcases mem_cons.mp hj with rfl | hj
    · exact lt_irrefl _
    · exact (hi j hj).asymm
  constructor
  · intro hall
    refine ⟨hall i mem_cons_self fun j hj hlt => absurd hlt (hfirst j hj), fun hN k hk hbefore => ?_⟩
    exact hall k (mem_cons_of_mem i hk) (forall_mem_cons.mpr ⟨fun _ => hN, hbefore⟩)
  · rintro ⟨hQ, hrest⟩ k hk hbefore
    obtain ⟨hN, hbefore⟩ := forall_mem_cons.mp hbefore
    rcases mem_cons.mp hk with rfl | hk
    · exact hQ
    · exact hrest (hN (hi k hk)) k hk hbefore

theorem findAccesses_within_iff {is : List (Fin numKeyslots)} (h : is.Pairwise (· < ·)) :
    (∀ a ∈ findAccesses P dev md pwd is, a.Within) ↔
      ∀ i ∈ is, (∀ j ∈ is, j < i → trySlot P dev md pwd j = .ok none) →
        (md.keyslots i).type.chars = bytes "luks2" → (md.keyslots i).Fits P dev pwd := by
  induction is with
  | nil => simp [findAccesses]
  | cons i is ih =>
    rw [findAccesses, forall_first_cons h, ← ih h.of_cons]
    by_cases hfree : (md.keyslots i).type.chars = []
    · have hnone : trySlot P dev md pwd i = .ok none := if_pos hfree
      have hother : [] ≠ bytes "luks2" := by decide
      simp [hfree, hnone, hother]
    by_cases htype : (md.keyslots i).type.chars = bytes "luks2"
    · simp only [htype, forall_const, not_true_eq_false, if_false, ne_eq]
      rw [if_neg (by decide), forall_mem_append, slotAccesses_within_iff]
      refine and_congr_right fun hfits => ?_
      cases htry : trySlot P dev md pwd i with
      | error e => simp
      | ok found => cases found with
        | none => simp
        | some key =>
          simpa [Access.Within] using (hfits.merged (decrypted_of_trySlot htype htry)).keySize
    · have herror : trySlot P dev md pwd i = .error .unknownKeyslotType := (if_neg hfree).trans (if_pos htype)
      simp [hfree, htype, herror]

/-- **The search stays within its buffers exactly if the sizes of the slots it comes to fit.** The search comes to a
slot if all before it are free or have another key. `luks2_read_hdr` checks none of these sizes. -/
theorem recoverAccesses_within_iff (dev : Blockdev) (pwd : List Byte) :
    (∀ a ∈ recoverAccesses P dev pwd, a.Within) ↔ ∀ ext, luks2ReadHdr P dev = some ext → ∀ i,
      (∀ j < i, trySlot P dev ext.md pwd j = .ok none) → (ext.md.keyslots i).type.chars = bytes "luks2" →
        (ext.md.keyslots i).Fits P dev pwd := by
  unfold recoverAccesses
  cases luks2ReadHdr P dev with
  | none => simp
  | some ext => simp [findAccesses_within_iff (pairwise_lt_finRange _)]

def hugeSlot : Keyslot :=
  let ks := sampleSlot aesXts (literal "pbkdf2" isPlain_pbkdf2) 0
  { ks with area := { ks.area with keySize := 129 } }

/-- A header with a key of 129 bytes is read, and the derived key is written behind its buffer. -/
theorem recoverAccesses_overflow : ∃ dev ext, luks2ReadHdr samplePrimitives dev = some ext ∧
    ∃ a ∈ recoverAccesses samplePrimitives dev (bytes "a"), ¬ a.Within := by
  have hinit : initKeyslot aesXts 32 32 (literal "pbkdf2") (getDefaultKdf (literal "pbkdf2")) 0 sampleRandom.salt =
      some (sampleSlot aesXts (literal "pbkdf2") 0) := rfl
  have hshaped := initKeyslot_shaped (by decide) hinit
  have hvalid := initKeyslot_valid hinit (by unfold Str.Readable; decide)
  have hshaped' : hugeSlot.Shaped 32 0 :=
    ⟨hshaped.type, hshaped.keySize, hshaped.stripes, hshaped.offset, hshaped.size⟩
  have hvalid' : hugeSlot.Valid :=
    ⟨hvalid.type, hvalid.kdf, hvalid.afType, hvalid.afHash, hvalid.areaType, hvalid.encryption⟩
  have hmd : (useSlot sampleMetadata 0 hugeSlot).Valid := inv_sampleDevice.valid_useSlot hshaped' hvalid'
  have himage : Image samplePrimitives (sampleImage 16384 (useSlot sampleMetadata 0 hugeSlot)) :=
    image_sample (by decide) (by decide +kernel) hmd
  have hblock : emptyDevice.blockSize = sectorSize := rfl
  have hread := himage.read_default hblock (by decide) rfl
  refine ⟨_, _, hread, ⟨129, 128⟩, ?_, by unfold Access.Within; decide⟩
  have hslot : (useSlot sampleMetadata 0 hugeSlot).keyslots 0 = hugeSlot := by
    rw [keyslots_useSlot, Function.update_self]
  have hderive : deriveKey samplePrimitives hugeSlot (bytes "a") = .ok (bytes "a" ++ replicate 128 0) := by
    decide
  rw [recoverAccesses, hread]
  show _ ∈ findAccesses _ _ (useSlot sampleMetadata 0 hugeSlot) _ _
  rw [finRange_succ, findAccesses, hslot]
  rw [if_neg (by decide), if_neg (by decide), slotAccesses, hderive]
  dsimp only
  rw [if_pos (by decide)]
  exact mem_append_left _ (mem_append_left _ (mem_singleton.mpr rfl))

end SgxLkl.Luks
