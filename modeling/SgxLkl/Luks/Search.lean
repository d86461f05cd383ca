import SgxLkl.Luks.Slots

/-!
# Searching for a password

The functions succeed only if each of their steps does.

* **`Inv.findKeyByPwd`**: the search finds the first slot with the password.
-/

namespace SgxLkl.Luks

open Json (bytes)
open Option

variable {P : Primitives}

/-! ## What a success tells -/

section

variable {dev : Blockdev}

variable {salt : List.Vector Byte 32} {i : Fin numKeyslots} {α : Type} {r : VicResult} {plan : Plan}
variable {pwd : Option (List Byte)} {dev' : Blockdev}

theorem addSlot_eq_ok {md md' : Metadata} {cipher : CString Byte} {keySize : Word} {kdf : CString Byte × VicKdf}
    (h : addSlot md cipher keySize kdf salt = .ok (md', i)) :
    findFreeKeyslot md = some i ∧ ∃ ks areaKeySize, initKeyslot cipher keySize areaKeySize kdf.1 kdf.2 i salt = some ks ∧
      md' = (md.setKeyslot i ks).setDigest 0
        { md.digests 0 with keyslots := Function.update (md.digests 0).keyslots i true } := by
  simp only [addSlot, bind_eq_ok, orRaise_eq_ok] at h
  obtain ⟨j, hfree, ks, hks, h⟩ := h
  cases h
  exact ⟨hfree, ks, _, hks, rfl⟩

variable {x : Except VicResult α}

theorem check_eq_ok {c : Prop} [Decidable c] {a : α} :
    (if c then (Except.error r : Except VicResult PUnit) >>= fun _ => x else x) = .ok a ↔ ¬ c ∧ x = .ok a := by
  split_ifs with hc
  · exact ⟨nofun, fun h => absurd hc h.1⟩
  · exact ⟨fun h => ⟨hc, h⟩, fun h => h.2⟩

theorem addKeyPlan_eq_ok {args : AddArgs} (h : addKeyPlan P dev args salt = .ok plan) : ∃ pwd ext j kdf md,
      args.pwd = some pwd ∧ args.newPwd = some plan.pwd ∧ luks2ReadHdr P dev = some ext ∧
      findKeyByPwd P dev ext.md pwd = .ok (plan.key, j) ∧
      addSlot ext.md (args.keyslotCipher.getD (ext.md.keyslots j).area.encryption.toCString)
        (ext.md.keyslots j).keySize kdf salt = .ok (md, plan.index) ∧
      plan.ext = { ext with md := md } := by
  unfold addKeyPlan at h
  obtain ⟨-, h⟩ := check_eq_ok.mp h
  simp only [bind_eq_ok, orRaise_eq_ok] at h
  obtain ⟨pwd, hpwd, newPwd, hnewPwd, kdf, -, ext, hext, ⟨key, j⟩, hfind, ⟨md, i⟩, hadd, hplan⟩ := h
  cases hplan
  exact ⟨pwd, ext, j, kdf, md, hpwd, hnewPwd, hext, hfind, hadd, rfl⟩

theorem addKeyByMasterKeyPlan_eq_ok {args : AddByMasterKeyArgs}
    (h : addKeyByMasterKeyPlan P dev args salt = .ok plan) : ∃ ext masterKey cipher kdf md,
      args.keyslotCipher = some cipher ∧ args.masterKey = some masterKey ∧ args.pwd = some plan.pwd ∧
      luks2ReadHdr P dev = some ext ∧
      addSlot ext.md cipher args.masterKeyBytes kdf salt = .ok (md, plan.index) ∧
      plan.ext = { ext with md := md } ∧
      plan.key = masterKey.toList.take args.masterKeyBytes.toNat := by
  unfold addKeyByMasterKeyPlan at h
  obtain ⟨-, h⟩ := check_eq_ok.mp h
  simp only [bind_eq_ok, orRaise_eq_ok] at h
  obtain ⟨cipher, hcipher, masterKey, hmasterKey, pwd, hpwd, kdf, -, ext, hext, ⟨md, i⟩, hadd, hplan⟩ := h
  cases hplan
  exact ⟨ext, masterKey, cipher, kdf, md, hcipher, hmasterKey, hpwd, hext, hadd, rfl, rfl⟩

theorem changeKeyPlan_eq_ok {oldPwd newPwd : Option (List Byte)}
    (h : changeKeyPlan P dev oldPwd newPwd = .ok plan) : ∃ pwd,
      oldPwd = some pwd ∧ newPwd = some plan.pwd ∧ luks2ReadHdr P dev = some plan.ext ∧
      findKeyByPwd P dev plan.ext.md pwd = .ok (plan.key, plan.index) := by
  unfold changeKeyPlan at h
  obtain ⟨-, h⟩ := check_eq_ok.mp h
  simp only [bind_eq_ok, orRaise_eq_ok] at h
  obtain ⟨pwd, hpwd, newPwd, hnewPwd, ext, hext, ⟨key, j⟩, hfind, hplan⟩ := h
  cases hplan
  exact ⟨pwd, hpwd, hnewPwd, hext, hfind⟩

theorem removeKeyPlan_eq_ok {ext' : ExtHdr} (h : removeKeyPlan P dev pwd = .ok (ext', i)) : ∃ p ext key,
      pwd = some p ∧ luks2ReadHdr P dev = some ext ∧ findKeyByPwd P dev ext.md p = .ok (key, i) ∧
      countKeyslots ext.md ≠ 1 ∧ ext' = { ext with md := removeSlot ext.md i } := by
  unfold removeKeyPlan at h
  obtain ⟨-, h⟩ := check_eq_ok.mp h
  simp only [bind_eq_ok, orRaise_eq_ok] at h
  obtain ⟨p, hpwd, ext, hext, ⟨key, j⟩, hfind, h⟩ := h
  obtain ⟨hcount, h⟩ := check_eq_ok.mp h
  cases h
  exact ⟨p, ext, key, hpwd, hext, hfind, hcount, rfl⟩

theorem bind_eq_error {β : Type} {f : α → Except VicResult β} :
    (x >>= f) = .error r ↔ x = .error r ∨ ∃ a, x = .ok a ∧ f a = .error r := by
  cases x with
  | error e => simp [bind, Except.bind]
  | ok a => simp [bind, Except.bind]

theorem orRaise_eq_error {r' : VicResult} {o : Option α} : orRaise r o = .error r' ↔ o = none ∧ r = r' := by
  cases o <;> simp [orRaise]

theorem deriveKey_ne_ok (ks : Keyslot) (pwd : List Byte) : deriveKey P ks pwd ≠ .error .ok := by
  unfold deriveKey
  split_ifs <;> simp [orRaise_eq_error]

theorem generateKeyMaterial_ne_ok (ks : Keyslot) (key pwd : List Byte) (stripes : ℕ → Byte) :
    generateKeyMaterial P ks key pwd stripes ≠ .error .ok := by
  simp [generateKeyMaterial, bind_eq_error, orRaise_eq_error, deriveKey_ne_ok]

theorem slotKey_ne_ok (ks : Keyslot) (pwd : List Byte) : slotKey P dev ks pwd ≠ .error .ok := by
  simp [slotKey, bind_eq_error, orRaise_eq_error, deriveKey_ne_ok]

theorem checkDigest_ne_ok (digest : Digest) (mk : List Byte) : checkDigest P digest mk ≠ .error .ok := by
  unfold checkDigest
  split_ifs <;> simp [bind_eq_error, orRaise_eq_error, pure, Except.pure]

theorem trySlot_ne_ok (md : Metadata) (pwd : List Byte) (i : Fin numKeyslots) :
    trySlot P dev md pwd i ≠ .error .ok := by
  unfold trySlot
  dsimp only
  split_ifs <;>
    simp [bind_eq_error, orRaise_eq_error, slotKey_ne_ok, checkDigest_ne_ok, pure, Except.pure]

theorem findLoop_ne_ok (md : Metadata) (pwd : List Byte) (is : List (Fin numKeyslots)) :
    findLoop P dev md pwd is ≠ .error .ok := by
  induction is with
  | nil => exact nofun
  | cons i is ih =>
    unfold findLoop
    rw [Ne, bind_eq_error, not_or]
    refine ⟨trySlot_ne_ok md pwd i, ?_⟩
    rintro ⟨mk, -, h⟩
    cases mk with
    | none => exact ih h
    | some mk => cases h

theorem removeKeyPlan_ne_ok (pwd : Option (List Byte)) : removeKeyPlan P dev pwd ≠ .error .ok := by
  unfold removeKeyPlan
  split_ifs <;> simp [bind_eq_error, orRaise_eq_error, findKeyByPwd, findLoop_ne_ok]
  intro p hp ext hext key i hfind
  split_ifs <;> nofun

theorem orFail_eq_ok (hr : r ≠ .ok) {write : Blockdev → Option Blockdev}
    {next : Blockdev → VicResult × Blockdev} (h : orFail r dev write next = (.ok, dev')) :
    ∃ dev₁, write dev = some dev₁ ∧ next dev₁ = (.ok, dev') := by
  unfold orFail at h
  cases hwrite : write dev with
  | none =>
    rw [hwrite] at h
    exact absurd (congrArg Prod.fst h) hr
  | some dev₁ =>
    rw [hwrite] at h
    exact ⟨dev₁, rfl, h⟩

theorem commitKey_eq_ok {ext : ExtHdr} {key pwd : List Byte} {stripes : ℕ → Byte}
    (h : commitKey P dev ext i key pwd stripes = (.ok, dev')) : ∃ dev₁ data, writeHdr P dev ext = (.ok, dev₁) ∧
      generateKeyMaterial P (ext.md.keyslots i) key pwd stripes = .ok data ∧
      writeKeyMaterial dev₁ (ext.md.keyslots i) data = some dev' := by
  unfold commitKey at h
  split at h
  · next dev₁ hwrite =>
    split at h
    · next data hgen =>
      obtain ⟨dev₂, hput, hok⟩ := orFail_eq_ok (by decide) h
      cases hok
      exact ⟨dev₁, data, hwrite, hgen, hput⟩
    · next r hgen =>
      cases h
      exact absurd hgen (generateKeyMaterial_ne_ok _ _ _ _)
  · next r dev₁ hne hwrite =>
    cases h
    exact absurd rfl hne

theorem writeKeyMaterial_zero (dev : Blockdev) :
    writeKeyMaterial dev {} (List.replicate (Keyslot.area {}).size.toNat 0) = some dev := by
  simp [writeKeyMaterial, Blockdev.put]

/-- The slot is zero when its key material should be cleared: nothing is cleared. -/
theorem luks2RemoveKey_eq_ok (h : luks2RemoveKey P dev pwd = (.ok, dev')) :
    ∃ ext i, removeKeyPlan P dev pwd = .ok (ext, i) ∧ writeHdr P dev ext = (.ok, dev') := by
  unfold luks2RemoveKey at h
  split at h
  · next r hplan =>
    cases h
    exact absurd hplan (removeKeyPlan_ne_ok pwd)
  · next ext i hplan =>
    obtain ⟨_, ext₀, _, -, -, -, -, rfl⟩ := removeKeyPlan_eq_ok hplan
    have hzero : (removeSlot ext₀.md i).keyslots i = {} := by
      simp [removeSlot, Metadata.setKeyslot, Metadata.setDigest]
    split at h
    · next dev₁ hwrite =>
      obtain ⟨dev₂, hput, hok⟩ := orFail_eq_ok (by decide) h
      cases hok
      dsimp only at hput
      rw [hzero, writeKeyMaterial_zero] at hput
      cases hput
      exact ⟨_, i, hplan, hwrite⟩
    · next r dev₁ hne hwrite =>
      cases h
      exact absurd rfl hne

end

/-! ## Trying a slot -/

structure DigestOf (P : Primitives) (mk : List Byte) (d : Digest) : Prop where
  type : d.type.chars = bytes "pbkdf2"
  digest : ∃ t, vicHashType d.hash.chars = some t ∧
    vicPbkdf2 P mk d.salt.toList d.iterations d.hash.chars t.size = some (d.digest.toList.take t.size)

variable {mk : List Byte} {d : Digest} {dev : Blockdev} {ext : ExtHdr}

theorem DigestOf.checkDigest (h : DigestOf P mk d) : Luks.checkDigest P d mk = .ok true := by
  obtain ⟨t, ht, hdigest⟩ := h.digest
  simp only [Luks.checkDigest, ht, orRaise, hdigest, if_pos h.type, bind, Except.bind, pure, Except.pure,
    decide_true]

theorem DigestOf.isOk_checkDigest (h : DigestOf P mk d) {candidate : List Byte}
    (hne : candidate ≠ []) : ∃ b, Luks.checkDigest P d candidate = .ok b := by
  obtain ⟨t, ht, hdigest⟩ := h.digest
  obtain ⟨digest, hsome⟩ := isSome_iff_exists.mp
    (isSome_vicPbkdf2 hne (isSome_of_eq_some hdigest))
  simp only [Luks.checkDigest, ht, orRaise, hsome, if_pos h.type, bind, Except.bind, pure, Except.pure]
  exact ⟨_, rfl⟩

theorem findDigest_eq {md : Metadata} {i : Fin numKeyslots} (h : (md.digests 0).keyslots i = true) :
    findDigest md i = some (md.digests 0) := by
  simp only [findDigest, List.finRange_succ, List.find?_cons, h, map_some]

/-- A device, and the password that each slot was given. -/
structure KeyState where
  dev : Blockdev
  slots : Fin numKeyslots → Option (List Byte)

/-- No key that is derived from `q` for a slot with another password has the stored digest. -/
def Honest (P : Primitives) (s : KeyState) (q : List Byte) : Prop :=
  ∀ ext, luks2ReadHdr P s.dev = some ext → ∀ i p, s.slots i = some p → p ≠ q →
    ∀ candidate digest, slotKey P s.dev (ext.md.keyslots i) q = .ok candidate →
      findDigest ext.md i = some digest → checkDigest P digest candidate ≠ .ok true

/-- The slot holds the master key for the password. -/
structure InUse (P : Primitives) (dev : Blockdev) (md : Metadata) (mk : List Byte) (i : Fin numKeyslots)
    (p : List Byte) : Prop where
  used : (md.digests 0).keyslots i = true
  shaped : (md.keyslots i).Shaped mk.length i
  opens : Opens P dev (md.keyslots i) mk p

def SlotInv (P : Primitives) (dev : Blockdev) (md : Metadata) (mk : List Byte) (i : Fin numKeyslots) :
    Option (List Byte) → Prop
  | none => (md.keyslots i).type.chars = []
  | some p => InUse P dev md mk i p

/-- The device holds a header that can be read back. -/
structure Stored (P : Primitives) (dev : Blockdev) (ext : ExtHdr) : Prop where
  holds : Holds dev ext
  formed : ext.Formed
  isSealed : ext.Sealed P
  valid : ext.md.Valid

theorem Stored.read (h : Stored P dev ext) : luks2ReadHdr P dev = some ext := by
  have hjson : readJson P P.behind ext.jsonData = some ext.md := by
    rw [h.isSealed.json, paddedJson, readJson_toJson _ _ h.valid]
  rw [luks2ReadHdr_of_holds h.holds h.formed h.isSealed, hjson]
  rfl

theorem Stored.isValidDevice (h : Stored P dev ext) : isValidDevice dev = true := by
  simp [Luks.isValidDevice, h.holds.blockSize]

/-- The device holds the header, and the slots have what they were given. -/
structure Inv (P : Primitives) (mk : List Byte) (s : KeyState) (ext : ExtHdr) : Prop
    extends Stored P s.dev ext where
  key : 0 < mk.length ∧ mk.length ≤ 128
  digest : DigestOf P mk (ext.md.digests 0)
  slot : ∀ i, SlotInv P s.dev ext.md mk i (s.slots i)

section

variable {mk : List Byte} {s : KeyState} {ext : ExtHdr}

variable {i : Fin numKeyslots} {p q : List Byte} {dev : Blockdev} {md : Metadata}

theorem Inv.free (h : Inv P mk s ext) (hi : s.slots i = none) : (ext.md.keyslots i).type.chars = [] := by
  have hslot := h.slot i
  rwa [hi] at hslot

theorem Inv.inUse (h : Inv P mk s ext) (hi : s.slots i = some p) : InUse P s.dev ext.md mk i p := by
  have hslot := h.slot i
  rwa [hi] at hslot

theorem InUse.trySlot {candidate : List Byte}
    (h : InUse P dev md mk i p) {b : Bool} (hslot : slotKey P dev (md.keyslots i) q = .ok candidate)
    (hdigest : checkDigest P (md.digests 0) candidate = .ok b) :
    trySlot P dev md q i = .ok (if b then some candidate else none) := by
  have hne : (md.keyslots i).type.chars ≠ [] := by
    rw [h.shaped.type]
    decide
  unfold Luks.trySlot
  dsimp only
  rw [if_neg hne, if_neg (not_not.mpr h.shaped.type), findDigest_eq h.used, hslot]
  simp only [hdigest, orRaise, bind, Except.bind, pure, Except.pure]

theorem Inv.trySlot_self (h : Inv P mk s ext) (hi : s.slots i = some p) :
    trySlot P s.dev ext.md p i = .ok (some mk) :=
  (h.inUse hi).trySlot (h.inUse hi).opens.opens h.digest.checkDigest

/-- Exactly the slot's own password opens it. -/
theorem Inv.trySlot (h : Inv P mk s ext) (hq : q ≠ []) (hhonest : Honest P s q) (i : Fin numKeyslots) :
    trySlot P s.dev ext.md q i = .ok (if s.slots i = some q then some mk else none) := by
  cases hi : s.slots i with
  | none => rw [Luks.trySlot, if_pos (h.free hi), if_neg (by simp)]
  | some p =>
    by_cases hpq : p = q
    · subst hpq
      rw [h.trySlot_self hi, if_pos rfl]
    · have hslot := h.inUse hi
      obtain ⟨candidate, hcandidate, hlen⟩ := hslot.opens.tries q hq
      have hcandidate_ne : candidate ≠ [] := List.ne_nil_of_length_pos (hlen ▸ h.key.1)
      obtain ⟨b, hb⟩ := h.digest.isOk_checkDigest hcandidate_ne
      have hfalse : b = false := by
        have := hhonest ext h.read i p hi hpq candidate _ hcandidate (findDigest_eq hslot.used)
        rw [hb] at this
        cases b with
        | false => rfl
        | true => exact absurd rfl this
      rw [hslot.trySlot hcandidate hb, hfalse, if_neg fun heq => hpq (some.inj heq)]
      rfl

theorem findLoop_eq {p : Fin numKeyslots → Prop} [DecidablePred p] {is : List (Fin numKeyslots)}
    (h : ∀ i ∈ is, trySlot P dev md q i = .ok (if p i then some mk else none)) :
    findLoop P dev md q is = match is.find? p with
      | some i => .ok (mk, i)
      | none => .error .notFound := by
  induction is with
  | nil => rfl
  | cons i is ih =>
    rw [findLoop, h i List.mem_cons_self]
    by_cases hp : p i
    · simp [hp, bind, Except.bind, pure, Except.pure]
    · rw [List.find?_cons_of_neg (by simpa using hp), ← ih fun j hj => h j (List.mem_cons_of_mem i hj)]
      simp [hp, bind, Except.bind]

theorem Inv.findKeyByPwd (h : Inv P mk s ext) (hq : q ≠ []) (hhonest : Honest P s q) :
    findKeyByPwd P s.dev ext.md q =
      match (List.finRange numKeyslots).find? fun i => s.slots i = some q with
      | some i => .ok (mk, i)
      | none => .error .notFound :=
  findLoop_eq fun i _ => h.trySlot hq hhonest i

theorem Inv.findKeyByPwd_eq_ok (h : Inv P mk s ext) (hq : q ≠ []) (hhonest : Honest P s q)
    {key : List Byte} (hfind : Luks.findKeyByPwd P s.dev ext.md q = .ok (key, i)) :
    key = mk ∧ s.slots i = some q := by
  rw [h.findKeyByPwd hq hhonest] at hfind
  split at hfind
  · next j hj =>
    cases hfind
    exact ⟨rfl, by simpa using List.find?_some hj⟩
  · cases hfind

end

end SgxLkl.Luks
