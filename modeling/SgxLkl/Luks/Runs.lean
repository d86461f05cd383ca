import SgxLkl.Lib.SlotTable
import SgxLkl.Luks.Search

/-!
# Operations on the keys

* **`KeyStep.inv`**: they keep the invariant, and do to the passwords what they should.
-/

namespace SgxLkl.Luks

open Json (bytes Name Trees Members indexName)
open List Function Option

variable {P : Primitives}

/-! ## Writing the metadata -/

def useSlot (md : Metadata) (i : Fin numKeyslots) (ks : Keyslot) : Metadata :=
  (md.setKeyslot i ks).setDigest 0
    { md.digests 0 with keyslots := update (md.digests 0).keyslots i true }

theorem keyslots_useSlot (md : Metadata) (i : Fin numKeyslots) (ks : Keyslot) :
    (useSlot md i ks).keyslots = update md.keyslots i ks := rfl

theorem bits_useSlot (md : Metadata) (i : Fin numKeyslots) (ks : Keyslot) :
    ((useSlot md i ks).digests 0).keyslots = update (md.digests 0).keyslots i true := rfl

variable {md : Metadata} {i : Fin numKeyslots} {vs vs' : List Json.Tree}

theorem Metadata.Valid.setKeyslot (h : md.Valid) {ks : Keyslot}
    (hks : ks.type.chars ≠ [] → ks.Valid) (hno : ks.type.chars = [] → ks = {}) : (md.setKeyslot i ks).Valid := by
  have hcases (j : Fin numKeyslots) : (md.setKeyslot i ks).keyslots j = ks ∨
      (md.setKeyslot i ks).keyslots j = md.keyslots j := by
    by_cases hj : j = i
    · subst hj
      exact .inl (update_self _ _ _)
    · exact .inr (update_of_ne hj _ _)
  refine ⟨fun j => ?_, fun j => ?_, h.segment, h.noSegment, h.digest, h.noDigest⟩
  · rcases hcases j with hj | hj <;> rw [hj]
    · exact hks
    · exact h.keyslot j
  · rcases hcases j with hj | hj <;> rw [hj]
    · exact hno
    · exact h.noKeyslot j

theorem Metadata.Valid.setBits (h : md.Valid) {d : Fin numDigests}
    (hd : (md.digests d).type.chars ≠ []) (bits : Fin numKeyslots → Bool) :
    (md.setDigest d { md.digests d with keyslots := bits }).Valid := by
  have hcases (j : Fin numDigests) : (md.setDigest d { md.digests d with keyslots := bits }).digests j =
        { md.digests d with keyslots := bits } ∨
      (md.setDigest d { md.digests d with keyslots := bits }).digests j = md.digests j := by
    by_cases hj : j = d
    · subst hj
      exact .inl (update_self _ _ _)
    · exact .inr (update_of_ne hj _ _)
  refine ⟨h.keyslot, h.noKeyslot, h.segment, h.noSegment, fun j => ?_, fun j => ?_⟩
  · rcases hcases j with hj | hj <;> rw [hj]
    · intro hne
      exact ⟨(h.digest d hd).type, (h.digest d hd).hash⟩
    · exact h.digest j
  · rcases hcases j with hj | hj <;> rw [hj]
    · exact fun hnil => absurd hnil hd
    · exact h.noDigest j

section

variable {mk : List Byte} {s : KeyState} {ext : ExtHdr} {dev₁ dev' : Blockdev}

theorem Inv.digest_type (h : Inv P mk s ext) : (ext.md.digests 0).type.chars ≠ [] := by
  rw [h.digest.type]
  decide

variable {dev : Blockdev} {md : Metadata} {ks : Keyslot} {stripes : ℕ → Byte} {i : Fin numKeyslots}
variable {p : List Byte}

theorem Stored.holds_next (h : Stored P dev ext)
    (hwrite : Luks.writeHdr P dev { ext with md := md } = (.ok, dev₁)) :
    Holds dev₁ (ExtHdr.next P { ext with md := md }) ∧ (ExtHdr.next P { ext with md := md }).Formed ∧
      (ExtHdr.next P { ext with md := md }).Sealed P ∧ Frame (Set.Iio 32768) dev dev₁ := by
  have hformed : ExtHdr.Formed { ext with md := md } :=
    ⟨h.formed.jsonSize, h.formed.magic, h.formed.version, h.formed.hdrSize, h.formed.hdrOffset,
      h.formed.csumAlg, h.formed.shdr⟩
  have hfits : (toJson P md).length < ext.jsonSize := by
    by_contra hle
    unfold Luks.writeHdr at hwrite
    dsimp only at hwrite
    rw [if_pos (Nat.not_lt.mp hle)] at hwrite
    cases hwrite
  have hlen : (paddedJson P md ext.jsonSize).length = 12288 := by
    rw [length_paddedJson hfits, h.formed.jsonSize]
  rw [writeHdr_eq h.holds.blockSize h.holds.size hformed hfits] at hwrite
  cases hwrite
  refine ⟨holds_writeHeaders h.holds.blockSize h.holds.size hlen, hformed.next, hformed.sealed_next hfits, rfl, rfl, ?_⟩
  rw [Set.compl_Iio]
  exact same_writeHeaders dev.data hlen

theorem Stored.writeHdr (h : Stored P dev ext) (hmd : md.Valid)
    (hwrite : writeHdr P dev { ext with md := md } = (.ok, dev₁)) :
    Stored P dev₁ (ExtHdr.next P { ext with md := md }) ∧ Frame (Set.Iio 32768) dev dev₁ :=
  let ⟨hholds, hformed, hsealed, hframe⟩ := h.holds_next hwrite
  ⟨⟨hholds, hformed, hsealed, hmd⟩, hframe⟩

theorem readable_of_generated {key pwd data : List Byte}
    (h : generateKeyMaterial P ks key pwd stripes = .ok data) : ks.area.encryption.Readable := by
  obtain ⟨_, _, -, -, hencrypt⟩ := generateKeyMaterial_eq_ok.mp h
  unfold encrypt crypt getCipherInfo at hencrypt
  split_ifs at hencrypt with hinfo
  simp only [Bool.and_eq_true, decide_eq_true_eq] at hinfo
  unfold Str.Readable
  rw [hinfo.1]
  decide

theorem SlotInv.congr {md' : Metadata}
    {x : Option (List Byte)} (h : SlotInv P dev md mk i x) (hks : md'.keyslots i = md.keyslots i)
    (hbit : (md'.digests 0).keyslots i = (md.digests 0).keyslots i)
    (hopens : ∀ p, InUse P dev md mk i p → Opens P dev' (md.keyslots i) mk p) : SlotInv P dev' md' mk i x := by
  cases x with
  | none => exact (congrArg (fun ks : Keyslot => ks.type.chars) hks).trans h
  | some p => exact ⟨hbit.trans h.used, hks ▸ h.shaped, hks ▸ hopens p h⟩

theorem InUse.opens_header (h : InUse P dev md mk i p) (hblock : dev.blockSize = sectorSize)
    (hframe : Frame (Set.Iio 32768) dev dev₁) : Opens P dev₁ (md.keyslots i) mk p :=
  h.opens.congr h.shaped hblock hframe
    (Set.disjoint_left.mpr fun k hk (hlt : k < 32768) => not_lt.mpr (h.shaped.range_subset hk) hlt)

theorem Inv.valid_useSlot (h : Inv P mk s ext) {n : ℕ}
    (hks : ks.Shaped n i) (hvalid : ks.Valid) : (useSlot ext.md i ks).Valid := by
  have htype : ks.type.chars ≠ [] := by
    rw [hks.type]
    decide
  exact (h.valid.setKeyslot (fun _ => hvalid) fun hnil => absurd hnil htype).setBits h.digest_type _

/-- **A key is added or replaced.** -/
theorem Inv.commit (h : Inv P mk s ext) (hks : ks.Shaped mk.length i) (hvalid : ks.area.encryption.Readable → ks.Valid)
    (hcommit : commitKey P s.dev { ext with md := useSlot ext.md i ks } i mk p stripes = (.ok, dev')) :
    Inv P mk ⟨dev', update s.slots i (some p)⟩
      (ExtHdr.next P { ext with md := useSlot ext.md i ks }) := by
  obtain ⟨dev₁, data, hwrite, hgen, hput⟩ := commitKey_eq_ok hcommit
  have hself : (useSlot ext.md i ks).keyslots i = ks := by
    rw [keyslots_useSlot, update_self]
  dsimp only at hgen hput
  rw [hself] at hgen hput
  have hmd := h.valid_useSlot hks (hvalid (readable_of_generated hgen))
  obtain ⟨hstored, hframe⟩ := h.writeHdr hmd hwrite
  have hholds := hstored.holds
  obtain ⟨hframe', hopens⟩ := hks.opens_written rfl hholds.blockSize hgen hput
  refine ⟨⟨?_, hstored.formed, hstored.isSealed, hmd⟩, h.key, ⟨h.digest.type, h.digest.digest⟩, fun j => ?_⟩
  · refine hholds.congr hframe'.1 hframe'.2.1 (hframe'.2.2.mono fun k (hk : k < 32768) hmem => ?_)
    exact absurd hk (not_lt.mpr (hks.range_subset hmem))
  · show SlotInv P dev' (useSlot ext.md i ks) mk j (update s.slots i (some p) j)
    by_cases hj : j = i
    · subst hj
      rw [update_self]
      refine ⟨?_, hself.symm ▸ hks, hself.symm ▸ hopens⟩
      rw [bits_useSlot, update_self]
    · rw [update_of_ne hj]
      refine (h.slot j).congr ?_ ?_ fun q hq => ?_
      · rw [keyslots_useSlot, update_of_ne hj]
      · rw [bits_useSlot, update_of_ne hj]
      exact (hq.opens_header h.holds.blockSize hframe).congr hq.shaped hholds.blockSize hframe'
        (hq.shaped.disjoint hks hj)

theorem keyslots_removeSlot (md : Metadata) (i : Fin numKeyslots) :
    (removeSlot md i).keyslots = update md.keyslots i {} := rfl

theorem bits_removeSlot (md : Metadata) (i : Fin numKeyslots) :
    ((removeSlot md i).digests 0).keyslots = update (md.digests 0).keyslots i false := rfl

theorem Inv.valid_removeSlot (h : Inv P mk s ext) (i : Fin numKeyslots) : (removeSlot ext.md i).Valid :=
  (h.valid.setKeyslot (fun hne => absurd rfl hne) fun _ => rfl).setBits h.digest_type _

/-- **A key is removed.** -/
theorem Inv.remove (h : Inv P mk s ext)
    (hwrite : Luks.writeHdr P s.dev { ext with md := removeSlot ext.md i } = (.ok, dev')) :
    Inv P mk ⟨dev', update s.slots i none⟩
      (ExtHdr.next P { ext with md := removeSlot ext.md i }) := by
  obtain ⟨hstored, hframe⟩ := h.writeHdr (h.valid_removeSlot i) hwrite
  refine ⟨hstored, h.key, ⟨h.digest.type, h.digest.digest⟩, fun j => ?_⟩
  show SlotInv P dev' (removeSlot ext.md i) mk j (update s.slots i none j)
  by_cases hj : j = i
  · subst hj
    rw [update_self]
    show ((removeSlot ext.md j).keyslots j).type.chars = []
    rw [keyslots_removeSlot, update_self]
    rfl
  · rw [update_of_ne hj]
    refine (h.slot j).congr ?_ ?_ fun q hq => hq.opens_header h.holds.blockSize hframe
    · rw [keyslots_removeSlot, update_of_ne hj]
    · rw [bits_removeSlot, update_of_ne hj]

end

/-! ## A header with fewer slots -/

section

variable {α : Type} {n : ℕ} {f g : Fin n → α} {used : α → Bool} {dump : α → Json.Tree}

def entries (f : Fin n → α) (used : α → Bool) (dump : α → Json.Tree) (js : List (Fin n)) : Members :=
  .ofList ((js.filter fun j => used (f j)).map fun j : Fin n => (indexName j, dump (f j)))

theorem length_sep_cons (name : Name) (v : Json.Tree) (ms : Members) :
    (Members.cons name v ms).sep.length = 1 := rfl

theorem entries_cons (j : Fin n) (js : List (Fin n)) : entries f used dump (j :: js) =
    if used (f j) then .cons (indexName j) (dump (f j)) (entries f used dump js)
    else entries f used dump js := by
  unfold entries
  rw [filter_cons]
  split_ifs <;> rfl

theorem length_entries_le (js : List (Fin n))
    (h : ∀ j, used (g j) = true → used (f j) = true ∧ (dump (g j)).text.length ≤ (dump (f j)).text.length) :
    (entries g used dump js).sep.length + (entries g used dump js).text.length ≤
      (entries f used dump js).sep.length + (entries f used dump js).text.length := by
  induction js with
  | nil => exact le_rfl
  | cons j js ih =>
    rw [entries_cons, entries_cons]
    by_cases hg : used (g j) = true
    · obtain ⟨hf, hle⟩ := h j hg
      rw [if_pos hg, if_pos hf]
      simp only [length_sep_cons, Members.text, length_cons, length_append]
      omega
    · rw [if_neg hg]
      split_ifs
      · simp only [length_sep_cons, Members.text, length_cons, length_append]
        omega
      · exact ih

theorem length_dumpTable_le
    (h : ∀ j, used (g j) = true → used (f j) = true ∧ (dump (g j)).text.length ≤ (dump (f j)).text.length) :
    (dumpTable g used dump).text.length ≤ (dumpTable f used dump).text.length := by
  have hle := length_entries_le (finRange n) h
  show (entries g used dump (finRange n)).text.length ≤ (entries f used dump (finRange n)).text.length
  cases hg : entries g used dump (finRange n) with
  | nil => exact Nat.zero_le _
  | cons name v ms =>
    rw [hg] at hle
    have hsep : (entries f used dump (finRange n)).sep.length ≤ 1 := by
      cases entries f used dump (finRange n) <;> simp [Members.sep]
    rw [length_sep_cons] at hle
    omega

end

theorem length_sep_treeCons (v : Json.Tree) (vs : Trees) : (Trees.cons v vs).sep.length = 1 := rfl

theorem length_trees_le (h : vs.Sublist vs') : (Trees.ofList vs).sep.length + (Trees.ofList vs).text.length ≤
      (Trees.ofList vs').sep.length + (Trees.ofList vs').text.length := by
  induction h with
  | slnil => exact le_rfl
  | cons v _ ih | cons_cons v _ ih =>
    simp only [Trees.ofList, length_sep_treeCons, Trees.text, length_append]
    omega

theorem length_array_le (h : vs.Sublist vs') :
    (Json.Tree.array (.ofList vs)).text.length ≤ (Json.Tree.array (.ofList vs')).text.length := by
  have hle := length_trees_le h
  simp only [Json.Tree.text, length_cons, length_append]
  cases vs with
  | nil =>
    show 0 + _ + 1 ≤ _
    omega
  | cons v vs =>
    have hsep : (Trees.ofList vs').sep.length ≤ 1 := by
      cases vs' <;> simp [Trees.ofList, Trees.sep]
    rw [Trees.ofList, length_sep_treeCons] at hle
    rw [Trees.ofList]
    omega

theorem length_members_le {ms ms' : List (Name × Json.Tree)}
    (h : List.Forall₂ (fun m m' => m.1 = m'.1 ∧ m.2.text.length ≤ m'.2.text.length) ms ms') :
    (Members.ofList ms).sep.length = (Members.ofList ms').sep.length ∧
      (Members.ofList ms).text.length ≤ (Members.ofList ms').text.length := by
  induction h with
  | nil => exact ⟨rfl, le_rfl⟩
  | @cons m m' ms ms' hm _ ih =>
    obtain ⟨name, v⟩ := m
    obtain ⟨name', v'⟩ := m'
    obtain ⟨rfl, hle⟩ := hm
    refine ⟨rfl, ?_⟩
    simp only [Members.ofList, Members.text, length_cons, length_append]
    dsimp only at hle
    omega

theorem length_object_le {ms ms' : Members} (h : ms.text.length ≤ ms'.text.length) :
    (Json.Tree.object ms).text.length ≤ (Json.Tree.object ms').text.length := by
  simp only [Json.Tree.text, length_cons, length_append]
  omega

theorem length_dumpDigest_le (d : Digest) (i : Fin numKeyslots) :
    (dumpDigest P { d with keyslots := update d.keyslots i false }).text.length ≤
      (dumpDigest P d).text.length := by
  have hsub : (setBits (update d.keyslots i false)).Sublist (setBits d.keyslots) := by
    refine monotone_filter_right _ fun j hj => ?_
    by_cases hji : j = i
    · subst hji
      rw [update_self] at hj
      cases hj
    · rwa [update_of_ne hji] at hj
  have hrefl (m : Name × Json.Tree) : m.1 = m.1 ∧ m.2.text.length ≤ m.2.text.length := ⟨rfl, le_rfl⟩
  refine length_object_le (length_members_le ?_).2
  exact .cons (hrefl _) (.cons ⟨rfl, length_array_le (hsub.map _)⟩ (forall₂_same.mpr fun m _ => hrefl m))

theorem digests_removeSlot {j : Fin numDigests} (hj : j ≠ 0) : (removeSlot md i).digests j = md.digests j := by
  show update md.digests 0 _ j = _
  rw [update_of_ne hj]

theorem length_toJson_removeSlot (md : Metadata) (i : Fin numKeyslots) :
    (toJson P (removeSlot md i)).length ≤ (toJson P md).length := by
  have hrefl (m : Name × Json.Tree) : m.1 = m.1 ∧ m.2.text.length ≤ m.2.text.length := ⟨rfl, le_rfl⟩
  have hkeyslots : (dumpTable (removeSlot md i).keyslots (fun ks => ks.type.chars ≠ [])
      (dumpKeyslot P)).text.length ≤
      (dumpTable md.keyslots (fun ks => ks.type.chars ≠ []) (dumpKeyslot P)).text.length := by
    refine length_dumpTable_le fun j hj => ?_
    rw [keyslots_removeSlot] at hj ⊢
    by_cases hji : j = i
    · subst hji
      rw [update_self] at hj
      exact absurd rfl (of_decide_eq_true hj)
    · rw [update_of_ne hji] at hj ⊢
      exact ⟨hj, le_rfl⟩
  have hdigests : (dumpTable (removeSlot md i).digests (fun d => d.type.chars ≠ []) (dumpDigest P)).text.length ≤
      (dumpTable md.digests (fun d => d.type.chars ≠ []) (dumpDigest P)).text.length := by
    refine length_dumpTable_le fun j hj => ?_
    by_cases hj0 : j = 0
    · subst hj0
      exact ⟨hj, length_dumpDigest_le (md.digests 0) i⟩
    · have hother : (removeSlot md i).digests j = md.digests j := digests_removeSlot hj0
      rw [hother] at hj ⊢
      exact ⟨hj, le_rfl⟩
  refine length_object_le (length_members_le ?_).2
  exact .cons ⟨rfl, length_object_le hkeyslots⟩ (.cons (hrefl _) (.cons (hrefl _)
    (.cons ⟨rfl, length_object_le hdigests⟩ (.cons (hrefl _) .nil))))

/-! ## Operations -/

inductive KeyOp
  | addKey (args : AddArgs) (random : Random)
  | addKeyByMasterKey (args : AddByMasterKeyArgs) (random : Random)
  | changeKey (oldPwd newPwd : List Byte) (stripes : ℕ → Byte)
  | removeKey (pwd : List Byte)

def KeyOp.run (P : Primitives) (dev : Blockdev) : KeyOp → VicResult × Blockdev
  | .addKey args random => luks2AddKey P dev args random
  | .addKeyByMasterKey args random => luks2AddKeyByMasterKey P dev args random
  | .changeKey oldPwd newPwd stripes => luks2ChangeKey P dev (some oldPwd) (some newPwd) stripes
  | .removeKey pwd => luks2RemoveKey P dev (some pwd)

def KeyOp.slot (P : Primitives) (dev : Blockdev) : KeyOp → Except VicResult (Fin numKeyslots × Option (List Byte))
  | .addKey args random => (addKeyPlan P dev args random.salt).map fun p => (p.index, some p.pwd)
  | .addKeyByMasterKey args random =>
    (addKeyByMasterKeyPlan P dev args random.salt).map fun p => (p.index, some p.pwd)
  | .changeKey oldPwd newPwd _ =>
    (changeKeyPlan P dev (some oldPwd) (some newPwd)).map fun p => (p.index, some p.pwd)
  | .removeKey pwd => (removeKeyPlan P dev (some pwd)).map fun p => (p.2, none)

def KeyOp.lookup : KeyOp → Option (List Byte)
  | .addKey args _ => args.pwd
  | .addKeyByMasterKey _ _ => none
  | .changeKey oldPwd _ _ => some oldPwd
  | .removeKey pwd => some pwd

/-- What should become of the enrolled passwords. -/
def KeyOp.effect : KeyOp → TableOp (List Byte)
  | .addKey args _ => .insert (args.newPwd.getD [])
  | .addKeyByMasterKey args _ => .insert (args.pwd.getD [])
  | .changeKey oldPwd newPwd _ => .replace oldPwd newPwd
  | .removeKey pwd => .erase pwd

/-- The master key that is passed, if one is, is `mk`. -/
def KeyOp.Passes (mk : List Byte) : KeyOp → Prop
  | .addKeyByMasterKey args _ => args.masterKeyBytes.toNat = mk.length ∧
    ∀ masterKey ∈ args.masterKey, masterKey.toList.take args.masterKeyBytes.toNat = mk
  | _ => True

structure KeyStep (P : Primitives) (mk : List Byte) (s : KeyState) (op : KeyOp) (t : KeyState) : Prop where
  run : op.run P s.dev = (.ok, t.dev)
  slots : ∃ i x, op.slot P s.dev = .ok (i, x) ∧ t.slots = update s.slots i x
  passes : op.Passes mk
  honest : ∀ q ∈ op.lookup, Honest P s q
  nonempty : ∀ q ∈ op.lookup, q ≠ []

section

variable {mk : List Byte} {s t : KeyState} {ext : ExtHdr}

variable {md : Metadata} {i : Fin numKeyslots} {stripes : ℕ → Byte} {random : Random}

theorem findFreeKeyslot_eq_some (h : findFreeKeyslot md = some i) : (md.keyslots i).type.chars = [] := by
  simpa using find?_some h

theorem Inv.slots_eq_none (h : Inv P mk s ext) (hi : (ext.md.keyslots i).type.chars = []) : s.slots i = none := by
  cases hslot : s.slots i with
  | none => rfl
  | some p =>
    have htype := (h.inUse hslot).shaped.type
    rw [hi] at htype
    exact absurd htype (by decide)

theorem Inv.addSlot (h : Inv P mk s ext) {cipher : CString Byte} {keySize : Word}
    {kdf : CString Byte × VicKdf} {salt : List.Vector Byte 32}
    (hsize : keySize.toNat = mk.length) (hadd : addSlot ext.md cipher keySize kdf salt = .ok (md, i))
    {p : List Byte} {dev' : Blockdev}
    (hcommit : commitKey P s.dev { ext with md := md } i mk p stripes = (.ok, dev')) :
    s.slots i = none ∧
      Inv P mk ⟨dev', update s.slots i (some p)⟩ (ExtHdr.next P { ext with md := md }) := by
  obtain ⟨hfree, ks, _, hks, rfl⟩ := addSlot_eq_ok hadd
  have hshaped : ks.Shaped mk.length i := hsize ▸ initKeyslot_shaped (hsize ▸ h.key.2) hks
  refine ⟨h.slots_eq_none (findFreeKeyslot_eq_some hfree), h.commit hshaped (fun hreadable => ?_) hcommit⟩
  exact initKeyslot_valid hks (initKeyslot_encryption hks ▸ hreadable)

theorem map_eq_ok {α β : Type} {x : Except VicResult α} {f : α → β} {b : β} :
    x.map f = .ok b ↔ ∃ a, x = .ok a ∧ f a = b := by
  cases x <;> simp [Except.map]

theorem Inv.addKey (h : Inv P mk s ext) {args : AddArgs} (hstep : KeyStep P mk s (.addKey args random) t) :
    (∃ ext', Inv P mk t ext') ∧ TableStep s.slots (KeyOp.addKey args random).effect t.slots := by
  obtain ⟨dev', slots'⟩ := t
  obtain ⟨i, x, hslot, rfl⟩ := hstep.slots
  obtain ⟨plan, hplan, hix⟩ := map_eq_ok.mp hslot
  cases hix
  have hrun := hstep.run
  simp only [KeyOp.run, luks2AddKey, hplan, runPlan] at hrun
  obtain ⟨pwd, ext₀, j, kdf, md, hpwd, hnewPwd, hread, hfind, hadd, hext⟩ := addKeyPlan_eq_ok hplan
  obtain rfl : ext₀ = ext := some.inj (hread.symm.trans h.read)
  obtain ⟨hkey, hj⟩ := h.findKeyByPwd_eq_ok (hstep.nonempty pwd hpwd) (hstep.honest pwd hpwd) hfind
  rw [hext, hkey] at hrun
  obtain ⟨hnone, hinv⟩ := h.addSlot (h.inUse hj).shaped.keySize hadd hrun
  refine ⟨⟨_, hinv⟩, ?_⟩
  rw [KeyOp.effect, hnewPwd]
  exact .insert hnone

theorem Inv.addKeyByMasterKey (h : Inv P mk s ext) {args : AddByMasterKeyArgs}
    (hstep : KeyStep P mk s (.addKeyByMasterKey args random) t) :
    (∃ ext', Inv P mk t ext') ∧ TableStep s.slots (KeyOp.addKeyByMasterKey args random).effect t.slots := by
  obtain ⟨dev', slots'⟩ := t
  obtain ⟨i, x, hslot, rfl⟩ := hstep.slots
  obtain ⟨plan, hplan, hix⟩ := map_eq_ok.mp hslot
  cases hix
  have hrun := hstep.run
  simp only [KeyOp.run, luks2AddKeyByMasterKey, hplan, runPlan] at hrun
  obtain ⟨ext₀, masterKey, cipher, kdf, md, -, hmasterKey, hpwd, hread, hadd, hext, hkey⟩ :=
    addKeyByMasterKeyPlan_eq_ok hplan
  obtain rfl : ext₀ = ext := some.inj (hread.symm.trans h.read)
  rw [hext, hkey, hstep.passes.2 masterKey hmasterKey] at hrun
  obtain ⟨hnone, hinv⟩ := h.addSlot hstep.passes.1 hadd hrun
  refine ⟨⟨_, hinv⟩, ?_⟩
  rw [KeyOp.effect, hpwd]
  exact .insert hnone

theorem useSlot_self (h : (md.digests 0).keyslots i = true) : useSlot md i (md.keyslots i) = md := by
  unfold useSlot Metadata.setDigest Metadata.setKeyslot
  have hbits : update (md.digests 0).keyslots i true = (md.digests 0).keyslots := by
    rw [← h, update_eq_self]
  rw [hbits, update_eq_self]
  exact congrArg (fun digests => { md with digests := digests }) (update_eq_self 0 md.digests)

theorem Inv.changeKey (h : Inv P mk s ext) {oldPwd newPwd : List Byte}
    (hstep : KeyStep P mk s (.changeKey oldPwd newPwd stripes) t) :
    (∃ ext', Inv P mk t ext') ∧ TableStep s.slots (.replace oldPwd newPwd) t.slots := by
  obtain ⟨dev', slots'⟩ := t
  obtain ⟨i, x, hslot, rfl⟩ := hstep.slots
  obtain ⟨plan, hplan, hix⟩ := map_eq_ok.mp hslot
  cases hix
  have hrun := hstep.run
  simp only [KeyOp.run, luks2ChangeKey, hplan, runPlan] at hrun
  obtain ⟨pwd, hpwd, hnewPwd, hread, hfind⟩ := changeKeyPlan_eq_ok hplan
  cases hpwd
  have hext : plan.ext = ext := some.inj (hread.symm.trans h.read)
  rw [hext] at hfind hrun
  obtain ⟨hkey, hj⟩ := h.findKeyByPwd_eq_ok (hstep.nonempty _ rfl) (hstep.honest _ rfl) hfind
  have hslot := h.inUse hj
  have hself : { ext with md := useSlot ext.md plan.index (ext.md.keyslots plan.index) } = ext := by
    rw [useSlot_self hslot.used]
  have hvalid : (ext.md.keyslots plan.index).Valid := by
    refine h.valid.keyslot _ ?_
    rw [hslot.shaped.type]
    decide
  rw [hkey, ← hself] at hrun
  refine ⟨⟨_, h.commit hslot.shaped (fun _ => hvalid) hrun⟩, ?_⟩
  rw [← some.inj hnewPwd]
  exact .replace hj

theorem Inv.removeKey (h : Inv P mk s ext) {pwd : List Byte} (hstep : KeyStep P mk s (.removeKey pwd) t) :
    (∃ ext', Inv P mk t ext') ∧ TableStep s.slots (.erase pwd) t.slots := by
  obtain ⟨dev', slots'⟩ := t
  obtain ⟨i, x, hslot, rfl⟩ := hstep.slots
  obtain ⟨⟨ext', j⟩, hplan, hix⟩ := map_eq_ok.mp hslot
  cases hix
  obtain ⟨ext₁, i, hplan', hwrite⟩ := luks2RemoveKey_eq_ok hstep.run
  cases hplan.symm.trans hplan'
  obtain ⟨p, ext₀, key, hp, hread, hfind, -, rfl⟩ := removeKeyPlan_eq_ok hplan
  cases hp
  obtain rfl : ext₀ = ext := some.inj (hread.symm.trans h.read)
  obtain ⟨-, hj⟩ := h.findKeyByPwd_eq_ok (hstep.nonempty _ rfl) (hstep.honest _ rfl) hfind
  exact ⟨⟨_, h.remove hwrite⟩, .erase hj⟩

theorem KeyStep.inv {op : KeyOp} (hstep : KeyStep P mk s op t) (h : Inv P mk s ext) :
    (∃ ext', Inv P mk t ext') ∧ TableStep s.slots op.effect t.slots := by
  cases op with
  | addKey args random => exact h.addKey hstep
  | addKeyByMasterKey args random => exact h.addKeyByMasterKey hstep
  | changeKey oldPwd newPwd stripes => exact h.changeKey hstep
  | removeKey pwd => exact h.removeKey hstep

end

end SgxLkl.Luks
