import SgxLkl.Luks.Enrolled
import SgxLkl.Verity.Format

/-!
# The tree on the hash device

* **`vicVerityFormat_tree`**: the hash device holds the tree, top level first, and the result is its root.
* **`vicVerityFormat_binds`**: the root determines the data.
-/

namespace SgxLkl.Verity

open Luks (Bd VicResult Primitives HashType vicHashType vicUuidValid)
open List

/-! ## Blocks -/

def block (bd : Bd) (k : ℕ) : List Byte :=
  readRange bd.file.data (bd.offset.toNat + k * bd.blockSize.toNat) bd.blockSize.toNat

/-- Blocks up to the number `n` have their place. -/
structure Fits (blksz n : ℕ) (bd : Bd) : Prop where
  blockSize : bd.blockSize.toNat = blksz
  pos : 0 < blksz
  le : blksz ≤ 4096
  fits : n * blksz + bd.offset.toNat < 2 ^ 64

variable {d h k m n blksz nblks : ℕ} {bd bd' : Bd} {s s' : Devices} {x blk root : List Byte}
variable {f : Bd → VicResult × Bd} {ds : List (List Byte)} {P : Primitives} {t : HashType}
variable {r : VicResult} {counts : List ℕ} {sb : Bool} {env : Env} {args : Args}

theorem Fits.mono (h : Fits blksz n bd) (hm : m ≤ n) : Fits blksz m bd :=
  { h with fits := (Nat.add_le_add_right (Nat.mul_le_mul_right _ hm) _).trans_lt h.fits }

theorem Fits.toNat (h : Fits blksz n bd) : (BitVec.ofNat 64 n).toNat = n := by
  rw [BitVec.toNat_ofNat]
  refine Nat.mod_eq_of_lt (lt_of_le_of_lt ?_ h.fits)
  exact (Nat.le_mul_of_pos_right n h.pos).trans (Nat.le_add_right _ _)

theorem Fits.exact (h : Fits blksz n bd) : bd.Exact (BitVec.ofNat 64 n) 1 := by
  refine ⟨?_, ?_⟩
  · rw [h.toNat, h.blockSize]
    exact h.fits
  · rw [h.blockSize, show (1 : Word).toNat = 1 from rfl, Nat.one_mul]
    exact h.le.trans_lt (by decide)

theorem getBlock_ok {dev : Devices → Bd}
    (hfits : Fits blksz n (dev s)) (h : getBlock dev n s = .ok blk s') : s' = s ∧ blk = block (dev s) n := by
  unfold getBlock at h
  split at h
  · rename_i blk' hget
    cases h
    obtain ⟨-, rfl⟩ := hfits.exact.get_eq hget
    refine ⟨rfl, ?_⟩
    rw [hfits.toNat, show (1 : Word).toNat = 1 from rfl, Nat.one_mul, block]
  · cases h

theorem onHash_ok (h : onHash f s = .ok () s') : f s.hash = (.ok, s'.hash) ∧ s'.data = s.data := by
  unfold onHash at h
  split at h <;> cases h
  rename_i hf
  exact ⟨hf, rfl⟩

theorem onData_ok (h : onData f s = .ok () s') : f s.data = (.ok, s'.data) ∧ s'.hash = s.hash := by
  unfold onData at h
  split at h <;> cases h
  rename_i hf
  exact ⟨hf, rfl⟩

/-- The devices after some blocks were written to the hash device. -/
structure Wrote (blksz n : ℕ) (s : Devices) (w : ℕ) (blks : List (List Byte)) (s' : Devices) : Prop where
  data : s'.data = s.data
  fits : Fits blksz n s'.hash
  blocks : block s'.hash = writeRange (block s.hash) w blks

theorem block_writeRange (hsize : bd'.blockSize = bd.blockSize)
    (hoffset : bd'.offset = bd.offset) (hlength : blk.length = bd.blockSize.toNat) (hdata : bd'.file.data =
      writeRange bd.file.data (bd.offset.toNat + n * bd.blockSize.toNat) blk) :
    block bd' = writeRange (block bd) n [blk] := by
  funext k
  rw [block, hsize, hoffset, hdata]
  by_cases hk : k = n
  · subst hk
    rw [← hlength, readRange_writeRange, writeRange_apply, if_pos le_rfl, Nat.sub_self]
    rfl
  · rw [writeRange_of_notMem (by rw [length_singleton, Set.mem_Ico]; omega), block]
    refine (same_writeRange _ ?_).readRange
    rw [Set.disjoint_left, hlength]
    simp only [Set.mem_Ico]
    rcases Nat.lt_or_gt_of_ne hk with hlt | hlt
    · have := Nat.mul_le_mul_right bd.blockSize.toNat (Nat.succ_le_of_lt hlt)
      rw [Nat.succ_mul] at this
      omega
    · have := Nat.mul_le_mul_right bd.blockSize.toNat (Nat.succ_le_of_lt hlt)
      rw [Nat.succ_mul] at this
      omega

theorem putHash_ok (hfits : Fits blksz n s.hash) (hk : k ≤ n)
    (hblk : blk.length = blksz) (h : putHash k blk s = .ok () s') : Wrote blksz n s k [blk] s' := by
  obtain ⟨hput, hdata⟩ := onHash_ok h
  have hfits' := hfits.mono hk
  obtain ⟨-, size, hbd, hfile⟩ := hfits'.exact.put_eq hput
  have hsize : s'.hash.blockSize = s.hash.blockSize := by rw [hbd]
  have hoffset : s'.hash.offset = s.hash.offset := by rw [hbd]
  refine ⟨hdata, ⟨hsize ▸ hfits.blockSize, hfits.pos, hfits.le, hoffset ▸ hfits.fits⟩, ?_⟩
  refine block_writeRange hsize hoffset (hblk.trans hfits.blockSize.symm) ?_
  rw [hfile, hfits'.toNat, show (1 : Word).toNat = 1 from rfl, Nat.one_mul, hfits.blockSize,
    take_of_length_le hblk.le]

theorem Wrote.refl (hfits : Fits blksz n s.hash) (w : ℕ) : Wrote blksz n s w [] s :=
  ⟨rfl, hfits, (writeRange_nil _ _).symm⟩

theorem Wrote.trans {w : ℕ} {s'' : Devices} {blks blks' : List (List Byte)}
    (h : Wrote blksz n s w blks s') (h' : Wrote blksz n s' (w + blks.length) blks' s'') :
    Wrote blksz n s w (blks ++ blks') s'' :=
  ⟨h'.data.trans h.data, h'.fits, by rw [h'.blocks, h.blocks, writeRange_append]⟩

theorem length_zeros (blksz : ℕ) : (zeros blksz).length = blksz := length_replicate

theorem putZeros_ok {i : ℕ} (hfits : Fits blksz n s.hash) (hn : i + k ≤ n + 1)
    (h : putZeros blksz k i s = .ok () s') : Wrote blksz n s i (replicate k (zeros blksz)) s' := by
  induction k generalizing i s with
  | zero =>
    cases h
    exact .refl hfits i
  | succ k ih =>
    rw [putZeros, bind_eq_ok_iff] at h
    obtain ⟨_, s₁, hput, h⟩ := h
    have hfirst := putHash_ok hfits (by omega) (length_zeros blksz) hput
    exact hfirst.trans (ih hfirst.fits (by rw [length_singleton]; omega) h)

/-! ## Nodes -/

def digest (P : Primitives) (t : HashType) (salt blk : List Byte) : List Byte := P.hash t (salt ++ blk)

/-- Digests one behind the other, and zeros. -/
def packNode (blksz : ℕ) (ds : List (List Byte)) : List Byte :=
  ds.flatten ++ replicate (blksz - ds.flatten.length) 0

theorem packNode_nil (blksz : ℕ) : packNode blksz [] = zeros blksz := rfl

theorem length_flatten_of (hds : ∀ x ∈ ds, x.length = h) : ds.flatten.length = ds.length * h := by
  rw [length_flatten, map_congr_left hds, map_const', sum_replicate, smul_eq_mul]

theorem length_packNode (hds : ∀ x ∈ ds, x.length = h)
    (hle : ds.length * h ≤ blksz) : (packNode blksz ds).length = blksz := by
  rw [packNode, length_append, length_replicate, length_flatten_of hds]
  omega

theorem memcpy_packNode (hds : ∀ y ∈ ds, y.length = h)
    (hx : x.length = h) : memcpy (packNode blksz ds) (ds.length * h) x = packNode blksz (ds ++ [x]) := by
  have hlength := length_flatten_of hds
  rw [memcpy, packNode, packNode, ← hlength, take_left, drop_append, drop_eq_nil_of_le (by omega),
    flatten_append, flatten_singleton, nil_append, append_assoc, length_append,
    Nat.add_sub_cancel_left, drop_replicate, Nat.sub_sub]

theorem memcpy_zeros (hx : x.length = h) : memcpy (zeros blksz) 0 x = packNode blksz [x] := by
  have hfirst : memcpy (packNode blksz []) (([] : List (List Byte)).length * h) x = packNode blksz ([] ++ [x]) :=
    memcpy_packNode (fun y hy => absurd hy not_mem_nil) hx
  rwa [length_nil, Nat.zero_mul, packNode_nil, nil_append] at hfirst

theorem vicHash2_eq_ok {s1 s2 h : List Byte} : vicHash2 P t s1 s2 s = .ok h s' ↔
    t ≠ .ripemd160 ∧ h = digest P t s1 s2 ∧ s' = s := by
  unfold vicHash2
  split_ifs with ht
  · exact ⟨nofun, fun h => absurd ht h.1⟩
  · exact ⟨fun h => by cases h; exact ⟨ht, rfl, rfl⟩, by rintro ⟨-, rfl, rfl⟩; rfl⟩

/-- A block is read and hashed. -/
theorem getBlock_vicHash2_ok {α : Type} {dev : Devices → Bd} {salt : List Byte} {next : List Byte → VerityM α} {a : α}
    (hfits : Fits blksz n (dev s))
    (h : (getBlock dev n >>= fun blk => vicHash2 P t salt blk >>= next) s = .ok a s') :
    next (digest P t salt (block (dev s) n)) s = .ok a s' := by
  obtain ⟨blk, _, hget, h⟩ := bind_eq_ok_iff.mp h
  obtain ⟨rfl, rfl⟩ := getBlock_ok hfits hget
  obtain ⟨_, _, hhash, h⟩ := bind_eq_ok_iff.mp h
  obtain ⟨-, rfl, rfl⟩ := vicHash2_eq_ok.mp hhash
  exact h

theorem length_digest (P : Primitives) (t : HashType) (salt blk : List Byte) :
    (digest P t salt blk).length = t.size := P.length_hash t _

section Levels

variable {P : Primitives} {t : HashType} {salt : List Byte} {blksz n : ℕ}

variable {d k m p w : ℕ} {L cur : List (List Byte)} {r last : List Byte} {s s' : Devices}

theorem size_le_iff (ht : 0 < t.size) : k * t.size + t.size ≤ blksz ↔ k < blksz / t.size := by
  rw [← Nat.succ_mul, ← Nat.le_div_iff_mul_le ht, Nat.succ_le_iff]

theorem size_pos (t : HashType) : 0 < t.size := by cases t <;> decide

/-- **The nodes above the data.** -/
theorem leafLoop_ok {i : ℕ} {ds : List (List Byte)}
    (hd : 0 < blksz / t.size) (hfits : Fits blksz n s.hash) (hdata : Fits blksz (i + k) s.data)
    (hcur : ∀ x ∈ cur, x.length = t.size) (hle : cur.length ≤ blksz / t.size)
    (hds : (readRange (block s.data) i k).map (digest P t salt) = ds)
    (hn : w + (chunks (blksz / t.size) (cur ++ ds)).length ≤ n + 1)
    (h : leafLoop P t salt blksz k i (w * blksz) (packNode blksz cur) (cur.length * t.size) last s = .ok r s') :
    Wrote blksz n s w ((chunks (blksz / t.size) (cur ++ ds)).map (packNode blksz)) s' ∧
      r = ((chunks (blksz / t.size) (cur ++ ds)).map (packNode blksz)).getLast?.getD last := by
  have hfull : ∀ xs : List (List Byte), (∀ x ∈ xs, x.length = t.size) → xs.length ≤ blksz / t.size →
      (packNode blksz xs).length = blksz := fun xs hxs hle =>
    length_packNode hxs ((Nat.le_div_iff_mul_le (size_pos t)).mp hle)
  induction k generalizing i w cur ds last s with
  | zero =>
    rw [leafLoop, Nat.mul_div_cancel _ hfits.pos] at h
    have hnil : ds = [] := hds.symm
    subst hnil
    rw [append_nil] at hn ⊢
    rcases eq_or_ne cur [] with rfl | hne
    · rw [length_nil, Nat.zero_mul, if_neg (lt_irrefl 0)] at h
      cases h
      rw [chunks_nil hd]
      exact ⟨.refl hfits w, rfl⟩
    · have hpos : 0 < cur.length * t.size := Nat.mul_pos (length_pos_iff.mpr hne) (size_pos t)
      rw [if_pos hpos, bind_eq_ok_iff] at h
      obtain ⟨_, s₁, hput, h⟩ := h
      cases h
      rw [chunks_of_length_le hd hne hle] at hn ⊢
      exact ⟨putHash_ok hfits (by simpa using hn) (hfull cur hcur hle) hput, rfl⟩
  | succ k ih =>
    replace h := getBlock_vicHash2_ok (hdata.mono (Nat.le_add_right i (k + 1))) h
    rw [readRange_succ, map_cons] at hds
    subst hds
    have hx := length_digest P t salt (block s.data i)
    have hdata' : Fits blksz (i + 1 + k) s.data := hdata.mono (by omega)
    by_cases hroom : cur.length < blksz / t.size
    · -- the digest goes into the current node
      rw [if_neg (Nat.not_lt.mpr ((size_le_iff (size_pos t)).mpr hroom)), memcpy_packNode hcur hx] at h
      rw [append_cons] at hn ⊢
      refine ih hfits hdata' ?_ ?_ rfl hn ?_
      · intro y hy
        rcases mem_append.mp hy with hy | hy
        · exact hcur y hy
        · rw [mem_singleton.mp hy, hx]
      · rw [length_append, length_singleton]
        exact hroom
      · rw [length_append, length_singleton, Nat.succ_mul]
        exact h
    · -- the current node is full
      have hcurlength : cur.length = blksz / t.size := le_antisymm hle (Nat.not_lt.mp hroom)
      rw [if_pos (Nat.not_le.mp (mt (size_le_iff (size_pos t)).mp hroom)), bind_eq_ok_iff,
        Nat.mul_div_cancel _ hfits.pos] at h
      obtain ⟨_, s₁, hput, h⟩ := h
      rw [chunks_append hd hcurlength, length_cons] at hn
      have hfirst := putHash_ok hfits (by omega) (hfull cur hcur hle) hput
      rw [memcpy_zeros hx] at h
      have hone : ∀ y ∈ [digest P t salt (block s.data i)], y.length = t.size := fun y hy => by
        rw [mem_singleton.mp hy, hx]
      have h : leafLoop P t salt blksz k (i + 1) ((w + 1) * blksz) (packNode blksz [digest P t salt (block s.data i)])
          ([digest P t salt (block s.data i)].length * t.size) (packNode blksz cur) s₁ = .ok r s' := by
        rw [length_singleton, Nat.one_mul, Nat.succ_mul]
        exact h
      obtain ⟨hwrote, hr⟩ := ih hfirst.fits (hfirst.data ▸ hdata') hone hd (by rw [hfirst.data])
        (by rw [singleton_append]; omega) h
      rw [chunks_append hd hcurlength, map_cons]
      refine ⟨hfirst.trans hwrote, hr.trans ?_⟩
      rw [getLast?_cons, Option.getD_some, singleton_append]

theorem getLast?_of_getD (hL : 0 < L.length) (h : r = L.getLast?.getD last) : L.getLast? = some r := by
  rw [getLast?_eq_some_getLast (length_pos_iff.mp hL)] at h ⊢
  rw [h, Option.getD_some]

theorem leaves_ok {nblks : ℕ}
    (hL : L = parents (digest P t salt) (packNode blksz) (blksz / t.size) (readRange (block s.data) 0 nblks))
    (hd : 0 < blksz / t.size) (hfits : Fits blksz n s.hash) (hdata : Fits blksz nblks s.data) (hpos : 0 < L.length)
    (hn : w + L.length ≤ n + 1)
    (h : leafLoop P t salt blksz nblks 0 (w * blksz) (zeros blksz) 0 last s = .ok r s') :
    Wrote blksz n s w L s' ∧ L.getLast? = some r := by
  have hchunks : (chunks (blksz / t.size)
      ([] ++ (readRange (block s.data) 0 nblks).map (digest P t salt))).map (packNode blksz) = L := hL.symm
  have h : leafLoop P t salt blksz nblks 0 (w * blksz) (packNode blksz [])
      (([] : List (List Byte)).length * t.size) last s = .ok r s' := by
    rw [length_nil, Nat.zero_mul]
    exact h
  obtain ⟨hwrote, hr⟩ := leafLoop_ok hd hfits (by rwa [Nat.zero_add]) (fun x hx => absurd hx not_mem_nil)
    (Nat.zero_le _) rfl (by rwa [← length_map, hchunks]) h
  rw [hchunks] at hwrote hr
  exact ⟨hwrote, getLast?_of_getD hpos hr⟩

theorem fillNode_ok {r : ℕ × ℕ × List Byte}
    (hfits : Fits blksz (p + m) s.hash) (hcur : ∀ x ∈ cur, x.length = t.size)
    (h : fillNode P t salt blksz m (p * blksz) (packNode blksz cur) (cur.length * t.size) s = .ok r s') :
    ∃ k, k = min m (blksz / t.size - cur.length) ∧ s' = s ∧ r = (m - k, (p + k) * blksz,
        packNode blksz (cur ++ (readRange (block s.hash) p k).map (digest P t salt))) := by
  induction m generalizing p cur with
  | zero =>
    rw [fillNode] at h
    cases h
    exact ⟨0, (Nat.zero_min _).symm, rfl, by rw [Nat.add_zero]; simp [readRange]⟩
  | succ m ih =>
    rw [fillNode] at h
    by_cases hroom : cur.length < blksz / t.size
    · rw [if_pos ((size_le_iff (size_pos t)).mpr hroom), Nat.mul_div_cancel _ hfits.pos] at h
      replace h := getBlock_vicHash2_ok (hfits.mono (Nat.le_add_right p (m + 1))) h
      have hx := length_digest P t salt (block s.hash p)
      rw [memcpy_packNode hcur hx] at h
      have hcur' : ∀ y ∈ cur ++ [digest P t salt (block s.hash p)], y.length = t.size := by
        intro y hy
        rcases mem_append.mp hy with hy | hy
        · exact hcur y hy
        · rw [mem_singleton.mp hy, hx]
      have h : fillNode P t salt blksz m ((p + 1) * blksz) (packNode blksz (cur ++ [digest P t salt (block s.hash p)]))
          ((cur ++ [digest P t salt (block s.hash p)]).length * t.size) s = .ok r s' := by
        rw [length_append, length_singleton, Nat.succ_mul, Nat.succ_mul]
        exact h
      obtain ⟨k, hk, hs, hr⟩ := ih (hfits.mono (by omega)) hcur' h
      rw [length_append, length_singleton] at hk
      refine ⟨k + 1, by omega, hs, hr.trans ?_⟩
      rw [readRange_succ, map_cons, append_assoc, singleton_append, Nat.succ_sub_succ,
        Nat.add_assoc p, Nat.add_comm 1]
    · rw [if_neg (mt (size_le_iff (size_pos t)).mp hroom)] at h
      cases h
      exact ⟨0, by omega, rfl, by rw [Nat.add_zero]; simp [readRange]⟩

/-- **The nodes above other nodes.** They are written in front of those that are read. -/
theorem writeLevel_ok (hd : 0 < blksz / t.size)
    (hfits : Fits blksz n s.hash) (hn : p + m ≤ n) (hk : k = (m + blksz / t.size - 1) / (blksz / t.size))
    (hw : w + k ≤ p) (h : writeLevel P t salt blksz k m (p * blksz) (w * blksz) last s = .ok r s') :
    Wrote blksz n s w (parents (digest P t salt) (packNode blksz) (blksz / t.size)
        (readRange (block s.hash) p m)) s' ∧
      r = (parents (digest P t salt) (packNode blksz) (blksz / t.size)
        (readRange (block s.hash) p m)).getLast?.getD last := by
  induction k generalizing m p w last s with
  | zero =>
    rw [writeLevel] at h
    cases h
    have hm : m = 0 := by
      by_contra hm
      have := (Nat.div_eq_zero_iff_lt hd).mp hk.symm
      omega
    subst hm
    rw [parents, show readRange (block s'.hash) p 0 = [] from rfl, map_nil, chunks_nil hd]
    exact ⟨.refl hfits w, rfl⟩
  | succ k ih =>
    have hm : 0 < m := by
      by_contra hm
      rw [Nat.eq_zero_of_not_pos hm, Nat.zero_add, Nat.div_eq_of_lt (by omega)] at hk
      omega
    rw [writeLevel, bind_eq_ok_iff] at h
    obtain ⟨⟨m', p', node⟩, s₁, hfill, h⟩ := h
    have hfill : fillNode P t salt blksz m (p * blksz) (packNode blksz []) (([] : List (List Byte)).length * t.size)
        s = .ok (m', p', node) s₁ := by
      rw [length_nil, Nat.zero_mul]
      exact hfill
    obtain ⟨c, hc, rfl, hr⟩ := fillNode_ok (hfits.mono hn) (fun x hx => absurd hx not_mem_nil) hfill
    rw [length_nil, Nat.sub_zero] at hc
    rw [Prod.mk.injEq, Prod.mk.injEq, nil_append] at hr
    obtain ⟨rfl, rfl, rfl⟩ := hr
    rw [bind_eq_ok_iff, Nat.mul_div_cancel _ hfits.pos] at h
    obtain ⟨_, s₂, hput, h⟩ := h
    have hdigests : ∀ x ∈ (readRange (block s₁.hash) p c).map (digest P t salt), x.length = t.size := by
      intro x hx
      obtain ⟨blk, -, rfl⟩ := mem_map.mp hx
      exact length_digest P t salt blk
    have hroom : ((readRange (block s₁.hash) p c).map (digest P t salt)).length * t.size ≤ blksz := by
      rw [length_map, length_readRange, ← Nat.le_div_iff_mul_le (size_pos t)]
      omega
    have hlength := length_packNode hdigests hroom
    have hfirst := putHash_ok hfits (by omega) hlength hput
    -- the blocks that are left are behind the node
    have hrest : readRange (block s₂.hash) (p + c) (m - c) = readRange (block s₁.hash) (p + c) (m - c) := by
      rw [hfirst.blocks]
      refine (same_writeRange _ ?_).readRange
      rw [Set.disjoint_left, length_singleton]
      simp only [Set.mem_Ico]
      omega
    have hsplit : readRange (block s₁.hash) p m =
        readRange (block s₁.hash) p c ++ readRange (block s₁.hash) (p + c) (m - c) := by
      rw [← readRange_add, Nat.add_sub_cancel' (by omega)]
    have hcount : k = (m - c + blksz / t.size - 1) / (blksz / t.size) := by
      rcases le_total m (blksz / t.size) with hle | hle
      · rw [hc, min_eq_left hle, Nat.sub_self, Nat.zero_add, Nat.div_eq_of_lt (by omega)]
        have : (m + blksz / t.size - 1) / (blksz / t.size) = 1 := Nat.div_eq_of_lt_le (by omega) (by omega)
        omega
      · rw [show m + blksz / t.size - 1 = (m - c + blksz / t.size - 1) + blksz / t.size by omega,
          Nat.add_div_right _ hd] at hk
        omega
    have h : writeLevel P t salt blksz k (m - c) ((p + c) * blksz) ((w + 1) * blksz)
        (packNode blksz ((readRange (block s₁.hash) p c).map (digest P t salt))) s₂ = .ok r s' := by
      rw [Nat.succ_mul w]
      exact h
    obtain ⟨hwrote, hr⟩ := ih hfirst.fits (by omega) hcount (by omega) h
    rw [hrest] at hwrote hr
    have hparents : parents (digest P t salt) (packNode blksz) (blksz / t.size) (readRange (block s₁.hash) p m) =
        packNode blksz ((readRange (block s₁.hash) p c).map (digest P t salt)) ::
          parents (digest P t salt) (packNode blksz) (blksz / t.size)
            (readRange (block s₁.hash) (p + c) (m - c)) := by
      rw [hsplit]
      refine parents_append _ _ _ hd ?_ ?_ ?_
      · rw [← length_pos_iff, length_readRange]
        omega
      · rw [length_readRange]
        omega
      · rw [length_readRange]
        rcases le_total m (blksz / t.size) with hle | hle
        · refine Or.inr ?_
          rw [hc, min_eq_left hle, Nat.sub_self]
          rfl
        · exact Or.inl (hc.trans (min_eq_right hle))
    rw [hparents]
    refine ⟨hfirst.trans hwrote, hr.trans ?_⟩
    rw [getLast?_cons, Option.getD_some]

theorem nodeCounts_eq_cons {c : ℕ} {cs : List ℕ} (hd : 0 < d) (h : nodeCounts d k m = some (c :: cs)) :
    1 < m ∧ c = (m + d - 1) / d ∧ ∃ k, nodeCounts d k c = some cs := by
  cases k with
  | zero =>
    rw [nodeCounts] at h
    split_ifs at h
    cases h
  | succ k =>
    rw [nodeCounts] at h
    split_ifs at h with hle
    · cases h
    · dsimp only at h
      obtain ⟨cs', hcs', h⟩ := Option.map_eq_some_iff.mp h
      cases h
      rw [vicRoundUp, Nat.mul_div_cancel _ hd] at hcs' ⊢
      exact ⟨Nat.not_le.mp hle, rfl, k, hcs'⟩

theorem nodeCounts_eq_nil (h : nodeCounts d k m = some []) : m ≤ 1 := by
  cases k with
  | zero =>
    rw [nodeCounts] at h
    split_ifs at h with hle
    exact hle
  | succ k =>
    rw [nodeCounts] at h
    split_ifs at h with hle
    · exact hle
    · obtain ⟨cs', -, h⟩ := Option.map_eq_some_iff.mp h
      cases h

theorem sum_map_mul (cs : List ℕ) (blksz : ℕ) (sb : Bool) :
    ((cs.map (· * blksz)).sum + if sb then blksz else 0) = (cs.sum + sb.toNat) * blksz := by
  rw [sum_map_mul_right, map_id', Nat.add_mul]
  cases sb <;> simp

/-- **All levels above a level.** -/
theorem writeLevels_ok {sb : Bool} {rest : List (List Byte)} {counts : List ℕ} {f : ℕ → List Byte}
    (hd : 2 ≤ blksz / t.size) (hfits : Fits blksz n s.hash)
    (hcounts : nodeCounts (blksz / t.size) k L.length = some counts) (hlast : L.getLast? = some last)
    (hn : counts.sum + sb.toNat + L.length ≤ n) (hblocks : block s.hash =
      writeRange f 0 (replicate (counts.sum + sb.toNat) (zeros blksz) ++ (L ++ rest)))
    (h : writeLevels P t salt blksz sb L.length counts last s = .ok r s') :
    s'.data = s.data ∧ Fits blksz n s'.hash ∧
      block s'.hash = writeRange f 0 (replicate sb.toNat (zeros blksz) ++
        ((levelsAbove (digest P t salt) (packNode blksz) (blksz / t.size) L).reverse.flatten ++ (L ++ rest))) ∧
      ∀ bs, parents (digest P t salt) (packNode blksz) (blksz / t.size) bs = L →
        treeRoot (digest P t salt) (packNode blksz) (blksz / t.size) bs = some (digest P t salt r) := by
  have hpos : 0 < blksz / t.size := by omega
  induction counts generalizing L rest k last s with
  | nil =>
    rw [writeLevels] at h
    cases h
    have hle := nodeCounts_eq_nil hcounts
    rw [levelsAbove, if_pos (by omega)]
    refine ⟨rfl, hfits, ?_, fun bs hbs => ?_⟩
    · rw [hblocks, sum_nil, Nat.zero_add]
      rfl
    · -- the level has a single node
      have hpos' := length_pos_of_mem (mem_of_getLast? hlast)
      obtain ⟨node, rfl⟩ := length_eq_one_iff.mp (show L.length = 1 by omega)
      cases hlast
      rw [treeRoot, treeLevels_of_lt (by rw [hbs]; exact Nat.one_lt_two), hbs]
      rfl
  | cons c cs ih =>
    obtain ⟨hlt, hc, k, hcs⟩ := nodeCounts_eq_cons hpos hcounts
    set L' := parents (digest P t salt) (packNode blksz) (blksz / t.size) L with hL'
    have hlength : L'.length = c := (length_parents _ _ _ L).trans hc.symm
    rw [sum_cons] at hn hblocks
    rw [writeLevels, bind_eq_ok_iff] at h
    obtain ⟨last', s₁, hlevel, h⟩ := h
    rw [sum_map_mul, sum_map_mul, sum_cons] at hlevel
    have hread : readRange (block s.hash) (c + cs.sum + sb.toNat) L.length = L := by
      have := readRange_middle f 0 (replicate (c + cs.sum + sb.toNat) (zeros blksz)) L rest
      rwa [Nat.zero_add, length_replicate, ← hblocks] at this
    obtain ⟨hwrote, hlast'⟩ := writeLevel_ok hpos hfits hn hc (by omega) hlevel
    rw [hread, ← hL'] at hwrote hlast'
    have hblocks' : block s₁.hash =
        writeRange f 0 (replicate (cs.sum + sb.toNat) (zeros blksz) ++ (L' ++ (L ++ rest))) := by
      have hsum : c + cs.sum + sb.toNat = cs.sum + sb.toNat + c := by omega
      rw [hwrote.blocks, hblocks, hsum, writeRange_replicate f _ hlength]
    have hone : 0 < L'.length := by
      rw [hlength, hc]
      exact Nat.div_pos (by omega) hpos
    have hne := getLast?_of_getD hone hlast'
    rw [← hlength] at hcs h
    obtain ⟨hdata, hfits', hblocks'', hroot⟩ :=
      ih hwrote.fits hcs hne (by rw [hlength]; omega) hblocks' h
    refine ⟨hdata.trans hwrote.data, hfits', ?_, fun bs hbs => ?_⟩
    · rw [hblocks'', levelsAbove_of_le hd (Nat.succ_le_of_lt hlt), reverse_cons, flatten_append,
        flatten_singleton, append_assoc]
    · rw [treeRoot_of_le hd (by rw [hbs]; omega), hbs]
      exact hroot L hL'.symm

end Levels

/-! ## The whole function -/

theorem raiseIf_eq_ok {c : Prop} [Decidable c] {u : Unit} : raiseIf c r s = .ok u s' ↔ ¬ c ∧ s' = s := by
  unfold raiseIf
  split_ifs with hc
  · exact ⟨nofun, fun h => absurd hc h.1⟩
  · exact ⟨fun h => by cases h; exact ⟨hc, rfl⟩, by rintro ⟨-, rfl⟩; rfl⟩

theorem orRaise_eq_ok {α : Type} {o : Option α} {a : α} : orRaise r o s = .ok a s' ↔ o = some a ∧ s' = s := by
  cases o with
  | none => exact ⟨nofun, nofun⟩
  | some b => exact ⟨fun h => by cases h; exact ⟨rfl, rfl⟩, by rintro ⟨⟨⟩, rfl⟩; rfl⟩

theorem sum_nodeCounts_le (hd : 8 ≤ d) (h : nodeCounts d k m = some counts) : counts.sum ≤ m := by
  induction counts generalizing k m with
  | nil => exact Nat.zero_le m
  | cons c cs ih =>
    obtain ⟨hlt, hc, k, hcs⟩ := nodeCounts_eq_cons (by omega) h
    have hle := ih hcs
    have hceil : c ≤ (m + 7) / 8 := by
      rw [hc, ← Nat.ceilDiv_eq_add_pred_div, ceilDiv_le_iff_le_mul (by omega)]
      exact le_trans (by omega : m ≤ 8 * ((m + 7) / 8)) (Nat.mul_le_mul_right _ hd)
    rw [sum_cons]
    omega

theorem eight_le (t : HashType) (h : 512 ≤ blksz) : 8 ≤ blksz / t.size := by
  rw [Nat.le_div_iff_mul_le (size_pos t)]
  have : t.size ≤ 64 := by cases t <;> decide
  omega

theorem offset_lt (hsize : s.hash.blockSize.toNat = blksz) (hblksz : blksz ≤ 4096)
    (h : putZeros blksz (k + 1) 0 s = .ok () s') : s.hash.offset.toNat < 2 ^ 63 := by
  rw [putZeros, bind_eq_ok_iff] at h
  obtain ⟨_, s₁, hput, -⟩ := h
  have hexact : s.hash.Exact 0 1 := by
    refine ⟨?_, ?_⟩
    · rw [show (0 : Word).toNat = 0 from rfl, Nat.zero_mul, Nat.zero_add]
      exact s.hash.offset.isLt
    · rw [hsize, show (1 : Word).toNat = 1 from rfl, Nat.one_mul]
      exact hblksz.trans_lt (by decide)
  have hseeks := (hexact.put_eq (onHash_ok hput).1).1
  rw [zero_mul, zero_add] at hseeks
  exact of_decide_eq_true hseeks

/-- The first block is read, so the device does not begin behind its end. -/
theorem fits_data {salt node last r : List Byte} {offset nodeOffset : ℕ} (hsize : s.data.blockSize.toNat = blksz)
    (hpos : 0 < blksz) (hblksz : blksz ≤ 4096) (hnblks : nblks = s.data.getSize.toNat / blksz) (htwo : 0 < nblks)
    (h : leafLoop P t salt blksz nblks 0 offset node nodeOffset last s = .ok r s') : Fits blksz nblks s.data := by
  obtain ⟨k, hk⟩ := Nat.exists_eq_succ_of_ne_zero htwo.ne'
  rw [hk, leafLoop, bind_eq_ok_iff] at h
  obtain ⟨blk, s₁, hget, -⟩ := h
  have hfits : Fits blksz 0 s.data := ⟨hsize, hpos, hblksz, by rw [Nat.zero_mul, Nat.zero_add]; exact s.data.offset.isLt⟩
  have hinside : s.data.Inside 0 1 := by
    unfold getBlock at hget
    split at hget
    · rename_i hget'
      exact (hfits.exact.get_eq hget').1
    · cases hget
  rw [Bd.Inside, show (0 : Word).toNat = 0 from rfl, Nat.zero_mul, Nat.add_zero] at hinside
  have hle : s.data.offset.toNat ≤ s.data.size.toNat := by omega
  have hgetSize : s.data.getSize.toNat = s.data.size.toNat - s.data.offset.toNat := BitVec.toNat_sub_of_le hle
  have hlt := s.data.size.isLt
  have hmul : nblks * blksz ≤ s.data.size.toNat - s.data.offset.toNat := by
    rw [hnblks, ← hgetSize]
    exact Nat.div_mul_le_self _ _
  exact ⟨hsize, hpos, hblksz, by omega⟩

/-- The number of blocks that are filled with zeros. -/
def filled (blksz nblks : ℕ) : ℕ := nblks + (4096 - nblks * blksz) / blksz

theorem fillHash_ok (hfits : Fits blksz n s.hash)
    (hn : filled blksz nblks ≤ n + 1) (h : fillHash blksz nblks s = .ok () s') :
    Wrote blksz n s 0 (replicate (filled blksz nblks) (zeros blksz)) s' := by
  unfold filled at *
  rw [fillHash, bind_eq_ok_iff] at h
  obtain ⟨_, s₁, hfirst, h⟩ := h
  have hwrote := putZeros_ok hfits (by rw [Nat.zero_add]; exact (Nat.le_add_right _ _).trans hn) hfirst
  split_ifs at h with hlt
  · have hpad := putZeros_ok hwrote.fits hn h
    rw [← replicate_append_replicate]
    exact hwrote.trans (by rwa [Nat.zero_add, length_replicate])
  · cases h
    rw [Nat.sub_eq_zero_of_le (Nat.not_lt.mp hlt), Nat.zero_div, Nat.add_zero]
    exact hwrote

theorem length_superblock (t : HashType) (uuid : List.Vector Byte 16) (salt : List Byte) (blksz nblks : ℕ) :
    (superblock t uuid salt blksz nblks).length = 512 := by
  simp [superblock, field, littleEndian]

def superblocks (args : Args) (env : Env) (t : HashType) (uuid : List.Vector Byte 16) (blksz nblks : ℕ) :
    List (List Byte) :=
  if args.needSuperblock then [memcpy (zeros blksz) 0 (superblock t uuid (args.saltOr env t) blksz nblks)] else []

theorem writeSuperblock_ok {bytes : List Byte} {rest : List (List Byte)}
    {f : ℕ → List Byte} (hfits : Fits blksz n s.hash) (hbytes : bytes.length ≤ blksz)
    (hblocks : block s.hash = writeRange f 0 (replicate sb.toNat (zeros blksz) ++ rest))
    (h : writeSuperblock sb blksz bytes s = .ok () s') : s'.data = s.data ∧ block s'.hash =
      writeRange f 0 ((if sb then [memcpy (zeros blksz) 0 bytes] else []) ++ rest) := by
  unfold writeSuperblock at h
  cases sb with
  | false =>
    cases h
    exact ⟨rfl, hblocks⟩
  | true =>
    have hlength : (memcpy (zeros blksz) 0 bytes).length = blksz := by
      rw [memcpy, take_zero, nil_append, length_append, length_drop, length_zeros]
      omega
    have hwrote := putHash_ok hfits (Nat.zero_le n) hlength h
    refine ⟨hwrote.data, hwrote.blocks.trans ?_⟩
    rw [hblocks]
    exact writeRange_replicate f (zeros blksz) (p := 0) (n := 1) rfl

theorem fits_hash (hd : 8 ≤ d) (hle : 512 ≤ blksz) (hblksz : blksz ≤ 4096) (hhash : s.hash.blockSize.toNat = blksz)
    (hmul : nblks * blksz < 2 ^ 64) (hpos : 0 < nblks)
    (hcounts : nodeCounts d k ((nblks + d - 1) / d) = some counts)
    (h : fillHash blksz ((nblks + d - 1) / d + counts.sum + sb.toNat) s = .ok () s') :
    Fits blksz (filled blksz ((nblks + d - 1) / d + counts.sum + sb.toNat)) s.hash := by
  have hsum := sum_nodeCounts_le hd hcounts
  have hceil : (nblks + d - 1) / d ≤ (nblks + 7) / 8 := by
    rw [← Nat.ceilDiv_eq_add_pred_div, ceilDiv_le_iff_le_mul (by omega)]
    exact le_trans (by omega : nblks ≤ 8 * ((nblks + 7) / 8)) (Nat.mul_le_mul_right _ hd)
  have hone : 0 < (nblks + d - 1) / d := Nat.div_pos (by omega) (by omega)
  have hsb : sb.toNat ≤ 1 := Bool.toNat_le sb
  set nleaves := (nblks + d - 1) / d
  have hoffset : s.hash.offset.toNat < 2 ^ 63 := by
    rw [fillHash, bind_eq_ok_iff] at h
    obtain ⟨_, s₁, hzeros, -⟩ := h
    obtain ⟨j, hj⟩ := Nat.exists_eq_succ_of_ne_zero (show nleaves + counts.sum + sb.toNat ≠ 0 by omega)
    rw [hj] at hzeros
    exact offset_lt hhash hblksz hzeros
  refine ⟨hhash, by omega, hblksz, ?_⟩
  have hpad : (4096 - (nleaves + counts.sum + sb.toNat) * blksz) / blksz ≤ 8 :=
    Nat.div_le_of_le_mul (by omega)
  have hfilled : filled blksz (nleaves + counts.sum + sb.toNat) ≤ nblks / 4 + 12 := by
    unfold filled
    omega
  have hproduct : filled blksz (nleaves + counts.sum + sb.toNat) * blksz ≤ nblks / 4 * blksz + 12 * blksz := by
    rw [← Nat.add_mul]
    exact Nat.mul_le_mul_right _ hfilled
  have hquarter : 4 * (nblks / 4 * blksz) ≤ nblks * blksz := by
    rw [← Nat.mul_assoc]
    exact Nat.mul_le_mul_right _ (Nat.mul_div_le nblks 4)
  omega

/-- **What is written.** -/
theorem formatWith_ok (h : formatWith P env args t blksz nblks s = .ok root s') (hle : 512 ≤ blksz)
    (hblksz : blksz ≤ 4096) (hdata : s.data.blockSize.toNat = blksz) (hhash : s.hash.blockSize.toNat = blksz)
    (hnblks : nblks = s.data.getSize.toNat / blksz) (hpos : 0 < nblks) :
    ∃ uuid, env.uuidStr2bin (args.uuidOr env) = some uuid ∧ s'.data = s.data ∧
      treeRoot (digest P t (args.saltOr env t)) (packNode blksz) (blksz / t.size)
        (readRange (block s.data) 0 nblks) = some root ∧
      ∃ pad, block s'.hash = writeRange (block s.hash) 0 (superblocks args env t uuid blksz nblks ++
        ((treeLevels (digest P t (args.saltOr env t)) (packNode blksz) (blksz / t.size)
          (readRange (block s.data) 0 nblks)).reverse.flatten ++ replicate pad (zeros blksz))) := by
  have hd := eight_le t hle
  unfold formatWith at h
  dsimp only at h
  rw [vicRoundUp, Nat.mul_div_cancel _ (by omega)] at h
  set nleaves := (nblks + blksz / t.size - 1) / (blksz / t.size) with hnleaves
  simp only [bind_eq_ok_iff, orRaise_eq_ok, raiseIf_eq_ok, vicHash2_eq_ok, sum_cons, Nat.add_sub_cancel_left] at h
  obtain ⟨counts, s₀, ⟨hcounts, rfl⟩, _, s₁, hfill, last, s₂, hleaf, last', s₃, hlevels, root', _, ⟨-, rfl, rfl⟩,
    _, _, ⟨-, rfl⟩, uuid, _, ⟨huuid, rfl⟩, _, s₄, hsb, h⟩ := h
  cases h
  have hsb' : (if args.needSuperblock then 1 else 0) = args.needSuperblock.toNat := by
    cases args.needSuperblock <;> rfl
  rw [hsb'] at hfill
  have hmul : nblks * blksz < 2 ^ 64 := by
    rw [hnblks]
    exact (Nat.div_mul_le_self _ _).trans_lt s₀.data.getSize.isLt
  have hfits := fits_hash hd hle hblksz hhash hmul hpos hcounts hfill
  rw [← hnleaves] at hfits
  have hfilled := fillHash_ok hfits (Nat.le_succ _) hfill
  -- the leaves
  have hfitsData : Fits blksz nblks s₁.data :=
    fits_data (hfilled.data ▸ hdata) (by omega) hblksz (hfilled.data ▸ hnblks) hpos hleaf
  have hoffset : (counts.sum * blksz + if args.needSuperblock then blksz else 0) =
      (counts.sum + args.needSuperblock.toNat) * blksz := by
    rw [Nat.add_mul]
    cases args.needSuperblock <;> simp
  rw [hoffset] at hleaf
  set data := readRange (block s₀.data) 0 nblks with hdata'
  set leaves := parents (digest P t (args.saltOr env t)) (packNode blksz) (blksz / t.size) data with hleaves
  have hlength : leaves.length = nleaves := by
    rw [hleaves, length_parents, hdata', length_readRange]
  have hbound : nleaves + counts.sum + args.needSuperblock.toNat ≤
      filled blksz (nleaves + counts.sum + args.needSuperblock.toNat) := Nat.le_add_right _ _
  have hone : 0 < nleaves := Nat.div_pos (by omega) (by omega)
  obtain ⟨hwrote, hlast⟩ := leaves_ok (by rw [hfilled.data]) (by omega) hfilled.fits hfitsData
    (hlength ▸ hone) (by rw [hlength]; omega) hleaf
  set pad := (4096 - (nleaves + counts.sum + args.needSuperblock.toNat) * blksz) / blksz
  have hblocks : block s₂.hash = writeRange (block s₀.hash) 0
      (replicate (counts.sum + args.needSuperblock.toNat) (zeros blksz) ++
        (leaves ++ replicate pad (zeros blksz))) := by
    have hsplit : filled blksz (nleaves + counts.sum + args.needSuperblock.toNat) =
        counts.sum + args.needSuperblock.toNat + nleaves + pad := by
      unfold filled
      omega
    rw [hwrote.blocks, hfilled.blocks, hsplit, ← replicate_append_replicate, writeRange_replicate _ _ hlength]
  -- the levels above
  rw [← hlength] at hcounts hlevels
  obtain ⟨hlevelsData, hlevelsFits, hlevelsBlocks, htop⟩ :=
    writeLevels_ok (by omega) hwrote.fits hcounts hlast (by rw [hlength]; omega) hblocks hlevels
  obtain ⟨hsbData, hsbBlocks⟩ := writeSuperblock_ok hlevelsFits
    (by rw [length_superblock]; exact hle) hlevelsBlocks hsb
  refine ⟨uuid, huuid, ?_, htop data rfl, pad, ?_⟩
  · rw [hsbData, hlevelsData, hwrote.data, hfilled.data]
  · rw [hsbBlocks, treeLevels_eq_cons (by omega), reverse_cons, flatten_append, flatten_singleton,
      superblocks, append_assoc (flatten _)]

def withBlockSize (bd : Bd) (size : Word) : Bd := { bd with blockSize := size }

def dataBlocks (args : Args) (s : Devices) : List (List Byte) :=
  readRange (block (withBlockSize s.data (blockSizeOr args.dataBlockSize))) 0
    (s.data.getSize.toNat / (blockSizeOr args.dataBlockSize).toNat)

theorem setBlockSize_ok {size : Word} (h : bd.setBlockSize size = (.ok, bd')) : bd' = withBlockSize bd size := by
  unfold Bd.setBlockSize at h
  split_ifs at h <;> cases h
  rfl

theorem vicVerityFormat_ok (h : vicVerityFormat P env args s = .ok root s') :
    ∃ t, args.hashType = some t ∧ 512 ≤ (blockSizeOr args.dataBlockSize).toNat ∧
      (blockSizeOr args.dataBlockSize).toNat ≤ 4096 ∧
      (blockSizeOr args.dataBlockSize).toNat * 2 ≤ s.data.getSize.toNat ∧
      formatWith P env args t (blockSizeOr args.dataBlockSize).toNat
        (s.data.getSize.toNat / (blockSizeOr args.dataBlockSize).toNat)
        ⟨withBlockSize s.data (blockSizeOr args.dataBlockSize), withBlockSize s.hash (blockSizeOr args.dataBlockSize)⟩ =
        .ok root s' := by
  unfold vicVerityFormat at h
  dsimp only at h
  simp only [bind_eq_ok_iff, orRaise_eq_ok, raiseIf_eq_ok] at h
  obtain ⟨_, _, ⟨-, rfl⟩, t, _, ⟨ht, rfl⟩, _, _, ⟨-, rfl⟩, _, _, ⟨-, rfl⟩, _, s, ⟨hrange, rfl⟩, _, s₁, hsetData, _, s₂,
    hsetHash, _, _, hget, _, _, ⟨-, rfl⟩, _, _, ⟨hsmall, rfl⟩, h⟩ := h
  cases hget
  obtain ⟨hdata, hhash₁⟩ := onData_ok hsetData
  obtain ⟨hhash, hdata₂⟩ := onHash_ok hsetHash
  have hdevices : s₂ = ⟨withBlockSize s.data (blockSizeOr args.dataBlockSize),
      withBlockSize s.hash (blockSizeOr args.dataBlockSize)⟩ := by
    rw [hhash₁] at hhash
    rw [← setBlockSize_ok hdata, ← setBlockSize_ok hhash, ← hdata₂]
  subst hdevices
  rw [not_or] at hrange
  have hle : 512 ≤ (blockSizeOr args.dataBlockSize).toNat := Nat.not_lt.mp hrange.1
  have hle' : (blockSizeOr args.dataBlockSize).toNat ≤ 4096 := Nat.not_lt.mp hrange.2
  have hdouble : (blockSizeOr args.dataBlockSize * 2).toNat = (blockSizeOr args.dataBlockSize).toNat * 2 := by
    rw [BitVec.toNat_mul]
    exact Nat.mod_eq_of_lt (by show _ * 2 < _; omega)
  exact ⟨t, ht, hle, hle', hdouble ▸ Nat.not_lt.mp hsmall, h⟩

section

variable {P : Primitives} {env : Env} {args : Args} {s s' : Devices} {root : List Byte}

/-- **The hash device holds the tree.** If `vic_verity_format` succeeds, then the result is the root of the hash tree
of the data, and the hash device holds the superblock, if there is one, the nodes of the tree from the top level on,
and zero blocks. -/
theorem vicVerityFormat_tree (h : vicVerityFormat P env args s = .ok root s') :
    ∃ t blksz uuid pad, args.hashType = some t ∧ blksz = blockSizeOr args.dataBlockSize ∧
      env.uuidStr2bin (args.uuidOr env) = some uuid ∧
      treeRoot (digest P t (args.saltOr env t)) (packNode blksz.toNat) (blksz.toNat / t.size) (dataBlocks args s) =
        some root ∧
      block s'.hash = writeRange (block (withBlockSize s.hash blksz)) 0
        (superblocks args env t uuid blksz.toNat (dataBlocks args s).length ++
          ((treeLevels (digest P t (args.saltOr env t)) (packNode blksz.toNat) (blksz.toNat / t.size)
            (dataBlocks args s)).reverse.flatten ++ replicate pad (zeros blksz.toNat))) := by
  obtain ⟨t, ht, hle, hle', htwo, h⟩ := vicVerityFormat_ok h
  have hpos : 0 < s.data.getSize.toNat / (blockSizeOr args.dataBlockSize).toNat :=
    Nat.div_pos (by omega) (by omega)
  obtain ⟨uuid, huuid, -, hroot, pad, hblocks⟩ := formatWith_ok h hle hle' rfl rfl rfl hpos
  refine ⟨t, _, uuid, pad, ht, rfl, huuid, hroot, ?_⟩
  rw [hblocks, dataBlocks, length_readRange]

def tailHash (t : HashType) (data : List Byte) : List Byte := (data.reverse ++ replicate t.size 0).take t.size

def tailPrimitives : Primitives :=
  { Luks.samplePrimitives with
    hash := tailHash
    length_hash := fun t data => by simp [tailHash] }

def sampleEnv : Env := ⟨fun n => replicate n 0, [], fun _ => some (List.Vector.replicate 16 0), []⟩

def sampleArgs (needSuperblock : Bool) : Args := ⟨none, none, some [7], needSuperblock, 512, 512, 32⟩

def sampleDevices : Devices where
  data := ⟨⟨1024, fun i => BitVec.ofNat 8 (i / 512 + 1), by decide⟩, 1024, 1024, 0, 512, false, true, false⟩
  hash := ⟨⟨0, fun _ => 0, Nat.two_pow_pos 63⟩, 0, 0, 0, 512, true, true, true⟩

def rootHash (P : Primitives) (env : Env) (args : Args) (s : Devices) : Option (List Byte) :=
  match vicVerityFormat P env args s with
  | .ok root _ => some root
  | .error _ _ => none

theorem exists_of_rootHash
    (h : rootHash P env args s = some root) : ∃ s', vicVerityFormat P env args s = .ok root s' := by
  rw [rootHash] at h
  split at h
  · rename_i s' heq
    cases h
    exact ⟨s', heq⟩
  · cases h

theorem rootHash_sample (needSuperblock : Bool) :
    rootHash tailPrimitives sampleEnv (sampleArgs needSuperblock) sampleDevices = some (replicate 32 0) := by
  cases needSuperblock <;> decide +kernel

theorem vicVerityFormat_tree_sample :
    treeRoot (digest tailPrimitives .sha256 [7]) (packNode 512) 16 (dataBlocks (sampleArgs true) sampleDevices) =
      some (replicate 32 0) := by
  obtain ⟨s', h⟩ := exists_of_rootHash (rootHash_sample true)
  obtain ⟨t, _, -, -, ht, rfl, -, hroot, -⟩ := vicVerityFormat_tree h
  cases ht
  exact hroot

theorem packs_packNode (P : Primitives) (t : HashType) (salt : List Byte) (blksz : ℕ) :
    Packs (digest P t salt) (packNode blksz) (blksz / t.size) := by
  intro bs bs' _ hlength h
  have hdigests : ∀ xs : List (List Byte), ∀ x ∈ xs.map (digest P t salt), x.length = t.size := by
    intro xs x hx
    obtain ⟨blk, -, rfl⟩ := mem_map.mp hx
    exact length_digest P t salt blk
  have hflatten : (bs.map (digest P t salt)).flatten.length = (bs'.map (digest P t salt)).flatten.length := by
    rw [length_flatten_of (hdigests bs), length_flatten_of (hdigests bs'), length_map, length_map, hlength]
  have hbytes := append_inj_left h hflatten
  refine eq_iff_flatten_eq.mpr ⟨hbytes, ?_⟩
  rw [map_congr_left (hdigests bs), map_congr_left (hdigests bs'), map_const', map_const',
    length_map, length_map, hlength]

/-- The blocks that are hashed with the salt: those of the data and the nodes. -/
def hashedBlocks (P : Primitives) (env : Env) (args : Args) (t : HashType) (s : Devices) : List (List Byte) :=
  treeBlocks (digest P t (args.saltOr env t)) (packNode (blockSizeOr args.dataBlockSize).toNat)
    ((blockSizeOr args.dataBlockSize).toNat / t.size) (dataBlocks args s)

/-- **The root hash binds the data.** Two devices with the same number of blocks and the same root hash have the
same blocks, if no two different blocks that are hashed have the same digest. -/
theorem vicVerityFormat_binds {env₁ env₂ : Env} {args₁ args₂ : Args} {s₁ s₁' s₂ s₂' : Devices} {t : HashType}
    (h₁ : vicVerityFormat P env₁ args₁ s₁ = .ok root s₁') (h₂ : vicVerityFormat P env₂ args₂ s₂ = .ok root s₂')
    (ht₁ : args₁.hashType = some t) (ht₂ : args₂.hashType = some t)
    (hsalt : args₁.saltOr env₁ t = args₂.saltOr env₂ t)
    (hblksz : blockSizeOr args₁.dataBlockSize = blockSizeOr args₂.dataBlockSize)
    (hlength : (dataBlocks args₁ s₁).length = (dataBlocks args₂ s₂).length)
    (hhash : NoCollision (digest P t (args₁.saltOr env₁ t)) (hashedBlocks P env₁ args₁ t s₁)
      (hashedBlocks P env₂ args₂ t s₂)) :
    dataBlocks args₁ s₁ = dataBlocks args₂ s₂ := by
  obtain ⟨t₁, ht₁', hle, -, -, -⟩ := vicVerityFormat_ok h₁
  cases ht₁.symm.trans ht₁'
  obtain ⟨t₁, _, -, -, ht₁', rfl, -, hroot₁, -⟩ := vicVerityFormat_tree h₁
  cases ht₁.symm.trans ht₁'
  obtain ⟨t₂, _, -, -, ht₂', rfl, -, hroot₂, -⟩ := vicVerityFormat_tree h₂
  cases ht₂.symm.trans ht₂'
  rw [← hsalt, ← hblksz] at hroot₂
  rw [hashedBlocks, hashedBlocks, ← hsalt, ← hblksz] at hhash
  exact treeRoot_inj (le_trans (by decide) (eight_le t hle)) (packs_packNode P t _ _) hlength hhash
    (hroot₁.trans hroot₂.symm)

theorem hashedBlocks_sample (needSuperblock : Bool) :
    hashedBlocks tailPrimitives sampleEnv (sampleArgs needSuperblock) .sha256 sampleDevices =
      dataBlocks (sampleArgs needSuperblock) sampleDevices ++
        parents (digest tailPrimitives .sha256 [7]) (packNode 512) 16
          (dataBlocks (sampleArgs needSuperblock) sampleDevices) := by
  have hone : (parents (digest tailPrimitives .sha256 [7]) (packNode 512) 16
      (dataBlocks (sampleArgs needSuperblock) sampleDevices)).length < 2 := by
    rw [length_parents, dataBlocks, length_readRange]
    decide +revert
  have hblksz : (blockSizeOr (sampleArgs needSuperblock).dataBlockSize).toNat = 512 := rfl
  rw [hashedBlocks, hblksz]
  show treeBlocks (digest tailPrimitives .sha256 [7]) (packNode 512) 16 _ = _
  rw [treeBlocks, treeLevels_of_lt hone, flatten_singleton]

theorem vicVerityFormat_binds_sample :
    dataBlocks (sampleArgs true) sampleDevices = dataBlocks (sampleArgs false) sampleDevices := by
  obtain ⟨s₁, h₁⟩ := exists_of_rootHash (rootHash_sample true)
  obtain ⟨s₂, h₂⟩ := exists_of_rootHash (rootHash_sample false)
  refine vicVerityFormat_binds h₁ h₂ rfl rfl rfl rfl rfl ?_
  rw [hashedBlocks_sample, hashedBlocks_sample]
  unfold NoCollision
  decide +kernel

end

end SgxLkl.Verity
