import SgxLkl.Luks.Enrolled

/-!
# Splitting a key into many stripes

`_gen_split_material` computes where a stripe is with 32 bits, `vic_afmerge` with 64.

* **`afmerge_afsplit_iff`**: for which sizes every key is merged again.
-/

namespace SgxLkl.Luks

open Json (bytes)
open List

/-! ## A hash function for which keys are lost -/

/-- The hash function leaves its input as it is, but for the counter. -/
def echoPrimitives : Primitives :=
  { samplePrimitives with
    hash := fun t data => (data.drop 4 ++ List.replicate t.size 0).take t.size
    length_hash := fun t data => by simp }

/-- One piece of a digest comes back as it is. -/
theorem take_hash_echo (t : HashType) (i : ℕ) (data : List Byte) :
    (echoPrimitives.hash t (be32 i ++ data.take t.size)).take data.length = data.take t.size := by
  show (((be32 i ++ data.take t.size).drop 4 ++ replicate t.size 0).take t.size).take data.length = _
  rw [show (be32 i ++ data.take t.size).drop 4 = data.take t.size from rfl, take_take, take_append, take_take,
    length_take, Nat.min_comm data.length]
  have hzero : min t.size data.length - min t.size data.length = 0 := Nat.sub_self _
  rw [hzero, take_zero, append_nil, Nat.min_eq_left (Nat.min_le_left _ _), ← take_take, take_length]

theorem diffuseLoop_echo (t : HashType) {k i : ℕ} {data : List Byte} (h : data.length ≤ k * t.size) :
    diffuseLoop echoPrimitives t k i data = data := by
  induction k generalizing i data with
  | zero =>
    rw [Nat.zero_mul, Nat.le_zero, length_eq_zero_iff] at h
    rw [diffuseLoop, h]
  | succ k ih =>
    rw [Nat.succ_mul] at h
    rw [diffuseLoop, take_hash_echo, ih (by rw [length_drop]; omega), take_append_drop]

theorem diffuse_echo (data : List Byte) : diffuse echoPrimitives (bytes "sha256") data = some data := by
  have ht : vicHashType (bytes "sha256") = some .sha256 := by decide
  rw [diffuse, ht]
  dsimp only
  rw [if_neg (by decide), diffuseLoop_echo]
  have hdiv := Nat.div_add_mod data.length HashType.sha256.size
  rw [show HashType.sha256.size = 32 from rfl] at hdiv ⊢
  split_ifs <;> omega

theorem diffuseStripes_succ (P : Primitives) (hashSpec : List Byte) (stripe : ℕ → List Byte) (k i : ℕ)
    (prev : List Byte) :
    diffuseStripes P hashSpec stripe (k + 1) i prev = (diffuseStripes P hashSpec stripe k i prev).bind fun prev =>
      diffuse P hashSpec (computeXor prev (stripe (i + k))) := by
  induction k generalizing i prev with
  | zero => simp [diffuseStripes]
  | succ k ih =>
    rw [diffuseStripes, diffuseStripes, Option.bind_assoc]
    simp only [ih]
    rw [show i + 1 + k = i + (k + 1) by omega]

theorem zero_computeXor {n : ℕ} {l : List Byte} (h : l.length = n) : computeXor (replicate n 0) l = l := by
  subst h
  induction l with
  | nil => rfl
  | cons b l ih =>
    rw [length_cons, replicate_succ, computeXor, zipWith_cons_cons, ← computeXor, ih]
    exact congrArg (· :: l) BitVec.zero_xor

/-- Without diffusion stripes of zeros leave everything as it is. -/
theorem diffuseStripes_echo {n : ℕ} {stripe : ℕ → List Byte} {k i : ℕ}
    (h : ∀ j < i + k, stripe j = replicate n 0) :
    diffuseStripes echoPrimitives (bytes "sha256") stripe k i (replicate n 0) = some (replicate n 0) := by
  induction k generalizing i with
  | zero => rfl
  | succ k ih =>
    rw [diffuseStripes, h i (by omega), zero_computeXor length_replicate, diffuse_echo, Option.bind_some]
    exact ih fun j hj => h j (by omega)

/-- Zeros, but for one byte. -/
def markedAt (size offset : ℕ) : List Byte := (range size).map fun j => if j = offset then 1 else 0

variable {n size offset o : ℕ} {stripes : BitVec 32}

theorem stripeAt_markedAt_of_notMem (hsize : o + n ≤ size) (h : ¬ (o ≤ offset ∧ offset < o + n)) :
    stripeAt n (markedAt size offset) o = replicate n 0 := by
  refine eq_replicate_iff.mpr ⟨length_stripeAt (by simpa [markedAt] using hsize), fun b hb => ?_⟩
  obtain ⟨i, hi, rfl⟩ := mem_iff_getElem.mp hb
  have hin : i < n := by
    rw [stripeAt, length_take] at hi
    omega
  simp only [stripeAt, markedAt, getElem_take, getElem_drop, getElem_map, getElem_range]
  exact if_neg (by omega)

/-- The stripe that begins with the byte. -/
theorem head?_stripeAt_markedAt (hn : 0 < n) (h : offset < size) :
    (stripeAt n (markedAt size offset) offset).head? = some 1 := by
  rw [stripeAt, head?_take, if_neg (by omega), head?_drop, markedAt, getElem?_map, getElem?_range h]
  simp

/-- The byte is in the last stripe but one, which is read somewhere else when the key is split. -/
theorem key_lost_of_large (hn : 0 < n) (hbuffer : n ≤ keyBufferSize) (hlarge : 2 ^ 32 ≤ (stripes.toNat - 2) * n)
    (key : List Byte) (hkey : key.length = n) : ∃ split,
      vicAfsplit echoPrimitives (bytes "sha256") key n stripes
        (markedAt (n * stripes.toNat) ((stripes.toNat - 2) * n)) = some split ∧
      vicAfmerge echoPrimitives n (stripes.setWidth 64) (bytes "sha256") split ≠ some key := by
  have htwo : 2 < stripes.toNat := by
    by_contra! hle
    rw [Nat.sub_eq_zero_of_le hle, Nat.zero_mul] at hlarge
    exact absurd hlarge (by decide)
  obtain ⟨k, hk, hpred⟩ : ∃ k, stripes.toNat = k + 2 ∧ (stripes - 1).toNat = k + 1 := by
    obtain ⟨k, hk, hpred⟩ := exists_pred_stripes (show 0 < stripes.toNat by omega)
    exact ⟨k - 1, by omega, by omega⟩
  rw [hk, Nat.add_sub_cancel] at hlarge ⊢
  rw [keyBufferSize] at hbuffer
  set random := markedAt (n * (k + 2)) (k * n) with hrandom
  have hbound : ∀ j ≤ k, j * n ≤ k * n ∧ k * n + n + n = n * (k + 2) := fun j hj =>
    ⟨Nat.mul_le_mul_right n hj, by ring⟩
  have hlength : random.length = n * stripes.toNat := by
    rw [hrandom, markedAt, length_map, length_range, hk]
  have hsplit : genSplitMaterial echoPrimitives (bytes "sha256") n (k + 1) random (replicate n 0) =
      some (replicate n 0) := by
    refine diffuseStripes_echo fun j hj => stripeAt_markedAt_of_notMem ?_ fun hmem => ?_
    · have := hbound j (by omega)
      have := Nat.mod_le (j * n) (2 ^ 32)
      omega
    · have hj' := hbound j (by omega)
      rcases Nat.lt_or_ge (j * n) (2 ^ 32) with hlt | hge
      · -- without a carry the stripes are different ones
        rw [Nat.mod_eq_of_lt hlt, ← Nat.succ_mul] at hmem
        have hkj : k < j + 1 := Nat.lt_of_mul_lt_mul_right hmem.2
        obtain rfl : j = k := by omega
        omega
      · have hmod := Nat.mod_add_div (j * n) (2 ^ 32)
        have hdiv : 0 < j * n / 2 ^ 32 := Nat.div_pos hge (by decide)
        have hcarry : 2 ^ 32 ≤ 2 ^ 32 * (j * n / 2 ^ 32) := Nat.le_mul_of_pos_right _ hdiv
        omega
  have hmerge : diffuseStripes echoPrimitives (bytes "sha256") (fun i => stripeAt n random (i * n)) (k + 1) 0
      (replicate n 0) ≠ some (replicate n 0) := by
    rw [diffuseStripes_succ, diffuseStripes_echo (n := n) fun j hj => ?_, Option.bind_some, diffuse_echo]
    · intro heq
      have hstripe := head?_stripeAt_markedAt hn
        (show k * n < n * (k + 2) by have := hbound k le_rfl; omega)
      rw [Nat.zero_add, zero_computeXor (length_stripeAt (by rw [hlength, hk]; have := hbound k le_rfl; omega))] at heq
      rw [← hrandom, Option.some.inj heq, head?_replicate, if_neg hn.ne'] at hstripe
      exact absurd (Option.some.inj hstripe) (by decide)
    · refine stripeAt_markedAt_of_notMem (by have := hbound j (by omega); omega) fun hmem => ?_
      rw [← Nat.succ_mul] at hmem
      have hkj : k < j + 1 := Nat.lt_of_mul_lt_mul_right hmem.2
      omega
  have hafsplit : vicAfsplit echoPrimitives (bytes "sha256") key n stripes random =
      some (random.take ((k + 1) * n) ++ computeXor (replicate n 0) key) := by
    rw [vicAfsplit, if_neg (by rw [keyBufferSize]; omega), hpred, hsplit]
    rfl
  refine ⟨_, hafsplit, fun heq => ?_⟩
  have hiff := vicAfmerge_eq_iff (by omega) hkey hlength hafsplit []
  rw [append_nil, hpred, hsplit] at hiff
  exact hmerge (hiff.mp heq)

/-! ## Keys that are not lost -/

/-- **What was split is merged**, for every hash function, key and random material, if and only if the key fits its
buffer and all stripes but the last begin in the first `2 ^ 32` bytes. -/
theorem afmerge_afsplit_iff (hn : 0 < n) (hs : 0 < stripes.toNat) :
    (∀ (P : Primitives) (hashSpec key random : List Byte), Diffuses hashSpec → key.length = n →
      random.length = n * stripes.toNat → ∃ split, vicAfsplit P hashSpec key n stripes random = some split ∧
        split.length = n * stripes.toNat ∧ vicAfmerge P n (stripes.setWidth 64) hashSpec split = some key) ↔
      n ≤ keyBufferSize ∧ (stripes.toNat - 2) * n < 2 ^ 32 := by
  have hsha : Diffuses (bytes "sha256") := ⟨.sha256, by decide, by decide⟩
  constructor
  · intro h
    have hbuffer : n ≤ keyBufferSize := by
      obtain ⟨split, hsplit, -⟩ := h samplePrimitives (bytes "sha256") (replicate n 0)
        (replicate (n * stripes.toNat) 0) hsha length_replicate length_replicate
      exact le_of_vicAfsplit hsplit
    refine ⟨hbuffer, ?_⟩
    by_contra! hlarge
    obtain ⟨split, hsplit, hlost⟩ := key_lost_of_large hn hbuffer hlarge (replicate n 0) length_replicate
    obtain ⟨split', hsplit', -, hmerge⟩ := h echoPrimitives (bytes "sha256") (replicate n 0)
      (markedAt (n * stripes.toNat) ((stripes.toNat - 2) * n)) hsha length_replicate
      (by rw [markedAt, length_map, length_range])
    obtain rfl : split = split' := Option.some.inj (hsplit.symm.trans hsplit')
    exact hlost hmerge
  · rintro ⟨hbuffer, hbound⟩ P hashSpec key random hd hkey hrandom
    obtain ⟨split, hsplit⟩ := Option.isSome_iff_exists.mp (isSome_vicAfsplit (P := P) hd hbuffer key stripes random)
    obtain ⟨hlen, hmerge⟩ := vicAfmerge_vicAfsplit hs hbound hkey hrandom hsplit []
    rw [append_nil] at hmerge
    exact ⟨split, hsplit, hlen, hmerge⟩

/-- Keys of three bytes in two stripes. -/
theorem afmerge_afsplit_sample :
    ∃ split, vicAfsplit samplePrimitives (bytes "sha1") [1, 2, 3] 3 2 [4, 5, 6, 7, 8, 9] = some split ∧
      split.length = 6 ∧ vicAfmerge samplePrimitives 3 2 (bytes "sha1") split = some [1, 2, 3] :=
  (afmerge_afsplit_iff (show 0 < 3 by decide) (show 0 < (2 : BitVec 32).toNat by decide)).mpr (by decide)
    samplePrimitives (bytes "sha1") [1, 2, 3] [4, 5, 6, 7, 8, 9] ⟨.sha1, by decide, by decide⟩ rfl rfl

/-- A key of two bytes in `2 ^ 31 + 2` stripes: the last stripe but one is read at the begin of the material when the
key is split. Another key is merged. -/
theorem key_lost : ∃ random split,
    vicAfsplit echoPrimitives (bytes "sha256") [7, 7] 2 (2 ^ 31 + 2) random = some split ∧
      vicAfmerge echoPrimitives 2 (2 ^ 31 + 2) (bytes "sha256") split ≠ some [7, 7] := by
  obtain ⟨split, hsplit, hlost⟩ := key_lost_of_large (show 0 < 2 by decide) (by decide)
    (show 2 ^ 32 ≤ ((2 ^ 31 + 2 : BitVec 32).toNat - 2) * 2 by decide) [7, 7] rfl
  exact ⟨_, split, hsplit, hlost⟩

end SgxLkl.Luks
