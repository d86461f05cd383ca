import SgxLkl.Json.Print

/-!
# Key derivation, the anti-forensic splitter and the cipher

The primitives come from other libraries. `Primitives` says what is used of them; everything that
`crypto.c` and `luks2.c` do around them is modelled.

* `vicPbkdf2`, `vicArgon2`: the wrappers. The first one does not take an empty password, the second does.
* `vicAfsplit`, `vicAfmerge`: a key is spread over stripes; **`vicAfmerge_vicAfsplit`**.
* `crypt`: a key area, sector by sector; **`decrypt_encrypt`**.
-/

namespace SgxLkl.Luks

open Json (bytes)
open List Option

/-! ## Primitives -/

inductive HashType
  | sha1 | sha256 | sha512 | ripemd160
  deriving DecidableEq, Repr

def HashType.size : HashType → ℕ
  | .sha1 => 20
  | .sha256 => 32
  | .sha512 => 64
  | .ripemd160 => 20

/-- `vic_hash_type` and `vic_hash_size`. -/
def vicHashType (spec : List Byte) : Option HashType :=
  if spec = bytes "sha1" then some .sha1
  else if spec = bytes "sha256" then some .sha256
  else if spec = bytes "sha512" then some .sha512
  else if spec = bytes "ripemd160" then some .ripemd160
  else none

inductive ArgonType
  | i | id
  deriving DecidableEq, Repr

/-- The functions of the libraries: hash functions, key derivation, AES-XTS and base64. -/
structure Primitives where
  hash : HashType → List Byte → List Byte
  length_hash : ∀ t data, (hash t data).length = t.size
  /-- The hash functions that `mbedtls_md_info_from_type` knows. -/
  hasMd : HashType → Bool
  pbkdf2Hmac : HashType → List Byte → List Byte → BitVec 32 → ℕ → List Byte
  length_pbkdf2Hmac : ∀ t pwd salt iterations n, (pbkdf2Hmac t pwd salt iterations n).length = n
  /-- The costs and the output length that `argon2_ctx` accepts. -/
  argon2Accepts : ArgonType → BitVec 32 → BitVec 32 → BitVec 32 → BitVec 32 → Bool
  argon2 : ArgonType → List Byte → List Byte → BitVec 32 → BitVec 32 → BitVec 32 → BitVec 32 → List Byte
  length_argon2 : ∀ t pwd salt time memory cpus n,
    (argon2 t pwd salt time memory cpus n).length = n.toNat
  /-- One sector with the key and the number of the sector. -/
  xtsEncrypt : List Byte → Word → List Byte → List Byte
  xtsDecrypt : List Byte → Word → List Byte → List Byte
  length_xtsEncrypt : ∀ key i data, (xtsEncrypt key i data).length = data.length
  length_xtsDecrypt : ∀ key i data, (xtsDecrypt key i data).length = data.length
  xtsDecrypt_xtsEncrypt : ∀ key i data, xtsDecrypt key i (xtsEncrypt key i data) = data
  base64Encode : List Byte → List Byte
  base64Decode : List Byte → Option (List Byte)
  base64Decode_base64Encode : ∀ data, base64Decode (base64Encode data) = some data
  /-- Base64 is written with printable characters. -/
  isPrint_base64Encode : ∀ data, ∀ c ∈ base64Encode data, Json.isPrint c = true
  /-- What is on the stack where a key is left uninitialised. -/
  stack : List Byte
  /-- What is in memory behind the copy of a JSON area. -/
  behind : List Byte

variable (P : Primitives)

/-! ## Key derivation -/

def vicPbkdf2 (pwd salt : List Byte) (iterations : Word) (hashSpec : List Byte) (keySize : ℕ) :
    Option (List Byte) :=
  if pwd = [] ∨ salt = [] ∨ keySize = 0 then none
  else if 2 ^ 32 - 1 < keySize then none
  else match vicHashType hashSpec with
    | none => none
    | some t =>
      if P.hasMd t then some (P.pbkdf2Hmac t pwd salt (iterations.setWidth 32) keySize) else none

/-- `vic_argon2i` and `vic_argon2id`. All sizes are cut to 32 bits. -/
def vicArgon2 (t : ArgonType) (pwd salt : List Byte) (time memory cpus keySize : Word) : Option (List Byte) :=
  if P.argon2Accepts t (time.setWidth 32) (memory.setWidth 32) (cpus.setWidth 32) (keySize.setWidth 32)
  then
    some (P.argon2 t (pwd.take (pwd.length % 2 ^ 32)) salt (time.setWidth 32) (memory.setWidth 32)
      (cpus.setWidth 32) (keySize.setWidth 32))
  else none

/-! ## The splitter -/

def computeXor (x y : List Byte) : List Byte := zipWith (· ^^^ ·) x y

def be32 (i : ℕ) : List Byte :=
  [BitVec.ofNat 8 (i / 2 ^ 24), BitVec.ofNat 8 (i / 2 ^ 16), BitVec.ofNat 8 (i / 2 ^ 8), BitVec.ofNat 8 i]

def diffuseLoop (t : HashType) : ℕ → ℕ → List Byte → List Byte
  | 0, _, _ => []
  | k + 1, i, data =>
    (P.hash t (be32 i ++ data.take t.size)).take data.length ++ diffuseLoop t k (i + 1) (data.drop t.size)

/-- `_diffuse`; the library is built without RIPEMD-160. -/
def diffuse (hashSpec data : List Byte) : Option (List Byte) :=
  match vicHashType hashSpec with
  | none => none
  | some t =>
    if t = .ripemd160 then none
    else some (diffuseLoop P t (data.length / t.size + if data.length % t.size ≠ 0 then 1 else 0) 0 data)

/-- The loop of `vic_afmerge` with `k` stripes left. All but the last are diffused. -/
def afmergeLoop (hashSpec : List Byte) (keyBytes : ℕ) : ℕ → List Byte → List Byte → Option (List Byte)
  | 0, key, _ => some key
  | k + 1, key, splitKey =>
    let key := computeXor key (splitKey.take keyBytes)
    if k = 0 then some key
    else (diffuse P hashSpec key).bind fun key => afmergeLoop hashSpec keyBytes k key (splitKey.drop keyBytes)

/-- `vic_afmerge`. Its counter has 32 bits: with more stripes the loop has no end, and there is no key. -/
def vicAfmerge (keyBytes : ℕ) (stripes : Word) (hashSpec splitKey : List Byte) : Option (List Byte) :=
  if 2 ^ 32 ≤ stripes.toNat then none
  else afmergeLoop P hashSpec keyBytes stripes.toNat (replicate keyBytes 0) splitKey

/-- Stripes are added and diffused: `k` stripes from stripe `i` on. -/
def diffuseStripes (hashSpec : List Byte) (stripe : ℕ → List Byte) : ℕ → ℕ → List Byte → Option (List Byte)
  | 0, _, prev => some prev
  | k + 1, i, prev =>
    (diffuse P hashSpec (computeXor prev (stripe i))).bind fun prev =>
      diffuseStripes hashSpec stripe k (i + 1) prev

def stripeAt (keyBytes : ℕ) (src : List Byte) (offset : ℕ) : List Byte := (src.drop offset).take keyBytes

/-- `_gen_split_material` for `k` stripes. The offset of a stripe is a product of 32 bits. -/
def genSplitMaterial (hashSpec : List Byte) (keyBytes k : ℕ) (src prev : List Byte) : Option (List Byte) :=
  diffuseStripes P hashSpec (fun i => stripeAt keyBytes src (i * keyBytes % 2 ^ 32)) k 0 prev

def keyBufferSize : ℕ := 128

/-- `vic_afsplit`; `random` is what `vic_random` has filled the stripes with. -/
def vicAfsplit (hashSpec key : List Byte) (keySize : ℕ) (stripes : BitVec 32) (random : List Byte) :
    Option (List Byte) :=
  if keyBufferSize < keySize then none
  else
    (genSplitMaterial P hashSpec keySize (stripes - 1).toNat random (replicate keySize 0)).map fun prev =>
      random.take ((stripes - 1).toNat * keySize) ++ computeXor prev key

/-! ## The cipher -/

def sectorSize : ℕ := 512

/-- `_get_cipher_info`: whether there is a cipher. -/
def getCipherInfo (encryption : List Byte) (keyBytes : Word) : Bool :=
  encryption = bytes "aes-xts-plain64" && (keyBytes * 8 / 2 = 128#64 || keyBytes * 8 / 2 = 256#64)

/-- The loop of `_crypt` with `k` sectors left. What does not fill a sector stays zero. -/
def cryptLoop (f : Word → List Byte → List Byte) : ℕ → Word → List Byte → List Byte
  | 0, _, data => replicate data.length 0
  | k + 1, i, data => f i (data.take sectorSize) ++ cryptLoop f k (i + 1) (data.drop sectorSize)

/-- `_crypt` with the first sector `0`. The key has as many bits as the cipher wants. -/
def crypt (f : List Byte → Word → List Byte → List Byte) (encryption : List Byte) (keyBytes : Word)
    (key data : List Byte) : Option (List Byte) :=
  if getCipherInfo encryption keyBytes then
    some (cryptLoop (f (key.take ((keyBytes * 8 / 8 : Word)).toNat)) (data.length / sectorSize) 0 data)
  else none

def encrypt := crypt P.xtsEncrypt

def decrypt := crypt P.xtsDecrypt

/-! ## Merging what was split -/

variable {P}

variable {x y key data cipher hashSpec encryption : List Byte} {i k n : ℕ} {keyBytes : Word}

theorem length_computeXor (h : y.length = x.length) : (computeXor x y).length = x.length := by
  rw [computeXor, length_zipWith, h, Nat.min_self]

theorem computeXor_computeXor (h : y.length = x.length) : computeXor x (computeXor x y) = y := by
  induction x generalizing y with
  | nil => rw [computeXor, zipWith_nil_left, eq_nil_of_length_eq_zero h]
  | cons a x ih =>
    cases y with
    | nil => simp at h
    | cons b y =>
      have hy := ih (y := y) (by simpa using h)
      rw [computeXor] at hy ⊢
      simp only [computeXor, zipWith_cons_cons] at hy ⊢
      rw [hy, ← BitVec.xor_assoc, BitVec.xor_self, BitVec.zero_xor]

theorem computeXor_cancel {z : List Byte} (hx : x.length = y.length) (hz : z.length = y.length)
    (h : computeXor x (computeXor y z) = z) : x = y := by
  induction x generalizing y z with
  | nil => exact (eq_nil_of_length_eq_zero hx.symm).symm
  | cons a x ih =>
    cases y with
    | nil => simp at hx
    | cons b y =>
      cases z with
      | nil => simp at hz
      | cons c z =>
        simp only [computeXor, zipWith_cons_cons, cons.injEq] at h
        rw [ih (by simpa using hx) (by simpa using hz) h.2]
        congr 1
        have := congrArg (· ^^^ c ^^^ b) h.1
        simpa [BitVec.xor_assoc] using this

theorem HashType.size_pos (t : HashType) : 0 < t.size := by
  cases t <;> decide

theorem length_diffuseLoop (t : HashType) (i : ℕ)
    (h : data.length ≤ k * t.size) : (diffuseLoop P t k i data).length = data.length := by
  induction k generalizing i data with
  | zero =>
    rw [Nat.zero_mul, Nat.le_zero] at h
    rw [diffuseLoop, length_nil, h]
  | succ k ih =>
    have hlen : (data.drop t.size).length ≤ k * t.size := by
      rw [length_drop, Nat.sub_le_iff_le_add, ← Nat.succ_mul]
      exact h
    have hrest := ih (i + 1) hlen
    rw [diffuseLoop, length_append, hrest, length_take, P.length_hash, length_drop]
    omega

/-- The hash functions that `_diffuse` can use. -/
def Diffuses (hashSpec : List Byte) : Prop :=
  ∃ t, vicHashType hashSpec = some t ∧ t ≠ .ripemd160

theorem diffuse_eq_none (h : ¬ Diffuses hashSpec) (data : List Byte) : diffuse P hashSpec data = none := by
  unfold diffuse
  cases ht : vicHashType hashSpec with
  | none => rfl
  | some t =>
    have : t = .ripemd160 := by
      by_contra hne
      exact h ⟨t, ht, hne⟩
    simp only [this, if_true]

theorem diffuse_eq_some (h : Diffuses hashSpec) (data : List Byte) :
    ∃ data', diffuse P hashSpec data = some data' ∧ data'.length = data.length := by
  obtain ⟨t, ht, hne⟩ := h
  have heq : diffuse P hashSpec data = some (diffuseLoop P t
      (data.length / t.size + if data.length % t.size ≠ 0 then 1 else 0) 0 data) := by
    simp only [diffuse, ht, if_neg hne]
  refine ⟨_, heq, length_diffuseLoop t 0 ?_⟩
  have hpos := t.size_pos
  have hdiv := Nat.div_add_mod data.length t.size
  have hmod := Nat.mod_lt data.length hpos
  split_ifs with hz
  · rw [Nat.add_mul, Nat.one_mul, Nat.mul_comm]
    omega
  · rw [Nat.add_zero, Nat.mul_comm]
    omega

theorem afmergeLoop_succ (hashSpec splitKey : List Byte) (n k i : ℕ) (key : List Byte) :
    afmergeLoop P hashSpec n (k + 1) key (splitKey.drop (i * n)) =
      (diffuseStripes P hashSpec (fun j => stripeAt n splitKey (j * n)) k i key).map fun prev =>
        computeXor prev (stripeAt n splitKey ((i + k) * n)) := by
  induction k generalizing i key with
  | zero => rfl
  | succ k ih =>
    have hdrop : (splitKey.drop (i * n)).drop n = splitKey.drop ((i + 1) * n) := by
      rw [drop_drop, Nat.succ_mul]
    rw [afmergeLoop, diffuseStripes]
    simp only [if_neg (Nat.succ_ne_zero k), hdrop, ih, map_bind, stripeAt, Function.comp_def]
    rw [show i + 1 + k = i + (k + 1) by omega]

theorem diffuseStripes_congr {f g : ℕ → List Byte} (h : ∀ j < i + k, f j = g j) (prev : List Byte) :
    diffuseStripes P hashSpec f k i prev = diffuseStripes P hashSpec g k i prev := by
  induction k generalizing i prev with
  | zero => rfl
  | succ k ih =>
    rw [diffuseStripes, diffuseStripes, h i (by omega)]
    simp only [ih (i := i + 1) fun j hj => h j (by omega)]

theorem length_diffuseStripes {stripe : ℕ → List Byte} {prev : List Byte}
    (hkey : key.length = n) (hstripe : ∀ j < i + k, (stripe j).length = n)
    (h : diffuseStripes P hashSpec stripe k i key = some prev) : prev.length = n := by
  induction k generalizing i key with
  | zero =>
    cases h
    exact hkey
  | succ k ih =>
    rw [diffuseStripes] at h
    obtain ⟨key', hkey', h⟩ := bind_eq_some_iff.mp h
    refine ih ?_ (fun j hj => hstripe j (by omega)) h
    by_cases hd : Diffuses hashSpec
    · obtain ⟨key₂, hkey₂, hlen⟩ := diffuse_eq_some (P := P) hd (computeXor key (stripe i))
      obtain rfl : key₂ = key' := some.inj (hkey₂.symm.trans hkey')
      rw [hlen, length_computeXor (by rw [hstripe i (by omega), hkey]), hkey]
    · rw [diffuse_eq_none hd] at hkey'
      cases hkey'

theorem stripe_le {j : ℕ} (h : j < k) : j * n + n ≤ n * k := by
  rw [← Nat.succ_mul, Nat.mul_comm n k]
  exact Nat.mul_le_mul_right n h

theorem length_stripeAt {offset : ℕ} {src : List Byte} (h : offset + n ≤ src.length) :
    (stripeAt n src offset).length = n := by
  rw [stripeAt, length_take, length_drop]
  omega

section

variable {hashSpec key random split : List Byte} {n : ℕ} {stripes : BitVec 32}

theorem exists_pred_stripes (hs : 0 < stripes.toNat) : ∃ k, stripes.toNat = k + 1 ∧ (stripes - 1).toNat = k :=
  ⟨stripes.toNat - 1, by omega, by bv_omega⟩

theorem vicAfsplit_eq_some (hs : 0 < stripes.toNat) (hkey : key.length = n)
    (hrandom : random.length = n * stripes.toNat) (h : vicAfsplit P hashSpec key n stripes random = some split) :
    ∃ prev, genSplitMaterial P hashSpec n (stripes - 1).toNat random (replicate n 0) = some prev ∧ prev.length = n ∧
      split = random.take ((stripes - 1).toNat * n) ++ computeXor prev key ∧ split.length = n * stripes.toNat := by
  unfold vicAfsplit at h
  split_ifs at h
  obtain ⟨prev, hprev, rfl⟩ := map_eq_some_iff.mp h
  obtain ⟨k, hk, hpred⟩ := exists_pred_stripes hs
  rw [hpred] at hprev ⊢
  rw [hk] at hrandom ⊢
  have hlen : prev.length = n := by
    refine length_diffuseStripes length_replicate (fun j hj => length_stripeAt ?_) hprev
    have hle : j * n % 2 ^ 32 ≤ j * n := Nat.mod_le _ _
    have := stripe_le (n := n) (show j < k + 1 by omega)
    omega
  refine ⟨prev, hprev, hlen, rfl, ?_⟩
  rw [length_append, length_computeXor (hkey.trans hlen.symm), hlen, length_take, hrandom, Nat.mul_succ,
    Nat.mul_comm k n]
  omega

theorem le_of_vicAfsplit (h : vicAfsplit P hashSpec key n stripes random = some split) : n ≤ keyBufferSize := by
  unfold vicAfsplit at h
  split_ifs at h with hn
  exact Nat.not_lt.mp hn

/-- **Merging what was split** gives the key exactly if the stripes that were read have been diffused to the same as
those that are merged. -/
theorem vicAfmerge_eq_iff (hs : 0 < stripes.toNat) (hkey : key.length = n)
    (hrandom : random.length = n * stripes.toNat) (h : vicAfsplit P hashSpec key n stripes random = some split)
    (rest : List Byte) :
    vicAfmerge P n (stripes.setWidth 64) hashSpec (split ++ rest) = some key ↔
      diffuseStripes P hashSpec (fun i => stripeAt n random (i * n)) (stripes - 1).toNat 0 (replicate n 0) =
        genSplitMaterial P hashSpec n (stripes - 1).toNat random (replicate n 0) := by
  obtain ⟨prev, hprev, hlen, rfl, -⟩ := vicAfsplit_eq_some hs hkey hrandom h
  obtain ⟨k, hk, hpred⟩ := exists_pred_stripes hs
  have hwide : (stripes.setWidth 64).toNat = stripes.toNat := by
    rw [BitVec.toNat_setWidth]
    omega
  rw [hpred] at hprev ⊢
  rw [hk] at hrandom
  have hsrc : (random.take (k * n)).length = k * n := by
    rw [length_take, hrandom, Nat.mul_succ, Nat.mul_comm n k]
    omega
  have hxor : (computeXor prev key).length = n := by rw [length_computeXor (hkey.trans hlen.symm), hlen]
  -- the stripes in front of the last one are those of the random material
  have hstripe : ∀ j < 0 + k, stripeAt n (random.take (k * n) ++ computeXor prev key ++ rest) (j * n) =
      stripeAt n random (j * n) := by
    intro j hj
    have hle := stripe_le (n := n) (show j < k by omega)
    rw [Nat.mul_comm n k] at hle
    rw [stripeAt, stripeAt, append_assoc, drop_append_of_le_length (by omega),
      take_append_of_le_length (by rw [length_drop]; omega), drop_take, take_take,
      Nat.min_eq_left (by omega)]
  have hlast : stripeAt n (random.take (k * n) ++ computeXor prev key ++ rest) ((0 + k) * n) = computeXor prev key := by
    rw [stripeAt, append_assoc, Nat.zero_add, drop_append_of_le_length hsrc.ge, drop_of_length_le hsrc.le,
      nil_append, take_append_of_le_length hxor.ge, take_of_length_le hxor.le]
  have hmerge := afmergeLoop_succ (P := P) hashSpec (random.take (k * n) ++ computeXor prev key ++ rest) n k 0
    (replicate n 0)
  rw [Nat.zero_mul, drop_zero, hlast, diffuseStripes_congr hstripe] at hmerge
  rw [vicAfmerge, if_neg (by omega), hwide, hk, hmerge, hprev]
  constructor
  · intro heq
    obtain ⟨prev', hprev', heq⟩ := map_eq_some_iff.mp heq
    have hlen' : prev'.length = n := by
      refine length_diffuseStripes length_replicate (fun j hj => length_stripeAt ?_) hprev'
      rw [hrandom]
      exact stripe_le (by omega)
    rw [hprev', ← computeXor_cancel (hlen'.trans hlen.symm) (hkey.trans hlen.symm) heq]
  · intro heq
    rw [heq, map_some, computeXor_computeXor (hkey.trans hlen.symm)]

/-- **What was split is merged**, if the stripes are within 32 bits. -/
theorem vicAfmerge_vicAfsplit (hs : 0 < stripes.toNat) (hbound : (stripes.toNat - 2) * n < 2 ^ 32)
    (hkey : key.length = n) (hrandom : random.length = n * stripes.toNat)
    (h : vicAfsplit P hashSpec key n stripes random = some split) (rest : List Byte) :
    split.length = n * stripes.toNat ∧ vicAfmerge P n (stripes.setWidth 64) hashSpec (split ++ rest) = some key := by
  obtain ⟨-, -, -, -, hlen⟩ := vicAfsplit_eq_some hs hkey hrandom h
  obtain ⟨k, hk, hpred⟩ := exists_pred_stripes hs
  refine ⟨hlen, (vicAfmerge_eq_iff hs hkey hrandom h rest).mpr (diffuseStripes_congr (fun j hj => ?_) _)⟩
  have hle : j * n ≤ (stripes.toNat - 2) * n := Nat.mul_le_mul_right n (by omega)
  rw [Nat.mod_eq_of_lt (by omega)]

end

theorem isSome_afmergeLoop (h : Diffuses hashSpec) (n k : ℕ)
    (key splitKey : List Byte) : (afmergeLoop P hashSpec n k key splitKey).isSome := by
  induction k generalizing key splitKey with
  | zero => rfl
  | succ k ih =>
    unfold afmergeLoop
    dsimp only
    split_ifs
    · rfl
    · obtain ⟨key', hkey', -⟩ := diffuse_eq_some (P := P) h (computeXor key (splitKey.take n))
      rw [hkey', bind_some]
      exact ih key' _

theorem isSome_vicAfmerge (h : Diffuses hashSpec) (n : ℕ) {stripes : Word} (hs : stripes.toNat < 2 ^ 32)
    (splitKey : List Byte) : (vicAfmerge P n stripes hashSpec splitKey).isSome := by
  rw [vicAfmerge, if_neg (Nat.not_le.mpr hs)]
  exact isSome_afmergeLoop h n _ _ splitKey

theorem diffuses_of_vicAfsplit {random split : List Byte} {stripes : BitVec 32}
    (hs : 1 < stripes.toNat) (h : vicAfsplit P hashSpec key n stripes random = some split) : Diffuses hashSpec := by
  by_contra hd
  obtain ⟨k, hk, hpred⟩ := exists_pred_stripes (show 0 < stripes.toNat by omega)
  obtain ⟨k, rfl⟩ : ∃ j, k = j + 1 := ⟨k - 1, by omega⟩
  unfold vicAfsplit at h
  split_ifs at h
  rw [hpred, genSplitMaterial, diffuseStripes, diffuse_eq_none hd] at h
  cases h

/-! ## Decrypting what was encrypted -/

theorem length_cryptLoop {f : Word → List Byte → List Byte}
    (hf : ∀ i data, (f i data).length = data.length) (i : Word) : (cryptLoop f k i data).length = data.length := by
  induction k generalizing i data with
  | zero => rw [cryptLoop, length_replicate]
  | succ k ih =>
    rw [cryptLoop, length_append, hf, ih, ← length_append, take_append_drop]

theorem cryptLoop_cryptLoop {f g : Word → List Byte → List Byte}
    (hf : ∀ i data, (f i data).length = data.length) (hgf : ∀ i data, g i (f i data) = data)
    (i : Word) (h : data.length = k * sectorSize) : cryptLoop g k i (cryptLoop f k i data) = data := by
  induction k generalizing i data with
  | zero =>
    rw [Nat.zero_mul] at h
    rw [eq_nil_of_length_eq_zero h]
    rfl
  | succ k ih =>
    have hlen : (f i (data.take sectorSize)).length = sectorSize := by
      rw [hf, length_take, h, Nat.succ_mul]
      omega
    have hdrop : (data.drop sectorSize).length = k * sectorSize := by
      rw [length_drop, h, Nat.succ_mul, Nat.add_sub_cancel]
    have hrest := ih (i + 1) hdrop
    rw [cryptLoop, cryptLoop, take_append_of_le_length (le_of_eq hlen.symm),
      take_of_length_le (le_of_eq hlen), hgf, drop_append_of_le_length (le_of_eq hlen.symm),
      drop_of_length_le (le_of_eq hlen), nil_append, hrest, take_append_drop]

/-- **A key area that was encrypted is decrypted.** -/
theorem decrypt_encrypt
    (hdata : data.length % sectorSize = 0) (h : encrypt P encryption keyBytes key data = some cipher) :
    decrypt P encryption keyBytes key cipher = some data := by
  unfold encrypt crypt at h
  split_ifs at h with hinfo
  cases h
  unfold decrypt crypt
  rw [if_pos hinfo, length_cryptLoop fun i data => P.length_xtsEncrypt _ i data,
    cryptLoop_cryptLoop (fun i data => P.length_xtsEncrypt _ i data)
      (fun i data => P.xtsDecrypt_xtsEncrypt _ i data)]
  exact (Nat.div_mul_cancel (Nat.dvd_of_mod_eq_zero hdata)).symm

theorem length_encrypt
    (h : encrypt P encryption keyBytes key data = some cipher) : cipher.length = data.length := by
  unfold encrypt crypt at h
  split_ifs at h
  cases h
  exact length_cryptLoop (fun i data => P.length_xtsEncrypt _ i data) 0

theorem isSome_decrypt_of_encrypt
    (h : encrypt P encryption keyBytes key data = some cipher) (key' data' : List Byte) :
    (decrypt P encryption keyBytes key' data').isSome := by
  unfold encrypt crypt at h
  split_ifs at h with hinfo
  unfold decrypt crypt
  rw [if_pos hinfo]
  rfl

/-! ## Passwords -/

theorem isSome_vicPbkdf2 {pwd pwd' salt : List Byte} {iterations : Word} {keySize : ℕ}
    (hpwd : pwd' ≠ []) (h : (vicPbkdf2 P pwd salt iterations hashSpec keySize).isSome) :
    (vicPbkdf2 P pwd' salt iterations hashSpec keySize).isSome := by
  unfold vicPbkdf2 at h ⊢
  split_ifs at h with h₁ h₂
  · cases h
  · cases h
  · rw [not_or] at h₁
    rw [if_neg (by tauto), if_neg h₂]
    cases ht : vicHashType hashSpec with
    | none => simp [ht] at h
    | some t =>
      simp only [ht] at h ⊢
      split_ifs at h ⊢
      · rfl
      · cases h

end SgxLkl.Luks
