import SgxLkl.Lib.Bits

/-!
# The bitmap operations of `enclave/bitops.h`

A bitmap is a word pointer `map` into a memory of words; its bit `i` is bit `64 * map + i` of the
memory. The counters of the source are `int`, its sizes and offsets `unsigned long`; a shift by a
count outside `0..63` follows the x86 instruction, which reads the low six bits of the count.

* `findNextBit`, `findNextZeroBit`: **`isNext_findNext`**, the search finds the next bit, and
  passes `size` only inside the word it stopped in.
* `bitmapSet`, `bitmapClear`: **`bitAt_bitmapSet`**, **`bitAt_bitmapClear`**, exactly the `nr` bits
  from `start` on are changed.
-/

namespace SgxLkl

open BitVec Function

/-! ## Words -/

/-- The distance a 64-bit shift moves for the count `k`. -/
def shiftCount (k : ℤ) : ℕ := (k % 64).toNat

def bitmapFirstWordMask (start : ℤ) : Word := highMask (shiftCount (start.tmod 64))

def bitmapLastWordMask (n : ℤ) : Word := lowMask (shiftCount (64 - n))

/-- `ffsl`: one plus the position of the lowest set bit, `0` for the zero word. -/
def ffsl (w : Word) : ℤ := if w = 0 then 0 else w.ctz.toNat + 1

def ffslPos (w : Word) : ℤ := ffsl w - 1

variable {w size offset : Word}

theorem ffslPos_spec (hw : w ≠ 0) :
    ∃ i : ℕ, i < 64 ∧ ffslPos w = i ∧ w.getLsbD i = true ∧ ∀ j < i, w.getLsbD j = false := by
  have hbit := getLsbD_true_ctz_of_ne_zero hw
  refine ⟨w.ctz.toNat, lt_of_getLsbD hbit, ?_, hbit, fun j hj => getLsbD_false_of_lt_ctz hj⟩
  rw [ffslPos, ffsl, if_neg hw]
  omega

theorem getLsbD_of_eq_zero (hw : w = 0) (i : ℕ) : w.getLsbD i = false := by
  rw [hw]; exact getLsbD_zero

theorem getLsbD_bitmapLastWordMask {n : ℤ} (i : ℕ) (h0 : 0 < n % 64) :
    (bitmapLastWordMask n).getLsbD i = decide ((i : ℤ) < n % 64) := by
  rw [bitmapLastWordMask, getLsbD_lowMask, shiftCount]
  exact decide_eq_decide.mpr (by omega)

/-! ## Searching -/

/-- What is left of a search after the whole words: the last `size < 64` bits. -/
def findNextTail (f : Word → Word) (m : ℤ → Word) (addr bit : ℤ) (size : ℕ) : ℤ :=
  if size ≠ 0 then
    let mask := f (m addr) &&& bitmapLastWordMask size
    if mask ≠ 0 then wrapInt (bit + ffslPos mask) else wrapInt (bit + size)
  else bit

/-- The loop over whole words of a search, `fuel` of them. -/
def findNextWords (f : Word → Word) (m : ℤ → Word) : ℕ → ℤ → ℤ → ℕ → ℤ
  | 0, addr, bit, size => findNextTail f m addr bit size
  | fuel + 1, addr, bit, size =>
    if 64 ≤ size then
      if f (m addr) = 0 then findNextWords f m fuel (addr + 1) (wrapInt (bit + 64)) (size - 64)
      else wrapInt (bit + ffslPos (f (m addr)))
    else findNextTail f m addr bit size

/-- The common body of `find_next_bit` and `find_next_zero_bit`: the search for a set bit of the
words seen through `f`. -/
def findNext (f : Word → Word) (m : ℤ → Word) (map : ℤ) (size offset : Word) : Word :=
  if size ≤ offset then size
  else
    let pos := cInt (offset / 64)
    let offs := cInt (offset % 64)
    let bit := wrapInt (64 * pos)
    let addr := map + pos
    let rest := fun addr bit =>
      let left := (size - BitVec.ofInt 64 bit).toNat
      BitVec.ofInt 64 (findNextWords f m (left / 64) addr bit left)
    if offs ≠ 0 then
      let mask := f (m addr) &&& ~~~bitmapLastWordMask offs
      if mask ≠ 0 then BitVec.ofInt 64 (wrapInt (bit + ffslPos mask))
      else if size - BitVec.ofInt 64 bit ≤ 64 then size
      else rest (addr + 1) (wrapInt (bit + 64))
    else rest addr bit

def findNextBit (m : ℤ → Word) (map : ℤ) (size offset : Word) : Word := findNext id m map size offset

def findNextZeroBit (m : ℤ → Word) (map : ℤ) (size offset : Word) : Word :=
  findNext (fun w => ~~~w) m map size offset

/-- `r` is where a search for `q` from `off` stops: there is no hit before `r` and below `size`, and
`r` is a hit if it is below `size`. Only a search from inside a word can pass `size`. -/
structure IsNext (q : ℕ → Bool) (off size r : ℕ) : Prop where
  ge : off ≤ r
  miss : ∀ j, off ≤ j → j < r → j < size → q j = false
  hit : r < size → q r = true
  lt : r < size + 64
  le : off % 64 = 0 → r ≤ size

section Search

variable {f : Word → Word} {φ : Bool → Bool} (hf : ∀ w i, i < 64 → (f w).getLsbD i = φ (w.getLsbD i))
  (m : ℤ → Word)

/-- The bits a search looks at, counted from word `addr`. -/
def seen (φ : Bool → Bool) (m : ℤ → Word) (addr : ℤ) (j : ℕ) : Bool := φ (bitAt m (64 * addr + j))

include hf in
theorem getLsbD_seen (addr : ℤ) {j : ℕ} (hj : j < 64) : (f (m addr)).getLsbD j = seen φ m addr j := by
  rw [hf _ _ hj, seen, bitAt_word m addr hj]

theorem seen_add (addr : ℤ) (k j : ℕ) : seen φ m (addr + k) j = seen φ m addr (64 * k + j) := by
  rw [seen, seen]
  congr 2
  push_cast
  ring

theorem seen_succ (addr : ℤ) (j : ℕ) : seen φ m (addr + 1) j = seen φ m addr (j + 64) := by
  rw [Nat.add_comm j 64]
  exact seen_add m addr 1 j

section Mask

variable {p : ℕ → Prop} [DecidablePred p] {mask : Word} (hmask : ∀ i < 64, mask.getLsbD i = decide (p i))
  {addr : ℤ}

include hf hmask

theorem getLsbD_and_mask (addr : ℤ) {i : ℕ} (hi : i < 64) :
    (f (m addr) &&& mask).getLsbD i = (seen φ m addr i && decide (p i)) := by
  rw [getLsbD_and, getLsbD_seen hf m addr hi, hmask i hi]

theorem seen_of_mask_eq_zero (h : f (m addr) &&& mask = 0) {j : ℕ} (hj : j < 64) (hp : p j) :
    seen φ m addr j = false := by
  have hbit := getLsbD_and_mask hf m hmask addr hj
  rw [getLsbD_of_eq_zero h, decide_eq_true hp, Bool.and_true] at hbit
  exact hbit.symm

theorem ffslPos_mask (h : f (m addr) &&& mask ≠ 0) :
    ∃ i : ℕ, i < 64 ∧ ffslPos (f (m addr) &&& mask) = i ∧ (seen φ m addr i = true ∧ p i) ∧
      ∀ j < i, p j → seen φ m addr j = false := by
  obtain ⟨i, hi, hpos, hbit, hlow⟩ := ffslPos_spec h
  rw [getLsbD_and_mask hf m hmask addr hi, Bool.and_eq_true, decide_eq_true_eq] at hbit
  refine ⟨i, hi, hpos, hbit, fun j hj hp => ?_⟩
  have hzero := hlow j hj
  rwa [getLsbD_and_mask hf m hmask addr (by omega), decide_eq_true hp, Bool.and_true] at hzero

end Mask

include hf in
theorem isNext_findNextTail (addr bit : ℤ) (size : ℕ) (h0 : 0 ≤ bit) (hs : size < 64) (hb : bit + size < 2 ^ 31) :
    ∃ d : ℕ, findNextTail f m addr bit size = bit + d ∧ d ≤ size ∧ IsNext (seen φ m addr) 0 size d := by
  rw [findNextTail]
  by_cases hz : size = 0
  · subst hz
    exact ⟨0, by simp, le_rfl, le_rfl, by omega, by omega, by omega, by omega⟩
  rw [if_pos hz]
  have hmask : ∀ i < 64, (bitmapLastWordMask size).getLsbD i = decide (i < size) := by
    intro i hi
    rw [getLsbD_bitmapLastWordMask i (by omega)]
    exact decide_eq_decide.mpr (by omega)
  by_cases hmz : f (m addr) &&& bitmapLastWordMask size = 0
  · -- no hit among the last bits
    rw [if_neg (not_not.mpr hmz), wrapInt_of_lt (by omega) hb]
    exact ⟨size, rfl, le_rfl, by omega,
      fun j _ hj _ => seen_of_mask_eq_zero hf m hmask hmz (by omega) hj, by omega, by omega, by omega⟩
  · rw [if_pos hmz]
    obtain ⟨i, hi, hpos, ⟨hbit, hlt⟩, hlow⟩ := ffslPos_mask hf m hmask hmz
    rw [hpos, wrapInt_of_lt (by omega) (by omega)]
    exact ⟨i, rfl, by omega, by omega, fun j _ hj hjs => hlow j hj hjs, fun _ => hbit, by omega, by omega⟩

include hf in
theorem isNext_findNextWords (fuel : ℕ) (addr bit : ℤ) (size : ℕ) (h0 : 0 ≤ bit)
    (hfuel : size / 64 ≤ fuel) (hb : bit + size < 2 ^ 31) :
    ∃ d : ℕ, findNextWords f m fuel addr bit size = bit + d ∧ d ≤ size ∧ IsNext (seen φ m addr) 0 size d := by
  induction fuel generalizing addr bit size with
  | zero => exact isNext_findNextTail hf m addr bit size h0 (by omega) hb
  | succ fuel ih =>
    rw [findNextWords]
    by_cases hs : 64 ≤ size
    swap
    · rw [if_neg hs]
      exact isNext_findNextTail hf m addr bit size h0 (by omega) hb
    rw [if_pos hs]
    by_cases hw : f (m addr) = 0
    · rw [if_pos hw, wrapInt_of_lt (by omega) (by omega)]
      obtain ⟨d, hd, hle, hnext⟩ := ih (addr + 1) (bit + 64) (size - 64) (by omega) (by omega)
        (by push_cast [hs]; omega)
      refine ⟨d + 64, by rw [hd]; push_cast; ring, by omega, by omega, fun j _ hj hjs => ?_,
        fun h => ?_, by omega, by omega⟩
      · by_cases hj64 : j < 64
        · rw [← getLsbD_seen hf m addr hj64, getLsbD_of_eq_zero hw]
        · obtain ⟨j, rfl⟩ : ∃ k, j = k + 64 := ⟨j - 64, by omega⟩
          rw [← seen_succ]
          exact hnext.miss j (by omega) (by omega) (by omega)
      · rw [← seen_succ]
        exact hnext.hit (by omega)
    · rw [if_neg hw]
      obtain ⟨i, hi, hpos, hbit, hlow⟩ := ffslPos_spec hw
      rw [hpos, wrapInt_of_lt (by omega) (by omega)]
      refine ⟨i, rfl, by omega, by omega, fun j _ hj _ => ?_, fun _ => ?_, by omega, by omega⟩
      · rw [← getLsbD_seen hf m addr (by omega)]; exact hlow j hj
      · rw [← getLsbD_seen hf m addr hi]; exact hbit

include hf in
theorem isNext_rest (map : ℤ) (size : Word) (hsize : size.toNat < 2 ^ 31) (k : ℕ) (hk : 64 * k ≤ size.toNat) :
    let left := (size - BitVec.ofInt 64 (64 * k)).toNat
    IsNext (seen φ m map) (64 * k) size.toNat
      (BitVec.ofInt 64 (findNextWords f m (left / 64) (map + k) (64 * k) left)).toNat := by
  intro left
  have hleft : left = size.toNat - 64 * k := by
    simp only [left, toNat_sub, toNat_ofInt_of_lt (x := 64 * k) (by omega) (by omega)]
    omega
  obtain ⟨d, hd, hle, hnext⟩ :=
    isNext_findNextWords hf m (left / 64) (map + k) (64 * k) left (by omega) le_rfl (by omega)
  rw [hd, toNat_ofInt_of_lt (by omega) (by omega)]
  rw [show ((64 * k : ℤ) + d).toNat = 64 * k + d by omega]
  refine ⟨by omega, fun j hj hjd hjs => ?_, fun h => ?_, by omega, by omega⟩
  · obtain ⟨j, rfl⟩ : ∃ i, j = 64 * k + i := ⟨j - 64 * k, by omega⟩
    rw [← seen_add]
    exact hnext.miss j (by omega) (by omega) (by omega)
  · rw [← seen_add]
    exact hnext.hit (by omega)

include hf in
/-- **The search finds the next hit.** -/
theorem isNext_findNext (map : ℤ) {size offset : Word} (hsize : size.toNat < 2 ^ 31)
    (hoff : offset.toNat < size.toNat) :
    IsNext (seen φ m map) offset.toNat size.toNat (findNext f m map size offset).toNat := by
  have hdiv : (offset / 64).toNat = offset.toNat / 64 := toNat_udiv
  have hmod : (offset % 64).toNat = offset.toNat % 64 := toNat_umod
  have hpos : cInt (offset / 64) = (offset.toNat / 64 : ℕ) := by
    rw [cInt_of_lt (by omega), hdiv]
  have hoffs : cInt (offset % 64) = (offset.toNat % 64 : ℕ) := by
    rw [cInt_of_lt (by omega), hmod]
  rw [findNext, if_neg (by rw [le_def]; omega)]
  simp only [hpos, hoffs]
  set k := offset.toNat / 64 with hk
  set o := offset.toNat % 64 with ho
  rw [wrapInt_of_lt (x := 64 * (k : ℤ)) (by omega) (by omega)]
  by_cases ho0 : o = 0
  · rw [if_neg (by simpa using ho0), show offset.toNat = 64 * k by omega]
    exact isNext_rest hf m map size hsize k (by omega)
  rw [if_pos (by exact_mod_cast ho0)]
  have hmask : ∀ i < 64, (~~~bitmapLastWordMask o).getLsbD i = decide (o ≤ i) := by
    intro i hi
    rw [getLsbD_not, getLsbD_bitmapLastWordMask i (by omega), decide_eq_true hi, Bool.true_and, ← decide_not]
    exact decide_eq_decide.mpr (by omega)
  by_cases hm : f (m (map + k)) &&& ~~~bitmapLastWordMask o = 0
  · rw [if_neg (not_not.mpr hm)]
    have hmiss : ∀ j, offset.toNat ≤ j → j < 64 * k + 64 → seen φ m map j = false := by
      intro j hj hj64
      have := seen_of_mask_eq_zero hf m hmask hm (j := j - 64 * k) (by omega) (by omega)
      rwa [seen_add, show 64 * k + (j - 64 * k) = j by omega] at this
    have hle : size - BitVec.ofInt 64 (64 * k) ≤ 64 ↔ size.toNat ≤ 64 * k + 64 := by
      rw [BitVec.le_def, BitVec.toNat_sub, toNat_ofInt_of_lt (x := 64 * (k : ℤ)) (by omega) (by omega)]
      rw [show (64 : Word).toNat = 64 from rfl]
      omega
    by_cases hs : size.toNat ≤ 64 * k + 64
    · rw [if_pos (hle.mpr hs)]
      exact ⟨by omega, fun j hj _ hjs => hmiss j hj (by omega), by omega, by omega, by omega⟩
    · -- nothing in the first word: go on with the next one
      rw [if_neg (fun h => hs (hle.mp h)), wrapInt_of_lt (by omega) (by omega)]
      have hrest := isNext_rest hf m map size hsize (k + 1) (by omega)
      rw [show ((64 : ℤ) * k + 64) = 64 * ((k + 1 : ℕ) : ℤ) by push_cast; ring,
        show map + (k : ℤ) + 1 = map + ((k + 1 : ℕ) : ℤ) by push_cast; ring]
      refine ⟨le_trans (by omega) hrest.ge, fun j hj hjr hjs => ?_, hrest.hit, hrest.lt, by omega⟩
      by_cases hj64 : j < 64 * k + 64
      · exact hmiss j hj hj64
      · exact hrest.miss j (by omega) hjr hjs
  · rw [if_pos hm]
    obtain ⟨i, hi, hpos, ⟨hbit, hlt⟩, hlow⟩ := ffslPos_mask hf m hmask hm
    rw [hpos, wrapInt_of_lt (by omega) (by omega), toNat_ofInt_of_lt (by omega) (by omega),
      show ((64 : ℤ) * k + i).toNat = 64 * k + i by omega]
    refine ⟨by omega, fun j hj hji hjs => ?_, fun _ => seen_add m map k i ▸ hbit, by omega, by omega⟩
    have := hlow (j - 64 * k) (by omega) (by omega)
    rwa [seen_add, show 64 * k + (j - 64 * k) = j by omega] at this

end Search

theorem findNext_of_le (f : Word → Word) (m : ℤ → Word) (map : ℤ)
    (h : size ≤ offset) : findNext f m map size offset = size := if_pos h

def mapBit (m : ℤ → Word) (map : ℤ) (i : ℕ) : Bool := bitAt m (64 * map + i)

theorem isNext_findNextBit (m : ℤ → Word) (map : ℤ)
    (hsize : size.toNat < 2 ^ 31) (hoff : offset.toNat < size.toNat) :
    IsNext (mapBit m map) offset.toNat size.toNat (findNextBit m map size offset).toNat :=
  isNext_findNext (φ := id) (fun _ _ _ => rfl) m map hsize hoff

theorem isNext_findNextZeroBit (m : ℤ → Word) (map : ℤ)
    (hsize : size.toNat < 2 ^ 31) (hoff : offset.toNat < size.toNat) :
    IsNext (fun i => !mapBit m map i) offset.toNat size.toNat (findNextZeroBit m map size offset).toNat :=
  isNext_findNext (φ := not) (fun w i hi => by rw [getLsbD_not]; simp [hi]) m map hsize hoff

/-! ## Setting and clearing -/

/-- The common loop of `bitmap_set` and `bitmap_clear`: `op` applies a mask to a word, and each
round but the last uses up `bits` of the `nr` bits. -/
def bitmapLoop (op : Word → Word → Word) (size : ℤ) : ℕ → (ℤ → Word) → ℤ → ℤ → ℤ → Word → ℤ → Word
  | 0, m, _, _, _, _ => m
  | fuel + 1, m, p, nr, bits, mask =>
    if 0 ≤ nr - bits then
      bitmapLoop op size fuel (update m p (op (m p) mask)) (p + 1) (nr - bits) 64
        (BitVec.allOnes 64)
    else if nr ≠ 0 then update m p (op (m p) (mask &&& bitmapLastWordMask size))
    else m

/-- The common body of `bitmap_set` and `bitmap_clear`. -/
def bitmapOp (op : Word → Word → Word) (m : ℤ → Word) (map start nr : ℤ) : ℤ → Word :=
  bitmapLoop op (start + nr) (nr.toNat + 1) m (map + start.tdiv 64) nr (64 - start.tmod 64)
    (bitmapFirstWordMask start)

def bitmapSet (m : ℤ → Word) (map start nr : ℤ) : ℤ → Word :=
  bitmapOp (fun w mask => w ||| mask) m map start nr

def bitmapClear (m : ℤ → Word) (map start nr : ℤ) : ℤ → Word :=
  bitmapOp (fun w mask => w &&& ~~~mask) m map start nr

section Update

variable {op : Word → Word → Word} {φ : Bool → Bool}
  (hop : ∀ w mask i, i < 64 →
    (op w mask).getLsbD i = if mask.getLsbD i then φ (w.getLsbD i) else w.getLsbD i)

include hop in
theorem bitAt_update_op (m : ℤ → Word) (p : ℤ) (mask : Word) (a b : ℤ)
    (hmask : ∀ i : ℕ, i < 64 → mask.getLsbD i = decide (a ≤ 64 * p + i ∧ 64 * p + i < b))
    (ha : 64 * p ≤ a) (hb : b ≤ 64 * p + 64) (j : ℤ) : bitAt (update m p (op (m p) mask)) j =
      if a ≤ j ∧ j < b then φ (bitAt m j) else bitAt m j := by
  rw [bitAt_update]
  by_cases hj : j / 64 = p
  · have hlt : (j % 64).toNat < 64 := by omega
    have hcond : (a ≤ 64 * p + ((j % 64).toNat : ℤ) ∧ 64 * p + ((j % 64).toNat : ℤ) < b) ↔
        (a ≤ j ∧ j < b) := by omega
    rw [if_pos hj, hop _ _ _ hlt, hmask _ hlt]
    simp only [hcond, decide_eq_true_eq]
    rw [bitAt, hj]
  · rw [if_neg hj, if_neg (by omega)]

include hop in
/-- The loop, by induction on its rounds: with `64 - bits` bits of word `p` behind it and `nr` bits
to go it changes exactly the next `nr` bits. -/
theorem bitAt_bitmapLoop (size : ℤ) (fuel : ℕ) (m : ℤ → Word) (p nr bits : ℤ) (mask : Word)
    (hfuel : nr < fuel) (hnr : 0 ≤ nr) (hb0 : 0 < bits) (hb : bits ≤ 64)
    (hmask : ∀ i : ℕ, i < 64 → mask.getLsbD i = decide (64 - bits ≤ i))
    (hsize : (size - (64 - bits + nr)) % 64 = 0) (j : ℤ) :
    bitAt (bitmapLoop op size fuel m p nr bits mask) j =
      if 64 * p + (64 - bits) ≤ j ∧ j < 64 * p + (64 - bits) + nr then φ (bitAt m j)
      else bitAt m j := by
  induction fuel generalizing m p nr bits mask with
  | zero => omega
  | succ fuel ih =>
    rw [bitmapLoop]
    by_cases hge : 0 ≤ nr - bits
    · rw [if_pos hge, ih (update m p (op (m p) mask)) (p + 1) (nr - bits) 64
        (allOnes 64) (by omega) hge (by omega) (by omega)
        (fun i hi => by rw [getLsbD_allOnes]; exact decide_eq_decide.mpr (by omega))
        (by omega)]
      rw [bitAt_update_op hop m p mask (64 * p + (64 - bits)) (64 * p + 64)
        (fun i hi => by rw [hmask i hi]; exact decide_eq_decide.mpr (by omega)) (by omega) le_rfl]
      -- the rest starts at the next word, so no bit is changed twice
      split_ifs <;> first | rfl | omega
    · rw [if_neg hge]
      by_cases hz : nr = 0
      · rw [if_neg (not_not.mpr hz), if_neg (by omega)]
      · rw [if_pos hz, bitAt_update_op hop m p _ (64 * p + (64 - bits)) (64 * p + (64 - bits) + nr)
          _ (by omega) (by omega)]
        intro i hi
        rw [getLsbD_and, hmask i hi, getLsbD_bitmapLastWordMask i (by omega), ← Bool.decide_and]
        exact decide_eq_decide.mpr (by omega)

include hop in
theorem bitAt_bitmapOp (m : ℤ → Word) (map start nr : ℤ) (hs : 0 ≤ start) (hnr : 0 ≤ nr) (j : ℤ) :
    bitAt (bitmapOp op m map start nr) j =
      if 64 * map + start ≤ j ∧ j < 64 * map + start + nr then φ (bitAt m j) else bitAt m j := by
  have hdiv : start.tdiv 64 = start / 64 := Int.tdiv_eq_ediv_of_nonneg hs
  have hmod : start.tmod 64 = start % 64 := Int.tmod_eq_emod_of_nonneg hs
  rw [bitmapOp, hdiv, hmod, bitAt_bitmapLoop hop _ _ _ _ _ _ _ (by omega) hnr (by omega) (by omega)
    (fun i hi => ?_) (by omega)]
  · refine if_congr ?_ rfl rfl
    omega
  · rw [bitmapFirstWordMask, getLsbD_highMask _ hi, hmod, shiftCount]
    exact decide_eq_decide.mpr (by omega)

end Update

/-- **`bitmap_set` sets exactly the `nr` bits from `start` on.** -/
theorem bitAt_bitmapSet (m : ℤ → Word) (map start nr : ℤ) (hs : 0 ≤ start) (hnr : 0 ≤ nr) (j : ℤ) :
    bitAt (bitmapSet m map start nr) j =
      if 64 * map + start ≤ j ∧ j < 64 * map + start + nr then true else bitAt m j :=
  bitAt_bitmapOp (φ := fun _ => true)
    (fun w mask i hi => by rw [getLsbD_or]; cases mask.getLsbD i <;> simp) m map start nr hs hnr j

/-- **`bitmap_clear` clears exactly the `nr` bits from `start` on.** -/
theorem bitAt_bitmapClear (m : ℤ → Word) (map start nr : ℤ) (hs : 0 ≤ start) (hnr : 0 ≤ nr) (j : ℤ) :
    bitAt (bitmapClear m map start nr) j =
      if 64 * map + start ≤ j ∧ j < 64 * map + start + nr then false else bitAt m j :=
  bitAt_bitmapOp (φ := fun _ => false)
    (fun w mask i hi => by
      rw [getLsbD_and, getLsbD_not]; cases mask.getLsbD i <;> simp [hi])
    m map start nr hs hnr j

end SgxLkl
