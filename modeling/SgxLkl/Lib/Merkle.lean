import Mathlib

/-!
# Hash trees

Blocks are hashed, the digests are packed into nodes, `d` of them in each, and the nodes are blocks again.

* **`treeRoot_inj`**: the root determines the blocks, if no two different blocks of the two trees have the same
  digest.
-/

namespace SgxLkl

open List

/-! ## Parts of a list -/

section Chunks

variable {α β : Type*} {d : ℕ} {l : List α}

/-- The list in parts of `d` elements; the last part may be shorter. -/
def chunks (d : ℕ) (l : List α) : List (List α) :=
  (List.range ((l.length + d - 1) / d)).map fun j => (l.drop (j * d)).take d

theorem length_chunks (d : ℕ) (l : List α) : (chunks d l).length = (l.length + d - 1) / d := by
  rw [chunks, length_map, length_range]

theorem chunks_nil (hd : 0 < d) : chunks d ([] : List α) = [] := by
  rw [chunks, length_nil, Nat.zero_add, Nat.div_eq_of_lt (by omega)]
  rfl

theorem chunks_eq_cons (hd : 0 < d) (hl : l ≠ []) : chunks d l = l.take d :: chunks d (l.drop d) := by
  have hpos : 0 < l.length := length_pos_iff.mpr hl
  have hcount : (l.length + d - 1) / d = ((l.drop d).length + d - 1) / d + 1 := by
    rw [length_drop]
    rcases le_total l.length d with hle | hle
    · rw [Nat.sub_eq_zero_of_le hle, Nat.zero_add, Nat.div_eq_of_lt (by omega : d - 1 < d), Nat.zero_add]
      exact Nat.div_eq_of_lt_le (by omega) (by omega)
    · rw [show l.length + d - 1 = (l.length - d + d - 1) + d by omega, Nat.add_div_right _ hd]
  rw [chunks, chunks, hcount, range_succ_eq_map, map_cons, map_map, Nat.zero_mul, drop_zero]
  congr 1
  refine map_congr_left fun j _ => ?_
  rw [Function.comp_apply, drop_drop, Nat.succ_mul, Nat.add_comm d]

theorem chunks_of_length_le (hd : 0 < d) (hl : l ≠ []) (hle : l.length ≤ d) : chunks d l = [l] := by
  rw [chunks_eq_cons hd hl, take_of_length_le hle, drop_eq_nil_of_le hle, chunks_nil hd]

theorem chunks_append (hd : 0 < d) {cur : List α} (hcur : cur.length = d) (l : List α) :
    chunks d (cur ++ l) = cur :: chunks d l := by
  have hne : cur ++ l ≠ [] := fun h => by
    rw [(append_eq_nil_iff.mp h).1, length_nil] at hcur
    omega
  rw [chunks_eq_cons hd hne, ← hcur, take_left, drop_left]

end Chunks

/-! ## Trees -/

section Trees

variable {β γ : Type*} (hash : β → γ) (pack : List γ → β) (d : ℕ)

def parents (bs : List β) : List β := (chunks d (bs.map hash)).map pack

theorem length_parents (bs : List β) : (parents hash pack d bs).length = (bs.length + d - 1) / d := by
  rw [parents, length_map, length_chunks, length_map]

theorem parents_append (hd : 0 < d) {bs cs : List β} (hbs : bs ≠ []) (hle : bs.length ≤ d)
    (hcs : bs.length = d ∨ cs = []) :
    parents hash pack d (bs ++ cs) = pack (bs.map hash) :: parents hash pack d cs := by
  have hne : bs.map hash ≠ [] := by simpa using hbs
  rw [parents, parents, map_append]
  rcases hcs with hcs | rfl
  · rw [chunks_append hd (by rw [length_map, hcs]), map_cons]
  · rw [map_nil, append_nil, chunks_nil hd, chunks_of_length_le hd hne (by rwa [length_map])]
    rfl

theorem length_parents_lt {bs : List β} (h : ¬ ((parents hash pack d bs).length < 2 ∨ d < 2)) :
    (parents hash pack d bs).length < bs.length := by
  rw [length_parents, not_or, Nat.not_lt, Nat.not_lt] at *
  obtain ⟨htwo, hd⟩ := h
  have hlt : d < bs.length := by
    have := (Nat.le_div_iff_mul_le (by omega)).mp htwo
    omega
  refine Nat.div_lt_of_lt_mul ?_
  have : bs.length * 2 ≤ d * bs.length := by
    rw [Nat.mul_comm]
    exact Nat.mul_le_mul_right _ hd
  omega

/-- The rows of nodes above the blocks, up to the one with a single node. -/
def treeLevels (bs : List β) : List (List β) :=
  if _ : (parents hash pack d bs).length < 2 ∨ d < 2 then [parents hash pack d bs]
  else parents hash pack d bs :: treeLevels (parents hash pack d bs)
termination_by bs.length
decreasing_by exact length_parents_lt hash pack d ‹_›

def treeRoot (bs : List β) : Option γ :=
  match (treeLevels hash pack d bs).getLast? with
  | some [node] => some (hash node)
  | _ => none

def treeBlocks (bs : List β) : List β := bs ++ (treeLevels hash pack d bs).flatten

def levelsAbove (bs : List β) : List (List β) := if bs.length < 2 then [] else treeLevels hash pack d bs

variable {hash pack d} {bs bs' : List β}

theorem treeLevels_eq_cons (hd : 2 ≤ d) :
    treeLevels hash pack d bs = parents hash pack d bs :: levelsAbove hash pack d (parents hash pack d bs) := by
  rw [treeLevels, levelsAbove]
  split_ifs with h hlt
  · rfl
  · omega
  · omega
  · rfl

theorem levelsAbove_of_le (hd : 2 ≤ d) (h : 2 ≤ bs.length) : levelsAbove hash pack d bs =
      parents hash pack d bs :: levelsAbove hash pack d (parents hash pack d bs) := by
  rw [levelsAbove, if_neg (Nat.not_lt.mpr h), treeLevels_eq_cons hd]

theorem treeLevels_of_lt (h : (parents hash pack d bs).length < 2) :
    treeLevels hash pack d bs = [parents hash pack d bs] := by
  rw [treeLevels, dif_pos (Or.inl h)]

theorem treeLevels_of_le (hd : 2 ≤ d) (h : 2 ≤ (parents hash pack d bs).length) :
    treeLevels hash pack d bs = parents hash pack d bs :: treeLevels hash pack d (parents hash pack d bs) := by
  rw [treeLevels, dif_neg (by omega)]

theorem treeLevels_ne_nil : treeLevels hash pack d bs ≠ [] := by
  rw [treeLevels]
  split_ifs <;> exact cons_ne_nil _ _

theorem treeRoot_of_le (hd : 2 ≤ d) (h : 2 ≤ (parents hash pack d bs).length) :
    treeRoot hash pack d bs = treeRoot hash pack d (parents hash pack d bs) := by
  rw [treeRoot, treeLevels_of_le hd h, getLast?_cons_of_ne_nil treeLevels_ne_nil]
  rfl

/-! ## The root determines the blocks -/

/-- No two different blocks have the same digest. -/
def NoCollision (hash : β → γ) (xs ys : List β) : Prop := ∀ x ∈ xs, ∀ y ∈ ys, hash x = hash y → x = y

theorem NoCollision.mono {xs xs' ys ys' : List β} (h : NoCollision hash xs ys) (hx : xs' ⊆ xs) (hy : ys' ⊆ ys) :
    NoCollision hash xs' ys' :=
  fun x hxs y hys => h x (hx hxs) y (hy hys)

theorem NoCollision.eq_of_map (h : NoCollision hash bs bs') (hmap : bs.map hash = bs'.map hash) : bs = bs' := by
  induction bs generalizing bs' with
  | nil => exact (map_eq_nil_iff.mp hmap.symm).symm
  | cons b bs ih =>
    cases bs' with
    | nil => cases hmap
    | cons b' bs' =>
      rw [map_cons, map_cons, cons.injEq] at hmap
      rw [h b mem_cons_self b' mem_cons_self hmap.1,
        ih (h.mono (subset_cons_self _ _) (subset_cons_self _ _)) hmap.2]

/-- A node determines its digests, if their number is known. -/
def Packs (hash : β → γ) (pack : List γ → β) (d : ℕ) : Prop :=
  ∀ bs bs' : List β, bs.length ≤ d → bs.length = bs'.length →
    pack (bs.map hash) = pack (bs'.map hash) → bs.map hash = bs'.map hash

theorem Packs.map_eq (hpack : Packs hash pack d) (hd : 0 < d) (hlength : bs.length = bs'.length)
    (h : parents hash pack d bs = parents hash pack d bs') : bs.map hash = bs'.map hash := by
  induction hn : bs.length using Nat.strong_induction_on generalizing bs bs' with
  | h n ih =>
    rcases eq_or_ne bs [] with rfl | hbs
    · rw [length_nil] at hlength
      rw [eq_nil_of_length_eq_zero hlength.symm]
    have hbs' : bs' ≠ [] := fun h => hbs (eq_nil_of_length_eq_zero (by rw [hlength, h, length_nil]))
    have hcons : ∀ {cs : List β}, cs ≠ [] →
        parents hash pack d cs = pack ((cs.take d).map hash) :: parents hash pack d (cs.drop d) := fun {cs} hcs => by
      rw [parents, parents, chunks_eq_cons hd (by simpa using hcs), map_cons, map_take, map_drop]
    rw [hcons hbs, hcons hbs', cons.injEq] at h
    have htake : (bs.take d).length = (bs'.take d).length := by rw [length_take, length_take, hlength]
    have hfirst := hpack _ _ (length_take_le _ _) htake h.1
    have hdrop : (bs.drop d).length < n := by
      have := length_pos_iff.mpr hbs
      rw [length_drop]
      omega
    have hrest := ih _ hdrop (by rw [length_drop, length_drop, hlength]) h.2 rfl
    rw [← take_append_drop d bs, ← take_append_drop d bs', map_append, map_append, hfirst, hrest]

/-- **Trees with the same root are above the same blocks.** -/
theorem treeRoot_inj (hd : 2 ≤ d) (hpack : Packs hash pack d) (hlength : bs.length = bs'.length)
    (hhash : NoCollision hash (treeBlocks hash pack d bs) (treeBlocks hash pack d bs'))
    (hroot : treeRoot hash pack d bs = treeRoot hash pack d bs') : bs = bs' := by
  induction hn : bs.length using Nat.strong_induction_on generalizing bs bs' with
  | h n ih =>
    have hparents : (parents hash pack d bs).length = (parents hash pack d bs').length := by
      rw [length_parents, length_parents, hlength]
    refine (hhash.mono (subset_append_left _ _) (subset_append_left _ _)).eq_of_map
      (hpack.map_eq (by omega) hlength ?_)
    rcases Nat.lt_or_ge (parents hash pack d bs).length 2 with hlt | hle
    · -- a single node, or none
      rw [treeRoot, treeRoot, treeLevels_of_lt hlt, treeLevels_of_lt (hparents ▸ hlt)] at hroot
      rw [treeBlocks, treeBlocks, treeLevels_of_lt hlt, treeLevels_of_lt (hparents ▸ hlt)] at hhash
      match hx : parents hash pack d bs, hy : parents hash pack d bs' with
      | [], ys =>
        rw [hx, hy] at hparents
        exact (eq_nil_of_length_eq_zero hparents.symm).symm
      | [x], [y] =>
        rw [hx, hy] at hroot hhash
        rw [hhash x (by simp) y (by simp) (Option.some_inj.mp hroot)]
      | [x], [] => rw [hx, hy] at hparents; cases hparents
      | [x], y :: z :: ys => rw [hx, hy] at hparents; cases hparents
      | x :: z :: xs, ys => rw [hx] at hlt; simp at hlt
    · have hle' := hparents ▸ hle
      rw [treeRoot_of_le hd hle, treeRoot_of_le hd hle'] at hroot
      rw [treeBlocks, treeBlocks, treeLevels_of_le hd hle, treeLevels_of_le hd hle', flatten_cons,
        flatten_cons] at hhash
      have hless : (parents hash pack d bs).length < bs.length := length_parents_lt hash pack d (by omega)
      exact ih _ (hn ▸ hless) hparents
        (hhash.mono (subset_append_right _ _) (subset_append_right _ _)) hroot rfl

end Trees

end SgxLkl
