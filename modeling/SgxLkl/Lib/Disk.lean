import Mathlib

/-!
# Reading and writing ranges

A disk gives the content of every place.

* **`readRange_writeRange`**: what was written is read back.
* `writeRanges`: several writes; **`readRange_writeRanges_take`** is about the first of them.
-/

namespace SgxLkl

open List

variable {α : Type*}

def readRange (d : ℕ → α) (off n : ℕ) : List α := (List.range n).map fun i => d (off + i)

def writeRange (d : ℕ → α) (off : ℕ) (xs : List α) : ℕ → α := fun i =>
  if h : off ≤ i ∧ i - off < xs.length then xs.get ⟨i - off, h.2⟩ else d i

@[simp] theorem length_readRange (d : ℕ → α) (off n : ℕ) : (readRange d off n).length = n := by
  simp [readRange]

variable {d : ℕ → α} {i n off : ℕ} {xs : List α} {s : Set ℕ}

theorem writeRange_of_notMem (h : i ∉ Set.Ico off (off + xs.length)) : writeRange d off xs i = d i := by
  unfold writeRange
  rw [dif_neg]
  rintro ⟨hle, hlt⟩
  exact h ⟨hle, by omega⟩

@[simp] theorem writeRange_nil (d : ℕ → α) (off : ℕ) : writeRange d off [] = d :=
  funext fun _ => writeRange_of_notMem (by simp)

theorem writeRange_add (d : ℕ → α) (off : ℕ) (h : i < xs.length) :
    writeRange d off xs (off + i) = xs.get ⟨i, h⟩ := by
  unfold writeRange
  rw [dif_pos ⟨Nat.le_add_right off i, by omega⟩]
  simp

theorem readRange_writeRange (d : ℕ → α) (off : ℕ) (xs : List α) :
    readRange (writeRange d off xs) off xs.length = xs := by
  unfold readRange
  apply ext_getElem
  · simp
  · intro i h₁ h₂
    rw [getElem_map, getElem_range, writeRange_add d off h₂]
    rfl

theorem take_drop_readRange (d : ℕ → α) (off : ℕ) {m : ℕ} (h : i + m ≤ n) :
    ((readRange d off n).drop i).take m = readRange d (off + i) m := by
  apply ext_getElem
  · simp only [length_take, length_drop, length_readRange]
    omega
  · intro k _ _
    simp [readRange, Nat.add_assoc]

theorem readRange_eq_replicate {a : α} (h : ∀ k ∈ Set.Ico off (off + n), d k = a) :
    readRange d off n = List.replicate n a := by
  refine eq_replicate_iff.mpr ⟨length_readRange d off n, fun b hb => ?_⟩
  obtain ⟨i, hi, rfl⟩ := mem_map.mp hb
  have hlt := mem_range.mp hi
  exact h _ ⟨by omega, by omega⟩

def Same (s : Set ℕ) (d d' : ℕ → α) : Prop := ∀ i ∈ s, d' i = d i

theorem Same.refl (s : Set ℕ) (d : ℕ → α) : Same s d d := fun _ _ => rfl

variable {d' : ℕ → α}

theorem Same.trans {d'' : ℕ → α} (h : Same s d d') (h' : Same s d' d'') :
    Same s d d'' := fun i hi => (h' i hi).trans (h i hi)

theorem Same.mono {t : Set ℕ} (h : Same t d d') (hst : s ⊆ t) : Same s d d' :=
  fun i hi => h i (hst hi)

theorem same_writeRange (d : ℕ → α)
    (h : Disjoint s (Set.Ico off (off + xs.length))) : Same s d (writeRange d off xs) :=
  fun _ hi => writeRange_of_notMem (Set.disjoint_left.mp h hi)

theorem Same.readRange (h : Same (Set.Ico off (off + n)) d d') : readRange d' off n = readRange d off n := by
  unfold SgxLkl.readRange
  apply map_congr_left
  intro i hi
  rw [mem_range] at hi
  exact h _ ⟨Nat.le_add_right off i, by omega⟩

/-! ## Rows -/

theorem writeRange_apply (d : ℕ → α) (off : ℕ) (xs : List α) (i : ℕ) :
    writeRange d off xs i = if off ≤ i then xs[i - off]?.getD (d i) else d i := by
  unfold writeRange
  by_cases hle : off ≤ i
  · rw [if_pos hle]
    by_cases hlt : i - off < xs.length
    · rw [dif_pos ⟨hle, hlt⟩, getElem?_eq_getElem hlt]
      rfl
    · rw [dif_neg (fun h => hlt h.2), getElem?_eq_none (Nat.not_lt.mp hlt)]
      rfl
  · rw [if_neg hle, dif_neg (fun h => hle h.1)]

theorem writeRange_append (d : ℕ → α) (off : ℕ) (xs ys : List α) :
    writeRange d off (xs ++ ys) = writeRange (writeRange d off xs) (off + xs.length) ys := by
  funext i
  rw [writeRange_apply, writeRange_apply, writeRange_apply, getElem?_append]
  by_cases hle : off ≤ i
  · rw [if_pos hle, if_pos hle]
    by_cases hlt : i - off < xs.length
    · rw [if_pos hlt, if_neg (by omega)]
    · rw [if_neg hlt, if_pos (by omega), Nat.sub_sub, getElem?_eq_none (Nat.not_lt.mp hlt)]
      rfl
  · rw [if_neg hle, if_neg hle, if_neg (by omega)]

variable {bs cs : List α}

theorem writeRange_middle (d : ℕ → α) (off : ℕ) {as bs' : List α} (h : bs.length = bs'.length) :
    writeRange (writeRange d off (as ++ (bs ++ cs))) (off + as.length) bs' =
      writeRange d off (as ++ (bs' ++ cs)) := by
  funext i
  rw [writeRange_apply, writeRange_apply, writeRange_apply, getElem?_append, getElem?_append,
    getElem?_append, getElem?_append]
  by_cases hle : off + as.length ≤ i
  · have hoff : off ≤ i := by omega
    have has : ¬ i - off < as.length := by omega
    simp only [if_pos hle, if_pos hoff, if_neg has, Nat.sub_sub, h]
    by_cases hlt : i - (off + as.length) < bs'.length
    · rw [if_pos hlt, if_pos hlt, getElem?_eq_getElem hlt]
      rfl
    · rw [if_neg hlt, if_neg hlt, getElem?_eq_none (Nat.not_lt.mp hlt)]
      rfl
  · by_cases hoff : off ≤ i
    · have has : i - off < as.length := by omega
      simp only [if_neg hle, if_pos hoff, if_pos has]
    · rw [if_neg hle, if_neg hoff, if_neg hoff]

theorem readRange_middle (d : ℕ → α) (off : ℕ) (as bs cs : List α) :
    readRange (writeRange d off (as ++ (bs ++ cs))) (off + as.length) bs.length = bs := by
  rw [← append_assoc, writeRange_append, length_append, ← Nat.add_assoc,
    (same_writeRange _ (by rw [Set.disjoint_left]; simp only [Set.mem_Ico]; omega)).readRange, writeRange_append,
    readRange_writeRange]

theorem readRange_succ (d : ℕ → α) (off n : ℕ) : readRange d off (n + 1) = d off :: readRange d (off + 1) n := by
  unfold readRange
  rw [range_succ_eq_map, map_cons, map_map, Nat.add_zero]
  congr 1
  refine map_congr_left fun i _ => ?_
  rw [Function.comp_apply, Nat.succ_eq_add_one, Nat.add_assoc, Nat.add_comm 1]

theorem readRange_add (d : ℕ → α) (off n m : ℕ) :
    readRange d off (n + m) = readRange d off n ++ readRange d (off + n) m := by
  unfold readRange
  rw [range_add, map_append, map_map]
  simp only [Function.comp_def, Nat.add_assoc]

theorem writeRange_replicate (d : ℕ → α) (a : α) {p : ℕ} (h : bs.length = n) :
    writeRange (writeRange d 0 (List.replicate (p + n) a ++ cs)) p bs =
      writeRange d 0 (List.replicate p a ++ (bs ++ cs)) := by
  have hmiddle : writeRange (writeRange d 0 (replicate p a ++ (replicate n a ++ cs)))
      (0 + (replicate p a).length) bs = _ := writeRange_middle d 0 (by rw [length_replicate, h])
  rwa [← append_assoc, replicate_append_replicate, Nat.zero_add, length_replicate] at hmiddle

/-! ## Several ranges -/

def writeRanges (d : ℕ → α) (ws : List (ℕ × List α)) : ℕ → α :=
  ws.foldl (fun d w => writeRange d w.1 w.2) d

variable {ws : List (ℕ × List α)}

theorem readRange_writeRanges
    (h : ∀ w ∈ ws, off + n ≤ w.1) : readRange (writeRanges d ws) off n = readRange d off n := by
  induction ws generalizing d with
  | nil => rfl
  | cons w ws ih =>
    have hw := h w mem_cons_self
    refine (ih fun w hw => h w (mem_cons_of_mem _ hw)).trans (same_writeRange d ?_).readRange
    rw [Set.disjoint_left]
    simp only [Set.mem_Ico]
    omega

/-- **After the first `k` writes** to ranges in order, the first `k` ranges are new and the others are old. -/
theorem readRange_writeRanges_take {j : ℕ}
    (hsep : ws.Pairwise fun w w' => w.1 + w.2.length ≤ w'.1) (hj : ws[j]? = some (off, xs))
    (hn : xs.length = n) (k : ℕ) :
    readRange (writeRanges d (ws.take k)) off n = if j < k then xs else readRange d off n := by
  subst hn
  induction ws generalizing d k j with
  | nil => cases hj
  | cons w ws ih =>
    obtain ⟨hw, hsep⟩ := pairwise_cons.mp hsep
    cases k with
    | zero =>
      rw [if_neg (Nat.not_lt_zero j)]
      rfl
    | succ k =>
      show readRange (writeRanges (writeRange d w.1 w.2) (ws.take k)) _ _ = _
      cases j with
      | zero =>
        cases hj
        rw [if_pos k.succ_pos]
        exact (readRange_writeRanges fun w' hw' => hw w' (mem_of_mem_take hw')).trans
          (readRange_writeRange d off xs)
      | succ j =>
        rw [getElem?_cons_succ] at hj
        have hold : readRange (writeRange d w.1 w.2) off xs.length = readRange d off xs.length := by
          have hle : w.1 + w.2.length ≤ off := hw (off, xs) (mem_of_getElem? hj)
          refine (same_writeRange d ?_).readRange
          rw [Set.disjoint_left]
          simp only [Set.mem_Ico]
          omega
        rw [ih hsep hj k, hold]
        simp only [Nat.add_lt_add_iff_right]

end SgxLkl
