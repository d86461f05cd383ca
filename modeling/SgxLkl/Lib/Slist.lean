import Mathlib.Data.List.Basic
import Mathlib.Logic.Function.Basic
import Mathlib.Data.List.Nodup

/-!
# Singly linked lists

The elements hold a pointer to the next one. A list is given by its first element.

* `Slist.Path`: the elements from a pointer on. They are different (`Path.nodup`).
* **`Slist.remove_of_path`**: an element is taken out of the list.
* **`Slist.foreachSafe_of_path`**: a loop that takes out elements while it goes through the list does what `sweepList`
  does with the list of the elements.
-/

namespace SgxLkl

open List Function Option

variable {α σ : Type*}

structure Slist (α : Type*) where
  first : Option α
  next : α → Option α

namespace Slist

/-! ## The elements -/

/-- The elements from a pointer on. -/
inductive Path (next : α → Option α) : Option α → List α → Prop
  | nil : Path next none []
  | cons {a : α} {l : List α} (h : Path next (next a) l) : Path next (some a) (a :: l)

variable {next next' : α → Option α} {p : Option α} {a : α} {l l' l₁ l₂ : List α}

theorem Path.eq_nil (h : Path next none l) : l = [] := by cases h; rfl

theorem Path.eq_some (h : Path next p (a :: l)) : p = some a := by cases h; rfl

theorem Path.exists_eq_some (h : Path next p (l₁ ++ a :: l)) : ∃ b, p = some b := by
  cases l₁ with
  | nil => exact ⟨a, h.eq_some⟩
  | cons b l₁ => exact ⟨b, h.eq_some⟩

theorem Path.unique (h : Path next p l) (h' : Path next p l') : l = l' := by
  induction h generalizing l' with
  | nil => exact h'.eq_nil.symm
  | cons _ ih =>
    cases h' with
    | cons h' => rw [ih h']

theorem Path.suffix (h : Path next p (l₁ ++ a :: l₂)) : Path next (some a) (a :: l₂) := by
  induction l₁ generalizing p with
  | nil =>
    cases h with
    | cons h => exact .cons h
  | cons b l₁ ih =>
    cases h with
    | cons h => exact ih h

theorem Path.tail (h : Path next (some a) (a :: l)) : Path next (next a) l := by
  cases h with
  | cons h => exact h

theorem Path.nodup (h : Path next p l) : l.Nodup := by
  induction h with
  | nil => exact nodup_nil
  | @cons a l h ih =>
    refine nodup_cons.mpr ⟨?_, ih⟩
    intro hmem
    obtain ⟨l₁, l₂, rfl⟩ := append_of_mem hmem
    have hlen := congrArg length ((Path.cons h).unique h.suffix)
    simp at hlen
    omega

theorem Path.congr (h : Path next p l) (heq : ∀ a ∈ l, next' a = next a) : Path next' p l := by
  induction h with
  | nil => exact .nil
  | @cons a l h ih =>
    have ha := heq a mem_cons_self
    refine .cons ?_
    rw [ha]
    exact ih fun b hb => heq b (mem_cons_of_mem a hb)

/-! ## Insertion and removal -/

variable [DecidableEq α]

def insertHead (s : Slist α) (elm : α) : Slist α := ⟨some elm, update s.next elm s.first⟩

variable {s : Slist α} {elm : α} {n : ℕ}

theorem path_insertHead (h : Path s.next s.first l) (helm : elm ∉ l) :
    Path (s.insertHead elm).next (s.insertHead elm).first (elm :: l) := by
  refine .cons ?_
  simp only [insertHead, update_self]
  refine h.congr fun a ha => update_of_ne ?_ _ _
  rintro rfl
  exact helm ha

/-- The search for the element in front of `elm`: at most `n` steps. A null pointer has no successor. -/
def findPrev (next : α → Option α) (elm : α) : ℕ → α → Option α
  | 0, _ => none
  | n + 1, curelm =>
    if next curelm = some elm then some curelm else (next curelm).bind (findPrev next elm n)

variable {b : α}

theorem findPrev_of_path (h : Path next (some a) (l₁ ++ b :: elm :: l₂))
    (hn : l₁.length < n) : findPrev next elm n a = some b := by
  induction l₁ generalizing a n with
  | nil =>
    obtain ⟨m, rfl⟩ : ∃ m, n = m + 1 := ⟨n - 1, by simp at hn; omega⟩
    obtain rfl : a = b := some.inj h.eq_some
    have hnext : next a = some elm := h.tail.eq_some
    simp [findPrev, hnext]
  | cons c l₁ ih =>
    obtain ⟨m, rfl⟩ : ∃ m, n = m + 1 := ⟨n - 1, by simp at hn; omega⟩
    obtain rfl : a = c := some.inj h.eq_some
    have htail := h.tail
    have hnodup := htail.nodup
    -- the next element is in front of `elm`, or in front of the one in front
    obtain ⟨d, hd⟩ : ∃ d, next a = some d := by
      cases l₁ with
      | nil => exact ⟨b, htail.eq_some⟩
      | cons d l₁ => exact ⟨d, htail.eq_some⟩
    have hne : d ≠ elm := by
      rintro rfl
      cases l₁ with
      | nil =>
        obtain rfl : d = b := some.inj (hd.symm.trans htail.eq_some)
        simp at hnodup
      | cons e l₁ =>
        obtain rfl : d = e := some.inj (hd.symm.trans htail.eq_some)
        simp at hnodup
    rw [hd] at htail
    simp [findPrev, hd, hne, ih htail (by simpa using hn)]

def remove (s : Slist α) (elm : α) (n : ℕ) : Option (Slist α) :=
  if s.first = some elm then some { s with first := s.next elm }
  else
    (s.first.bind (findPrev s.next elm n)).map fun curelm =>
      { s with next := update s.next curelm (s.next elm) }

theorem Path.update (h : Path next p (l₁ ++ b :: l)) (hdisj : b ∉ l₂) (hl : Path next (next a) l₂) :
    Path (update next b (next a)) p (l₁ ++ b :: l₂) := by
  have hnodup := h.nodup
  induction l₁ generalizing p with
  | nil =>
    obtain rfl := h.eq_some
    refine .cons ?_
    rw [update_self]
    refine hl.congr fun c hc => update_of_ne ?_ _ _
    rintro rfl
    exact hdisj hc
  | cons c l₁ ih =>
    obtain rfl := h.eq_some
    have hne : c ≠ b := by
      rintro rfl
      simp at hnodup
    refine .cons ?_
    rw [update_of_ne hne]
    exact ih h.tail (nodup_cons.mp hnodup).2

theorem remove_of_path (h : Path s.next s.first (l₁ ++ elm :: l₂)) (hn : l₁.length ≤ n) :
    ∃ s', s.remove elm n = some s' ∧ Path s'.next s'.first (l₁ ++ l₂) ∧ ∀ a ∉ l₁, s'.next a = s.next a := by
  have hsuffix := h.suffix
  have hnodup := h.nodup
  rcases eq_nil_or_concat l₁ with rfl | ⟨l, b, rfl⟩
  · exact ⟨{ s with first := s.next elm }, by simp [remove, h.eq_some], hsuffix.tail, fun a _ => rfl⟩
  · rw [concat_eq_append] at h hn hnodup ⊢
    rw [append_assoc, singleton_append] at h hnodup
    obtain ⟨c, hc⟩ := h.exists_eq_some
    rw [hc] at h
    have hne : c ≠ elm := by
      rintro rfl
      have hlen := congrArg length (h.unique hsuffix)
      simp at hlen
      omega
    have hfind : findPrev s.next elm n c = some b := findPrev_of_path h (by simp at hn; omega)
    refine ⟨{ s with next := update s.next b (s.next elm) }, ?_, ?_, ?_⟩
    · simp [remove, hc, hne, hfind]
    · rw [hc, append_assoc, singleton_append]
      have hb : b ∉ elm :: l₂ := (nodup_cons.mp (nodup_append.mp hnodup).2.1).1
      exact h.update (fun hmem => hb (mem_cons_of_mem elm hmem)) hsuffix.tail
    · intro a ha
      refine update_of_ne ?_ _ _
      rintro rfl
      simp at ha

/-! ## Loops -/

/-- `SLIST_FOREACH_SAFE` with a body that may take out the element it is at: `body` tells whether it does, and its new
state, or fails. A search may take `n` steps. -/
def foreachSafe (body : α → σ → Option (Bool × σ)) (n : ℕ) : ℕ → Option α → Slist α → σ → Option (Slist α × σ)
  | _, none, s, x => some (s, x)
  | 0, some _, _, _ => none
  | k + 1, some var, s, x =>
    let tmp := s.next var
    match body var x with
    | none => none
    | some (false, x) => foreachSafe body n k tmp s x
    | some (true, x) => (s.remove var n).bind fun s => foreachSafe body n k tmp s x

def sweepList (body : α → σ → Option (Bool × σ)) : List α → σ → Option (List α × σ)
  | [], x => some ([], x)
  | a :: l, x =>
    match body a x with
    | none => none
    | some (false, x) => (sweepList body l x).map fun (l, x) => (a :: l, x)
    | some (true, x) => sweepList body l x

variable {body : α → σ → Option (Bool × σ)} {x x' : σ}

theorem foreachSafe_from {k : ℕ}
    (h : Path s.next s.first (l₁ ++ l)) (hp : Path s.next p l) (hn : l₁.length + l.length ≤ n)
    (hk : l.length ≤ k) (hl : sweepList body l x = some (l', x')) :
    ∃ s', foreachSafe body n k p s x = some (s', x') ∧ Path s'.next s'.first (l₁ ++ l') := by
  induction l generalizing l₁ p k s x l' with
  | nil =>
    cases hp
    simp only [sweepList, some.injEq, Prod.mk.injEq] at hl
    obtain ⟨rfl, rfl⟩ := hl
    exact ⟨s, by simp [foreachSafe], h⟩
  | cons a l ih =>
    obtain rfl := hp.eq_some
    obtain ⟨k, rfl⟩ : ∃ m, k = m + 1 := ⟨k - 1, by simp at hk; omega⟩
    simp only [length_cons] at hn hk
    rw [sweepList] at hl
    rw [foreachSafe]
    cases hbody : body a x with
    | none => simp [hbody] at hl
    | some r =>
      obtain ⟨b, y⟩ := r
      rw [hbody] at hl
      cases b with
      | false =>
        obtain ⟨⟨l'', y'⟩, hrest, heq⟩ := map_eq_some_iff.mp hl
        simp only [Prod.mk.injEq] at heq
        obtain ⟨rfl, rfl⟩ := heq
        have hmove : l₁ ++ a :: l = (l₁ ++ [a]) ++ l := by simp
        obtain ⟨s', hloop, hpath⟩ := ih (hmove ▸ h) hp.tail (k := k) (by simp; omega) (by omega) hrest
        exact ⟨s', hloop, by simpa using hpath⟩
      | true =>
        obtain ⟨s₁, hremove, hpath, hnext⟩ := remove_of_path h (n := n) (by omega)
        -- the rest of the list is not in front of the element
        have hdisj := (nodup_append.mp h.nodup).2.2
        have htail : Path s₁.next (s.next a) l :=
          hp.tail.congr fun c hc => hnext c fun hmem => hdisj c hmem c (mem_cons_of_mem a hc) rfl
        obtain ⟨s', hloop, hpath'⟩ := ih hpath htail (k := k) (by omega) (by omega) hl
        exact ⟨s', by simp [hremove, hloop], hpath'⟩

theorem foreachSafe_of_path
    (h : Path s.next s.first l) (hn : l.length ≤ n) (hl : sweepList body l x = some (l', x')) :
    ∃ s', foreachSafe body n n s.first s x = some (s', x') ∧ Path s'.next s'.first l' :=
  foreachSafe_from (show Path s.next s.first ([] ++ l) from h) h (by simpa using hn) hn hl

end Slist

end SgxLkl
