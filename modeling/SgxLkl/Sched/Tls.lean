import SgxLkl.Lib.Bits

/-!
# Thread-local storage of lthreads

The slots of an lthread, the destructors of the keys, and the ways in which an lthread ends: its structure is freed by
`lthread_join`, by the scheduler that deals with the exit of a detached lthread, or by `thread_destroy_host`.

* **`destructors_run_once_iff`**: an lthread that is joined or destroyed has its destructors called once, in the order
  of its slots, and its slots released; a detached one only if it has no slots.
* `destructors_skipped`: those of a detached lthread are not called.
-/

namespace SgxLkl.Tls

open Function

/-! ## The model -/

structure Slot where
  key : CInt
  data : Word
  deriving DecidableEq

/-- `struct lthread_tls_destructors`; the destructor may be `NULL`. -/
structure KeyDestr (δ : Type*) where
  key : CInt
  destructor : Option δ

structure State (τ δ : Type*) where
  tls : τ → List Slot
  lthreadDestructors : List (KeyDestr δ)
  /-- `LT_ST_APP_MAIN` -/
  appMain : τ → Bool
  /-- `LT_ST_DETACH` -/
  detach : τ → Bool
  /-- `sched->current_lthread` -/
  currentLthread : Option τ
  /-- The calls of destructors so far. -/
  calls : List (δ × Word)

variable {τ δ : Type*} [DecidableEq τ]

def finddestr (ks : List (KeyDestr δ)) (key : CInt) : Option δ := (ks.find? (·.key = key)).bind (·.destructor)

namespace State

/-- `lthread_setspecific_remote`; a slot is added in front. -/
def setspecificRemote (lt : τ) (key value : Word) (s : State τ δ) : State τ δ :=
  let slots := s.tls lt
  let slots' :=
    if slots.any fun d => d.key.setWidth 64 = key then
      slots.replaceF fun d => if d.key.setWidth 64 = key then some { d with data := value } else none
    else ⟨key.setWidth 32, value⟩ :: slots
  { s with tls := update s.tls lt slots' }

section

-- what a destructor does to the registered destructors
variable (destr : δ → Word → List (KeyDestr δ) → List (KeyDestr δ))

def visit (d : Slot) (s : State τ δ) : State τ δ :=
  if d.data ≠ 0 then
    match finddestr s.lthreadDestructors d.key with
    | some f =>
      { s with
        calls := s.calls ++ [(f, d.data)]
        lthreadDestructors := destr f d.data s.lthreadDestructors }
    | none => s
  else s

/-- The loop of `lthread_rundestructors`, with the slots that are left. -/
def rundestructorsLoop (lt : τ) : List Slot → State τ δ → State τ δ
  | [], s => s
  | d :: slots, s =>
    let s := s.visit destr d
    -- `LIST_REMOVE`
    rundestructorsLoop lt slots { s with tls := update s.tls lt slots }

def rundestructors (lt : τ) (s : State τ δ) : State τ δ := rundestructorsLoop destr lt (s.tls lt) s

/-- `_lthread_free`, as far as it is about slots. -/
def lthreadFree (lt : τ) (s : State τ δ) : State τ δ :=
  if s.currentLthread ≠ none ∧ s.appMain lt = false then s.rundestructors destr lt else s

/-- The end of `lthread_join`, called by `current`. -/
def joinFree (current lt : τ) (s : State τ δ) : State τ δ :=
  { s with currentLthread := some current }.lthreadFree destr lt

/-- `_lthread_resume` behind the switch of an lthread that has exited. -/
def resumeExited (lt : τ) (s : State τ δ) : State τ δ :=
  let s := { s with currentLthread := none }
  if s.detach lt then s.lthreadFree destr lt else s

/-- `thread_destroy_host`, called by `current`. -/
def threadDestroyHost (current lt : τ) (taskKey : Word) (s : State τ δ) : State τ δ :=
  ({ s with currentLthread := some current }.setspecificRemote lt taskKey 0).lthreadFree destr lt

end

end State

inductive Ending (τ : Type*)
  | joined (current : τ)
  | detached
  | destroyed (current : τ) (taskKey : Word)

def State.finish (destr : δ → Word → List (KeyDestr δ) → List (KeyDestr δ)) (lt : τ) (s : State τ δ) :
    Ending τ → State τ δ
  | .joined current => s.joinFree destr current lt
  | .detached => { s with detach := update s.detach lt true }.resumeExited destr lt
  | .destroyed current taskKey => s.threadDestroyHost destr current lt taskKey

/-! ## Turns -/

section

variable (destr : δ → Word → List (KeyDestr δ) → List (KeyDestr δ))

def called (ks : List (KeyDestr δ)) (d : Slot) : Option (δ × Word) :=
  if d.data ≠ 0 then (finddestr ks d.key).map (·, d.data) else none

def turns : List Slot → List (KeyDestr δ) → List (Slot × List (KeyDestr δ))
  | [], _ => []
  | d :: slots, ks => (d, ks) :: turns slots (((called ks d).map fun c => destr c.1 c.2 ks).getD ks)

theorem map_fst_turns (slots : List Slot) (ks : List (KeyDestr δ)) : (turns destr slots ks).map Prod.fst = slots := by
  induction slots generalizing ks with
  | nil => rfl
  | cons d slots ih => simp [turns, ih]

theorem turns_eq (hdestr : ∀ f v ks, destr f v ks = ks) (slots : List Slot) (ks : List (KeyDestr δ)) :
    turns destr slots ks = slots.map (·, ks) := by
  induction slots generalizing ks with
  | nil => rfl
  | cons d slots ih =>
    have hks : ((called ks d).map fun c => destr c.1 c.2 ks).getD ks = ks := by
      cases called ks d <;> simp [hdestr]
    rw [turns, hks, ih, List.map_cons]

namespace State

variable {destr} {lt : τ}

omit [DecidableEq τ] in
theorem visit_eq (d : Slot) (s : State τ δ) : s.visit destr d = { s with
      calls := s.calls ++ (called s.lthreadDestructors d).toList
      lthreadDestructors := ((called s.lthreadDestructors d).map
        fun c => destr c.1 c.2 s.lthreadDestructors).getD s.lthreadDestructors } := by
  unfold visit called
  split_ifs with hd
  · cases finddestr s.lthreadDestructors d.key <;> simp
  · simp

theorem rundestructorsLoop_eq (slots : List Slot) (s : State τ δ) (hs : s.tls lt = slots) :
    (rundestructorsLoop destr lt slots s).tls = update s.tls lt [] ∧
      (rundestructorsLoop destr lt slots s).calls =
        s.calls ++ (turns destr slots s.lthreadDestructors).filterMap fun x => called x.2 x.1 := by
  induction slots generalizing s with
  | nil =>
    refine ⟨?_, by simp [rundestructorsLoop, turns]⟩
    rw [rundestructorsLoop, ← hs, update_eq_self]
  | cons d slots ih =>
    rw [rundestructorsLoop]
    obtain ⟨htls, hcalls⟩ := ih { s.visit destr d with tls := update (s.visit destr d).tls lt slots } (by simp)
    rw [htls, hcalls]
    simp only [visit_eq]
    constructor
    · simp
    · rw [turns, List.filterMap_cons]
      cases called s.lthreadDestructors d <;> simp

variable (destr lt) in
theorem rundestructors_eq (s : State τ δ) : (s.rundestructors destr lt).tls = update s.tls lt [] ∧
      (s.rundestructors destr lt).calls =
        s.calls ++ (turns destr (s.tls lt) s.lthreadDestructors).filterMap fun x => called x.2 x.1 :=
  rundestructorsLoop_eq _ s rfl

end State

end

/-! ## Every ending -/

/-- The slots of `lt` when its structure is freed: `thread_destroy_host` clears the slot of the task. -/
def State.held (lt : τ) (s : State τ δ) : Ending τ → List Slot
  | .destroyed _ taskKey => (s.setspecificRemote lt taskKey 0).tls lt
  | _ => s.tls lt

/-- Each value is passed once, at the turn of its slot, to the destructor that is registered then, and all slots are
released. -/
structure RunOnce (destr : δ → Word → List (KeyDestr δ) → List (KeyDestr δ)) (s : State τ δ) (lt : τ) (e : Ending τ) :
    Prop where
  released : ∀ t, (s.finish destr lt e).tls t = if t = lt then [] else s.tls t
  calls : (s.finish destr lt e).calls =
    s.calls ++ (turns destr (s.held lt e) s.lthreadDestructors).filterMap fun x => called x.2 x.1

theorem runOnce_of_ne_detached (destr : δ → Word → List (KeyDestr δ) → List (KeyDestr δ)) (s : State τ δ) (lt : τ)
    (hmain : s.appMain lt = false) {e : Ending τ} (he : e ≠ .detached) : RunOnce destr s lt e := by
  have hfinish : (s.finish destr lt e).tls = update s.tls lt [] ∧ (s.finish destr lt e).calls =
      s.calls ++ (turns destr (s.held lt e) s.lthreadDestructors).filterMap fun x => called x.2 x.1 := by
    cases e with
    | detached => exact absurd rfl he
    | joined current =>
      rw [State.finish, State.joinFree, State.lthreadFree, if_pos ⟨by simp, hmain⟩]
      exact State.rundestructors_eq destr lt _
    | destroyed current taskKey =>
      rw [State.finish, State.threadDestroyHost, State.lthreadFree, if_pos ⟨by simp [State.setspecificRemote], hmain⟩]
      obtain ⟨htls, hcalls⟩ := State.rundestructors_eq destr lt
        ({ s with currentLthread := some current }.setspecificRemote lt taskKey 0)
      exact ⟨by rw [htls]; simp [State.setspecificRemote], hcalls⟩
  obtain ⟨htls, hcalls⟩ := hfinish
  exact ⟨fun t => by rw [htls, update_apply], hcalls⟩

/-- The scheduler has no current lthread when it frees a detached one. -/
theorem finish_detached (destr : δ → Word → List (KeyDestr δ) → List (KeyDestr δ)) (s : State τ δ) (lt : τ) :
    (s.finish destr lt .detached).tls = s.tls ∧ (s.finish destr lt .detached).calls = s.calls := by
  simp [State.finish, State.resumeExited, State.lthreadFree]

/-- **Destructors run once** when an lthread that is not the main application thread ends, unless it is detached and
has slots. Every slot has one turn, and if the destructors leave the table alone, every turn has the same table. -/
theorem destructors_run_once_iff (destr : δ → Word → List (KeyDestr δ) → List (KeyDestr δ)) (s : State τ δ) (lt : τ)
    (hmain : s.appMain lt = false) (e : Ending τ) :
    (RunOnce destr s lt e ↔ (e = .detached → s.tls lt = [])) ∧
      (turns destr (s.held lt e) s.lthreadDestructors).map Prod.fst = s.held lt e ∧
      ((∀ f v ks, destr f v ks = ks) →
        turns destr (s.held lt e) s.lthreadDestructors = (s.held lt e).map (·, s.lthreadDestructors)) := by
  refine ⟨⟨?_, fun h => ?_⟩, map_fst_turns destr _ _, fun hdestr => turns_eq destr hdestr _ _⟩
  · rintro hrun rfl
    have hreleased := hrun.released lt
    rw [(finish_detached destr s lt).1, if_pos rfl] at hreleased
    exact hreleased
  · by_cases he : e = .detached
    · subst he
      obtain ⟨htls, hcalls⟩ := finish_detached destr s lt
      refine ⟨fun t => ?_, ?_⟩
      · rw [htls]
        split_ifs with ht
        · rw [ht, h rfl]
        · rfl
      · have hheld : s.held lt .detached = [] := h rfl
        rw [hcalls, hheld, turns, List.filterMap_nil, List.append_nil]
    · exact runOnce_of_ne_detached destr s lt hmain he

def oneSlot : State Unit ℕ where
  tls _ := [⟨5, 0x1000⟩]
  lthreadDestructors := [⟨5, some 7⟩]
  appMain _ := false
  detach _ := false
  currentLthread := none
  calls := []

/-- It is joined: the destructor is called with the value. -/
theorem destructors_run_once_oneSlot : (oneSlot.finish (fun _ _ ks => ks) () (.joined ())).calls = [(7, 0x1000)] ∧
    ∀ t, (oneSlot.finish (fun _ _ ks => ks) () (.joined ())).tls t = [] := by
  have hrun := (destructors_run_once_iff (fun _ _ ks => ks) oneSlot () rfl (.joined ())).1.mpr nofun
  exact ⟨hrun.calls.trans (by decide), fun t => (hrun.released t).trans (if_pos rfl)⟩

/-- It is detached: no destructor is called, and the slot stays. -/
theorem destructors_skipped : (oneSlot.finish (fun _ _ ks => ks) () .detached).calls = [] ∧
    (oneSlot.finish (fun _ _ ks => ks) () .detached).tls () = [⟨5, 0x1000⟩] := by
  decide

end SgxLkl.Tls
