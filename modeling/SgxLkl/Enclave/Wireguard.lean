import SgxLkl.Config.Model

/-!
# Adding wireguard peers (`wireguard/wireguard_util.c`)

`wgu_add_peers` writes the elements of an array for the entries that are complete, and then links all elements.

* **`wguAddPeers_iff`**: the peers that are added are those of the complete entries if and only if all are complete.
-/

namespace SgxLkl.Wireguard

open Json Config List

variable {κ α ε : Type}

/-- `wg_key_from_base64`, `wgu_parse_allowedips` and `wgu_parse_endpoint`. -/
structure Parsers (κ α ε : Type) where
  keyFromBase64 : CString Byte → CInt × κ
  parseAllowedips : CString Byte → Option α
  parseEndpoint : CString Byte → Option ε

/-- `wg_peer`; without an endpoint, its address is zero. -/
structure Peer (κ α ε : Type) where
  flags : BitVec 32
  publicKey : κ
  allowedips : α
  endpoint : Option ε

/-- `str && strlen(str)` -/
def given : Str → Option (CString Byte)
  | some s => if s.chars = [] then none else some s
  | none => none

/-- `WGPEER_HAS_PUBLIC_KEY | WGPEER_REPLACE_ALLOWEDIPS` -/
def peerFlags : BitVec 32 := 6

def Complete (p : WgPeer) : Prop := given p.key ≠ none ∧ given p.allowedIps ≠ none

instance (p : WgPeer) : Decidable (Complete p) := inferInstanceAs (Decidable (_ ∧ _))

/-- One round of the first loop: `none` if the entry is skipped. -/
def initPeer (P : Parsers κ α ε) (p : WgPeer) : Except CInt (Option (Peer κ α ε)) :=
  match given p.key, given p.allowedIps with
  | some key, some ips =>
    let (ret, publicKey) := P.keyFromBase64 key
    if ret ≠ 0 then .error ret
    else
      match P.parseAllowedips ips, given p.endpoint with
      | none, _ => .error (-22)
      | some allowedips, none => .ok (some ⟨peerFlags, publicKey, allowedips, none⟩)
      | some allowedips, some value =>
        match P.parseEndpoint value with
        | none => .error (-22)
        | some endpoint => .ok (some ⟨peerFlags, publicKey, allowedips, some endpoint⟩)
  | _, _ => .ok none

/-- The first loop from element `i` of `new_peers` on. -/
def fillLoop (P : Parsers κ α ε) : List WgPeer → ℕ → (ℕ → Peer κ α ε) → Except CInt (ℕ → Peer κ α ε)
  | [], _, new => .ok new
  | p :: peers, i, new => do
    let q ← initPeer P p
    fillLoop P peers (i + 1) (q.elim new (Function.update new i))

/-- The second loop, with `k` elements left; `answer` is what `wg_set_device` returns. -/
def addLoop (setDevice : Bool) (answer : ℕ → CInt) (new : ℕ → Peer κ α ε) :
    ℕ → ℕ → List (Peer κ α ε) → CInt × List (Peer κ α ε)
  | 0, _, dev => (0, dev)
  | k + 1, i, dev =>
    if setDevice ∧ (answer i).toInt < 0 then (answer i, dev ++ [new i])
    else addLoop setDevice answer new k (i + 1) (dev ++ [new i])

/-- `wgu_add_peers` on a device with the peers `dev`; `memory` is what `malloc` returns. -/
def wguAddPeers (P : Parsers κ α ε) (setDevice : Bool) (answer : ℕ → CInt) (memory : ℕ → Peer κ α ε)
    (dev : List (Peer κ α ε)) (peers : List WgPeer) : CInt × List (Peer κ α ε) :=
  match fillLoop P peers 0 memory with
  | .error ret => (ret, dev)
  | .ok new => addLoop setDevice answer new peers.length 0 dev

variable {P : Parsers κ α ε} {setDevice : Bool} {answer : ℕ → CInt} {memory new new' : ℕ → Peer κ α ε}
  {dev : List (Peer κ α ε)} {peers : List WgPeer}

/-- What should be added: the peers of the complete entries, in order. -/
def completePeers (P : Parsers κ α ε) : List WgPeer → Except CInt (List (Peer κ α ε))
  | [] => .ok []
  | p :: peers => do
    let q ← initPeer P p
    let rest ← completePeers P peers
    return q.toList ++ rest

theorem initPeer_error {p : WgPeer} {e : CInt} (h : initPeer P p = .error e) : e ≠ 0 := by
  unfold initPeer at h
  grind

theorem initPeer_ok {p : WgPeer} {q : Option (Peer κ α ε)} (h : initPeer P p = .ok q) : Complete p ↔ q.isSome := by
  unfold initPeer at h
  unfold Complete
  cases hkey : given p.key <;> cases hips : given p.allowedIps <;> simp only [hkey, hips] at h ⊢ <;> grind

theorem fillLoop_error {i : ℕ} {e : CInt} (h : fillLoop P peers i new = .error e) : e ≠ 0 := by
  induction peers generalizing i new with
  | nil => cases h
  | cons p peers ih =>
    rw [fillLoop] at h
    cases hp : initPeer P p with
    | error e' =>
      rw [hp] at h
      cases h
      exact initPeer_error hp
    | ok q =>
      rw [hp] at h
      exact ih h

/-- The first loop. An element stays as it was if its entry is skipped. -/
theorem fillLoop_ok {i : ℕ} (h : fillLoop P peers i new = .ok new') :
    ∃ added, completePeers P peers = .ok added ∧ added.length ≤ peers.length ∧
      (added.length = peers.length ↔ ∀ p ∈ peers, Complete p) ∧
      ((∀ p ∈ peers, Complete p) → (range' i peers.length).map new' = added) ∧ ∀ j < i, new' j = new j := by
  induction peers generalizing i new with
  | nil =>
    cases h
    exact ⟨[], rfl, le_rfl, by simp, by simp, fun _ _ => rfl⟩
  | cons p peers ih =>
    rw [fillLoop] at h
    cases hp : initPeer P p with
    | error e =>
      rw [hp] at h
      cases h
    | ok q =>
      rw [hp] at h
      obtain ⟨added, hadded, hle, hlen, hall, hkeep⟩ := ih h
      have hq := initPeer_ok hp
      refine ⟨q.toList ++ added, by rw [completePeers, hp, hadded]; rfl, ?_⟩
      cases q with
      | none =>
        refine ⟨by simpa using Nat.le_succ_of_le hle, ?_, ?_, fun j hj => hkeep j (by omega)⟩
        · simp [hq]
          omega
        · intro hc
          simpa [hq] using hc p mem_cons_self
      | some x =>
        have hp' : Complete p := hq.mpr rfl
        refine ⟨by simpa using hle, by simpa [hp'] using hlen, fun hc => ?_, fun j hj => ?_⟩
        · have hx : new' i = x := by simpa using hkeep i (Nat.lt_succ_self i)
          simp [range'_succ, hx, hall fun p hp => hc p (mem_cons_of_mem _ hp)]
        · simpa [Function.update_of_ne (Nat.ne_of_lt hj)] using hkeep j (by omega)

theorem addLoop_eq {k i : ℕ} (h : (addLoop setDevice answer new k i dev).1 = 0) :
    (addLoop setDevice answer new k i dev).2 = dev ++ (range' i k).map new := by
  induction k generalizing i dev with
  | zero => simp [addLoop]
  | succ k ih =>
    rw [addLoop] at h ⊢
    split_ifs at h ⊢ with hfail
    · rw [show answer i = 0 from h] at hfail
      exact absurd hfail.2 (by decide)
    · rw [ih h, range'_succ, map_cons, append_assoc]
      rfl

/-- **Only complete peers are added**, when `wgu_add_peers` returns `0`, if and only if there are no others. -/
theorem wguAddPeers_iff (h : (wguAddPeers P setDevice answer memory dev peers).1 = 0) :
    (∃ added, completePeers P peers = .ok added ∧
      (wguAddPeers P setDevice answer memory dev peers).2 = dev ++ added) ↔ ∀ p ∈ peers, Complete p := by
  unfold wguAddPeers at h ⊢
  cases hfill : fillLoop P peers 0 memory with
  | error ret =>
    rw [hfill] at h
    exact absurd h (fillLoop_error hfill)
  | ok new =>
    rw [hfill] at h
    obtain ⟨added, hadded, -, hlen, hall, -⟩ := fillLoop_ok hfill
    dsimp only at h ⊢
    rw [addLoop_eq h, hadded]
    constructor
    · rintro ⟨_, ⟨⟩, heq⟩
      have hlength := congrArg length (append_cancel_left heq)
      rw [length_map, length_range'] at hlength
      exact hlen.mp hlength.symm
    · intro hc
      exact ⟨added, rfl, by rw [hall hc]⟩

/-- A peer that is only its key. -/
def keyParsers : Parsers (List Byte) Unit Unit := ⟨fun s => (0, s.chars), fun _ => some (), fun _ => some ()⟩

def entry (key : String) : WgPeer := ⟨some (cstring (bytes key)), some (cstring (bytes "10.0.0.1/32")), none⟩

/-- What `malloc` returns. -/
def junk : ℕ → Peer (List Byte) Unit Unit := fun _ => ⟨7, [], (), none⟩

theorem wguAddPeers_iff_entry : ∃ added, completePeers keyParsers [entry "k"] = .ok added ∧
    (wguAddPeers keyParsers false (fun _ => 0) junk [] [entry "k"]).2 = [] ++ added :=
  (wguAddPeers_iff rfl).mpr (by simp only [mem_singleton, forall_eq]; decide)

/-- The entry with an empty key is skipped, and what `malloc` has returned is added for it. -/
theorem wguAddPeers_junk : (wguAddPeers keyParsers false (fun _ => 0) junk [] [entry "", entry "k"]).map id
      (map fun p => (p.flags, p.publicKey)) = (0, [(7, []), (6, bytes "k")]) := by
  decide

end SgxLkl.Wireguard
