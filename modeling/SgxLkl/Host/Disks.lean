import SgxLkl.Json.Model

/-!
# Extra disks

The variable `SGXLKL_HDS` lists disks as `path:mount point:readonly`, separated by commas. The launcher splits it
twice: for the host, and for the configuration of the enclave. Each time it counts the commas first, and then
cuts a copy of the string into pieces. What is behind the copy in memory is read as well if an entry is not
complete.

* **`mounts_agree_iff`**: they are the same, whatever is behind the copies, if and only if all entries are complete.
-/

namespace SgxLkl.Host

open Json (bytes ch comma colon)
open List

/-! ## Splitting -/

/-- `strchrnul`: the bytes before the character, and the rest. -/
def strchrnul (c : Byte) (mem : List Byte) : List Byte × List Byte := mem.span fun b => b ≠ c && b ≠ 0

structure Entry where
  path : List Byte
  mnt : List Byte
  ro : Bool
  deriving DecidableEq

def nextEntry (mem : List Byte) : List Byte :=
  (strchrnul comma mem).2.dropWhile fun b => b = ch ' ' || b = comma

/-- One round of the loop: the entry, and where the next one is. -/
def splitEntry (mem : List Byte) : Entry × List Byte :=
  let (path, hdMnt) := strchrnul colon mem
  let (mnt, hdMntEnd) := strchrnul colon (hdMnt.drop 1)
  let rest := hdMntEnd.drop 1
  (⟨path, mnt, rest.headD 0 = ch '1'⟩, nextEntry rest)

def entries : ℕ → List Byte → List Entry
  | 0, _ => []
  | n + 1, mem =>
    if mem.headD 0 = 0 then []
    else (splitEntry mem).1 :: entries n (splitEntry mem).2

def commas (text : List Byte) : ℕ := text.count comma

/-! ## The mounts -/

/-- `sgxlkl_host_mount_config_t`; `none` is a null pointer. -/
structure HostMount where
  imagePath : Option (List Byte) := none
  destination : Option (List Byte) := none
  readonly : Bool := false

/-- `sgxlkl_enclave_mount_config_t`, as far as it is set here. -/
structure EnclaveMount where
  destination : List Byte := []
  readonly : Bool := false

def Entry.toHost (e : Entry) : HostMount := ⟨some e.path, some e.mnt, e.ro⟩

def Entry.toEnclave (e : Entry) : EnclaveMount := ⟨e.mnt, e.ro⟩

def fill {α : Type} (n : ℕ) (zero : α) (xs : List α) : List α := xs ++ List.replicate (n - xs.length) zero

/-- The mounts of `override_host_config`, with the memory behind the copy. The loop does not look at the length
of the array; `none` if it writes behind it. -/
def overrideHostConfig (text : CString Byte) (behind : List Byte) : Option (List HostMount) :=
  let mem := text.chars ++ 0 :: behind
  let numMounts := 1 + commas text.chars
  let es := entries mem.length mem
  if es.length ≤ numMounts then some (fill numMounts {} (es.map Entry.toHost)) else none

def diskMntMaxPathLen : ℕ := 255

/-- The mounts of `override_disk_config`, if there were none before. `none` if `strcpy` writes behind a
destination. -/
def overrideDiskConfig (text : CString Byte) (behind : List Byte) : Option (List EnclaveMount) :=
  let mem := text.chars ++ 0 :: behind
  let numMounts := if text.chars = [] then 0 else 1 + commas text.chars
  let es := entries numMounts mem
  if ∀ e ∈ es, e.mnt.length ≤ diskMntMaxPathLen then some (fill numMounts {} (es.map Entry.toEnclave)) else none

/-! ## Complete entries -/

/-- Every entry has a path, a mount point that is not too long, and a colon behind both. -/
inductive Complete : List Byte → Prop
  | nil : Complete []
  | cons {path mnt rest : List Byte} : colon ∉ path → colon ∉ mnt → mnt.length ≤ diskMntMaxPathLen →
      Complete (nextEntry rest) → Complete (path ++ colon :: (mnt ++ colon :: rest))

theorem strchrnul_append {b c : Byte} {l : List Byte} (hb : b = c ∨ b = 0) (hc : c ∉ l) (h0 : (0 : Byte) ∉ l)
    (r : List Byte) : strchrnul c (l ++ b :: r) = (l, b :: r) := by
  have hall : ∀ b ∈ l, (b ≠ c && b ≠ 0) = true := by
    intro b hb
    simp only [ne_eq, decide_not, Bool.and_eq_true, Bool.not_eq_true', decide_eq_false_iff_not]
    exact ⟨fun h => hc (h ▸ hb), fun h => h0 (h ▸ hb)⟩
  have hstop : ¬ (b ≠ c && b ≠ 0) = true := by rcases hb with rfl | rfl <;> simp
  rw [strchrnul, span_eq_takeWhile_dropWhile, takeWhile_append_of_pos hall, dropWhile_append_of_pos hall,
    takeWhile_cons_of_neg (p := fun b => b ≠ c && b ≠ 0) hstop,
    dropWhile_cons_of_neg (p := fun b => b ≠ c && b ≠ 0) hstop, append_nil]

theorem dropWhile_append_stop {p : Byte → Bool} (hp : p 0 = false) (l behind : List Byte) :
    (l ++ 0 :: behind).dropWhile p = l.dropWhile p ++ 0 :: behind := by
  induction l with
  | nil => exact dropWhile_cons_of_neg (by rw [hp]; exact Bool.false_ne_true)
  | cons b l ih =>
    rw [cons_append, dropWhile_cons, dropWhile_cons]
    split_ifs
    · exact ih
    · rfl

theorem nextEntry_append (l behind : List Byte) : nextEntry (l ++ 0 :: behind) = nextEntry l ++ 0 :: behind := by
  simp only [nextEntry, strchrnul, span_eq_takeWhile_dropWhile]
  rw [dropWhile_append_stop (by simp), dropWhile_append_stop (by decide)]

theorem splitEntry_complete {path mnt rest : List Byte} (hpath : colon ∉ path) (hmnt : colon ∉ mnt)
    (h0 : (0 : Byte) ∉ path ++ colon :: (mnt ++ colon :: rest)) (behind : List Byte) :
    splitEntry (path ++ colon :: (mnt ++ colon :: rest) ++ 0 :: behind) =
      (⟨path, mnt, rest.headD 0 = ch '1'⟩, nextEntry rest ++ 0 :: behind) := by
  have hpath0 : (0 : Byte) ∉ path := fun h => h0 (mem_append_left _ h)
  have hmnt0 : (0 : Byte) ∉ mnt := fun h =>
    h0 (mem_append_right _ (mem_cons_of_mem _ (mem_append_left _ h)))
  have hhead : (rest ++ 0 :: behind).headD 0 = rest.headD 0 := by cases rest <;> rfl
  unfold splitEntry
  rw [append_assoc, cons_append, strchrnul_append (.inl rfl) hpath hpath0]
  dsimp only
  rw [drop_one, tail_cons, append_assoc, cons_append, strchrnul_append (.inl rfl) hmnt hmnt0]
  dsimp only
  rw [drop_one, tail_cons, hhead, nextEntry_append]

theorem commas_nextEntry {rest : List Byte} (h0 : (0 : Byte) ∉ rest) (h : nextEntry rest ≠ []) :
    1 + commas (nextEntry rest) ≤ commas rest := by
  simp only [nextEntry, strchrnul, span_eq_takeWhile_dropWhile] at h ⊢
  have hle := (dropWhile_suffix (l := rest) fun b => b ≠ comma && b ≠ 0).sublist.count_le comma
  cases hrest : rest.dropWhile fun b => b ≠ comma && b ≠ 0 with
  | nil =>
    rw [hrest] at h
    exact absurd rfl h
  | cons b l =>
    -- the search stops at a comma
    have hb : b = comma := by
      have hstop := head?_dropWhile_not (fun b => b ≠ comma && b ≠ 0) rest
      have hmem : b ∈ rest := (dropWhile_suffix _).mem (hrest ▸ mem_cons_self)
      have hb0 : b ≠ 0 := fun hb => h0 (hb ▸ hmem)
      rw [hrest] at hstop
      by_contra hne
      have hzero : ¬ b = comma → b = 0 := by simpa using hstop
      exact hb0 (hzero hne)
    subst hb
    rw [hrest, count_cons_self] at hle
    rw [dropWhile_cons_of_pos (by decide)]
    have hle' := (dropWhile_suffix (l := l) fun b => b = ch ' ' || b = comma).sublist.count_le comma
    unfold commas
    omega

theorem commas_rest_le (path mnt rest : List Byte) :
    commas rest ≤ commas (path ++ colon :: (mnt ++ colon :: rest)) := by
  simp only [commas, count_append, count_cons]
  omega

theorem not_mem_nextEntry {rest : List Byte} (h0 : (0 : Byte) ∉ rest) : (0 : Byte) ∉ nextEntry rest := by
  intro h
  simp only [nextEntry, strchrnul, span_eq_takeWhile_dropWhile] at h
  exact h0 ((dropWhile_suffix _).mem ((dropWhile_suffix _).mem h))

theorem headD_ne_zero {text behind : List Byte} (h0 : (0 : Byte) ∉ text) (hne : text ≠ []) :
    (text ++ 0 :: behind).headD 0 ≠ 0 := by
  cases text with
  | nil => exact absurd rfl hne
  | cons b text => exact fun hb => h0 (hb ▸ mem_cons_self)

/-- **What the loop finds in a string with complete entries**, whatever is behind it. -/
theorem entries_complete {text : List Byte} (h : Complete text) (h0 : (0 : Byte) ∉ text) :
    ∃ es : List Entry, es.length ≤ (if text = [] then 0 else 1 + commas text) ∧
      (∀ e ∈ es, e.mnt.length ≤ diskMntMaxPathLen) ∧
      ∀ behind n, es.length ≤ n → entries n (text ++ 0 :: behind) = es := by
  induction h with
  | nil =>
    refine ⟨[], le_rfl, by simp, fun behind n _ => ?_⟩
    cases n <;> rfl
  | @cons path mnt rest hpath hmnt hshort _ ih =>
    have hrest0 : (0 : Byte) ∉ rest := fun h => h0 (mem_append_right _ (mem_cons_of_mem _
      (mem_append_right _ (mem_cons_of_mem _ h))))
    obtain ⟨es, hes, hlong, hloop⟩ := ih (not_mem_nextEntry hrest0)
    refine ⟨⟨path, mnt, rest.headD 0 = ch '1'⟩ :: es, ?_, forall_mem_cons.mpr ⟨hshort, hlong⟩,
      fun behind n hn => ?_⟩
    · have hcommas : es.length ≤ commas rest := by
        split_ifs at hes with hnil
        · omega
        · exact hes.trans (commas_nextEntry hrest0 hnil)
      have hle := commas_rest_le path mnt rest
      rw [if_neg (by simp), length_cons]
      omega
    · obtain ⟨n, rfl⟩ := Nat.exists_eq_succ_of_ne_zero (Nat.ne_of_gt (lt_of_lt_of_le (Nat.succ_pos _) hn))
      rw [entries, if_neg (headD_ne_zero h0 (by simp)), splitEntry_complete hpath hmnt h0, hloop behind n (Nat.le_of_succ_le_succ hn)]

/-- An entry that lacks a colon, or has a mount point that is too long. -/
inductive Incomplete : List Byte → Prop
  | path {path : List Byte} : path ≠ [] → colon ∉ path → Incomplete path
  | mnt {path mnt : List Byte} : colon ∉ path → colon ∉ mnt → Incomplete (path ++ colon :: mnt)
  | long {path mnt rest : List Byte} : colon ∉ path → colon ∉ mnt → diskMntMaxPathLen < mnt.length →
      Incomplete (path ++ colon :: (mnt ++ colon :: rest))

theorem Incomplete.ne_nil {p : List Byte} (h : Incomplete p) : p ≠ [] := by
  cases h with
  | path hne _ => exact hne
  | mnt | long => simp

theorem split_cases (text : List Byte) : text = [] ∨ Incomplete text ∨
    ∃ path mnt rest, colon ∉ path ∧ colon ∉ mnt ∧ mnt.length ≤ diskMntMaxPathLen ∧
      text = path ++ colon :: (mnt ++ colon :: rest) := by
  by_cases hne : text = []
  · exact .inl hne
  by_cases hfirst : colon ∈ text
  · obtain ⟨path, r, rfl, hpath⟩ := eq_append_cons_of_mem hfirst
    by_cases hsecond : colon ∈ r
    · obtain ⟨mnt, rest, rfl, hmnt⟩ := eq_append_cons_of_mem hsecond
      rcases Nat.lt_or_ge diskMntMaxPathLen mnt.length with hlong | hshort
      · exact .inr (.inl (.long hpath hmnt hlong))
      · exact .inr (.inr ⟨path, mnt, rest, hpath, hmnt, hshort, rfl⟩)
    · exact .inr (.inl (.mnt hpath hsecond))
  · exact .inr (.inl (.path hne hfirst))

/-- **What the loops find in a string with an incomplete entry**: that entry, behind those in front of it. -/
theorem entries_incomplete (text : List Byte) (h0 : (0 : Byte) ∉ text) (h : ¬ Complete text) :
    ∃ (es : List Entry) (p : List Byte), es.length ≤ commas text ∧ (0 : Byte) ∉ p ∧ Incomplete p ∧
      ∀ behind n, es.length < n →
        ∃ es', entries n (text ++ 0 :: behind) = es ++ (splitEntry (p ++ 0 :: behind)).1 :: es' := by
  induction hlen : text.length using Nat.strong_induction_on generalizing text with | _ k ih
  rcases split_cases text with rfl | hbad | ⟨path, mnt, rest, hpath, hmnt, hshort, rfl⟩
  · exact absurd .nil h
  · refine ⟨[], text, Nat.zero_le _, h0, hbad, fun behind n hn => ?_⟩
    obtain ⟨n, rfl⟩ := Nat.exists_eq_succ_of_ne_zero (Nat.ne_of_gt hn)
    exact ⟨_, by rw [entries, if_neg (headD_ne_zero h0 hbad.ne_nil), nil_append]⟩
  · have hrest0 : (0 : Byte) ∉ rest := fun h => h0 (mem_append_right _ (mem_cons_of_mem _
      (mem_append_right _ (mem_cons_of_mem _ h))))
    have hnext : ¬ Complete (nextEntry rest) := fun h' => h (.cons hpath hmnt hshort h')
    have hne : nextEntry rest ≠ [] := fun hnil => hnext (hnil ▸ .nil)
    have hshorter : (nextEntry rest).length < k := by
      have hle : (nextEntry rest).length ≤ rest.length := by
        simp only [nextEntry, strchrnul, span_eq_takeWhile_dropWhile]
        exact (dropWhile_suffix _).length_le.trans (dropWhile_suffix _).length_le
      simp only [length_append, length_cons] at hlen
      omega
    obtain ⟨es, p, hes, hp0, hp, hloop⟩ := ih _ hshorter (nextEntry rest) (not_mem_nextEntry hrest0) hnext rfl
    refine ⟨⟨path, mnt, rest.headD 0 = ch '1'⟩ :: es, p, ?_, hp0, hp, fun behind n hn => ?_⟩
    · have hle := commas_nextEntry hrest0 hne
      have hle' := commas_rest_le path mnt rest
      rw [length_cons]
      omega
    · obtain ⟨n, rfl⟩ := Nat.exists_eq_succ_of_ne_zero (Nat.ne_of_gt (Nat.zero_lt_of_lt hn))
      obtain ⟨es', hes'⟩ := hloop behind n (Nat.lt_of_succ_lt_succ hn)
      exact ⟨es', by rw [entries, if_neg (headD_ne_zero h0 (by simp)), splitEntry_complete hpath hmnt h0, hes',
        cons_append]⟩

theorem commas_le (text : List Byte) : commas text ≤ text.length := count_le_length

def HostMount.seen (m : HostMount) : List Byte × Bool := (m.destination.getD [], m.readonly)

def EnclaveMount.seen (m : EnclaveMount) : List Byte × Bool := (m.destination, m.readonly)

/-- The host and the enclave have the same mounts. An element that no entry fills has no destination in both. -/
def MountsAgree (text : CString Byte) (behind behind' : List Byte) : Prop :=
  ∃ hosts enclaves, overrideHostConfig text behind = some hosts ∧ overrideDiskConfig text behind' = some enclaves ∧
    hosts.map HostMount.seen = enclaves.map EnclaveMount.seen

theorem mountsAgree_of_complete {text : CString Byte} (hne : text.chars ≠ []) (h : Complete text.chars)
    (behind behind' : List Byte) : MountsAgree text behind behind' := by
  obtain ⟨es, hes, hshort, hloop⟩ := entries_complete h text.nul
  rw [if_neg hne] at hes
  have hcommas := commas_le text.chars
  have hmem : es.length ≤ (text.chars ++ 0 :: behind).length := by
    rw [length_append, length_cons]
    omega
  refine ⟨fill (1 + commas text.chars) {} (es.map Entry.toHost),
    fill (1 + commas text.chars) {} (es.map Entry.toEnclave), ?_, ?_, ?_⟩
  · unfold overrideHostConfig
    dsimp only
    rw [hloop behind _ hmem, if_pos hes]
  · unfold overrideDiskConfig
    dsimp only
    rw [if_neg hne, hloop behind' _ hes, if_pos hshort]
  · simp only [fill, map_append, map_map, map_replicate, length_map]
    rfl

/-- Two copies with the same mounts have the same entries, with mount points that are not too long. -/
theorem MountsAgree.entry {text : CString Byte} {behind behind' : List Byte} (h : MountsAgree text behind behind')
    (hne : text.chars ≠ []) {es es₁ es₂ : List Entry} {e e' : Entry}
    (he : entries (text.chars ++ 0 :: behind).length (text.chars ++ 0 :: behind) = es ++ e :: es₁)
    (he' : entries (1 + commas text.chars) (text.chars ++ 0 :: behind') = es ++ e' :: es₂) :
    e.mnt = e'.mnt ∧ e.ro = e'.ro ∧ e'.mnt.length ≤ diskMntMaxPathLen := by
  obtain ⟨hosts, enclaves, hhost, henclave, hseen⟩ := h
  unfold overrideHostConfig at hhost
  unfold overrideDiskConfig at henclave
  dsimp only at hhost henclave
  rw [he] at hhost
  rw [if_neg hne, he'] at henclave
  split_ifs at hhost henclave with hlen hshort
  obtain rfl := Option.some.inj hhost
  obtain rfl := Option.some.inj henclave
  have hat := congrArg (·[es.length]?) hseen
  have hboth : (e.mnt, e.ro) = (e'.mnt, e'.ro) := by
    simpa [fill, HostMount.seen, EnclaveMount.seen, Entry.toHost, Entry.toEnclave] using hat
  exact ⟨congrArg (·.1) hboth, congrArg (·.2) hboth, hshort e' (by simp)⟩

/-- **Host and enclave agree on the extra disks**, whatever is behind their copies of the value, if and only if there
is an entry and all entries are complete. -/
theorem mounts_agree_iff (text : CString Byte) : (∀ behind behind', MountsAgree text behind behind') ↔
    text.chars ≠ [] ∧ Complete text.chars := by
  refine ⟨fun h => ?_, fun h behind behind' => mountsAgree_of_complete h.1 h.2 behind behind'⟩
  have hne : text.chars ≠ [] := by
    rintro hnil
    obtain ⟨chars, nul⟩ := text
    subst hnil
    obtain ⟨hosts, enclaves, hhost, henclave, hseen⟩ := h [] []
    cases hhost
    cases henclave
    cases hseen
  refine ⟨hne, ?_⟩
  by_contra hbad
  obtain ⟨es, p, hes, hp0, hp, hloop⟩ := entries_incomplete text.chars text.nul hbad
  have hcommas := commas_le text.chars
  have hagree : ∀ behind behind', (splitEntry (p ++ 0 :: behind)).1.mnt = (splitEntry (p ++ 0 :: behind')).1.mnt ∧
      (splitEntry (p ++ 0 :: behind)).1.ro = (splitEntry (p ++ 0 :: behind')).1.ro ∧
      (splitEntry (p ++ 0 :: behind')).1.mnt.length ≤ diskMntMaxPathLen := by
    intro behind behind'
    obtain ⟨es₁, hes₁⟩ := hloop behind (text.chars ++ 0 :: behind).length (by simp; omega)
    obtain ⟨es₂, hes₂⟩ := hloop behind' (1 + commas text.chars) (by omega)
    exact (h behind behind').entry hne hes₁ hes₂
  cases hp with
  | path _ hpath =>
    -- the mount point is behind the string
    have hmnt := (hagree (bytes "x") []).1
    simp only [splitEntry, strchrnul_append (.inr rfl) hpath hp0] at hmnt
    exact absurd hmnt (by decide)
  | @mnt path mnt hpath hmnt =>
    -- the flag is behind the string
    have hpath0 : (0 : Byte) ∉ path := fun h => hp0 (mem_append_left _ h)
    have hmnt0 : (0 : Byte) ∉ mnt := fun h => hp0 (mem_append_right _ (mem_cons_of_mem _ h))
    have hro := (hagree (bytes "1") []).2.1
    simp only [splitEntry, append_assoc, cons_append, strchrnul_append (.inl rfl) hpath hpath0, drop_one, tail_cons,
      strchrnul_append (.inr rfl) hmnt hmnt0] at hro
    exact absurd hro (by decide)
  | @long path mnt rest hpath hmnt hlong =>
    have hshort := (hagree [] []).2.2
    rw [splitEntry_complete hpath hmnt hp0] at hshort
    exact absurd hlong (not_lt.mpr hshort)

def hds (s : String) (h : (0 : Byte) ∉ bytes s := by decide) : CString Byte := ⟨bytes s, h⟩

theorem mounts_agree_two : MountsAgree (hds "a:/b:0, c:/d:1") [] (bytes "x") := by
  have hsecond : Complete (bytes "c" ++ colon :: (bytes "/d" ++ colon :: bytes "1")) :=
    .cons (by decide) (by decide) (by decide) .nil
  have hfirst : Complete (bytes "a" ++ colon :: (bytes "/b" ++ colon :: bytes "0, c:/d:1")) :=
    .cons (by decide) (by decide) (by decide) hsecond
  exact (mounts_agree_iff _).mpr ⟨by decide, hfirst⟩ [] (bytes "x")

/-- An empty value is one mount for the host and none for the enclave. An entry without the last colon depends on
what is behind the string. -/
theorem mounts_disagree : (overrideHostConfig (hds "") []).map List.length = some 1 ∧
      (overrideDiskConfig (hds "") []).map List.length = some 0 ∧
      (overrideHostConfig (hds "a:/b") (bytes "1")).map (·.map HostMount.seen) = some [(bytes "/b", true)] ∧
      (overrideDiskConfig (hds "a:/b") (bytes "0")).map (·.map EnclaveMount.seen) = some [(bytes "/b", false)] := by
  decide

end SgxLkl.Host
