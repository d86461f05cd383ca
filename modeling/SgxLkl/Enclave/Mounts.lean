import SgxLkl.Lib.Bits

/-!
# Mounting and unmounting disks (`lkl/setup.c`)

`lkl_mount_disks` mounts the root as disk `0` and mount `i` as disk `i + 1`, but no disk behind `/dev/vdz`.
`lkl_terminate` goes through the mounts from the last one on, and looks at the state of disk `i` for mount `i`.

* **`unmounts_mounted_iff`**: it undoes the mounts that were made if and only if there are at most 25, and the root can
  be written.
-/

namespace SgxLkl.Mounts

open List

/-- `disk_state[i].mounted`, and what was mounted so far; `none` is the root. -/
structure Disks where
  mounted : ℕ → Bool
  log : List (Option ℕ)

/-- The end of `lkl_mount_disk`, with the answer of `lkl_mount_blockdev`; the program ends with an error. -/
def lklMountDisk (ok : Bool) (mntPoint : Option ℕ) (diskIndex : ℕ) (s : Disks) : Option Disks :=
  if ok then some ⟨Function.update s.mounted diskIndex true, s.log ++ [mntPoint]⟩ else none

/-- The loop of `lkl_mount_disks` with `k` mounts left. -/
def mountLoop (answer : ℕ → Bool) : ℕ → ℕ → Disks → Option Disks
  | 0, _, s => some s
  | k + 1, mntIdx, s =>
    let dskIdx := mntIdx + 1
    if 'a'.toNat + dskIdx > 'z'.toNat then some s
    else (lklMountDisk (answer dskIdx) (some mntIdx) dskIdx s).bind (mountLoop answer k (mntIdx + 1))

def lklMountDisks (answer : ℕ → Bool) (numMounts : Word) : Option Disks :=
  (lklMountDisk (answer 0) none 0 ⟨fun _ => false, []⟩).bind (mountLoop answer numMounts.toNat 0)

/-- The loop of `lkl_terminate` below `i`: the mounts that it unmounts, and whether it removes their directories too. The
errors of these calls are only reported. -/
def umountLoop (readonly : Bool) (mounted : ℕ → Bool) : ℕ → List (ℕ × Bool)
  | 0 => []
  | i + 1 =>
    if mounted i then (i, !readonly) :: umountLoop readonly mounted i else umountLoop readonly mounted i

/-- The first index is an `int`. -/
def lklTerminate (readonly : Bool) (numMounts : Word) (s : Disks) : List (ℕ × Bool) :=
  umountLoop readonly s.mounted (((numMounts - 1).setWidth 32 : CInt).toInt + 1).toNat

/-- The mounts that were mounted, in order. -/
def Disks.mounts (s : Disks) : List ℕ := s.log.filterMap id

variable {answer : ℕ → Bool} {readonly : Bool} {numMounts : Word} {s s' : Disks}

theorem mountLoop_eq {k mntIdx : ℕ} (h : mountLoop answer k mntIdx s = some s') (hidx : mntIdx ≤ 25)
    (hstate : ∀ i, s.mounted i = decide (i ≤ mntIdx)) (hlog : s.mounts = range mntIdx) :
    (∀ i, s'.mounted i = decide (i ≤ min (mntIdx + k) 25)) ∧ s'.mounts = range (min (mntIdx + k) 25) := by
  induction k generalizing mntIdx s with
  | zero =>
    obtain rfl := Option.some.inj h
    rw [Nat.add_zero, Nat.min_eq_left hidx]
    exact ⟨hstate, hlog⟩
  | succ k ih =>
    simp only [mountLoop, show 'a'.toNat = 97 from rfl, show 'z'.toNat = 122 from rfl] at h
    split_ifs at h with hlast
    · obtain rfl := Option.some.inj h
      rw [show min (mntIdx + (k + 1)) 25 = mntIdx by omega]
      exact ⟨hstate, hlog⟩
    · obtain ⟨s₁, hmount, hrest⟩ := Option.bind_eq_some_iff.mp h
      rw [lklMountDisk, Option.ite_none_right_eq_some] at hmount
      obtain rfl := Option.some.inj hmount.2
      rw [show mntIdx + (k + 1) = mntIdx + 1 + k by omega]
      refine ih hrest (by omega) (fun i => ?_) ?_
      · by_cases hi : i = mntIdx + 1
        · simp [hi]
        · simp only [Function.update_of_ne hi, hstate, decide_eq_decide]
          omega
      · rw [Disks.mounts, filterMap_append, ← Disks.mounts, hlog, range_succ]
        rfl

/-- What `lkl_mount_disks` leaves behind. -/
theorem lklMountDisks_eq (h : lklMountDisks answer numMounts = some s) :
    (∀ i, s.mounted i = decide (i ≤ min numMounts.toNat 25)) ∧ s.mounts = range (min numMounts.toNat 25) := by
  obtain ⟨s₁, hroot, hrest⟩ := Option.bind_eq_some_iff.mp h
  rw [lklMountDisk, Option.ite_none_right_eq_some] at hroot
  obtain rfl := Option.some.inj hroot.2
  have hloop := mountLoop_eq hrest (Nat.zero_le 25) (fun i => ?_) rfl
  · rwa [Nat.zero_add] at hloop
  · by_cases hi : i = 0 <;> simp [hi]

theorem umountLoop_eq (readonly : Bool) (mounted : ℕ → Bool) (k : ℕ) :
    umountLoop readonly mounted k = ((range k).filter mounted).reverse.map (·, !readonly) := by
  induction k with
  | zero => rfl
  | succ i ih =>
    rw [umountLoop, range_succ, filter_append, reverse_append, map_append, ← ih]
    cases hi : mounted i <;> simp [hi]

theorem filter_range_eq (m k : ℕ) : (range k).filter (fun i => decide (i ≤ m)) = range (min k (m + 1)) := by
  induction k with
  | zero => simp
  | succ k ih =>
    rw [range_succ, filter_append, ih]
    by_cases hk : k ≤ m
    · simp [hk, show min k (m + 1) = k by omega, range_succ]
    · simp [hk, show min k (m + 1) = m + 1 by omega, show min (k + 1) (m + 1) = m + 1 by omega]

/-- **Shutdown undoes the mounts that were made**, each once and in reverse order, if and only if there are at most 25
(or the conversion to `int` makes it so), and the root can be written or nothing is mounted. -/
theorem unmounts_mounted_iff (readonly : Bool) (h : lklMountDisks answer numMounts = some s) :
    lklTerminate readonly numMounts s = s.mounts.reverse.map (·, true) ↔
      (numMounts.toNat ≤ 25 ∨ numMounts.toNat % 2 ^ 32 = 25) ∧ (readonly = false ∨ numMounts = 0) := by
  obtain ⟨hstate, hmounts⟩ := lklMountDisks_eq h
  have hlt := numMounts.isLt
  set n := numMounts.toNat with hn
  have hzero : numMounts = 0 ↔ n = 0 := by rw [hn, ← BitVec.toNat_inj]; rfl
  -- the number of mounts that the loop of `lkl_terminate` looks at
  obtain ⟨k, hk, hkn⟩ : ∃ k, (((numMounts - 1).setWidth 32 : CInt).toInt + 1).toNat = k ∧
      (k = min n 25 ↔ n ≤ 25 ∨ n % 2 ^ 32 = 25) := by
    refine ⟨_, rfl, ?_⟩
    rw [BitVec.toInt_eq_toNat_cond, BitVec.toNat_setWidth, BitVec.toNat_sub, ← hn, show (1 : Word).toNat = 1 from rfl]
    split_ifs <;> omega
  have hfilter : (range k).filter s.mounted = range (min k (min n 25 + 1)) := by
    rw [← filter_range_eq]
    exact filter_congr fun i _ => hstate i
  rw [lklTerminate, hk, umountLoop_eq, hfilter, hmounts, hzero, ← hkn, map_reverse, map_reverse, reverse_inj]
  constructor
  · intro heq
    have hlen := congrArg length heq
    rw [length_map, length_map, length_range, length_range] at hlen
    refine ⟨by omega, ?_⟩
    cases readonly with
    | false => exact .inl rfl
    | true =>
      refine .inr (by_contra fun hpos => ?_)
      have hhead := congrArg (·[0]?) heq
      simp [show 0 < min k (min n 25 + 1) by omega, show 0 < min n 25 by omega] at hhead
  · rintro ⟨hmin, rfl | hnone⟩
    · rw [hmin, Nat.min_eq_left (Nat.le_succ _)]
      rfl
    · simp [hmin, hnone]

theorem unmounts_mounted_iff_two : ∃ s, lklMountDisks (fun _ => true) 2 = some s ∧
    lklTerminate false 2 s = s.mounts.reverse.map (·, true) := by
  obtain ⟨s, hs⟩ := Option.isSome_iff_exists.mp (show (lklMountDisks (fun _ => true) 2).isSome = true by decide)
  exact ⟨s, hs, (unmounts_mounted_iff false hs).mpr (by decide)⟩

/-- With 26 mounts the last one, which was not mounted, is unmounted and removed. -/
theorem unmounts_not_mounted : (lklMountDisks (fun _ => true) 26).map (fun s =>
    ((lklTerminate false 26 s).head?, s.mounts.contains 25)) = some (some (25, true), false) := by
  decide

end SgxLkl.Mounts
