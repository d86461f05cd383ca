import SgxLkl.Enclave.EventChannel
import SgxLkl.Host.DeviceThread

/-!
# The parity of the event counters

On both sides a notification adds `2`, and the waiter adds `1` to announce its wait and takes it off again. The weak
exchange of the host writes the value it finds to `evt_processed`, also if it fails for no reason.

* **`event_parity`**: a word is odd while its waiter waits, and what is recorded is even and not ahead of the word, as
  long as the word does not wrap around; `event_counter_wraps`: it is ahead then.
-/

namespace SgxLkl

namespace DeviceThread

variable {ι : Type*} {c c' : Device ι} {l : Label} {n : ℕ}

def Label.isNotify : Label → Bool
  | .notify _ => true
  | _ => false

/-- The words behind `n` notifications, of which the device thread has accounted for `v`. -/
structure Counted (n : ℕ) (c : Device ι) : Prop where
  evt : c.evt = BitVec.ofNat 64 (2 * n + c.device.waiting)
  processed : ∃ v ≤ n, c.processed = BitVec.ofNat 64 (2 * v)
  desired : ∀ {desired}, c.device = .check desired → desired = c.processed + 1

theorem Device.Init.counted (h : c.Init) : Counted 0 c where
  evt := by rw [h.evt, h.device]; rfl
  processed := ⟨0, le_rfl, h.processed⟩
  desired := by simp [h.device]

theorem Counted.deviceStep (h : Counted n c) (hstep : c.deviceStep = some (l, c')) :
    Counted n c' ∧ l.isNotify = false := by
  obtain ⟨hevt, hprocessed, hdesired⟩ := h
  unfold Device.deviceStep at hstep
  split at hstep <;> rename_i hpc <;> rw [hpc] at hevt <;> simp only [DevicePc.waiting] at hevt
  case h_1 =>
    split_ifs at hstep with heq <;> cases hstep
    · refine ⟨⟨?_, hprocessed, fun hd => (DevicePc.check.inj hd).symm⟩, rfl⟩
      rw [← heq, hevt]
      exact (BitVec.ofNat_add _ _).symm
    · exact ⟨⟨hevt, ⟨n, le_rfl, hevt⟩, by simp⟩, rfl⟩
  case h_4 => cases hstep
  case h_5 =>
    have heven : c.evt - 1 = BitVec.ofNat 64 (2 * n) := by
      rw [hevt, BitVec.ofNat_add]
      exact BitVec.add_sub_cancel _ _
    cases hstep
    exact ⟨⟨heven, ⟨n, le_rfl, heven⟩, by simp⟩, rfl⟩
  all_goals
    cases hstep
    try split_ifs
    all_goals exact ⟨⟨hevt, hprocessed, by simp⟩, rfl⟩

theorem Counted.step [DecidableEq ι] {a : Act ι} (h : Counted n c) (hstep : Device.step a c = some (l, c')) :
    Counted (n + if l.isNotify then 1 else 0) c' := by
  have hquiet : ∀ {c₁ : Device ι}, Counted n c₁ ∧ l.isNotify = false →
      Counted (n + if l.isNotify then 1 else 0) c₁ := fun ⟨h₁, hl⟩ => by simpa [hl] using h₁
  obtain ⟨hevt, hprocessed, hdesired⟩ := h
  cases a with
  | notify i qidx =>
    simp only [Device.step] at hstep
    split_ifs at hstep
    cases hstep
    obtain ⟨v, hv, hproc⟩ := hprocessed
    refine ⟨?_, ⟨v, hv.trans (Nat.le_add_right _ _), hproc⟩, hdesired⟩
    show c.evt + 2 = BitVec.ofNat 64 (2 * (n + 1) + c.device.waiting)
    rw [hevt, show 2 * (n + 1) + c.device.waiting = 2 * n + c.device.waiting + 2 by omega, BitVec.ofNat_add _ 2]
    rfl
  | notifier i =>
    refine hquiet ?_
    simp only [Device.step, Device.notifyStep] at hstep
    split at hstep <;> cases hstep
    · exact ⟨⟨hevt, hprocessed, hdesired⟩, rfl⟩
    · split_ifs with hpc
      · rw [hpc] at hevt
        exact ⟨⟨hevt, hprocessed, by simp⟩, rfl⟩
      · exact ⟨⟨hevt, hprocessed, hdesired⟩, rfl⟩
  | device => exact hquiet (Counted.deviceStep ⟨hevt, hprocessed, hdesired⟩ hstep)
  | fail =>
    simp only [Device.step] at hstep
    split_ifs at hstep with hpc
    cases hstep
    rw [hpc] at hevt
    exact hquiet ⟨⟨hevt, ⟨n, le_rfl, hevt⟩, by simp⟩, rfl⟩
  | spurious =>
    simp only [Device.step] at hstep
    split_ifs at hstep with hpc
    cases hstep
    rw [hpc] at hevt
    exact hquiet ⟨⟨hevt, hprocessed, by simp⟩, rfl⟩

theorem Counted.run [DecidableEq ι] {c₀ : Device ι} {ls : List Label} (h₀ : c₀.Init)
    (hr : Run (Chosen Device.step) c₀ ls c) : Counted (ls.countP Label.isNotify) c := by
  refine hr.history (I := fun ls c => Counted (ls.countP Label.isNotify) c) ?_ h₀.counted
  rintro ls c l c' h ⟨a, hstep⟩
  simpa [List.countP_cons] using h.step hstep

end DeviceThread

open EventChannel DeviceThread

/-- **The parity of the event counters.** Behind every run on either side with fewer than `2 ^ 63` notifications: the
word is odd exactly while the waiter has announced its wait, what is recorded as processed is even and not larger than
the word, and the values that the handlers assert to be odd are so. -/
theorem event_parity {ι κ : Type*} [DecidableEq ι] [DecidableEq κ] {c₀ c : Channel ι} {d₀ d : Device κ}
    {ls : List EventChannel.Label} {ms : List DeviceThread.Label} (hc₀ : c₀.Init)
    (hc : Run (Chosen Channel.step) c₀ ls c) (hls : ls.count .notify < 2 ^ 63) (hd₀ : d₀.Init)
    (hd : Run (Chosen Device.step) d₀ ms d) (hms : ms.countP Label.isNotify < 2 ^ 63) :
    ((c.evt.toNat % 2 = 1 ↔ c.task.waiting = 1) ∧ c.processed.toNat % 2 = 0 ∧ c.processed.toNat ≤ c.evt.toNat ∧
        ∀ new, c.task = .check new → new.toNat % 2 = 1) ∧
      (d.evt.toNat % 2 = 1 ↔ d.device.waiting = 1) ∧ d.processed.toNat % 2 = 0 ∧ d.processed.toNat ≤ d.evt.toNat ∧
        ∀ desired, d.device = .check desired → desired.toNat % 2 = 1 := by
  have hsucc : ∀ x : Word, x.toNat % 2 = 0 → (x + 1).toNat % 2 = 1 := by
    intro x hx
    rw [BitVec.toNat_add, show (1 : Word).toNat = 1 from rfl]
    omega
  constructor
  · have h := hc₀.inv.run hc hls
    obtain ⟨v, hv, hle⟩ := h.processed
    have hevt := h.evt
    have hwaiting : c.task.waiting ≤ 1 := by
      cases c.task <;> simp [TaskPc.waiting]
    refine ⟨by omega, by omega, by omega, fun new hnew => ?_⟩
    have htask := h.task
    rw [hnew] at htask
    rw [htask]
    exact hsucc _ (by omega)
  · obtain ⟨hevt, ⟨v, hv, hprocessed⟩, hdesired⟩ := Counted.run hd₀ hd
    have hwaiting : d.device.waiting ≤ 1 := by
      cases d.device <;> simp [DevicePc.waiting]
    have htoNat : d.processed.toNat = 2 * v := by
      rw [hprocessed, BitVec.toNat_ofNat]
      omega
    have hevt' : d.evt.toNat = 2 * ms.countP Label.isNotify + d.device.waiting := by
      rw [hevt, BitVec.toNat_ofNat]
      omega
    refine ⟨by omega, by omega, by omega, fun desired hpc => ?_⟩
    rw [hdesired hpc]
    exact hsucc _ (by omega)

/-- Both waiters wait, and are notified. -/
theorem event_parity_idle : ∃ ls c ms d, Run (Chosen Channel.step) Channel.idle ls c ∧
    Run (Chosen Device.step) Device.idle ms d ∧ c.evt = 3 ∧ d.evt = 3 ∧ c.task.waiting = 1 ∧ d.device.waiting = 1 := by
  have hc : (execute Channel.step [.task, .task, .host] Channel.idle).map (fun x => (x.1.count .notify, x.2.evt)) =
      some (1, 3) := by decide +kernel
  have hd : (execute Device.step [.device, .notify () 1] Device.idle).map
      (fun x => (x.1.countP Label.isNotify, x.2.evt)) = some (1, 3) := by decide +kernel
  obtain ⟨⟨ls, c⟩, hc, heq⟩ := Option.map_eq_some_iff.mp hc
  obtain ⟨⟨ms, d⟩, hd, heq'⟩ := Option.map_eq_some_iff.mp hd
  obtain ⟨hls, hevt⟩ := Prod.mk.inj heq
  obtain ⟨hms, hevt'⟩ := Prod.mk.inj heq'
  have h := event_parity ⟨rfl, rfl, rfl, rfl, rfl, rfl, fun _ => rfl⟩ (run_of_execute hc) (by rw [hls]; decide)
    Device.idle_init (run_of_execute hd) (by rw [hms]; decide)
  exact ⟨ls, c, ms, d, run_of_execute hc, run_of_execute hd, hevt, hevt', h.1.1.mp (by rw [hevt]; rfl),
    h.2.1.mp (by rw [hevt']; rfl)⟩

theorem run_host {ι : Type*} [DecidableEq ι] (n : ℕ) (c : Channel ι) : Run (Chosen Channel.step) c
    (List.replicate n .notify) { c with evt := c.evt + BitVec.ofNat 64 (2 * n) } := by
  induction n generalizing c with
  | zero => simpa using Run.nil c
  | succ n ih =>
    refine .cons ⟨.host, rfl⟩ ?_
    have hrest := ih { c with evt := c.evt + 2 }
    rwa [BitVec.add_assoc, show (2 : Word) = BitVec.ofNat 64 2 from rfl, ← BitVec.ofNat_add,
      show 2 + 2 * n = 2 * (n + 1) by omega] at hrest

/-- Behind `2 ^ 63` notifications the word is `0` again, and `evt_processed` is ahead of it. -/
theorem event_counter_wraps : ∃ ls c, Run (Chosen Channel.step) Channel.idle ls c ∧ ls.count .notify = 2 ^ 63 ∧
    c.evt = 0 ∧ c.processed = 2 := by
  have hexec : (execute Channel.step [.host, .task, .task, .task, .task] Channel.idle).map (fun x =>
      (x.1.count .notify, x.2.evt, x.2.processed)) = some (1, 2, 2) := by decide +kernel
  obtain ⟨⟨ls, c⟩, hexec, heq⟩ := Option.map_eq_some_iff.mp hexec
  simp only [Prod.mk.injEq] at heq
  obtain ⟨hcount, hevt, hprocessed⟩ := heq
  refine ⟨_, _, (run_of_execute hexec).append (run_host (2 ^ 63 - 1) c), ?_, ?_, hprocessed⟩
  · rw [List.count_append, List.count_replicate_self, hcount]
    decide
  · show c.evt + BitVec.ofNat 64 (2 * (2 ^ 63 - 1)) = 0
    rw [hevt]
    decide

end SgxLkl
