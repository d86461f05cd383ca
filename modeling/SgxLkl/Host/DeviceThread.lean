import SgxLkl.Lib.Bits
import SgxLkl.Lib.Lts

/-!
# Device threads of the host (`host_interface/host_event_channel.c`)

The other direction of a channel: threads of the enclave add `2` to a word and store the index of a queue, and call the
host if the waiting bit was set; a thread of the host sets the bit, looks again, waits on a condition variable, and
processes the queue it finds in the index word.

* `Device.step`: the notifiers and the device thread, access by access. Only the device thread takes the mutex, so
  `pthread_cond_wait` is the step from `block` to `blocked`.
* **`device_blocks_before_signal`**: if no signal is sent between the check of the device thread and its wait, it never
  waits behind a notification without a signal to come; `device_misses_signal`: it may otherwise.
* **`queue_processed`**: if the notifications between two reads of the index word are of one queue, and both words are
  written when it is read, every queue is processed; `queue_missed`: it may not be otherwise.
-/

namespace SgxLkl.DeviceThread

open List Function

/-! ## The machine -/

inductive DevicePc
  /-- `vio_host_process_enclave_event` -/
  | cas
  /-- `_vio_host_wait_for_enclave_event` -/
  | check (desired : Word)
  /-- `pthread_cond_wait` is to be called. -/
  | block
  | blocked
  /-- The waiting bit is to be cleared. -/
  | clear
  /-- `virtio_process_queue` is to be called. -/
  | process
  deriving DecidableEq

/-- Where a thread of the enclave is in `vio_enclave_notify_enclave_event`. -/
inductive NotifyPc
  | idle
  /-- The index is to be stored. -/
  | index (qidx : CInt) (cur : Word)
  /-- The host is to be called, for `pthread_cond_signal`. -/
  | signal
  deriving DecidableEq

/-- The words that both sides share, the device thread and the threads that notify. -/
structure Device (ι : Type*) where
  /-- `host_evt_channel` -/
  evt : Word
  /-- `evt_processed` -/
  processed : Word
  /-- `qidx_p` -/
  qidx : CInt
  device : DevicePc
  notifier : ι → NotifyPc

inductive Label
  | tau
  | notify (qidx : CInt)
  | index (qidx : CInt)
  | signal
  /-- `evt_processed` is set. -/
  | account
  | process (qidx : CInt)
  deriving DecidableEq

inductive Act (ι : Type*)
  /-- A thread calls `vio_enclave_notify_enclave_event`. -/
  | notify (i : ι) (qidx : CInt)
  /-- It goes on. -/
  | notifier (i : ι)
  | device
  /-- The weak compare-and-exchange of the device thread fails. -/
  | fail
  /-- `pthread_cond_wait` returns without a signal. -/
  | spurious

namespace Device

variable {ι : Type*} [DecidableEq ι]

def deviceStep (c : Device ι) : Option (Label × Device ι) :=
  match c.device with
  | .cas =>
    if c.evt = c.processed then
      some (.tau, { c with evt := c.processed + 1, device := .check (c.processed + 1) })
    else some (.account, { c with processed := c.evt, device := .process })
  | .check desired => some (.tau, { c with device := if c.evt ≠ desired then .clear else .block })
  | .block => some (.tau, { c with device := .blocked })
  | .blocked => none
  | .clear => some (.account, { c with evt := c.evt - 1, processed := c.evt - 1, device := .process })
  | .process => some (.process c.qidx, { c with device := .cas })

/-- The rest of `vio_enclave_notify_enclave_event`. A signal is lost unless the device thread is blocked. -/
def notifyStep (i : ι) (c : Device ι) : Option (Label × Device ι) :=
  let go (pc : NotifyPc) : Device ι := { c with notifier := update c.notifier i pc }
  match c.notifier i with
  | .idle => none
  | .index qidx cur =>
    some (.index qidx, { go (if cur &&& 1 ≠ 0 then .signal else .idle) with qidx })
  | .signal =>
    some (.signal, { go .idle with device := if c.device = .blocked then .clear else c.device })

def step : Act ι → Device ι → Option (Label × Device ι)
  | .notify i qidx, c =>
    if c.notifier i = .idle then
      some (.notify qidx, { c with evt := c.evt + 2, notifier := update c.notifier i (.index qidx c.evt) })
    else none
  | .notifier i, c => c.notifyStep i
  | .device, c => c.deviceStep
  | .fail, c =>
    if c.device = .cas then some (.account, { c with processed := c.evt, device := .process }) else none
  | .spurious, c => if c.device = .blocked then some (.tau, { c with device := .clear }) else none

structure Init (c : Device ι) : Prop where
  evt : c.evt = 0
  processed : c.processed = 0
  device : c.device = .cas
  notifier : ∀ i, c.notifier i = .idle

end Device

def NotifyPc.Signals : NotifyPc → Prop
  | .idle => False
  | .index _ cur => cur &&& 1 ≠ 0
  | .signal => True

/-! ## Waiting -/

def DevicePc.waiting : DevicePc → ℕ
  | .check _ | .block | .blocked | .clear => 1
  | .cas | .process => 0

structure Inv {ι : Type*} (c : Device ι) : Prop where
  evt : c.evt.toNat % 2 = c.device.waiting
  processed : c.processed.toNat % 2 = 0
  desired : ∀ {desired}, c.device = .check desired → desired = c.processed + 1
  blocked : c.device = .block ∨ c.device = .blocked → c.evt = c.processed + 1 ∨ ∃ i, (c.notifier i).Signals

/-- No signal is sent when the device thread has made its check and does not wait yet. -/
def Heard {ι : Type*} (c : Device ι) (l : Label) : Prop := l = .signal → c.device ≠ .block

theorem Device.Init.inv {ι : Type*} {c : Device ι} (h : c.Init) : Inv c where
  evt := by
    rw [h.evt, h.device]
    rfl
  processed := by
    rw [h.processed]
    rfl
  desired := by simp [h.device]
  blocked := by simp [h.device]

section

variable {ι : Type*} {c c' : Device ι} {l : Label}

namespace Inv

theorem running {evt processed : Word} {pc : DevicePc} (hevt : evt.toNat % 2 = pc.waiting)
    (hprocessed : processed.toNat % 2 = 0) (hdesired : ∀ {desired}, pc = .check desired → desired = processed + 1)
    (hpc : pc ≠ .block ∧ pc ≠ .blocked) : Inv { c with evt, processed, device := pc } :=
  ⟨hevt, hprocessed, hdesired, fun hc => absurd hc (by simp [hpc])⟩

variable (h : Inv c)

include h

theorem odd (hc : c.device = .block ∨ c.device = .blocked) : c.evt &&& 1 ≠ 0 := by
  rw [and_one_ne_zero, h.evt]
  rcases hc with hc | hc <;> rw [hc] <;> rfl

theorem account (hpc : c.device = .cas) : Inv { c with processed := c.evt, device := .process } := by
  have hevt := h.evt
  rw [hpc] at hevt
  exact running hevt hevt (by simp) (by simp)

theorem deviceStep (hstep : c.deviceStep = some (l, c')) : Inv c' := by
  have hevt := h.evt
  have hprocessed := h.processed
  have hone : (1 : Word).toNat = 1 := rfl
  unfold Device.deviceStep at hstep
  split at hstep <;> rename_i hpc
  all_goals rw [hpc] at hevt
  all_goals simp only [DevicePc.waiting] at hevt
  case h_1 =>
    split_ifs at hstep with heq <;> cases hstep
    · refine running ?_ hprocessed (fun hd => (DevicePc.check.inj hd).symm) (by simp)
      rw [BitVec.toNat_add, hone, DevicePc.waiting]
      omega
    · exact h.account hpc
  case h_2 desired =>
    cases hstep
    split_ifs with heq
    · exact running hevt hprocessed (by simp) (by simp)
    · refine ⟨hevt, hprocessed, by simp, fun _ => .inl ?_⟩
      exact (not_not.mp heq).trans (h.desired hpc)
  case h_3 =>
    cases hstep
    exact ⟨hevt, hprocessed, by simp, fun _ => h.blocked (.inl hpc)⟩
  case h_4 => cases hstep
  case h_5 =>
    cases hstep
    have heven : (c.evt - 1).toNat % 2 = 0 := by
      rw [BitVec.toNat_sub, hone]
      omega
    exact running heven heven (by simp) (by simp)
  case h_6 =>
    cases hstep
    exact running hevt hprocessed (by simp) (by simp)

variable [DecidableEq ι] {i : ι}

theorem notify (qidx : CInt) :
    Inv { c with evt := c.evt + 2, notifier := update c.notifier i (.index qidx c.evt) } := by
  have hevt := h.evt
  refine ⟨?_, h.processed, h.desired, fun hc => .inr ⟨i, ?_⟩⟩
  · dsimp only
    rw [BitVec.toNat_add, show (2 : Word).toNat = 2 from rfl]
    omega
  · simpa [NotifyPc.Signals] using h.odd hc

theorem notifyStep (hstep : c.notifyStep i = some (l, c')) (hok : Heard c l) : Inv c' := by
  unfold Device.notifyStep at hstep
  dsimp only at hstep
  split at hstep <;> rename_i hpc <;> cases hstep
  case h_2.refl qidx cur =>
    refine ⟨h.evt, h.processed, h.desired, fun hc => (h.blocked hc).imp_right ?_⟩
    rintro ⟨j, hj⟩
    refine ⟨j, ?_⟩
    by_cases hji : j = i
    · subst hji
      rw [hpc, NotifyPc.Signals] at hj
      simp only [update_self]
      rw [if_pos hj]
      trivial
    · simpa [hji] using hj
  case h_3.refl =>
    have hblock := hok rfl
    by_cases hblocked : c.device = .blocked
    · have hevt := h.evt
      rw [hblocked] at hevt
      simp only [hblocked, if_true]
      exact ⟨hevt, h.processed, by simp, by simp⟩
    · simp only [hblocked, if_false]
      exact ⟨h.evt, h.processed, h.desired, fun hc => absurd hc (by simp [hblock, hblocked])⟩

theorem step {a : Act ι} (hstep : Device.step a c = some (l, c')) (hok : Heard c l) : Inv c' := by
  cases a with
  | notify i qidx =>
    simp only [Device.step] at hstep
    split_ifs at hstep
    cases hstep
    exact h.notify qidx
  | notifier i => exact h.notifyStep hstep hok
  | device => exact h.deviceStep hstep
  | fail =>
    simp only [Device.step] at hstep
    split_ifs at hstep with hpc
    cases hstep
    exact h.account hpc
  | spurious =>
    simp only [Device.step] at hstep
    split_ifs at hstep with hpc
    cases hstep
    have hevt := h.evt
    rw [hpc] at hevt
    exact running hevt h.processed (by simp) (by simp)

end Inv

end

/-- **A device thread that waits is signalled.** If no signal is sent between its check and its wait, then a device
thread that is blocked, while the word has moved on, is still to be signalled. -/
theorem device_blocks_before_signal {ι : Type*} [DecidableEq ι] {c₀ c : Device ι} {ls : List Label} (h₀ : c₀.Init)
    (hr : Run (Guarded (Chosen Device.step) Heard) c₀ ls c) (hblocked : c.device = .blocked)
    (hnew : c.evt ≠ c.processed + 1) : ∃ i, (c.notifier i).Signals := by
  have h : Inv c := hr.inv (fun _ _ _ h ⟨hok, _, hstep⟩ => h.step hstep hok) h₀.inv
  exact (h.blocked (.inr hblocked)).resolve_left hnew

def Device.idle : Device Unit := ⟨0, 0, 0, .cas, fun _ => .idle⟩

theorem Device.idle_init : Device.idle.Init := ⟨rfl, rfl, rfl, fun _ => rfl⟩

/-- A notification behind the wait of the device thread. -/
theorem device_blocks_before_signal_idle :
    ∃ ls c, Run (Guarded (Chosen Device.step) Heard) Device.idle ls c ∧ c.device = .blocked ∧
      c.evt > c.processed + 1 ∧ ∃ i, (c.notifier i).Signals := by
  have hexec : (execute Device.step [.device, .device, .device, .notify () 1] Device.idle).map (fun x =>
      decide (x.1 = [.tau, .tau, .tau, .notify 1] ∧ x.2.device = .blocked ∧ x.2.evt ≠ x.2.processed + 1 ∧
        x.2.evt > x.2.processed + 1)) = some true := by
    decide +kernel
  obtain ⟨⟨ls, c⟩, hexec, hcond⟩ := Option.map_eq_some_iff.mp hexec
  obtain ⟨rfl, hblocked, hne, hnew⟩ := of_decide_eq_true hcond
  have hr := (run_of_execute hexec).guarded_of_mem (p := (· ≠ .signal)) (by decide)
  have hr : Run (Guarded (Chosen Device.step) Heard) Device.idle _ c :=
    hr.mono fun s a t ⟨hok, hs⟩ => ⟨fun ha => absurd ha hok, hs⟩
  exact ⟨_, c, hr, hblocked, hnew, device_blocks_before_signal Device.idle_init hr hblocked hne⟩

/-- The device thread has found nothing, the enclave notifies and signals, and then the device thread waits. -/
theorem device_misses_signal :
    ∃ ls c, Run (Chosen Device.step) Device.idle ls c ∧ c.device = .blocked ∧ c.evt > c.processed + 1 ∧
      ∀ i, c.notifier i = .idle := by
  have hexec : (execute Device.step [.device, .device, .notify () 1, .notifier (), .notifier (), .device]
      Device.idle).map (fun x => decide (x.2.device = .blocked ∧ x.2.evt > x.2.processed + 1 ∧
        ∀ i, x.2.notifier i = .idle)) = some true := by
    decide +kernel
  obtain ⟨⟨ls, c⟩, hexec, hcond⟩ := Option.map_eq_some_iff.mp hexec
  exact ⟨ls, c, run_of_execute hexec, of_decide_eq_true hcond⟩

/-! ## Queues -/

/-- The queues that were notified behind the last read of the index word, behind a step. -/
def Label.unread (qs : List CInt) : Label → List CInt
  | .notify q => q :: qs
  | .process _ => []
  | .tau | .index _ | .signal | .account => qs

def unread (ls : List Label) : List CInt := ls.foldl Label.unread []

@[simp] theorem unread_append (ls : List Label) (l : Label) : unread (ls ++ [l]) = l.unread (unread ls) := by
  simp [unread]

/-- The notifications between two reads of the index word are of one queue. -/
def Uniform (ls : List Label) : Prop := ∀ l₁ q l₂, ls = l₁ ++ .notify q :: l₂ → ∀ q' ∈ unread l₁, q' = q

theorem Uniform.of_append {ls : List Label} {l : Label} (h : Uniform (ls ++ [l])) : Uniform ls :=
  fun l₁ q l₂ hls => h l₁ q (l₂ ++ [l]) (by simp [hls])

def Written {ι : Type*} (c : Device ι) (l : Label) : Prop :=
  ∀ q, l = .process q → ∀ i q' cur, c.notifier i ≠ .index q' cur

/-- What the index word says of the queues that were notified. -/
structure Indexed {ι : Type*} (ls : List Label) (c : Device ι) : Prop where
  one : ∀ q ∈ unread ls, ∀ q' ∈ unread ls, q = q'
  index : ∀ i q cur, c.notifier i = .index q cur → q ∈ unread ls
  qidx : (∀ i q cur, c.notifier i ≠ .index q cur) → ∀ q ∈ unread ls, c.qidx = q
  notify : ∀ l₁ q l₂, ls = l₁ ++ .notify q :: l₂ → .process q ∈ l₂ ∨ q ∈ unread ls ∧ ∀ q', .process q' ∉ l₂
  account : ∀ l₁ l₂, ls = l₁ ++ .account :: l₂ → c.device = .process ∨ ∃ q, .process q ∈ l₂

theorem Device.Init.indexed {ι : Type*} {c : Device ι} (h : c.Init) : Indexed [] c where
  one := by simp [unread]
  index := by simp [h.notifier]
  qidx := by simp [unread]
  notify := by simp
  account := by simp

section

variable {ι : Type*} {ls : List Label} {c c' : Device ι} {l : Label}

namespace Indexed

variable (h : Indexed ls c)

include h

theorem quiet (hunread : unread (ls ++ [l]) = unread ls) (hprocess : ∀ q, l ≠ .process q)
    (hindex : ∀ i q cur, c'.notifier i = .index q cur → c.notifier i = .index q cur)
    (hqidx : (∀ i q cur, c'.notifier i ≠ .index q cur) → ∀ q ∈ unread ls, c'.qidx = q)
    (hdevice : l = .account ∨ c.device = .process → c'.device = .process) : Indexed (ls ++ [l]) c' where
  one := by rw [hunread]; exact h.one
  index i q cur hi := by rw [hunread]; exact h.index i q cur (hindex i q cur hi)
  qidx hno := by rw [hunread]; exact hqidx hno
  notify l₁ q l₂ hls := by
    rw [hunread]
    rcases append_singleton_eq hls with ⟨-, rfl, -⟩ | ⟨l₃, hls₃, rfl⟩
    · have hlen := congrArg length hunread
      simp [Label.unread] at hlen
    · rcases h.notify l₁ q l₃ hls₃ with hq | ⟨hq, hno⟩
      · exact .inl (mem_append_left _ hq)
      · refine .inr ⟨hq, fun q' hq' => ?_⟩
        rcases mem_append.mp hq' with hq' | hq'
        · exact hno q' hq'
        · exact hprocess q' (mem_singleton.mp hq').symm
  account l₁ l₂ hls := by
    rcases append_singleton_eq hls with ⟨-, rfl, -⟩ | ⟨l₃, hls₃, rfl⟩
    · exact .inl (hdevice (.inl rfl))
    · exact (h.account l₁ l₃ hls₃).imp (fun hd => hdevice (.inr hd))
        fun ⟨q, hq⟩ => ⟨q, mem_append_left _ hq⟩

theorem device_quiet (hl : l = .tau ∨ l = .account) (hnotifier : c'.notifier = c.notifier) (hqidx : c'.qidx = c.qidx)
    (hdevice : l = .account ∨ c.device = .process → c'.device = .process) : Indexed (ls ++ [l]) c' := by
  refine h.quiet ?_ ?_ (by simp [hnotifier]) (by rw [hnotifier, hqidx]; exact h.qidx) hdevice
  · rcases hl with rfl | rfl <;> simp [Label.unread]
  · rcases hl with rfl | rfl <;> simp

theorem process (hwritten : ∀ i q cur, c.notifier i ≠ .index q cur) (pc : DevicePc) :
    Indexed (ls ++ [.process c.qidx]) { c with device := pc } where
  one := by simp [Label.unread]
  index i q cur hi := absurd hi (hwritten i q cur)
  qidx := by simp [Label.unread]
  notify l₁ q l₂ hls := by
    rcases append_singleton_eq hls with ⟨-, heq, -⟩ | ⟨l₃, hls₃, rfl⟩
    · simp at heq
    · refine .inl (mem_append.mpr ?_)
      exact (h.notify l₁ q l₃ hls₃).imp_right fun ⟨hq, _⟩ => by simp [h.qidx hwritten q hq]
  account l₁ l₂ hls := by
    rcases append_singleton_eq hls with ⟨-, heq, -⟩ | ⟨l₃, hls₃, rfl⟩
    · simp at heq
    · exact .inr ⟨c.qidx, by simp⟩

theorem deviceStep (hstep : c.deviceStep = some (l, c')) (hwritten : Written c l) : Indexed (ls ++ [l]) c' := by
  unfold Device.deviceStep at hstep
  split at hstep <;> rename_i hpc
  case h_1 =>
    split_ifs at hstep <;> cases hstep <;> exact h.device_quiet (by simp) rfl rfl (by simp [hpc])
  case h_4 => cases hstep
  case h_6 =>
    cases hstep
    exact h.process (hwritten _ rfl) .cas
  all_goals
    cases hstep
    exact h.device_quiet (by simp) rfl rfl (by simp [hpc])

variable [DecidableEq ι] {i : ι}

theorem begin_notify {q : CInt} (huniform : Uniform (ls ++ [.notify q])) (evt cur : Word) :
    Indexed (ls ++ [.notify q]) { c with evt, notifier := update c.notifier i (.index q cur) } where
  one := by
    have hq := huniform ls q [] rfl
    rintro q₁ h₁ q₂ h₂
    simp only [unread_append, Label.unread, mem_cons] at h₁ h₂
    rw [h₁.elim id (hq q₁), h₂.elim id (hq q₂)]
  index j q' cur' hj := by
    simp only [unread_append, Label.unread, mem_cons] at hj ⊢
    by_cases hji : j = i
    · subst hji
      rw [update_self] at hj
      exact .inl (NotifyPc.index.inj hj).1.symm
    · rw [update_of_ne hji] at hj
      exact .inr (h.index j q' cur' hj)
  qidx hno := absurd (update_self ..) (hno i q cur)
  notify l₁ q' l₂ hls := by
    rcases append_singleton_eq hls with ⟨-, heq, rfl⟩ | ⟨l₃, hls₃, rfl⟩
    · cases heq
      exact .inr (by simp [Label.unread])
    · refine (h.notify l₁ q' l₃ hls₃).imp (mem_append_left _) fun ⟨hq, hno⟩ => ⟨?_, ?_⟩
      · simp [Label.unread, hq]
      · simpa using hno
  account l₁ l₂ hls := by
    rcases append_singleton_eq hls with ⟨-, heq, -⟩ | ⟨l₃, hls₃, rfl⟩
    · simp at heq
    · exact (h.account l₁ l₃ hls₃).imp_right fun ⟨q, hq⟩ => ⟨q, mem_append_left _ hq⟩

theorem notifyStep (hstep : c.notifyStep i = some (l, c')) : Indexed (ls ++ [l]) c' := by
  have hnot : ∀ {pc : NotifyPc}, (∀ q cur, pc ≠ .index q cur) → ∀ j q cur,
      update c.notifier i pc j = .index q cur → c.notifier j = .index q cur := by
    intro pc hpc j q cur hj
    by_cases hji : j = i
    · subst hji
      rw [update_self] at hj
      exact absurd hj (hpc q cur)
    · rwa [update_of_ne hji] at hj
  unfold Device.notifyStep at hstep
  dsimp only at hstep
  split at hstep <;> rename_i hpc <;> cases hstep
  case h_2.refl qidx cur =>
    refine h.quiet (by simp [Label.unread]) (by simp) (hnot (by split_ifs <;> simp)) (fun _ q hq => ?_) (by simp)
    exact h.one _ (h.index i qidx cur hpc) _ hq
  case h_3.refl =>
    refine h.quiet (by simp [Label.unread]) (by simp) (hnot (by simp)) (fun hno => h.qidx ?_) ?_
    · intro j q cur hj
      refine hno j q cur ((update_of_ne ?_ _ _).trans hj)
      rintro rfl
      simp [hpc] at hj
    · simp +contextual

theorem step {a : Act ι} (hstep : Device.step a c = some (l, c')) (hwritten : Written c l)
    (huniform : Uniform (ls ++ [l])) : Indexed (ls ++ [l]) c' := by
  cases a with
  | notify i qidx =>
    simp only [Device.step] at hstep
    split_ifs at hstep
    cases hstep
    exact h.begin_notify huniform _ _
  | notifier i => exact h.notifyStep hstep
  | device => exact h.deviceStep hstep hwritten
  | fail =>
    simp only [Device.step] at hstep
    split_ifs at hstep with hpc
    cases hstep
    exact h.device_quiet (by simp) rfl rfl (by simp)
  | spurious =>
    simp only [Device.step] at hstep
    split_ifs at hstep with hpc
    cases hstep
    exact h.device_quiet (by simp) rfl rfl (by simp [hpc])

end Indexed

end

/-- **Every notified queue is processed.** If the notifications between two reads of the index word are of one queue,
and none of them is between its two words when the index is read: a queue whose notification is accounted for has been
processed behind it, or is just about to be. -/
theorem queue_processed {ι : Type*} [DecidableEq ι] {c₀ c : Device ι} {ls l₁ l₂ : List Label} {q : CInt}
    (h₀ : c₀.Init) (hr : Run (Guarded (Chosen Device.step) Written) c₀ ls c) (huniform : Uniform ls)
    (hls : ls = l₁ ++ .notify q :: l₂) (haccount : .account ∈ l₂) (hdevice : c.device ≠ .process) :
    .process q ∈ l₂ := by
  have h : Indexed ls c := by
    refine hr.history (I := fun ls c => Uniform ls → Indexed ls c) ?_ (fun _ => h₀.indexed) huniform
    rintro ls c l c' ih ⟨hwritten, a, hstep⟩ huniform
    exact (ih huniform.of_append).step hstep hwritten huniform
  obtain ⟨l₃, l₄, rfl⟩ := append_of_mem haccount
  obtain ⟨q', hq'⟩ := (h.account (l₁ ++ .notify q :: l₃) l₄ (by simp [hls])).resolve_left hdevice
  rcases h.notify l₁ q _ hls with hq | ⟨-, hno⟩
  · exact hq
  · exact absurd (mem_append_right _ (mem_cons_of_mem _ hq')) (hno q')

/-- One notification, which the device thread finds. -/
theorem queue_processed_idle :
    ∃ l₂ c, Run (Guarded (Chosen Device.step) Written) Device.idle (.notify 0 :: l₂) c ∧ .process 0 ∈ l₂ := by
  obtain ⟨c, hc, hr⟩ : ∃ c : Device Unit, c.device ≠ .process ∧ Run (Guarded (Chosen Device.step) Written) Device.idle
      [.notify 0, .index 0, .account, .process 0] c := by
    refine ⟨_, ?_, .cons ⟨?_, .notify () 0, rfl⟩ (.cons ⟨?_, .notifier (), rfl⟩
      (.cons ⟨?_, .device, rfl⟩ (.cons ⟨?_, .device, rfl⟩ (.nil _))))⟩
    · decide
    all_goals simp [Written, Device.idle]
  have hls : [Label.notify 0, .index 0, .account, .process 0] =
    [] ++ .notify 0 :: [.index 0, .account, .process 0] := rfl
  refine ⟨_, c, hr, queue_processed Device.idle_init hr ?_ hls (by decide) hc⟩
  rintro (_ | ⟨l, l₁⟩) q l₂ hls
  · simp [unread]
  · have htail : [Label.index 0, .account, .process 0] = l₁ ++ .notify q :: l₂ := (cons.inj hls).2
    have hmem : Label.notify q ∈ [Label.index 0, .account, .process 0] := htail ▸ mem_append_cons_self
    simp at hmem

/-- Queue `0` and queue `1` are notified, and then the device thread looks: it processes queue `1` and waits. -/
theorem queue_missed : ∃ ls l₂ c, Run (Chosen Device.step) Device.idle ls c ∧ ls = .notify 0 :: l₂ ∧ .account ∈ l₂ ∧
      c.device = .blocked ∧ .process 0 ∉ l₂ := by
  have hexec : (execute Device.step [.notify () 0, .notifier (), .notify () 1, .notifier (), .device, .device,
      .device, .device, .device] Device.idle).map (fun x => decide (x.1.head? = some (.notify 0) ∧
        .account ∈ x.1.tail ∧ x.2.device = .blocked ∧ .process 0 ∉ x.1.tail)) = some true := by
    decide +kernel
  obtain ⟨⟨ls, c⟩, hexec, hcond⟩ := Option.map_eq_some_iff.mp hexec
  obtain ⟨hhead, haccount, hblocked, hprocess⟩ := of_decide_eq_true hcond
  exact ⟨ls, ls.tail, c, run_of_execute hexec, (eq_cons_of_mem_head? hhead), haccount, hblocked, hprocess⟩

end SgxLkl.DeviceThread
