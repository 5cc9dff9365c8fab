import TwoKernel.Laws.Proc.Core
import TwoKernel.Laws.Std.SingleDeque
import TwoKernel.Proc.Scheduler

/-!
# The ways through the scheduler

What it means that a call has returned, one lemma for each call: over any host first, as the
branches do not depend on where the state is kept, and then in the words of `Sched`. A
quantum that has passed is paid before the first ready thread is popped, so every way
through `schedule()` ends in one `switch_task`: to idle, or to the head of the queue from
the state with or without the payment (`switchNow_cases`).
-/

namespace TwoKernel

variable {P Q F : Type} [DecidableEq P] [DecidableEq Q]

/-! ## Over any host -/

namespace Host

variable {X : Type} [Host X P Q F] {x y : X} {fuel : Nat} {t : P}

theorem unlockScheduler_cases (h : unlockScheduler x = .ok y) :
    (((sched (map (·.mapCore (·.leaveSwitch)) x)).taskSwitchCounter = 0 ∧
        (sched (map (·.mapCore (·.leaveSwitch)) x)).taskSwitchPostponed = true) ∧
      ∃ w, schedule (map (·.mapCore (·.setPostponed false)) (map (·.mapCore (·.leaveSwitch)) x)) =
          .ok w ∧
        y = note (.irq (sched (map (·.mapCore (·.leaveDisable)) w)).interruptFlag)
          (map (·.mapCore (·.leaveDisable)) w)) ∨
    (¬ ((sched (map (·.mapCore (·.leaveSwitch)) x)).taskSwitchCounter = 0 ∧
        (sched (map (·.mapCore (·.leaveSwitch)) x)).taskSwitchPostponed = true) ∧
      y = note (.irq (sched (map (·.mapCore (·.leaveDisable))
          (map (·.mapCore (·.leaveSwitch)) x))).interruptFlag)
        (map (·.mapCore (·.leaveDisable)) (map (·.mapCore (·.leaveSwitch)) x))) := by
  unfold unlockScheduler at h
  dsimp only at h
  split at h
  · next howed =>
    obtain ⟨w, hw, h⟩ := bind_ok.mp h
    exact .inl ⟨howed, w, hw, (Except.ok.inj h).symm⟩
  · next howed => exact .inr ⟨howed, (Except.ok.inj h).symm⟩

/-- A turn of the walk over the sleepers. -/
theorem wakeSleeper_cases (h : wakeSleeper fuel t x = .ok y) :
    ((sched x).thread t).state = .blocked ∧ y = x ∨
    ¬ ((sched x).thread t).state = .blocked ∧
      (((sched (map (·.mapCore (·.countDown t)) x)).thread t).sleepTime = 0 ∧
          unblock fuel t (map (·.mapCore (·.countDown t)) x) = .ok y ∨
        ¬ ((sched (map (·.mapCore (·.countDown t)) x)).thread t).sleepTime = 0 ∧
          y = map (·.mapCore (·.countDown t)) x) := by
  unfold wakeSleeper at h
  dsimp only at h
  split at h
  · next hb => exact .inl ⟨hb, (Except.ok.inj h).symm⟩
  · next hb =>
    refine .inr ⟨hb, ?_⟩
    split at h
    · next hz => exact .inl ⟨hz, h⟩
    · next hz => exact .inr ⟨hz, (Except.ok.inj h).symm⟩

/-- **A tick that returns** found no current thread, or has gone through the sleepers, the slice test and
the unlock. -/
theorem pitIrqHandler_cases {frame out : F} (h : pitIrqHandler fuel frame x = .ok (out, y)) :
    ((sched x).currThread = none ∧ out = frame ∧ y = x) ∨
    ∃ cur x₁ x₂ now, (sched x).currThread = some cur ∧
      (sched (map (·.mapCore (·.saveFrame cur frame)) (lockScheduler x))).waitingQueue.iterate
        (fun x => (sched x).hook) (wakeSleeper fuel) fuel
        (map (·.mapCore (·.saveFrame cur frame)) (lockScheduler x)) = .ok x₁ ∧
      checkSlice x₁ = .ok x₂ ∧ unlockScheduler x₂ = .ok y ∧
      (sched y).currThread = some now ∧ out = ((sched y).thread now).registers := by
  unfold pitIrqHandler at h
  split at h
  · next hcur =>
    cases h
    exact .inl ⟨hcur, rfl, rfl⟩
  · next cur hcur =>
    obtain ⟨x₁, hloop, h⟩ := bind_ok.mp h
    obtain ⟨x₂, hslice, h⟩ := bind_ok.mp h
    obtain ⟨x₃, hunlock, h⟩ := bind_ok.mp h
    obtain ⟨now, hnow, h⟩ := bind_ok.mp h
    cases h
    exact .inr ⟨cur, x₁, x₂, now, hcur, hloop, hslice, hunlock, deref_ok hnow, rfl⟩

end Host

namespace Sched

variable {s s' : Sched P Q F}

/-! ## `schedule()` -/

/-- Under the lock a switch is postponed. -/
theorem schedule_locked (h : s.taskSwitchCounter ≠ 0) :
    s.schedule = .ok (s.mapCore (·.setPostponed true)) := if_pos h

/-- Without it, it is made at once. -/
theorem schedule_unlocked (h : s.taskSwitchCounter = 0) : s.schedule = s.switchNow :=
  if_neg (not_not_intro h)

theorem switchNow_empty (h : s.readyThreads.empty = true) :
    s.switchNow = s.switchTask s.idleThread := if_pos h

/-- Within its quantum, the current thread pays nothing. -/
theorem switchNow_within (h : ¬ s.readyThreads.empty = true) (hq : ¬ s.timeQuantumPast = true) :
    s.switchNow = s.switchHead :=
  (if_neg h).trans (if_neg hq)

theorem switchNow_past (h : ¬ s.readyThreads.empty = true) (hq : s.timeQuantumPast = true) :
    s.switchNow = (deref s.currThread >>= fun cur => (s.mapCore (·.payQuantum cur)).switchHead) :=
  (if_neg h).trans (if_pos hq)

/-- The head of the queue gets the processor. -/
theorem switchHead_eq {next : P} (h : s.readyThreads.head = some next) :
    s.switchHead = switchTask next { s with
      readyThreads := (s.readyThreads.popHead s.hook).2
      toCore := s.toCore.setState next .running } := by
  unfold switchHead
  dsimp only
  rw [SingleDeque.popHead_fst, h, deref_some, ok_bind]

theorem switchHead_cases (hs : s.switchHead = .ok s') :
    ∃ next, s.readyThreads.head = some next ∧ switchTask next { s with
      readyThreads := (s.readyThreads.popHead s.hook).2
      toCore := s.toCore.setState next .running } = .ok s' := by
  obtain ⟨next, hnext, hs⟩ := bind_ok.mp hs
  exact ⟨next, (SingleDeque.popHead_fst _ _).symm.trans (deref_ok hnext), hs⟩

/-- **The ways through the switch decision.** -/
theorem switchNow_cases (hs : s.switchNow = .ok s') :
    s.readyThreads.empty = true ∧ s.switchTask s.idleThread = .ok s' ∨
    ¬ s.readyThreads.empty = true ∧
      (s.timeQuantumPast = true ∧ (∃ cur, s.currThread = some cur ∧
          (s.mapCore (·.payQuantum cur)).switchHead = .ok s') ∨
        ¬ s.timeQuantumPast = true ∧ s.switchHead = .ok s') := by
  by_cases he : s.readyThreads.empty = true
  · rw [switchNow_empty he] at hs
    exact .inl ⟨he, hs⟩
  · refine .inr ⟨he, ?_⟩
    by_cases hq : s.timeQuantumPast = true
    · rw [switchNow_past he hq] at hs
      obtain ⟨cur, hcur, hs⟩ := bind_ok.mp hs
      exact .inl ⟨hq, cur, deref_ok hcur, hs⟩
    · rw [switchNow_within he hq] at hs
      exact .inr ⟨hq, hs⟩

/-! ## `unlock_scheduler()` -/

/-- The unlock that serves a postponed switch. -/
def Owes (s : Sched P Q F) : Prop :=
  (s.mapCore (·.leaveSwitch)).taskSwitchCounter = 0 ∧
    (s.mapCore (·.leaveSwitch)).taskSwitchPostponed = true

/-- The last unlock makes the switch that is owed. -/
theorem unlockScheduler_owed (h : s.Owes) :
    s.unlockScheduler = (((s.mapCore (·.leaveSwitch)).mapCore (·.setPostponed false)).schedule >>=
      fun s₁ => .ok (s₁.mapCore (·.leaveDisable))) := if_pos h

/-- Any other only counts down. -/
theorem unlockScheduler_quiet (h : ¬ s.Owes) :
    s.unlockScheduler = .ok ((s.mapCore (·.leaveSwitch)).mapCore (·.leaveDisable)) := if_neg h

/-- **The ways through an unlock.** -/
theorem unlockScheduler_cases (hs : s.unlockScheduler = .ok s') :
    (s.Owes ∧ ∃ s₁, ((s.mapCore (·.leaveSwitch)).mapCore (·.setPostponed false)).schedule = .ok s₁ ∧
      s' = s₁.mapCore (·.leaveDisable)) ∨
    (¬ s.Owes ∧ s' = (s.mapCore (·.leaveSwitch)).mapCore (·.leaveDisable)) :=
  Host.unlockScheduler_cases hs

/-! ## The parts of a tick -/

section tick

variable {fuel : Nat} {t cur : P}

theorem wakeSleeper_blocked (hb : (s.thread t).state = .blocked) : s.wakeSleeper fuel t = .ok s :=
  if_pos hb

/-- A sleeper whose time is up. -/
theorem wakeSleeper_due (hb : ¬ (s.thread t).state = .blocked)
    (hz : ((s.mapCore (·.countDown t)).thread t).sleepTime = 0) :
    s.wakeSleeper fuel t = (s.mapCore (·.countDown t)).unblock fuel t :=
  (if_neg hb).trans (if_pos hz)

theorem wakeSleeper_asleep (hb : ¬ (s.thread t).state = .blocked)
    (hz : ¬ ((s.mapCore (·.countDown t)).thread t).sleepTime = 0) :
    s.wakeSleeper fuel t = .ok (s.mapCore (·.countDown t)) :=
  (if_neg hb).trans (if_neg hz)

/-- **The ways through a visit of the sleeper loop.** -/
theorem wakeSleeper_cases (hs : s.wakeSleeper fuel t = .ok s') :
    (s.thread t).state = .blocked ∧ s' = s ∨
    ¬ (s.thread t).state = .blocked ∧
      (((s.mapCore (·.countDown t)).thread t).sleepTime = 0 ∧
          (s.mapCore (·.countDown t)).unblock fuel t = .ok s' ∨
        ¬ ((s.mapCore (·.countDown t)).thread t).sleepTime = 0 ∧
          s' = s.mapCore (·.countDown t)) :=
  Host.wakeSleeper_cases hs

theorem checkSlice_eq (hcur : s.currThread = some cur) :
    s.checkSlice = if (s.thread cur).scheduledTime ≤ s.toCore.delta cur then s.schedule
      else if s.toCore.delta cur = defaultTimeQuantum then
        (s.mapCore (·.setQuantumPast true)).schedule
      else .ok s := by
  show (deref s.currThread >>= _) = _
  rw [hcur, deref_some, ok_bind]
  rfl

/-- A tick that finds a current thread. -/
theorem pitIrqHandler_eq (frame : F) (hcur : s.currThread = some cur) :
    s.pitIrqHandler fuel frame = (do
      let s := s.lockScheduler.mapCore (·.saveFrame cur frame)
      let s ← s.waitingQueue.iterate Sched.hook (wakeSleeper fuel) fuel s
      let s ← s.checkSlice
      let s ← s.unlockScheduler
      let cur ← deref s.currThread
      return ((s.thread cur).registers, s)) := by
  unfold pitIrqHandler Host.pitIrqHandler
  dsimp only [Host.sched]
  rw [hcur]
  rfl

/-- **The ways through a tick.** -/
theorem pitTick_cases {frame out : F} (hs : s.pitTick fuel frame = .ok (out, s')) :
    (s.currThread = none ∧ out = frame ∧ s' = s.mapCore Core.increaseTick) ∨
    ∃ cur s₁ s₂ now, s.currThread = some cur ∧
      s.waitingQueue.iterate Sched.hook (wakeSleeper fuel) fuel
        ((s.mapCore Core.increaseTick).lockScheduler.mapCore (·.saveFrame cur frame)) = .ok s₁ ∧
      s₁.checkSlice = .ok s₂ ∧ s₂.unlockScheduler = .ok s' ∧
      s'.currThread = some now ∧ out = (s'.thread now).registers :=
  Host.pitIrqHandler_cases hs

end tick

end Sched

end TwoKernel
