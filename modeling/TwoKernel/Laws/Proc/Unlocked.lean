import TwoKernel.Laws.Proc.Atomic
import TwoKernel.Laws.Proc.Scheduler
import TwoKernel.Laws.Std.SingleDeque
import TwoKernel.Proc.Unlocked

/-!
# A call under the lock is its body, over any queues

The protocol of the lock disappears from the pointer model as it does from the
list model: entered unlocked, each call is its body and at most one switch
(`yield_eq`, `sleep_eq`, `block_eq`, `unblock_eq`, `pitTick_eq`). Here nothing is
assumed about `hook`, `head` and `tail`, so the equations also hold in the states
that calls out of turn lead to, where a queue is no longer a list.

A call may fault on such queues. The equations are between outcomes: the body
faults exactly where the call does.
-/

namespace TwoKernel.Sched

open TwoKernel.Core

variable {P Q F : Type} [DecidableEq P] [DecidableEq Q]
variable (s : Sched P Q F) (k : Lock) (t next : P)

/-- A state with its lock members replaced. -/
def withLock (k : Lock) (s : Sched P Q F) : Sched P Q F := s.mapCore (·.withLock k)

omit [DecidableEq P] [DecidableEq Q] in
theorem withLock_lock : s.withLock s.toCore.lock = s := rfl

omit [DecidableEq Q] in
/-- With a current thread, a thread is queued at the tail, and is Running no more. -/
theorem addReadyThreads_of_current {s : Sched P Q F} {cur : P} (h : s.currThread = some cur) (t : P) :
    s.addReadyThreads t =
      if s.timeQuantumPast then
        (s.mapCore fun c => (c.setState t .ready).setQuantumPast false).pushReady t
      else (s.mapCore (·.markReady t)).pushReady t := by
  apply if_neg
  rw [h, Option.isNone_some, Bool.and_false]
  exact Bool.false_ne_true

/-! ## Nothing but the lock reads the lock -/

omit [DecidableEq Q] in
theorem removeWaiting_withLock (fuel : Nat) :
    (s.withLock k).removeWaiting fuel t = withLock k <$> s.removeWaiting fuel t := by
  show (s.waitingQueue.remove fuel s.hook (some t) >>= _) = _
  unfold removeWaiting
  cases s.waitingQueue.remove fuel s.hook (some t) <;> rfl

omit [DecidableEq Q] in
theorem addReadyThreads_withLock :
    (s.withLock k).addReadyThreads t = (s.addReadyThreads t).withLock k := by
  unfold addReadyThreads
  by_cases hfirst : (s.readyThreads.empty && s.currThread.isNone) = true
  · rw [if_pos hfirst]
    exact if_pos hfirst
  · rw [if_neg hfirst]
    refine (if_neg hfirst).trans ?_
    by_cases hq : s.timeQuantumPast = true
    · rw [if_pos hq]
      exact if_pos hq
    · rw [if_neg hq]
      exact if_neg hq

private theorem switchTask_withLock :
    (s.withLock k).switchTask next = withLock k <$> s.switchTask next := by
  unfold switchTask
  show (deref s.currThread >>= _) = _
  cases s.currThread with
  | none => rfl
  | some cur =>
    simp only [deref_some, ok_bind]
    by_cases hrun : (s.thread cur).state = .running ∧ cur ≠ s.idleThread
    · have hrun' : ((s.withLock k).thread cur).state = .running ∧
          cur ≠ (s.withLock k).idleThread := hrun
      rw [if_pos hrun, if_pos hrun', addReadyThreads_withLock]
      have hd := dispatch_withLock (Core.setState next .running (s.addReadyThreads cur).toCore)
        cur next k
      exact congrArg (fun c => Except.ok { s.addReadyThreads cur with toCore := c }) hd
    · have hrun' : ¬ (((s.withLock k).thread cur).state = .running ∧
          cur ≠ (s.withLock k).idleThread) := hrun
      rw [if_neg hrun, if_neg hrun']
      exact congrArg (fun c => Except.ok { s with toCore := c })
        (dispatch_withLock s.toCore cur next k)

private theorem switchHead_withLock : (s.withLock k).switchHead = withLock k <$> s.switchHead := by
  unfold switchHead
  show (deref (s.readyThreads.popHead s.hook).1 >>= _) =
    withLock k <$> (deref (s.readyThreads.popHead s.hook).1 >>= _)
  cases (s.readyThreads.popHead s.hook).1 with
  | none => rfl
  | some next =>
    exact switchTask_withLock { s with
      readyThreads := (s.readyThreads.popHead s.hook).2
      toCore := s.toCore.setState next .running } k next

private theorem switchNow_withLock : (s.withLock k).switchNow = withLock k <$> s.switchNow := by
  by_cases he : s.readyThreads.empty = true
  · have he' : (s.withLock k).readyThreads.empty = true := he
    rw [switchNow_empty he, switchNow_empty he']
    exact switchTask_withLock s k s.idleThread
  · have he' : ¬ (s.withLock k).readyThreads.empty = true := he
    by_cases hq : s.timeQuantumPast = true
    · have hq' : (s.withLock k).timeQuantumPast = true := hq
      rw [switchNow_past he hq, switchNow_past he' hq']
      show (deref s.currThread >>= _) = _
      cases s.currThread with
      | none => rfl
      | some cur => exact switchHead_withLock (s.mapCore (·.payQuantum cur)) k
    · have hq' : ¬ (s.withLock k).timeQuantumPast = true := hq
      rw [switchNow_within he hq, switchNow_within he' hq']
      exact switchHead_withLock s k

private theorem wake_withLock (fuel : Nat) :
    (s.withLock k).wake fuel t = withLock k <$> s.wake fuel t := by
  unfold wake
  rw [removeWaiting_withLock]
  cases s.removeWaiting fuel t with
  | error e => rfl
  | ok s₁ =>
    show (if _ then _ else _) = withLock k <$> (if _ then _ else _)
    by_cases hc : s₁.readyThreads.empty ∧ s₁.currThread = some s₁.idleThread
    · have hc' : (s₁.mapCore (·.markWoken t)).readyThreads.empty ∧
          (s₁.mapCore (·.markWoken t)).currThread =
            some (s₁.mapCore (·.markWoken t)).idleThread := hc
      rw [if_pos hc']
      exact (if_pos hc').trans (switchTask_withLock (s₁.mapCore (·.markWoken t)) k t)
    · have hc' : ¬ ((s₁.mapCore (·.markWoken t)).readyThreads.empty ∧
          (s₁.mapCore (·.markWoken t)).currThread =
            some (s₁.mapCore (·.markWoken t)).idleThread) := hc
      rw [if_neg hc']
      exact if_neg hc'

/-- `unblock` is its body between a lock and an unlock. -/
theorem unblock_eq_wake (fuel : Nat) :
    s.unblock fuel t = (s.lockScheduler.wake fuel t >>= unlockScheduler) := rfl

variable {s t} in
theorem wake_lock {s' : Sched P Q F} {fuel : Nat} (h : s.wake fuel t = .ok s') :
    s'.toCore.lock = s.toCore.lock := by
  have hlock := wake_withLock s s.toCore.lock t fuel
  rw [withLock_lock, h] at hlock
  rw [Except.ok.inj hlock]
  rfl

variable {s} in
theorem switchNow_lock {s' : Sched P Q F} (h : s.switchNow = .ok s') :
    s'.toCore.lock = s.toCore.lock := by
  have hlock := switchNow_withLock s s.toCore.lock
  rw [withLock_lock, h] at hlock
  rw [Except.ok.inj hlock]
  rfl

/-! ## Lock, request, unlock -/

/-- Under the lock, a request only sets the flag. -/
theorem schedule_withLock (hk : k.taskSwitchCounter ≠ 0) :
    (s.withLock k).schedule = .ok (s.withLock (k.setPostponed true)) := if_pos hk

/-- An unlock that owes no switch, or is not the last one. -/
theorem unlock_idle (hk : ¬ (k.taskSwitchCounter - 1 = 0 ∧ k.taskSwitchPostponed = true)) :
    (s.withLock k).unlockScheduler = .ok (s.withLock k.leave) := by
  have hquiet : ¬ (s.withLock k).Owes := hk
  exact unlockScheduler_quiet hquiet

/-- The last unlock, when a switch is owed. -/
theorem unlock_switch (hk : k.taskSwitchCounter - 1 = 0 ∧ k.taskSwitchPostponed = true) :
    (s.withLock k).unlockScheduler =
      withLock (k.leave.setPostponed false) <$> s.switchNow := by
  have howed : (s.withLock k).Owes := hk
  have hgo : (s.withLock ⟨k.disableCounter, k.taskSwitchCounter - 1, false,
      k.interruptFlag⟩).schedule =
      (s.withLock ⟨k.disableCounter, k.taskSwitchCounter - 1, false, k.interruptFlag⟩).switchNow :=
    schedule_unlocked hk.1
  rw [unlockScheduler_owed howed]
  show (schedule (s.withLock ⟨k.disableCounter, k.taskSwitchCounter - 1, false,
    k.interruptFlag⟩) >>= _) = _
  rw [hgo, switchNow_withLock]
  cases s.switchNow <;> rfl

/-- The whole protocol around a body that asks for a switch: one switch, and the lock as it was,
with interrupts on. -/
theorem request_eq (i : Bool) :
    ((s.withLock (Lock.unlocked i).enter).schedule >>= unlockScheduler) =
      withLock (.unlocked true) <$> s.switchNow := by
  rw [schedule_withLock _ _ (Lock.enter_counter_ne i), ok_bind, unlock_switch, Lock.served]
  exact ⟨by simp [Lock.enter, Lock.unlocked, Lock.setPostponed], rfl⟩

variable {s}

/-- The three calls of the running thread: write its block, queue it, ask for a switch. -/
theorem call_eq {i : Bool} (h : s.toCore.lock = .unlocked i) (body : P → Sched P Q F → Sched P Q F)
    (hbody : ∀ cur k, body cur (s.withLock k) = (body cur s).withLock k) :
    s.request body = withLock (.unlocked true) <$> (do
      let cur ← deref s.currThread
      (body cur s).switchNow) := by
  have hl : s.lockScheduler = s.withLock (Lock.unlocked i).enter := by
    rw [← h]
    rfl
  show (deref s.lockScheduler.currThread >>= fun cur =>
    (body cur s.lockScheduler).schedule >>= unlockScheduler) = _
  rw [hl]
  show (deref s.currThread >>= _) = _
  cases s.currThread with
  | none => rfl
  | some cur =>
    simp only [deref_some, ok_bind, hbody]
    exact request_eq (body cur s) i

/-- `yield` is its body, with the lock left out. -/
theorem yield_eq {i : Bool} (h : s.toCore.lock = .unlocked i) :
    s.yield = withLock (.unlocked true) <$> s.yieldNow :=
  call_eq h (fun cur s => (s.mapCore (·.markReady cur)).pushReady cur) fun _ _ => rfl

theorem sleep_eq {i : Bool} (milli : Word) (h : s.toCore.lock = .unlocked i) :
    s.sleep milli = withLock (.unlocked true) <$> s.sleepNow milli :=
  call_eq h (fun cur s => (s.mapCore (·.markSleep cur milli)).pushWaiting cur) fun _ _ => rfl

theorem block_eq {i : Bool} (h : s.toCore.lock = .unlocked i) :
    s.block = withLock (.unlocked true) <$> s.blockNow :=
  call_eq h (fun cur s => (s.mapCore (·.setState cur .blocked)).pushWaiting cur) fun _ _ => rfl

/-- `unblock` asks for no switch of its own, so at any depth the lock comes back as it was. -/
theorem unblock_withLock (fuel : Nat)
    (hk : k.taskSwitchCounter = 0 → k.taskSwitchPostponed = false) :
    (s.withLock k).unblock fuel t = withLock k.enter.leave <$> s.wake fuel t := by
  have hidle : ¬ (k.enter.taskSwitchCounter - 1 = 0 ∧ k.enter.taskSwitchPostponed = true) := by
    intro hz
    simp only [Lock.enter, BitVec.add_sub_cancel] at hz
    rw [hk hz.1] at hz
    cases hz.2
  rw [unblock_eq_wake, show (s.withLock k).lockScheduler = s.withLock k.enter from rfl,
    wake_withLock]
  cases s.wake fuel t with
  | error e => rfl
  | ok s₁ => exact unlock_idle s₁ k.enter hidle

/-- If a switch is owed although nobody holds the lock, the unlock of `unblock` makes it. -/
theorem unblock_owed (fuel : Nat)
    (hk : k.taskSwitchCounter = 0 ∧ k.taskSwitchPostponed = true) :
    (s.withLock k).unblock fuel t =
      withLock (k.enter.leave.setPostponed false) <$> (s.wake fuel t >>= switchNow) := by
  have hserve : k.enter.taskSwitchCounter - 1 = 0 ∧ k.enter.taskSwitchPostponed = true := by
    simp only [Lock.enter, BitVec.add_sub_cancel]
    exact hk
  rw [unblock_eq_wake, show (s.withLock k).lockScheduler = s.withLock k.enter from rfl,
    wake_withLock]
  cases s.wake fuel t with
  | error e => rfl
  | ok s₁ => exact unlock_switch s₁ k.enter hserve

/-- `unblock` is its body. -/
theorem unblock_eq {i : Bool} (fuel : Nat) (h : s.toCore.lock = .unlocked i) :
    s.unblock fuel t = withLock (.unlocked true) <$> s.wake fuel t := by
  have := unblock_withLock (s := s) (.unlocked i) t fuel fun _ => rfl
  rwa [Lock.unlocked_enter_leave, ← h, withLock_lock] at this

/-! ## A tick -/

/-- Under the lock, a sleeper is visited as it is without it. -/
theorem wakeSleeper_withLock (fuel : Nat) (hk : k.taskSwitchCounter ≠ 0) (hd : k.enter.leave = k) :
    (s.withLock k).wakeSleeper fuel t = withLock k <$> s.visit fuel t := by
  unfold visit
  by_cases hb : (s.thread t).state = .blocked
  · rw [if_pos hb]
    exact wakeSleeper_blocked (s := s.withLock k) hb
  · rw [if_neg hb]
    by_cases hz : ((s.mapCore (·.countDown t)).thread t).sleepTime = 0
    · rw [if_pos hz]
      refine (wakeSleeper_due (s := s.withLock k) hb hz).trans ?_
      have := unblock_withLock (s := s.mapCore (·.countDown t)) k t fuel fun h => absurd h hk
      rwa [hd] at this
    · rw [if_neg hz]
      exact wakeSleeper_asleep (s := s.withLock k) hb hz

theorem iterate_withLock (fuel : Nat) (hk : k.taskSwitchCounter ≠ 0) (hd : k.enter.leave = k) :
    (s.withLock k).waitingQueue.iterate Sched.hook (wakeSleeper fuel) fuel (s.withLock k) =
      withLock k <$> s.visitAll fuel :=
  SingleDeque.forEach_map (fun _ => rfl)
    (fun p s => wakeSleeper_withLock (s := s) k p fuel hk hd) fuel _ _ s

variable (s) in
/-- The slice test under a lock taken from the unlocked state, and the unlock after it. -/
theorem checkSlice_unlock (i : Bool) :
    ((s.withLock (Lock.unlocked i).enter).checkSlice >>= unlockScheduler) =
      withLock (.unlocked true) <$> s.endSlice := by
  unfold endSlice
  cases hcur : s.currThread with
  | none =>
    show ((deref s.currThread >>= _) >>= _) = _
    rw [hcur]
    rfl
  | some cur =>
    have hcur' : (s.withLock (Lock.unlocked i).enter).currThread = some cur := hcur
    rw [checkSlice_eq hcur', deref_some, ok_bind]
    -- the lock is in neither of the two tests
    show ((if (s.thread cur).scheduledTime ≤ s.toCore.delta cur then _
        else if s.toCore.delta cur = defaultTimeQuantum then _ else _) >>= unlockScheduler) = _
    by_cases hb : (s.thread cur).scheduledTime ≤ s.toCore.delta cur
    · rw [if_pos hb, if_pos hb, request_eq]
    · rw [if_neg hb, if_neg hb]
      by_cases hq : s.toCore.delta cur = defaultTimeQuantum
      · rw [if_pos hq, if_pos hq]
        exact request_eq (s.mapCore (·.setQuantumPast true)) i
      · rw [if_neg hq, if_neg hq, ok_bind, unlock_idle, Lock.unlocked_enter_leave]
        · rfl
        · simp [Lock.enter, Lock.unlocked]

/-- A tick that finds a current thread is its body, and `*frame` is read off the new one. -/
theorem pitTick_eq {i : Bool} {cur : P} (fuel : Nat) (frame : F) (h : s.toCore.lock = .unlocked i)
    (hcur : s.currThread = some cur) :
    s.pitTick fuel frame = (do
      let s' ← s.tickNow fuel cur frame
      let now ← deref s'.currThread
      return ((s'.thread now).registers, s'.withLock (.unlocked true))) := by
  have hbody : s.pitTick fuel frame = (do
      let s₁ ← ((s.charge cur frame).withLock (Lock.unlocked i).enter).waitingQueue.iterate
        Sched.hook (wakeSleeper fuel) fuel
        ((s.charge cur frame).withLock (Lock.unlocked i).enter)
      let s₂ ← s₁.checkSlice
      let s₃ ← s₂.unlockScheduler
      let now ← deref s₃.currThread
      return ((s₃.thread now).registers, s₃)) := by
    have htick : (s.mapCore Core.increaseTick).currThread = some cur := hcur
    rw [← h]
    exact pitIrqHandler_eq frame htick
  rw [hbody, iterate_withLock _ fuel (Lock.enter_counter_ne i) (Lock.nested_enter_leave i)]
  unfold tickNow
  cases (s.charge cur frame).visitAll fuel with
  | error e => rfl
  | ok s₁ =>
    show ((s₁.withLock _).checkSlice >>= fun s₂ => s₂.unlockScheduler >>= _) = (s₁.endSlice >>= _)
    rw [← bind_assoc, checkSlice_unlock]
    cases s₁.endSlice <;> rfl

end TwoKernel.Sched
