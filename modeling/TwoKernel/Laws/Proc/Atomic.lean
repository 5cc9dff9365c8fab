import TwoKernel.Laws.Proc.Core
import TwoKernel.Proc.Queued

/-!
# A call under the lock is its body

`lock_scheduler` masks interrupts and raises two counters, `schedule()` in
between only sets a flag, and the last `unlock_scheduler` serves it. Over lists
that whole protocol disappears: entered unlocked, each call equals its body
followed by at most one switch, with the lock members as they were and
interrupts on (`yield_eq`, `sleep_eq`, `block_eq`, `unblock_eq`, `pitTick_eq`).

The step is always the same. The body commutes with writing the lock members,
so they can be carried to the front, where they are four known values.
-/

namespace TwoKernel

variable {P Q F : Type} [DecidableEq P] [DecidableEq Q]

namespace Core.Lock

/-- The lock members after `lock_scheduler`. -/
def enter (k : Lock) : Lock :=
  ⟨k.disableCounter + 1, k.taskSwitchCounter + 1, k.taskSwitchPostponed, false⟩

/-- The lock members after `unlock_scheduler`, whatever it did in between. -/
def leave (k : Lock) : Lock :=
  ⟨k.disableCounter - 1, k.taskSwitchCounter - 1, k.taskSwitchPostponed,
    if k.disableCounter - 1 = 0 then true else k.interruptFlag⟩

def setPostponed (b : Bool) (k : Lock) : Lock := { k with taskSwitchPostponed := b }

/-- Nobody holds the lock and no switch is owed. -/
def unlocked (i : Bool) : Lock := ⟨0, 0, false, i⟩

/-- A switch asked for under the lock is made by its unlock. -/
theorem served (i : Bool) :
    (((unlocked i).enter.setPostponed true).leave).setPostponed false = unlocked true := by
  simp [unlocked, enter, leave, setPostponed]

/-- An unlock undoes a lock, but for the interrupt flag. -/
theorem unlocked_enter_leave (i : Bool) : (unlocked i).enter.leave = unlocked true := by
  simp [unlocked, enter, leave]

theorem nested_enter_leave (i : Bool) :
    (unlocked i).enter.enter.leave = (unlocked i).enter := by
  simp [unlocked, enter, leave]

theorem enter_counter_ne (i : Bool) : (unlocked i).enter.taskSwitchCounter ≠ 0 := by
  simp [unlocked, enter]

end Core.Lock

namespace Queued

open TwoKernel.Core

variable (a : Queued P Q F) (k : Lock) (t next : P)

/-- A list state with its lock members replaced. -/
def withLock (k : Lock) (a : Queued P Q F) : Queued P Q F := a.mapCore (·.withLock k)

section

omit [DecidableEq P] [DecidableEq Q]

theorem withLock_lock : a.withLock a.toCore.lock = a := rfl

@[simp] theorem cur_withLock : (a.withLock k).cur = a.cur := rfl

end

omit [DecidableEq Q] in
@[simp] theorem addReadyThreads_withLock :
    (a.withLock k).addReadyThreads t = (a.addReadyThreads t).withLock k := by
  unfold addReadyThreads
  by_cases hq : a.timeQuantumPast = true
  · rw [if_pos hq]
    exact if_pos hq
  · rw [if_neg hq]
    exact if_neg hq

@[simp] theorem switchTask_withLock :
    (a.withLock k).switchTask next = (a.switchTask next).withLock k := by
  by_cases hrun : (a.thread a.cur).state = .running ∧ a.cur ≠ a.idleThread
  · have hrun' : ((a.withLock k).thread (a.withLock k).cur).state = .running ∧
        (a.withLock k).cur ≠ (a.withLock k).idleThread := hrun
    simp only [switchTask, if_pos hrun, if_pos hrun', addReadyThreads_withLock]
    exact congrArg (fun c => Queued.mk c (a.addReadyThreads a.cur).waiting
      (a.addReadyThreads a.cur).ready)
      (dispatch_withLock (Core.setState next .running (a.addReadyThreads a.cur).toCore) a.cur next k)
  · have hrun' : ¬ (((a.withLock k).thread (a.withLock k).cur).state = .running ∧
        (a.withLock k).cur ≠ (a.withLock k).idleThread) := hrun
    simp only [switchTask, if_neg hrun, if_neg hrun']
    exact congrArg (fun c => Queued.mk c a.waiting a.ready) (dispatch_withLock a.toCore a.cur next k)

/-- The switch does not look at the lock. -/
@[simp] theorem switchNow_withLock : (a.withLock k).switchNow = a.switchNow.withLock k := by
  cases hrd : a.ready with
  | nil =>
    have hrd' : (a.withLock k).ready = [] := hrd
    simp only [switchNow, hrd, hrd']
    exact switchTask_withLock a k a.idleThread
  | cons next rest =>
    have hrd' : (a.withLock k).ready = next :: rest := hrd
    by_cases hq : a.timeQuantumPast = true
    · have hq' : (a.withLock k).timeQuantumPast = true := hq
      simp only [switchNow, hrd, hrd', if_pos hq, if_pos hq']
      exact switchTask_withLock { a with
        ready := rest, toCore := (a.toCore.payQuantum a.cur).setState next .running } k next
    · have hq' : ¬ (a.withLock k).timeQuantumPast = true := hq
      simp only [switchNow, hrd, hrd', if_neg hq, if_neg hq']
      exact switchTask_withLock { a with
        ready := rest, toCore := a.toCore.setState next .running } k next

/-- Nor does waking. -/
theorem wake_withLock : (a.withLock k).wake t = (a.wake t).withLock k := by
  by_cases hc : a.ready = [] ∧ a.currThread = some a.idleThread
  · have hc' : (a.withLock k).ready = [] ∧
        (a.withLock k).currThread = some (a.withLock k).idleThread := hc
    simp only [wake, if_pos hc, if_pos hc']
    exact switchTask_withLock (a.release t) k t
  · have hc' : ¬ ((a.withLock k).ready = [] ∧
        (a.withLock k).currThread = some (a.withLock k).idleThread) := hc
    simp only [wake, if_neg hc, if_neg hc']
    rfl

/-! ## Lock, request, unlock -/

/-- Under the lock, a request only sets the flag. -/
theorem schedule_withLock (hk : k.taskSwitchCounter ≠ 0) :
    (a.withLock k).schedule = a.withLock (k.setPostponed true) := if_pos hk

/-- An unlock that owes no switch, or is not the last one. -/
theorem unlock_idle (hk : ¬ (k.taskSwitchCounter - 1 = 0 ∧ k.taskSwitchPostponed = true)) :
    (a.withLock k).unlockScheduler = a.withLock k.leave := by
  have hk' : ¬ (((a.withLock k).mapCore (·.leaveSwitch)).taskSwitchCounter = 0 ∧
      ((a.withLock k).mapCore (·.leaveSwitch)).taskSwitchPostponed = true) := hk
  simp only [unlockScheduler, if_neg hk']
  rfl

/-- The last unlock, when a switch is owed. -/
theorem unlock_switch (hk : k.taskSwitchCounter - 1 = 0 ∧ k.taskSwitchPostponed = true) :
    (a.withLock k).unlockScheduler =
      a.switchNow.withLock (k.leave.setPostponed false) := by
  have hk' : ((a.withLock k).mapCore (·.leaveSwitch)).taskSwitchCounter = 0 ∧
      ((a.withLock k).mapCore (·.leaveSwitch)).taskSwitchPostponed = true := hk
  simp only [unlockScheduler, if_pos hk']
  have hmid : ((a.withLock k).mapCore (·.leaveSwitch)).mapCore (·.setPostponed false) =
      a.withLock ⟨k.disableCounter, k.taskSwitchCounter - 1, false, k.interruptFlag⟩ := rfl
  have hgo : (a.withLock ⟨k.disableCounter, k.taskSwitchCounter - 1, false,
      k.interruptFlag⟩).schedule =
      (a.withLock ⟨k.disableCounter, k.taskSwitchCounter - 1, false, k.interruptFlag⟩).switchNow :=
    if_neg (show ¬ k.taskSwitchCounter - 1 ≠ 0 from not_not_intro hk.1)
  rw [hmid, hgo, switchNow_withLock]
  rfl

/-- The whole protocol around a body that asks for a switch, entered with no lock on switches: one
switch. -/
theorem request_unlocked (hk : k.taskSwitchCounter = 0) :
    ((a.withLock k.enter).schedule).unlockScheduler =
      a.switchNow.withLock ((k.enter.setPostponed true).leave.setPostponed false) := by
  have hone : k.enter.taskSwitchCounter = 1 := by
    simp only [Lock.enter, hk]
    rfl
  rw [schedule_withLock _ _ (by rw [hone]; decide)]
  apply unlock_switch
  simp only [Lock.setPostponed, hone]
  exact ⟨rfl, trivial⟩

/-- From the unlocked state the lock comes back as it was, with interrupts on. -/
theorem request_eq (i : Bool) :
    ((a.withLock (Lock.unlocked i).enter).schedule).unlockScheduler =
      a.switchNow.withLock (Lock.unlocked true) := by
  rw [request_unlocked a (Lock.unlocked i) rfl, Lock.served]

variable {a}

/-- `yield` is its body, with the lock left out. -/
theorem yield_eq {i : Bool} (h : a.toCore.lock = .unlocked i) :
    a.yield = a.yieldNow.withLock (.unlocked true) := by
  refine Eq.trans ?_ (request_eq ((a.mapCore (·.markReady a.cur)).pushReady a.cur) i)
  rw [← h]
  rfl

/-- `sleep` is its body. -/
theorem sleep_eq {i : Bool} (milli : Word) (h : a.toCore.lock = .unlocked i) :
    a.sleep milli = (a.sleepNow milli).withLock (.unlocked true) := by
  refine Eq.trans ?_ (request_eq ((a.mapCore (·.markSleep a.cur milli)).pushWaiting a.cur) i)
  rw [← h]
  rfl

/-- `block` is its body. -/
theorem block_eq {i : Bool} (h : a.toCore.lock = .unlocked i) :
    a.block = a.blockNow.withLock (.unlocked true) := by
  refine Eq.trans ?_ (request_eq ((a.mapCore (·.setState a.cur .blocked)).pushWaiting a.cur) i)
  rw [← h]
  rfl

/-- `unblock` asks for no switch of its own, so at any depth the lock comes back as it was. -/
theorem unblock_eq (k : Lock) (h : a.toCore.lock = k)
    (hk : k.taskSwitchCounter = 0 → k.taskSwitchPostponed = false) :
    a.unblock t = (a.wake t).withLock k.enter.leave := by
  have hbody : a.unblock t = ((a.withLock k.enter).wake t).unlockScheduler := by
    rw [← h]
    rfl
  rw [hbody, wake_withLock, unlock_idle]
  rintro ⟨hz, hp⟩
  simp only [Lock.enter, BitVec.add_sub_cancel] at hz hp
  rw [hk hz] at hp
  cases hp

/-! ## A tick -/

/-- Under the lock, a sleeper is visited as it is without it. -/
theorem wakeSleeper_withLock (hk : k.taskSwitchCounter ≠ 0) (hd : k.enter.leave = k) :
    (a.withLock k).wakeSleeper t = (a.visit t).withLock k := by
  by_cases hb : (a.thread t).state = .blocked
  · have hb' : ((a.withLock k).thread t).state = .blocked := hb
    simp only [wakeSleeper, visit, if_pos hb, if_pos hb']
  · have hb' : ¬ ((a.withLock k).thread t).state = .blocked := hb
    have hcount : (a.withLock k).mapCore (·.countDown t) = (a.mapCore (·.countDown t)).withLock k :=
      rfl
    by_cases hz : ((a.mapCore (·.countDown t)).thread t).sleepTime = 0
    · have hz' : (((a.withLock k).mapCore (·.countDown t)).thread t).sleepTime = 0 := hz
      simp only [wakeSleeper, visit, if_neg hb, if_neg hb', if_pos hz, if_pos hz']
      rw [hcount, unblock_eq t k rfl (fun h => absurd h hk), wake_withLock, hd]
      rfl
    · have hz' : ¬ (((a.withLock k).mapCore (·.countDown t)).thread t).sleepTime = 0 := hz
      simp only [wakeSleeper, visit, if_neg hb, if_neg hb', if_neg hz, if_neg hz']
      rfl

/-- Every turn of the walk takes the lock and gives it back. -/
theorem wakeAll_withLock (hk : k.taskSwitchCounter ≠ 0) (hd : k.enter.leave = k) (l : List P) :
    (a.withLock k).wakeAll l = (a.visitAll l).withLock k := by
  induction l generalizing a with
  | nil => rfl
  | cons t l ih =>
    show (((a.withLock k).wakeSleeper t).wakeAll l) = ((a.visit t).visitAll l).withLock k
    rw [wakeSleeper_withLock k t hk hd, ih]

/-- The slice test under a lock taken from the unlocked state, and the unlock after it. -/
theorem checkSlice_unlock (i : Bool) :
    ((a.withLock (Lock.unlocked i).enter).checkSlice).unlockScheduler =
      a.endSlice.withLock (.unlocked true) := by
  have hdelta : (a.withLock (Lock.unlocked i).enter).toCore.delta a.cur = a.toCore.delta a.cur := rfl
  have hthread : (a.withLock (Lock.unlocked i).enter).thread a.cur = a.thread a.cur := rfl
  simp only [checkSlice, endSlice, cur_withLock, hdelta, hthread]
  by_cases hb : (a.thread a.cur).scheduledTime ≤ a.toCore.delta a.cur
  · rw [if_pos hb, if_pos hb, request_eq]
  · rw [if_neg hb, if_neg hb]
    by_cases hq : a.toCore.delta a.cur = defaultTimeQuantum
    · rw [if_pos hq, if_pos hq]
      exact request_eq (a.mapCore (·.setQuantumPast true)) i
    · rw [if_neg hq, if_neg hq, unlock_idle, Lock.unlocked_enter_leave]
      simp [Lock.enter, Lock.unlocked]

/-- **A tick is its body**, with the lock left out. -/
theorem pitTick_eq {i : Bool} (frame : F) (h : a.toCore.lock = .unlocked i) :
    a.pitTick frame = (a.tickNow frame).withLock (.unlocked true) := by
  have hbody : a.pitTick frame =
      (((a.charge frame).withLock (Lock.unlocked i).enter).wakeAll
        a.waiting).checkSlice.unlockScheduler := by
    rw [← h]
    rfl
  rw [hbody, wakeAll_withLock _ (Lock.enter_counter_ne i) (Lock.nested_enter_leave i),
    checkSlice_unlock]
  rfl

end Queued

end TwoKernel
