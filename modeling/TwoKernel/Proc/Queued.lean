import TwoKernel.Proc.Scheduler

/-!
# The scheduler over lists

What the scheduler is for, with its two pointer queues replaced by the lists
they stand for. `Queued` shares `Core` with the pointer model, so every state a
thread block, a flag or the processor can be in is the same; `hook`, `head` and
`tail` are gone, and with them every way a queue can be malformed.

A current thread always exists here (`cur`). The one branch of the source this
leaves out is the first `add_ready_threads` of a scheduler without a current
thread, which `Schedule(idle)` never is.
-/

namespace TwoKernel

variable {P Q F : Type} [DecidableEq P] [DecidableEq Q]

structure Queued (P Q F : Type) extends Core P Q F where
  waiting : List P
  ready : List P

namespace Queued

/-- The current thread. -/
def cur (a : Queued P Q F) : P := a.currThread.getD a.idleThread

def mapCore (f : Core P Q F → Core P Q F) (a : Queued P Q F) : Queued P Q F :=
  { a with toCore := f a.toCore }

def pushReady (t : P) (a : Queued P Q F) : Queued P Q F := { a with ready := a.ready ++ [t] }

def pushWaiting (t : P) (a : Queued P Q F) : Queued P Q F := { a with waiting := a.waiting ++ [t] }

def addReadyThreads (t : P) (a : Queued P Q F) : Queued P Q F :=
  if a.timeQuantumPast then
    (a.mapCore fun c => (c.setState t .ready).setQuantumPast false).pushReady t
  else
    (a.mapCore (·.markReady t)).pushReady t

def switchTask (next : P) (a : Queued P Q F) : Queued P Q F :=
  let b :=
    if (a.thread a.cur).state = .running ∧ a.cur ≠ a.idleThread then
      (a.addReadyThreads a.cur).mapCore (·.setState next .running)
    else a
  b.mapCore (·.dispatch a.cur next)

/-- The switch decision of `schedule()`, reached when no lock is held. -/
def switchNow (a : Queued P Q F) : Queued P Q F :=
  match a.ready with
  | [] => a.switchTask a.idleThread
  | next :: rest =>
    let b := if a.timeQuantumPast then a.mapCore (·.payQuantum a.cur) else a
    switchTask next { b with ready := rest, toCore := b.toCore.setState next .running }

def schedule (a : Queued P Q F) : Queued P Q F :=
  if a.taskSwitchCounter ≠ 0 then a.mapCore (·.setPostponed true)
  else a.switchNow

def lockScheduler (a : Queued P Q F) : Queued P Q F := a.mapCore (·.lockScheduler)

def unlockScheduler (a : Queued P Q F) : Queued P Q F :=
  let a := a.mapCore (·.leaveSwitch)
  let a :=
    if a.taskSwitchCounter = 0 ∧ a.taskSwitchPostponed = true then
      schedule (a.mapCore (·.setPostponed false))
    else a
  a.mapCore (·.leaveDisable)

def sleep (milli : Word) (a : Queued P Q F) : Queued P Q F :=
  let a := a.lockScheduler
  let b := a.mapCore (·.markSleep a.cur milli)
  (b.pushWaiting a.cur).schedule.unlockScheduler

def yield (a : Queued P Q F) : Queued P Q F :=
  let a := a.lockScheduler
  let b := a.mapCore (·.markReady a.cur)
  (b.pushReady a.cur).schedule.unlockScheduler

def block (a : Queued P Q F) : Queued P Q F :=
  let a := a.lockScheduler
  let b := a.mapCore (·.setState a.cur .blocked)
  (b.pushWaiting a.cur).schedule.unlockScheduler

/-- Take `task` out of the waiting queue, awake. -/
def release (task : P) (a : Queued P Q F) : Queued P Q F :=
  { a with waiting := a.waiting.erase task, toCore := a.toCore.markWoken task }

def unblock (task : P) (a : Queued P Q F) : Queued P Q F :=
  let a := a.lockScheduler.release task
  let a :=
    if a.ready = [] ∧ a.currThread = some a.idleThread then a.switchTask task
    else a.pushReady task
  a.unlockScheduler

def wakeSleeper (t : P) (a : Queued P Q F) : Queued P Q F :=
  if (a.thread t).state = .blocked then a
  else
    let a := a.mapCore (·.countDown t)
    if (a.thread t).sleepTime = 0 then a.unblock t else a

/-- The sleeper loop over the threads `l` still to visit. -/
def wakeAll (l : List P) (a : Queued P Q F) : Queued P Q F := l.foldl (fun a t => a.wakeSleeper t) a

def checkSlice (a : Queued P Q F) : Queued P Q F :=
  let delta := a.toCore.delta a.cur
  if (a.thread a.cur).scheduledTime ≤ delta then a.schedule
  else if delta = defaultTimeQuantum then
    (a.mapCore (·.setQuantumPast true)).schedule
  else a

/-- `increase_tick`, then `pit_irq_handler`; `*frame` is read off the new current thread. -/
def pitTick (frame : F) (a : Queued P Q F) : Queued P Q F :=
  let a := a.mapCore Core.increaseTick
  let a := a.lockScheduler.mapCore (·.saveFrame a.cur frame)
  (a.wakeAll a.waiting).checkSlice.unlockScheduler

/-- What `pit_irq_handler` leaves in `*frame`. -/
def frame (a : Queued P Q F) : F := (a.thread a.cur).registers

/-! ## The same calls without the lock

What each call amounts to when it is entered with the scheduler unlocked: the body, and the switch
at the end if one was asked for. -/

def yieldNow (a : Queued P Q F) : Queued P Q F :=
  ((a.mapCore (·.markReady a.cur)).pushReady a.cur).switchNow

def sleepNow (milli : Word) (a : Queued P Q F) : Queued P Q F :=
  ((a.mapCore (·.markSleep a.cur milli)).pushWaiting a.cur).switchNow

def blockNow (a : Queued P Q F) : Queued P Q F :=
  ((a.mapCore (·.setState a.cur .blocked)).pushWaiting a.cur).switchNow

/-- Wake `task`, and give it the processor if only idle had it. -/
def wake (task : P) (a : Queued P Q F) : Queued P Q F :=
  if a.ready = [] ∧ a.currThread = some a.idleThread then (a.release task).switchTask task
  else (a.release task).pushReady task

/-- One sleeper of the waiting queue, on a tick. -/
def visit (t : P) (a : Queued P Q F) : Queued P Q F :=
  if (a.thread t).state = .blocked then a
  else if ((a.mapCore (·.countDown t)).thread t).sleepTime = 0 then
    (a.mapCore (·.countDown t)).wake t
  else a.mapCore (·.countDown t)

def visitAll (l : List P) (a : Queued P Q F) : Queued P Q F := l.foldl (fun a t => a.visit t) a

/-- The slice test and the switch it leads to. -/
def endSlice (a : Queued P Q F) : Queued P Q F :=
  let delta := a.toCore.delta a.cur
  if (a.thread a.cur).scheduledTime ≤ delta then a.switchNow
  else if delta = defaultTimeQuantum then (a.mapCore (·.setQuantumPast true)).switchNow
  else a

/-- A tick up to the sleeper loop: the clock, the saved frame, the millisecond charged. -/
def charge (frame : F) (a : Queued P Q F) : Queued P Q F :=
  a.mapCore fun c => c.increaseTick.saveFrame a.cur frame

def tickNow (frame : F) (a : Queued P Q F) : Queued P Q F :=
  ((a.charge frame).visitAll a.waiting).endSlice

end Queued

end TwoKernel
