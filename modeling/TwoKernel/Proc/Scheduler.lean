import TwoKernel.Proc.Thread

/-!
# `x86::Proc::Scheduler::Schedule`

The scheduler of `proc/scheduler.cpp`: `curr_thread`, a ready queue and a
waiting queue over the one `hook` of a thread block, and a lock that postpones
the switch. `schedule()` under the lock only sets `task_switch_postponed`; the
last `unlock_scheduler()` makes the switch.

Every function is the source's, statement by statement. `get_current_thread()`
is `curr_thread`: the guard around it restores the interrupt flag it found.

Two laws of the scheduler are about moments in the middle of a call: what the interrupt
flag is between a lock and its unlock, and what budget a quantum is taken out of. The
calls therefore run over a `Host`, which keeps the state and takes note of such moments:
`lock_scheduler` and `unlock_scheduler` note the interrupt flag they leave, and
`schedule()` notes the budget before it subtracts from it. `Sched` is its own host,
without notes; `Traced` (`Proc.Traced`) keeps them.
-/

namespace TwoKernel

variable {P Q F : Type} [DecidableEq P] [DecidableEq Q]

/-- `struct Schedule`, with the thread heap and the machine it runs on. -/
structure Sched (P Q F : Type) extends Core P Q F where
  hook : Hooks P
  waitingQueue : SingleDeque P
  readyThreads : SingleDeque P

namespace Sched

def mapCore (f : Core P Q F → Core P Q F) (s : Sched P Q F) : Sched P Q F :=
  { s with toCore := f s.toCore }

def pushReady (t : P) (s : Sched P Q F) : Sched P Q F :=
  let r := s.readyThreads.pushTail s.hook t
  { s with hook := r.1, readyThreads := r.2 }

def pushWaiting (t : P) (s : Sched P Q F) : Sched P Q F :=
  let r := s.waitingQueue.pushTail s.hook t
  { s with hook := r.1, waitingQueue := r.2 }

def removeWaiting (fuel : Nat) (t : P) (s : Sched P Q F) : Outcome (Sched P Q F) := do
  let r ← s.waitingQueue.remove fuel s.hook (some t)
  return { s with hook := r.1, waitingQueue := r.2 }

/-- The constructor `Schedule(idle)`, over the globals `s` it finds. -/
def construct (idle : P) (s : Sched P Q F) : Sched P Q F :=
  { hook := s.hook
    waitingQueue := {}
    readyThreads := {}
    toCore :=
      let c : Core P Q F :=
        { s.toCore with
          disableCounter := 0
          taskSwitchCounter := 0
          taskSwitchPostponed := false
          timeQuantumPast := false
          currThread := some idle
          idleThread := idle }
      (((c.setState idle .running).enter idle).loadStack idle).loadCr3 idle }

def addReadyThreads (thread : P) (s : Sched P Q F) : Sched P Q F :=
  if s.readyThreads.empty && s.currThread.isNone then
    -- the very first thread: it is made current and stays linked in the queue
    let r := s.readyThreads.pushHead s.hook thread
    { s with
      hook := r.1
      readyThreads := r.2
      toCore := ((s.toCore.loadStack thread).loadCr3 thread).enter thread }
  else if s.timeQuantumPast then
    (s.mapCore fun c => (c.setState thread .ready).setQuantumPast false).pushReady thread
  else
    (s.mapCore (·.markReady thread)).pushReady thread

def switchTask (next : P) (s : Sched P Q F) : Outcome (Sched P Q F) := do
  let cur ← deref s.currThread
  let s :=
    if (s.thread cur).state = .running ∧ cur ≠ s.idleThread then
      (s.addReadyThreads cur).mapCore (·.setState next .running)
    else s
  return s.mapCore (·.dispatch cur next)

/-- The end of `schedule()`, with a ready thread: the first one is popped and switched to. -/
def switchHead (s : Sched P Q F) : Outcome (Sched P Q F) := do
  let r := s.readyThreads.popHead s.hook
  let next ← deref r.1
  switchTask next { s with readyThreads := r.2, toCore := s.toCore.setState next .running }

/-- The body of `unblock`, between its lock and its unlock. -/
def wake (fuel : Nat) (task : P) (s : Sched P Q F) : Outcome (Sched P Q F) := do
  let s ← s.removeWaiting fuel task
  let s := s.mapCore (·.markWoken task)
  if s.readyThreads.empty ∧ s.currThread = some s.idleThread then s.switchTask task
  else return s.pushReady task

end Sched

/-! ## The calls -/

/-- What a call passes that is not seen before or after it. -/
inductive Note where
  /-- The interrupt flag after a lock or an unlock. -/
  | irq (interruptFlag : Bool)
  /-- `scheduled_time` before a quantum is subtracted from it. -/
  | pay (budget : Word)
  deriving DecidableEq, Repr

/-- A state `X` that the scheduler is kept in: how to read it, how to apply a step to it, one that can
fail or one that cannot, and what becomes of a note. -/
class Host (X : Type) (P Q F : outParam Type) where
  sched : X → Sched P Q F
  map : (Sched P Q F → Sched P Q F) → X → X
  lift : (Sched P Q F → Outcome (Sched P Q F)) → X → Outcome X
  note : Note → X → X

namespace Host

/-- The scheduler alone. -/
instance : Host (Sched P Q F) P Q F where
  sched s := s
  map f s := f s
  lift f s := f s
  note _ s := s

variable {X : Type} [Host X P Q F]

/-- The switch decision of `schedule()`, reached when no lock is held. -/
def switchNow (x : X) : Outcome X :=
  if (sched x).readyThreads.empty then lift (fun s => s.switchTask s.idleThread) x
  else do
    let x ←
      if (sched x).timeQuantumPast then do
        let cur ← deref (sched x).currThread
        let x := note (.pay ((sched x).thread cur).scheduledTime) x
        pure (map (·.mapCore (·.payQuantum cur)) x)
      else pure x
    lift Sched.switchHead x

def schedule (x : X) : Outcome X :=
  if (sched x).taskSwitchCounter ≠ 0 then .ok (map (·.mapCore (·.setPostponed true)) x)
  else switchNow x

def lockScheduler (x : X) : X :=
  let x := map (·.mapCore (·.lockScheduler)) x
  note (.irq (sched x).interruptFlag) x

def unlockScheduler (x : X) : Outcome X := do
  let x := map (·.mapCore (·.leaveSwitch)) x
  let x ←
    if (sched x).taskSwitchCounter = 0 ∧ (sched x).taskSwitchPostponed = true then
      schedule (map (·.mapCore (·.setPostponed false)) x)
    else pure x
  let x := map (·.mapCore (·.leaveDisable)) x
  return note (.irq (sched x).interruptFlag) x

/-- The three calls by which the current thread gives up the processor: it is marked and queued under the
lock, and a switch is asked for. -/
def request (body : P → Sched P Q F → Sched P Q F) (x : X) : Outcome X := do
  let x := lockScheduler x
  let cur ← deref (sched x).currThread
  let x ← schedule (map (body cur) x)
  unlockScheduler x

def sleep (milli : Word) (x : X) : Outcome X :=
  request (fun cur s => (s.mapCore (·.markSleep cur milli)).pushWaiting cur) x

def yield (x : X) : Outcome X :=
  request (fun cur s => (s.mapCore (·.markReady cur)).pushReady cur) x

def block (x : X) : Outcome X :=
  request (fun cur s => (s.mapCore (·.setState cur .blocked)).pushWaiting cur) x

def unblock (fuel : Nat) (task : P) (x : X) : Outcome X := do
  let x ← lift (·.wake fuel task) (lockScheduler x)
  unlockScheduler x

/-- The body of the sleeper loop of `pit_irq_handler`. -/
def wakeSleeper (fuel : Nat) (t : P) (x : X) : Outcome X :=
  if ((sched x).thread t).state = .blocked then .ok x
  else
    let x := map (·.mapCore (·.countDown t)) x
    if ((sched x).thread t).sleepTime = 0 then unblock fuel t x else .ok x

/-- The slice test of `pit_irq_handler`: the budget is spent, or a whole quantum is. -/
def checkSlice (x : X) : Outcome X := do
  let cur ← deref (sched x).currThread
  let delta := (sched x).toCore.delta cur
  if ((sched x).thread cur).scheduledTime ≤ delta then schedule x
  else if delta = defaultTimeQuantum then
    schedule (map (·.mapCore (·.setQuantumPast true)) x)
  else return x

/-- `pit_irq_handler(frame)`: the frame it leaves in `*frame`, and the state. -/
def pitIrqHandler (fuel : Nat) (frame : F) (x : X) : Outcome (F × X) :=
  match (sched x).currThread with
  | none => .ok (frame, x)
  | some cur => do
    let x := map (·.mapCore (·.saveFrame cur frame)) (lockScheduler x)
    let x ← (sched x).waitingQueue.iterate (fun x => (sched x).hook) (wakeSleeper fuel) fuel x
    let x ← checkSlice x
    let x ← unlockScheduler x
    let cur ← deref (sched x).currThread
    return (((sched x).thread cur).registers, x)

end Host

namespace Sched

abbrev switchNow (s : Sched P Q F) : Outcome (Sched P Q F) := Host.switchNow s

abbrev schedule (s : Sched P Q F) : Outcome (Sched P Q F) := Host.schedule s

abbrev lockScheduler (s : Sched P Q F) : Sched P Q F := Host.lockScheduler s

abbrev unlockScheduler (s : Sched P Q F) : Outcome (Sched P Q F) := Host.unlockScheduler s

abbrev request (body : P → Sched P Q F → Sched P Q F) (s : Sched P Q F) : Outcome (Sched P Q F) :=
  Host.request body s

abbrev sleep (milli : Word) (s : Sched P Q F) : Outcome (Sched P Q F) := Host.sleep milli s

abbrev yield (s : Sched P Q F) : Outcome (Sched P Q F) := Host.yield s

abbrev block (s : Sched P Q F) : Outcome (Sched P Q F) := Host.block s

abbrev unblock (fuel : Nat) (task : P) (s : Sched P Q F) : Outcome (Sched P Q F) :=
  Host.unblock fuel task s

abbrev wakeSleeper (fuel : Nat) (t : P) (s : Sched P Q F) : Outcome (Sched P Q F) :=
  Host.wakeSleeper fuel t s

abbrev checkSlice (s : Sched P Q F) : Outcome (Sched P Q F) := Host.checkSlice s

abbrev pitIrqHandler (fuel : Nat) (frame : F) (s : Sched P Q F) : Outcome (F × Sched P Q F) :=
  Host.pitIrqHandler fuel frame s

/-- A PIT tick as `isr_timer` runs it: `increase_tick`, then `pit_irq_handler`. -/
def pitTick (fuel : Nat) (frame : F) (s : Sched P Q F) : Outcome (F × Sched P Q F) :=
  (s.mapCore Core.increaseTick).pitIrqHandler fuel frame

end Sched

end TwoKernel
