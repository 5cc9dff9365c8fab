import TwoKernel.Lib.Chain
import TwoKernel.Lib.System
import TwoKernel.Proc.Scheduler

/-!
# The entry points of the scheduler

What the rest of the kernel can do to a constructed scheduler: hand it a
thread, let the timer interrupt it, and call it from the running thread. `Use` has
the budgets besides, which are set on a thread and not through the scheduler.
-/

namespace TwoKernel

variable {P Q F : Type} [DecidableEq P] [DecidableEq Q]

inductive Call (P F : Type) where
  | add (thread : P)
  | tick (frame : F)
  | yield
  | sleep (milli : Word)
  | block
  | unblock (task : P)

namespace Call

/-- Run one call. The frame a tick leaves in `*frame` is not part of the scheduler. -/
def exec (fuel : Nat) (s : Sched P Q F) : Call P F → Outcome (Sched P Q F)
  | add t => .ok (s.addReadyThreads t)
  | tick frame => Prod.snd <$> s.pitTick fuel frame
  | yield => s.yield
  | sleep milli => s.sleep milli
  | block => s.block
  | unblock t => s.unblock fuel t

/-- The threads handed over so far, after this call. -/
def added (l : List P) : Call P F → List P
  | add t => t :: l
  | _ => l

end Call

/-- A call of the scheduler, or a budget set by `update_scheduled_time`. -/
inductive Use (P F : Type) where
  | call (c : Call P F)
  | update (thread : P) (ms : Word)

/-- The globals before `Schedule(idle)`: every block as its constructor leaves it, the machine
reset, no queue in use. -/
def Sched.boot (thread : P → ThreadBlock Q F) (process : Q → ProcessBlock P Q) (idle : P) :
    Sched P Q F where
  thread := thread
  process := process
  procHook _ := none
  disableCounter := 0
  taskSwitchCounter := 0
  taskSwitchPostponed := false
  timeQuantumPast := false
  currThread := none
  idleThread := idle
  cr3 := 0
  tssRsp0 := 0
  syscallKernelRsp := 0
  interruptFlag := false
  tick := 0
  pitClocks := 0
  hook _ := none
  waitingQueue := {}
  readyThreads := {}

/-- The threads linked in the waiting queue, as a walk of `fuel` nodes meets them. -/
def Sched.waitingThreads (fuel : Nat) (s : Sched P Q F) : List P :=
  Chain.walk s.hook fuel s.waitingQueue.head

end TwoKernel
