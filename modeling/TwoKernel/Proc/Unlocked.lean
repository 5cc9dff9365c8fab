import TwoKernel.Proc.Scheduler

/-!
# The calls of the scheduler without the lock

What each entry point of the scheduler amounts to when nobody holds the lock:
the body, and the switch at the end if one was asked for. Nothing is said about
the two queues: they may be any pointers at all.
-/

namespace TwoKernel

variable {P Q F : Type} [DecidableEq P] [DecidableEq Q]

namespace Sched

def yieldNow (s : Sched P Q F) : Outcome (Sched P Q F) := do
  let cur ← deref s.currThread
  ((s.mapCore (·.markReady cur)).pushReady cur).switchNow

def sleepNow (milli : Word) (s : Sched P Q F) : Outcome (Sched P Q F) := do
  let cur ← deref s.currThread
  ((s.mapCore (·.markSleep cur milli)).pushWaiting cur).switchNow

def blockNow (s : Sched P Q F) : Outcome (Sched P Q F) := do
  let cur ← deref s.currThread
  ((s.mapCore (·.setState cur .blocked)).pushWaiting cur).switchNow

/-- One sleeper of the waiting queue, on a tick. -/
def visit (fuel : Nat) (t : P) (s : Sched P Q F) : Outcome (Sched P Q F) :=
  if (s.thread t).state = .blocked then .ok s
  else
    let s := s.mapCore (·.countDown t)
    if (s.thread t).sleepTime = 0 then s.wake fuel t else .ok s

/-- The slice test and the switch it leads to. -/
def endSlice (s : Sched P Q F) : Outcome (Sched P Q F) := do
  let cur ← deref s.currThread
  if (s.thread cur).scheduledTime ≤ s.toCore.delta cur then s.switchNow
  else if s.toCore.delta cur = defaultTimeQuantum then
    (s.mapCore (·.setQuantumPast true)).switchNow
  else .ok s

/-- A tick up to the sleeper loop: the clock, the saved frame, the millisecond charged. -/
def charge (cur : P) (frame : F) (s : Sched P Q F) : Sched P Q F :=
  s.mapCore fun c => c.increaseTick.saveFrame cur frame

def visitAll (fuel : Nat) (s : Sched P Q F) : Outcome (Sched P Q F) :=
  s.waitingQueue.iterate Sched.hook (visit fuel) fuel s

/-- A tick that interrupts the current thread `cur`. -/
def tickNow (fuel : Nat) (cur : P) (frame : F) (s : Sched P Q F) : Outcome (Sched P Q F) := do
  let s ← (s.charge cur frame).visitAll fuel
  s.endSlice

end Sched

end TwoKernel
