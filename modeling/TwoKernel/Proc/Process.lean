import TwoKernel.Proc.Scheduler

/-!
# Ending a process

`Schedule::remove_dead_process_threads`, `ProcessBlock::exit`, and the two ways to
get there: the system call, and the handler of the general protection fault.

The purge walks both queues of the scheduler and takes the threads of the
current process out of `waiting_queue`, from either walk.
-/

namespace TwoKernel

variable {P Q F : Type} [DecidableEq P] [DecidableEq Q]

namespace Sched

/-- The body shared by the two loops of `remove_dead_process_threads`: both unlink from
`waiting_queue`. -/
def purge (fuel : Nat) (proc : Q) (t : P) (s : Sched P Q F) : Outcome (Sched P Q F) :=
  if (s.thread t).mProcess = proc then s.removeWaiting fuel t else .ok s

def removeDeadProcessThreads (fuel : Nat) (s : Sched P Q F) : Outcome (Bool × Sched P Q F) := do
  let cur ← deref s.currThread
  let proc := (s.thread cur).mProcess
  let s ← s.waitingQueue.iterate Sched.hook (purge fuel proc) fuel s
  let s ← s.readyThreads.iterate Sched.hook (purge fuel proc) fuel s
  let s ← s.schedule
  return (true, s)

/-- Write some members of one process block. -/
def modifyProcess (q : Q) (f : ProcessBlock P Q → ProcessBlock P Q) : Sched P Q F → Sched P Q F :=
  mapCore fun c => { c with process := Function.update c.process q (f (c.process q)) }

/-- `ProcessBlock::remove_all_threads`: the list is dropped, `thread_size` stays. -/
def removeAllThreads (q : Q) : Sched P Q F → Sched P Q F :=
  modifyProcess q fun b => { b with threads := b.threads.clearAll }

/-- `ProcessBlock::exit`. Any status but `-1` does nothing. -/
def exit (fuel : Nat) (q : Q) (stats : BitVec 32) (s : Sched P Q F) : Outcome (Sched P Q F) :=
  if stats = -1 then
    match (s.process q).parent with
    | some _ => do
      let s := s.modifyProcess q fun b =>
        { b with status := .zombie, isZombie := true, exitStatus := stats }
      let r ← s.removeDeadProcessThreads fuel
      if r.1 then return r.2.removeAllThreads q
      else .error (.panic "Something went wrong inside process.cpp")
    | none => do
      let s := s.modifyProcess q fun b => { b with status := .dead, isZombie := true }
      let r ← s.removeDeadProcessThreads fuel
      if r.1 then return r.2.removeAllThreads q
      else .error (.panic "Something went wrong inside process")
  else .ok s

/-- The system call `exit`, with `rdi` its argument: the value it returns, and the state. -/
def exitSyscall (fuel : Nat) (rdi : Word) (s : Sched P Q F) : Outcome (Word × Sched P Q F) := do
  let status : BitVec 32 := rdi.truncate 32
  let cur ← deref s.currThread
  let proc := (s.thread cur).mProcess
  let s := s.removeAllThreads proc
  let s ← s.exit fuel proc status
  return (status.signExtend 64, s)

/-- `x86_gp_fault_handler(frame)`, `cs` reading the code segment out of a frame. It returns
without writing `*frame`. -/
def x86GpFaultHandler (cs : F → Word) (fuel : Nat) (frame : F) (s : Sched P Q F) :
    Outcome (Sched P Q F) := do
  let thread ← deref s.currThread
  let q := (s.thread thread).mProcess
  if (s.process q).isUser = true ∧ cs frame &&& 3 = 3 then
    let s ← s.exit fuel q (-1)
    s.schedule
  else .error .halted

end Sched

end TwoKernel
