import TwoKernel.Proc.Scheduler

/-!
# The scheduler, with a record of what passes

`Traced` is the host of the scheduler that keeps its notes, in a log beside the state.
Without the log, each function is the one of the same name over `Sched`
(`Laws.Proc.Traced`).
-/

namespace TwoKernel

variable {P Q F : Type} [DecidableEq P] [DecidableEq Q]

structure Traced (P Q F : Type) where
  sched : Sched P Q F
  log : List Note

namespace Traced

def note (n : Note) (x : Traced P Q F) : Traced P Q F := { x with log := x.log ++ [n] }

/-- A step that passes nothing worth a note. -/
def mapSched (f : Sched P Q F → Sched P Q F) (x : Traced P Q F) : Traced P Q F :=
  { x with sched := f x.sched }

/-- The same for a step that can fail. -/
def lift (f : Sched P Q F → Outcome (Sched P Q F)) (x : Traced P Q F) : Outcome (Traced P Q F) := do
  let s ← f x.sched
  return { x with sched := s }

/-- The host that keeps its notes. -/
instance : Host (Traced P Q F) P Q F where
  sched := sched
  map := mapSched
  lift := lift
  note := note

abbrev schedule (x : Traced P Q F) : Outcome (Traced P Q F) := Host.schedule x

abbrev lockScheduler (x : Traced P Q F) : Traced P Q F := Host.lockScheduler x

abbrev unlockScheduler (x : Traced P Q F) : Outcome (Traced P Q F) := Host.unlockScheduler x

abbrev request (body : P → Sched P Q F → Sched P Q F) (x : Traced P Q F) : Outcome (Traced P Q F) :=
  Host.request body x

abbrev sleep (milli : Word) (x : Traced P Q F) : Outcome (Traced P Q F) := Host.sleep milli x

abbrev yield (x : Traced P Q F) : Outcome (Traced P Q F) := Host.yield x

abbrev block (x : Traced P Q F) : Outcome (Traced P Q F) := Host.block x

abbrev unblock (fuel : Nat) (task : P) (x : Traced P Q F) : Outcome (Traced P Q F) :=
  Host.unblock fuel task x

abbrev wakeSleeper (fuel : Nat) (t : P) (x : Traced P Q F) : Outcome (Traced P Q F) :=
  Host.wakeSleeper fuel t x

abbrev checkSlice (x : Traced P Q F) : Outcome (Traced P Q F) := Host.checkSlice x

abbrev pitIrqHandler (fuel : Nat) (frame : F) (x : Traced P Q F) : Outcome (F × Traced P Q F) :=
  Host.pitIrqHandler fuel frame x

end Traced

end TwoKernel
