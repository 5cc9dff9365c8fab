import TwoKernel.Basic
import TwoKernel.Lib.Nesting

/-!
# Guards and locks that mask interrupts

`IrqRAIGaurd` of `util/irq_gaurd.hpp` masks interrupts for the rest of a scope, and
`IrqSpinLock` of `util/spinlocks.hpp` from `acquire` to `release`. Both save the flags
they found and turn interrupts on again only if those had them on. A guard saves them in
itself, so there is one copy for each scope; a lock in its own `flags`, which the next
`acquire` overwrites.

`IrqState` is one processor with the guards of the scopes it is in, innermost first, and
the locks, named by `L`.
-/

namespace TwoKernel

/-- `Util::IF`, bit 9 of the flags. -/
def ifMask : Word := 1 <<< 9

structure SpinLock where
  data : Bool := false
  deriving DecidableEq

namespace SpinLock

/-- `data.exchange(value)`: the old value, and the lock after it. -/
def exchange (value : Bool) (l : SpinLock) : Bool × SpinLock := (l.data, ⟨value⟩)

/-- `acquire`, with fuel for so many exchanges. -/
def acquire : Nat → SpinLock → Outcome SpinLock
  | 0, _ => .error .diverges
  | fuel + 1, l =>
    let r := l.exchange true
    if r.1 then acquire fuel r.2 else .ok r.2

def release (_ : SpinLock) : SpinLock := ⟨false⟩

end SpinLock

structure IrqSpinLock where
  flags : Word
  inner : SpinLock := {}
  deriving DecidableEq

structure IrqState (L : Type) where
  rflags : Word
  guards : List Word
  locks : L → IrqSpinLock

/-- A section with interrupts off. -/
inductive Masked (L : Type) where
  /-- The scope of an `IrqRAIGaurd`. -/
  | scope
  /-- From the `acquire` of a lock to its `release`. -/
  | lock (l : L)
  deriving DecidableEq

/-- A lock is not acquired while it is held. -/
def Masked.reentrant {L : Type} : Masked L → Bool
  | .scope => true
  | .lock _ => false

namespace IrqState

variable {L : Type} [DecidableEq L]

/-- `IF`. -/
def interrupts (s : IrqState L) : Bool := s.rflags &&& ifMask ≠ 0

def cli (s : IrqState L) : IrqState L := { s with rflags := s.rflags &&& ~~~ifMask }

def sti (s : IrqState L) : IrqState L := { s with rflags := s.rflags ||| ifMask }

/-- The end of both closings: `sti` if the saved flags had interrupts on. -/
def restore (flags : Word) (s : IrqState L) : IrqState L :=
  if flags &&& ifMask ≠ 0 then s.sti else s

/-- `IrqRAIGaurd()`. -/
def guard (s : IrqState L) : IrqState L := { s with guards := s.rflags :: s.guards }.cli

/-- `~IrqRAIGaurd()`, of the guard of the innermost scope. -/
def unguard (s : IrqState L) : Outcome (IrqState L) :=
  match s.guards with
  | [] => .error .nullDeref
  | flags :: guards => .ok ({ s with guards := guards }.restore flags)

/-- `IrqSpinLock::acquire`. -/
def acquire (fuel : Nat) (l : L) (s : IrqState L) : Outcome (IrqState L) := do
  let savedFlags := s.rflags
  let s := s.cli
  let inner ← (s.locks l).inner.acquire fuel
  return { s with locks := Function.update s.locks l ⟨savedFlags, inner⟩ }

/-- `IrqSpinLock::release`. -/
def release (l : L) (s : IrqState L) : IrqState L :=
  let lock := s.locks l
  { s with
    locks := Function.update s.locks l { lock with inner := lock.inner.release } }.restore lock.flags

def step (fuel : Nat) (s : IrqState L) : Bracket (Masked L) → Outcome (IrqState L)
  | .enter .scope => .ok s.guard
  | .leave .scope => s.unguard
  | .enter (.lock l) => s.acquire fuel l
  | .leave (.lock l) => .ok (s.release l)

/-- A sequence of scopes and locks, opened and closed. -/
def run (fuel : Nat) (ops : List (Bracket (Masked L))) (s : IrqState L) : Outcome (IrqState L) :=
  ops.foldlM (step fuel) s

end IrqState

end TwoKernel
