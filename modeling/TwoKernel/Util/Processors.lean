import TwoKernel.Lib.System
import TwoKernel.Util.Spinlocks

/-!
# An `IrqSpinLock` on many processors

`acquire` and `release` of `IrqSpinLock`, statement by statement, with whatever code is
called between them. The processors are named by `P` and share the lock and a state
`σ`; a processor is a stack of activations, the code that is executing first and below
it what was interrupted. Every step of every processor is a step of its own, so a run is
any interleaving.

An interrupt arrives at any statement at which the flag is on, and starts code that may
itself call into the lock. Code outside a call sets its flags as it likes. Interrupts
that the flag does not hold back are left out: an exception does not arise in the code of
the lock, and the handler of the non-maskable interrupt does not return.

Nothing is assumed about the code under the lock: it goes from point to point over the
shared state until it has a result.
-/

namespace TwoKernel.Smp

/-- Code that is called under the lock: calls `κ`, points `τ` of their execution, results `ρ`. -/
structure Section (σ κ τ ρ : Type) where
  start : κ → τ
  step : κ → σ → τ → σ × (τ ⊕ ρ)

/-- The next statement of a call, and what its local variables hold. -/
inductive Stage (τ ρ : Type) where
  /-- `pushfq; pop saved_flags`. -/
  | pushfq
  | cli (savedFlags : Word)
  /-- `data.exchange(true)`, the test of the loop. -/
  | exchange (savedFlags : Word)
  /-- `flags = saved_flags`. -/
  | keep (savedFlags : Word)
  | body (t : τ)
  /-- `saved_flags = flags`. -/
  | reload (r : ρ)
  /-- `data.store(false)`. -/
  | store (r : ρ) (savedFlags : Word)
  /-- `if (saved_flags & IF) sti`. -/
  | restore (r : ρ) (savedFlags : Word)
  /-- Past the `release`. -/
  | done (r : ρ)
  deriving DecidableEq

/-- Where some code is. `found` is what the flags were when the call was made; no statement reads
it. -/
inductive Point (κ τ ρ : Type) where
  | outside
  | call (c : κ) (found : Word) (stage : Stage τ ρ)
  deriving DecidableEq

/-- Code, and its flags. -/
structure Activation (κ τ ρ : Type) where
  point : Point κ τ ρ
  rflags : Word
  deriving DecidableEq

structure Machine (P σ κ τ ρ : Type) where
  shared : σ
  lock : IrqSpinLock
  cpus : P → List (Activation κ τ ρ)

/-- What a processor can do next. -/
inductive Action (κ : Type) where
  /-- An interrupt arrives. -/
  | interrupt
  /-- An interrupt handler returns. -/
  | iretq
  /-- Code outside a call changes its flags. -/
  | setFlags (rflags : Word)
  | call (c : κ)
  /-- The call goes on by one statement. -/
  | go

variable {P σ κ τ ρ : Type}

/-- From the exchange that got the lock to the store that gives it back. -/
def Stage.holds : Stage τ ρ → Bool
  | .keep _ | .body _ | .reload _ | .store _ _ => true
  | .pushfq | .cli _ | .exchange _ | .restore _ _ | .done _ => false

/-- From `cli` to `sti`. -/
def Stage.masked : Stage τ ρ → Bool
  | .exchange _ | .keep _ | .body _ | .reload _ | .store _ _ | .restore _ _ => true
  | .pushfq | .cli _ | .done _ => false

namespace Activation

def holds (a : Activation κ τ ρ) : Bool :=
  match a.point with
  | .outside => false
  | .call _ _ stage => stage.holds

def masked (a : Activation κ τ ρ) : Bool :=
  match a.point with
  | .outside => false
  | .call _ _ stage => stage.masked

/-- `IF`. -/
def interrupts (a : Activation κ τ ρ) : Bool := a.rflags &&& ifMask ≠ 0

end Activation

namespace Machine

variable [DecidableEq P] (code : Section σ κ τ ρ)

/-- `p` goes on with the stack `acts`. -/
def goto (p : P) (acts : List (Activation κ τ ρ)) (m : Machine P σ κ τ ρ) : Machine P σ κ τ ρ :=
  { m with cpus := Function.update m.cpus p acts }

/-- The next statement of the call `c` on the processor `p`. -/
def stmt (p : P) (c : κ) (found rflags : Word) (below : List (Activation κ τ ρ))
    (m : Machine P σ κ τ ρ) : Stage τ ρ → Machine P σ κ τ ρ :=
  let next rflags stage m := goto p (⟨.call c found stage, rflags⟩ :: below) m
  fun
  | .pushfq => next rflags (.cli rflags) m
  | .cli savedFlags => next (rflags &&& ~~~ifMask) (.exchange savedFlags) m
  | .exchange savedFlags =>
    let r := m.lock.inner.exchange true
    next rflags (if r.1 then .exchange savedFlags else .keep savedFlags)
      { m with lock := { m.lock with inner := r.2 } }
  | .keep savedFlags =>
    next rflags (.body (code.start c)) { m with lock := { m.lock with flags := savedFlags } }
  | .body t =>
    match code.step c m.shared t with
    | (shared, .inl t) => next rflags (.body t) { m with shared := shared }
    | (shared, .inr r) => next rflags (.reload r) { m with shared := shared }
  | .reload r => next rflags (.store r m.lock.flags) m
  | .store r savedFlags =>
    next rflags (.restore r savedFlags) { m with lock := { m.lock with inner := m.lock.inner.release } }
  | .restore r savedFlags =>
    next (if savedFlags &&& ifMask ≠ 0 then rflags ||| ifMask else rflags) (.done r) m
  | .done _ => goto p (⟨.outside, rflags⟩ :: below) m

/-- An action of `p`, `a` being what executes there. -/
def act (p : P) (a : Activation κ τ ρ) (below : List (Activation κ τ ρ)) (m : Machine P σ κ τ ρ) :
    Action κ → Option (Machine P σ κ τ ρ)
  | .interrupt =>
    if a.interrupts then
      some (m.goto p (⟨.outside, a.rflags &&& ~~~ifMask⟩ :: a :: below))
    else none
  | .iretq =>
    match a.point, below with
    | .outside, _ :: _ => some (m.goto p below)
    | _, _ => none
  | .setFlags rflags =>
    match a.point with
    | .outside => some (m.goto p (⟨.outside, rflags⟩ :: below))
    | .call _ _ _ => none
  | .call c =>
    match a.point with
    | .outside => some (m.goto p (⟨.call c a.rflags .pushfq, a.rflags⟩ :: below))
    | .call _ _ _ => none
  | .go =>
    match a.point with
    | .outside => none
    | .call c found stage => some (m.stmt code p c found a.rflags below stage)

def step (p : P) (action : Action κ) (m : Machine P σ κ τ ρ) : Option (Machine P σ κ τ ρ) :=
  match m.cpus p with
  | [] => none
  | a :: below => m.act code p a below action

/-- No processor is in a call and the lock is free. What its `flags` hold is not said: the
constructor does not set them. -/
structure Idle (m : Machine P σ κ τ ρ) : Prop where
  free : m.lock.inner.data = false
  outside : ∀ p, ∀ a ∈ m.cpus p, a.point = .outside

/-- **All runs** from idle processors that share a state with `init`. -/
def runs (init : σ → Prop) : System (Machine P σ κ τ ρ) (P × Action κ) where
  init m := m.Idle ∧ init m.shared
  step m i m' := m.step code i.1 i.2 = some m'

end Machine

end TwoKernel.Smp
