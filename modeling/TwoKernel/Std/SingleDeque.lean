import TwoKernel.Basic

/-!
# `kstd::SingleDeque`

The intrusive queue of `std/single_deque.hpp`. A deque owns two pointers, `head`
and `tail`; the link of a node lives in the node, in the `SingleNode` member the
template parameter `Hook` selects. `Hooks P` is that member of every node at
once, so two deques over one hook share one `Hooks P`, and a stale link left in
a popped node stays there.

`pop_tail` and `remove` walk the chain with no bound of their own. Here they
take fuel: on a chain that never ends they run out of it, and on one that ends
too early `pop_tail` reads through null.
-/

namespace TwoKernel

variable {P : Type} [DecidableEq P]

/-- The `next` member of every node. -/
abbrev Hooks (P : Type) := P → Option P

structure SingleDeque (P : Type) where
  head : Option P := none
  tail : Option P := none
  deriving DecidableEq, Repr

namespace SingleDeque

def empty (d : SingleDeque P) : Bool := d.head.isNone && d.tail.isNone

def clearAll (_ : SingleDeque P) : SingleDeque P := ⟨none, none⟩

def pushHead (hooks : Hooks P) (d : SingleDeque P) (value : P) : Hooks P × SingleDeque P :=
  match d.head with
  | none => (Function.update hooks value none, ⟨some value, some value⟩)
  | some h => (Function.update hooks value (some h), { d with head := some value })

def pushTail (hooks : Hooks P) (d : SingleDeque P) (value : P) : Hooks P × SingleDeque P :=
  let hooks := Function.update hooks value none
  match d.tail with
  | none => (hooks, ⟨some value, some value⟩)
  | some t => (Function.update hooks t (some value), { d with tail := some value })

/-- `pop_head` leaves every link as it is, the popped node's included. -/
def popHead (hooks : Hooks P) (d : SingleDeque P) : Option P × SingleDeque P :=
  match d.head with
  | none => (none, d)
  | some v =>
    match hooks v with
    | none => (some v, ⟨none, none⟩)
    | some n => (some v, { d with head := some n })

/-- The walk of `pop_tail`: from `node`, the first node whose link is `target`. -/
def newTail (hooks : Hooks P) (target : P) : Nat → P → Outcome P
  | 0, _ => .error .diverges
  | fuel + 1, node =>
    match hooks node with
    | none => .error .nullDeref
    | some n => if n = target then .ok node else newTail hooks target fuel n

def popTail (fuel : Nat) (hooks : Hooks P) (d : SingleDeque P) :
    Outcome (Option P × Hooks P × SingleDeque P) :=
  match d.tail with
  | none => .ok (none, hooks, d)
  | some t =>
    if d.head = some t then .ok (some t, hooks, ⟨none, none⟩)
    else do
      let h ← deref d.head
      let nt ← newTail hooks t fuel h
      return (some t, Function.update hooks nt none, { d with tail := some nt })

/-- The walk of `remove`: the node that links to `value`, or nothing at the end of the list. -/
def prevValue (hooks : Hooks P) (value : P) : Nat → P → Outcome (Option P)
  | 0, _ => .error .diverges
  | fuel + 1, prev =>
    match hooks prev with
    | none => .ok none
    | some n => if n = value then .ok (some prev) else prevValue hooks value fuel n

def remove (fuel : Nat) (hooks : Hooks P) (d : SingleDeque P) (value : Option P) :
    Outcome (Hooks P × SingleDeque P) :=
  match value, d.head with
  | none, _ => .ok (hooks, d)
  | _, none => .ok (hooks, d)
  | some v, some h =>
    if d.tail = some v then do
      let r ← d.popTail fuel hooks
      return r.2
    else if h = v then .ok (hooks, (d.popHead hooks).2)
    else do
      match ← prevValue hooks v fuel h with
      | none => return (hooks, d)
      | some prev => return (Function.update hooks prev (hooks v), d)

/-- The range-for of `begin()`/`end()`: `ptr` is the node visited, `next` the successor read
before the body ran, so the body may unlink `ptr`. `hooks` reads the links out of the state the
body changes. -/
def forEach {σ : Type} (hooks : σ → Hooks P) (body : P → σ → Outcome σ) :
    Nat → Option P → Option P → σ → Outcome σ
  | _, none, _, s => .ok s
  | 0, some _, _, _ => .error .diverges
  | fuel + 1, some ptr, next, s => do
    let s ← body ptr s
    forEach hooks body fuel next (next.bind (hooks s)) s

/-- `for (auto& x : d)`. -/
def iterate {σ : Type} (hooks : σ → Hooks P) (body : P → σ → Outcome σ) (fuel : Nat)
    (d : SingleDeque P) (s : σ) : Outcome σ :=
  forEach hooks body fuel d.head (d.head.bind (hooks s)) s

def size (fuel : Nat) (hooks : Hooks P) (d : SingleDeque P) : Outcome Nat :=
  d.iterate (fun _ => hooks) (fun _ n => .ok (n + 1)) fuel 0

end SingleDeque

end TwoKernel
