import TwoKernel.Memory.Clients
import TwoKernel.Util.Processors

/-!
# The page allocator on many processors

`alloc` and `free` of `memory/pmm.cpp`, statement by statement, called on any number of
processors under `g_pmm_irq_lock`, which is a lock of `Smp`. Clients store to the memory
they were given at any time, also while a call is under the lock. `alloc` reads the
address it returns, `curr->pa`, only past its `release`.

`out` are the blocks handed out, as in `Clients`, and `log` the calls and stores so far with
their answers, in the order in which they took effect: a call does at its last statement
under the lock, and knows its place in the log from then on. `Recorded` keeps the calls that
have returned. All of it is bookkeeping that no statement reads. `Replays` is the same log for
the allocator that answers one call after the other.

A block is reserved while a call has it: from its `free` to the effect of that, and from the
effect of an `alloc` to its return. Clients free and write what is theirs, that is, handed out and
not reserved.
-/

namespace TwoKernel

open Smp

namespace Shared

/-- The calls under the lock. -/
inductive Request where
  | alloc (count : Word)
  | free (physMem count : Word)
  deriving DecidableEq

/-- The call as the log has it. -/
def Request.call : Request → PmmCall
  | .alloc count => .alloc count
  | .free physMem count => .free physMem count

/-- The pages of a request. -/
def Request.count : Request → Word
  | .alloc count => count
  | .free _ count => count

/-- The statements of `push_list`. -/
inductive PushStmt where
  | pa | numPages | next | head
  deriving DecidableEq

/-- The next statement of a call under the lock. -/
inductive PmmPoint where
  /-- `prev = nullptr, curr = freelist_head`; or `if (g_ref_alloc == 0)`. -/
  | first
  /-- `while (curr)`. -/
  | loop (prev curr : Word)
  /-- `if (curr->num_pages >= count)`. -/
  | fits (prev curr : Word)
  /-- `prev = curr; curr = curr->next`. -/
  | advance (prev curr : Word)
  | unlink (prev curr : Word)
  /-- `if (curr->num_pages > count)`, up to the call of `push_list`. -/
  | rest (curr : Word)
  | push (stmt : PushStmt) (phys pageAmount curr : Word)
  /-- `g_ref_alloc += 1`, or `-= 1`. -/
  | count (curr : Word)
  deriving DecidableEq

/-- What a call knows past its `release`: the node it found. `logged` is the answer that went into
the log, and `place` where; no statement reads them. -/
structure Answer where
  curr : Word
  logged : Word
  place : Nat
  deriving DecidableEq

/-- The allocator, with the log. -/
structure Pool extends Clients where
  log : List (PmmCall × Word)

namespace Pool

variable (hhdm : Word)

/-- A call takes effect. -/
def commit (call : PmmCall) (answer : Word) (s : Pool) : Pool :=
  { s with
    out := match call with
      | .alloc count => if answer = 0 then s.out else ⟨answer, count⟩ :: s.out
      | .free physMem count => s.out.erase ⟨physMem, count⟩
      | .write _ _ => s.out
    log := s.log ++ [(call, answer)] }

/-- A statement of `push_list`. -/
def pushStmt (phys pageAmount : Word) (s : Phys) : PushStmt → Phys
  | .pa => s.setField hhdm .pa (phys + hhdm) phys
  | .numPages => s.setField hhdm .numPages (phys + hhdm) pageAmount
  | .next => s.setField hhdm .next (phys + hhdm) s.freelistHead
  | .head => { s with freelistHead := phys + hhdm }

/-- The statement after it; past `push_list` it is the count. -/
def afterPush (phys pageAmount curr : Word) : PushStmt → PmmPoint
  | .pa => .push .numPages phys pageAmount curr
  | .numPages => .push .next phys pageAmount curr
  | .next => .push .head phys pageAmount curr
  | .head => .count curr

/-- The last statement under the lock. -/
def countStmt (curr : Word) (s : Pool) : Request → Pool × Answer
  | .alloc count =>
    let phys := { s.phys with gRefAlloc := s.phys.gRefAlloc + 1 }
    let answer := phys.field hhdm .pa curr
    ({ s with phys := phys }.commit (.alloc count) answer, ⟨curr, answer, s.log.length⟩)
  | .free physMem count =>
    let phys := { s.phys with gRefAlloc := s.phys.gRefAlloc - 1 }
    ({ s with phys := phys }.commit (.free physMem count) 0, ⟨0, 0, s.log.length⟩)

/-- A statement of a call. -/
def stmt (r : Request) (s : Pool) : PmmPoint → Pool × (PmmPoint ⊕ Answer)
  | .first =>
    match r with
    | .alloc _ => (s, .inl (.loop 0 s.phys.freelistHead))
    | .free physMem count =>
      if s.phys.gRefAlloc = 0 then (s.commit (.free physMem count) 0, .inr ⟨0, 0, s.log.length⟩)
      else (s, .inl (.push .pa physMem count 0))
  | .loop prev curr =>
    if curr = 0 then (s.commit (.alloc r.count) 0, .inr ⟨0, 0, s.log.length⟩)
    else (s, .inl (.fits prev curr))
  | .fits prev curr =>
    if r.count ≤ s.phys.field hhdm .numPages curr then (s, .inl (.unlink prev curr))
    else (s, .inl (.advance prev curr))
  | .advance _ curr => (s, .inl (.loop curr (s.phys.field hhdm .next curr)))
  | .unlink prev curr => ({ s with phys := s.phys.unlink hhdm prev curr }, .inl (.rest curr))
  | .rest curr =>
    if r.count < s.phys.field hhdm .numPages curr then
      (s, .inl (.push .pa (s.phys.field hhdm .pa curr + r.count * pageSize)
        (s.phys.field hhdm .numPages curr - r.count) curr))
    else (s, .inl (.count curr))
  | .push stmt phys pageAmount curr =>
    ({ s with phys := pushStmt hhdm phys pageAmount s.phys stmt },
      .inl (afterPush phys pageAmount curr stmt))
  | .count curr =>
    let r := s.countStmt hhdm curr r
    (r.1, .inr r.2)

/-- `alloc` and `free` under `g_pmm_irq_lock`. -/
def code : Section Pool Request PmmPoint Answer := ⟨fun _ => .first, stmt hhdm⟩

end Pool

abbrev Activation := Smp.Activation Request PmmPoint Answer

abbrev Machine (P : Type) := Smp.Machine P Pool Request PmmPoint Answer

/-- What a call knows once it has taken effect. -/
def result {τ ρ : Type} : Stage τ ρ → Option ρ
  | .reload r | .store r _ | .restore r _ | .done r => some r
  | .pushfq | .cli _ | .exchange _ | .keep _ | .body _ => none

/-- The block a call has. -/
def reserves (hhdm : Word) (a : Activation) : Option Block :=
  match a.point with
  | .outside => none
  | .call (.alloc count) _ stage =>
    match result stage with
    | some r => if r.curr = 0 then none else some ⟨r.curr - hhdm, count⟩
    | none => none
  | .call (.free physMem count) _ stage =>
    match result stage with
    | some _ => none
    | none => some ⟨physMem, count⟩

/-- The place in the log of a call that has taken effect. -/
def place (a : Activation) : Option Nat :=
  match a.point with
  | .outside => none
  | .call _ _ stage => (result stage).map (·.place)

/-- What a call returns: `curr->pa`, or zero. A `free` has found no node. -/
def returned (hhdm : Word) (s : Phys) (r : Answer) : Word :=
  if r.curr = 0 then 0 else s.field hhdm .pa r.curr

/-- What can happen: a processor goes on, or a client stores a byte. -/
inductive Event (P : Type) where
  | cpu (p : P) (action : Action Request)
  | write (addr : Nat) (value : Byte)

variable {P : Type} (hhdm : Word)

/-- Some call has the block. -/
def Reserved (m : Machine P) (b : Block) : Prop := ∃ p, ∃ a ∈ m.cpus p, reserves hhdm a = some b

/-- Clients ask for at least one page, and give back and write what is theirs. -/
def Allowed (m : Machine P) : Event P → Prop
  | .cpu _ (.call (.alloc count)) => count ≠ 0
  | .cpu _ (.call (.free physMem count)) =>
    ⟨physMem, count⟩ ∈ m.shared.out ∧ ¬ Reserved hhdm m ⟨physMem, count⟩
  | .cpu _ _ => True
  | .write addr _ => ∃ b ∈ m.shared.out, ¬ Reserved hhdm m b ∧ addr / 4096 ∈ b.pages

def next [DecidableEq P] (m : Machine P) : Event P → Option (Machine P)
  | .cpu p action => m.step (Pool.code hhdm) p action
  | .write addr value =>
    let s := { m.shared with phys := m.shared.phys.write addr value }
    some { m with shared := s.commit (.write addr value) 0 }

/-- A call that has returned. -/
structure Return where
  call : PmmCall
  value : Word
  place : Nat

/-- The call that returns in a step. -/
def leaves (m : Machine P) : Event P → Option Return
  | .cpu p .go =>
    match m.cpus p with
    | ⟨.call r _ (.done ans), _⟩ :: _ => some ⟨r.call, returned hhdm m.shared.phys ans, ans.place⟩
    | _ => none
  | _ => none

/-- The machine, and the calls that have returned. -/
structure Recorded (P : Type) where
  machine : Machine P
  returns : List Return

/-- **The runs from `init_pmm`**, over any initial memory. -/
def runs (P : Type) [DecidableEq P] (memmap : List MemmapEntry) : System (Recorded P) (Event P) where
  init x := x.returns = [] ∧ x.machine.Idle ∧
    ∃ mem, x.machine.shared = ⟨⟨Phys.initPmm hhdm memmap mem, []⟩, []⟩
  step x e x' := Allowed hhdm x.machine e ∧ next hhdm x.machine e = some x'.machine ∧
    x'.returns = x.returns ++ (leaves hhdm x.machine e).toList

/-- The answer of the allocator that takes one call after the other. -/
def answer (x : Clients) : PmmCall → Outcome Word
  | .alloc count => (fun r => r.1) <$> x.phys.alloc hhdm count
  | .free _ _ => .ok 0
  | .write _ _ => .ok 0

/-- A log that this allocator makes, and its state after it. -/
inductive Replays (memmap : List MemmapEntry) : List (PmmCall × Word) → Clients → Prop
  | init (mem : ByteMem.Mem) : Replays memmap [] ⟨Phys.initPmm hhdm memmap mem, []⟩
  | step {log : List (PmmCall × Word)} {x x' : Clients} {call : PmmCall} {r : Word} :
      Replays memmap log x → x.Allowed call → answer hhdm x call = .ok r →
      x.next hhdm call = .ok x' → Replays memmap (log ++ [(call, r)]) x'

end Shared

end TwoKernel
