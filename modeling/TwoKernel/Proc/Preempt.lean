import TwoKernel.Laws.Arch.Frames
import TwoKernel.Lib.ByteFields
import TwoKernel.Proc.Calls

/-!
# Threads on one processor

`Asm` is the processor with its stack and the stubs, and `Sched` is the scheduler, for any type of
saved frames. Here they are one machine: the timer interrupts whatever executes, the stub saves its
registers on the stack in use, `isr_timer` lets the scheduler exchange the frame, and the stub
returns to what is in the frame then.

A tick is not over when the scheduler is done. `unlock_scheduler` has executed `sti`, and with `eoi(0)`
the timer may interrupt again, while the functions still return and the stub still pops the frame. So a
tick is delivered up to `eoi(0)`, and the way out from there is taken step by step (`WayOut`). A
tick may come at each of its steps: it finds the way out as what is interrupted, and the
scheduler saves that for the thread it has just made current. `unnested` are the runs in which the timer
waits until the processor is out.

A thread has a stack of its own, which `init_kernel_stack` has got for it. `Stacks` says where; that
they do not overlap is what the allocator promises. The stack of the idle thread is the one
`kmain` began with.

Nobody looks at `own` and `fresh`: they record what each thread has made of its registers and its
stack, and with what it was constructed if it has not been on the processor yet.

Left out are the calls by which a thread gives up the processor itself (`yield`, `sleep`, `block`), and
other interrupts. The memory is that of the kernel, the same in every address space. Whatever
else `isr_timer` does to registers and memory is a parameter (`clobber`), and so is the code by which it
and its callers return.
-/

namespace TwoKernel.Preempt

open ByteMem

variable {P Q : Type} [DecidableEq P] [DecidableEq Q]

/-! ## The constructor of a thread -/

/-- What a thread is constructed with. -/
structure Start (Q : Type) where
  process : Q
  entry : Word
  args : Word

/-- `registers` after the constructor, for a stack that ends at `rsp0`. -/
def Start.registers (isUser : Bool) (rsp0 : Word) (x : Start Q) : Asm.IrqFrame where
  r15 := 0
  r14 := 0
  r13 := 0
  r12 := 0
  r11 := 0
  r10 := 0
  r9 := 0
  r8 := 0
  rbp := 0
  rsi := 0
  rdi := x.args
  rdx := 0
  rcx := 0
  rbx := 0
  rax := 0
  error := 0
  rip := x.entry
  cs := if isUser then 0x20 ||| 3 else 0x08
  rflags := 0x202
  -- a function of the kernel is entered as if it had been called
  rsp := if isUser then rsp0 else rsp0 - 8
  ss := if isUser then 0x18 ||| 3 else 0x10

/-- The memory after the constructor. -/
def Start.memory (isUser : Bool) (rsp0 : Word) (m : Mem) : Mem :=
  if isUser then m else store64 m (rsp0 - 8).toNat 0

/-- The stack of each thread, with room for an interrupt. -/
structure Stacks (P : Type) where
  bottom : P → Nat
  top : P → Word
  room : ∀ t, bottom t + 4096 + 16 ≤ (top t).toNat
  aligned : ∀ t, (top t).toNat % 16 = 0
  apart : ∀ t u, t ≠ u → (top t).toNat ≤ bottom u ∨ (top u).toNat ≤ bottom t

/-- The part of its stack that a thread uses while it is in the kernel. -/
def Stacks.live (st : Stacks P) (t : P) (f : Asm.IrqFrame) : Set Nat :=
  {a | f.cs &&& 3 = 0 ∧ a ∈ Set.Ico f.rsp.toNat (st.top t).toNat}

/-- The registers and the memory, as a thread has left them. -/
structure Own where
  frame : Asm.IrqFrame
  mem : Mem

structure Machine (P Q : Type) where
  cpu : Asm.Cpu
  sched : Sched P Q Asm.IrqFrame
  /-- The threads that were constructed and handed to the scheduler. -/
  added : List P
  own : P → Own
  fresh : P → Option (Bool × Start Q)

inductive Action (P Q : Type) where
  /-- The executing code changes registers and memory. -/
  | run (cpu : Asm.Cpu)
  | tick (clobber : Asm.Cpu → Asm.Cpu)
  /-- A step on the way out of a tick. -/
  | leave
  /-- `ThreadBlock`, and `add_ready_threads`. -/
  | create (t : P) (start : Start Q)

/-- The way out of a tick, past `eoi(0)`. -/
structure WayOut where
  /-- What is left of `isr_timer` and its callers, with the return to the stub. -/
  back : Asm.Cpu → Asm.Cpu
  /-- Where the code is: 0 is behind `eoi(0)`, and `k + 1` is the instruction `k` of `Asm.irqExit`. -/
  rip : Nat → Word
  distinct : ∀ i < Asm.irqExit.length + 1, ∀ j < Asm.irqExit.length + 1, rip i = rip j → i = j
  /-- A return writes no memory, and leaves the interrupt flag. -/
  keeps : ∀ c, (back c).mem = c.mem ∧ (back c).tssRsp0 = c.tssRsp0 ∧
    (back c).rflags.getLsbD 9 = c.rflags.getLsbD 9

namespace WayOut

/-- How far out an address is, if it is on the way out. -/
def place (w : WayOut) (rip : Word) : Option Nat :=
  (List.range (Asm.irqExit.length + 1)).find? (w.rip · = rip)

/-- The functions return, or the stub executes one instruction. -/
def step (w : WayOut) (c : Asm.Cpu) : Outcome Asm.Cpu :=
  match w.place c.rip with
  | none => .error .halted
  | some 0 => .ok { w.back c with rip := w.rip 1 }
  | some (k + 1) =>
    match Asm.irqExit[k]? with
    | some (.op o) => .ok { c.exec o with rip := w.rip (k + 2) }
    | some (.jz skip) => .ok { c with rip := w.rip (k + 2 + if c.zf then skip else 0) }
    | some .iretq => .ok c.iretq
    | _ => .error .halted

end WayOut

namespace Machine

/-! ## A tick -/

/-- `isr_timer` up to `eoi(0)`, if the scheduler makes `left` of the frame `found` and leaves the interrupt
flag as `interruptFlag` says. -/
def isrTimer (w : WayOut) (clobber : Asm.Cpu → Asm.Cpu) (found left : Asm.IrqFrame) (tssRsp0 : Word)
    (interruptFlag : Bool) : Asm.Callee := fun c =>
  if (Asm.IrqFrame.at_ c.mem (c.reg .rdi)).words = found.words then
    .ok { (clobber c) with
      mem := storeWords (clobber c).mem (c.reg .rdi).toNat left.words
      tssRsp0 := tssRsp0
      rflags := if interruptFlag then (clobber c).rflags ||| 0x200 else (clobber c).rflags &&& ~~~0x200
      rip := w.rip 0 }
  else .error .halted

/-- The timer's interrupt, from its delivery to `eoi(0)`. `isr_timer` checks that the frame it finds is the
one the scheduler works on. -/
def tick (w : WayOut) (fuel : Nat) (ret : Word) (clobber : Asm.Cpu → Asm.Cpu) (m : Machine P Q) :
    Outcome (Machine P Q) := do
  let frame := m.cpu.irqFrame 0
  let r ← m.sched.pitTick fuel frame
  let isr := isrTimer w clobber frame r.1 r.2.tssRsp0 r.2.interruptFlag
  let call ← Asm.Cpu.through (Asm.irqEnter 32) 0 (m.cpu.deliver 32 0)
  let cpu ← Asm.archInterruptHandler (fun _ => none) isr (fun c => .ok c.ret) (call.push ret)
  return { m with cpu := cpu, sched := r.2 }

/-- A step on the way out. -/
def leave (w : WayOut) (m : Machine P Q) : Outcome (Machine P Q) := do
  let cpu ← w.step m.cpu
  return { m with cpu := cpu }

/-- The constructor of `t` and `add_ready_threads`. -/
def create (st : Stacks P) (t : P) (start : Start Q) (m : Machine P Q) : Machine P Q :=
  let isUser := (m.sched.process start.process).isUser
  let registers := start.registers isUser (st.top t)
  let mem := Start.memory isUser (st.top t) m.cpu.mem
  let block := ThreadBlock.construct (st.top t) registers start.process
  { cpu := { m.cpu with mem := mem }
    sched := (m.sched.mapCore (·.modify t fun _ => block)).addReadyThreads t
    added := t :: m.added
    own := Function.update m.own t ⟨registers, mem⟩
    fresh := Function.update m.fresh t (some (isUser, start)) }

/-- The executing thread has come to `cpu`. -/
def run (cpu : Asm.Cpu) (m : Machine P Q) : Machine P Q :=
  match m.sched.currThread with
  | none => { m with cpu := cpu }
  | some cur => { m with
      cpu := cpu
      own := Function.update m.own cur ⟨cpu.irqFrame 0, cpu.mem⟩
      fresh := Function.update m.fresh cur none }

def next (st : Stacks P) (w : WayOut) (fuel : Nat) (ret : Word) (m : Machine P Q) :
    Action P Q → Outcome (Machine P Q)
  | .run cpu => .ok (m.run cpu)
  | .tick clobber => m.tick w fuel ret clobber
  | .leave => m.leave w
  | .create t start => .ok (m.create st t start)

/-! ## Runs -/

/-- A thread that there is. -/
def Knows (m : Machine P Q) (t : P) : Prop := t = m.sched.idleThread ∨ t ∈ m.added

/-- Registers that a thread may have: in the kernel it is on its own stack, with room for an
interrupt. -/
def Fits (st : Stacks P) (t : P) (cs rsp : Word) : Prop :=
  cs &&& 3 = 0 → st.bottom t + 4096 ≤ rsp.toNat ∧ rsp.toNat ≤ (st.top t).toNat

/-- What `isr_timer`, called at `c`, does besides, and how it will return: at `r` it is behind `eoi(0)`, and
it has used the stack below. From there it keeps the registers of its caller, as long as its stack is
what it has made of it. -/
structure Clobbers (w : WayOut) (c r : Asm.Cpu) : Prop where
  mem : Set.EqOn r.mem c.mem (Set.Ico ((c.reg .rsp).toNat - 2048) (c.reg .rsp).toNat)ᶜ
  preserves : ∀ e : Asm.Cpu, e.reg = r.reg →
    Set.EqOn e.mem r.mem (Set.Ico ((c.reg .rsp).toNat - 2048) ((c.reg .rsp).toNat + 8)) →
      Asm.Cpu.Preserves c (w.back e)

/-- The processor is not on the way out of a tick. -/
def Out (w : WayOut) (m : Machine P Q) : Prop := w.place m.cpu.rip = none

instance (w : WayOut) (m : Machine P Q) : Decidable (m.Out w) :=
  inferInstanceAs (Decidable (w.place m.cpu.rip = none))

/-- Whose turn it is: the way out is no code of a thread, and is not left but by its last step. -/
def Allowed (st : Stacks P) (w : WayOut) (m : Machine P Q) : Action P Q → Prop
  | .run cpu => m.Out w ∧ w.place cpu.rip = none ∧ ∀ cur, m.sched.currThread = some cur →
      Fits st cur cpu.cs (cpu.reg .rsp) ∧
      (cur = m.sched.idleThread → cpu.cs &&& 3 = 0) ∧
      cpu.tssRsp0 = m.cpu.tssRsp0 ∧
      ∀ u, m.Knows u → u ≠ cur → Set.EqOn cpu.mem m.cpu.mem (st.live u (m.own u).frame)
  | .tick clobber => m.cpu.rflags.getLsbD 9 = true ∧ ∀ c, Clobbers w c (clobber c)
  | .leave => True
  | .create t start => m.Out w ∧ w.place start.entry = none ∧ ¬ m.Knows t

/-- The end of `kmain`, as the idle thread of a new scheduler. -/
structure Boots (st : Stacks P) (w : WayOut) (m : Machine P Q) : Prop where
  sched : ∃ idle s, m.sched = Sched.construct idle s
  added : m.added = []
  out : m.Out w
  ring : m.cpu.cs &&& 3 = 0
  fits : Fits st m.sched.idleThread m.cpu.cs (m.cpu.reg .rsp)
  own : m.own m.sched.idleThread = ⟨m.cpu.irqFrame 0, m.cpu.mem⟩
  fresh : ∀ t, m.fresh t = none

def runs (st : Stacks P) (w : WayOut) (fuel : Nat) (ret : Word) :
    System (Machine P Q) (Action P Q) :=
  .guarded (Boots st w) (Allowed st w) (next st w fuel ret)

/-- Not a tick on the way out of a tick. -/
def Waits (w : WayOut) (m : Machine P Q) : Action P Q → Prop
  | .tick _ => m.Out w
  | _ => True

/-- The runs in which no tick comes between `eoi(0)` and `iretq`. -/
def unnested (st : Stacks P) (w : WayOut) (fuel : Nat) (ret : Word) :
    System (Machine P Q) (Action P Q) :=
  (runs st w fuel ret).restrict (Waits w)

end Machine

end TwoKernel.Preempt
