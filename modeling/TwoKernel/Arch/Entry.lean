import Mathlib.Logic.Function.Basic
import TwoKernel.Basic
import TwoKernel.Lib.System

/-!
# Entering and leaving the kernel

The interrupt stub of `isr.s`, the system call stub of `syscall.s`, and what of
the processor they depend on: the two GS bases that `swapgs` exchanges, the
interrupt flag, and the code segment that says which ring is executing. The stubs
are modelled instruction by instruction; the timer's handler, from
`arch_interrupt_handler` to `pit_irq_handler`, statement by statement.

What executes is an `Activation`, and below it is what it interrupted: a `Context`
is a kernel stack, the code that is executing first. An interrupt and `syscall` put
an activation on top, `iretq` and `sysretq` take one off. The frame that a stub
saves, and that a handler may replace, is everything below the stub. A thread's
`registers` are such a frame.

A timer interrupt arrives at any boundary with the flag set. Kernel code outside
the stubs may mask and unmask interrupts and take and leave the scheduler's lock;
which thread is current may change wherever the scheduler is called. Nothing but
`swapgs` and `init_syscall` writes the bases. The handlers of system calls bracket
what they do by guards that restore the flag they found, so `do_syscall_64` leaves it
alone.
-/

namespace TwoKernel

namespace Entry

/-- What a GS base can be: the address of `bsp_cpu`, or what ring 3 has. -/
inductive GsBase where
  | bspCpu
  | user
  deriving DecidableEq, Repr

/-- The instructions of the stubs. `plain` is one that leaves the bases, the flag and the control
flow alone: moves, pushes, pops, additions and `cld`. What it does to the zero flag is overwritten
before it is looked at. -/
inductive Instr where
  | plain
  /-- `testb $3, 16(%rsp)`. -/
  | testCs
  | jz (target : Nat)
  | swapgs
  | call
  | iretq
  | sysretq
  deriving DecidableEq, Repr

open Instr in
/-- `stub`, for a vector without an error code. -/
def stub : List Instr :=
  [plain,                                  -- push $0
    testCs, jz 4, swapgs,                  -- testb $3, 16(%rsp); jz 1f; swapgs
    plain] ++                              -- 1: cld
  List.replicate 15 plain ++               -- push %rax, ..., push %r15
  [plain, plain, plain, plain, plain, plain, -- mov; pushq; push; mov; mov; and
    call,                                  -- call arch_interrupt_handler
    plain, plain] ++                       -- mov %rbp, %rsp; add $16, %rsp
  List.replicate 15 plain ++               -- pop %r15, ..., pop %rax
  [testCs, jz 47, swapgs,                  -- testb $3, 16(%rsp); jz 2f; swapgs
    plain, iretq]                          -- 2: add $8, %rsp; iretq

open Instr in
def syscallHanlder : List Instr :=
  [swapgs, plain, plain,                   -- swapgs; movq %rsp, %gs:8; movq %gs:0, %rsp
    plain, plain, plain] ++                -- pushq %gs:8; pushq %r11; pushq %rcx
  List.replicate 15 plain ++               -- push %r15, ..., push %rax
  [plain, plain, plain, plain, plain,      -- cld; mov; push; mov; and
    call,                                  -- call do_syscall_64
    plain, plain] ++                       -- mov %rbp, %rsp; pop %rbp
  List.replicate 15 plain ++               -- pop %rax, ..., pop %r15
  [plain, plain, swapgs,                   -- popq %rcx; popq %r11; swapgs
    plain, sysretq]                        -- popq %rsp; sysretq

/-- The statements of the timer's handler. -/
inductive Stmt where
  | work
  /-- `if (!curr_thread) return`, to what follows the call. -/
  | needThread (otherwise : Nat)
  | lock
  /-- `curr_thread->registers = *frame`. -/
  | save
  /-- The accounting of the tick, in which the current thread may change. -/
  | schedule
  | unlock
  /-- `*frame = curr_thread->registers`. -/
  | load
  | ret
  deriving DecidableEq, Repr

/-- `isr_timer`, with `pit_irq_handler` in its place. -/
def isrTimer : List Stmt :=
  [.work, .needThread 7, .lock, .save, .schedule, .unlock, .load, .work, .ret]

/-- Where some code is. -/
inductive Point where
  /-- Ring 3. -/
  | user
  /-- A kernel thread, outside the stubs. -/
  | kernel
  | stub (pc : Nat)
  | handler (pc : Nat)
  | syscall (pc : Nat)
  | doSyscall64
  deriving DecidableEq, Repr

/-- Code, and its flags. -/
structure Activation where
  point : Point
  interruptFlag : Bool
  zeroFlag : Bool
  deriving DecidableEq, Repr

/-- A kernel stack: what executes, and below it what it interrupted. -/
abbrev Context := List Activation

/-- The top of the stack is ring 3. -/
def Context.isUser : Context → Bool
  | ⟨.user, _, _⟩ :: _ => true
  | _ => false

/-- The `cs` of a frame: `USER_CODE | 3` or `KERNEL_CODE`. -/
def Context.cs (c : Context) : BitVec 8 := if c.isUser then 0x20 ||| 3 else 0x08

/-- `SET_RFLAGS`. -/
def setRflags : Word := 0x202

/-- What `write_msr(MSRSFMASK, …)` sets: the flags that `syscall` clears. -/
def sfmask : Word := 0x700

/-- The type of the gates of hardware interrupts: an interrupt gate, which clears the flag. -/
def gateType : BitVec 4 := 0xE

/-- The bit of the interrupt flag. -/
def ifBit : Nat := 9

/-- The frame a thread is constructed with. -/
def freshFrame (isUser : Bool) : Context :=
  [⟨if isUser then .user else .kernel, setRflags.getLsbD ifBit, false⟩]

/-- The processor, and what the scheduler has of it. `T` are the threads. -/
structure Machine (T : Type) where
  /-- The base in use. -/
  gs : GsBase
  /-- `MSR_KERNEL_GS`. -/
  kernelGs : GsBase
  context : Context
  disableCounter : BitVec 8
  currThread : Option T
  registers : T → Context

/-- What can happen next. -/
inductive Action (T : Type) where
  /-- A timer interrupt arrives. -/
  | timer
  /-- The code that is executing goes on by one step. -/
  | exec
  /-- Ring 3 executes `syscall`. -/
  | syscall
  /-- A kernel thread masks or unmasks interrupts. -/
  | cli
  | sti
  /-- A kernel thread calls `lock_scheduler` or `unlock_scheduler`. -/
  | lock
  | unlock
  /-- The scheduler, wherever it is called, makes a thread the current one. -/
  | switchTo (t : T)
  deriving DecidableEq

namespace Machine

variable {T : Type}

/-- `init_syscall`, as far as the bases go. -/
def initSyscall (m : Machine T) : Machine T := { m with gs := .bspCpu, kernelGs := .user }

def swapgs (m : Machine T) : Machine T := { m with gs := m.kernelGs, kernelGs := m.gs }

/-- `a` goes on at `p`. -/
def goto (p : Point) (a : Activation) (below : Context) (m : Machine T) : Machine T :=
  { m with context := { a with point := p } :: below }

/-- `lock_scheduler`, as far as the flag goes. -/
def lock (p : Point) (a : Activation) (below : Context) (m : Machine T) : Machine T :=
  { m with disableCounter := m.disableCounter + 1 }.goto p { a with interruptFlag := false } below

/-- `unlock_scheduler`, as far as the flag goes. -/
def unlock (p : Point) (a : Activation) (below : Context) (m : Machine T) : Machine T :=
  { m with disableCounter := m.disableCounter - 1 }.goto p
    { a with interruptFlag := if m.disableCounter - 1 = 0 then true else a.interruptFlag } below

/-- An instruction of a stub: `here` are the points of the stub, and `callee` is what it calls. -/
def instr (here : Nat → Point) (callee : Point) (pc : Nat) (a : Activation) (below : Context)
    (m : Machine T) : Instr → Machine T
  | .plain => m.goto (here (pc + 1)) a below
  | .testCs => m.goto (here (pc + 1)) { a with zeroFlag := below.cs &&& 3 = 0 } below
  | .jz target => m.goto (here (if a.zeroFlag then target else pc + 1)) a below
  | .swapgs => m.swapgs.goto (here (pc + 1)) a below
  | .call => m.goto callee a below
  | .iretq => { m with context := below }
  | .sysretq => { m with context := below }

variable [DecidableEq T]

/-- A statement of the timer's handler. -/
def stmt (pc : Nat) (a : Activation) (below : Context) (m : Machine T) :
    Stmt → Option (Machine T)
  | .work => some (m.goto (.handler (pc + 1)) a below)
  | .needThread otherwise =>
    some (m.goto (.handler (if m.currThread = none then otherwise else pc + 1)) a below)
  | .lock => some (m.lock (.handler (pc + 1)) a below)
  | .save => m.currThread.map fun t =>
    { m with registers := Function.update m.registers t below }.goto (.handler (pc + 1)) a below
  | .schedule => some (m.goto (.handler (pc + 1)) a below)
  | .unlock => some (m.unlock (.handler (pc + 1)) a below)
  | .load => m.currThread.map fun t => m.goto (.handler (pc + 1)) a (m.registers t)
  -- back to the instruction after the call
  | .ret => some (m.goto (.stub 27) a below)

/-- The code that is executing goes on by one step. -/
def exec (a : Activation) (below : Context) (m : Machine T) : Option (Machine T) :=
  match a.point with
  | .user => some m
  | .kernel => some m
  | .stub pc => stub[pc]?.map (m.instr .stub (.handler 0) pc a below)
  | .handler pc => isrTimer[pc]?.bind (m.stmt pc a below)
  | .syscall pc => syscallHanlder[pc]?.map (m.instr .syscall .doSyscall64 pc a below)
  | .doSyscall64 => some (m.goto (.syscall 27) a below)

/-- Where the scheduler is called. -/
def inScheduler : Point → Bool
  | .kernel => true
  | .doSyscall64 => true
  | .handler pc => isrTimer[pc]? = some .schedule
  | _ => false

/-- An action, `a` being what executes. -/
def act (a : Activation) (below : Context) (m : Machine T) : Action T → Option (Machine T)
  | .timer =>
    if a.interruptFlag then
      some { m with context := ⟨.stub 0, gateType ≠ 0xE, false⟩ :: a :: below }
    else none
  | .exec => m.exec a below
  | .syscall =>
    if a.point = .user then
      some { m with
        context := ⟨.syscall 0, a.interruptFlag && !sfmask.getLsbD ifBit, false⟩ :: a :: below }
    else none
  | .cli =>
    if a.point = .kernel then some (m.goto .kernel { a with interruptFlag := false } below)
    else none
  | .sti =>
    if a.point = .kernel then some (m.goto .kernel { a with interruptFlag := true } below)
    else none
  | .lock => if a.point = .kernel then some (m.lock .kernel a below) else none
  | .unlock => if a.point = .kernel then some (m.unlock .kernel a below) else none
  | .switchTo t => if inScheduler a.point then some { m with currThread := some t } else none

def step (m : Machine T) (action : Action T) : Option (Machine T) :=
  match m.context with
  | [] => none
  | a :: below => m.act a below action

/-- After `init_syscall`: a kernel thread is executing, and every thread has the frame it was
constructed with. -/
def Booted (m : Machine T) : Prop :=
  m = m.initSyscall ∧ (∃ f z, m.context = [⟨.kernel, f, z⟩]) ∧
    ∀ t, ∃ isUser, m.registers t = freshFrame isUser

/-- **The runs of the machine.** -/
def runs (T : Type) [DecidableEq T] : System (Machine T) (Action T) where
  init := Booted
  step m action m' := m.step action = some m'

end Machine

end Entry

end TwoKernel
