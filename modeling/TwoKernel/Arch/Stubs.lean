import TwoKernel.Arch.Cpu

/-!
# The stubs and their frames

`stub` of `isr.s` and `syscall_hanlder` of `syscall.s`, instruction by instruction,
and the structures through which C++ sees what they have pushed. Both structures
consist of eight-byte members without gaps.

A C++ function is modelled on the processor: it gets its argument in `rdi`. What
`do_syscall_64` itself keeps on the stack while it calls a handler is left out.
-/

namespace TwoKernel

namespace Asm

open ByteMem WordStack

/-- A function that is called with a frame. -/
abbrev Callee := Cpu → Outcome Cpu

/-! ## Interrupts -/

/-- `struct IrqFrame`. -/
@[ext] structure IrqFrame where
  r15 : Word
  r14 : Word
  r13 : Word
  r12 : Word
  r11 : Word
  r10 : Word
  r9 : Word
  r8 : Word
  rbp : Word
  rsi : Word
  rdi : Word
  rdx : Word
  rcx : Word
  rbx : Word
  rax : Word
  error : Word
  rip : Word
  cs : Word
  rflags : Word
  rsp : Word
  ss : Word

/-- The frame at an address. -/
def IrqFrame.at_ (m : Mem) (a : Word) : IrqFrame where
  r15 := word m a 0
  r14 := word m a 1
  r13 := word m a 2
  r12 := word m a 3
  r11 := word m a 4
  r10 := word m a 5
  r9 := word m a 6
  r8 := word m a 7
  rbp := word m a 8
  rsi := word m a 9
  rdi := word m a 10
  rdx := word m a 11
  rcx := word m a 12
  rbx := word m a 13
  rax := word m a 14
  error := word m a 15
  rip := word m a 16
  cs := word m a 17
  rflags := word m a 18
  rsp := word m a 19
  ss := word m a 20

/-- What the stub saves, in order. -/
def irqSaved : List Reg :=
  [.rax, .rbx, .rcx, .rdx, .rdi, .rsi, .rbp, .r8, .r9, .r10, .r11, .r12, .r13, .r14, .r15]

/-- What the stub restores, in order. -/
def irqRestored : List Reg :=
  [.r15, .r14, .r13, .r12, .r11, .r10, .r9, .r8, .rbp, .rsi, .rdi, .rdx, .rcx, .rbx, .rax]

open Instr in
/-- The stub of vector `i`, up to its call. -/
def irqEnter (i : BitVec 8) : List Instr :=
  (if i ≠ 8 ∧ i ≠ 10 ∧ i ≠ 11 ∧ i ≠ 12 ∧ i ≠ 13 ∧ i ≠ 14 ∧ i ≠ 17 ∧ i ≠ 21 ∧ i ≠ 29 ∧ i ≠ 30 then
    [op (.pushImm 0)] else []) ++
  [op (.testb 3 16), jz 1, op .swapgs, op .cld] ++
  irqSaved.map (fun r => op (.push r)) ++
  [op (.mov .rsp .rdi), op (.pushAt (16 * 8)), op (.push .rbp), op (.mov .rsp .rbp),
    op (.movImm (i.setWidth 32) .rsi), op (.and (~~~15) .rsp)]

open Instr in
/-- The rest of a stub. -/
def irqExit : List Instr :=
  [op (.mov .rbp .rsp), op (.add 16 .rsp)] ++
  irqRestored.map (fun r => op (.pop r)) ++
  [op (.testb 3 16), jz 1, op .swapgs, op (.add 8 .rsp), iretq]

/-- The stub of vector `i`. -/
def irqStub (ret : Word) (i : BitVec 8) : List Instr := irqEnter i ++ .call ret :: irqExit

/-- `hardware_interrupt_dispatch`. -/
def hardwareInterruptDispatch (isrTimer isrKeyboard : Callee) (irqLine : BitVec 8) : Callee := fun s =>
  if irqLine = 0 then isrTimer s
  else if irqLine = 1 then isrKeyboard s
  else .ok s.ret

/-- `arch_interrupt_handler`, given `irq_handlers`. An exception that none is registered for halts. -/
def archInterruptHandler (irqHandlers : BitVec 32 → Option Callee) (isrTimer isrKeyboard : Callee) :
    Callee := fun s =>
  let vector : BitVec 32 := (s.reg .rsi).setWidth 32
  if vector < 32 then
    match irqHandlers vector with
    | some h => h s
    | none => .error .halted
  else if vector < 48 then
    hardwareInterruptDispatch isrTimer isrKeyboard ((vector - 32).setWidth 8) s
  else .ok s.ret

/-! ## System calls -/

/-- `struct SyscallFrame`. -/
@[ext] structure SyscallFrame where
  rax : Word
  rbx : Word
  rcx : Word
  rdx : Word
  rdi : Word
  rsi : Word
  rbp : Word
  r8 : Word
  r9 : Word
  r10 : Word
  r11 : Word
  r12 : Word
  r13 : Word
  r14 : Word
  r15 : Word

namespace SyscallFrame

/-- The frame at an address. -/
def at_ (m : Mem) (a : Word) : SyscallFrame where
  rax := word m a 0
  rbx := word m a 1
  rcx := word m a 2
  rdx := word m a 3
  rdi := word m a 4
  rsi := word m a 5
  rbp := word m a 6
  r8 := word m a 7
  r9 := word m a 8
  r10 := word m a 9
  r11 := word m a 10
  r12 := word m a 11
  r13 := word m a 12
  r14 := word m a 13
  r15 := word m a 14

def num (f : SyscallFrame) : Word := f.rax

def arg0 (f : SyscallFrame) : Word := f.rdi

def arg1 (f : SyscallFrame) : Word := f.rsi

def arg2 (f : SyscallFrame) : Word := f.rdx

def arg3 (f : SyscallFrame) : Word := f.r10

def arg4 (f : SyscallFrame) : Word := f.r8

def arg5 (f : SyscallFrame) : Word := f.r9

end SyscallFrame

/-- What the stub saves, in order. -/
def syscallSaved : List Reg :=
  [.r15, .r14, .r13, .r12, .r11, .r10, .r9, .r8, .rbp, .rsi, .rdi, .rdx, .rcx, .rbx, .rax]

/-- What the stub restores, in order. -/
def syscallRestored : List Reg :=
  [.rax, .rbx, .rcx, .rdx, .rdi, .rsi, .rbp, .r8, .r9, .r10, .r11, .r12, .r13, .r14, .r15]

open Instr in
def syscallHanlder (ret : Word) : List Instr :=
  [op .swapgs, op (.movToGs .rsp 8), op (.movFromGs 0 .rsp),
    op (.pushGs 8), op (.push .r11), op (.push .rcx)] ++
  syscallSaved.map (fun r => op (.push r)) ++
  [op .cld, op (.mov .rsp .rdi), op (.push .rbp), op (.mov .rsp .rbp), op (.and (~~~15) .rsp),
    call ret, op (.mov .rbp .rsp), op (.pop .rbp)] ++
  syscallRestored.map (fun r => op (.pop r)) ++
  [op (.pop .rcx), op (.pop .r11), op .swapgs, op (.pop .rsp), sysretq]

/-- `MAX_SYSCALLS`. -/
def maxSyscalls : Word := 512

/-- `do_syscall_64`, given `global_syscall`. -/
def doSyscall64 (globalSyscall : Word → Option Callee) : Callee := fun s =>
  let frame := s.reg .rdi
  let syscallNum := (SyscallFrame.at_ s.mem frame).num
  if maxSyscalls ≤ syscallNum then .ok s.ret
  else do
    let fn ← deref (globalSyscall syscallNum)
    let s ← fn s
    -- *frame->ret() = the result, and `rax` is the first member
    .ok (s.write frame (s.reg .rax))

end Asm

end TwoKernel
