import TwoKernel.Basic
import TwoKernel.Lib.Stack

/-!
# The processor, as the stubs see it

The registers, the stack in memory, and the instructions of `isr.s` and `syscall.s`
with their operands. Where `Entry` follows which stub is executing and what it does
to the GS bases, this follows what is in every register.

A function that a stub calls is a step of its own: it is given the processor at its
first instruction, with the return address on the stack, and returns it after its
`ret`; or it does not return. Of the status flags only the zero flag is modelled, as
no other one is looked at.

`iretq` and `sysretq` are taken to load what they find. The processor checks selectors
and addresses first and faults on some, and it forces some bits: those of `rflags` that
are reserved or that the ring may not change, and the ring of the selectors of
`sysretq`. None of it is modelled here, so what is said of a return is said of one that
the processor accepts and whose flags it keeps. `Arch.Descriptors` has the checks of
selectors.
-/

namespace TwoKernel

namespace Asm

open ByteMem

/-- The general registers. -/
inductive Reg where
  | rax | rbx | rcx | rdx | rsi | rdi | rbp | rsp
  | r8 | r9 | r10 | r11 | r12 | r13 | r14 | r15
  deriving DecidableEq, Repr

structure Cpu where
  reg : Reg → Word
  rip : Word
  cs : Word
  rflags : Word
  ss : Word
  /-- The base in use, and `MSRKGSBASE`. -/
  gsBase : Word
  kernelGsBase : Word
  /-- `tss.rsp0`. -/
  tssRsp0 : Word
  mem : Mem

namespace Cpu

def read (a : Word) (s : Cpu) : Word := load64 s.mem a.toNat

def write (a v : Word) (s : Cpu) : Cpu := { s with mem := store64 s.mem a.toNat v }

def set (r : Reg) (v : Word) (s : Cpu) : Cpu := { s with reg := Function.update s.reg r v }

def push (v : Word) (s : Cpu) : Cpu := (s.set .rsp (s.reg .rsp - 8)).write (s.reg .rsp - 8) v

/-- `push` of each of `vs`. -/
def pushAll (vs : List Word) (s : Cpu) : Cpu := vs.foldl (fun s v => s.push v) s

/-- The stack pointer is advanced first, so that `pop %rsp` has the last word. -/
def pop (r : Reg) (s : Cpu) : Cpu := (s.set .rsp (s.reg .rsp + 8)).set r (s.read (s.reg .rsp))

/-- The zero flag, and the direction flag. -/
def zfMask : Word := 0x40

@[inherit_doc zfMask]
def dfMask : Word := 0x400

def zf (s : Cpu) : Bool := s.rflags &&& zfMask ≠ 0

def setZf (b : Bool) (s : Cpu) : Cpu :=
  { s with rflags := if b then s.rflags ||| zfMask else s.rflags &&& ~~~zfMask }

end Cpu

/-- The instructions that only go on to the next one. -/
inductive Op where
  | pushImm (v : Word)
  | push (r : Reg)
  /-- `pushq offset(%rsp)`. -/
  | pushAt (offset : Word)
  /-- `pushq %gs:offset`. -/
  | pushGs (offset : Word)
  | pop (r : Reg)
  | mov (src dst : Reg)
  /-- `mov` to the lower half of a register, which clears the upper half. -/
  | movImm (v : BitVec 32) (dst : Reg)
  /-- `movq %src, %gs:offset`. -/
  | movToGs (src : Reg) (offset : Word)
  /-- `movq %gs:offset, %dst`. -/
  | movFromGs (offset : Word) (dst : Reg)
  | and (mask : Word) (r : Reg)
  | add (v : Word) (r : Reg)
  /-- `testb $mask, offset(%rsp)`. -/
  | testb (mask : Byte) (offset : Word)
  | swapgs
  | cld
  deriving DecidableEq, Repr

inductive Instr where
  | op (o : Op)
  /-- Jump over that many instructions. -/
  | jz (skip : Nat)
  /-- `ret` is the address of the next instruction. -/
  | call (ret : Word)
  | iretq
  | sysretq
  deriving DecidableEq, Repr

namespace Cpu

/-- An instruction that only goes on to the next one. -/
def exec (s : Cpu) : Op → Cpu
  | .pushImm v => s.push v
  | .push r => s.push (s.reg r)
  | .pushAt offset => s.push (s.read (s.reg .rsp + offset))
  | .pushGs offset => s.push (s.read (s.gsBase + offset))
  | .pop r => s.pop r
  | .mov src dst => s.set dst (s.reg src)
  | .movImm v dst => s.set dst (v.setWidth 64)
  | .movToGs src offset => s.write (s.gsBase + offset) (s.reg src)
  | .movFromGs offset dst => s.set dst (s.read (s.gsBase + offset))
  | .and mask r => (s.set r (s.reg r &&& mask)).setZf (s.reg r &&& mask = 0)
  | .add v r => (s.set r (s.reg r + v)).setZf (s.reg r + v = 0)
  | .testb mask offset => s.setZf (s.mem (s.reg .rsp + offset).toNat &&& mask = 0)
  | .swapgs => { s with gsBase := s.kernelGsBase, kernelGsBase := s.gsBase }
  | .cld => { s with rflags := s.rflags &&& ~~~dfMask }

/-- `iretq`: `rip`, `cs`, `rflags`, `rsp` and `ss` from the stack, unchecked. -/
def iretq (s : Cpu) : Cpu :=
  { s.set .rsp (s.read (s.reg .rsp + 24)) with
    rip := s.read (s.reg .rsp)
    cs := s.read (s.reg .rsp + 8)
    rflags := s.read (s.reg .rsp + 16)
    ss := s.read (s.reg .rsp + 32) }

/-- `sysretq`, with the segments of `MSRSTAR`, and `rip` and `rflags` unchecked. -/
def sysretq (s : Cpu) : Cpu :=
  { s with rip := s.reg .rcx, rflags := s.reg .r11, cs := 0x23, ss := 0x1b }

/-- The end of a function: the return address is taken off the stack. -/
def ret (s : Cpu) : Cpu := s.set .rsp (s.reg .rsp + 8)

variable (callee : Cpu → Outcome Cpu)

/-- The instructions of a stub up to the one that leaves it, the first `skip` of them jumped over. A
stub has nothing behind its end. -/
def run : List Instr → Nat → Cpu → Outcome Cpu
  | [], _, _ => .error .halted
  | _ :: code, skip + 1, s => run code skip s
  | .op o :: code, 0, s => run code 0 (s.exec o)
  | .jz skip :: code, 0, s => run code (if s.zf then skip else 0) s
  | .call ret :: code, 0, s => callee (s.push ret) >>= run code 0
  | .iretq :: _, 0, s => .ok s.iretq
  | .sysretq :: _, 0, s => .ok s.sysretq

/-- The instructions of a piece of a stub, gone through to its end. -/
def through : List Instr → Nat → Cpu → Outcome Cpu
  | [], 0, s => .ok s
  | _ :: code, skip + 1, s => through code skip s
  | .op o :: code, 0, s => through code 0 (s.exec o)
  | .jz skip :: code, 0, s => through code (if s.zf then skip else 0) s
  | _, _, _ => .error .halted

/-! ## Into the kernel -/

/-- The vectors for which the processor pushes an error code. -/
def errorVectors : List (BitVec 8) := [8, 10, 11, 12, 13, 14, 17, 21, 29, 30]

instance (vector : BitVec 8) : Decidable (vector ∈ errorVectors) :=
  List.instDecidableMemOfLawfulBEq vector errorVectors

/-- An interrupt is delivered: the processor takes the stack of the kernel if it comes from ring 3, and
aligns it. `TF`, `NT`, `RF` and `VM` are cleared, and the interrupt flag unless the gate is a trap gate,
as those below 32 are. -/
def deliver (vector : BitVec 8) (error : Word) (s : Cpu) : Cpu :=
  let top := if s.cs &&& 3 = 0 then s.reg .rsp else s.tssRsp0
  let frame := [s.ss, s.reg .rsp, s.rflags, s.cs, s.rip]
  let frame := if vector ∈ errorVectors then frame ++ [error] else frame
  { (s.set .rsp (top &&& ~~~15)).pushAll frame with
    cs := 0x08
    ss := if s.cs &&& 3 = 0 then s.ss else 0
    rflags := s.rflags &&& ~~~(if vector < 32 then 0x34100 else 0x34300) }

/-- `syscall`, with the segments of `MSRSTAR` and the mask of `MSRSFMASK`. -/
def syscall (s : Cpu) : Cpu :=
  { (s.set .rcx s.rip).set .r11 s.rflags with
    rflags := s.rflags &&& ~~~0x700, cs := 0x08, ss := 0x10 }

end Cpu

end Asm

end TwoKernel
