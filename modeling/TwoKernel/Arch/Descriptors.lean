import TwoKernel.Arch.Cpu
import TwoKernel.Lib.ByteFields
import TwoKernel.Lib.Descriptors
import TwoKernel.Lib.System

/-!
# The descriptor tables of the kernel

`gdt.cpp`, `gdt.s` and `idt.cpp`: the tables as bytes in memory, and the processor that reads them.
`Layout` is where the linker has put `idt_table`, `gdt_entries` and `tss`.

`Asm.Cpu.deliver` says what an interrupt does to the registers and the stack. `deliverThrough`
is the same event one level below: the processor looks up the gate, the code segment
it names and the stack of the inner ring in memory, and faults if it does not like what it
finds.

`Selectors` is the part of a context that such lookups are about, its `cs` and `ss`, and
`Selectors.runs` are all the ways they come and go: interrupts, `iretq`, `syscall` and `sysretq`,
the switch to a saved context, and new threads. The vendors' manuals differ in `sysretq`: the ring of
the stack segment is set to 3, or is that of the base in `MSRSTAR`, here 0. So `sysret` is a parameter,
and `ForcesRing` and `KeepsRing` are the two descriptions.

`klog` is left out.
-/

namespace TwoKernel

open ByteMem X86

/-- Where the tables are. -/
structure Layout where
  idtTable : Word
  gdtEntries : Word
  tss : Word
  idt_fits : idtTable.toNat + 4096 ≤ 2 ^ 64
  gdt_fits : gdtEntries.toNat + 56 ≤ 2 ^ 64
  tss_fits : tss.toNat + 104 ≤ 2 ^ 64
  apart : idtTable.toNat + 4096 ≤ gdtEntries.toNat ∨ gdtEntries.toNat + 56 ≤ idtTable.toNat

/-! ## The GDT -/

namespace Gdt

def kernelCode : Word := (0b1011 <<< 8 ||| 1 <<< 12 ||| 0 <<< 13 ||| 1 <<< 15 ||| 1 <<< 21)

def kernelData : Word := (0b0011 <<< 8 ||| 1 <<< 12 ||| 0 <<< 13 ||| 1 <<< 15 ||| 1 <<< 21)

def userData : Word := kernelData ||| 3 <<< 13

def userCode : Word := kernelCode ||| 3 <<< 13

/-- `sizeof(tss) - 1`. -/
def tssLimit : BitVec 16 := 103

/-- The two words of a `TssDescriptor` for a `tss` at `base`. -/
def tssDescriptor (base : Word) : Word × Word :=
  let limit00 : BitVec 16 := tssLimit
  let base0 : BitVec 16 := (base &&& 0xFFFF).setWidth 16
  let base1 : BitVec 8 := (base >>> 16).setWidth 8
  let access : BitVec 8 := 0x89
  let limit1 : BitVec 4 := 0
  let flags : BitVec 4 := 0
  let base2 : BitVec 8 := (base >>> 24).setWidth 8
  let base3 : BitVec 32 := (base >>> 32).setWidth 32
  let reserved : BitVec 32 := 0
  (base2 ++ flags ++ limit1 ++ access ++ base1 ++ base0 ++ limit00, reserved ++ base3)

/-- `gdt_entries`. -/
def entries (tss : Word) : List Word :=
  [0, kernelCode <<< 32, kernelData <<< 32, userData <<< 32, userCode <<< 32,
    (tssDescriptor tss).1, (tssDescriptor tss).2]

end Gdt

/-- `init_gdt_entries`. -/
def Layout.initGdtEntries (l : Layout) (m : Mem) : Mem :=
  storeWords m l.gdtEntries.toNat (Gdt.entries l.tss)

/-- The processor with its table registers and the segments that code does not go through. -/
structure Sys where
  cpu : Asm.Cpu
  tables : Tables
  ds : BitVec 16
  es : BitVec 16
  fs : BitVec 16
  gs : BitVec 16

namespace Sys

def cpl (s : Sys) : BitVec 2 := s.cpu.cs.setWidth 2

/-- `lgdt [a]`, of a `GDTR`. -/
def lgdt (a : Nat) (s : Sys) : Sys :=
  { s with
    tables.gdtLimit := load16 s.cpu.mem a
    tables.gdtBase := load64 s.cpu.mem (a + 2) }

/-- `lidt [a]`, of an `idtr`. -/
def lidt (a : Nat) (s : Sys) : Sys :=
  { s with
    tables.idtLimit := load16 s.cpu.mem a
    tables.idtBase := load64 s.cpu.mem (a + 2) }

def ltr (selector : BitVec 16) (s : Sys) : Option Sys :=
  (s.tables.ltr s.cpu.mem selector).map fun r => { s with tables := r.1, cpu.mem := r.2 }

/-- `mov` of one selector to `ds`, `es`, `fs` and `gs`. -/
def loadData (selector : BitVec 16) (s : Sys) : Option Sys :=
  if s.tables.loadsData s.cpu.mem s.cpl selector then
    some { s with ds := selector, es := selector, fs := selector, gs := selector }
  else none

/-- `mov ss, ax`. -/
def loadStack (selector : BitVec 16) (s : Sys) : Option Sys :=
  if s.tables.loadsStack s.cpu.mem s.cpl selector then
    some { s with cpu.ss := selector.setWidth 64 }
  else none

/-- `retfq` within a ring. -/
def retfq (s : Sys) : Option Sys :=
  let rsp := s.cpu.reg .rsp
  let cs := (s.cpu.read (rsp + 8)).setWidth 16
  if s.tables.loadsCode s.cpu.mem s.cpl cs ∧ cs.setWidth 2 = s.cpl then
    some { s with cpu := { s.cpu.set .rsp (rsp + 16) with rip := s.cpu.read rsp, cs := cs.setWidth 64 } }
  else none

/-- `gdt_flush`, whose `.reload_cs` is at `reloadCs`. -/
def gdtFlush (reloadCs : Word) (s : Sys) : Option Sys := do
  let s := s.lgdt (s.cpu.reg .rdi).toNat
  let s ← s.ltr 0x28
  let s ← s.loadData 0x10
  let s ← s.loadStack 0x10
  let s := { s with cpu := ((s.cpu.push 0x08).set .rax reloadCs).push reloadCs }
  let s ← s.retfq
  -- `ret`
  return { s with cpu := { s.cpu.ret with rip := s.cpu.read (s.cpu.reg .rsp) } }

/-- `refresh`: a `GDTR` in memory at `a`, and the call of `gdt_flush` that returns to `ret`. -/
def refresh (l : Layout) (a ret reloadCs : Word) (s : Sys) : Option Sys :=
  let mem := storePointer s.cpu.mem a.toNat 55 l.gdtEntries
  let cpu := (({ s.cpu with mem := mem } : Asm.Cpu).set .rdi a).push ret
  { s with cpu := cpu }.gdtFlush reloadCs

/-- `idtr_asm_load`: an `idtr` in memory at `a`. -/
def idtrAsmLoad (l : Layout) (a : Word) (s : Sys) : Sys :=
  let mem := storePointer s.cpu.mem a.toNat 4095 l.idtTable
  { s with cpu.mem := mem }.lidt a.toNat

end Sys

/-! ## The IDT -/

namespace Idt

def kernelCode : Byte := 0x08
def kernelData : Byte := 0x10
def userData : Byte := 0x18
def userCode : Byte := 0x20

/-- The handlers of `exceptions.cpp`. -/
inductive Exception where
  | div | debug | nmi | breakpoint | overflow | boundRangeExceeded | invalidOp | deviceNotAvailable
  | doubleFault | coprocSegOverrun | invalidTss | segNotPresent | stackSegFault | gpFault | pagefault
  | x87FloatingPoint | alignmentCheck | machineCheck | simd | virt | controlProtection
  | hypervisorInjection | vmmComm | security
  deriving DecidableEq

/-- `x86_exception_hanlders`. -/
def x86ExceptionHanlders : List (Option Exception) :=
  [some .div, some .debug, some .nmi, some .breakpoint, some .overflow, some .boundRangeExceeded,
    some .invalidOp, some .deviceNotAvailable, some .doubleFault, some .coprocSegOverrun,
    some .invalidTss, some .segNotPresent, some .stackSegFault, some .gpFault, some .pagefault, none,
    some .x87FloatingPoint, some .alignmentCheck, some .machineCheck, some .simd, some .virt,
    some .controlProtection, none, none, none, none, none, none, some .hypervisorInjection,
    some .vmmComm, some .security, none]

/-- `ist_flags`. -/
def istFlags (ist dpl type : Byte) : BitVec 16 :=
  ((ist &&& 0b111).setWidth 32 ||| type.setWidth 32 <<< 8 ||| (dpl &&& 0b11).setWidth 32 <<< 13 |||
    (1 : BitVec 32) <<< 15).setWidth 16

/-- What `set_idt_entries` stores to the entry at `a`. -/
def setEntry (a : Nat) (handler : Word) (ist dpl type : Byte) (m : Mem) : Mem :=
  let m := store16 m a (handler.setWidth 16)
  let m := store16 m (a + 6) ((handler >>> 16).setWidth 16)
  let m := store32 m (a + 8) ((handler >>> 32).setWidth 32)
  let m := store16 m (a + 2) (kernelCode.setWidth 16)
  store16 m (a + 4) (istFlags ist dpl type)

end Idt

/-- `set_idt_entries`. -/
def Layout.setIdtEntries (l : Layout) (index : Byte) (handler : Word) (ist dpl type : Byte) : Mem → Mem :=
  Idt.setEntry (l.idtTable.toNat + 16 * index.toNat) handler ist dpl type

/-- `irq_handlers`. -/
abbrev IrqHandlers := Byte → Option Idt.Exception

/-- `register_exception_handler`. -/
def registerExceptionHandler (n : Byte) (handler : Option Idt.Exception) (handlers : IrqHandlers) :
    Outcome IrqHandlers :=
  if 32 ≤ n then .error .halted else .ok (Function.update handlers n handler)

/-- The body of the second loop of `idt_init`. -/
def Layout.initException (l : Layout) (irqStubs : Byte → Word) (x : Mem × IrqHandlers)
    (e : Option Idt.Exception × Nat) : Outcome (Mem × IrqHandlers) := do
  let i := BitVec.ofNat 8 e.2
  let m := l.setIdtEntries i (irqStubs i) 0 0 0xF x.1
  if e.1.isSome then do
    let handlers ← registerExceptionHandler i e.1 x.2
    return (m, handlers)
  else return (m, x.2)

/-- `idt_init`. -/
def Layout.idtInit (l : Layout) (irqStubs : Byte → Word) (x : Mem × IrqHandlers) :
    Outcome (Mem × IrqHandlers) :=
  let m := (List.range 256).foldl
    (fun m i => l.setIdtEntries (BitVec.ofNat 8 i) (irqStubs (BitVec.ofNat 8 i)) 0 0 0xE m) x.1
  Idt.x86ExceptionHanlders.zipIdx.foldlM (l.initException irqStubs) (m, x.2)

/-- The table registers after `gdt_flush` and `idtr_asm_load`. -/
def Layout.tables (l : Layout) : Tables where
  idtBase := l.idtTable
  idtLimit := 4095
  gdtBase := l.gdtEntries
  gdtLimit := 55
  tssBase := l.tss
  tssLimit := 103

/-- The part of `kmain` that sets the tables up: `init_gdt_entries`, `refresh`, `idt_init` and
`idtr_asm_load`. The two table pointers are at `gdtr` and `idtr`. -/
def Sys.boot (l : Layout) (irqStubs : Byte → Word) (gdtr idtr ret reloadCs : Word) (s : Sys) :
    Option (Sys × IrqHandlers) := do
  let s := { s with cpu.mem := l.initGdtEntries s.cpu.mem }
  let s ← s.refresh l gdtr ret reloadCs
  let r ← (l.idtInit irqStubs (s.cpu.mem, fun _ => none)).toOption
  return ({ s with cpu.mem := r.1 }.idtrAsmLoad l idtr, r.2)

/-- **An interrupt, as the processor finds its way.** -/
def deliverThrough (t : Tables) (vector : BitVec 8) (error : Word) (s : Asm.Cpu) :
    Option Asm.Cpu :=
  (t.enter s.mem (s.cs.setWidth 2) (s.reg .rsp) vector).map fun e =>
    let frame := [s.ss, s.reg .rsp, s.rflags, s.cs, s.rip]
    let frame := if vector ∈ Asm.Cpu.errorVectors then frame ++ [error] else frame
    { (s.set .rsp (e.top &&& ~~~15)).pushAll frame with
      rip := e.rip
      cs := e.cs.setWidth 64
      ss := if e.switched then 0 else s.ss
      rflags := s.rflags &&& ~~~(if e.clearsIf then 0x34300 else 0x34100) }

/-! ## Selectors over whole runs -/

/-- The selectors of a piece of code. -/
structure Selectors where
  cs : BitVec 16
  ss : BitVec 16
  deriving DecidableEq

/-- `star`, as `init_syscall` writes it. -/
def star : Word := (0x08 : Word) <<< 32 ||| (0x10 : Word) <<< 48

namespace Selectors

/-- A frame that the constructor of a thread makes. -/
def construct (isUser : Bool) : Selectors :=
  if isUser then ⟨(Idt.userCode ||| 3).setWidth 16, (Idt.userData ||| 3).setWidth 16⟩
  else ⟨Idt.kernelCode.setWidth 16, Idt.kernelData.setWidth 16⟩

/-- `syscall`, with the segments of `MSRSTAR`. -/
def syscall : Selectors :=
  ⟨(star >>> 32).setWidth 16 &&& ~~~3, (star >>> 32).setWidth 16 + 8⟩

/-- `sysretq`, with the segments of `MSRSTAR`. What the processor makes of their base is `sysret`. -/
def sysretq (sysret : BitVec 16 → Selectors) : Selectors := sysret ((star >>> 48).setWidth 16)

/-- A processor that sets the ring of both segments to 3. -/
def ForcesRing (sysret : BitVec 16 → Selectors) : Prop :=
  ∀ base, sysret base = ⟨(base + 16) ||| 3, (base + 8) ||| 3⟩

/-- A processor that sets the ring of the code segment only. -/
def KeepsRing (sysret : BitVec 16 → Selectors) : Prop :=
  ∀ base, sysret base = ⟨(base + 16) ||| 3, base + 8⟩

/-- What executes, what its handlers return to, and the saved contexts of threads. -/
structure Machine (T : Type) where
  cpu : List Selectors
  thread : T → List Selectors

inductive Action (T : Type) where
  /-- With the memory as it is. -/
  | interrupt (mem : Mem) (rsp : Word) (vector : Byte)
  | iretq (mem : Mem)
  | syscall
  | sysretq
  /-- A handler stores what it was entered with in a thread. -/
  | save (t : T)
  /-- A handler will return to the context of a thread. -/
  | load (t : T)
  | construct (t : T) (isUser : Bool)

namespace Machine

variable {T : Type} [DecidableEq T]

/-- A step, if there is one. The processor refuses some selectors: then it is an error. -/
def next (t : Tables) (sysret : BitVec 16 → Selectors) (x : Machine T) :
    Action T → Option (Outcome (Machine T))
  | .interrupt mem rsp vector =>
    match x.cpu with
    | [] => none
    | a :: frames =>
      some (match t.enter mem (a.cs.setWidth 2) rsp vector with
        | none => .error .halted
        | some e => .ok { x with cpu := ⟨e.cs, if e.switched then 0 else a.ss⟩ :: a :: frames })
  | .iretq mem =>
    match x.cpu with
    | a :: b :: frames =>
      if a.cs.setWidth 2 = (0 : BitVec 2) then
        some (if t.returns mem (a.cs.setWidth 2) b.cs b.ss then .ok { x with cpu := b :: frames }
          else .error .halted)
      else none
    | _ => none
  | .syscall =>
    match x.cpu with
    | a :: frames =>
      if a.cs.setWidth 2 = (3 : BitVec 2) then
        some (.ok { x with cpu := Selectors.syscall :: frames })
      else none
    | [] => none
  | .sysretq =>
    match x.cpu with
    | a :: frames =>
      if a.cs.setWidth 2 = (0 : BitVec 2) then
        some (.ok { x with cpu := Selectors.sysretq sysret :: frames })
      else none
    | [] => none
  | .save u =>
    match x.cpu with
    | _ :: b :: frames => some (.ok { x with thread := Function.update x.thread u (b :: frames) })
    | _ => none
  | .load u =>
    match x.cpu with
    | a :: _ :: _ => some (.ok { x with cpu := a :: x.thread u })
    | _ => none
  | .construct u isUser =>
    some (.ok { x with thread := Function.update x.thread u [Selectors.construct isUser] })

end Machine

/-- The memory at an action is one of those of `P`. -/
def Action.On {T : Type} (P : Mem → Prop) : Action T → Prop
  | .interrupt mem _ _ | .iretq mem => P mem
  | _ => True

/-- All runs from the end of the boot, with constructed threads. -/
def runs (T : Type) [DecidableEq T] (t : Tables) (sysret : BitVec 16 → Selectors) (P : Mem → Prop) :
    System (Machine T) (Action T) where
  init x := x.cpu = [⟨0x08, 0x10⟩] ∧ ∀ u, ∃ isUser, x.thread u = [Selectors.construct isUser]
  step x i x' := i.On P ∧ x.next t sysret i = some (.ok x')

end Selectors

end TwoKernel
