import TwoKernel.Lib.Pic8259
import TwoKernel.Lib.System
import TwoKernel.Drivers.Ps2
import TwoKernel.Proc.Scheduler

/-!
# Hardware interrupts

`system/irq.cpp`, with the boot that programs the controllers (`exception_load`, `timer_init`,
`keyboard_init`) and the two handlers (`isr_timer`, `isr_keyboard`). The controllers are a
`Pic8259.Pair`, the scheduler and the keyboard are the ones of `Proc` and `Drivers`.

The processor is what it executes, with its interrupt flag, and below that what its handlers will
return to. That is also what a frame is here: the scheduler copies contexts, so
`pit_irq_handler` stores what the interrupt found in the current thread and leaves another
thread's context to return to. The handler is not one step. `unlock_scheduler` sets the
interrupt flag, and `*frame = curr_thread->registers` and `eoi(0)` are still to come;
`pit_irq_handler` as a whole is kept in `ticked`, which nothing reads.

Devices move their lines at any time. The processor notices the output of the controllers
between two statements with the flag set and acknowledges afterwards; a line that
was lowered in the meantime gives a spurious interrupt.

Code that is neither boot nor a handler does what it likes: it sets and clears the flag, it
does anything to the scheduler, where the context of a thread is left or is one that starts, and
it may raise an exception whose handler returns to a thread's context.

The non-maskable interrupt is left out, as is `increase_time`, whose results nothing here reads.
`1 << irq_line` is undefined in C++ for a line from 40 on; the instruction takes the count modulo
32, and so does `lineBits`.
-/

namespace TwoKernel.Irq

open Pic8259

attribute [local instance] Pic8259.neZero_eight

def masterCmd : BitVec 16 := 0x20
def masterData : BitVec 16 := 0x21
def slaveCmd : BitVec 16 := 0xA0
def slaveData : BitVec 16 := 0xA1
def beginInit : Byte := 0x11
def icw3Master : Byte := 0x04
def icw3Slave : Byte := 0x02
def icw4Mode8086 : Byte := 0x01
def irqMaster : Byte := 0x20
def irqSlave : Byte := 0x28

/-- Statements that reach the controllers or the interrupt flag. -/
inductive Op where
  | outb (port : BitVec 16) (value : Byte)
  /-- `value = inb(port)`. -/
  | inb (port : BitVec 16)
  /-- `value |= bits; outb(port, value)`. -/
  | orOut (port : BitVec 16) (bits : Byte)
  /-- `value &= ~bits; outb(port, value)`. -/
  | andOut (port : BitVec 16) (bits : Byte)
  | cli
  | sti
  deriving DecidableEq

/-- `pic_remap`. -/
def picRemap : List Op :=
  [.outb masterCmd beginInit, .outb slaveCmd beginInit,
    .outb masterData irqMaster, .outb slaveData irqSlave,
    .outb masterData icw3Master, .outb slaveData icw3Slave,
    .outb masterData icw4Mode8086, .outb slaveData icw4Mode8086]

/-- `eoi`. -/
def eoi (vector : Byte) : List Op :=
  (if 8 ≤ vector then [.outb slaveCmd 0x20] else []) ++ [.outb masterCmd 0x20]

/-- The data port that a line belongs to, and its number there. -/
def wiredTo (irqLine : Byte) : BitVec 16 × Byte :=
  if irqLine < 8 then (masterData, irqLine) else (slaveData, irqLine - 8)

/-- `1 << irq_line`, in the byte that is written. -/
def lineBits (irqLine : Byte) : Byte := ((1 : BitVec 32) <<< (irqLine.toNat % 32)).setWidth 8

/-- `irq_mask`. -/
def irqMask (irqLine : Byte) : List Op :=
  let w := wiredTo irqLine
  [.inb w.1, .orOut w.1 (lineBits w.2)]

/-- `irq_unmask`. -/
def irqUnmask (irqLine : Byte) : List Op :=
  let w := wiredTo irqLine
  [.inb w.1, .andOut w.1 (lineBits w.2)]

/-- `idtr_asm_load`, around its `lidt`. -/
def idtrAsmLoad : List Op := [.cli, .sti]

/-- `exception_load`. -/
def exceptionLoad : List Op :=
  picRemap ++ (List.range 16).flatMap (fun i => irqMask (BitVec.ofNat 8 i)) ++ idtrAsmLoad

/-- `timer_init`. -/
def timerInit : List Op := irqUnmask 0

/-- `keyboard_init`. -/
def keyboardInit : List Op := irqUnmask 1

/-- What `kmain` does to the controllers. -/
def boot : List Op := exceptionLoad ++ timerInit ++ keyboardInit

/-- What a statement works on; `value` is the local variable. -/
structure Ports where
  pics : Pair
  value : Byte
  interrupts : Bool

def Op.exec (s : Ports) : Op → Ports
  | .outb port value => { s with pics := s.pics.outb port value }
  | .inb port => { s with value := s.pics.inb port }
  | .orOut port bits =>
    { s with value := s.value ||| bits, pics := s.pics.outb port (s.value ||| bits) }
  | .andOut port bits =>
    { s with value := s.value &&& ~~~bits, pics := s.pics.outb port (s.value &&& ~~~bits) }
  | .cli => { s with interrupts := false }
  | .sti => { s with interrupts := true }

/-- Where some code is. -/
inductive Code where
  /-- `ops` of the boot are left; past them it is any other code. -/
  | main (ops : List Op) (value : Byte)
  /-- `isr_timer`, up to the end of `unlock_scheduler`. -/
  | isrTimer
  /-- `*frame = curr_thread->registers`. -/
  | copyFrame
  /-- `on_recieve(read_data())`. -/
  | isrKeyboard
  /-- `eoi(line)`, of which `ops` are left, and then the end of the interrupt. -/
  | eoi (line : Fin 8) (ops : List Op)
  /-- A vector that nothing is done for. -/
  | leave
  /-- `irq_handlers[vector]`. -/
  | exception (vector : Byte)
  deriving DecidableEq

structure Activation where
  code : Code
  interrupts : Bool
  deriving DecidableEq

/-- What executes, and below it what it returns to. -/
abbrev Context := List Activation

/-- `hardware_interrupt_dispatch`. -/
def hardwareInterruptDispatch (irqLine : Byte) : Code :=
  if irqLine = 0 then .isrTimer
  else if irqLine = 1 then .isrKeyboard
  else .leave

/-- `arch_interrupt_handler`. -/
def archInterruptHandler (vector : Byte) : Code :=
  if vector < 32 then .exception vector
  else if vector < 48 then hardwareInterruptDispatch (vector - 32)
  else .leave

/-- Behind its gate: those of exceptions are trap gates and leave the interrupt flag. -/
def enter (vector : Byte) (interrupts : Bool) : Activation :=
  ⟨archInterruptHandler vector, if vector < 32 then interrupts else false⟩

structure Machine (P Q : Type) where
  pics : Pair
  /-- The processor has seen the output of the controllers and will acknowledge. -/
  noticed : Bool
  sched : Sched P Q Context
  keyboard : Ps2Keyboard
  cpu : Context
  /-- What `pit_irq_handler` last was as a whole. -/
  ticked : Option (Context × Sched P Q Context)

/-- What can happen. -/
inductive Action (P Q : Type) where
  | wire (line : Fin 16) (high : Bool)
  | notice
  | acknowledge
  /-- The next statement; `data` is what the data port of the keyboard reads. -/
  | go (data : Byte)
  | setInterrupts (flag : Bool)
  /-- Other code changes the scheduler. -/
  | other (sched : Sched P Q Context)
  /-- The handler of an exception returns to the context of a thread. -/
  | resume (t : P)

/-- The context of a thread that has not run. -/
def Starts (context : Context) : Prop := ∃ interrupts, context = [⟨.main [] 0, interrupts⟩]

namespace Machine

variable {P Q : Type} [DecidableEq P] [DecidableEq Q]

/-- The next statement. -/
def go (fuel : Nat) (data : Byte) (m : Machine P Q) : Option (Machine P Q) :=
  match m.cpu with
  | [] => none
  | ⟨.main [] _, _⟩ :: _ => none
  | ⟨.main (op :: ops) value, interrupts⟩ :: frame =>
    let r := op.exec ⟨m.pics, value, interrupts⟩
    some { m with pics := r.pics, cpu := ⟨.main ops r.value, r.interrupts⟩ :: frame }
  | ⟨.isrTimer, interrupts⟩ :: frame =>
    match (m.sched.mapCore fun c => { c with interruptFlag := interrupts }).pitTick fuel frame with
    | .error _ => none
    | .ok r =>
      -- without a current thread `pit_irq_handler` has returned at once
      let code := if m.sched.currThread.isSome then .copyFrame else .eoi 0 (eoi 0)
      some { m with sched := r.2, ticked := some r, cpu := ⟨code, r.2.interruptFlag⟩ :: frame }
  | ⟨.copyFrame, interrupts⟩ :: _ =>
    match m.sched.currThread with
    | none => none
    | some cur =>
      some { m with cpu := ⟨.eoi 0 (eoi 0), interrupts⟩ :: (m.sched.thread cur).registers }
  | ⟨.isrKeyboard, interrupts⟩ :: frame =>
    match m.keyboard.onRecieve data with
    | .error _ => none
    | .ok k => some { m with keyboard := k, cpu := ⟨.eoi 1 (eoi 1), interrupts⟩ :: frame }
  | ⟨.eoi line (op :: ops), interrupts⟩ :: frame =>
    let r := op.exec ⟨m.pics, 0, interrupts⟩
    some { m with pics := r.pics, cpu := ⟨.eoi line ops, r.interrupts⟩ :: frame }
  | ⟨.eoi _ [], _⟩ :: frame => if frame = [] then none else some { m with cpu := frame }
  | ⟨.leave, _⟩ :: frame => if frame = [] then none else some { m with cpu := frame }
  | ⟨.exception _, _⟩ :: _ => none

/-- Code other than the boot and the handlers is executing. -/
def elsewhere (m : Machine P Q) : Bool :=
  match m.cpu with
  | ⟨.main [] _, _⟩ :: _ => true
  | _ => false

def next (fuel : Nat) (m : Machine P Q) : Action P Q → Option (Machine P Q)
  | .wire line high => some { m with pics := m.pics.wire line high }
  | .notice =>
    match m.cpu with
    | [] => none
    | a :: _ => if a.interrupts ∧ m.pics.int then some { m with noticed := true } else none
  | .acknowledge =>
    match m.cpu with
    | [] => none
    | a :: frame =>
      if m.noticed then
        let r := m.pics.acknowledge
        some { m with pics := r.2, noticed := false, cpu := enter r.1 a.interrupts :: a :: frame }
      else none
  | .go data => if m.noticed then none else m.go fuel data
  | .setInterrupts flag =>
    match m.cpu with
    | ⟨.main [] value, _⟩ :: frame =>
      if m.noticed then none else some { m with cpu := ⟨.main [] value, flag⟩ :: frame }
    | _ => none
  | .other sched => if m.noticed ∨ ¬ m.elsewhere then none else some { m with sched := sched }
  | .resume t =>
    if m.noticed ∨ ¬ m.elsewhere then none else some { m with cpu := (m.sched.thread t).registers }

/-- Other code leaves the contexts of threads, or makes one that starts. -/
def Allowed (m : Machine P Q) : Action P Q → Prop
  | .other sched => ∀ t, (sched.thread t).registers = (m.sched.thread t).registers ∨
      Starts (sched.thread t).registers
  | _ => True

/-- `kmain` begins with interrupts off and nothing in service. What the controllers are set to is
not said. -/
structure Boots (m : Machine P Q) : Prop where
  master : m.pics.master.isr = 0
  slave : m.pics.slave.isr = 0
  cpu : m.cpu = [⟨.main boot 0, false⟩]
  quiet : m.noticed = false
  threads : ∀ t, Starts (m.sched.thread t).registers

/-- **All runs of the kernel**, as far as interrupts go. -/
def runs (P Q : Type) [DecidableEq P] [DecidableEq Q] (fuel : Nat) :
    System (Machine P Q) (Action P Q) where
  init := Boots
  step m i m' := m.Allowed i ∧ m.next fuel i = some m'

end Machine

end TwoKernel.Irq
