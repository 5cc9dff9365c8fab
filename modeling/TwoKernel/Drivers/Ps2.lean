import TwoKernel.Std.RingBuffer

/-!
# `Drivers::Ps2::Ps2Keyboard`

The keyboard driver of `drivers/ps2.cpp`. `isr_keyboard` hands every byte of the
data port to `on_recieve`, which answers the controller's replies, follows the
`0xE0` prefix, drops key releases and buffers the codes of key presses. A reader
takes them out one at a time, as the terminal does.

The driver talks back through two ports. `ports` is what it has written there,
oldest first; nothing in the driver depends on it.
-/

namespace TwoKernel

/-- `Arch::ScanCode`: an enumeration over `std::uint8_t` that bytes are cast into, so every byte is
a value of it. -/
abbrev ScanCode := Byte

namespace Arch

def ps2IsRelease (byte : Byte) : Bool := byte &&& 0x80 ≠ 0

def ps2SingleByte (byte : Byte) : ScanCode := byte &&& 0x7F

def ps2ExtendCodes (byte : Byte) : ScanCode := 0x80 ||| (byte &&& 0x7F)

end Arch

namespace Ps2

inductive PS2Ack where
  | ack | nack | error
  deriving DecidableEq, Repr

inductive State where
  | none | e0
  deriving DecidableEq, Repr

def dataPort : BitVec 16 := 0x60
def cmdPort : BitVec 16 := 0x64
def resend : Byte := 0xFE
def ack : Byte := 0xFA
def disablePort1 : Byte := 0xAD
def maxRetry : Byte := 3

end Ps2

open Ps2

structure Ps2Keyboard where
  lastData : Byte
  nackCount : Byte
  data : KeyboardBuffer
  signal : PS2Ack
  stateMachine : State
  ports : List (BitVec 16 × Byte)

namespace Ps2Keyboard

/-- `x86::IO::outb`. -/
def outb (port : BitVec 16) (byte : Byte) (k : Ps2Keyboard) : Ps2Keyboard :=
  { k with ports := k.ports ++ [(port, byte)] }

def writeCmd (byte : Byte) (k : Ps2Keyboard) : Ps2Keyboard := k.outb cmdPort byte

def writeData (byte : Byte) (k : Ps2Keyboard) : Ps2Keyboard :=
  { k with lastData := byte }.outb dataPort byte

/-- The reply to a `RESEND`: the last byte once more, and after `MAX_RETRY` of them the port is
disabled. -/
def onResend (k : Ps2Keyboard) : Ps2Keyboard :=
  let k := { k with signal := .nack, nackCount := k.nackCount + 1 }
  if maxRetry ≤ k.nackCount then
    { k with nackCount := 0, signal := .error }.writeCmd disablePort1
  else k.writeData k.lastData

def onRecieve (byte : Byte) (k : Ps2Keyboard) : Outcome Ps2Keyboard :=
  if byte = Ps2.ack then .ok { k with signal := .ack, nackCount := 0 }
  else if byte = resend then .ok k.onResend
  else if byte = 0xE0 then .ok { k with stateMachine := .e0 }
  else
    let currCode := match k.stateMachine with
      | .none => Arch.ps2SingleByte byte
      | .e0 => Arch.ps2ExtendCodes byte
    let k := { k with stateMachine := .none }
    if Arch.ps2IsRelease byte then .ok k
    else do
      let data ← k.data.bufWrite currCode
      return { k with data := data }

/-- One turn of the reader, `Input::read_and_echo` up to the key it gets: on an empty
buffer it goes on waiting. -/
def readKey (k : Ps2Keyboard) : Outcome (Option ScanCode × Ps2Keyboard) :=
  if k.data.isEmpty then .ok (none, k)
  else do
    let key := k.data.getRead
    let data ← k.data.bufRead
    return (some key, { k with data := data })

end Ps2Keyboard

/-- What happens at the keyboard: a byte arrives, or the reader takes its turn. -/
inductive KeyAction where
  | recieve (byte : Byte)
  | read

namespace Ps2Keyboard

/-- The keys the reader gets along a sequence of actions, and the keyboard after it. -/
def run : List KeyAction → Ps2Keyboard → Outcome (List ScanCode × Ps2Keyboard)
  | [], k => .ok ([], k)
  | .recieve byte :: rest, k => do
    let k ← k.onRecieve byte
    run rest k
  | .read :: rest, k => do
    let r ← k.readKey
    let rs ← run rest r.2
    return (r.1.toList ++ rs.1, rs.2)

end Ps2Keyboard

end TwoKernel
