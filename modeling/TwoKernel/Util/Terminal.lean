import TwoKernel.Drivers.Ps2

/-!
# The terminal

The thread of `util/terminal.cpp`, which takes keys out of the keyboard's buffer and
shows them. The buffer is shared with the interrupt handler that fills it, so
`read_and_echo` masks interrupts while it looks, and unmasks them to wait:
`sti; hlt; cli`, again and again until there is a key.

`Console` is the keyboard and this thread, one step of the thread at a time. An
interrupt can come wherever interrupts are on, with any byte. The scheduler can
keep the thread waiting there as long as it likes: nothing says when its next
step is.
-/

namespace TwoKernel.Terminal

def prompt : String := "TwoOs> "

/-- The characters of the codes from zero on; those without one have the zero character. -/
def keymap : List Char :=
  ("\x00\x00" ++ "1234567890-=" ++ "\x00\x00" ++ "qwertyuiop[]" ++ "\x00\x00" ++ "asdfghjkl;'`" ++
    "\x00\\" ++ "zxcvbnm,./" ++ "\x00*" ++ "\x00 ").toList

/-- The line that is being typed: its length, and how long it may get. -/
structure Input where
  length : Word := 0
  limit : Word

namespace Input

/-- `Input()` on a screen of so many columns. `sizeof(prompt)` is 8, with the zero at its end. -/
def new (columns : Word) : Input := { limit := if 8 < columns then columns - 8 else 0 }

/-- What `read_and_echo` does with a key it got: the text that reaches `write_terminal`, and the line
after it. `klog` has put a carriage return before the newline. -/
def echo (key : Byte) (input : Input) : String × Input :=
  if key = 0x1C ∨ key = 0x9C then ("\r\n" ++ prompt, { input with length := 0 })
  else if key = 0x0E then
    if input.length ≠ 0 then ("\x08 \x08", { input with length := input.length - 1 })
    else ("", input)
  else
    match keymap[key.toNat]? with
    | some c =>
      if c ≠ '\x00' ∧ input.length < input.limit then
        (c.toString, { input with length := input.length + 1 })
      else ("", input)
    | none => ("", input)

end Input

/-- Where the thread is in `read_and_echo`. -/
inductive Reader where
  /-- Before `cli`. -/
  | entry
  /-- At the test of the loop. -/
  | test
  /-- In `sti; hlt; cli`, with the `cli` to come. -/
  | halted
  /-- Before `get_read`. -/
  | take
  /-- Before `buf_read`. -/
  | drop (key : ScanCode)
  /-- Before `sti`. -/
  | leave (key : ScanCode)
  /-- Past it, with the key to show. -/
  | echo (key : ScanCode)
  deriving DecidableEq

/-- The keyboard and its reader. `bytes` is what the interrupts brought, and `keys` what the reader
has taken out of the buffer. -/
structure Console where
  keyboard : Ps2Keyboard
  reader : Reader := .entry
  interrupts : Bool := true
  input : Input
  screen : String := ""
  bytes : List Byte := []
  keys : List ScanCode := []

inductive Event where
  /-- `isr_keyboard`, with the byte it reads from the port. -/
  | irq (byte : Byte)
  /-- The next step of the thread. -/
  | turn

namespace Console

def Allowed (x : Console) : Event → Prop
  | .irq _ => x.interrupts = true
  | .turn => True

/-- One step of `read_and_echo`. -/
def turn (x : Console) : Outcome Console :=
  match x.reader with
  | .entry => .ok { x with reader := .test, interrupts := false }
  | .test =>
    if x.keyboard.data.isEmpty then .ok { x with reader := .halted, interrupts := true }
    else .ok { x with reader := .take }
  | .halted => .ok { x with reader := .test, interrupts := false }
  | .take => .ok { x with reader := .drop x.keyboard.data.getRead }
  | .drop key => do
    let data ← x.keyboard.data.bufRead
    return { x with
      keyboard := { x.keyboard with data := data }
      reader := .leave key
      keys := x.keys ++ [key] }
  | .leave key => .ok { x with reader := .echo key, interrupts := true }
  | .echo key =>
    let r := x.input.echo key
    .ok { x with reader := .entry, screen := x.screen ++ r.1, input := r.2 }

def next (x : Console) : Event → Outcome Console
  | .irq byte => do
    let keyboard ← x.keyboard.onRecieve byte
    return { x with keyboard := keyboard, bytes := x.bytes ++ [byte] }
  | .turn => x.turn

/-- The thread starts with interrupts on, an empty line, and a keyboard outside a prefix that has
buffered nothing. -/
def runs : System Console Event :=
  .guarded (fun x => ∃ keyboard columns, keyboard.stateMachine = .none ∧
    keyboard.data.isEmpty = true ∧ keyboard.data.size = 0 ∧
    x = { keyboard := keyboard, input := Input.new columns }) Allowed next

end Console

end TwoKernel.Terminal
