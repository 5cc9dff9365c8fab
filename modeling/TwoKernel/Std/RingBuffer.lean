import TwoKernel.Basic
import TwoKernel.Lib.System

/-!
# `kstd::RingBuffer`

The bounded queue of `std/ring_buffer.hpp`: an array and two positions in it. The
buffer is empty where they meet, and full one write short of that, so one cell
of the `N` is never used. `size` is kept beside them and no test reads it.

A position is always taken modulo `N`, so it is a `Fin N` here; `N` is a
`std::size_t`, so the increment of a position does not wrap before the modulus.

`Usage` is a buffer with what was written to it and read from it, and its steps are
the calls that neither panics on.
-/

namespace TwoKernel

structure RingBuffer (α : Type) (N : Nat) where
  cap : Fin N → α
  read : Fin N
  write : Fin N
  size : Word

namespace RingBuffer

variable {α : Type} {N : Nat}

/-- `(i + 1) % cap.size()`. -/
def next (i : Fin N) : Fin N := ⟨(i.val + 1) % N, Nat.mod_lt _ i.pos⟩

def isFull (b : RingBuffer α N) : Bool := next b.write = b.read

def isEmpty (b : RingBuffer α N) : Bool := b.write = b.read

def bufRead (b : RingBuffer α N) : Outcome (RingBuffer α N) :=
  if b.isEmpty then .error (.panic "buffer is empty can't read data")
  else .ok { b with read := next b.read, size := b.size - 1 }

def bufWrite (data : α) (b : RingBuffer α N) : Outcome (RingBuffer α N) :=
  if b.isFull then .error (.panic "buffer is full and can't add data")
  else .ok { b with
    cap := Function.update b.cap b.write data
    write := next b.write
    size := b.size + 1 }

def getRead (b : RingBuffer α N) : α := b.cap b.read

def getSize (b : RingBuffer α N) : Word := b.size

/-- A call that changes the buffer. Nothing is lost by leaving `get_read` out: a read is a `get_read`
and a `buf_read`. -/
inductive Call (α : Type) where
  | write (data : α)
  | read

/-- A buffer, all that was written to it, and all that was read from it. -/
structure Usage (α : Type) (N : Nat) where
  buf : RingBuffer α N
  written : List α := []
  got : List α := []

namespace Usage

def Allowed (x : Usage α N) : Call α → Prop
  | .write _ => ¬ x.buf.isFull = true
  | .read => ¬ x.buf.isEmpty = true

instance (x : Usage α N) : ∀ c, Decidable (x.Allowed c)
  | .write _ => inferInstanceAs (Decidable (¬ _))
  | .read => inferInstanceAs (Decidable (¬ _))

def next (x : Usage α N) : Call α → Outcome (Usage α N)
  | .write data => do
    let buf ← x.buf.bufWrite data
    return { x with buf := buf, written := x.written ++ [data] }
  | .read => do
    let data := x.buf.getRead
    let buf ← x.buf.bufRead
    return { x with buf := buf, got := x.got ++ [data] }

/-- All uses of a buffer that starts empty. -/
def runs (α : Type) (N : Nat) : System (Usage α N) (Call α) :=
  .guarded (fun x => x.buf.isEmpty = true ∧ x.buf.size = 0 ∧ x.written = [] ∧ x.got = [])
    Allowed next

end Usage

end RingBuffer

/-- `kstd::KeyboardBuffer`. -/
abbrev KeyboardBuffer := RingBuffer Byte 255

end TwoKernel
