import TwoKernel.Basic
import TwoKernel.Lib.ByteMem
import TwoKernel.Lib.Logged

/-!
# `Util::vsnprintf`, the formatter of the kernel's log

The function of `util/kernel_logger.cpp`. It goes through the format with a pointer
that the loop advances, and that the cases of its `switch` advance and step back on
their own. The format and the strings are read from a memory; what is stored through
`str` is a text of its own, so `str - buf` is the length of that text. A call is
therefore modelled for a `buf` that overlaps neither the format nor a `%s` argument;
one that does would read back what it has stored.

The arguments are the eight-byte slots of the `va_list`, one after the other. There
is always a next slot, whether or not the caller passed that many.

Beside what it computes a call records three kinds of `Event`: the bytes of the
format that it reads, the elements of its digit buffers that it stores, and a
negation that overflows. What it then has is the value of the machine's instruction.
-/

namespace TwoKernel

open ByteMem

namespace Logger

/-- What a call records. -/
inductive Event where
  /-- The byte of the format at an address is read. -/
  | format (address : Nat)
  /-- `tmp[i]` is stored, in a buffer of that size. -/
  | tmp (size i : Nat)
  /-- A negation overflows. -/
  | overflow
  deriving DecidableEq, Repr

/-- A computation of the formatter. -/
abbrev Run (α : Type) := Logged Event Fault α

/-- A loop that has not come to its end. -/
def diverge {α : Type} : Run α := Logged.lift (.error .diverges)

/-- A character. -/
def ch (c : Char) : Byte := BitVec.ofNat 8 c.toNat

/-- The variables of the loop. -/
structure Printer where
  fmt : Nat
  /-- What has been stored, from `buf` to `str`. -/
  out : List Byte
  /-- How many arguments have been taken. -/
  args : Nat

/-- `*str++ = c`. -/
def Printer.put (c : Byte) (s : Printer) : Printer := { s with out := s.out ++ [c] }

/-- `fmt += k`. -/
def Printer.skip (k : Nat) (s : Printer) : Printer := { s with fmt := s.fmt + k }

/-- `va_arg`. -/
def Printer.took (s : Printer) : Printer := { s with args := s.args + 1 }

/-! ## Numbers -/

section number

variable {w : Nat} (more : BitVec w → Bool) (digit : BitVec w → Byte) (next : BitVec w → BitVec w)
  (size : Nat)

/-- `while (more) { tmp[i++] = digit; val = next; }`, and `i` and `tmp` after it. -/
def digitLoop : Nat → Nat → (Nat → Byte) → BitVec w → Run (Nat × (Nat → Byte))
  | 0, _, _, _ => diverge
  | fuel + 1, i, tmp, val =>
    if more val then do
      Logged.tell (.tmp size i)
      digitLoop fuel (i + 1) (Function.update tmp i (digit val)) (next val)
    else pure (i, tmp)

/-- `while (i > 0) *str++ = tmp[--i]`. -/
def emit : Nat → (Nat → Byte) → Printer → Printer
  | 0, _, s => s
  | i + 1, tmp, s => emit i tmp (s.put (tmp i))

/-- The digits of a number. The buffer is not initialised. -/
def number (fuel : Nat) (val : BitVec w) (s : Printer) : Run Printer :=
  if val = 0 then do
    Logged.tell (.tmp size 0)
    pure (emit 1 (Function.update (fun _ => 0) 0 (ch '0')) s)
  else do
    let r ← digitLoop more digit next size fuel 0 (fun _ => 0) val
    pure (emit r.1 r.2 s)

end number

/-- `val > 0`, of an unsigned type. -/
def positive {w : Nat} (val : BitVec w) : Bool := 0 < val

/-- `'0' + (val % 10)`, of an unsigned type. -/
def decDigit {w : Nat} (val : BitVec w) : Byte := ch '0' + (val % 10).setWidth 8

/-- `nibble < 10 ? '0' + nibble : 'a' + nibble - 10`. -/
def hexDigit {w : Nat} (val : BitVec w) : Byte :=
  let nibble := (val &&& 0xF).setWidth 8
  if nibble < 10 then ch '0' + nibble else ch 'a' + nibble - 10

section conversions

variable (mem : Mem) (va : Nat → Word)

/-- `while (*s) *str++ = *s++`. -/
def copyString : Nat → Nat → Printer → Run Printer
  | 0, _, _ => diverge
  | fuel + 1, p, s => if mem p = 0 then pure s else copyString fuel (p + 1) (s.put (mem p))

/-- `case 's'`. -/
def convS (fuel : Nat) (s : Printer) : Run Printer :=
  if va s.args = 0 then pure s.took else copyString mem fuel (va s.args).toNat s.took

/-- `-val`, of an `int`. -/
def negate (val : BitVec 32) : Run (BitVec 32) :=
  if val = BitVec.intMin 32 then do
    Logged.tell .overflow
    pure (-val)
  else pure (-val)

/-- `case 'd'`, after the sign: the comparison, the remainder and the quotient are those of `int`. -/
def numberD (fuel : Nat) (val : BitVec 32) (s : Printer) : Run Printer :=
  number (fun val => (0 : BitVec 32).slt val) (fun val => ch '0' + (val.srem 10).setWidth 8)
    (fun val => val.sdiv 10) 20 fuel val s

/-- `case 'd'`. -/
def convD (fuel : Nat) (s : Printer) : Run Printer :=
  let val : BitVec 32 := (va s.args).setWidth 32
  if val.slt 0 then do
    let val ← negate val
    numberD fuel val (s.took.put (ch '-'))
  else numberD fuel val s.took

/-- `case 'u'`. -/
def convU (fuel : Nat) (s : Printer) : Run Printer :=
  number positive decDigit (· / 10) 20 fuel ((va s.args).setWidth 32) s.took

/-- `case 'x'`. -/
def convX (fuel : Nat) (s : Printer) : Run Printer :=
  number positive hexDigit (· >>> 4) 16 fuel ((va s.args).setWidth 32) s.took

/-- `%llx`. -/
def convLlx (fuel : Nat) (s : Printer) : Run Printer :=
  number positive hexDigit (· >>> 4) 16 fuel (va s.args) s.took

/-- `%llu`. -/
def convLlu (fuel : Nat) (s : Printer) : Run Printer :=
  number positive decDigit (· / 10) 20 fuel (va s.args) s.took

/-! ## The format -/

/-- `fmt[k]`. -/
def look (s : Printer) (k : Nat) : Run Byte := do
  Logged.tell (.format (s.fmt + k))
  pure (mem (s.fmt + k))

/-- `case 'l'`, after `fmt += 2`. -/
def convLl (fuel : Nat) (s : Printer) : Run Printer := do
  let c ← look mem s 0
  if c = ch 'x' then convLlx va fuel s
  else if c = ch 'u' then convLlu va fuel s
  else pure s

/-- `case 'l'`. -/
def convL (fuel : Nat) (s : Printer) : Run Printer := do
  let c ← look mem s 1
  if c = ch 'l' then convLl mem va fuel (s.skip 2) else pure s

/-- The `default`. At the end of the format it steps back. -/
def convDefault (c : Byte) (s : Printer) : Printer :=
  if c ≠ 0 then (s.put (ch '%')).put c else { s.put (ch '%') with fmt := s.fmt - 1 }

/-- The `switch`, on the character at `fmt`. -/
def conversion (fuel : Nat) (c : Byte) (s : Printer) : Run Printer :=
  if c = ch 's' then convS mem va fuel s
  else if c = ch 'd' then convD va fuel s
  else if c = ch 'u' then convU va fuel s
  else if c = ch 'x' then convX va fuel s
  else if c = ch 'l' then convL mem va fuel s
  else if c = ch '%' then pure (s.put (ch '%'))
  else pure (convDefault c s)

/-- A character that is not `%`. -/
def plain (c : Byte) (s : Printer) : Printer :=
  if c = ch '\n' then (s.put (ch '\r')).put c else s.put c

/-- `fmt++`, and the `switch`. -/
def percent (fuel : Nat) (s : Printer) : Run Printer := do
  let c ← look mem (s.skip 1) 0
  conversion mem va fuel c (s.skip 1)

/-- The body of the loop, on the character at `fmt`. -/
def turn (fuel : Nat) (c : Byte) (s : Printer) : Run Printer :=
  if c ≠ ch '%' then pure (plain c s) else percent mem va fuel s

/-- `for (; *fmt; fmt++)`. The loops inside have fuel of their own. -/
def scan (fuel : Nat) : Nat → Printer → Run Printer
  | 0, _ => diverge
  | k + 1, s => do
    let c ← look mem s 0
    if c = 0 then pure s
    else do
      let s ← turn mem va fuel c s
      scan fuel k (s.skip 1)

/-- What is stored from `buf` on, and the result. -/
def vsnprintf (fuel : Nat) (fmt : Nat) : Run (List Byte × BitVec 32) := do
  let s ← scan mem va fuel fuel ⟨fmt, [], 0⟩
  -- *str = '\0'; return static_cast<int>(str - buf)
  pure (s.out ++ [0], BitVec.ofNat 32 s.out.length)

end conversions

end Logger

end TwoKernel
