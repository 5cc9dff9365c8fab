import Mathlib.Algebra.GroupWithZero.Nat
import Mathlib.Data.Fin.Basic
import Mathlib.Data.List.FinRange

/-!
# A pair of 8259A interrupt controllers

Two chips wired as in a PC: the output of the slave is line 2 of the master, the master answers at
the ports `0x20` and `0x21` and the slave at `0xA0` and `0xA1`.

`Settings` is what a driver has written, and `Chip` adds the two registers the hardware
moves: the requests (`irr`) and what is in service (`isr`). A write to a command port with
bit 4 set starts the initialization, and the data port then takes the words `ICW2` to `ICW4` that
this one announced before it takes masks. Priorities are the fixed ones: a line is passed on
if it is not masked and no line up to it is in service (`Chip.next`). An acknowledge
that finds no line answers line 7, without a line in service: the spurious interrupt.

Initialization clears the masks and the requests. What it does to a line in service is not in the
data sheet; here it stays in service.

Left out are rotating priorities, the special modes, polling and reading `isr` back. A
command for them does nothing here.
-/

namespace Pic8259

/-- For the lines of a chip, which are written as numerals of `Fin 8`. -/
theorem neZero_eight : NeZero 8 := ⟨by decide⟩

attribute [local instance] neZero_eight

/-- What the data port takes next. -/
inductive Phase where
  | icw2 (single icw4 : Bool)
  | icw3 (icw4 : Bool)
  | icw4
  | ready
  deriving DecidableEq

@[ext]
structure Settings where
  imr : BitVec 8
  base : BitVec 8
  cascade : BitVec 8
  autoEoi : Bool
  phase : Phase
  deriving DecidableEq

structure Chip extends Settings where
  irr : BitVec 8
  isr : BitVec 8
  deriving DecidableEq

/-- The bit of a line. -/
def bit (n : Fin 8) : BitVec 8 := BitVec.twoPow 8 n

/-- The line with the highest priority. -/
def first (w : BitVec 8) : Option (Fin 8) := (List.finRange 8).find? fun n => w.getLsbD n

namespace Settings

/-- A command, as far as it is one of `ICW1`. -/
def command (value : BitVec 8) (s : Settings) : Settings :=
  if value.getLsbD 4 then
    { s with
      imr := 0
      autoEoi := s.autoEoi && value.getLsbD 0
      phase := .icw2 (value.getLsbD 1) (value.getLsbD 0) }
  else s

/-- A write to the data port. -/
def data (value : BitVec 8) (s : Settings) : Settings :=
  match s.phase with
  | .icw2 single icw4 =>
    { s with
      base := value &&& 0xF8
      phase := if single then (if icw4 then .icw4 else .ready) else .icw3 icw4 }
  | .icw3 icw4 => { s with cascade := value, phase := if icw4 then .icw4 else .ready }
  | .icw4 => { s with autoEoi := value.getLsbD 1, phase := .ready }
  | .ready => { s with imr := value }

/-- Past the initialization the data port takes masks. -/
theorem data_of_ready {value : BitVec 8} {s : Settings} (h : s.phase = .ready) :
    s.data value = { s with imr := value } := by
  obtain ⟨imr, base, cascade, autoEoi, phase⟩ := s
  cases h
  rfl

end Settings

namespace Chip

/-- The end of interrupt for the line of the highest priority. -/
def eoi (c : Chip) : Chip :=
  match first c.isr with
  | some n => { c with isr := c.isr &&& ~~~bit n }
  | none => c

def command (value : BitVec 8) (c : Chip) : Chip :=
  if value.getLsbD 4 then { toSettings := c.toSettings.command value, irr := 0, isr := c.isr }
  else if value.getLsbD 3 then c
  else if value >>> 5 = 1 then c.eoi
  else if value >>> 5 = 3 then
    { c with isr := c.isr &&& ~~~(BitVec.twoPow 8 (value &&& 7).toNat) }
  else c

def data (value : BitVec 8) (c : Chip) : Chip := { c with toSettings := c.toSettings.data value }

/-- The line that is passed on, out of those that request. -/
def next (requests : BitVec 8) (c : Chip) : Option (Fin 8) :=
  match first (requests &&& ~~~c.imr), first c.isr with
  | some n, some k => if n < k then some n else none
  | some n, none => some n
  | none, _ => none

/-- A line is acknowledged. -/
def serve (n : Fin 8) (c : Chip) : Chip :=
  { c with
    irr := c.irr &&& ~~~bit n
    isr := if c.autoEoi then c.isr else c.isr ||| bit n }

/-- A device moves a line. -/
def wire (n : Fin 8) (high : Bool) (c : Chip) : Chip :=
  { c with irr := if high then c.irr ||| bit n else c.irr &&& ~~~bit n }

end Chip

structure Pair where
  master : Chip
  slave : Chip
  deriving DecidableEq

namespace Pair

def outb (port : BitVec 16) (value : BitVec 8) (p : Pair) : Pair :=
  if port = 0x20 then { p with master := p.master.command value }
  else if port = 0x21 then { p with master := p.master.data value }
  else if port = 0xA0 then { p with slave := p.slave.command value }
  else if port = 0xA1 then { p with slave := p.slave.data value }
  else p

/-- A command port reads as the requests, a data port as the masks. -/
def inb (port : BitVec 16) (p : Pair) : BitVec 8 :=
  if port = 0x20 then p.master.irr
  else if port = 0x21 then p.master.imr
  else if port = 0xA0 then p.slave.irr
  else if port = 0xA1 then p.slave.imr
  else 0xFF

/-- The requests at the master; line 2 is the slave. -/
def requests (p : Pair) : BitVec 8 :=
  if (p.slave.next p.slave.irr).isSome then p.master.irr ||| bit 2 else p.master.irr &&& ~~~bit 2

/-- The output to the processor. -/
def int (p : Pair) : Bool := (p.master.next p.requests).isSome

/-- The processor acknowledges: the vector it gets. -/
def acknowledge (p : Pair) : BitVec 8 × Pair :=
  match p.master.next p.requests with
  | none => (p.master.base + 7, p)
  | some n =>
    if n = 2 then
      match p.slave.next p.slave.irr with
      | none => (p.slave.base + 7, { p with master := p.master.serve 2 })
      | some k =>
        (p.slave.base + BitVec.ofNat 8 k, ⟨p.master.serve 2, p.slave.serve k⟩)
    else (p.master.base + BitVec.ofNat 8 n, { p with master := p.master.serve n })

/-- A device moves one of the sixteen lines. -/
def wire (line : Fin 16) (high : Bool) (p : Pair) : Pair :=
  if h : line.val < 8 then { p with master := p.master.wire ⟨line, h⟩ high }
  else { p with slave := p.slave.wire ⟨line - 8, by omega⟩ high }

end Pair

/-! ## Lines -/

private theorem getLsbD_of_first {w : BitVec 8} {n : Fin 8} (h : first w = some n) :
    w.getLsbD n = true := by
  have hfound := List.find?_some (p := fun n : Fin 8 => w.getLsbD n) h
  exact hfound

@[simp]
theorem first_bit (n : Fin 8) : first (bit n) = some n := by
  revert n
  decide

namespace Chip

variable {c : Chip} {n : Fin 8} {r value : BitVec 8}

/-- A masked line is not passed on. -/
theorem getLsbD_imr_of_next (h : c.next r = some n) : c.imr.getLsbD n = false := by
  have hfirst : first (r &&& ~~~c.imr) = some n := by
    unfold next at h
    split at h
    · split_ifs at h
      rwa [← h]
    · rwa [← h]
    · cases h
  have hn := getLsbD_of_first hfirst
  rw [BitVec.getLsbD_and, BitVec.getLsbD_not] at hn
  simp only [Bool.and_eq_true, Bool.not_eq_true', decide_eq_true_eq] at hn
  exact hn.2.2

/-- Behind line 0 every line waits. -/
theorem next_of_serving_zero (h : c.isr = bit 0) : c.next r = none := by
  unfold next
  rw [h, first_bit]
  split
  · next n k _ hk =>
    cases hk
    exact if_neg (Fin.not_lt_zero n)
  · next hk => cases hk
  · rfl

theorem serve_isr (hauto : c.autoEoi = false) (h : c.isr = 0) : (c.serve n).isr = bit n := by
  unfold serve
  rw [hauto, h]
  exact BitVec.zero_or

/-- The end of interrupt reports the one line in service. -/
theorem command_eoi_isr (h : c.isr = bit n) : (c.command 0x20).isr = 0 := by
  show (c.eoi).isr = 0
  unfold eoi
  rw [h, first_bit]
  exact BitVec.and_not_self _

theorem command_toSettings : (c.command value).toSettings = c.toSettings.command value := by
  unfold command Settings.command eoi
  split_ifs <;> first | rfl | (split <;> rfl)

/-- Only the commands without bit 4 touch what is in service. -/
theorem command_isr (h : value.getLsbD 4 = true) : (c.command value).isr = c.isr := by
  unfold command
  rw [if_pos h]

end Chip

namespace Pair

variable {p : Pair} {line : Fin 16} {high : Bool}

theorem wire_master_toSettings : (p.wire line high).master.toSettings = p.master.toSettings := by
  unfold wire
  split <;> rfl

theorem wire_slave_toSettings : (p.wire line high).slave.toSettings = p.slave.toSettings := by
  unfold wire
  split <;> rfl

theorem wire_master_isr : (p.wire line high).master.isr = p.master.isr := by
  unfold wire
  split <;> rfl

theorem wire_slave_isr : (p.wire line high).slave.isr = p.slave.isr := by
  unfold wire
  split <;> rfl

end Pair

end Pic8259
