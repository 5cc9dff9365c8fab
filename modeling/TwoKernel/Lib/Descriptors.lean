import TwoKernel.Lib.ByteMem

/-!
# Descriptor tables of x86-64

What the processor makes of the bytes in its descriptor tables, in long mode. A `Segment` is
an eight-byte descriptor of the GDT, a `TaskState` the sixteen bytes of a descriptor of a task
state segment, and a `Gate` the sixteen bytes of an entry of the IDT. `Tables` are the table
registers, with the base and the limit of the task state segment that `ltr` has found.

`Tables.enter` is the way of an interrupt or exception into its handler up to the frame: the
entry has to lie in the IDT and be a present interrupt or trap gate, its selector has to name a
present 64-bit code segment that is not less privileged than the interrupted code, and the stack is
that of an interrupt stack table entry, or of the inner ring if the privilege changes, or the
interrupted one. Anything else is a fault (`none`), and so is each other load of a
selector that is refused.

Left out are local descriptor tables, segments other than 64-bit ones, and the privilege check of
`int n`. What the stores of the frame can run into is not looked at.
-/

namespace X86

open ByteMem

/-- Addresses the processor accepts. -/
def Canonical (a : BitVec 64) : Prop := (a.setWidth 48).signExtend 64 = a

instance (a : BitVec 64) : Decidable (Canonical a) :=
  inferInstanceAs (Decidable ((a.setWidth 48).signExtend 64 = a))

/-- A descriptor of eight bytes. -/
structure Segment where
  type : BitVec 4
  /-- Code or data, and not of the system. -/
  plain : Bool
  dpl : BitVec 2
  present : Bool
  long : Bool
  /-- The default operand size. -/
  db : Bool
  deriving DecidableEq

namespace Segment

def ofWord (w : BitVec 64) : Segment where
  type := w.extractLsb' 40 4
  plain := w.getLsbD 44
  dpl := w.extractLsb' 45 2
  present := w.getLsbD 47
  long := w.getLsbD 53
  db := w.getLsbD 54

/-- Code of 64 bits. -/
def code (d : Segment) : Bool := d.present && d.plain && d.type.getLsbD 3 && d.long && !d.db

def conforming (d : Segment) : Bool := d.type.getLsbD 2

/-- Data, or code that may be read. -/
def readable (d : Segment) : Bool :=
  d.present && d.plain && (!d.type.getLsbD 3 || d.type.getLsbD 1)

def writable (d : Segment) : Bool := d.present && d.plain && !d.type.getLsbD 3 && d.type.getLsbD 1

end Segment

/-- A descriptor of a task state segment. -/
structure TaskState where
  base : BitVec 64
  limit : BitVec 20
  type : BitVec 4
  plain : Bool
  present : Bool
  deriving DecidableEq

namespace TaskState

def ofWords (low high : BitVec 64) : TaskState where
  base := high.setWidth 32 ++ low.extractLsb' 56 8 ++ low.extractLsb' 16 24
  limit := low.extractLsb' 48 4 ++ low.extractLsb' 0 16
  type := low.extractLsb' 40 4
  plain := low.getLsbD 44
  present := low.getLsbD 47

/-- A task state segment that no processor uses. -/
def available (d : TaskState) : Bool := d.present && !d.plain && d.type = 9

/-- The bit that `ltr` sets in the first word. -/
def busy : BitVec 64 := BitVec.twoPow 64 41

/-- Only the type of a descriptor says that it is in use. -/
theorem ofWords_busy (low high : BitVec 64) :
    ofWords (low ||| busy) high = { ofWords low high with type := (ofWords low high).type ||| 2 } := by
  have hnone : ∀ start len, start + len ≤ 41 ∨ 41 < start →
      (low ||| busy).extractLsb' start len = low.extractLsb' start len := by
    intro start len hout
    apply BitVec.eq_of_getLsbD_eq
    intro i hi
    have hbit : busy.getLsbD (start + i) = false := by
      unfold busy
      rw [BitVec.getLsbD_twoPow, decide_eq_false (show 41 ≠ start + i by omega), Bool.and_false]
    rw [BitVec.getLsbD_extractLsb', BitVec.getLsbD_extractLsb', BitVec.getLsbD_or, hbit, Bool.or_false]
  have htype : (low ||| busy).extractLsb' 40 4 = low.extractLsb' 40 4 ||| 2 := BitVec.extractLsb'_or
  unfold ofWords
  rw [hnone 56 8 (by omega), hnone 16 24 (by omega), hnone 48 4 (by omega), hnone 0 16 (by omega),
    htype, BitVec.getLsbD_or, BitVec.getLsbD_or]
  have hplain : busy.getLsbD 44 = false := by decide
  have hpresent : busy.getLsbD 47 = false := by decide
  rw [hplain, hpresent, Bool.or_false, Bool.or_false]

end TaskState

/-- An entry of the IDT. -/
structure Gate where
  offset : BitVec 64
  selector : BitVec 16
  ist : BitVec 3
  type : BitVec 4
  plain : Bool
  dpl : BitVec 2
  present : Bool
  deriving DecidableEq

namespace Gate

def read (m : Mem) (a : Nat) : Gate where
  offset := load32 m (a + 8) ++ load16 m (a + 6) ++ load16 m a
  selector := load16 m (a + 2)
  ist := (load16 m (a + 4)).extractLsb' 0 3
  type := (load16 m (a + 4)).extractLsb' 8 4
  plain := (load16 m (a + 4)).getLsbD 12
  dpl := (load16 m (a + 4)).extractLsb' 13 2
  present := (load16 m (a + 4)).getLsbD 15

/-- A present interrupt or trap gate, to an address. -/
def usable (g : Gate) : Bool :=
  g.present && !g.plain && (g.type = 0xE || g.type = 0xF) && Canonical g.offset

end Gate

/-- The table registers. -/
structure Tables where
  idtBase : BitVec 64
  idtLimit : BitVec 16
  gdtBase : BitVec 64
  gdtLimit : BitVec 16
  tssBase : BitVec 64
  tssLimit : BitVec 20
  deriving DecidableEq

/-- What an interrupt is entered with. -/
structure Entry where
  rip : BitVec 64
  cs : BitVec 16
  /-- The stack pointer, before it is aligned. -/
  top : BitVec 64
  /-- The privilege changes. -/
  switched : Bool
  clearsIf : Bool
  deriving DecidableEq

namespace Tables

/-- The place of a selector in the GDT. -/
def index (selector : BitVec 16) : Nat := selector.toNat / 8

/-- The descriptor of a selector. -/
def segment (t : Tables) (m : Mem) (selector : BitVec 16) : Option Segment :=
  if selector.getLsbD 2 = false ∧ index selector ≠ 0 ∧ 8 * index selector + 7 ≤ t.gdtLimit.toNat then
    some (.ofWord (load64 m (t.gdtBase.toNat + 8 * index selector)))
  else none

/-- The stack of an interrupt: `ist` of its gate, or that of the ring it goes to. -/
def stack (t : Tables) (m : Mem) (ist : BitVec 3) (inner : BitVec 2) (switched : Bool)
    (rsp : BitVec 64) : Option (BitVec 64) :=
  if ist ≠ 0 then
    if 0x24 + 8 * ist.toNat ≤ t.tssLimit.toNat + 1 then
      some (load64 m (t.tssBase.toNat + 0x1C + 8 * ist.toNat))
    else none
  else if switched then
    if 12 + 8 * inner.toNat ≤ t.tssLimit.toNat + 1 then
      some (load64 m (t.tssBase.toNat + 4 + 8 * inner.toNat))
    else none
  else some rsp

/-- An interrupt or exception of code in ring `cpl`. -/
def enter (t : Tables) (m : Mem) (cpl : BitVec 2) (rsp : BitVec 64) (vector : BitVec 8) :
    Option Entry :=
  if 16 * vector.toNat + 15 ≤ t.idtLimit.toNat then
    let g := Gate.read m (t.idtBase.toNat + 16 * vector.toNat)
    if g.usable then
      (t.segment m g.selector).bind fun d =>
        if d.code ∧ d.dpl ≤ cpl then
          let inner := if d.conforming then cpl else d.dpl
          (t.stack m g.ist inner (inner < cpl) rsp).map fun top =>
            { rip := g.offset
              cs := g.selector &&& ~~~3 ||| inner.setWidth 16
              top := top
              switched := inner < cpl
              clearsIf := g.type = 0xE }
        else none
    else none
  else none

/-- `ltr`: the descriptor it finds, and the memory with that marked as in use. -/
def ltr (t : Tables) (m : Mem) (selector : BitVec 16) : Option (Tables × Mem) :=
  if selector.getLsbD 2 = false ∧ index selector ≠ 0 ∧ 8 * index selector + 15 ≤ t.gdtLimit.toNat then
    let a := t.gdtBase.toNat + 8 * index selector
    let d := TaskState.ofWords (load64 m a) (load64 m (a + 8))
    if d.available then
      some ({ t with tssBase := d.base, tssLimit := d.limit },
        store64 m a (load64 m a ||| TaskState.busy))
    else none
  else none

/-- A selector may be loaded into `ds`, `es`, `fs` or `gs`. -/
def loadsData (t : Tables) (m : Mem) (cpl : BitVec 2) (selector : BitVec 16) : Bool :=
  index selector = 0 || (t.segment m selector).any fun d =>
    d.readable && cpl ≤ d.dpl && selector.setWidth 2 ≤ d.dpl

/-- A selector may be loaded into `ss`, in ring `cpl`. -/
def loadsStack (t : Tables) (m : Mem) (cpl : BitVec 2) (selector : BitVec 16) : Bool :=
  (t.segment m selector).any fun d => d.writable && d.dpl = cpl && selector.setWidth 2 = cpl

/-- A far return may go to a selector from ring `cpl`. -/
def loadsCode (t : Tables) (m : Mem) (cpl : BitVec 2) (selector : BitVec 16) : Bool :=
  (t.segment m selector).any fun d =>
    d.code && cpl ≤ selector.setWidth 2 &&
      (if d.conforming then d.dpl ≤ selector.setWidth 2 else d.dpl = selector.setWidth 2)

/-- `iretq` accepts the selectors of a frame. Only code outside ring 3 may have no stack segment. -/
def returns (t : Tables) (m : Mem) (cpl : BitVec 2) (cs ss : BitVec 16) : Bool :=
  t.loadsCode m cpl cs &&
    (t.loadsStack m (cs.setWidth 2) ss ||
      (index ss = 0 && cs.setWidth 2 ≠ 3 && ss.setWidth 2 = cs.setWidth 2))

end Tables

end X86
