import TwoKernel.Basic
import TwoKernel.Lib.ByteMem

/-!
# `Memory::Pmm`, the physical page allocator

The allocator of `memory/pmm.cpp`. Its free list is intrusive: the node of a
free block is stored in the first bytes of the block, and the kernel reaches it
through the higher-half direct map, at the physical address plus `hhdm`. A
pointer is therefore a word, `0` is the null pointer, and the byte a pointer
`p` designates is the physical byte at `p - hhdm`.

`alloc` walks the list with no bound of its own. `walkFuel` is as many steps as
there are pointers; a walk that has not met null by then has met some node
twice and never ends.

The spin lock only masks interrupts on the one processor there is; it is not
modelled.
-/

namespace TwoKernel

open ByteMem

/-- `Vmm::PAGE_SIZE`. -/
def pageSize : Word := 0x1000

/-- Physical memory and the globals of the allocator. -/
structure Phys where
  mem : Mem
  freelistHead : Word
  gRefAlloc : Word

/-- The fields of `struct FreeList`, by their offset. -/
inductive FreeListField where
  | next | numPages | pa
  deriving DecidableEq, Repr

def FreeListField.offset : FreeListField → Nat
  | next => 0
  | numPages => 8
  | pa => 16

/-- The steps a walk of the free list is given. -/
def walkFuel : Nat := 2 ^ 64

/-- The physical address a direct-map pointer designates. -/
def physOf (hhdm p : Word) : Nat := (p - hhdm).toNat

namespace Phys

variable (hhdm : Word)

/-- `node->field`. -/
def field (f : FreeListField) (node : Word) (s : Phys) : Word :=
  load64 s.mem (physOf hhdm node + f.offset)

/-- `node->field = value`. -/
def setField (f : FreeListField) (node value : Word) (s : Phys) : Phys :=
  { s with mem := store64 s.mem (physOf hhdm node + f.offset) value }

def pushList (phys pageAmount : Word) (s : Phys) : Phys :=
  let node := phys + hhdm
  let s := s.setField hhdm .pa node phys
  let s := s.setField hhdm .numPages node pageAmount
  let s := s.setField hhdm .next node s.freelistHead
  { s with freelistHead := node }

/-- Take `curr` out of the list, `prev` being the node before it. -/
def unlink (prev curr : Word) (s : Phys) : Phys :=
  if prev ≠ 0 then s.setField hhdm .next prev (s.field hhdm .next curr)
  else { s with freelistHead := s.field hhdm .next curr }

/-- Push what `curr` has beyond `count` pages. -/
def pushRest (count curr : Word) (s : Phys) : Phys :=
  if count < s.field hhdm .numPages curr then
    s.pushList hhdm (s.field hhdm .pa curr + count * pageSize) (s.field hhdm .numPages curr - count)
  else s

/-- The body of the scan once `curr` fits. -/
def take (count prev curr : Word) (s : Phys) : Word × Phys :=
  let s := (s.unlink hhdm prev curr).pushRest hhdm count curr
  let s := { s with gRefAlloc := s.gRefAlloc + 1 }
  (s.field hhdm .pa curr, s)

/-- The scan of `alloc`, at `curr` with `prev` before it. -/
def scan (count : Word) : Nat → Word → Word → Phys → Outcome (Word × Phys)
  | 0, _, _, _ => .error .diverges
  | fuel + 1, prev, curr, s =>
    if curr = 0 then .ok (0, s)
    else if count ≤ s.field hhdm .numPages curr then .ok (s.take hhdm count prev curr)
    else scan count fuel curr (s.field hhdm .next curr) s

def alloc (count : Word) (s : Phys) : Outcome (Word × Phys) :=
  scan hhdm count walkFuel 0 s.freelistHead s

def free (physMem count : Word) (s : Phys) : Phys :=
  if s.gRefAlloc = 0 then s
  else
    let s := s.pushList hhdm physMem count
    { s with gRefAlloc := s.gRefAlloc - 1 }

end Phys

/-- `Limine::Memmap`, the types of an entry. -/
inductive Memmap where
  | usable | reserved | acpiReclaimable | acpiNvs | badMemory | bootloader | kernelAndModules
  | framebuffer | reservedMapped
  deriving DecidableEq, Repr

/-- `struct limine_memmap_entry`. -/
structure MemmapEntry where
  base : Word
  length : Word
  type : Memmap

namespace Phys

/-- The body of the loop of `init_pmm`. -/
def addEntry (hhdm : Word) (s : Phys) (entry : MemmapEntry) : Phys :=
  if entry.type = .usable then s.pushList hhdm entry.base (entry.length / pageSize) else s

/-- `init_pmm`, on the globals as the loader leaves them. -/
def initPmm (hhdm : Word) (memmap : List MemmapEntry) (mem : Mem) : Phys :=
  memmap.foldl (addEntry hhdm) ⟨mem, 0, 0⟩

end Phys

end TwoKernel
