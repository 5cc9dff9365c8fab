import TwoKernel.Memory.Pmm

/-!
# `Memory::Vmm`, the page tables

The page tables of `memory/vmm.cpp`. A table is a page of 512 words; the kernel
reaches it through the direct map, so a `PageMap*` is a word here, and an entry
of it is eight bytes of physical memory. That a `PageMap*` always reaches the page
it names assumes that the direct map of the pages tables are in is never mapped
elsewhere; no call of the kernel does that, and none is kept from doing it.

`walk` is not in the source: it is what the processor does with a table, from
the number of the page the table is in.

The fences and the interrupt guard have no effect a single processor can see;
they are not modelled.
-/

namespace TwoKernel

open ByteMem

namespace Vmm

/-- `PRESENT`. -/
def present : Word := 1 <<< 0

/-- `WRITEABLE`. -/
def writeable : Word := 1 <<< 1

/-- `USER`. -/
def user : Word := 1 <<< 2

/-- `NX`. -/
def nx : Word := 1 <<< 63

/-- `PADDR_MASK`. -/
def paddrMask : Word := 0x0000FFFFFFFFF000

/-- `OFFMASK`. -/
def offMask : Word := 0b111111111111

/-- `USER_ADDR_END`. -/
def userAddrEnd : Word := 0x0000800000000000

/-- `Util::Align::align_up`. -/
def alignUp (val pageSize : Word) : Word := (val + (pageSize - 1)) &&& ~~~(pageSize - 1)

/-- `Util::Align::align_down`. -/
def alignDown (val pageSize : Word) : Word := val &&& ~~~(pageSize - 1)

/-- The index that `va` has at the level whose lowest address bit is `shift`. -/
def index (shift : Nat) (va : Word) : Nat := ((va &&& ((0x1ff : Word) <<< shift)) >>> shift).toNat

/-- `if (entry & PRESENT)`. -/
def Present (entry : Word) : Prop := entry &&& present ≠ 0

instance (entry : Word) : Decidable (Present entry) := inferInstanceAs (Decidable (_ ≠ _))

/-- The number of the page an entry points to. -/
def frameOf (entry : Word) : Nat := (entry &&& paddrMask).toNat / 4096

/-- `struct PageDirectory`, with null as zero. -/
structure PageDirectory where
  pml4 : Word
  pml4Pa : Word
  deriving DecidableEq, Repr

end Vmm

open Vmm

namespace Phys

/-- The word `i` of the table in page `frame`. -/
def pte (frame i : Nat) (s : Phys) : Word := load64 s.mem (4096 * frame + 8 * i)

/-- What the processor finds at one level: the page of the table below. -/
def nextFrame (frame i : Nat) (s : Phys) : Option Nat :=
  if Present (s.pte frame i) then some (frameOf (s.pte frame i)) else none

/-- The processor's walk from the table in page `root`: the leaf entry for `va`, if every entry on
the way is present. -/
def walk (root : Nat) (va : Word) (s : Phys) : Option Word := do
  let pdpt ← s.nextFrame root (index 39 va)
  let pd ← s.nextFrame pdpt (index 30 va)
  let pt ← s.nextFrame pd (index 21 va)
  if Present (s.pte pt (index 12 va)) then some (s.pte pt (index 12 va)) else none

/-- The physical address the processor reaches for `va`, and the bits of the leaf entry that are not
part of it. -/
def translate (root : Nat) (va : Word) (s : Phys) : Option (Word × Word) :=
  (s.walk root va).map fun e => ((e &&& paddrMask) ||| (va &&& offMask), e &&& ~~~paddrMask)

variable (hhdm : Word)

/-- `table->entries[i]`. -/
def entry (table : Word) (i : Nat) (s : Phys) : Word := load64 s.mem (physOf hhdm table + 8 * i)

/-- `table->entries[i] = value`. -/
def setEntry (table : Word) (i : Nat) (value : Word) (s : Phys) : Phys :=
  { s with mem := store64 s.mem (physOf hhdm table + 8 * i) value }

/-- `LibC::memset(table->entries.data(), 0, PAGE_SIZE)`. -/
def clearTable (table : Word) (s : Phys) : Phys :=
  { s with mem := fill s.mem (physOf hhdm table) 4096 0 }

def getNextLevel (table : Word) (i : Nat) (flags : Word) (allocate : Bool) (s : Phys) :
    Outcome (Option Word × Phys) :=
  if Present (s.entry hhdm table i) then
    .ok (some ((s.entry hhdm table i &&& paddrMask) + hhdm), s)
  else if allocate then do
    let r ← s.alloc hhdm 1
    if r.1 = 0 then
      .error (.panic "Pmm::alloc(1) failed in get_next_level() -- out of physical memory\n")
    else
      let s := r.2.clearTable hhdm (r.1 + hhdm)
      let s := s.setEntry hhdm table i <|
        if flags &&& user ≠ 0 then r.1 ||| present ||| writeable ||| user
        else r.1 ||| present ||| writeable
      return (some (r.1 + hhdm), s)
  else .ok (none, s)

/-- The three calls of `get_next_level` that lead from `pml4` to the page table of `va`. The
table each call returns is dereferenced after it. -/
def pageTable (pml4 va flags : Word) (allocate : Bool) (s : Phys) : Outcome (Word × Phys) := do
  let r ← s.getNextLevel hhdm pml4 (index 39 va) flags allocate
  let pdpt ← deref r.1
  let r ← r.2.getNextLevel hhdm pdpt (index 30 va) flags allocate
  let pd ← deref r.1
  let r ← r.2.getNextLevel hhdm pd (index 21 va) flags allocate
  let pt ← deref r.1
  return (pt, r.2)

/-- The body of the loop of `map`. -/
def mapPage (pml4 pa va flags : Word) (off : Word) (s : Phys) : Outcome Phys := do
  let curVa := alignDown (va + off) pageSize
  let curPa := alignDown (pa + off) pageSize
  let r ← s.pageTable hhdm pml4 curVa flags true
  return r.2.setEntry hhdm r.1 (index 12 curVa) (curPa ||| flags)

/-- The body of the loop of `unmap`. -/
def unmapPage (pml4 va : Word) (off : Word) (s : Phys) : Outcome Phys := do
  let curVa := alignDown (va + off) pageSize
  let r ← s.pageTable hhdm pml4 curVa 0 false
  return r.2.setEntry hhdm r.1 (index 12 curVa) 0

/-- `for (off = off; off < length; off += PAGE_SIZE)`. A `length` within a page of `2 ^ 64` makes
`off` wrap, and the loop never ends. -/
def eachPage (length : Word) (body : Word → Phys → Outcome Phys) :
    Nat → Word → Phys → Outcome Phys
  | 0, _, _ => .error .diverges
  | fuel + 1, off, s =>
    if off < length then do
      let s ← body off s
      eachPage length body fuel (off + pageSize) s
    else .ok s

def map (pml4 pa va length flags : Word) : Phys → Outcome Phys :=
  eachPage length (mapPage hhdm pml4 pa va flags) walkFuel 0

def unmap (pml4 va length : Word) : Phys → Outcome Phys :=
  eachPage length (unmapPage hhdm pml4 va) walkFuel 0

def vaToPa (space : PageDirectory) (va : Word) (s : Phys) : Outcome Word := do
  let r ← s.pageTable hhdm space.pml4 va 0 false
  return (r.2.entry hhdm r.1 (index 12 va) &&& paddrMask) ||| (va &&& offMask)

/-- The body of the loops of `fill_kernel_entries` and `process_fill_user_entires`, which share
the text of their panic. -/
def fillEntry (pml4 flags : Word) (s : Phys) (i : Nat) : Outcome Phys := do
  let r ← s.alloc hhdm 1
  if r.1 = 0 then
    .error (.panic "Pmm::alloc(1) failed in fill_kernel_entries() -- out of physical memory\n")
  else
    let s := r.2.clearTable hhdm (r.1 + hhdm)
    return s.setEntry hhdm pml4 i (r.1 ||| flags)

def fillKernelEntries (vaddr : PageDirectory) (s : Phys) : Outcome Phys :=
  (List.range' 256 256).foldlM (fillEntry hhdm vaddr.pml4 (present ||| writeable)) s

def processFillUserEntires (vaddr : PageDirectory) (s : Phys) : Outcome Phys :=
  (List.range 256).foldlM (fillEntry hhdm vaddr.pml4 (present ||| writeable ||| user)) s

/-- `process_fill_kernel_entries`, `kernel` being `g_kernel_page_directory`. -/
def processFillKernelEntries (kernel vaddr : PageDirectory) (s : Phys) : Phys :=
  (List.range' 256 256).foldl
    (fun s i => s.setEntry hhdm vaddr.pml4 i (s.entry hhdm kernel.pml4 i)) s

def newPagemap (s : Phys) : Outcome (PageDirectory × Phys) := do
  let r ← s.alloc hhdm 1
  if r.1 = 0 then
    .error (.panic "Pmm::alloc(1) failed in new_pagemap() -- out of physical memory\n")
  else return (⟨r.1 + hhdm, r.1⟩, r.2.clearTable hhdm (r.1 + hhdm))

/-- The body of the loop of `free_table`; `below` is the call one level down. -/
def freeEntry (below : Word → Phys → Phys) (table : Word) (s : Phys) (i : Nat) : Phys :=
  if Present (s.entry hhdm table i) then
    let pa := s.entry hhdm table i &&& paddrMask
    ((below (pa + hhdm) s).free hhdm pa 1).setEntry hhdm table i 0
  else s

/-- `free_table` of a table with `below` levels of tables beneath it. Every level is freed in its
first half only. -/
def freeLevels : Nat → Word → Phys → Phys
  | 0, table, s => (List.range 256).foldl (freeEntry hhdm (fun _ s => s) table) s
  | below + 1, table, s => (List.range 256).foldl (freeEntry hhdm (freeLevels below) table) s

def freeTable (table : Word) (level : Nat) (s : Phys) : Phys := s.freeLevels hhdm (level - 1) table

def freePagemap (space : PageDirectory) (s : Phys) : PageDirectory × Phys :=
  if space.pml4 = 0 ∨ space.pml4Pa = 0 then (space, s)
  else (⟨0, 0⟩, (s.freeTable hhdm space.pml4 4).free hhdm space.pml4Pa 1)

/-- What the constructors of `AddressSpace` and `ProcessBlock` do to memory. The constructor
without arguments is the one for a kernel process. -/
def newSpace (kernel : PageDirectory) (isUser : Bool) (s : Phys) :
    Outcome (PageDirectory × Phys) := do
  let r ← s.newPagemap hhdm
  let s := r.2.processFillKernelEntries hhdm kernel r.1
  if isUser then do
    let s ← s.processFillUserEntires hhdm r.1
    return (r.1, s)
  else return (r.1, s)

/-- The first two steps of `Vmm::init`: the kernel directory, its upper half filled. -/
def newKernelSpace (s : Phys) : Outcome (PageDirectory × Phys) := do
  let r ← s.newPagemap hhdm
  let s ← r.2.fillKernelEntries hhdm r.1
  return (r.1, s)

end Phys

namespace Vmm

/-- Where the kernel is: the symbols of the linker script and `Limine::kernel_address`. -/
structure KernelImage where
  textStart : Word
  textEnd : Word
  rodataStart : Word
  rodataEnd : Word
  dataStart : Word
  dataEnd : Word
  virtualBase : Word
  physicalBase : Word

/-- The types of entries that `Vmm::init` maps. -/
def Listed (entry : MemmapEntry) : Prop :=
  entry.type = .usable ∨ entry.type = .framebuffer ∨ entry.type = .bootloader ∨
    entry.type = .kernelAndModules

instance (entry : MemmapEntry) : Decidable (Listed entry) :=
  inferInstanceAs (Decidable (_ ∨ _))

/-- The body of the loop of `Vmm::init`; `dir` is `g_kernel_page_directory`. -/
def mapEntry (hhdm : Word) (dir : PageDirectory) (s : Phys) (entry : MemmapEntry) : Outcome Phys :=
  if Listed entry then
    s.map hhdm dir.pml4 entry.base (hhdm + entry.base) entry.length (present ||| writeable ||| nx)
  else .ok s

def mapLimineKernelAddr (hhdm : Word) (image : KernelImage) (dir : PageDirectory)
    (start stop flags : Word) (s : Phys) : Outcome Phys :=
  let length := stop - start
  let pa := start - image.virtualBase + image.physicalBase
  s.map hhdm dir.pml4 pa start length flags

/-- `Vmm::init`. It returns `g_kernel_page_directory`. What it does to `MSREFER` and `cr3` is no
change of memory, and not modelled. -/
def init (hhdm : Word) (memmap : List MemmapEntry) (image : KernelImage) (s : Phys) :
    Outcome (PageDirectory × Phys) := do
  let r ← s.newKernelSpace hhdm
  let s ← memmap.foldlM (mapEntry hhdm r.1) r.2
  let s ← mapLimineKernelAddr hhdm image r.1 image.textStart image.textEnd present s
  let s ← mapLimineKernelAddr hhdm image r.1 image.rodataStart image.rodataEnd (present ||| nx) s
  let s ← mapLimineKernelAddr hhdm image r.1 image.dataStart image.dataEnd
    (present ||| writeable ||| nx) s
  return (r.1, s)

end Vmm

end TwoKernel
