import TwoKernel.Memory.Clients

/-!
# `kmalloc`, the kernel heap

The allocator of `memory/heap.cpp`: a run of pages for every request, with the
number of pages stored in front of the buffer. `kmalloc_free` finds that number
again, in memory the client can almost reach. Neither looks at the pointer it was
given: a header at an address where nothing is mapped is a page fault.

`Heap` is the allocator with the buffers it has handed out, and the calls on it
are requests, stores of clients into their own buffers, and frees of buffers
that are live, in any order.
-/

namespace TwoKernel

open ByteMem

/-- `sizeof(KmallocHeader)`: one word, aligned to sixteen bytes. -/
def kmallocHeaderSize : Word := 16

/-- `bytes_to_pages`. -/
def bytesToPages (bytes : Word) : Word :=
  bytes / pageSize + (if bytes % pageSize ≠ 0 then 1 else 0)

namespace Phys

variable (hhdm : Word)

/-- Where the header of no buffer is mapped: the first page of physical memory, which the direct map
leaves out (`pmm_tests.cpp` says so of `HHDM + 0`), and the last bytes of the address space, just
below the null pointer. -/
def Unmapped (header : Word) : Prop := physOf hhdm header < 4096 ∨ 2 ^ 64 ≤ header.toNat + 16

instance (header : Word) : Decidable (Unmapped hhdm header) := inferInstanceAs (Decidable (_ ∨ _))

/-- `kmalloc`. It does not look at what the page allocator answers. -/
def kmalloc (kb : Word) (s : Phys) : Outcome (Word × Phys) := do
  let pages := bytesToPages (kb + kmallocHeaderSize)
  let r ← s.alloc hhdm pages
  let header := r.1 + hhdm
  if Unmapped hhdm header then .error (.pageFault header)
  else return (header + kmallocHeaderSize,
    { r.2 with mem := store64 r.2.mem (physOf hhdm header) pages })

/-- `kmalloc_free`. The number of pages is loaded before `free` looks at its counter. -/
def kmallocFree (kPtr : Word) (s : Phys) : Outcome Phys :=
  let header := kPtr - kmallocHeaderSize
  let pa := header - hhdm
  if Unmapped hhdm header then .error (.pageFault header)
  else .ok (s.free hhdm pa (load64 s.mem (physOf hhdm header)))

end Phys

/-- A buffer as its client knows it. -/
structure Buffer where
  ptr : Word
  size : Word
  deriving DecidableEq

namespace Buffer

variable (hhdm : Word)

/-- The pointer to the header. -/
def header (b : Buffer) : Word := b.ptr - kmallocHeaderSize

/-- The run of pages that belongs to a buffer. -/
def block (b : Buffer) : Block := ⟨b.header - hhdm, bytesToPages (b.size + kmallocHeaderSize)⟩

/-- The physical bytes of a buffer. -/
def bytes (b : Buffer) : Set Nat := Set.Ico (physOf hhdm b.ptr) (physOf hhdm b.ptr + b.size.toNat)

/-- The physical bytes of a buffer and its header. -/
def extent (b : Buffer) : Set Nat :=
  Set.Ico (physOf hhdm b.header) (physOf hhdm b.header + kmallocHeaderSize.toNat + b.size.toNat)

instance (b : Buffer) (x : Nat) : Decidable (x ∈ b.bytes hhdm) :=
  inferInstanceAs (Decidable (_ ≤ _ ∧ _ < _))

end Buffer

inductive HeapCall where
  | kmalloc (size : Word)
  /-- A client stores a byte at a physical address in its buffer. -/
  | write (addr : Nat) (value : Byte)
  | kmallocFree (ptr : Word)

structure Heap where
  phys : Phys
  live : List Buffer

namespace Heap

variable (hhdm : Word)

/-- The page allocator has the run that a request of `size` bytes needs. -/
def supplied (size : Word) (s : Phys) : Bool :=
  match s.alloc hhdm (bytesToPages (size + kmallocHeaderSize)) with
  | .ok (pa, _) => pa ≠ 0
  | .error _ => false

def Allowed (x : Heap) : HeapCall → Prop
  | .kmalloc size => size.toNat + 16 < 2 ^ 64 ∧ supplied hhdm size x.phys = true
  | .write addr _ => ∃ b ∈ x.live, addr ∈ b.bytes hhdm
  | .kmallocFree ptr => ∃ b ∈ x.live, b.ptr = ptr

instance (x : Heap) : ∀ c, Decidable (x.Allowed hhdm c)
  | .kmalloc size => inferInstanceAs (Decidable (_ < _ ∧ supplied hhdm size x.phys = true))
  | .write addr _ => inferInstanceAs (Decidable (∃ b ∈ x.live, addr ∈ b.bytes hhdm))
  | .kmallocFree ptr => inferInstanceAs (Decidable (∃ b ∈ x.live, b.ptr = ptr))

def next (x : Heap) : HeapCall → Outcome Heap
  | .kmalloc size => do
    let r ← x.phys.kmalloc hhdm size
    return ⟨r.2, ⟨r.1, size⟩ :: x.live⟩
  | .write addr value => .ok ⟨x.phys.write addr value, x.live⟩
  | .kmallocFree ptr => do
    let s ← x.phys.kmallocFree hhdm ptr
    return ⟨s, x.live.eraseP fun b => b.ptr = ptr⟩

/-- The runs of the heap from a state of the page allocator. -/
def runs (start : Phys) : System Heap HeapCall :=
  .guarded (fun x => x = ⟨start, []⟩) (Allowed hhdm) (next hhdm)

end Heap

end TwoKernel
