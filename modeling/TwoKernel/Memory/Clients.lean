import TwoKernel.Lib.System
import TwoKernel.Memory.Arena

/-!
# The allocator and its clients

Runs of the physical allocator: `init_pmm` over a memory map, then any mix of
allocations, frees of what is outstanding, and writes by the owners of
outstanding pages to the memory they own.
-/

namespace TwoKernel

open ByteMem

namespace MemmapEntry

/-- The block `init_pmm` pushes for an entry. -/
def block (e : MemmapEntry) : Block := ⟨e.base, e.length / pageSize⟩

/-- Two entries do not overlap. An empty entry counts as the page at its base: the allocator stores
a node there. -/
def Clear (e f : MemmapEntry) : Prop :=
  e.base.toNat + max e.length.toNat 4096 ≤ f.base.toNat ∨
    f.base.toNat + max f.length.toNat 4096 ≤ e.base.toNat

/-- What the loader promises of a usable entry: page aligned, not at zero, and inside the direct
map. -/
structure Ok (hhdm : Word) (e : MemmapEntry) : Prop where
  base_aligned : e.base.toNat % 4096 = 0
  length_aligned : e.length.toNat % 4096 = 0
  base_ne : e.base ≠ 0
  reached : hhdm.toNat + e.base.toNat + max e.length.toNat 4096 ≤ 2 ^ 64

end MemmapEntry

/-- The usable entries of a memory map. -/
def usableEntries (memmap : List MemmapEntry) : List MemmapEntry :=
  memmap.filter fun e => e.type = .usable

/-- A memory map as the loader promises it. -/
structure MemmapOk (hhdm : Word) (memmap : List MemmapEntry) : Prop where
  entry : ∀ e ∈ usableEntries memmap, e.Ok hhdm
  clear : (usableEntries memmap).Pairwise MemmapEntry.Clear

/-- The numbers of the pages that lie in usable entries. -/
def usablePages (memmap : List MemmapEntry) : Set Nat :=
  {p | ∃ e ∈ usableEntries memmap, e.base.toNat ≤ 4096 * p ∧
    4096 * p + 4096 ≤ e.base.toNat + e.length.toNat}

inductive PmmCall where
  | alloc (count : Word)
  | free (physMem count : Word)
  /-- A client stores a byte at a physical address it owns. -/
  | write (addr : Nat) (value : Byte)

/-- A byte stored through the direct map. -/
def Phys.write (addr : Nat) (value : Byte) (s : Phys) : Phys :=
  { s with mem := Function.update s.mem addr value }

/-- The allocator, and the allocations that are outstanding. -/
structure Clients where
  phys : Phys
  out : List Block

namespace Clients

def Allowed (x : Clients) : PmmCall → Prop
  | .alloc count => count ≠ 0
  | .free physMem count => ⟨physMem, count⟩ ∈ x.out
  | .write addr _ => ∃ b ∈ x.out, addr / 4096 ∈ b.pages

instance (x : Clients) : ∀ c, Decidable (x.Allowed c)
  | .alloc count => inferInstanceAs (Decidable (count ≠ 0))
  | .free physMem count => inferInstanceAs (Decidable (⟨physMem, count⟩ ∈ x.out))
  | .write addr _ => inferInstanceAs (Decidable (∃ b ∈ x.out, b.start ≤ addr / 4096 ∧
      addr / 4096 < b.start + b.numPages.toNat))

def next (hhdm : Word) (x : Clients) : PmmCall → Outcome Clients
  | .alloc count => do
    let r ← x.phys.alloc hhdm count
    return ⟨r.2, if r.1 = 0 then x.out else ⟨r.1, count⟩ :: x.out⟩
  | .free physMem count =>
    .ok ⟨x.phys.free hhdm physMem count, x.out.erase ⟨physMem, count⟩⟩
  | .write addr value => .ok ⟨x.phys.write addr value, x.out⟩

/-- The runs from `init_pmm`, over any initial memory. -/
def runs (hhdm : Word) (memmap : List MemmapEntry) : System Clients PmmCall :=
  .guarded (fun x => ∃ mem, x = ⟨Phys.initPmm hhdm memmap mem, []⟩) Allowed (next hhdm)

end Clients

/-- The allocator beside the abstract one. -/
structure Lockstep (hhdm : Word) (usable : Set Nat) where
  phys : Phys
  arena : Arena hhdm usable

/-- Both allocators take the same call. -/
inductive Lockstep.Step {hhdm : Word} {usable : Set Nat} :
    Lockstep hhdm usable → PmmCall → Lockstep hhdm usable → Prop
  | alloc {x : Lockstep hhdm usable} {count r : Word} {s : Phys} (hpos : 0 < count.toNat) :
      x.phys.alloc hhdm count = .ok (r, s) →
      Step x (.alloc count) ⟨s, (x.arena.alloc count hpos).2⟩
  | free {x : Lockstep hhdm usable} {b : Block} (hb : b ∈ x.arena.live) :
      Step x (.free b.pa b.numPages)
        ⟨x.phys.free hhdm b.pa b.numPages, x.arena.release b hb⟩
  | write {x : Lockstep hhdm usable} {b : Block} {addr : Nat} {value : Byte} :
      b ∈ x.arena.live → addr / 4096 ∈ b.pages →
      Step x (.write addr value) ⟨x.phys.write addr value, x.arena⟩

end TwoKernel
