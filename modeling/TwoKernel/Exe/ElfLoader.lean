import TwoKernel.Memory.Vmm

/-!
# `Exe::Elf`, the program loader

The loader of `exe/elf_loader.cpp`, with the structures of `exe/elf.hpp` that
it reads. The image is bytes of its own, apart from the memory the loader writes. In
the machine it is memory too: `Exe.Events` has the loader of an image at a pointer,
which reads it anew at every turn, and `Laws.Exe.Resident` the condition under which
the two do the same.

`elf_load` first goes through the program headers and rejects what it does not
like, keeping the running state `ImageScan`; then goes through them again and
allocates, maps, clears and copies one segment at a time. A segment it has no
memory for ends the load with the segments before it still mapped.

Of the two structures the members the loader reads are modelled. The offset of
a program header does not wrap, as `e_phoff`, `e_phnum` and `e_phentsize` have
been bounded before one is read.
-/

namespace TwoKernel

open ByteMem Vmm

namespace Elf

/-- `struct Elf64_Header`. -/
structure Elf64Header where
  eIdent : Nat → Byte
  eType : BitVec 16
  eMachine : BitVec 16
  eEntry : Word
  ePhoff : Word
  ePhentsize : BitVec 16
  ePhnum : BitVec 16

/-- `struct Elf64_Phdr`. -/
structure Elf64Phdr where
  pType : BitVec 32
  pFlags : BitVec 32
  pOffset : Word
  pVaddr : Word
  pFilesz : Word
  pMemsz : Word
  deriving DecidableEq

/-- `sizeof(Elf64_Header)`. -/
def headerSize : Word := 64

/-- `sizeof(Elf64_Phdr)`. -/
def phdrSize : BitVec 16 := 56

/-- `ELFMACHINE`. -/
def elfMachine : BitVec 16 := 0x3e

/-- `ElfType::Rel`. -/
def typeRel : BitVec 16 := 1

/-- `ElfType::Exec`. -/
def typeExec : BitVec 16 := 2

/-- `ProgramType::Load`. -/
def programLoad : BitVec 32 := 1

/-- `PF_X`. -/
def pfX : BitVec 32 := 0x1

/-- `PF_W`. -/
def pfW : BitVec 32 := 0x2

def readHeader (data : Mem) : Elf64Header where
  eIdent i := data i
  eType := load16 data 16
  eMachine := load16 data 18
  eEntry := load64 data 24
  ePhoff := load64 data 32
  ePhentsize := load16 data 54
  ePhnum := load16 data 56

def readPhdr (data : Mem) (at_ : Nat) : Elf64Phdr where
  pType := load32 data at_
  pFlags := load32 data (at_ + 4)
  pOffset := load64 data (at_ + 8)
  pVaddr := load64 data (at_ + 16)
  pFilesz := load64 data (at_ + 32)
  pMemsz := load64 data (at_ + 40)

/-- The program headers, in order. -/
def phdrs (data : Mem) : List Elf64Phdr :=
  let ehdr := readHeader data
  (List.range ehdr.ePhnum.toNat).map fun i =>
    readPhdr data (ehdr.ePhoff.toNat + i * ehdr.ePhentsize.toNat)

def elfCheckFile (hdr : Elf64Header) : Bool :=
  hdr.eIdent 0 = 0x7f && hdr.eIdent 1 = 0x45 && hdr.eIdent 2 = 0x4c && hdr.eIdent 3 = 0x46

def elfCheckSupported (hdr : Elf64Header) : Bool :=
  hdr.eIdent 4 = 2 && hdr.eIdent 5 = 1 && hdr.eMachine = elfMachine &&
    (hdr.eType = typeExec || hdr.eType = typeRel) && !(512 ≤ hdr.ePhnum) &&
    !(512 ≤ hdr.ePhentsize) && !((0xffffffff : Word) ≤ hdr.ePhoff)

inductive ElfLoadError where
  | invalid | noMemory
  deriving DecidableEq, Repr

structure LoadedElf where
  entry : Word
  base : Word
  «end» : Word
  phdrsAddr : Word
  phdrCount : BitVec 16
  phdrSize : BitVec 16
  deriving DecidableEq, Repr

/-- What the first pass keeps from one header to the next. -/
structure ImageScan where
  imageBase : Word
  baseFound : Bool
  imageEnd : Word
  prevPageEnd : Word
  deriving DecidableEq

def ImageScan.start : ImageScan := ⟨0, false, 0, 0⟩

/-- The body of the first pass. -/
def checkSegment (size : Word) (sc : ImageScan) (ph : Elf64Phdr) : Except ElfLoadError ImageScan :=
  if ph.pType ≠ programLoad then .ok sc
  else if ph.pMemsz < ph.pFilesz then .error .invalid
  else if size < ph.pOffset ∨ size - ph.pOffset < ph.pFilesz then .error .invalid
  else if ph.pVaddr < pageSize ∨ userAddrEnd - ph.pVaddr < ph.pMemsz then .error .invalid
  else if sc.baseFound = true ∧ alignDown ph.pVaddr pageSize < sc.prevPageEnd then .error .invalid
  else .ok {
    imageBase := if sc.baseFound then sc.imageBase else ph.pVaddr
    baseFound := true
    imageEnd := if sc.imageEnd < ph.pVaddr + ph.pMemsz then ph.pVaddr + ph.pMemsz else sc.imageEnd
    prevPageEnd := alignUp (ph.pVaddr + ph.pMemsz) pageSize }

/-- Everything `elf_load` checks before it touches memory. -/
def checkImage (data : Mem) (size : Word) : Except ElfLoadError ImageScan :=
  let ehdr := readHeader data
  if size < headerSize then .error .invalid
  else if ¬ elfCheckFile ehdr then .error .invalid
  else if ¬ elfCheckSupported ehdr then .error .invalid
  else if ehdr.ePhentsize < phdrSize ∨
      size < ehdr.ePhoff + ehdr.ePhnum.setWidth 64 * ehdr.ePhentsize.setWidth 64 then .error .invalid
  else do
    let sc ← (phdrs data).foldlM (checkSegment size) .start
    if sc.baseFound = false ∨ ehdr.eEntry < sc.imageBase ∨ sc.imageEnd ≤ ehdr.eEntry then
      .error .invalid
    else .ok sc

/-- `aligned_size`. -/
def alignedSize (ph : Elf64Phdr) : Word := alignUp (ph.pMemsz + ph.pVaddr % pageSize) pageSize

/-- The flags a segment is mapped with. -/
def segmentFlags (ph : Elf64Phdr) : Word :=
  let flags := present ||| user
  let flags := if ph.pFlags &&& pfW ≠ 0 then flags ||| writeable else flags
  if ph.pFlags &&& pfX = 0 then flags ||| nx else flags

end Elf

open Elf

namespace Phys

variable (hhdm : Word)

/-- `LibC::memset(dst, 0, n)`, of bytes that do not wrap. -/
def memsetZero (dst n : Word) (s : Phys) : Phys :=
  { s with mem := fill s.mem (physOf hhdm dst) n.toNat 0 }

/-- `LibC::memcpy(dst, src, n)`, from memory apart. -/
def memcpy (dst : Word) (src : Mem) (n : Word) (s : Phys) : Phys :=
  { s with mem := blit s.mem (physOf hhdm dst) n.toNat src }

/-- The body of the second pass: the error that ends the load, if any, and the memory after it. -/
def loadSegment (data : Mem) (pml4 : Word) (ph : Elf64Phdr) (s : Phys) :
    Outcome (Option ElfLoadError × Phys) := do
  let pageOffset := ph.pVaddr % pageSize
  let alignedBase := ph.pVaddr - pageOffset
  let r ← s.alloc hhdm (alignedSize ph / pageSize)
  if r.1 = 0 then .ok (some .noMemory, r.2)
  else do
    let s ← r.2.map hhdm pml4 r.1 alignedBase (alignedSize ph) (segmentFlags ph)
    let dst := r.1 + hhdm
    let s := s.memsetZero hhdm dst (alignedSize ph)
    let s := s.memcpy hhdm (dst + pageOffset) (fun i => data (ph.pOffset.toNat + i)) ph.pFilesz
    return (none, s)

/-- The second pass. -/
def loadSegments (data : Mem) (pml4 : Word) : List Elf64Phdr → Phys →
    Outcome (Option ElfLoadError × Phys)
  | [], s => .ok (none, s)
  | ph :: l, s =>
    if ph.pType ≠ programLoad then loadSegments data pml4 l s
    else do
      let r ← s.loadSegment hhdm data pml4 ph
      match r.1 with
      | some e => .ok (some e, r.2)
      | none => loadSegments data pml4 l r.2

def elfLoad (data : Mem) (size : Word) (space : PageDirectory) (s : Phys) :
    Outcome (Except ElfLoadError LoadedElf × Phys) :=
  match checkImage data size with
  | .error e => .ok (.error e, s)
  | .ok sc => do
    let r ← s.loadSegments hhdm data space.pml4 (phdrs data)
    match r.1 with
    | some e => return (.error e, r.2)
    | none => return (.ok {
        entry := (readHeader data).eEntry
        base := sc.imageBase
        «end» := sc.imageEnd
        phdrsAddr := 0
        phdrCount := (readHeader data).ePhnum
        phdrSize := (readHeader data).ePhentsize }, r.2)

end Phys

end TwoKernel
