import TwoKernel.Exe.ElfLoader
import TwoKernel.Lib.Logged
import TwoKernel.Libc.String

/-!
# What `elf_load` does, step by step

`elfLoadEvents` is `elf_load` with a log of three kinds of things: what it does with
the image (every sum, difference and product it forms an offset with, in the 64 bits
the code has for it, and every range of bytes it reads), the pages it takes from the
allocator, and what it writes through `dst`. `elfLoadSteps`, `elfLoadTakes` and
`elfLoadLog` are this loader with one kind each.

A `Source` says where the image is. `Source.resident` is the code: `data` is a pointer
to memory that the loader writes as well, the loops look at `e_phnum`, `e_phoff` and
`e_phentsize` at every turn, and `p_offset` and `p_filesz` are read after the `memset`.
`Source.apart` is an image that nobody writes. With it the loader is `elfLoad`.

The second pass has fuel for every value of `e_phnum`.
-/

namespace TwoKernel

open ByteMem Vmm Elf

namespace Elf

/-- One thing the loader does with the image: an operation on offsets, or a read of `len` bytes. -/
inductive ImageStep where
  | add (a b : Word)
  | sub (a b : Word)
  | mul (a b : Word)
  | read (offset len : Word)
  deriving DecidableEq

/-- Where the table of program headers is after `n` of them. -/
def tableOffset (ehdr : Elf64Header) (n : Word) : Word :=
  ehdr.ePhoff + n * ehdr.ePhentsize.setWidth 64

/-- The operations for `tableOffset`. -/
def tableSteps (ehdr : Elf64Header) (n : Word) : List ImageStep :=
  [.mul n (ehdr.ePhentsize.setWidth 64), .add ehdr.ePhoff (n * ehdr.ePhentsize.setWidth 64)]

/-- The program header a loop is at. -/
def phdrAt (data : Mem) (i : Nat) : Elf64Phdr :=
  readPhdr data (tableOffset (readHeader data) (.ofNat 64 i)).toNat

/-- Reading the header again, and then finding and reading it. -/
def phdrSteps (data : Mem) (i : Nat) : List ImageStep :=
  .read 0 headerSize :: tableSteps (readHeader data) (.ofNat 64 i) ++
    [.read (tableOffset (readHeader data) (.ofNat 64 i)) (phdrSize.setWidth 64)]

/-- The operations of `checkSegment`: the bytes left after the offset, once that is in the file. -/
def checkSteps (size : Word) (ph : Elf64Phdr) : List ImageStep :=
  if ph.pType ≠ programLoad then []
  else if ph.pMemsz < ph.pFilesz then []
  else if size < ph.pOffset then []
  else [.sub size ph.pOffset]

/-- The first pass. -/
def scanSteps (data : Mem) (size : Word) (sc : ImageScan) :
    List Nat → List ImageStep × Except ElfLoadError ImageScan
  | [] => ([], .ok sc)
  | i :: l =>
    let steps := phdrSteps data i ++ checkSteps size (phdrAt data i)
    match checkSegment size sc (phdrAt data i) with
    | .error e => (steps, .error e)
    | .ok sc =>
      let r := scanSteps data size sc l
      (steps ++ r.1, r.2)

/-- `checkImage`, with its steps. -/
def checkImageSteps (data : Mem) (size : Word) : List ImageStep × Except ElfLoadError ImageScan :=
  let ehdr := readHeader data
  if size < headerSize then ([], .error .invalid)
  else if ¬ elfCheckFile ehdr then ([.read 0 headerSize], .error .invalid)
  else if ¬ elfCheckSupported ehdr then ([.read 0 headerSize], .error .invalid)
  else if ehdr.ePhentsize < phdrSize then ([.read 0 headerSize], .error .invalid)
  else
    let steps := .read 0 headerSize :: tableSteps ehdr (ehdr.ePhnum.setWidth 64)
    if size < tableOffset ehdr (ehdr.ePhnum.setWidth 64) then (steps, .error .invalid)
    else
      let r := scanSteps data size .start (List.range ehdr.ePhnum.toNat)
      (steps ++ r.1, do
        let sc ← r.2
        if sc.baseFound = false ∨ ehdr.eEntry < sc.imageBase ∨ sc.imageEnd ≤ ehdr.eEntry then
          .error .invalid
        else .ok sc)

end Elf

/-! ## Events -/

/-- What the loader writes for one segment: the run it was given, and the pointer and the length of
the `memset` and of the `memcpy`. -/
structure DstWrite where
  pa : Word
  pages : Word
  cleared : Word × Word
  copied : Word × Word

/-- The writes for a segment at a run. -/
def DstWrite.ofSegment (hhdm pa : Word) (ph : Elf64Phdr) : DstWrite where
  pa := pa
  pages := alignedSize ph / pageSize
  cleared := (pa + hhdm, alignedSize ph)
  copied := (pa + hhdm + ph.pVaddr % pageSize, ph.pFilesz)

/-- What pages are taken for. -/
inductive Purpose where
  | table
  | segment
  deriving DecidableEq

/-- A call of `alloc` that was answered with pages. -/
structure Take where
  pa : Word
  count : Word
  purpose : Purpose

inductive LoadEvent where
  | step (x : ImageStep)
  | take (x : Take)
  | write (x : DstWrite)

namespace LoadEvent

def take? : LoadEvent → Option Take
  | .take x => some x
  | _ => none

def write? : LoadEvent → Option DstWrite
  | .write x => some x
  | _ => none

end LoadEvent

/-- Where the image is, and what the functions of `LibC` do beside it. -/
structure Source where
  /-- The image, as it is now. -/
  bytes : Phys → Mem
  /-- `LibC::memset(dst, 0, n)`. -/
  clear : Word → Word → Phys → Phys
  /-- `LibC::memcpy(dst, bytes + offset, n)`. -/
  copy : Word → Word → Word → Phys → Phys

namespace Source

variable (hhdm : Word)

/-- An image that is no memory of the machine. -/
def apart (data : Mem) : Source where
  bytes _ := data
  clear dst n s := s.memsetZero hhdm dst n
  copy dst offset n s := s.memcpy hhdm dst (fun i => data (offset.toNat + i)) n

/-- An image at `data`, in the direct map. -/
def resident (data : Word) : Source where
  bytes s i := s.mem (physOf hhdm data + i)
  clear dst n s := { s with mem := (LibC.memset (dst - hhdm) 0 n s.mem).2 }
  copy dst offset n s := { s with mem := (LibC.memcpy (dst - hhdm) (data + offset - hhdm) n s.mem).2 }

end Source

namespace Phys

section model

variable (hhdm : Word)

/-! ## Taking pages -/

def allocTakes (purpose : Purpose) (count : Word) (s : Phys) : Logged Take Fault (Word × Phys) := do
  let r ← .lift (s.alloc hhdm count)
  if r.1 ≠ 0 then do
    Logged.tell ⟨r.1, count, purpose⟩
    return r
  else return r

/-- `get_next_level`, as `map` calls it. -/
def getNextLevelTakes (table : Word) (i : Nat) (flags : Word) (s : Phys) :
    Logged Take Fault (Option Word × Phys) :=
  if Present (s.entry hhdm table i) then
    return (some ((s.entry hhdm table i &&& paddrMask) + hhdm), s)
  else do
    let r ← s.allocTakes hhdm .table 1
    if r.1 = 0 then
      .lift <| .error <|
        .panic "Pmm::alloc(1) failed in get_next_level() -- out of physical memory\n"
    else
      let s := r.2.clearTable hhdm (r.1 + hhdm)
      let s := s.setEntry hhdm table i <|
        if flags &&& user ≠ 0 then r.1 ||| present ||| writeable ||| user
        else r.1 ||| present ||| writeable
      return (some (r.1 + hhdm), s)

def pageTableTakes (pml4 va flags : Word) (s : Phys) : Logged Take Fault (Word × Phys) := do
  let r ← s.getNextLevelTakes hhdm pml4 (index 39 va) flags
  let pdpt ← .lift (deref r.1)
  let r ← r.2.getNextLevelTakes hhdm pdpt (index 30 va) flags
  let pd ← .lift (deref r.1)
  let r ← r.2.getNextLevelTakes hhdm pd (index 21 va) flags
  let pt ← .lift (deref r.1)
  return (pt, r.2)

def mapPageTakes (pml4 pa va flags : Word) (off : Word) (s : Phys) : Logged Take Fault Phys := do
  let curVa := alignDown (va + off) pageSize
  let curPa := alignDown (pa + off) pageSize
  let r ← s.pageTableTakes hhdm pml4 curVa flags
  return r.2.setEntry hhdm r.1 (index 12 curVa) (curPa ||| flags)

def eachPageTakes (length : Word) (body : Word → Phys → Logged Take Fault Phys) :
    Nat → Word → Phys → Logged Take Fault Phys
  | 0, _, _ => .lift (.error .diverges)
  | fuel + 1, off, s =>
    if off < length then do
      let s ← body off s
      eachPageTakes length body fuel (off + pageSize) s
    else return s

def mapTakes (pml4 pa va length flags : Word) : Phys → Logged Take Fault Phys :=
  eachPageTakes length (mapPageTakes hhdm pml4 pa va flags) walkFuel 0

/-! ## The loader -/

/-- A turn of the second pass: the error that ends the load, if any, and the memory after it. -/
def loadTurn (src : Source) (pml4 : Word) (i : Nat) (s : Phys) :
    Logged LoadEvent Fault (Option ElfLoadError × Phys) := do
  let offset := tableOffset (readHeader (src.bytes s)) (.ofNat 64 i)
  let ph := phdrAt (src.bytes s) i
  .tells ((phdrSteps (src.bytes s) i).map .step)
  if ph.pType ≠ programLoad then return (none, s)
  else do
    let pageOffset := ph.pVaddr % pageSize
    let alignedBase := ph.pVaddr - pageOffset
    let r ← (s.allocTakes hhdm .segment (alignedSize ph / pageSize)).relabel .take
    if r.1 = 0 then return (some .noMemory, r.2)
    else do
      let s ← (r.2.mapTakes hhdm pml4 r.1 alignedBase (alignedSize ph) (segmentFlags ph)).relabel .take
      let dst := r.1 + hhdm
      let s := src.clear dst (alignedSize ph) s
      -- `phdr` points into the image
      let now := readPhdr (src.bytes s) offset.toNat
      .tells [.step (.read offset (phdrSize.setWidth 64)), .step (.read now.pOffset now.pFilesz),
        .write (.ofSegment hhdm r.1 { ph with pFilesz := now.pFilesz })]
      return (none, src.copy (dst + pageOffset) now.pOffset now.pFilesz s)

/-- The second pass, from the program header `i` on. -/
def loadPass (src : Source) (pml4 : Word) : Nat → Nat → Phys →
    Logged LoadEvent Fault (Option ElfLoadError × Phys)
  | 0, _, s => return (none, s)
  | fuel + 1, i, s =>
    if i < (readHeader (src.bytes s)).ePhnum.toNat then do
      let r ← s.loadTurn hhdm src pml4 i
      match r.1 with
      | some e => return (some e, r.2)
      | none => loadPass src pml4 fuel (i + 1) r.2
    else return (none, s)

/-- `elf_load`, with its events. -/
def elfLoadEvents (src : Source) (size : Word) (space : PageDirectory) (s : Phys) :
    Logged LoadEvent Fault (Except ElfLoadError LoadedElf × Phys) := do
  .tells ((checkImageSteps (src.bytes s) size).1.map .step)
  match (checkImageSteps (src.bytes s) size).2 with
  | .error e => return (.error e, s)
  | .ok sc => do
    let r ← s.loadPass hhdm src space.pml4 (2 ^ 16) 0
    match r.1 with
    | some e => return (.error e, r.2)
    | none => do
      let ehdr := readHeader (src.bytes r.2)
      .tells [.step (.read 0 headerSize)]
      return (.ok {
        entry := ehdr.eEntry
        base := sc.imageBase
        «end» := sc.imageEnd
        phdrsAddr := 0
        phdrCount := ehdr.ePhnum
        phdrSize := ehdr.ePhentsize }, r.2)

/-- `elf_load` of an image apart, with the log of the pages it takes. -/
def elfLoadTakes (data : Mem) (size : Word) (space : PageDirectory) (s : Phys) :
    Logged Take Fault (Except ElfLoadError LoadedElf × Phys) :=
  (s.elfLoadEvents hhdm (.apart hhdm data) size space).observe LoadEvent.take?

/-- `elf_load` of an image apart, with the log of its writes. -/
def elfLoadLog (data : Mem) (size : Word) (space : PageDirectory) (s : Phys) :
    List DstWrite × Outcome (Except ElfLoadError LoadedElf × Phys) :=
  let x := (s.elfLoadEvents hhdm (.apart hhdm data) size space).observe LoadEvent.write?
  (x.log, x.result)

end model

end Phys

end TwoKernel
