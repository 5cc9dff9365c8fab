import TwoKernel.Laws.Exe.Events

/-!
# Where the loader writes

`elfLoadLog` is `elf_load` with a log of what it writes through `dst`: for each
segment it gets memory for, the run of pages, the bytes it clears and the bytes
it copies to. Without the log it is `elf_load` (`elfLoadLog_snd`).

The log speaks of pointers, which wrap as the code's do, so that the result is
about the sizes the loader computes and holds for whatever the allocator returns.
The writes stay within the run exactly if rounding the end of a segment up to a
page does not wrap (`elfLoadLog_inside_iff`). The first pass is no help there: its
check against the end of user space wraps as well. `hugeImage` has a segment of
2⁶⁴ - 1 bytes; its run has no pages at all, and its file part is written all the
same.

Two things are assumed of the memory behind the pointers. The image is apart from what
is written (`Laws.Exe.Resident` says when an image in memory is), and `dst` reaches the
run it was made from, as the direct map of the allocator's pages is never mapped
elsewhere (`Memory.Vmm`).
-/

namespace TwoKernel

open ByteMem Vmm Elf

variable {hhdm size : Word} {s s' : Phys} {data : Mem} {ph : Elf64Phdr} {sc : ImageScan}

namespace DstWrite

/-- The bytes from a pointer on. -/
def span (r : Word × Word) : Set Word := {p | (p - r.1).toNat < r.2.toNat}

/-- The pointers that are written through. -/
def written (w : DstWrite) : Set Word := span w.cleared ∪ span w.copied

/-- The pointers to the run, `[pa, pa + pages * 4096)` in physical memory. -/
def run (hhdm : Word) (w : DstWrite) : Set Word :=
  {p | (p - hhdm - w.pa).toNat < 4096 * w.pages.toNat}

end DstWrite

namespace Phys

/-! ## The log beside the load -/

/-- **The log records `elf_load`.** -/
theorem elfLoadLog_snd (data : Mem) (size : Word) (d : PageDirectory) (s : Phys) :
    (s.elfLoadLog hhdm data size d).2 = s.elfLoad hhdm data size d := elfLoadEvents_apart data size d s

/-- What is written is written for a segment. -/
theorem mem_elfLoadLog {d : PageDirectory} {w : DstWrite}
    (h : w ∈ (s.elfLoadLog hhdm data size d).1) :
    ∃ pa, ∃ ph ∈ segments data, w = DstWrite.ofSegment hhdm pa ph := by
  have hrecords : (s.elfLoadEvents hhdm (.apart hhdm data) size d).Records fun e =>
      ∀ w, e = .write w → ∃ pa, ∃ ph ∈ segments data, w = DstWrite.ofSegment hhdm pa ph := by
    refine elfLoadEvents_records d s (fun st _ w heq => by cases heq) fun sc hcheck => ?_
    refine ⟨fun w heq => (by cases heq), fun i hi s => ?_⟩
    refine loadTurn_records _ s (fun st _ w heq => by cases heq) (fun t w heq => by cases heq)
      (fun _ w heq => by cases heq) ?_
    intro hload pa w heq
    cases heq
    exact ⟨pa, _, phdrAt_mem_segments hcheck hi hload, rfl⟩
  obtain ⟨e, he, hw⟩ := List.mem_filterMap.mp h
  cases e with
  | write w' =>
    cases hw
    exact hrecords _ he w rfl
  | step st => cases hw
  | take t => cases hw

/-- The checks write nothing. -/
theorem elfLoadLog_rejected {e : ElfLoadError} (h : checkImage data size = .error e)
    (d : PageDirectory) (s : Phys) : (s.elfLoadLog hhdm data size d).1 = [] := by
  rw [List.eq_nil_iff_forall_not_mem]
  intro w hw
  have hrecords : (s.elfLoadEvents hhdm (.apart hhdm data) size d).Records fun e => ∀ w, e ≠ .write w := by
    refine elfLoadEvents_records d s (fun st _ w heq => by cases heq) fun sc hcheck => ?_
    cases h.symm.trans hcheck
  obtain ⟨e, he, hw⟩ := List.mem_filterMap.mp hw
  cases e with
  | write w' => exact hrecords _ he w' rfl
  | step st => cases hw
  | take t => cases hw

end Phys

/-! ## The size of a run -/

namespace Elf.Elf64Phdr

/-- Rounding the end of the segment, from the start of its first page, up to a page does not wrap. -/
def Rounds (ph : Elf64Phdr) : Prop := ph.pMemsz.toNat + ph.pVaddr.toNat % 4096 + 4095 < 2 ^ 64

private theorem Rounds.alignedSize_toNat (h : ph.Rounds) :
    (alignedSize ph).toNat = (ph.pMemsz.toNat + ph.pVaddr.toNat % 4096 + 4095) / 4096 * 4096 := by
  unfold Rounds at h
  have hadd : (ph.pMemsz + ph.pVaddr % pageSize).toNat =
      ph.pMemsz.toNat + ph.pVaddr.toNat % 4096 := by
    rw [BitVec.toNat_add, pageOffset_toNat, Nat.mod_eq_of_lt (by omega)]
  unfold alignedSize
  rw [alignUp_toNat (by omega), hadd]

/-- A segment of an accepted image whose file part is within its rounded size was rounded without
wrapping: if it was not, its rounded size is zero, so that it starts at a page and the check against
the end of user space leaves whole pages only. -/
theorem rounds_of_le (hok : SegmentAccepted size ph)
    (hwrap : ph.pMemsz.toNat + ph.pVaddr.toNat % 4096 < 2 ^ 64)
    (hle : (ph.pVaddr % pageSize).toNat + ph.pFilesz.toNat ≤ (alignedSize ph).toNat) : ph.Rounds := by
  by_contra hnot
  unfold Rounds at hnot
  have hadd : (ph.pMemsz + ph.pVaddr % pageSize).toNat =
      ph.pMemsz.toNat + ph.pVaddr.toNat % 4096 := by
    rw [BitVec.toNat_add, pageOffset_toNat, Nat.mod_eq_of_lt hwrap]
  have hzero : (alignedSize ph).toNat = 0 := by
    unfold alignedSize
    rw [alignUp_toNat_mod, hadd]
    omega
  rw [hzero, pageOffset_toNat] at hle
  have hlast := BitVec.le_def.mp hok.last
  have hsub : (userAddrEnd - ph.pVaddr).toNat = (2 ^ 64 - ph.pVaddr.toNat + 2 ^ 47) % 2 ^ 64 :=
    BitVec.toNat_sub _ _
  omega

end Elf.Elf64Phdr

/-- A segment that was rounded without wrapping is written within its run. -/
theorem DstWrite.written_subset {pa : Word} (hround : ph.Rounds)
    (hfile : ph.pFilesz.toNat ≤ ph.pMemsz.toNat) :
    (ofSegment hhdm pa ph).written ⊆ (ofSegment hhdm pa ph).run hhdm := by
  have hsize := hround.alignedSize_toNat
  have hpages : 4096 * (alignedSize ph / pageSize).toNat = (alignedSize ph).toNat := by
    have hdiv : (alignedSize ph / pageSize).toNat = (alignedSize ph).toNat / 4096 :=
      BitVec.toNat_udiv
    omega
  intro p hp
  have hrun : ∀ n, n < (alignedSize ph).toNat → (p - hhdm - pa).toNat = n →
      p ∈ (ofSegment hhdm pa ph).run hhdm := by
    intro n hn hp
    show (p - hhdm - pa).toNat < 4096 * (alignedSize ph / pageSize).toNat
    omega
  rcases hp with hp | hp
  · have hp : (p - (pa + hhdm)).toNat < (alignedSize ph).toNat := hp
    refine hrun _ hp ?_
    rw [BitVec.sub_sub, BitVec.add_comm hhdm pa]
  · have hp : (p - (pa + hhdm + ph.pVaddr % pageSize)).toNat < ph.pFilesz.toNat := hp
    have hoff : (ph.pVaddr % pageSize).toNat = ph.pVaddr.toNat % 4096 := pageOffset_toNat
    refine hrun ((p - (pa + hhdm + ph.pVaddr % pageSize)).toNat + ph.pVaddr.toNat % 4096) ?_ ?_
    · omega
    · unfold Elf64Phdr.Rounds at hround
      have hsplit : p - hhdm - pa =
          p - (pa + hhdm + ph.pVaddr % pageSize) + ph.pVaddr % pageSize := by
        rw [BitVec.sub_sub, ← BitVec.sub_sub p (pa + hhdm), BitVec.sub_add_cancel,
          BitVec.add_comm hhdm pa]
      rw [hsplit, BitVec.toNat_add, hoff, Nat.mod_eq_of_lt (by omega)]

namespace Phys

/-- **The writes of the loader.** For a rejected image nothing is written. For any other, every
segment has its file part within its rounded size and ends without wrapping, and every byte that is
written for it is in the run it was given, whatever the state of memory and the process, exactly if
rounding its size up to whole pages does not wrap. -/
theorem elfLoadLog_inside_iff (data : Mem) (size : Word) :
    (∀ e, checkImage data size = .error e → ∀ hhdm d s, (elfLoadLog hhdm data size d s).1 = []) ∧
    (∀ sc, checkImage data size = .ok sc →
      (((∀ ph ∈ segments data, ph.pMemsz.toNat + ph.pVaddr.toNat % 4096 < 2 ^ 64 ∧
          (ph.pVaddr % pageSize).toNat + ph.pFilesz.toNat ≤ (alignedSize ph).toNat) ∧
        ∀ hhdm d s, ∀ w ∈ (elfLoadLog hhdm data size d s).1,
          w.written ⊆ w.run hhdm ∧ (w.written.Nonempty → 1 ≤ w.pages.toNat)) ↔
      ∀ ph ∈ segments data, ph.pMemsz.toNat + ph.pVaddr.toNat % 4096 + 4095 < 2 ^ 64)) := by
  constructor
  · exact fun e he hhdm d s => elfLoadLog_rejected he d s
  intro sc hcheck
  obtain ⟨-, hfold, -⟩ := checkImage_cases hcheck
  have hok : ∀ ph ∈ segments data, SegmentAccepted size ph := foldlM_accepted hfold
  constructor
  · intro h ph hph
    obtain ⟨hwrap, hle⟩ := h.1 ph hph
    exact Elf64Phdr.rounds_of_le (hok ph hph) hwrap hle
  intro hround
  constructor
  · intro ph hph
    have hsize := Elf64Phdr.Rounds.alignedSize_toNat (hround ph hph)
    have hfile := BitVec.le_def.mp (hok ph hph).filesz
    have hno := hround ph hph
    rw [pageOffset_toNat]
    omega
  intro hhdm d s w hw
  obtain ⟨pa, ph, hph, rfl⟩ := mem_elfLoadLog hw
  have hsub : (DstWrite.ofSegment hhdm pa ph).written ⊆ (DstWrite.ofSegment hhdm pa ph).run hhdm :=
    DstWrite.written_subset (hround ph hph) (BitVec.le_def.mp (hok ph hph).filesz)
  refine ⟨hsub, ?_⟩
  intro hne
  obtain ⟨p, hp⟩ := hne
  have hrun : (p - hhdm - pa).toNat <
    4096 * (DstWrite.ofSegment hhdm pa ph).pages.toNat := hsub hp
  omega

theorem elfLoadLog_inside_user : checkImage userImage 123 ≠ .error .invalid ∧
    (∀ ph ∈ segments userImage, ph.pMemsz.toNat + ph.pVaddr.toNat % 4096 + 4095 < 2 ^ 64) ∧
    ∀ w ∈ (blank.elfLoadLog hhdm₀ userImage 123 (dirOf hhdm₀ 1024)).1,
      w.written ⊆ w.run hhdm₀ := by
  have hround : ∀ ph ∈ segments userImage,
      ph.pMemsz.toNat + ph.pVaddr.toNat % 4096 + 4095 < 2 ^ 64 := by
    rw [userImage_segments]
    decide
  refine ⟨by rw [userImage_ok]; exact fun h => (by cases h), hround, ?_⟩
  intro w hw
  exact ((((elfLoadLog_inside_iff userImage 123).2 _ userImage_ok).mpr hround).2 _ _ _ w hw).1

/-- An image of two segments: one in user space, which has the entry point, and one of 2⁶⁴ - 1 bytes at
the first address beyond it but one, with the same three bytes of the file. -/
def hugeImage : Mem :=
  let bytes := ehdrBytes 0x400010 64 2 ++ phdrBytes 5 176 0x400010 3 8 ++
    phdrBytes 5 176 0x800000000001 3 0xffffffffffffffff ++ [0xaa, 0xbb, 0xcc]
  (bytes.getD · 0)

/-- **The loader writes outside its frames.** It loads `hugeImage`, and among its writes are three
bytes for a segment whose run has no pages. -/
theorem hugeImage_outside :
    (∃ img s', blank.elfLoad hhdm₀ hugeImage 179 (dirOf hhdm₀ 1024) =
      .ok (.ok img, s')) ∧
    ∃ w ∈ (blank.elfLoadLog hhdm₀ hugeImage 179 (dirOf hhdm₀ 1024)).1,
      w.pages = 0 ∧ ∃ p ∈ w.written, p ∉ w.run hhdm₀ := by
  constructor
  · have hrun : loadedWith (fun _ _ => true)
        (blank.elfLoad hhdm₀ hugeImage 179 (dirOf hhdm₀ 1024)) = true := by
      decide +kernel
    obtain ⟨img, s', hs', -⟩ := loadedWith_eq_true hrun
    exact ⟨img, s', hs'⟩
  · have hlog : ∃ w ∈ (blank.elfLoadLog hhdm₀ hugeImage 179
        (dirOf hhdm₀ 1024)).1, w.pages = 0 ∧ w.copied.2 = 3 := by decide +kernel
    obtain ⟨w, hw, hpages, hcopied⟩ := hlog
    refine ⟨w, hw, hpages, w.copied.1, .inr ?_, ?_⟩
    · show (w.copied.1 - w.copied.1).toNat < w.copied.2.toNat
      rw [hcopied, BitVec.sub_self]
      decide
    · show ¬ (w.copied.1 - hhdm₀ - w.pa).toNat < 4096 * w.pages.toNat
      rw [hpages]
      exact Nat.not_lt_zero _

end Phys

end TwoKernel
