import TwoKernel.Laws.Exe.Load
import TwoKernel.Laws.Memory.Spaces

/-!
# `elf_load`

Two results about the loader. `elfLoad_faithful` is for a process on its own: an
image that was loaded is in memory as its headers say. `elfLoad_confined_iff` is
for a process among others: the loader keeps to user space, and leaves the
kernel half alone, exactly for the images whose segments start in user space.

The check that should confine every image wraps for a segment that starts
beyond user space. `kernelImage` is such an image; `elfLoad_escapes` loads it into the
half of the address space that a process shares with the kernel.
-/

namespace TwoKernel

open ByteMem Vmm Trie Elf

variable {hhdm size : Word} {s s' : Phys} {st : Stock hhdm} {data : Mem} {ph : Elf64Phdr}

namespace Phys

/-! ## What is loaded -/

/-- The bytes of a loaded segment, seen through the page tables. -/
theorem Loaded.translate {places : Set Place} {r : Nat} (h : Loaded places data r ph s st) {a : Word}
    (ha : a.toNat ∈ ph.pageRange) :
    ∃ p, s.translate r a = some (p, segmentFlags ph) ∧ s.mem p.toNat = fileByte data ph a.toNat := by
  obtain ⟨f, hlt, hw, -, hmem⟩ := h a ha
  refine ⟨_, translate_of_walk hlt (segmentFlags_ok ph).1 hw, ?_⟩
  rw [BitVec.toNat_ofNat, Nat.mod_eq_of_lt (by omega)]
  exact hmem

/-- The flags a segment is mapped with. -/
theorem segmentFlags_eq (ph : Elf64Phdr) : segmentFlags ph =
    present ||| user ||| (if ph.pFlags &&& pfW ≠ 0 then writeable else 0) |||
      (if ph.pFlags &&& pfX = 0 then nx else 0) := by
  unfold segmentFlags
  split <;> split <;> decide

/-- **Loading is faithful.** Into a process whose tables are well formed, an image whose segments
start in user space and that is loaded is there as its headers say: every address of the pages of a
segment translates to a byte of its file part, or to zero outside it, under the flags of the segment;
and the bounds that are returned are those of the segments. -/
theorem elfLoad_faithful {root : Nat} {img : LoadedElf} (hroot : root < 2 ^ 52)
    (hst : s.Stocked hhdm st) (hwf : s.WellFormed root st.pool)
    (hend : ∀ ph ∈ segments data, ph.pVaddr ≤ userAddrEnd)
    (hload : s.elfLoad hhdm data size (dirOf hhdm root) = .ok (.ok img, s')) :
    (∀ ph ∈ segments data,
      Set.Ico ph.pVaddr.toNat (ph.pVaddr.toNat + ph.pMemsz.toNat) ⊆ ph.pageRange ∧
      ∀ a : Word, a.toNat ∈ ph.pageRange → ∃ p,
        s'.translate root a = some (p, present ||| user |||
          (if ph.pFlags &&& pfW ≠ 0 then writeable else 0) |||
          (if ph.pFlags &&& pfX = 0 then nx else 0)) ∧
        s'.mem p.toNat =
          if ph.pVaddr.toNat ≤ a.toNat ∧ a.toNat < ph.pVaddr.toNat + ph.pFilesz.toNat then
            data (ph.pOffset.toNat + (a.toNat - ph.pVaddr.toNat)) else 0) ∧
    IsLeast {n | ∃ ph ∈ segments data, ph.pVaddr.toNat = n} img.base.toNat ∧
    IsGreatest {n | ∃ ph ∈ segments data, ph.pVaddr.toNat + ph.pMemsz.toNat = n} img.end.toNat := by
  have htree := (tables_tree_iff hroot).mpr ⟨hst, hwf⟩
  rcases elfLoad_ok hload with ⟨_, -, hres, -⟩ | ⟨sc, e, hcheck, hs, hres⟩
  · cases hres
  cases e with
  | some err => cases hres
  | none =>
    cases hres
    obtain ⟨hsc, hne⟩ := checkImage_scanned hcheck hend
    obtain ⟨st', -, hloaded⟩ := htree.loadImage hsc
      (fun a _ p _ hp => ⟨rfl, hp.length_le⟩) hs
    refine ⟨fun ph hph => ⟨?_, fun a ha => ?_⟩, ⟨?_, ?_⟩, ⟨?_, ?_⟩⟩
    · obtain ⟨hlo, hhi⟩ := (hsc.ok ph hph).bounds
      exact Set.Ico_subset_Ico hlo hhi
    · rw [← segmentFlags_eq]
      exact (hloaded rfl ph hph).translate ha
    · exact hsc.base_mem hne
    · intro n hn
      obtain ⟨ph, hph, rfl⟩ := hn
      exact hsc.base_le ph hph
    · -- the last address below the end is in a segment, which therefore ends there
      obtain ⟨q, hq⟩ := List.exists_mem_of_ne_nil _ hne
      have hpos := (hsc.ok q hq).first
      have hle := hsc.le_end q hq
      obtain ⟨ph, hph, hlt⟩ := hsc.end_mem (sc.imageEnd.toNat - 1) (by omega)
      have hge := hsc.le_end ph hph
      exact ⟨ph, hph, by dsimp only; omega⟩
    · intro n hn
      obtain ⟨ph, hph, rfl⟩ := hn
      exact hsc.le_end ph hph

/-- The bytes of a word. -/
def wordBytes (w : Word) : List Byte := (List.range 8).map fun i => .ofNat 8 (w.toNat / 256 ^ i)

/-- A header that the loader accepts. -/
def ehdrBytes (entry phoff : Word) (phnum : Byte) : List Byte :=
  [0x7f, 0x45, 0x4c, 0x46, 2, 1, 1, 0, 0, 0, 0, 0, 0, 0, 0, 0, 2, 0, 0x3e, 0, 1, 0, 0, 0] ++
    [entry, phoff, 0].flatMap wordBytes ++ [0, 0, 0, 0, 64, 0, 56, 0, phnum, 0, 0, 0, 0, 0, 0, 0]

/-- The program header of a segment to load. -/
def phdrBytes (flags : Byte) (offset vaddr filesz memsz : Word) : List Byte :=
  [1, 0, 0, 0, flags, 0, 0, 0] ++ [offset, vaddr, 0, filesz, memsz, 0x1000].flatMap wordBytes

/-- An image of one segment of eight bytes at `vaddr`, three of them from the file. -/
def oneSegment (vaddr : Word) : Mem :=
  let bytes := ehdrBytes vaddr 64 1 ++ phdrBytes 5 120 vaddr 3 8 ++ [0xaa, 0xbb, 0xcc]
  (bytes.getD · 0)

def userImage : Mem := oneSegment 0x400010

theorem userImage_segments : segments userImage = [⟨1, 5, 120, 0x400010, 3, 8⟩] := by decide +kernel

theorem userImage_ok : checkImage userImage 123 = .ok ⟨0x400010, true, 0x400018, 0x401000⟩ := by
  decide +kernel

/-- A machine with a thousand free pages and zeros everywhere else. -/
def blank : Phys := initPmm hhdm₀ Spaces.oneRegion fun _ => 0

theorem blank_wellFormed : blank.WellFormed 1024 (Arena.init Spaces.oneRegion_ok).stock.pool := by
  refine wellFormed_initPmm Spaces.oneRegion_ok ?_
  intro hp
  obtain ⟨b, hb, -, hlt⟩ := hp
  have hend : ∀ c ∈ [Block.mk 0x1000 1000], c.start + max c.numPages.toNat 1 ≤ 1024 := by decide
  exact Nat.lt_irrefl _ (Nat.lt_of_lt_of_le hlt (hend b hb))

/-- The load succeeded, and what it returned and left passes a test. -/
def loadedWith (test : LoadedElf → Phys → Bool) :
    Outcome (Except ElfLoadError LoadedElf × Phys) → Bool
  | .ok (.ok img, s) => test img s
  | _ => false

theorem loadedWith_eq_true {test : LoadedElf → Phys → Bool}
    {x : Outcome (Except ElfLoadError LoadedElf × Phys)} (h : loadedWith test x = true) :
    ∃ img s, x = .ok (.ok img, s) ∧ test img s = true := by
  unfold loadedWith at h
  split at h
  · exact ⟨_, _, rfl, h⟩
  · cases h

theorem elfLoad_faithful_blank : ∃ s', ∃ p,
    blank.elfLoad hhdm₀ userImage 123 (dirOf hhdm₀ 1024) =
      .ok (.ok ⟨0x400010, 0x400010, 0x400018, 0, 1, 56⟩, s') ∧
    s'.translate 1024 0x400011 = some (p, present ||| user) ∧ s'.mem p.toNat = 0xbb := by
  have hrun : loadedWith (fun img _ => img = ⟨0x400010, 0x400010, 0x400018, 0, 1, 56⟩)
      (blank.elfLoad hhdm₀ userImage 123 (dirOf hhdm₀ 1024)) = true := by
    decide +kernel
  obtain ⟨img, s', hs', himg⟩ := loadedWith_eq_true hrun
  rw [of_decide_eq_true himg] at hs'
  obtain ⟨hseg, -⟩ := elfLoad_faithful (by decide) (Spaces.oneRegion_stocked _) blank_wellFormed
    (by rw [userImage_segments]; decide) hs'
  rw [userImage_segments] at hseg
  obtain ⟨p, hp, hmem⟩ := (hseg _ (List.mem_singleton_self _)).2 0x400011 ⟨by decide, by decide⟩
  exact ⟨s', p, hs', hp, hmem.trans (by decide +kernel)⟩

/-! ## Where it is loaded -/

/-- An image that is not rejected has passed the first pass. -/
theorem exists_checkImage_ok {d : PageDirectory}
    (haccept : ∀ s', s.elfLoad hhdm data size d ≠ .ok (.error .invalid, s')) :
    ∃ sc, checkImage data size = .ok sc := by
  cases hcheck : checkImage data size with
  | ok sc => exact ⟨sc, rfl⟩
  | error err =>
    have hrej : s.elfLoad hhdm data size d = .ok (.error err, s) := by
      unfold elfLoad
      rw [hcheck]
    rw [checkImage_error hcheck] at hrej
    exact absurd hrej (haccept s)

/-- **The loader is confined to user space**, for every process in every state and every image that
it does not reject, exactly if the segments of the image start in user space. -/
theorem elfLoad_confined_iff {x : Spaces} {d : PageDirectory}
    (hx : (Spaces.runs hhdm).Reachable x) (hd : d ∈ x.live)
    (haccept : ∀ s', x.phys.elfLoad hhdm data size d ≠ .ok (.error .invalid, s')) :
    ((∀ ph ∈ segments data, ph.InUserSpace) ∧
      (segments data).Pairwise (fun ph ph' => Disjoint ph.pageRange ph'.pageRange) ∧
      ∀ res s', x.phys.elfLoad hhdm data size d = .ok (res, s') → ∀ v, 256 ≤ index 39 v →
        s'.walk d.root v = x.phys.walk d.root v ∧
        s'.walk x.kernel.root v = x.phys.walk x.kernel.root v) ↔
    ∀ ph ∈ segments data, ph.pVaddr ≤ userAddrEnd := by
  constructor
  · intro h ph hph
    exact (h.1 ph hph).vaddr_le
  intro hend
  obtain ⟨st, K, R, hco⟩ := Spaces.coherent hx
  obtain ⟨r, hr, hdir, hroot⟩ := hco.mem_live hd
  have hK : x.kernel.root = K := by
    rw [hco.kernel]
    exact dirOf_root (hco.tables.root (mem_kernel K R))
  rw [hroot, hK]
  obtain ⟨sc, hcheck⟩ := exists_checkImage_ok haccept
  obtain ⟨hsc, -⟩ := checkImage_scanned hcheck hend
  refine ⟨fun ph hph => (hsc.ok ph hph).inUserSpace, ?_, ?_⟩
  · refine hsc.ordered.imp ?_
    intro ph ph' hle
    rw [Set.disjoint_left]
    intro a ha ha'
    exact absurd (Nat.lt_of_lt_of_le ha.2 hle) (Nat.not_lt.mpr ha'.1)
  intro res s' hs v hv
  rcases elfLoad_ok hs with ⟨_, -, -, rfl⟩ | ⟨sc', e, -, hs, -⟩
  · exact ⟨rfl, rfl⟩
  rw [hdir] at hs
  have hcov : ∀ a : Word, a.toNat < 2 ^ 47 → ∀ p, p ≠ [] → p <+: tablePath a →
      (r, p) ∈ spacePlaces K R := by
    intro a ha p _ hp
    refine mem_lower hr hp.length_le (lower_tablePath ?_ hp)
    rw [index_eq level39]
    omega
  obtain ⟨st', hpass, -⟩ := hco.tables.loadImage hsc hcov hs
  have hco' := hco.keep hpass.tables hpass.keeps
  have hkernel : s'.walk K v = x.phys.walk K v := by
    rw [walk_eq, walk_eq]
    exact hpass.others ⟨le_rfl, .inl ⟨rfl, upper_tablePath hv List.prefix_rfl⟩⟩ rfl
      (hco.ne_kernel hr).symm _
  refine ⟨?_, hkernel⟩
  rw [hco.walk_upper hr hv, ← hkernel]
  exact hco'.walk_upper hr hv

/-- An image that passed the check is not rejected. -/
theorem elfLoad_ne_invalid {sc : ImageScan} (h : checkImage data size = .ok sc) (s : Phys)
    (d : PageDirectory) (s' : Phys) : s.elfLoad hhdm data size d ≠ .ok (.error .invalid, s') := by
  intro hs
  rcases elfLoad_ok hs with ⟨err, hcheck, -, -⟩ | ⟨sc', e, -, hs, hres⟩
  · cases h.symm.trans hcheck
  · cases e with
    | none => cases hres
    | some err =>
      cases hres
      exact loadSegments_ne_invalid _ _ hs

theorem elfLoad_confined_user : ∃ x : Spaces, ∃ d ∈ x.live, ∀ res s',
    x.phys.elfLoad hhdm₀ userImage 123 d = .ok (res, s') →
      s'.walk x.kernel.root 0xffff800000001000 = x.phys.walk x.kernel.root 0xffff800000001000 := by
  obtain ⟨x, hx, d, hd⟩ := Spaces.exists_user
  obtain ⟨-, -, hkept⟩ := (elfLoad_confined_iff hx hd
    (fun s' => elfLoad_ne_invalid userImage_ok x.phys d s')).mpr (by rw [userImage_segments]; decide)
  exact ⟨x, d, hd, fun res s' hs => (hkept res s' hs _ (by decide)).2⟩

/-- An image whose segment starts in the kernel half. -/
def kernelImage : Mem := oneSegment 0xffffffff80000010

private theorem kernelImage_segments :
    segments kernelImage = [⟨1, 5, 120, 0xffffffff80000010, 3, 8⟩] := by decide +kernel

private theorem kernelImage_ok : checkImage kernelImage 123 =
    .ok ⟨0xffffffff80000010, true, 0xffffffff80000018, 0xffffffff80001000⟩ := by decide +kernel

/-- A machine with five free pages where the root tables in pages 8 and 9 share the table in page 10
for the last slot. -/
def sharedHalf : Phys := initPmm hhdm₀ [⟨0x1000, 0x5000, .usable⟩]
  (store64 (store64 (fun _ => 0) 0x8ff8 0xa003) 0x9ff8 0xa003)

/-- **The loader is not confined to user space.** It does not reject `kernelImage`, in any state; and
loading it into the process of page 9 changes a kernel address there and in the kernel directory of
page 8. -/
theorem elfLoad_escapes :
    (∃ x : Spaces, (Spaces.runs hhdm₀).Reachable x ∧ ∃ d ∈ x.live,
      (∀ s', x.phys.elfLoad hhdm₀ kernelImage 123 d ≠ .ok (.error .invalid, s')) ∧
      ∃ ph ∈ segments kernelImage, ¬ ph.InUserSpace) ∧
    ∃ s', sharedHalf.elfLoad hhdm₀ kernelImage 123 (dirOf hhdm₀ 9) =
        .ok (.ok ⟨0xffffffff80000010, 0xffffffff80000010, 0xffffffff80000018, 0, 1, 56⟩, s') ∧
      256 ≤ index 39 0xffffffff80000010 ∧
      s'.walk 9 0xffffffff80000010 ≠ sharedHalf.walk 9 0xffffffff80000010 ∧
      s'.walk 8 0xffffffff80000010 ≠ sharedHalf.walk 8 0xffffffff80000010 := by
  constructor
  · obtain ⟨x, hx, d, hd⟩ := Spaces.exists_user
    refine ⟨x, hx, d, hd, elfLoad_ne_invalid kernelImage_ok x.phys d, ?_⟩
    rw [kernelImage_segments]
    exact ⟨_, List.mem_singleton_self _, fun h => absurd h.vaddr_le (by decide)⟩
  · have hrun : loadedWith (fun img s' =>
          img = ⟨0xffffffff80000010, 0xffffffff80000010, 0xffffffff80000018, 0, 1, 56⟩ ∧
            256 ≤ index 39 0xffffffff80000010 ∧
            s'.walk 9 0xffffffff80000010 ≠ sharedHalf.walk 9 0xffffffff80000010 ∧
            s'.walk 8 0xffffffff80000010 ≠ sharedHalf.walk 8 0xffffffff80000010)
        (sharedHalf.elfLoad hhdm₀ kernelImage 123 (dirOf hhdm₀ 9)) =
          true := by decide +kernel
    obtain ⟨img, s', hs', himg⟩ := loadedWith_eq_true hrun
    obtain ⟨rfl, hkept⟩ := of_decide_eq_true himg
    exact ⟨s', hs', hkept⟩

end Phys

end TwoKernel
