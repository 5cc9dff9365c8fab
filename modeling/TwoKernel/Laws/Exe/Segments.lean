import TwoKernel.Exe.ElfLoader
import TwoKernel.Laws.Memory.Address

/-!
# The segments of an accepted image

What the first pass of `elf_load` has made sure of when it accepts. The check
that a segment ends in user space subtracts its address from the end of user
space, and that wraps for an address beyond it; so everything here is about
segments that start no later than `USER_ADDR_END`. For those the pass finds
their page ranges in user space, in order, one after the other (`Scanned`).

`checkSegment_cases` says what one turn of the pass does, `Scanned.step` what it
keeps, and `checkImage_scanned` what holds after the last.
-/

namespace TwoKernel

open ByteMem Vmm

namespace Elf

/-- The headers that are loaded. -/
def loads (l : List Elf64Phdr) : List Elf64Phdr := l.filter fun ph => ph.pType = programLoad

/-- The segments of an image. -/
def segments (data : Mem) : List Elf64Phdr := loads (phdrs data)

namespace Elf64Phdr

/-- `page_start`. -/
def pageStart (ph : Elf64Phdr) : Word := alignDown ph.pVaddr pageSize

/-- `page_end`. -/
def pageEnd (ph : Elf64Phdr) : Word := alignUp (ph.pVaddr + ph.pMemsz) pageSize

/-- The addresses of the pages of a segment. -/
def pageRange (ph : Elf64Phdr) : Set Nat := Set.Ico ph.pageStart.toNat ph.pageEnd.toNat

/-- The page range is computed without wrapping around. -/
def NoWrap (ph : Elf64Phdr) : Prop := ph.pVaddr.toNat + ph.pMemsz.toNat + 4095 < 2 ^ 64

/-- The page range is computed without wrapping around and lies in user space. -/
structure InUserSpace (ph : Elf64Phdr) : Prop where
  noWrap : ph.NoWrap
  start : pageSize.toNat ≤ ph.pageStart.toNat
  «end» : ph.pageEnd.toNat ≤ userAddrEnd.toNat

variable {ph : Elf64Phdr}

theorem pageStart_toNat : ph.pageStart.toNat = ph.pVaddr.toNat / 4096 * 4096 := alignDown_toNat

theorem NoWrap.pageEnd_toNat (h : ph.NoWrap) :
    ph.pageEnd.toNat = (ph.pVaddr.toNat + ph.pMemsz.toNat + 4095) / 4096 * 4096 := by
  unfold NoWrap at h
  have hadd : (ph.pVaddr + ph.pMemsz).toNat = ph.pVaddr.toNat + ph.pMemsz.toNat := by
    rw [BitVec.toNat_add, Nat.mod_eq_of_lt (by omega)]
  unfold pageEnd
  rw [alignUp_toNat (by omega), hadd]

/-- A segment in user space starts there. -/
theorem InUserSpace.vaddr_le (h : ph.InUserSpace) : ph.pVaddr ≤ userAddrEnd := by
  have hend := h.end
  rw [h.noWrap.pageEnd_toNat] at hend
  rw [BitVec.le_def]
  omega

end Elf64Phdr

/-- What the pass has checked of one segment. -/
structure SegmentOk (size : Word) (ph : Elf64Phdr) : Prop where
  first : 4096 ≤ ph.pVaddr.toNat
  last : ph.pVaddr.toNat + ph.pMemsz.toNat ≤ 2 ^ 47
  filesz : ph.pFilesz.toNat ≤ ph.pMemsz.toNat
  inFile : ph.pOffset.toNat + ph.pFilesz.toNat ≤ size.toNat

/-- The checks of the pass on one segment, as they are made. -/
structure SegmentAccepted (size : Word) (ph : Elf64Phdr) : Prop where
  filesz : ph.pFilesz ≤ ph.pMemsz
  offset : ph.pOffset ≤ size
  inFile : ph.pFilesz ≤ size - ph.pOffset
  first : pageSize ≤ ph.pVaddr
  last : ph.pMemsz ≤ userAddrEnd - ph.pVaddr

variable {size : Word} {sc sc' : ImageScan} {ph : Elf64Phdr} {l l' : List Elf64Phdr} {data : Mem}

theorem loads_cons_of_load (h : ph.pType = programLoad) (l : List Elf64Phdr) :
    loads (ph :: l) = ph :: loads l := List.filter_cons_of_pos (decide_eq_true h)

theorem loads_cons_of_ne (h : ph.pType ≠ programLoad) (l : List Elf64Phdr) :
    loads (ph :: l) = loads l := List.filter_cons_of_neg fun h' => h (of_decide_eq_true h')

private theorem loads_append : loads (l ++ l') = loads l ++ loads l' := List.filter_append _ _

private theorem loads_subset_cons (ph : Elf64Phdr) (l : List Elf64Phdr) : loads l ⊆ loads (ph :: l) :=
  ((List.sublist_cons_self ph l).filter _).subset

private theorem mem_loads_cons (h : ph.pType = programLoad) (l : List Elf64Phdr) :
    ph ∈ loads (ph :: l) := by
  rw [loads_cons_of_load h]
  exact List.mem_cons_self

/-- The bytes of a segment are in the file: the check does not wrap. -/
theorem SegmentAccepted.offset_add_le (h : SegmentAccepted size ph) :
    ph.pOffset.toNat + ph.pFilesz.toNat ≤ size.toNat := by
  have hoff := BitVec.le_def.mp h.offset
  have hlen := BitVec.le_def.mp h.inFile
  rw [BitVec.toNat_sub_of_le h.offset] at hlen
  omega

/-- For a segment that starts in user space the last check does not wrap. -/
theorem SegmentAccepted.ok (h : SegmentAccepted size ph) (hend : ph.pVaddr ≤ userAddrEnd) :
    SegmentOk size ph := by
  have hlast := BitVec.le_def.mp h.last
  have hend' : ph.pVaddr.toNat ≤ 2 ^ 47 := BitVec.le_def.mp hend
  have hsub : (userAddrEnd - ph.pVaddr).toNat = 2 ^ 47 - ph.pVaddr.toNat :=
    BitVec.toNat_sub_of_le hend
  exact ⟨BitVec.le_def.mp h.first, by omega, BitVec.le_def.mp h.filesz, h.offset_add_le⟩

namespace SegmentOk

theorem noWrap (h : SegmentOk size ph) : ph.NoWrap := by
  have hlast := h.last
  unfold Elf64Phdr.NoWrap
  omega

theorem inUserSpace (h : SegmentOk size ph) : ph.InUserSpace := by
  have hfirst := h.first
  have hlast := h.last
  refine ⟨h.noWrap, ?_, ?_⟩
  · show 4096 ≤ _
    rw [Elf64Phdr.pageStart_toNat]
    omega
  · show _ ≤ 2 ^ 47
    rw [h.noWrap.pageEnd_toNat]
    omega

private theorem end_toNat (h : SegmentOk size ph) :
    (ph.pVaddr + ph.pMemsz).toNat = ph.pVaddr.toNat + ph.pMemsz.toNat := by
  have hlast := h.last
  rw [BitVec.toNat_add, Nat.mod_eq_of_lt (by omega)]

/-- The segment is in its pages. -/
theorem bounds (h : SegmentOk size ph) : ph.pageStart.toNat ≤ ph.pVaddr.toNat ∧
    ph.pVaddr.toNat + ph.pMemsz.toNat ≤ ph.pageEnd.toNat := by
  rw [Elf64Phdr.pageStart_toNat, h.noWrap.pageEnd_toNat]
  omega

end SegmentOk

/-! ## One header -/

/-- The state after a segment that passed. -/
def ImageScan.advance (sc : ImageScan) (ph : Elf64Phdr) : ImageScan where
  imageBase := if sc.baseFound then sc.imageBase else ph.pVaddr
  baseFound := true
  imageEnd := if sc.imageEnd < ph.pVaddr + ph.pMemsz then ph.pVaddr + ph.pMemsz else sc.imageEnd
  prevPageEnd := ph.pageEnd

/-- A turn of the pass that accepts skips the header or advances over it. -/
theorem checkSegment_cases (h : checkSegment size sc ph = .ok sc') :
    (ph.pType ≠ programLoad ∧ sc' = sc) ∨
      (ph.pType = programLoad ∧ sc' = sc.advance ph ∧ SegmentAccepted size ph ∧
        (sc.baseFound = true → sc.prevPageEnd.toNat ≤ ph.pageStart.toNat)) := by
  unfold checkSegment at h
  by_cases htype : ph.pType = programLoad
  · rw [if_neg (not_not_intro htype)] at h
    split at h
    · cases h
    next hfilesz =>
    split at h
    · cases h
    next hfile =>
    split at h
    · cases h
    next hvaddr =>
    split at h
    · cases h
    next hprev =>
    cases h
    obtain ⟨hoff, hlen⟩ := not_or.mp hfile
    obtain ⟨hfirst, hlast⟩ := not_or.mp hvaddr
    rw [BitVec.not_lt] at hfilesz hoff hlen hfirst hlast
    refine .inr ⟨htype, rfl, ⟨hfilesz, hoff, hlen, hfirst, hlast⟩, ?_⟩
    intro hbase
    exact Nat.le_of_not_lt fun hlt => hprev ⟨hbase, BitVec.lt_def.mpr hlt⟩
  · rw [if_pos htype] at h
    cases h
    exact .inl ⟨htype, rfl⟩

/-! ## The pass -/

/-- The state of the pass after the segments `l`: they are in user space and in order, `prev_page_end`
bounds their pages, and `image_base` and `image_end` are the bounds of their addresses. -/
structure Scanned (size : Word) (l : List Elf64Phdr) (sc : ImageScan) : Prop where
  found : sc.baseFound = true ↔ l ≠ []
  ok : ∀ ph ∈ l, SegmentOk size ph
  ordered : l.Pairwise fun ph ph' => ph.pageEnd.toNat ≤ ph'.pageStart.toNat
  prev : ∀ ph ∈ l, ph.pageEnd.toNat ≤ sc.prevPageEnd.toNat
  base_le : ∀ ph ∈ l, sc.imageBase.toNat ≤ ph.pVaddr.toNat
  base_mem : l ≠ [] → ∃ ph ∈ l, ph.pVaddr.toNat = sc.imageBase.toNat
  le_end : ∀ ph ∈ l, ph.pVaddr.toNat + ph.pMemsz.toNat ≤ sc.imageEnd.toNat
  end_mem : ∀ n, n < sc.imageEnd.toNat → ∃ ph ∈ l, n < ph.pVaddr.toNat + ph.pMemsz.toNat

theorem Scanned.start : Scanned size [] .start where
  found := by simp [ImageScan.start]
  ok := by simp
  ordered := .nil
  prev := by simp
  base_le := by simp
  base_mem h := absurd rfl h
  le_end := by simp
  end_mem _ h := absurd h (Nat.not_lt_zero _)

theorem Scanned.step (h : Scanned size l sc) (hok : SegmentOk size ph)
    (hprev : sc.baseFound = true → sc.prevPageEnd.toNat ≤ ph.pageStart.toNat) :
    Scanned size (l ++ [ph]) (sc.advance ph) := by
  obtain ⟨hstart, hend⟩ := hok.bounds
  -- what was scanned before lies below the new segment
  have hbelow : ∀ q ∈ l, q.pageEnd.toNat ≤ ph.pageStart.toNat := fun q hq =>
    Nat.le_trans (h.prev q hq) (hprev (h.found.mpr (List.ne_nil_of_mem hq)))
  have hmem : ∀ {P : Elf64Phdr → Prop}, (∀ q ∈ l, P q) → P ph → ∀ q ∈ l ++ [ph], P q := by
    intro P hl hph q hq
    rcases List.mem_append.mp hq with hq | hq
    · exact hl q hq
    · rw [List.mem_singleton.mp hq]
      exact hph
  refine ⟨by simp [ImageScan.advance], hmem h.ok hok, ?_, ?_, ?_, ?_, ?_, ?_⟩
  · refine List.pairwise_append.mpr ⟨h.ordered, List.pairwise_singleton _ _, ?_⟩
    intro q hq q' hq'
    rw [List.mem_singleton.mp hq']
    exact hbelow q hq
  · refine hmem (fun q hq => ?_) le_rfl
    show _ ≤ ph.pageEnd.toNat
    have hq := hbelow q hq
    omega
  · by_cases hb : sc.baseFound = true
    · have hbase : (sc.advance ph).imageBase = sc.imageBase := if_pos hb
      obtain ⟨q, hq, hqb⟩ := h.base_mem (h.found.mp hb)
      have hle := (h.ok q hq).bounds.2
      have hlt := hbelow q hq
      rw [hbase]
      exact hmem h.base_le (by omega)
    · have hbase : (sc.advance ph).imageBase = ph.pVaddr := if_neg hb
      rw [hbase]
      refine hmem (fun q hq => absurd (h.found.mpr (List.ne_nil_of_mem hq)) hb) le_rfl
  · intro _
    by_cases hb : sc.baseFound = true
    · have hbase : (sc.advance ph).imageBase = sc.imageBase := if_pos hb
      obtain ⟨q, hq, hqb⟩ := h.base_mem (h.found.mp hb)
      rw [hbase]
      exact ⟨q, List.mem_append_left _ hq, hqb⟩
    · have hbase : (sc.advance ph).imageBase = ph.pVaddr := if_neg hb
      rw [hbase]
      exact ⟨ph, by simp, rfl⟩
  · have hle : sc.imageEnd.toNat ≤ (sc.advance ph).imageEnd.toNat ∧
        ph.pVaddr.toNat + ph.pMemsz.toNat ≤ (sc.advance ph).imageEnd.toNat := by
      rw [← hok.end_toNat]
      unfold ImageScan.advance
      dsimp only
      split
      · next hlt => exact ⟨Nat.le_of_lt (BitVec.lt_def.mp hlt), le_rfl⟩
      · next hlt => exact ⟨le_rfl, Nat.le_of_not_lt (mt BitVec.lt_def.mpr hlt)⟩
    exact hmem (fun q hq => Nat.le_trans (h.le_end q hq) hle.1) hle.2
  · intro n hn
    unfold ImageScan.advance at hn
    dsimp only at hn
    split at hn
    · rw [hok.end_toNat] at hn
      exact ⟨ph, by simp, hn⟩
    · obtain ⟨q, hq, hlt⟩ := h.end_mem n hn
      exact ⟨q, List.mem_append_left _ hq, hlt⟩

/-- One turn of the pass. -/
theorem foldlM_cons_ok (h : (ph :: l).foldlM (checkSegment size) sc = .ok sc') :
    ∃ sc₁, checkSegment size sc ph = .ok sc₁ ∧ l.foldlM (checkSegment size) sc₁ = .ok sc' := by
  rw [List.foldlM_cons] at h
  cases hcheck : checkSegment size sc ph with
  | error e =>
    rw [hcheck] at h
    cases h
  | ok sc₁ =>
    rw [hcheck] at h
    exact ⟨sc₁, rfl, h⟩

/-- The whole pass, from any point of it on. -/
theorem Scanned.run (h : Scanned size (loads l) sc)
    (hend : ∀ ph ∈ loads l', ph.pVaddr ≤ userAddrEnd)
    (hfold : l'.foldlM (checkSegment size) sc = .ok sc') : Scanned size (loads (l ++ l')) sc' := by
  induction l' generalizing l sc with
  | nil =>
    cases hfold
    rwa [List.append_nil]
  | cons ph l' ih =>
    obtain ⟨sc₁, hcheck, hrest⟩ := foldlM_cons_ok hfold
    rw [List.append_cons]
    rcases checkSegment_cases hcheck with ⟨htype, rfl⟩ | ⟨htype, rfl, hok, hprev⟩
    · refine ih ?_ (fun q hq => hend q (loads_subset_cons ph l' hq)) hrest
      rw [loads_append, loads_cons_of_ne htype]
      exact (List.append_nil (loads l)).symm ▸ h
    · refine ih ?_ (fun q hq => hend q (loads_subset_cons ph l' hq)) hrest
      rw [loads_append, loads_cons_of_load htype]
      exact h.step (hok.ok (hend ph (mem_loads_cons htype l'))) hprev

/-- The first pass rejects in one way. -/
theorem checkSegment_error {err : ElfLoadError} (h : checkSegment size sc ph = .error err) :
    err = .invalid := by
  unfold checkSegment at h
  split at h
  · cases h
  iterate 4
    split at h
    · cases h
      rfl
  cases h

private theorem foldlM_error {err : ElfLoadError} (h : l.foldlM (checkSegment size) sc = .error err) :
    err = .invalid := by
  induction l generalizing sc with
  | nil => cases h
  | cons ph l ih =>
    rw [List.foldlM_cons] at h
    cases hcheck : checkSegment size sc ph with
    | error e =>
      rw [hcheck] at h
      cases h
      exact checkSegment_error hcheck
    | ok sc₁ =>
      rw [hcheck] at h
      exact ih h

theorem checkImage_error {err : ElfLoadError} (h : checkImage data size = .error err) :
    err = .invalid := by
  unfold checkImage at h
  dsimp only at h
  iterate 4
    split at h
    · cases h
      rfl
  cases hfold : (phdrs data).foldlM (checkSegment size) .start with
  | error e =>
    rw [hfold] at h
    cases h
    exact foldlM_error hfold
  | ok sc₁ =>
    rw [hfold] at h
    have h : (if sc₁.baseFound = false ∨ (readHeader data).eEntry < sc₁.imageBase ∨
        sc₁.imageEnd ≤ (readHeader data).eEntry then Except.error ElfLoadError.invalid
        else Except.ok sc₁) = Except.error err := h
    split at h
    · cases h
      rfl
    · cases h

/-! ## The whole check -/

/-- The limits on a header. -/
theorem elfCheckSupported_bounds {ehdr : Elf64Header} (h : elfCheckSupported ehdr = true) :
    ehdr.ePhnum.toNat < 512 ∧ ehdr.ePhentsize.toNat < 512 ∧ ehdr.ePhoff.toNat < 0xffffffff := by
  simp only [elfCheckSupported, Bool.and_eq_true, Bool.not_eq_true', decide_eq_false_iff_not] at h
  obtain ⟨⟨⟨-, hnum⟩, hent⟩, hoff⟩ := h
  exact ⟨BitVec.not_le.mp hnum, BitVec.not_le.mp hent, BitVec.not_le.mp hoff⟩

/-- What is checked of the header. -/
structure HeaderAccepted (data : Mem) (size : Word) : Prop where
  header : headerSize ≤ size
  file : elfCheckFile (readHeader data) = true
  supported : elfCheckSupported (readHeader data) = true
  entry : phdrSize ≤ (readHeader data).ePhentsize
  table : (readHeader data).ePhoff +
    (readHeader data).ePhnum.setWidth 64 * (readHeader data).ePhentsize.setWidth 64 ≤ size

/-- An image is accepted by way of its header, the pass, and the entry point. -/
theorem checkImage_cases (h : checkImage data size = .ok sc) :
    HeaderAccepted data size ∧ (phdrs data).foldlM (checkSegment size) .start = .ok sc ∧
      sc.baseFound = true ∧ sc.imageBase ≤ (readHeader data).eEntry ∧
      (readHeader data).eEntry < sc.imageEnd := by
  unfold checkImage at h
  dsimp only at h
  split at h
  · cases h
  next hsize =>
  split at h
  · cases h
  next hfile =>
  split at h
  · cases h
  next hsupported =>
  split at h
  · cases h
  next htable =>
  obtain ⟨hentry, htable⟩ := not_or.mp htable
  rw [BitVec.not_lt] at hsize hentry htable
  refine ⟨⟨hsize, not_not.mp hfile, not_not.mp hsupported, hentry, htable⟩, ?_⟩
  cases hfold : (phdrs data).foldlM (checkSegment size) .start with
  | error e =>
    rw [hfold] at h
    cases h
  | ok sc₁ =>
    rw [hfold] at h
    have h : (if sc₁.baseFound = false ∨ (readHeader data).eEntry < sc₁.imageBase ∨
        sc₁.imageEnd ≤ (readHeader data).eEntry then Except.error ElfLoadError.invalid
        else Except.ok sc₁) = Except.ok sc := h
    split at h
    · cases h
    next hbounds =>
    cases h
    obtain ⟨hfound, hlo, hhi⟩ := by simpa only [not_or, Bool.not_eq_false] using hbounds
    exact ⟨rfl, hfound, BitVec.not_lt.mp hlo, BitVec.not_le.mp hhi⟩

/-- Every segment of an accepted image has passed its checks. -/
theorem foldlM_accepted (h : l.foldlM (checkSegment size) sc = .ok sc') :
    ∀ ph ∈ loads l, SegmentAccepted size ph := by
  induction l generalizing sc with
  | nil =>
    intro ph hph
    exact absurd hph List.not_mem_nil
  | cons q l ih =>
    obtain ⟨sc₁, hcheck, hrest⟩ := foldlM_cons_ok h
    rcases checkSegment_cases hcheck with ⟨htype, -⟩ | ⟨htype, -, hok, -⟩
    · rw [loads_cons_of_ne htype]
      exact ih hrest
    · rw [loads_cons_of_load htype]
      exact List.forall_mem_cons.mpr ⟨hok, ih hrest⟩

/-- **An accepted image.** If its segments start in user space, they are there, in order. -/
theorem checkImage_scanned (h : checkImage data size = .ok sc)
    (hend : ∀ ph ∈ segments data, ph.pVaddr ≤ userAddrEnd) :
    Scanned size (segments data) sc ∧ segments data ≠ [] := by
  obtain ⟨-, hfold, hfound, -⟩ := checkImage_cases h
  have hrun : Scanned size (segments data) sc := Scanned.start.run (l := []) hend hfold
  exact ⟨hrun, hrun.found.mp hfound⟩

end Elf

end TwoKernel
