import TwoKernel.Laws.Exe.Loader

/-!
# The entry point of an accepted image

`elf_load` compares the entry point with `image_base`, where the first segment
starts, and `image_end`, the greatest end of a segment. Between the two there may
be addresses of no segment: the pass over the headers makes sure that a segment
starts after the pages of the one before it, not that it starts right there.

**The law.** `InGap` says that an address is between two segments: all up to some
place end at or below it, the next starts above it, and none of the later ones has
it. The entry point of an accepted image is in a segment exactly if it is not in a
gap (`entry_loaded`). For segments that start in user space the last part is idle,
since they are in order, and an entry point in a segment is mapped once the image is
loaded. A segment that starts beyond user space can wrap around the address space,
and those after it start below it.
-/

namespace TwoKernel

open ByteMem Vmm Elf

variable {hhdm size : Word} {s s' : Phys} {st : Stock hhdm} {data : Mem} {sc sc' : ImageScan}
  {ph : Elf64Phdr} {l : List Elf64Phdr} {a n : Nat}

namespace Elf

/-- The addresses of a segment, from `p_vaddr` to `p_vaddr + p_memsz`. -/
def Elf64Phdr.addresses (ph : Elf64Phdr) : Set Nat :=
  Set.Ico ph.pVaddr.toNat (ph.pVaddr.toNat + ph.pMemsz.toNat)

/-- All segments up to some place end at or below `n`, and the next one starts above it. -/
def Between (n : Nat) (l : List Elf64Phdr) : Prop :=
  ∃ (l₁ l₂ : List Elf64Phdr) (ph : Elf64Phdr), l = l₁ ++ ph :: l₂ ∧
    (∀ q ∈ l₁, q.pVaddr.toNat + q.pMemsz.toNat ≤ n) ∧ n < ph.pVaddr.toNat

/-- The same, and none of the segments after these has `n`. -/
def InGap (n : Nat) (l : List Elf64Phdr) : Prop :=
  ∃ (l₁ l₂ : List Elf64Phdr) (ph : Elf64Phdr), l = l₁ ++ ph :: l₂ ∧
    (∀ q ∈ l₁, q.pVaddr.toNat + q.pMemsz.toNat ≤ n) ∧ n < ph.pVaddr.toNat ∧
    ∀ q ∈ l₂, n ∉ q.addresses

/-! ## The bounds of the pass -/

/-- The pass accepts by advancing over one segment after the other. -/
theorem foldlM_advance (h : l.foldlM (checkSegment size) sc = .ok sc') :
    sc' = (loads l).foldl ImageScan.advance sc := by
  induction l generalizing sc with
  | nil =>
    cases h
    rfl
  | cons ph l ih =>
    obtain ⟨sc₁, hcheck, hrest⟩ := foldlM_cons_ok h
    rcases checkSegment_cases hcheck with ⟨htype, rfl⟩ | ⟨htype, rfl, -, -⟩
    · rw [loads_cons_of_ne htype]
      exact ih hrest
    · rw [loads_cons_of_load htype]
      exact ih hrest

/-- What lies below the end lies below the end of a segment, even if that is computed wrongly because
it wraps around. -/
theorem foldl_advance_end (l : List Elf64Phdr) :
    n < (l.foldl ImageScan.advance .start).imageEnd.toNat →
      ∃ q ∈ l, n < q.pVaddr.toNat + q.pMemsz.toNat := by
  induction l using List.reverseRecOn with
  | nil => exact fun h => absurd h (Nat.not_lt_zero n)
  | append_singleton l ph ih =>
    rw [List.foldl_append, List.foldl_cons, List.foldl_nil]
    intro h
    unfold ImageScan.advance at h
    dsimp only at h
    split at h
    · rw [BitVec.toNat_add] at h
      exact ⟨ph, by simp, Nat.lt_of_lt_of_le h (Nat.mod_le _ _)⟩
    · obtain ⟨q, hq, hlt⟩ := ih h
      exact ⟨q, List.mem_append_left _ hq, hlt⟩

/-! ## Gaps -/

/-- The first segment that ends beyond `n`. -/
theorem exists_first_beyond (h : ∃ q ∈ l, n < q.pVaddr.toNat + q.pMemsz.toNat) :
    ∃ (l₁ l₂ : List Elf64Phdr) (ph : Elf64Phdr), l = l₁ ++ ph :: l₂ ∧
      (∀ q ∈ l₁, q.pVaddr.toNat + q.pMemsz.toNat ≤ n) ∧
      n < ph.pVaddr.toNat + ph.pMemsz.toNat := by
  induction l with
  | nil =>
    obtain ⟨q, hq, -⟩ := h
    exact absurd hq List.not_mem_nil
  | cons ph l ih =>
    by_cases hph : n < ph.pVaddr.toNat + ph.pMemsz.toNat
    · exact ⟨[], l, ph, rfl, fun _ hq => absurd hq List.not_mem_nil, hph⟩
    · obtain ⟨q, hq, hlt⟩ := h
      rcases List.mem_cons.mp hq with rfl | hq
      · exact absurd hlt hph
      · obtain ⟨l₁, l₂, ph', rfl, hbefore, hbeyond⟩ := ih ⟨q, hq, hlt⟩
        exact ⟨ph :: l₁, l₂, ph', rfl, List.forall_mem_cons.mpr ⟨Nat.le_of_not_lt hph, hbefore⟩,
          hbeyond⟩

/-- What some segment ends beyond is in a segment, or in a gap. -/
theorem covered_iff (h : ∃ q ∈ l, n < q.pVaddr.toNat + q.pMemsz.toNat) :
    (∃ ph ∈ l, n ∈ ph.addresses) ↔ ¬ InGap n l := by
  constructor
  · rintro ⟨q, hq, hlo, hhi⟩ ⟨l₁, l₂, ph, rfl, hbefore, habove, hlater⟩
    rcases List.mem_append.mp hq with hq | hq
    · exact absurd (hbefore q hq) (Nat.not_le_of_lt hhi)
    · rcases List.mem_cons.mp hq with rfl | hq
      · exact absurd hlo (Nat.not_le_of_lt habove)
      · exact hlater q hq ⟨hlo, hhi⟩
  · intro hgap
    obtain ⟨l₁, l₂, ph, rfl, hbefore, hbeyond⟩ := exists_first_beyond h
    by_cases hstart : ph.pVaddr.toNat ≤ n
    · exact ⟨ph, by simp, hstart, hbeyond⟩
    · by_contra hnone
      refine hgap ⟨l₁, l₂, ph, rfl, hbefore, Nat.lt_of_not_le hstart, fun q hq hin => hnone ?_⟩
      exact ⟨q, List.mem_append_right _ (List.mem_cons_of_mem _ hq), hin⟩

/-- Segments in order: those after a segment that starts above `n` do too. -/
theorem Scanned.inGap_iff (h : Scanned size l sc) : InGap n l ↔ Between n l := by
  constructor
  · rintro ⟨l₁, l₂, ph, hl, hbefore, habove, -⟩
    exact ⟨l₁, l₂, ph, hl, hbefore, habove⟩
  · rintro ⟨l₁, l₂, ph, rfl, hbefore, habove⟩
    refine ⟨l₁, l₂, ph, rfl, hbefore, habove, fun q hq hin => ?_⟩
    have hord := (List.pairwise_append.mp h.ordered).2.1
    have hle := List.rel_of_pairwise_cons hord hq
    have hbounds := (h.ok ph (List.mem_append_right _ List.mem_cons_self)).bounds
    have hbounds' := (h.ok q (List.mem_append_right _ (List.mem_cons_of_mem _ hq))).bounds
    have hlo : q.pVaddr.toNat ≤ n := hin.1
    omega

/-- **The entry point of an accepted image** is in a segment exactly if it is not in a gap. -/
theorem entry_mem_iff (hcheck : checkImage data size = .ok sc) :
    (∃ ph ∈ segments data, (readHeader data).eEntry.toNat ∈ ph.addresses) ↔
      ¬ InGap (readHeader data).eEntry.toNat (segments data) := by
  obtain ⟨-, hfold, -, -, hhi⟩ := checkImage_cases hcheck
  have hsc : sc = (segments data).foldl ImageScan.advance .start := foldlM_advance hfold
  apply covered_iff
  apply foldl_advance_end
  rw [← hsc]
  exact BitVec.lt_def.mp hhi

end Elf

namespace Phys

/-- **When the entry point is loaded code.** For every image that `elf_load` does not reject, the entry
point is an address of a segment exactly if it is not in a gap. For segments that start in user space
that is: no segment starts above it while all before that one end at or below it. Then, once the image
is loaded into a process whose tables are well formed, an entry point in a segment is mapped with the
flags of that segment. -/
theorem entry_loaded {d : PageDirectory}
    (haccept : ∀ s', s.elfLoad hhdm data size d ≠ .ok (.error .invalid, s')) :
    ((∃ ph ∈ segments data, (readHeader data).eEntry.toNat ∈ ph.addresses) ↔
      ¬ InGap (readHeader data).eEntry.toNat (segments data)) ∧
    ((∀ q ∈ segments data, q.pVaddr ≤ userAddrEnd) →
      (InGap (readHeader data).eEntry.toNat (segments data) ↔
        Between (readHeader data).eEntry.toNat (segments data)) ∧
      ∀ (root : Nat) (st : Stock hhdm) (img : LoadedElf) (s' : Phys), root < 2 ^ 52 →
        d = dirOf hhdm root → s.Stocked hhdm st → s.WellFormed root st.pool →
        s.elfLoad hhdm data size d = .ok (.ok img, s') →
        img.entry = (readHeader data).eEntry ∧
          ∀ ph ∈ segments data, (readHeader data).eEntry.toNat ∈ ph.addresses →
            ∃ p, s'.translate root img.entry = some (p, segmentFlags ph)) := by
  obtain ⟨sc, hcheck⟩ := exists_checkImage_ok haccept
  refine ⟨entry_mem_iff hcheck, fun hend => ⟨?_, ?_⟩⟩
  · exact (checkImage_scanned hcheck hend).1.inGap_iff
  · intro root st img s' hroot hd hst hwf hload
    rw [hd] at hload
    have hentry : img.entry = (readHeader data).eEntry := by
      rcases elfLoad_ok hload with ⟨_, -, hres, -⟩ | ⟨sc', e, -, -, hres⟩
      · cases hres
      · cases e with
        | some err => cases hres
        | none =>
          cases hres
          rfl
    obtain ⟨hseg, -⟩ := elfLoad_faithful hroot hst hwf hend hload
    refine ⟨hentry, fun ph hph hin => ?_⟩
    obtain ⟨hsub, hmapped⟩ := hseg ph hph
    obtain ⟨p, hp, -⟩ := hmapped img.entry (hentry ▸ hsub hin)
    rw [segmentFlags_eq]
    exact ⟨p, hp⟩

/-- An image of two segments of eight bytes, in the pages `0x400` and `0x402`, that starts at
`0x401000`. -/
def gapImage : Mem :=
  let bytes := ehdrBytes 0x401000 64 2 ++ phdrBytes 5 0 0x400000 0 8 ++ phdrBytes 6 0 0x402000 0 8
  (bytes.getD · 0)

/-- The same image, to be entered at `0x400004`, in its first segment. -/
def enteredImage : Mem := fun a => if a = 24 then 4 else if a = 25 then 0 else gapImage a

/-- An image with a gap can be entered: the entry point is in the segment before the gap, and is
mapped. -/
theorem entry_loaded_enteredImage : ∃ s' p,
    blank.elfLoad hhdm₀ enteredImage 176 (dirOf hhdm₀ 1024) =
      .ok (.ok ⟨0x400004, 0x400000, 0x402008, 0, 2, 56⟩, s') ∧
    ¬ InGap 0x400004 (segments enteredImage) ∧
    s'.translate 1024 0x400004 = some (p, segmentFlags ⟨1, 5, 0, 0x400000, 0, 8⟩) := by
  have hrun : loadedWith (fun img _ => img = ⟨0x400004, 0x400000, 0x402008, 0, 2, 56⟩)
      (blank.elfLoad hhdm₀ enteredImage 176 (dirOf hhdm₀ 1024)) = true := by
    decide +kernel
  have hentry : (readHeader enteredImage).eEntry = 0x400004 := by decide +kernel
  have hseg : segments enteredImage = [⟨1, 5, 0, 0x400000, 0, 8⟩, ⟨1, 6, 0, 0x402000, 0, 8⟩] := by
    decide +kernel
  obtain ⟨img, s', hs', himg⟩ := loadedWith_eq_true hrun
  rw [of_decide_eq_true himg] at hs'
  have haccept : ∀ s'' : Phys, blank.elfLoad hhdm₀ enteredImage 176
      (dirOf hhdm₀ 1024) ≠ .ok (.error .invalid, s'') := by
    intro s'' hs''
    cases hs'.symm.trans hs''
  obtain ⟨hiff, huser⟩ := entry_loaded haccept
  obtain ⟨-, hmapped⟩ := huser (by rw [hseg]; decide)
  have hfirst : (⟨1, 5, 0, 0x400000, 0, 8⟩ : Elf64Phdr) ∈ segments enteredImage := by simp [hseg]
  have hin : (readHeader enteredImage).eEntry.toNat ∈
      (⟨1, 5, 0, 0x400000, 0, 8⟩ : Elf64Phdr).addresses := by
    rw [hentry]
    exact ⟨by decide, by decide⟩
  have hgap := hiff.mp ⟨_, hfirst, hin⟩
  rw [hentry] at hgap
  obtain ⟨p, hp⟩ := (hmapped 1024 _ _ s' (by decide) rfl (Spaces.oneRegion_stocked _)
    blank_wellFormed hs').2 _ hfirst hin
  exact ⟨s', p, hs', hgap, hp⟩

/-- **An entry point in a gap.** `gapImage` is loaded. Its entry point is in none of its segments, and
is not mapped. -/
theorem entry_in_gap : (∀ ph ∈ segments gapImage, (readHeader gapImage).eEntry.toNat ∉ ph.addresses) ∧
    ∃ s', blank.elfLoad hhdm₀ gapImage 176 (dirOf hhdm₀ 1024) =
        .ok (.ok ⟨0x401000, 0x400000, 0x402008, 0, 2, 56⟩, s') ∧
      s'.translate 1024 0x401000 = none := by
  have hentry : (readHeader gapImage).eEntry = 0x401000 := by decide +kernel
  have hseg : segments gapImage = [⟨1, 5, 0, 0x400000, 0, 8⟩, ⟨1, 6, 0, 0x402000, 0, 8⟩] := by
    decide +kernel
  constructor
  · rw [hentry, hseg]
    unfold Elf64Phdr.addresses
    intro ph hph hin
    rcases List.mem_pair.mp hph with rfl | rfl
    · exact absurd hin.2 (by decide)
    · exact absurd hin.1 (by decide)
  · have hrun : loadedWith (fun img s' => img = ⟨0x401000, 0x400000, 0x402008, 0, 2, 56⟩ ∧
          s'.translate 1024 0x401000 = none)
        (blank.elfLoad hhdm₀ gapImage 176 (dirOf hhdm₀ 1024)) = true := by
      decide +kernel
    obtain ⟨img, s', hs', himg⟩ := loadedWith_eq_true hrun
    obtain ⟨rfl, hnone⟩ := of_decide_eq_true himg
    exact ⟨s', hs', hnone⟩

end Phys

end TwoKernel
