import TwoKernel.Laws.Exe.Segments
import TwoKernel.Laws.Memory.Build

/-!
# Loading an image

The second pass of `elf_load`, over any forest of page tables that has the
tables on the way to the segments among its places. `Loaded` is what a loaded
segment is: each of its pages is mapped to a page of its own, under the flags of
the segment, and holds the bytes of the file or zeros. One segment makes itself
`Loaded` and leaves other pages as they were (`Tables.loadSegment`); what comes
after it touches neither its entries nor its pages (`Loaded.keep`), so at the end
all of them are loaded (`Tables.loadSegments`).
-/

namespace TwoKernel

open ByteMem Vmm Trie Elf

variable {hhdm size : Word} {s s' s'' : Phys} {st st' st'' : Stock hhdm} {places : Set Place}
  {r f n : Nat} {p : List (Fin 512)} {j : Fin 512} {ph : Elf64Phdr} {l : List Elf64Phdr}
  {data : Mem} {e : Option ElfLoadError} {v w : Word}

namespace Elf

/-- What the second pass needs of a segment. -/
structure Fits (ph : Elf64Phdr) : Prop where
  noWrap : ph.NoWrap
  short : ph.pMemsz.toNat ≤ 2 ^ 47
  filesz : ph.pFilesz.toNat ≤ ph.pMemsz.toNat

private theorem SegmentOk.fits (h : SegmentOk size ph) : Fits ph :=
  ⟨h.noWrap, Nat.le_trans (Nat.le_add_left _ _) h.last, h.filesz⟩

/-! ## The numbers of a segment -/

theorem pageOffset_toNat : (ph.pVaddr % pageSize).toNat = ph.pVaddr.toNat % 4096 := BitVec.toNat_umod

/-- `aligned_base` of the second pass is `page_start` of the first. -/
theorem alignedBase_eq : ph.pVaddr - ph.pVaddr % pageSize = ph.pageStart := by
  apply BitVec.eq_of_toNat_eq
  have hle : ph.pVaddr % pageSize ≤ ph.pVaddr := by
    rw [BitVec.le_def, pageOffset_toNat]
    exact Nat.mod_le _ _
  rw [BitVec.toNat_sub_of_le hle, pageOffset_toNat, Elf64Phdr.pageStart_toNat]
  omega

/-- The two passes compute the same page range. -/
theorem alignedSize_toNat (h : ph.NoWrap) :
    ph.pageStart.toNat + (alignedSize ph).toNat = ph.pageEnd.toNat := by
  have hw := h
  unfold Elf64Phdr.NoWrap at hw
  have hadd : (ph.pMemsz + ph.pVaddr % pageSize).toNat =
      ph.pMemsz.toNat + ph.pVaddr.toNat % 4096 := by
    rw [BitVec.toNat_add, pageOffset_toNat, Nat.mod_eq_of_lt (by omega)]
  unfold alignedSize
  rw [alignUp_toNat (by omega), hadd, Elf64Phdr.pageStart_toNat, h.pageEnd_toNat]
  omega

/-- **The rounding is exact, and both passes do the same one.** For a power of two, `align_down` gives
the greatest multiple not above a number and `align_up`, if its sum does not wrap, the least one not
below it. Hence the pages that the first pass of `elf_load` checks for a segment that ends in user
space, from `align_down` of its address to `align_up` of its end, are those that the second pass maps:
`align_up` of its size and its offset in the first page, from the start of that page on. -/
theorem rounding_exact :
    (∀ (p v : Word) (k : Nat), p.toNat = 2 ^ k →
      IsGreatest {n | p.toNat ∣ n ∧ n ≤ v.toNat} (alignDown v p).toNat ∧
      (v.toNat + p.toNat - 1 < 2 ^ 64 →
        IsLeast {n | p.toNat ∣ n ∧ v.toNat ≤ n} (alignUp v p).toNat)) ∧
    ∀ vaddr memsz : Word, vaddr.toNat + memsz.toNat ≤ userAddrEnd.toNat →
      Set.Ico (alignDown vaddr pageSize).toNat (alignUp (vaddr + memsz) pageSize).toNat =
        Set.Ico (vaddr - vaddr % pageSize).toNat
          ((vaddr - vaddr % pageSize).toNat + (alignUp (memsz + vaddr % pageSize) pageSize).toNat) ∧
      alignDown vaddr pageSize = vaddr - vaddr % pageSize ∧
      alignUp (vaddr + memsz) pageSize =
        vaddr - vaddr % pageSize + alignUp (memsz + vaddr % pageSize) pageSize := by
  refine ⟨fun p v k hp => ⟨alignDown_isGreatest hp, alignUp_isLeast hp⟩, ?_⟩
  intro vaddr memsz hend
  let ph : Elf64Phdr := ⟨programLoad, 0, 0, vaddr, 0, memsz⟩
  have hend' : vaddr.toNat + memsz.toNat ≤ 2 ^ 47 := hend
  have hwrap : ph.NoWrap := by
    show vaddr.toNat + memsz.toNat + 4095 < 2 ^ 64
    omega
  have hstart : ph.pVaddr - ph.pVaddr % pageSize = ph.pageStart := alignedBase_eq
  change vaddr - vaddr % pageSize = alignDown vaddr pageSize at hstart
  have hsum : (alignDown vaddr pageSize).toNat + (alignUp (memsz + vaddr % pageSize) pageSize).toNat =
      (alignUp (vaddr + memsz) pageSize).toNat := alignedSize_toNat hwrap
  rw [hstart, hsum]
  refine ⟨rfl, rfl, BitVec.eq_of_toNat_eq ?_⟩
  rw [BitVec.toNat_add, hsum, Nat.mod_eq_of_lt (BitVec.isLt _)]

theorem rounding_exact_straddling :
    (alignUp 0x401001 0x1000).toNat ∈ {n | (0x1000 : Word).toNat ∣ n ∧ (0x401001 : Word).toNat ≤ n} ∧
    Set.Ico (alignDown 0x400ff8 pageSize).toNat (alignUp (0x400ff8 + 0x10) pageSize).toNat =
      Set.Ico (0x400ff8 - 0x400ff8 % pageSize : Word).toNat
        ((0x400ff8 - 0x400ff8 % pageSize : Word).toNat +
          (alignUp (0x10 + 0x400ff8 % pageSize) pageSize).toNat) :=
  ⟨((rounding_exact.1 0x1000 0x401001 12 rfl).2 (by decide)).1,
    (rounding_exact.2 0x400ff8 0x10 (by decide)).1⟩

private theorem alignedSize_aligned (h : ph.NoWrap) : (alignedSize ph).toNat % 4096 = 0 := by
  have hsum := alignedSize_toNat h
  rw [Elf64Phdr.pageStart_toNat, h.pageEnd_toNat] at hsum
  omega

private theorem Fits.size_le (h : Fits ph) : (alignedSize ph).toNat ≤ 2 ^ 48 := by
  have hsum := alignedSize_toNat h.noWrap
  have hshort := h.short
  rw [Elf64Phdr.pageStart_toNat, h.noWrap.pageEnd_toNat] at hsum
  omega

private theorem pages_eq (h : ph.NoWrap) :
    (alignedSize ph / pageSize).toNat = pages (alignedSize ph) := by
  have hdiv := alignedSize_aligned h
  have hq : (alignedSize ph / pageSize).toNat = (alignedSize ph).toNat / 4096 := BitVec.toNat_udiv
  rw [hq]
  unfold pages
  omega

/-- The pages of a segment, by their number in it. -/
theorem mem_pageRange (h : ph.NoWrap) (hv : v.toNat ∈ ph.pageRange) :
    ∃ k, k < pages (alignedSize ph) ∧ pageNumber v = pageNumber (ph.pageStart + pageOff k) ∧
      v.toNat = ph.pageStart.toNat + 4096 * k + v.toNat % 4096 := by
  obtain ⟨hlo, hhi⟩ := hv
  have hsum := alignedSize_toNat h
  have hstart : ph.pageStart.toNat % 4096 = 0 := by
    rw [Elf64Phdr.pageStart_toNat]
    omega
  refine ⟨(v.toNat - ph.pageStart.toNat) / 4096, ?_, ?_, ?_⟩
  · unfold pages
    omega
  · rw [pageNumber_add]
    unfold pageNumber
    omega
  · omega

/-- The first address of page `k` of a segment is one of its addresses. -/
theorem pageOff_mem (h : ph.NoWrap) {k : Nat} (hk : k < pages (alignedSize ph)) :
    (ph.pageStart + pageOff k).toNat ∈ ph.pageRange := by
  have hsum := alignedSize_toNat h
  have hdiv := alignedSize_aligned h
  have hend := ph.pageEnd.isLt
  unfold pages at hk
  have hadd : (ph.pageStart + pageOff k).toNat = ph.pageStart.toNat + 4096 * k := by
    rw [BitVec.toNat_add, pageOff_toNat (by omega), Nat.mod_eq_of_lt (by omega)]
  rw [hadd]
  constructor
  · omega
  · omega

theorem segmentFlags_ok (ph : Elf64Phdr) :
    segmentFlags ph &&& paddrMask = 0 ∧ Present (segmentFlags ph) := by
  unfold segmentFlags
  split <;> split <;> decide

/-- The byte that belongs at the address `a` of a segment. -/
def fileByte (data : Mem) (ph : Elf64Phdr) (a : Nat) : Byte :=
  if ph.pVaddr.toNat ≤ a ∧ a < ph.pVaddr.toNat + ph.pFilesz.toNat then
    data (ph.pOffset.toNat + (a - ph.pVaddr.toNat)) else 0

end Elf

namespace Phys

/-- Where the file part of a segment goes. -/
theorem physOf_dst (hf : f ≤ 2 ^ 36) : physOf hhdm (framePa f + hhdm + ph.pVaddr % pageSize) =
    4096 * f + ph.pVaddr.toNat % 4096 := by
  have hoff : (ph.pVaddr % pageSize).toNat = ph.pVaddr.toNat % 4096 := pageOffset_toNat
  have hpa : (framePa f).toNat = 4096 * f := framePa_toNat (by omega)
  have hcomm : framePa f + hhdm + ph.pVaddr % pageSize = framePa f + ph.pVaddr % pageSize + hhdm := by
    rw [BitVec.add_assoc, BitVec.add_comm hhdm, BitVec.add_assoc]
  unfold physOf
  rw [hcomm, BitVec.add_sub_cancel, BitVec.toNat_add, hpa, hoff, Nat.mod_eq_of_lt (by omega)]

/-- Clearing the pages of a segment from page `f` on and copying its file part there leaves the bytes
that belong there, and the rest of memory as it was. -/
theorem copied_mem (hfit : Fits ph) (hf : f ≤ 2 ^ 36) (data : Mem) (x : Nat) :
    ((s.memsetZero hhdm (framePa f + hhdm) (alignedSize ph)).memcpy hhdm
      (framePa f + hhdm + ph.pVaddr % pageSize) (fun i => data (ph.pOffset.toNat + i))
      ph.pFilesz).mem x =
      if 4096 * f ≤ x ∧ x < 4096 * f + (alignedSize ph).toNat then
        fileByte data ph (ph.pageStart.toNat + (x - 4096 * f)) else s.mem x := by
  have hdst : physOf hhdm (framePa f + hhdm) = 4096 * f := physOf_tablePtr (by omega)
  have hdst' : physOf hhdm (framePa f + hhdm + ph.pVaddr % pageSize) =
      4096 * f + ph.pVaddr.toNat % 4096 := physOf_dst hf
  unfold memcpy memsetZero
  rw [hdst, hdst']
  dsimp only [blit, fill]
  have hsum := alignedSize_toNat hfit.noWrap
  have hstart := ph.pageStart_toNat
  have hend := hfit.noWrap.pageEnd_toNat
  have hfile := hfit.filesz
  by_cases hin : 4096 * f ≤ x ∧ x < 4096 * f + (alignedSize ph).toNat
  · rw [if_pos hin, if_pos hin]
    unfold fileByte
    by_cases hcopy : 4096 * f + ph.pVaddr.toNat % 4096 ≤ x ∧
        x < 4096 * f + ph.pVaddr.toNat % 4096 + ph.pFilesz.toNat
    · rw [if_pos hcopy, if_pos (by omega)]
      congr 2
      omega
    · rw [if_neg hcopy, if_neg (by omega)]
  · rw [if_neg hin, if_neg (by omega), if_neg hin]

/-- **A loaded segment.** -/
def Loaded (places : Set Place) (data : Mem) (r : Nat) (ph : Elf64Phdr) (s : Phys) (st : Stock hhdm) :
    Prop :=
  ∀ a : Word, a.toNat ∈ ph.pageRange → ∃ f, f < 2 ^ 36 ∧
    s.walk r a = some (framePa f ||| segmentFlags ph) ∧ f ∉ s.frames places ∪ st.pool ∧
    s.mem (4096 * f + a.toNat % 4096) = fileByte data ph a.toNat

/-- A loaded segment stays loaded while its entries stay, as its pages are not touched. -/
theorem Loaded.keep (h : Loaded places data r ph s st) (hk : Keeps places s st s' st')
    (hwalk : ∀ a : Word, a.toNat ∈ ph.pageRange → s'.walk r a = s.walk r a) :
    Loaded places data r ph s' st' := by
  intro a ha
  obtain ⟨f, hlt, hw, hf, hmem⟩ := h a ha
  refine ⟨f, hlt, (hwalk a ha).trans hw, fun hin => hf (hk.dom hin), ?_⟩
  rw [hk.mem, hmem]
  intro hx
  have hpage : (4096 * f + a.toNat % 4096) / 4096 = f := by omega
  have hx : (4096 * f + a.toNat % 4096) / 4096 ∈ s.frames places ∪ st.pool := hx
  exact hf (hpage ▸ hx)

/-- The page of `v` is none of the segment's. -/
def Elsewhere (ph : Elf64Phdr) (v : Word) : Prop :=
  ∀ a : Word, a.toNat ∈ ph.pageRange → pageNumber v ≠ pageNumber a

/-- The page tables of the segment's pages under `r` are among the places. -/
def Covers (places : Set Place) (r : Nat) (ph : Elf64Phdr) : Prop :=
  ∀ a : Word, a.toNat ∈ ph.pageRange → ∀ p, p ≠ [] → p <+: tablePath a → (r, p) ∈ places

/-- What a pass over segments does to the tables: other trees keep their leaf entries, and so do the
pages elsewhere. -/
structure Passed (places : Set Place) (r : Nat) (l : List Elf64Phdr) (s : Phys) (st : Stock hhdm)
    (s' : Phys) (st' : Stock hhdm) : Prop where
  tables : Tables hhdm s' st' places
  keeps : Keeps places s st s' st'
  others : ∀ {r' p}, (r', p) ∈ places → p.length = 3 → r' ≠ r → ∀ j, s'.leafAt r' p j = s.leafAt r' p j
  elsewhere : ∀ {v}, (r, tablePath v) ∈ places → (∀ ph ∈ l, Elsewhere ph v) →
    s'.walk r v = s.walk r v

private theorem Passed.refl (h : Tables hhdm s st places) : Passed places r [] s st s st :=
  ⟨h, .refl, fun _ _ _ _ => rfl, fun _ _ => rfl⟩

private theorem Passed.mono {l' : List Elf64Phdr} (h : Passed places r l s st s' st') (hsub : l ⊆ l') :
    Passed places r l' s st s' st' :=
  ⟨h.tables, h.keeps, h.others, fun hp hv => h.elsewhere hp fun ph hph => hv ph (hsub hph)⟩

theorem Passed.cons (h : Passed places r [ph] s st s' st') (h' : Passed places r l s' st' s'' st'') :
    Passed places r (ph :: l) s st s'' st'' where
  tables := h'.tables
  keeps := h.keeps.trans h'.keeps
  others hp hlen hne j := (h'.others hp hlen hne j).trans (h.others hp hlen hne j)
  elsewhere hp hv := by
    obtain ⟨hph, hl⟩ := List.forall_mem_cons.mp hv
    rw [h'.elsewhere hp hl, h.elsewhere hp fun q hq => List.mem_singleton.mp hq ▸ hph]

namespace Tables

/-- The pages from `f` on were taken and mapped to a segment, and are not written yet. -/
structure Placed (places : Set Place) (r : Nat) (ph : Elf64Phdr) (s : Phys) (st : Stock hhdm)
    (f : Nat) (s' : Phys) (st' : Stock hhdm) : Prop where
  passed : Passed places r [ph] s st s' st'
  taken : Set.Ico f (f + pages (alignedSize ph)) ⊆ st.pool
  free : ∀ {a}, a ∈ Set.Ico f (f + pages (alignedSize ph)) → a ∉ s'.frames places ∪ st'.pool
  walk : ∀ {a : Word} {k}, k < pages (alignedSize ph) →
    pageNumber a = pageNumber (ph.pageStart + pageOff k) →
    s'.walk r a = some (framePa (f + k) ||| segmentFlags ph)

private theorem placed (h : Tables hhdm s st places) (hfit : Fits ph) (hcov : Covers places r ph)
    (ht : Took s st f (pages (alignedSize ph)) s' st')
    (hmap : s'.map hhdm (tablePtr hhdm r) (framePa f) ph.pageStart (alignedSize ph)
      (segmentFlags ph) = .ok s'') : ∃ st'', Placed places r ph s st f s'' st'' := by
  obtain ⟨h₁, hk₁, hframes₁, hleaf₁⟩ := h.took ht
  obtain ⟨st₂, hm⟩ := (h₁.map (r := r) (h₁.placesOf_finite r) placesOf_subset hfit.size_le
    (fun k hk p hne hpre => ⟨hcov _ (pageOff_mem hfit.noWrap hk) p hne hpre, rfl⟩)
    (framePa f) (segmentFlags ph)).of_ok hmap
  have hbelow := ht.below
  have hpa : (framePa f).toNat = 4096 * f := framePa_toNat (by omega)
  refine ⟨st₂, ⟨hm.tables, hk₁.trans hm.keeps, ?_, ?_⟩, ht.taken, ?_, ?_⟩
  · intro r' p hp hlen hne j
    rw [hm.there hp hlen fun k _ he => hne (Prod.mk.inj he).1, hleaf₁ hp]
  · intro v hp hv
    rw [walk_eq, walk_eq, hm.there hp rfl, hleaf₁ hp]
    intro k hk he
    simp only [Prod.mk.injEq, true_and] at he
    exact hv ph List.mem_cons_self _ (pageOff_mem hfit.noWrap hk) (path_eq_iff.mp he)
  · intro a ha hin
    rcases hm.keeps.dom hin with hin | hin
    · rw [hframes₁] at hin
      obtain ⟨r', p, hp, hat⟩ := hin
      exact h.forest.used hp hat (ht.taken ha)
    · exact (ht.rest hin).2 ha
  · intro a k hk hnum
    obtain ⟨hpath, hslot⟩ := path_eq_iff.mpr hnum
    rw [walk_eq, hpath, hslot, hm.here k hk, alignDown_pageOff (by omega), hpa,
      Nat.mul_div_cancel_left f (by decide),
      if_pos ((present_framePa_or (by omega)).mpr (segmentFlags_ok ph).2)]

/-- Clearing and copying. -/
theorem Placed.written (h : Placed places r ph s st f s' st') (hfit : Fits ph)
    (hcov : Covers places r ph) (hf : f + pages (alignedSize ph) ≤ 2 ^ 36)
    (hs : s'' = (s'.memsetZero hhdm (framePa f + hhdm) (alignedSize ph)).memcpy hhdm
      (framePa f + hhdm + ph.pVaddr % pageSize) (fun i => data (ph.pOffset.toNat + i)) ph.pFilesz) :
    Passed places r [ph] s st s'' st' ∧ Loaded places data r ph s'' st' := by
  have hdiv := alignedSize_aligned hfit.noWrap
  have hpages : 4096 * pages (alignedSize ph) = (alignedSize ph).toNat := by
    unfold pages
    omega
  have hbytes : ∀ x, s''.mem x =
      if 4096 * f ≤ x ∧ x < 4096 * f + (alignedSize ph).toNat then
        fileByte data ph (ph.pageStart.toNat + (x - 4096 * f)) else s'.mem x := by
    intro x
    rw [hs]
    exact copied_mem hfit (by omega) data x
  -- only pages that were taken are written
  have hmem : Set.EqOn s''.mem s'.mem (pageBytes (Set.Ico f (f + pages (alignedSize ph))))ᶜ := by
    intro x hx
    have hx : ¬ (f ≤ x / 4096 ∧ x / 4096 < f + pages (alignedSize ph)) := hx
    rw [hbytes, if_neg (by omega)]
  have hfree : s''.freelistHead = s'.freelistHead := by rw [hs]; rfl
  have hst : s''.Stocked hhdm st' := by
    refine h.passed.tables.stocked.frame hfree (hmem.mono ?_)
    intro x hx hxP
    exact h.free hxP (.inr hx)
  obtain ⟨htab, hk, hframes, hleaf⟩ := h.passed.tables.quiet h.passed.keeps hst Set.Subset.rfl
    h.taken (Set.disjoint_left.mpr fun a ha hin => h.free ha (.inl hin)) hmem
  have hwalk : ∀ {v}, (r, tablePath v) ∈ places → s''.walk r v = s'.walk r v := by
    intro v hp
    rw [walk_eq, walk_eq, hleaf hp]
  refine ⟨⟨htab, hk, ?_, ?_⟩, ?_⟩
  · intro r' p hp hlen hne j
    rw [hleaf hp, h.passed.others hp hlen hne]
  · intro v hp hv
    rw [hwalk hp, h.passed.elsewhere hp hv]
  · intro a ha
    obtain ⟨k, hk, hnum, hat⟩ := mem_pageRange hfit.noWrap ha
    have hk' : (f + k) ∈ Set.Ico f (f + pages (alignedSize ph)) := ⟨by omega, by omega⟩
    refine ⟨f + k, by omega, ?_, ?_, ?_⟩
    · rw [hwalk (hcov a ha _ (by simp [tablePath]) List.prefix_rfl)]
      exact h.walk hk hnum
    · rw [hframes]
      exact h.free hk'
    · rw [hbytes, if_pos (by omega)]
      congr 1
      omega

/-- **One segment.** If the segment is loaded at all it is loaded right. -/
theorem loadSegment (h : Tables hhdm s st places) (hfit : Fits ph) (hcov : Covers places r ph)
    (hs : s.loadSegment hhdm data (tablePtr hhdm r) ph = .ok (e, s')) :
    ∃ st', Passed places r [ph] s st s' st' ∧ (e = none → Loaded places data r ph s' st') := by
  unfold Phys.loadSegment at hs
  obtain ⟨⟨pa, s₁⟩, ha, hs⟩ := bind_ok.mp hs
  have ha : s.alloc hhdm (alignedSize ph / pageSize) = .ok (pa, s₁) := ha
  rcases h.stocked.alloc (alignedSize ph / pageSize) with ⟨-, ha'⟩ | ⟨f, s₁', st₁, ha', ht⟩
  · cases ha.symm.trans ha'
    rw [if_pos rfl] at hs
    cases hs
    refine ⟨st, ⟨h, .refl, fun _ _ _ _ => rfl, fun _ _ => rfl⟩, ?_⟩
    intro he
    cases he
  · cases ha.symm.trans ha'
    rw [pages_eq hfit.noWrap] at ht
    have hbelow := ht.below
    rw [if_neg (framePa_ne_zero ht.pos (by omega))] at hs
    obtain ⟨s₂, hmap, hs⟩ := bind_ok.mp hs
    rw [alignedBase_eq] at hmap
    obtain ⟨st₂, hplaced⟩ := h.placed hfit hcov ht hmap
    cases hs
    obtain ⟨hpassed, hloaded⟩ := hplaced.written hfit hcov hbelow rfl
    exact ⟨st₂, hpassed, fun _ => hloaded⟩

/-- **The second pass.** Over segments that keep out of each other's pages. -/
theorem loadSegments (l : List Elf64Phdr) (h : Tables hhdm s st places)
    (hok : ∀ ph ∈ loads l, Fits ph ∧ Covers places r ph)
    (hapart : (loads l).Pairwise fun ph ph' => ∀ a : Word, a.toNat ∈ ph.pageRange → Elsewhere ph' a)
    (hs : s.loadSegments hhdm data (tablePtr hhdm r) l = .ok (e, s')) :
    ∃ st', Passed places r (loads l) s st s' st' ∧
      (e = none → ∀ ph ∈ loads l, Loaded places data r ph s' st') := by
  induction l generalizing s st with
  | nil =>
    cases hs
    exact ⟨st, .refl h, fun _ ph hph => absurd hph List.not_mem_nil⟩
  | cons ph l ih =>
    unfold Phys.loadSegments at hs
    by_cases htype : ph.pType = programLoad
    · rw [loads_cons_of_load htype] at hok hapart ⊢
      rw [if_neg (not_not_intro htype)] at hs
      obtain ⟨hph, hl⟩ := List.forall_mem_cons.mp hok
      obtain ⟨haway, hapart⟩ := List.pairwise_cons.mp hapart
      obtain ⟨⟨e₁, s₁⟩, hs₁, hs⟩ := bind_ok.mp hs
      obtain ⟨st₁, hpass, hload⟩ := h.loadSegment hph.1 hph.2 hs₁
      cases e₁ with
      | some err =>
        cases hs
        refine ⟨st₁, hpass.mono (by simp), ?_⟩
        intro he
        cases he
      | none =>
        obtain ⟨st₂, hrest, hloaded⟩ := ih hpass.tables hl hapart hs
        refine ⟨st₂, hpass.cons hrest, fun he => List.forall_mem_cons.mpr ⟨?_, hloaded he⟩⟩
        -- the first segment is still loaded after the others
        refine (hload rfl).keep hrest.keeps fun a ha => ?_
        refine hrest.elsewhere (hph.2 a ha _ (by simp [tablePath]) List.prefix_rfl) ?_
        intro q hq
        exact haway q hq a ha
    · rw [loads_cons_of_ne htype] at hok hapart ⊢
      rw [if_pos htype] at hs
      exact ih h hok hapart hs

/-- The second pass over an image that was accepted. -/
theorem loadImage {sc : ImageScan} (h : Tables hhdm s st places) (hsc : Scanned size (segments data) sc)
    (hcov : ∀ a : Word, a.toNat < 2 ^ 47 → ∀ p, p ≠ [] → p <+: tablePath a → (r, p) ∈ places)
    (hs : s.loadSegments hhdm data (tablePtr hhdm r) (phdrs data) = .ok (e, s')) :
    ∃ st', Passed places r (segments data) s st s' st' ∧
      (e = none → ∀ ph ∈ segments data, Loaded places data r ph s' st') := by
  have hlow : ∀ ph ∈ segments data, ∀ a : Word, a.toNat ∈ ph.pageRange → a.toNat < 2 ^ 47 :=
    fun ph hph a ha => Nat.lt_of_lt_of_le ha.2 (hsc.ok ph hph).inUserSpace.end
  refine h.loadSegments (phdrs data) ?_ ?_ hs
  · intro ph hph
    exact ⟨(hsc.ok ph hph).fits, fun a ha => hcov a (hlow ph hph a ha)⟩
  · refine hsc.ordered.imp_of_mem ?_
    intro ph ph' hph hph' hle a ha b hb
    have hla := hlow ph hph a ha
    have hlb := hlow ph' hph' b hb
    have hend := (hsc.ok ph hph).noWrap.pageEnd_toNat
    obtain ⟨-, ha⟩ := ha
    obtain ⟨hb, -⟩ := hb
    unfold pageNumber
    omega

end Tables

/-! ## The loader -/

/-- A segment cannot make an image invalid any more. -/
theorem loadSegments_ne_invalid {pml4 : Word} (l : List Elf64Phdr) (s : Phys) :
    s.loadSegments hhdm data pml4 l ≠ .ok (some .invalid, s') := by
  induction l generalizing s with
  | nil =>
    intro h
    cases h
  | cons ph l ih =>
    intro h
    unfold loadSegments at h
    split at h
    · exact ih s h
    · obtain ⟨⟨e, s₁⟩, hs₁, h⟩ := bind_ok.mp h
      cases e with
      | none => exact ih s₁ h
      | some err =>
        cases h
        unfold loadSegment at hs₁
        obtain ⟨⟨pa, s₂⟩, -, hs₁⟩ := bind_ok.mp hs₁
        split at hs₁
        · cases hs₁
        · obtain ⟨s₃, -, hs₁⟩ := bind_ok.mp hs₁
          cases hs₁

/-- What a load that returns has done. -/
theorem elfLoad_ok {d : PageDirectory} {res : Except ElfLoadError LoadedElf}
    (h : s.elfLoad hhdm data size d = .ok (res, s')) :
    (∃ err, checkImage data size = .error err ∧ res = .error err ∧ s' = s) ∨
      ∃ sc e, checkImage data size = .ok sc ∧
        s.loadSegments hhdm data d.pml4 (phdrs data) = .ok (e, s') ∧
        res = match e with
          | some err => .error err
          | none => .ok ⟨(readHeader data).eEntry, sc.imageBase, sc.imageEnd, 0,
              (readHeader data).ePhnum, (readHeader data).ePhentsize⟩ := by
  unfold elfLoad at h
  cases hcheck : checkImage data size with
  | error err =>
    rw [hcheck] at h
    cases h
    exact .inl ⟨err, rfl, rfl, rfl⟩
  | ok sc =>
    rw [hcheck] at h
    obtain ⟨⟨e, s₁⟩, hs₁, h⟩ := bind_ok.mp h
    right
    cases e with
    | some err =>
      cases h
      exact ⟨sc, some err, rfl, hs₁, rfl⟩
    | none =>
      cases h
      exact ⟨sc, none, rfl, hs₁, rfl⟩

end Phys

end TwoKernel
