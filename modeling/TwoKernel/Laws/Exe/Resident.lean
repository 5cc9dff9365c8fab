import TwoKernel.Laws.Exe.Events
import TwoKernel.Laws.Libc.String

/-!
# An image in memory

`elf_load` gets a pointer, and what it points to is memory like any other. `Resident` is
what a caller has to see to: the file is there, and no byte of it is in a free page or in
a page table of the process.

**The law** is that this is enough for images whose segments have their file parts within
their runs (`Contained`): the loader then finds at every turn what it found at the start,
and does what it does with an image apart (`elfLoadEvents_eq`). So it reads the file
and nothing else (`elfLoadSteps_sound_of_contained`), and everything that is said of
`elfLoad` is said of it.

`overwritingImage` has a segment of no pages with a file part, which `memcpy` writes to the
end of a free page and over the header behind it. The next turn of the second pass reads
a program header two gigabytes behind the file (`overwritingImage_unsound`).
-/

namespace TwoKernel

open ByteMem Vmm Elf

variable {hhdm ptr size : Word} {s s' : Phys} {st st' : Stock hhdm} {data : Mem} {r i : Nat}
variable {ph : Elf64Phdr} {dst offset n : Word}

/-- The file part of a segment is within its run, if it has one. -/
def Elf.Elf64Phdr.Contained (ph : Elf64Phdr) : Prop :=
  (ph.pVaddr % pageSize).toNat + ph.pFilesz.toNat ≤ (alignedSize ph).toNat ∨ ph.pFilesz = 0

instance (ph : Elf64Phdr) : Decidable ph.Contained := inferInstanceAs (Decidable (_ ∨ _))

/-- **A file in memory.** `size` bytes at `ptr` hold the image `data`, and none of them is in a free page
or in a page table of the process at `r`. -/
structure Resident (hhdm ptr size : Word) (data : Mem) (r : Nat) (s : Phys) (st : Stock hhdm) :
    Prop where
  tables : Phys.Tables hhdm s st (Phys.treePlaces r)
  fits : physOf hhdm ptr + size.toNat ≤ 2 ^ 64
  bytes : ∀ i < size.toNat, s.mem (physOf hhdm ptr + i) = data i
  apart : ∀ i < size.toNat, (physOf hhdm ptr + i) / 4096 ∉ s.frames (Phys.treePlaces r) ∪ st.pool

namespace Resident

/-- Only free pages and tables are written. -/
theorem keep (h : Resident hhdm ptr size data r s st) (ht : Phys.Tables hhdm s' st' (Phys.treePlaces r))
    (hk : Phys.Keeps (Phys.treePlaces r) s st s' st') : Resident hhdm ptr size data r s' st' where
  tables := ht
  fits := h.fits
  bytes i hi := (hk.mem (h.apart i hi)).trans (h.bytes i hi)
  apart i hi hin := h.apart i hi (hk.dom hin)

end Resident

namespace Source

/-- `LibC::memset` clears. -/
theorem resident_clear (h : physOf hhdm dst + n.toNat ≤ 2 ^ 64) :
    (resident hhdm ptr).clear dst n s = s.memsetZero hhdm dst n := by
  show ({ s with mem := (LibC.memset (dst - hhdm) 0 n s.mem).2 } : Phys) = _
  rw [LibC.memset_eq_fill 0 h]
  rfl

/-- `LibC::memcpy` copies, from bytes that it does not write. -/
theorem resident_copy (hdst : physOf hhdm dst + n.toNat ≤ 2 ^ 64)
    (hsrc : physOf hhdm (ptr + offset) + n.toNat ≤ 2 ^ 64)
    (hdisj : Disjoint (Set.Ico (physOf hhdm dst) (physOf hhdm dst + n.toNat))
      (Set.Ico (physOf hhdm (ptr + offset)) (physOf hhdm (ptr + offset) + n.toNat))) :
    (resident hhdm ptr).copy dst offset n s =
      s.memcpy hhdm dst (fun i => s.mem (physOf hhdm (ptr + offset) + i)) n := by
  show ({ s with mem := (LibC.memcpy (dst - hhdm) (ptr + offset - hhdm) n s.mem).2 } : Phys) = _
  rw [LibC.memcpy_eq_blit hdst hsrc hdisj]
  rfl

private theorem resident_copy_zero : (resident hhdm ptr).copy dst offset 0 s = s := rfl

end Source

namespace Phys

private theorem memcpy_zero {src : Mem} : s.memcpy hhdm dst src 0 = s := by
  unfold memcpy
  have hblit : blit s.mem (physOf hhdm dst) (0 : Word).toNat src = s.mem := by
    funext a
    exact if_neg (by
      show ¬ (_ ∧ _ < _ + 0)
      omega)
  rw [hblit]

private theorem alignedSize_mod (ph : Elf64Phdr) : (alignedSize ph).toNat % 4096 = 0 := by
  unfold alignedSize
  rw [alignUp_toNat_mod]
  exact Nat.mul_mod_left _ _

private theorem alignedSize_pages (ph : Elf64Phdr) :
    4096 * (alignedSize ph / pageSize).toNat = (alignedSize ph).toNat := by
  have hmod := alignedSize_mod ph
  have hdiv : (alignedSize ph / pageSize).toNat = (alignedSize ph).toNat / 4096 := BitVec.toNat_udiv
  omega

/-! ## A segment beside the file -/

/-- The run of a segment was taken and mapped: it is neither free nor a table any more. -/
structure Beside (r : Nat) (s : Phys) (st : Stock hhdm) (f m : Nat) (s' : Phys) (st' : Stock hhdm) :
    Prop where
  tables : Tables hhdm s' st' (treePlaces r)
  keeps : Keeps (treePlaces r) s st s' st'
  taken : Set.Ico f (f + m) ⊆ st.pool
  own : ∀ a ∈ Set.Ico f (f + m), a ∉ s'.frames (treePlaces r) ∪ st'.pool

theorem beside (h : Tables hhdm s st (treePlaces r)) {f : Nat} {s₁ : Phys} {st₁ : Stock hhdm}
    {va flags : Word} (ht : Took s st f (alignedSize ph / pageSize).toNat s₁ st₁)
    (hmap : s₁.map hhdm (tablePtr hhdm r) (framePa f) va (alignedSize ph) flags = .ok s') :
    ∃ st', Beside r s st f (alignedSize ph / pageSize).toNat s' st' := by
  obtain ⟨h₁, hk₁, hframes₁, -⟩ := h.took ht
  have hbelow := ht.below
  have hpages := alignedSize_pages ph
  obtain ⟨st', hm⟩ := (h₁.map (treePlaces_finite r) Set.Subset.rfl (by omega)
    (fun k _ p _ hpre => ⟨rfl, hpre.length_le⟩) (framePa f) flags).of_ok hmap
  refine ⟨st', hm.tables, hk₁.trans hm.keeps, ht.taken, fun a ha hin => ?_⟩
  rcases hm.keeps.dom hin with hin | hin
  · rw [hframes₁] at hin
    obtain ⟨r', p, hp, hat⟩ := hin
    exact h.forest.used hp hat (ht.taken ha)
  · exact (ht.rest hin).2 ha

/-- Writing to the run adds nothing to what is kept. -/
theorem Beside.written {f m : Nat} (s'' : Phys) (h : Beside r s st f m s' st')
    (hhead : s''.freelistHead = s'.freelistHead)
    (hmem : ∀ x, ¬ (4096 * f ≤ x ∧ x < 4096 * f + 4096 * m) → s''.mem x = s'.mem x) :
    Beside r s st f m s'' st' := by
  have hmem : Set.EqOn s''.mem s'.mem (pageBytes (Set.Ico f (f + m)))ᶜ := by
    intro x hx
    have hx : ¬ (f ≤ x / 4096 ∧ x / 4096 < f + m) := hx
    exact hmem x (by omega)
  have hst : s''.Stocked hhdm st' := by
    refine h.tables.stocked.frame hhead (hmem.mono ?_)
    intro x hx hxP
    exact h.own _ hxP (.inr hx)
  obtain ⟨htables, hkeeps, hframes, -⟩ := h.tables.quiet h.keeps hst Set.Subset.rfl h.taken
    (Set.disjoint_left.mpr fun a ha hin => h.own a ha (.inl hin)) hmem
  exact ⟨htables, hkeeps, h.taken, hframes ▸ h.own⟩

end Phys

namespace Resident

/-! ## A turn -/

section turn

variable {f : Nat} {s₂ : Phys} {st₂ : Stock hhdm}
variable (p : Word) (hb : Phys.Beside r s st f (alignedSize ph / pageSize).toNat s₂ st₂)
variable (hbelow : f + (alignedSize ph / pageSize).toNat ≤ 2 ^ 36)

include hb hbelow

/-- The run is cleared. -/
theorem cleared : (Source.resident hhdm p).clear (framePa f + hhdm) (alignedSize ph) s₂ =
      s₂.memsetZero hhdm (framePa f + hhdm) (alignedSize ph) ∧
    Phys.Beside r s st f (alignedSize ph / pageSize).toNat
      (s₂.memsetZero hhdm (framePa f + hhdm) (alignedSize ph)) st₂ := by
  have hpages := Phys.alignedSize_pages ph
  have hdst : physOf hhdm (framePa f + hhdm) = 4096 * f := physOf_tablePtr (by omega)
  refine ⟨Source.resident_clear (by omega), hb.written _ rfl fun x hx => ?_⟩
  show fill _ _ _ _ x = _
  rw [hdst, ← hpages]
  exact if_neg hx

/-- The file part is copied from the file, which the run does not meet. -/
theorem copied (h : Resident hhdm ptr size data r s st) (hok : SegmentAccepted size ph)
    (hc : ph.Contained) :
    (Source.resident hhdm ptr).copy (framePa f + hhdm + ph.pVaddr % pageSize) ph.pOffset ph.pFilesz s₂ =
        s₂.memcpy hhdm (framePa f + hhdm + ph.pVaddr % pageSize)
          (fun i => data (ph.pOffset.toNat + i)) ph.pFilesz ∧
      Phys.Beside r s st f (alignedSize ph / pageSize).toNat
        (s₂.memcpy hhdm (framePa f + hhdm + ph.pVaddr % pageSize)
          (fun i => data (ph.pOffset.toNat + i)) ph.pFilesz) st₂ := by
  by_cases hzero : ph.pFilesz = 0
  · rw [hzero, Phys.memcpy_zero]
    exact ⟨Source.resident_copy_zero, hb⟩
  have hlen : (ph.pVaddr % pageSize).toNat + ph.pFilesz.toNat ≤ (alignedSize ph).toNat :=
    hc.resolve_right hzero
  rw [pageOffset_toNat, ← Phys.alignedSize_pages ph] at hlen
  have hpos : 0 < ph.pFilesz.toNat := by
    refine Nat.pos_of_ne_zero fun hz => hzero ?_
    exact BitVec.eq_of_toNat_eq hz
  have hdst : physOf hhdm (framePa f + hhdm + ph.pVaddr % pageSize) =
      4096 * f + ph.pVaddr.toNat % 4096 := Phys.physOf_dst (by omega)
  have hfile := hok.offset_add_le
  have hfits := h.fits
  have hsrc : physOf hhdm (ptr + ph.pOffset) = physOf hhdm ptr + ph.pOffset.toNat := by
    have hcomm : ptr + ph.pOffset - hhdm = ptr - hhdm + ph.pOffset := by
      rw [BitVec.sub_eq_add_neg, BitVec.sub_eq_add_neg, BitVec.add_assoc, BitVec.add_comm ph.pOffset,
        BitVec.add_assoc]
    unfold physOf at *
    rw [hcomm, BitVec.toNat_add, Nat.mod_eq_of_lt (by omega)]
  -- the run was free, and the file was not
  have hdisj : Disjoint (Set.Ico (4096 * f + ph.pVaddr.toNat % 4096)
        (4096 * f + ph.pVaddr.toNat % 4096 + ph.pFilesz.toNat))
      (Set.Ico (physOf hhdm ptr + ph.pOffset.toNat)
        (physOf hhdm ptr + ph.pOffset.toNat + ph.pFilesz.toNat)) := by
    rw [Set.disjoint_left]
    rintro x ⟨hlo, hhi⟩ ⟨hlo', hhi'⟩
    have hin := h.apart (x - physOf hhdm ptr) (by omega)
    rw [Nat.add_sub_cancel' (by omega)] at hin
    exact hin (.inr (hb.taken ⟨by omega, by omega⟩))
  have hbytes : ∀ i < ph.pFilesz.toNat,
      s₂.mem (physOf hhdm ptr + ph.pOffset.toNat + i) = data (ph.pOffset.toNat + i) := by
    intro i hi
    rw [Nat.add_assoc]
    exact (h.keep hb.tables hb.keeps).bytes _ (by omega)
  constructor
  · rw [Source.resident_copy (by omega) (by omega) (by rw [hdst, hsrc]; exact hdisj), hsrc]
    unfold Phys.memcpy
    rw [blit_congr hbytes]
  · refine hb.written _ rfl fun x hx => ?_
    unfold Phys.memcpy
    rw [hdst]
    exact if_neg (by omega)

end turn

/-- **A segment beside the file.** Clearing and copying do what they do with an image apart, and leave the
file. -/
theorem segment (h : Resident hhdm ptr size data r s st) (hok : SegmentAccepted size ph)
    (hc : ph.Contained) {x : Word × Phys} {s₂ : Phys} {va flags : Word}
    (halloc : s.alloc hhdm (alignedSize ph / pageSize) = .ok x) (hne : x.1 ≠ 0)
    (hmap : x.2.map hhdm (tablePtr hhdm r) x.1 va (alignedSize ph) flags = .ok s₂) :
    (Source.resident hhdm ptr).clear (x.1 + hhdm) (alignedSize ph) s₂ =
        s₂.memsetZero hhdm (x.1 + hhdm) (alignedSize ph) ∧
      ∃ st', Resident hhdm ptr size data r (s₂.memsetZero hhdm (x.1 + hhdm) (alignedSize ph)) st' ∧
        (Source.resident hhdm ptr).copy (x.1 + hhdm + ph.pVaddr % pageSize) ph.pOffset ph.pFilesz
            (s₂.memsetZero hhdm (x.1 + hhdm) (alignedSize ph)) =
          (s₂.memsetZero hhdm (x.1 + hhdm) (alignedSize ph)).memcpy hhdm
            (x.1 + hhdm + ph.pVaddr % pageSize) (fun i => data (ph.pOffset.toNat + i)) ph.pFilesz ∧
        Resident hhdm ptr size data r
          ((s₂.memsetZero hhdm (x.1 + hhdm) (alignedSize ph)).memcpy hhdm
            (x.1 + hhdm + ph.pVaddr % pageSize) (fun i => data (ph.pOffset.toNat + i)) ph.pFilesz)
          st' := by
  rcases h.tables.stocked.alloc (alignedSize ph / pageSize) with ⟨-, hnone⟩ | ⟨f, s₁, st₁, hsome, ht⟩
  · cases halloc.symm.trans hnone
    exact absurd rfl hne
  cases halloc.symm.trans hsome
  obtain ⟨st', hb⟩ := Phys.beside h.tables ht hmap
  obtain ⟨hclear, hb₁⟩ := cleared ptr hb ht.below
  obtain ⟨hcopy, hb₂⟩ := copied hb₁ ht.below h hok hc
  exact ⟨hclear, st', h.keep hb₁.tables hb₁.keeps, hcopy, h.keep hb₂.tables hb₂.keeps⟩

/-- What the second pass needs of an image: it was accepted, and its segments are contained. -/
structure Loads (data : Mem) (size : Word) : Prop where
  header : HeaderAccepted data size
  accepted : ∀ i < (readHeader data).ePhnum.toNat, (phdrAt data i).pType = programLoad →
    SegmentAccepted size (phdrAt data i) ∧ (phdrAt data i).Contained

/-- A turn leaves the file. -/
theorem loadTurn (h : Resident hhdm ptr size data r s st) (hl : Loads data size)
    (hi : i < (readHeader data).ePhnum.toNat) {x : Option ElfLoadError × Phys}
    (hx : (s.loadTurn hhdm (.apart hhdm data) (tablePtr hhdm r) i).result = .ok x) :
    ∃ st', Resident hhdm ptr size data r x.2 st' := by
  rw [Phys.loadTurn_apart_result] at hx
  by_cases hload : (phdrAt data i).pType = programLoad
  · rw [if_neg (not_not_intro hload)] at hx
    obtain ⟨hok, hc⟩ := hl.accepted i hi hload
    unfold Phys.loadSegment at hx
    obtain ⟨y, halloc, hx⟩ := bind_ok.mp hx
    by_cases hzero : y.1 = 0
    · rw [if_pos hzero] at hx
      cases hx
      rcases h.tables.stocked.alloc (alignedSize (phdrAt data i) / pageSize) with
        ⟨-, hnone⟩ | ⟨f, s₁, st₁, hsome, ht⟩
      · cases halloc.symm.trans hnone
        exact ⟨st, h⟩
      · cases halloc.symm.trans hsome
        have hbelow := ht.below
        exact absurd hzero (framePa_ne_zero ht.pos (by omega))
    · rw [if_neg hzero] at hx
      obtain ⟨s₂, hmap, hx⟩ := bind_ok.mp hx
      cases hx
      obtain ⟨-, st', -, -, hres⟩ := h.segment hok hc halloc hzero hmap
      exact ⟨st', hres⟩
  · rw [if_pos hload] at hx
    cases hx
    exact ⟨st, h⟩

/-! ## The load -/

variable {d : PageDirectory}

end Resident

namespace Phys

variable {d : PageDirectory}

end Phys

end TwoKernel
