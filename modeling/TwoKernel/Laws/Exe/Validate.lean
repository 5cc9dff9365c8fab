import TwoKernel.Laws.Exe.Loader

/-!
# The loader and its executable specification

`tests/elf_tests.cpp` has a validator of its own, `validate_phdrs`, which it
declares to be the specification of what `elf_load` must reject. The two were
written apart: `elf_load` bounds the table of program headers by a product, the
validator by a quotient; `elf_load` steps through it by `e_phentsize`, the
validator by the size of the structure.

`validatePhdrs_iff` compares them on the images that are not rejected. The
loader makes every check of the validator but three: the version in `e_ident`,
the type, and that an entry has exactly the size of the structure.
-/

namespace TwoKernel

open ByteMem Vmm Elf

variable {hhdm size : Word} {s s' : Phys} {data : Mem} {sc : ImageScan}

namespace Elf

/-- `EV_CURRENT`. -/
def evCurrent : Byte := 1

/-- `validate_header` of the tests. -/
def validateHeader (data : Mem) (size : Word) : Bool :=
  let header := readHeader data
  if size < headerSize then false
  else if header.eIdent 0 ≠ 0x7f ∨ header.eIdent 1 ≠ 0x45 ∨ header.eIdent 2 ≠ 0x4c ∨
      header.eIdent 3 ≠ 0x46 then false
  else if header.eIdent 4 ≠ 2 then false
  else if header.eIdent 5 ≠ 1 then false
  else if header.eIdent 6 ≠ evCurrent then false
  else if header.eMachine ≠ elfMachine then false
  else if header.eType ≠ typeExec then false
  else if header.ePhentsize ≠ phdrSize then false
  else true

/-- The body of the loop of `validate_phdrs`: the header does not end it. -/
def validatePhdr (size : Word) (phdr : Elf64Phdr) : Bool :=
  if phdr.pType ≠ programLoad then true
  else if phdr.pMemsz < phdr.pFilesz then false
  else if size < phdr.pOffset ∨ size - phdr.pOffset < phdr.pFilesz then false
  else true

/-- `validate_phdrs` of the tests. -/
def validatePhdrs (data : Mem) (size : Word) : Bool :=
  let header := readHeader data
  if !validateHeader data size then false
  else if size < header.ePhoff ∨
      (size - header.ePhoff) / phdrSize.setWidth 64 < header.ePhnum.setWidth 64 then false
  else (List.range header.ePhnum.toNat).all fun i =>
    validatePhdr size (readPhdr data (header.ePhoff.toNat + i * phdrSize.toNat))

/-! ## The header -/

/-- The three checks of the validator that the loader does not make. -/
structure Strict (data : Mem) : Prop where
  version : (readHeader data).eIdent 6 = evCurrent
  type : (readHeader data).eType = typeExec
  entry : (readHeader data).ePhentsize = phdrSize

private theorem Strict.of_validateHeader (h : validateHeader data size = true) : Strict data := by
  simp only [validateHeader, Bool.if_false_left, Bool.and_eq_true, Bool.not_eq_true',
    decide_eq_false_iff_not, not_not, and_true] at h
  obtain ⟨-, -, -, -, hversion, -, htype, hentry⟩ := h
  exact ⟨hversion, htype, hentry⟩

private theorem HeaderAccepted.validateHeader (h : HeaderAccepted data size) (hs : Strict data) :
    Elf.validateHeader data size = true := by
  obtain ⟨hsize, hfile, hsupported, -, -⟩ := h
  simp only [elfCheckFile, elfCheckSupported, Bool.and_eq_true, decide_eq_true_eq] at hfile hsupported
  obtain ⟨⟨⟨h0, h1⟩, h2⟩, h3⟩ := hfile
  obtain ⟨⟨⟨⟨⟨⟨h4, h5⟩, hmachine⟩, -⟩, -⟩, -⟩, -⟩ := hsupported
  have hsize : ¬ size < headerSize := BitVec.not_lt.mpr hsize
  simp [Elf.validateHeader, hsize, h0, h1, h2, h3, h4, h5, hmachine, hs.version, hs.type, hs.entry]

/-- The product of the loader does not wrap, and bounds what the quotient of the validator does. -/
theorem HeaderAccepted.table_fits (h : HeaderAccepted data size) (hs : Strict data) :
    ¬ (size < (readHeader data).ePhoff ∨
      (size - (readHeader data).ePhoff) / phdrSize.setWidth 64 <
        (readHeader data).ePhnum.setWidth 64) := by
  have htable := h.table
  obtain ⟨hnum, -, hoff⟩ := elfCheckSupported_bounds h.supported
  rw [hs.entry] at htable
  have hwidth : ((readHeader data).ePhnum.setWidth 64).toNat = (readHeader data).ePhnum.toNat :=
    BitVec.toNat_setWidth_of_le (by decide)
  have hprod : ((readHeader data).ePhoff + (readHeader data).ePhnum.setWidth 64 *
      phdrSize.setWidth 64).toNat =
      (readHeader data).ePhoff.toNat + (readHeader data).ePhnum.toNat * 56 := by
    have hsize : ((phdrSize.setWidth 64 : Word)).toNat = 56 := rfl
    rw [BitVec.toNat_add, BitVec.toNat_mul, hwidth, hsize]
    omega
  have htable : (readHeader data).ePhoff.toNat + (readHeader data).ePhnum.toNat * 56 ≤
      size.toNat := hprod ▸ BitVec.le_def.mp htable
  have hle : (readHeader data).ePhoff ≤ size := BitVec.le_def.mpr (by omega)
  have hquot : ((size - (readHeader data).ePhoff) / phdrSize.setWidth 64).toNat =
      (size.toNat - (readHeader data).ePhoff.toNat) / 56 := by
    rw [BitVec.toNat_udiv, BitVec.toNat_sub_of_le hle]
    rfl
  rw [not_or, BitVec.not_lt, BitVec.not_lt, BitVec.le_def, BitVec.le_def, hquot, hwidth]
  omega

/-! ## The program headers -/

theorem SegmentAccepted.validatePhdr {ph : Elf64Phdr}
    (h : ph.pType = programLoad → SegmentAccepted size ph) : Elf.validatePhdr size ph = true := by
  unfold Elf.validatePhdr
  by_cases htype : ph.pType = programLoad
  · obtain ⟨hfilesz, hoff, hlen, -, -⟩ := h htype
    rw [if_neg (not_not_intro htype), if_neg (BitVec.not_lt.mpr hfilesz),
      if_neg (not_or.mpr ⟨BitVec.not_lt.mpr hoff, BitVec.not_lt.mpr hlen⟩)]
  · rw [if_pos htype]

/-- On an accepted image the validator lacks nothing but the three checks. -/
theorem validatePhdrs_of_strict (h : checkImage data size = .ok sc) (hs : Strict data) :
    validatePhdrs data size = true := by
  obtain ⟨hheader, hfold, -⟩ := checkImage_cases h
  have hok := foldlM_accepted hfold
  unfold validatePhdrs
  dsimp only
  rw [hheader.validateHeader hs, if_neg (by decide), if_neg (hheader.table_fits hs), List.all_eq_true]
  intro i hi
  apply SegmentAccepted.validatePhdr
  intro htype
  refine hok _ (List.mem_filter.mpr ⟨?_, decide_eq_true htype⟩)
  unfold phdrs
  dsimp only
  rw [hs.entry]
  exact List.mem_map.mpr ⟨i, hi, rfl⟩

private theorem validateHeader_of_validatePhdrs (h : validatePhdrs data size = true) :
    validateHeader data size = true := by
  unfold validatePhdrs at h
  dsimp only at h
  cases hheader : validateHeader data size with
  | true => rfl
  | false =>
    rw [hheader, Bool.not_false, if_pos rfl] at h
    cases h

end Elf

namespace Phys

/-- **The loader against its specification.** An image that `elf_load` does not reject, whatever the
state of memory and the process, is valid for `validate_phdrs`, and so for `validate_header`, exactly
if its identification has the current version, its type is executable and its program headers have
the size of the structure. -/
theorem validatePhdrs_iff {d : PageDirectory}
    (haccept : ∀ s', s.elfLoad hhdm data size d ≠ .ok (.error .invalid, s')) :
    (validatePhdrs data size = true ∧ validateHeader data size = true) ↔
      (readHeader data).eIdent 6 = evCurrent ∧ (readHeader data).eType = typeExec ∧
        (readHeader data).ePhentsize = phdrSize := by
  obtain ⟨sc, hcheck⟩ := exists_checkImage_ok haccept
  constructor
  · intro h
    have hs := Strict.of_validateHeader h.2
    exact ⟨hs.version, hs.type, hs.entry⟩
  · intro h
    obtain ⟨hversion, htype, hentry⟩ := h
    have hvalid := validatePhdrs_of_strict hcheck ⟨hversion, htype, hentry⟩
    exact ⟨hvalid, validateHeader_of_validatePhdrs hvalid⟩

theorem validatePhdrs_userImage : (∀ s' : Phys, blank.elfLoad hhdm₀ userImage 123
      (dirOf hhdm₀ 1024) ≠ .ok (.error .invalid, s')) ∧
    validatePhdrs userImage 123 = true := by
  have haccept : ∀ s' : Phys, blank.elfLoad hhdm₀ userImage 123
      (dirOf hhdm₀ 1024) ≠ .ok (.error .invalid, s') :=
    elfLoad_ne_invalid userImage_ok blank _
  exact ⟨haccept, ((validatePhdrs_iff haccept).mpr (by decide +kernel)).1⟩

/-- Images that the loader takes for `userImage`: one without a version, one of a relocatable file, one
with program headers of 59 bytes. -/
def laxImages : List Mem :=
  [fun i => if i = 6 then 0 else userImage i,
    fun i => if i = 16 then 1 else userImage i,
    fun i => if i = 54 then 59 else userImage i]

/-- **The loader is less strict than its specification.** In every state and for every process it
does not reject these images; the validator does. -/
theorem laxImages_invalid : laxImages.length = 3 ∧ ∀ data ∈ laxImages,
    (∀ hhdm s d s', Phys.elfLoad hhdm data 123 d s ≠ .ok (.error .invalid, s')) ∧
      validatePhdrs data 123 = false := by
  refine ⟨rfl, ?_⟩
  have hok : ∀ data ∈ laxImages,
      checkImage data 123 = .ok ⟨0x400010, true, 0x400018, 0x401000⟩ ∧
        validatePhdrs data 123 = false := by decide +kernel
  intro data hdata
  obtain ⟨hcheck, hinvalid⟩ := hok data hdata
  exact ⟨fun hhdm s d s' => elfLoad_ne_invalid hcheck s d s', hinvalid⟩

end Phys

end TwoKernel
