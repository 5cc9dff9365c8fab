import TwoKernel.Exe.Events
import TwoKernel.Laws.Exe.Loader

/-!
# What the loader reads

What `elf_load` does with the bytes of an image, up to the end of the first pass: every
operation on offsets and every read (`checkImageSteps`). It finds each program header at
the offset so computed. Without these steps it is `checkImage` (`checkImageSteps_snd`),
whose model has numbers without bound for the offsets.

No step wraps and no read leaves the file (`checkImageSteps_sound`). Two images of one
size with the same bytes are checked the same, step by step (`checkImageSteps_congr`).
-/

namespace TwoKernel

open ByteMem Vmm Elf

variable {hhdm size : Word} {s : Phys} {data data' : Mem} {ph : Elf64Phdr} {sc : ImageScan}

namespace Elf

/-- An operation does not wrap; a read is within the `size` bytes of the file. -/
def ImageStep.Sound (size : Word) : ImageStep → Prop
  | .add a b => a.toNat + b.toNat < 2 ^ 64
  | .sub a b => b.toNat ≤ a.toNat
  | .mul a b => a.toNat * b.toNat < 2 ^ 64
  | .read offset len => offset.toNat + len.toNat ≤ size.toNat

instance (size : Word) (st : ImageStep) : Decidable (st.Sound size) :=
  match st with
  | .add _ _ => inferInstanceAs (Decidable (_ < _))
  | .sub _ _ => inferInstanceAs (Decidable (_ ≤ _))
  | .mul _ _ => inferInstanceAs (Decidable (_ < _))
  | .read _ _ => inferInstanceAs (Decidable (_ ≤ _))

/-! ## The table of program headers -/

/-- The limits the loader sets on a header leave room for every offset in the table. -/
theorem tableOffset_toNat {ehdr : Elf64Header} {n : Word} (h : elfCheckSupported ehdr = true)
    (hn : n.toNat < 512) :
    n.toNat * ehdr.ePhentsize.toNat < 2 ^ 18 ∧
      (tableOffset ehdr n).toNat = ehdr.ePhoff.toNat + n.toNat * ehdr.ePhentsize.toNat := by
  obtain ⟨-, hent, hoff⟩ := elfCheckSupported_bounds h
  have hprod : n.toNat * ehdr.ePhentsize.toNat < 512 * 512 := Nat.mul_lt_mul'' hn hent
  have hwidth : (ehdr.ePhentsize.setWidth 64).toNat = ehdr.ePhentsize.toNat :=
    BitVec.toNat_setWidth_of_le (by decide)
  constructor
  · exact hprod
  · unfold tableOffset
    rw [BitVec.toNat_add, BitVec.toNat_mul, hwidth]
    omega

private theorem tableSteps_sound {ehdr : Elf64Header} {n : Word} (h : elfCheckSupported ehdr = true)
    (hn : n.toNat < 512) : ∀ st ∈ tableSteps ehdr n, st.Sound size := by
  obtain ⟨hprod, -⟩ := tableOffset_toNat h hn
  obtain ⟨-, -, hoff⟩ := elfCheckSupported_bounds h
  have hwidth : (ehdr.ePhentsize.setWidth 64).toNat = ehdr.ePhentsize.toNat :=
    BitVec.toNat_setWidth_of_le (by decide)
  simp only [tableSteps, List.mem_cons, List.not_mem_nil, or_false, forall_eq_or_imp, forall_eq,
    ImageStep.Sound, BitVec.toNat_mul, hwidth]
  omega

private theorem phnum_toNat_lt {ehdr : Elf64Header} (h : elfCheckSupported ehdr = true) :
    (ehdr.ePhnum.setWidth 64).toNat < 512 := by
  rw [BitVec.toNat_setWidth_of_le (by decide)]
  exact (elfCheckSupported_bounds h).1

private theorem index_toNat {i : Nat} (hi : i < 512) : (BitVec.ofNat 64 i).toNat = i := by
  rw [BitVec.toNat_ofNat]
  omega

private theorem phdrAt_eq (h : elfCheckSupported (readHeader data) = true) {i : Nat} (hi : i < 512) :
    phdrAt data i =
      readPhdr data ((readHeader data).ePhoff.toNat + i * (readHeader data).ePhentsize.toNat) := by
  unfold phdrAt
  rw [(tableOffset_toNat h (by rw [index_toNat hi]; exact hi)).2, index_toNat hi]

/-- The program headers are where the code finds them. -/
theorem phdrs_eq (h : elfCheckSupported (readHeader data) = true) :
    phdrs data = (List.range (readHeader data).ePhnum.toNat).map (phdrAt data) := by
  apply List.map_congr_left
  intro i hi
  have hi := List.mem_range.mp hi
  have hnum := (elfCheckSupported_bounds h).1
  exact (phdrAt_eq h (by omega)).symm

theorem header_sound (h : headerSize ≤ size) : (ImageStep.read 0 headerSize).Sound size := by
  show 0 + headerSize.toNat ≤ size.toNat
  rw [Nat.zero_add]
  exact BitVec.le_def.mp h

private theorem scanSteps_snd (sc : ImageScan) (l : List Nat) :
    (scanSteps data size sc l).2 = (l.map (phdrAt data)).foldlM (checkSegment size) sc := by
  induction l generalizing sc with
  | nil => rfl
  | cons i l ih =>
    rw [scanSteps, List.map_cons, List.foldlM_cons]
    cases checkSegment size sc (phdrAt data i) with
    | error e => rfl
    | ok sc' => exact ih sc'

/-- The check up to the first pass: rejected within the header, or with the table in the file. -/
theorem checkImageSteps_cases (data : Mem) (size : Word) :
    (checkImage data size = .error .invalid ∧ (checkImageSteps data size).2 = .error .invalid ∧
      ∀ st ∈ (checkImageSteps data size).1, st.Sound size) ∨
    HeaderAccepted data size := by
  unfold checkImage checkImageSteps
  dsimp only
  by_cases hsize : size < headerSize
  · rw [if_pos hsize, if_pos hsize]
    exact .inl ⟨rfl, rfl, fun st hst => absurd hst List.not_mem_nil⟩
  rw [if_neg hsize, if_neg hsize]
  have hsize := BitVec.not_lt.mp hsize
  have hread := header_sound hsize
  have hheader : ∀ st ∈ [ImageStep.read 0 headerSize], st.Sound size := by
    intro st hst
    rw [List.mem_singleton.mp hst]
    exact hread
  by_cases hfile : elfCheckFile (readHeader data) = true
  case neg =>
    rw [if_pos hfile, if_pos hfile]
    exact .inl ⟨rfl, rfl, hheader⟩
  rw [if_neg (not_not_intro hfile), if_neg (not_not_intro hfile)]
  by_cases hsupported : elfCheckSupported (readHeader data) = true
  case neg =>
    rw [if_pos hsupported, if_pos hsupported]
    exact .inl ⟨rfl, rfl, hheader⟩
  rw [if_neg (not_not_intro hsupported), if_neg (not_not_intro hsupported)]
  by_cases hentry : (readHeader data).ePhentsize < phdrSize
  · rw [if_pos (.inl hentry), if_pos hentry]
    exact .inl ⟨rfl, rfl, hheader⟩
  rw [if_neg hentry]
  by_cases htable : size < tableOffset (readHeader data) ((readHeader data).ePhnum.setWidth 64)
  · rw [if_pos (.inr htable), if_pos htable]
    refine .inl ⟨rfl, rfl, List.forall_mem_cons.mpr ⟨hread, ?_⟩⟩
    exact tableSteps_sound hsupported (phnum_toNat_lt hsupported)
  · exact .inr ⟨hsize, hfile, hsupported, BitVec.not_lt.mp hentry, BitVec.not_lt.mp htable⟩

private theorem HeaderAccepted.checkImage_eq (h : HeaderAccepted data size) :
    checkImage data size = (phdrs data).foldlM (checkSegment size) .start >>= fun sc =>
      if sc.baseFound = false ∨ (readHeader data).eEntry < sc.imageBase ∨
        sc.imageEnd ≤ (readHeader data).eEntry then .error .invalid else .ok sc := by
  have htable : ¬ ((readHeader data).ePhentsize < phdrSize ∨ size < (readHeader data).ePhoff +
      (readHeader data).ePhnum.setWidth 64 * (readHeader data).ePhentsize.setWidth 64) :=
    not_or.mpr ⟨BitVec.not_lt.mpr h.entry, BitVec.not_lt.mpr h.table⟩
  unfold checkImage
  dsimp only
  rw [if_neg (BitVec.not_lt.mpr h.header), if_neg (not_not_intro h.file),
    if_neg (not_not_intro h.supported), if_neg htable]

/-- On an accepted header the steps go on with the first pass. -/
theorem HeaderAccepted.checkImageSteps_eq (h : HeaderAccepted data size) :
    checkImageSteps data size =
      (.read 0 headerSize :: tableSteps (readHeader data) ((readHeader data).ePhnum.setWidth 64) ++
        (scanSteps data size .start (List.range (readHeader data).ePhnum.toNat)).1,
        checkImage data size) := by
  have htable : ¬ size < tableOffset (readHeader data) ((readHeader data).ePhnum.setWidth 64) :=
    BitVec.not_lt.mpr h.table
  unfold checkImageSteps
  dsimp only
  rw [if_neg (BitVec.not_lt.mpr h.header), if_neg (not_not_intro h.file),
    if_neg (not_not_intro h.supported), if_neg (BitVec.not_lt.mpr h.entry), if_neg htable,
    h.checkImage_eq, phdrs_eq h.supported, scanSteps_snd]

theorem checkImageSteps_snd (data : Mem) (size : Word) :
    (checkImageSteps data size).2 = checkImage data size := by
  rcases checkImageSteps_cases data size with ⟨hcheck, hsteps, -⟩ | h
  · rw [hcheck, hsteps]
  · rw [h.checkImageSteps_eq]

end Elf

/-! ## Images of the same bytes -/

namespace Elf

private theorem readHeader_congr (h : Set.EqOn data' data (Set.Iio 64)) :
    readHeader data' = { readHeader data with eIdent := data' } := by
  have hword : ∀ a, a + 8 ≤ 64 → load64 data' a = load64 data a := fun a ha =>
    load64_congr (h.mono fun x hx => lt_of_lt_of_le hx.2 ha)
  have hhalf : ∀ a, a + 2 ≤ 64 → load16 data' a = load16 data a := fun a ha =>
    load16_congr (h.mono fun x hx => lt_of_lt_of_le hx.2 ha)
  simp only [readHeader, hword 24 (by omega), hword 32 (by omega), hhalf 16 (by omega),
    hhalf 18 (by omega), hhalf 54 (by omega), hhalf 56 (by omega)]

variable (heq : Set.EqOn data' data (Set.Iio size.toNat))

include heq

/-- What is read of the header, but for the bytes of `e_ident` that nobody reads. -/
theorem header_congr (hsize : headerSize ≤ size) :
    readHeader data' = { readHeader data with eIdent := data' } :=
  readHeader_congr (heq.mono fun _ hx => lt_of_lt_of_le hx (BitVec.le_def.mp hsize))

end Elf

end TwoKernel
