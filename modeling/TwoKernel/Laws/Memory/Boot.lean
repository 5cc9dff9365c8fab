import TwoKernel.Laws.Memory.Spaces

/-!
# The direct map that `Vmm::init` builds

`Vmm::init` makes the kernel directory, calls `map` for the entries of the memory
map that the kernel uses, each at its place in the direct map, and then for the
three parts of the kernel image.

A sequence of `map` calls is an overlay: what an address walks to is decided by
the last range that has its page (`Tables.maps`). A range of `n` bytes has as many
pages as `n` bytes from a page boundary on, wherever it begins, so an entry that
is not page aligned may end in a page that is not mapped. `init_directMapped_iff`
says which memory maps are mapped completely.
-/

namespace TwoKernel

open ByteMem Vmm Trie

/-- The arguments of a call of `map`. -/
structure Range where
  pa : Word
  va : Word
  length : Word
  flags : Word

namespace Range

def map (hhdm : Word) (dir : PageDirectory) (s : Phys) (q : Range) : Outcome Phys :=
  s.map hhdm dir.pml4 q.pa q.va q.length q.flags

/-- How far the page of `v` is ahead of the first page of the range. -/
def ahead (q : Range) (v : Word) : Nat := (pageNumber v + 2 ^ 36 - pageNumber q.va) % 2 ^ 36

/-- The leaf entry of the range for `v`, if the range has its page. -/
def entry (q : Range) (v : Word) : Option Word :=
  if q.ahead v < pages q.length then
    some (alignDown (q.pa + pageOff (q.ahead v)) pageSize ||| q.flags)
  else none

/-- The leaf entry of the last range that has the page of `v`, over what was there `before`. -/
def last (l : List Range) (v : Word) (before : Option Word) : Option Word :=
  l.foldl (fun e q => (q.entry v).or e) before

end Range

namespace Vmm

/-- What the direct map is to be mapped with. -/
def directFlags : Word := present ||| writeable ||| nx

/-- Byte `x` is in the entry. -/
def Has (e : MemmapEntry) (x : Word) : Prop :=
  e.base.toNat ≤ x.toNat ∧ x.toNat < e.base.toNat + e.length.toNat

/-- The loop of `map` over the entry comes to the page of `x`. -/
def Steps (e : MemmapEntry) (x : Word) : Prop :=
  e.base.toNat / 4096 ≤ x.toNat / 4096 ∧ x.toNat / 4096 < e.base.toNat / 4096 + pages e.length

instance (e : MemmapEntry) (x : Word) : Decidable (Steps e x) := inferInstanceAs (Decidable (_ ∧ _))

/-- The call of `map` for an entry. -/
def direct (hhdm : Word) (e : MemmapEntry) : Range :=
  ⟨e.base, hhdm + e.base, e.length, directFlags⟩

/-- The call of `map` in `map_limine_kernel_addr`. -/
def KernelImage.range (image : KernelImage) (start stop flags : Word) : Range :=
  ⟨start - image.virtualBase + image.physicalBase, start, stop - start, flags⟩

def KernelImage.ranges (image : KernelImage) : List Range :=
  [image.range image.textStart image.textEnd present,
    image.range image.rodataStart image.rodataEnd (present ||| nx),
    image.range image.dataStart image.dataEnd directFlags]

/-- The calls of `map` that `Vmm::init` makes, in order. -/
def initRanges (hhdm : Word) (memmap : List MemmapEntry) (image : KernelImage) : List Range :=
  (memmap.filter fun e => Listed e).map (direct hhdm) ++ image.ranges

/-- The linker script puts the kernel at `0xffffffff80000000`, and each part after its start. -/
structure KernelImage.Ok (image : KernelImage) : Prop where
  text : 0xffffffff80000000 ≤ image.textStart.toNat ∧ image.textStart ≤ image.textEnd
  rodata : 0xffffffff80000000 ≤ image.rodataStart.toNat ∧ image.rodataStart ≤ image.rodataEnd
  data : 0xffffffff80000000 ≤ image.dataStart.toNat ∧ image.dataStart ≤ image.dataEnd

/-- What the loader promises: usable entries in order, a page-aligned direct map that reaches every
entry without wrapping around, and the kernel at its place. The allocator stores a node in an empty
entry too, so that is at an address a page table can hold. -/
structure LoaderOk (hhdm : Word) (memmap : List MemmapEntry) (image : KernelImage) : Prop where
  usable : MemmapOk hhdm memmap
  empty : ∀ e ∈ usableEntries memmap, e.length = 0 → e.base.toNat < 2 ^ 48
  aligned : hhdm.toNat % 4096 = 0
  reached : ∀ e ∈ memmap, Listed e → hhdm.toNat + e.base.toNat + e.length.toNat ≤ 2 ^ 64
  image : image.Ok

/-- **The direct map is complete**: every byte of the listed entries is at its place in it. -/
def DirectMapped (hhdm : Word) (memmap : List MemmapEntry) (dir : PageDirectory) (s : Phys) : Prop :=
  ∀ e ∈ memmap, Listed e → ∀ x, Has e x →
    s.translate dir.root (hhdm + x) = some (x, present ||| writeable ||| nx)

/-- Byte `x` can be mapped: its address fits an entry; the loop over some listed entry comes to its
page, or a part of the kernel image is mapped there; and if so, the last part that is puts the same
entry there. -/
structure Mappable (hhdm : Word) (memmap : List MemmapEntry) (image : KernelImage) (x : Word) :
    Prop where
  low : x.toNat < 2 ^ 48
  stepped : Range.last image.ranges (hhdm + x) none = none → ∃ e ∈ memmap, Listed e ∧ Steps e x
  agrees : ∀ e, Range.last image.ranges (hhdm + x) none = some e →
    e = framePa (x.toNat / 4096) ||| directFlags

/-- The tables on the way to the pages that `Vmm::init` maps. -/
def initPaths (hhdm : Word) (memmap : List MemmapEntry) (image : KernelImage) :
    Set (List (Fin 512)) :=
  {p | p ≠ [] ∧ ∃ q ∈ initRanges hhdm memmap image, ∃ k, k < pages q.length ∧
    p <+: tablePath (q.va + pageOff k)}

end Vmm

variable {hhdm : Word} {s s' : Phys} {st st' : Stock hhdm} {X : Set Place} {r K k : Nat}
  {q : Range} {l l' : List Range} {v x a : Word} {before : Option Word} {d : PageDirectory}
  {memmap : List MemmapEntry} {image : KernelImage} {e : MemmapEntry} {mem : Mem}

/-! ## A sequence of ranges -/

namespace Range

theorem last_nil : last [] v before = before := by
  unfold last
  rw [List.foldl_nil]

theorem last_cons : last (q :: l) v before = last l v ((q.entry v).or before) := by
  unfold last
  rw [List.foldl_cons]

theorem last_append : last (l ++ l') v before = last l' v (last l v before) := by
  unfold last
  rw [List.foldl_append]

theorem last_eq_or : last l v before = (last l v none).or before := by
  induction l generalizing before with
  | nil => rw [last_nil, last_nil, Option.none_or]
  | cons q l ih =>
    have hfirst : last l v (q.entry v) = (last l v none).or (q.entry v) := ih
    rw [last_cons, last_cons, Option.or_none, hfirst, ih, Option.or_assoc]

/-- The page of the range that has the page number of `v`. -/
theorem ahead_eq_iff (hk : k < 2 ^ 36) :
    pageNumber v = pageNumber (q.va + pageOff k) ↔ q.ahead v = k := by
  rw [pageNumber_add]
  unfold ahead pageNumber
  omega

end Range

namespace Phys

private theorem present_or_right {flags : Word} (h : Present flags) : Present (a ||| flags) := by
  unfold Present at h ⊢
  rw [BitVec.and_or_distrib_right]
  exact fun hz => h (BitVec.or_eq_zero_iff.mp hz).2

/-- After a range is mapped, it decides what the addresses of its pages walk to. -/
theorem MappedPages.walk (hm : MappedPages X (treePlaces r) s st r q.pa q.va q.flags (pages q.length)
    s' st') (hlen : q.length.toNat ≤ 2 ^ 48) (hpres : Present q.flags) (v : Word) :
    s'.walk r v = (q.entry v).or (s.walk r v) := by
  have hpages : pages q.length ≤ 2 ^ 36 := by
    unfold pages
    omega
  unfold Range.entry
  by_cases hin : q.ahead v < pages q.length
  · have hnum : pageNumber v = pageNumber (q.va + pageOff (q.ahead v)) :=
      (Range.ahead_eq_iff (by omega)).mpr rfl
    obtain ⟨hpath, hslot⟩ := path_eq_iff.mpr hnum
    rw [if_pos hin, walk_eq, hpath, hslot, hm.here _ hin, if_pos (present_or_right hpres)]
    rfl
  · rw [if_neg hin, Option.none_or, walk_eq, walk_eq]
    refine hm.there ⟨rfl, le_rfl⟩ rfl fun k hk e => hin ?_
    simp only [Prod.mk.injEq, true_and] at e
    rw [(Range.ahead_eq_iff (by omega)).mp (path_eq_iff.mp e)]
    exact hk

/-- **Ranges overlay each other.** A sequence of `map` calls, with pages enough for the tables that
are missing, returns; and the last range that has a page decides what its addresses walk to. -/
theorem Tables.maps (hX : X.Finite) (hXp : X ⊆ treePlaces r) (l : List Range)
    (hl : ∀ q ∈ l, q.length.toNat ≤ 2 ^ 48 ∧ Present q.flags ∧ rangeTables r q.va q.length ⊆ X) :
    ∀ {s : Phys} {st : Stock hhdm}, Tables hhdm s st (treePlaces r) →
      Outcome.Returns (st.freePages < (s.missing X).ncard)
        (l.foldlM (Range.map hhdm (dirOf hhdm r)) s) fun s' =>
          ∀ v, s'.walk r v = Range.last l v (s.walk r v) := by
  induction l with
  | nil => exact fun _ => .ok fun _ => Range.last_nil.symm
  | cons q l ih =>
    intro s st h
    obtain ⟨hlen, hpres, htables⟩ := hl q List.mem_cons_self
    rw [List.foldlM_cons]
    refine (h.map hX hXp hlen (fun k hk p hne hpre => htables ⟨rfl, hne, k, hk, hpre⟩) q.pa
      q.flags).bind fun s₁ hs₁ => ?_
    obtain ⟨st₁, hm⟩ := hs₁
    refine (ih (fun q hq => hl q (List.mem_cons_of_mem _ hq)) hm.tables).mono hm.paid.short ?_
    intro s' hs' v
    rw [hs' v, hm.walk hlen hpres v, Range.last_cons]

end Phys

namespace Vmm

/-- The loop over the memory map calls `map` for the listed entries. -/
theorem foldlM_mapEntry : memmap.foldlM (mapEntry hhdm d) s =
    ((memmap.filter fun e => Listed e).map (direct hhdm)).foldlM (Range.map hhdm d) s := by
  induction memmap generalizing s with
  | nil => rfl
  | cons e memmap ih =>
    rw [List.foldlM_cons]
    by_cases he : Listed e
    · have hstep : mapEntry hhdm d s e = Range.map hhdm d s (direct hhdm e) := if_pos he
      rw [List.filter_cons_of_pos (by simpa using he), List.map_cons, List.foldlM_cons, hstep]
      exact bind_congr fun _ => ih
    · have hstep : mapEntry hhdm d s e = .ok s := if_neg he
      rw [List.filter_cons_of_neg (by simpa using he), hstep, ok_bind]
      exact ih

/-- `Vmm::init` is the kernel directory and a sequence of `map` calls. -/
theorem init_eq : init hhdm memmap image s = (do
    let r ← s.newKernelSpace hhdm
    let s ← (initRanges hhdm memmap image).foldlM (Range.map hhdm r.1) r.2
    return (r.1, s)) := by
  unfold init initRanges KernelImage.ranges
  refine bind_congr fun r => ?_
  rw [List.foldlM_append, bind_assoc, foldlM_mapEntry]
  refine bind_congr fun s => ?_
  simp only [List.foldlM_cons, List.foldlM_nil, bind_assoc, pure_bind]
  rfl

/-! ## What the ranges put where -/

section direct

variable (haligned : hhdm.toNat % 4096 = 0) (hx : x.toNat < 2 ^ 48)
include haligned hx

/-- The range of an entry has the pages its loop comes to, each at its place. -/
theorem entry_direct (he : e.length.toNat = 0 ∨ e.base.toNat + e.length.toNat ≤ 2 ^ 48) :
    (direct hhdm e).entry (hhdm + x) =
      if Steps e x then some (framePa (x.toNat / 4096) ||| directFlags) else none := by
  have hnum : ∀ y : Word,
      pageNumber (hhdm + y) = (hhdm.toNat / 4096 + y.toNat / 4096) % 2 ^ 36 := by
    intro y
    unfold pageNumber
    rw [BitVec.toNat_add]
    omega
  have hahead : (direct hhdm e).ahead (hhdm + x) =
      (x.toNat / 4096 + 2 ^ 36 - e.base.toNat / 4096 % 2 ^ 36) % 2 ^ 36 := by
    unfold Range.ahead direct
    rw [hnum, hnum]
    omega
  have hpages : pages e.length = (e.length.toNat + 4095) / 4096 := rfl
  unfold Range.entry
  rw [hahead]
  by_cases hst : Steps e x
  · obtain ⟨hlo, hhi⟩ := hst
    have hk : (x.toNat / 4096 + 2 ^ 36 - e.base.toNat / 4096 % 2 ^ 36) % 2 ^ 36 =
        x.toNat / 4096 - e.base.toNat / 4096 := by omega
    have hin : x.toNat / 4096 - e.base.toNat / 4096 < pages (direct hhdm e).length := by
      show _ < pages e.length
      omega
    have hpage : alignDown ((direct hhdm e).pa + pageOff (x.toNat / 4096 - e.base.toNat / 4096))
        pageSize = framePa (x.toNat / 4096) := by
      show alignDown (e.base + _) pageSize = _
      rw [Phys.alignDown_pageOff (by omega), Nat.add_sub_of_le hlo]
    rw [hk, if_pos hin, if_pos ⟨hlo, hhi⟩, hpage]
    rfl
  · have hout : ¬ (x.toNat / 4096 + 2 ^ 36 - e.base.toNat / 4096 % 2 ^ 36) % 2 ^ 36 <
        pages (direct hhdm e).length := by
      show ¬ _ < pages e.length
      unfold Steps at hst
      omega
    rw [if_neg hout, if_neg hst]

/-- The listed entries together: the loop over one of them comes to the page of `x`, or none does. -/
theorem last_direct (l : List MemmapEntry)
    (hl : ∀ e ∈ l, e.length.toNat = 0 ∨ e.base.toNat + e.length.toNat ≤ 2 ^ 48) :
    Range.last (l.map (direct hhdm)) (hhdm + x) none =
      if ∃ e ∈ l, Steps e x then some (framePa (x.toNat / 4096) ||| directFlags) else none := by
  induction l with
  | nil => simp [Range.last_nil]
  | cons e l ih =>
    have hhead := entry_direct haligned hx (hl e List.mem_cons_self)
    have htail := ih fun e he => hl e (List.mem_cons_of_mem _ he)
    rw [List.map_cons, Range.last_cons, Option.or_none, Range.last_eq_or, hhead, htail]
    by_cases hl' : ∃ e ∈ l, Steps e x
    · rw [if_pos hl', if_pos (List.exists_mem_cons_of_exists hl')]
      rfl
    · rw [if_neg hl', Option.none_or]
      by_cases he : Steps e x
      · rw [if_pos he, if_pos ⟨e, List.mem_cons_self, he⟩]
      · rw [if_neg he, if_neg]
        rintro ⟨e', he', hst⟩
        rcases List.mem_cons.mp he' with rfl | he'
        · exact he hst
        · exact hl' ⟨e', he', hst⟩

end direct

/-! ## Translation -/

private theorem translate_low {y flags : Word} (h : s.translate r v = some (y, flags)) :
    y.toNat < 2 ^ 48 := by
  obtain ⟨e, -, he⟩ := Option.map_eq_some_iff.mp h
  have hlt : frameOf e < 2 ^ 36 := frameOf_lt
  rw [← (Prod.mk.inj he).1, or_offMask_toNat]
  omega

/-- What the leaf entry is, where an address of the direct map is translated as it should be. -/
theorem translate_eq_iff (hx : x.toNat < 2 ^ 48) (hv : v.toNat % 4096 = x.toNat % 4096) :
    s.translate r v = some (x, directFlags) ↔
      s.walk r v = some (framePa (x.toNat / 4096) ||| directFlags) := by
  constructor
  · intro h
    obtain ⟨e, hw, he⟩ := Option.map_eq_some_iff.mp h
    obtain ⟨haddr, hflags⟩ := Prod.mk.inj he
    have hpage : e &&& paddrMask = framePa (x.toNat / 4096) := by
      apply BitVec.eq_of_toNat_eq
      have hnat := congrArg BitVec.toNat haddr
      rw [or_offMask_toNat] at hnat
      have hframe : frameOf e * 4096 = (e &&& paddrMask).toNat := by
        rw [and_paddrMask_toNat, frameOf_eq]
      rw [framePa_toNat (by omega)]
      omega
    rw [hw, ← hpage, ← hflags, ← BitVec.and_or_distrib_left, BitVec.or_not_self, BitVec.and_allOnes]
  · intro hw
    rw [Phys.translate_of_walk (by omega) (by decide) hw]
    congr 2
    apply BitVec.eq_of_toNat_eq
    rw [BitVec.toNat_ofNat]
    omega

/-! ## The start -/

/-- Where every byte of a listed entry fits an entry of a page table, its end does. -/
theorem LoaderOk.listed_end (h : LoaderOk hhdm memmap image) (he : e ∈ memmap) (hl : Listed e)
    (hlow : ∀ x, Has e x → x.toNat < 2 ^ 48) :
    e.length.toNat = 0 ∨ e.base.toNat + e.length.toNat ≤ 2 ^ 48 := by
  by_cases hz : e.length.toNat = 0
  · exact .inl hz
  · right
    have hreach := h.reached e he hl
    -- the last byte
    have hx : (BitVec.ofNat 64 (e.base.toNat + e.length.toNat - 1)).toNat =
        e.base.toNat + e.length.toNat - 1 := by
      rw [BitVec.toNat_ofNat]
      omega
    have hlast := hlow (BitVec.ofNat 64 (e.base.toNat + e.length.toNat - 1))
      ⟨by rw [hx]; omega, by rw [hx]; omega⟩
    omega

/-- The allocator's pages are listed, so their numbers fit an entry. -/
theorem LoaderOk.stocked (h : LoaderOk hhdm memmap image)
    (hlow : ∀ e ∈ memmap, Listed e → ∀ x, Has e x → x.toNat < 2 ^ 48) (mem : Mem) :
    (Phys.initPmm hhdm memmap mem).Stocked hhdm (Arena.init h.usable).stock := by
  refine ⟨(initPmm_holds h.usable mem).1, ?_⟩
  rintro p ⟨b, hb, hp⟩
  obtain ⟨e, he, rfl⟩ := List.mem_map.mp (List.mem_reverse.mp hb)
  have hmem := List.mem_filter.mp he
  have haligned := (h.usable.entry e he).base_aligned
  have hend := h.listed_end hmem.1 (.inl (by simpa using hmem.2))
    (hlow e hmem.1 (.inl (by simpa using hmem.2)))
  have hempty : e.length.toNat = 0 → e.base.toNat < 2 ^ 48 := fun hz =>
    h.empty e he (BitVec.eq_of_toNat_eq hz)
  have hp : p < e.base.toNat / 4096 + max e.block.numPages.toNat 1 := hp.2
  rw [MemmapEntry.block_numPages] at hp
  omega

/-- The kernel directory as one tree: nothing is mapped yet. -/
theorem newKernelSpace_tree (h : s.Stocked hhdm st) :
    Outcome.Returns (st.freePages < 257) (s.newKernelSpace hhdm) fun y =>
      ∃ K st', K < 2 ^ 52 ∧ y.1 = dirOf hhdm K ∧ y.2.Tables hhdm st' (Phys.treePlaces K) ∧
        st'.freePages + 257 = st.freePages ∧ ∀ v, y.2.walk K v = none := by
  refine (Coherent.newKernelTree h {p | p.length ≤ 3} (fun p hp => hp) ?_ ?_).mono id ?_
  · intro p i hp
    have hp : (p ++ [i]).length ≤ 3 := hp
    rw [List.length_append] at hp
    exact Nat.le_of_succ_le hp
  · exact fun k _ => show 1 ≤ 3 by decide
  · rintro ⟨d, s'⟩ ⟨K, s₁, st₁, st₂, hd, hnew, hfilled⟩
    have hzero : ∀ j : Fin 512, s₁.pte K j = 0 := fun j => hnew.zero j j.isLt
    have hcount := hnew.count
    have hcount₂ := hfilled.count
    rw [List.length_range'] at hcount₂
    refine ⟨K, st₂, Nat.lt_trans (h.low K hnew.taken) (by decide), hd, hfilled.tables, by omega, ?_⟩
    intro v
    have hplace : (K, tablePath v) ∈ Phys.treePlaces K := ⟨rfl, le_rfl⟩
    rw [Phys.walk_eq, hfilled.leaf hplace rfl]
    unfold Phys.leafAt
    cases hat : s₁.table K (tablePath v) with
    | none => rfl
    | some n => cases (Phys.Tables.table_zero hzero hat).1

/-- The parts of the kernel image are not too long. -/
theorem KernelImage.Ok.length (h : image.Ok) (hq : q ∈ image.ranges) :
    q.length.toNat ≤ 2 ^ 48 ∧ Present q.flags := by
  have hpart : ∀ start stop : Word, 0xffffffff80000000 ≤ start.toNat ∧ start ≤ stop →
      (stop - start).toNat ≤ 2 ^ 48 := by
    rintro start stop ⟨hbase, hle⟩
    rw [BitVec.toNat_sub_of_le hle]
    omega
  unfold KernelImage.ranges at hq
  simp only [List.mem_cons, List.not_mem_nil, or_false] at hq
  rcases hq with rfl | rfl | rfl
  · exact ⟨hpart _ _ h.text, show Present present by decide⟩
  · exact ⟨hpart _ _ h.rodata, show Present (present ||| nx) by decide⟩
  · exact ⟨hpart _ _ h.data, show Present directFlags by decide⟩

/-- **What `Vmm::init` maps**, if what it lists fits the entries of a page table. -/
theorem init_walk (h : LoaderOk hhdm memmap image)
    (hlow : ∀ e ∈ memmap, Listed e → ∀ x, Has e x → x.toNat < 2 ^ 48) (mem : Mem) :
    Outcome.Returns
      ((Arena.init h.usable).stock.freePages < 257 + (initPaths hhdm memmap image).ncard)
      (init hhdm memmap image (Phys.initPmm hhdm memmap mem)) fun y =>
        ∀ v, y.2.walk y.1.root v = Range.last (initRanges hhdm memmap image) v none := by
  rw [init_eq]
  refine ((newKernelSpace_tree (h.stocked hlow mem)).mono (fun hs => by omega)
    fun _ hx => hx).bind fun y hy => ?_
  obtain ⟨K, st, hK, hd, htree, hcount, hnone⟩ := hy
  let X : Set Place := Prod.mk K '' initPaths hhdm memmap image
  have hXp : X ⊆ Phys.treePlaces K := by
    rintro z ⟨p, ⟨-, q, -, k, -, hpre⟩, rfl⟩
    exact ⟨rfl, hpre.length_le⟩
  have hX : X.Finite := (Phys.treePlaces_finite K).subset hXp
  have hcard : (y.2.missing X).ncard ≤ (initPaths hhdm memmap image).ncard :=
    (Set.ncard_le_ncard (fun _ hz => hz.1) hX).trans_eq
      (Set.ncard_image_of_injective _ (Prod.mk_right_injective K))
  have hl : ∀ q ∈ initRanges hhdm memmap image, q.length.toNat ≤ 2 ^ 48 ∧ Present q.flags ∧
      Phys.rangeTables K q.va q.length ⊆ X := by
    intro q hq
    have htables : Phys.rangeTables K q.va q.length ⊆ X := by
      rintro ⟨r, p⟩ ⟨hr, hne, k, hk, hpre⟩
      cases hr
      exact ⟨p, ⟨hne, q, hq, k, hk, hpre⟩, rfl⟩
    rcases List.mem_append.mp hq with hq | hq
    · obtain ⟨e, he, rfl⟩ := List.mem_map.mp hq
      obtain ⟨hmem, hlisted⟩ := List.mem_filter.mp he
      have hend := h.listed_end hmem (by simpa using hlisted) (hlow e hmem (by simpa using hlisted))
      refine ⟨?_, show Present directFlags by decide, htables⟩
      show e.length.toNat ≤ 2 ^ 48
      omega
    · obtain ⟨hlen, hpres⟩ := h.image.length hq
      exact ⟨hlen, hpres, htables⟩
  rw [hd]
  refine ((htree.maps hX hXp _ hl).mono (fun hs => by omega) fun _ hx => hx).bind fun s' hs' => ?_
  refine .ok fun v => ?_
  show s'.walk (dirOf hhdm K).root v = _
  rw [dirOf_root hK, hs' v, hnone v]

/-! ## The direct map -/

theorem directMapped_iff (h : LoaderOk hhdm memmap image)
    (hlow : ∀ e ∈ memmap, Listed e → ∀ x, Has e x → x.toNat < 2 ^ 48)
    (hs : ∀ v, s.walk d.root v = Range.last (initRanges hhdm memmap image) v none) :
    DirectMapped hhdm memmap d s ↔
      ∀ e ∈ memmap, Listed e → ∀ x, Has e x → Mappable hhdm memmap image x := by
  unfold DirectMapped
  refine forall₂_congr fun e he => forall_congr' fun hl => forall₂_congr fun x hx => ?_
  have hxlow := hlow e he hl x hx
  have hv : (hhdm + x).toNat % 4096 = x.toNat % 4096 := by
    have haligned := h.aligned
    rw [BitVec.toNat_add]
    omega
  have hends : ∀ e ∈ memmap.filter (fun e => Listed e),
      e.length.toNat = 0 ∨ e.base.toNat + e.length.toNat ≤ 2 ^ 48 := by
    intro e he
    obtain ⟨hmem, hlisted⟩ := List.mem_filter.mp he
    exact h.listed_end hmem (by simpa using hlisted) (hlow e hmem (by simpa using hlisted))
  have hlast : s.walk d.root (hhdm + x) = (Range.last image.ranges (hhdm + x) none).or
      (if ∃ e ∈ memmap.filter (fun e => Listed e), Steps e x then
        some (framePa (x.toNat / 4096) ||| directFlags) else none) := by
    rw [hs, initRanges, Range.last_append, Range.last_eq_or,
      last_direct h.aligned hxlow _ hends]
  have hstep : (∃ e ∈ memmap.filter (fun e => Listed e), Steps e x) ↔
      ∃ e ∈ memmap, Listed e ∧ Steps e x := by
    simp only [List.mem_filter, decide_eq_true_eq, and_assoc]
  refine (translate_eq_iff hxlow hv).trans ?_
  rw [hlast]
  cases hi : Range.last image.ranges (hhdm + x) none with
  | some e' =>
    constructor
    · intro heq
      refine ⟨hxlow, fun hno => ?_, fun e'' he'' => ?_⟩
      · cases hno.symm.trans hi
      · cases he''.symm.trans hi
        exact Option.some.inj heq
    · intro hm
      rw [hm.agrees e' hi]
      rfl
  | none =>
    rw [Option.none_or]
    constructor
    · intro heq
      refine ⟨hxlow, fun _ => hstep.mp ?_, fun e'' he'' => ?_⟩
      · by_contra hno
        rw [if_neg hno] at heq
        cases heq
      · cases he''.symm.trans hi
    · intro hm
      exact if_pos (hstep.mpr (hm.stepped hi))

/-- **The direct map of `Vmm::init`.** It is complete exactly if every byte of the listed entries
can be mapped: its address fits an entry, the loop over a listed entry comes to its page, and the
kernel image is not mapped over it differently. And `Vmm::init` returns, if what it lists fits and
there are pages enough for the tables. -/
theorem init_directMapped_iff (h : LoaderOk hhdm memmap image) (mem : Mem) :
    (∀ d s', init hhdm memmap image (Phys.initPmm hhdm memmap mem) = .ok (d, s') →
      (DirectMapped hhdm memmap d s' ↔
        ∀ e ∈ memmap, Listed e → ∀ x, Has e x → Mappable hhdm memmap image x)) ∧
    ((∀ e ∈ memmap, Listed e → ∀ x, Has e x → x.toNat < 2 ^ 48) →
      257 + (initPaths hhdm memmap image).ncard ≤ (Arena.init h.usable).stock.freePages →
      ∃ d s', init hhdm memmap image (Phys.initPmm hhdm memmap mem) = .ok (d, s')) := by
  constructor
  · intro d s' hs
    constructor
    · intro hd
      have hlow : ∀ e ∈ memmap, Listed e → ∀ x, Has e x → x.toNat < 2 ^ 48 :=
        fun e he hl x hx => translate_low (hd e he hl x hx)
      exact (directMapped_iff h hlow ((init_walk h hlow mem).of_ok hs)).mp hd
    · intro hm
      have hlow : ∀ e ∈ memmap, Listed e → ∀ x, Has e x → x.toNat < 2 ^ 48 :=
        fun e he hl x hx => (hm e he hl x hx).low
      exact (directMapped_iff h hlow ((init_walk h hlow mem).of_ok hs)).mpr hm
  · intro hlow hroom
    obtain ⟨⟨d, s'⟩, hs, -⟩ := (init_walk h hlow mem).exists_ok (by omega)
    exact ⟨d, s', hs⟩

/-! ## Two machines -/

/-- An entry that begins on a page boundary is mapped to its end. -/
theorem Has.steps (h : Has e x) (haligned : e.base.toNat % 4096 = 0) : Steps e x := by
  obtain ⟨hlo, hhi⟩ := h
  unfold Steps pages
  omega

/-- The kernel image is above a direct map at the start of the upper half. -/
theorem KernelImage.Ok.clear (h : image.Ok) (hx : x.toNat + 2 ^ 32 ≤ 2 ^ 47) :
    Range.last image.ranges (0xffff800000000000 + x) none = none := by
  have hv : pageNumber (0xffff800000000000 + x) = 2 ^ 35 + x.toNat / 4096 := by
    unfold pageNumber
    rw [BitVec.toNat_add, show (0xffff800000000000 : Word).toNat = 0xffff800000000000 from rfl]
    omega
  have hpart : ∀ start stop flags : Word, 0xffffffff80000000 ≤ start.toNat ∧ start ≤ stop →
      (image.range start stop flags).entry (0xffff800000000000 + x) = none := by
    rintro start stop flags ⟨hbase, hle⟩
    have hstop := stop.isLt
    have hlen : (stop - start).toNat = stop.toNat - start.toNat := BitVec.toNat_sub_of_le hle
    refine if_neg ?_
    unfold Range.ahead KernelImage.range pages
    dsimp only
    rw [hv, hlen]
    unfold pageNumber
    omega
  unfold KernelImage.ranges
  rw [Range.last_cons, Range.last_cons, Range.last_cons, Range.last_nil, hpart _ _ _ h.text,
    hpart _ _ _ h.rodata, hpart _ _ _ h.data]
  rfl

/-- Pages of the same two megabytes have the same page table. -/
theorem tablePath_add (h : v.toNat % 2 ^ 21 + 4096 * k < 2 ^ 21) :
    tablePath (v + pageOff k) = tablePath v := by
  have hadd : (v + pageOff k).toNat = v.toNat + 4096 * k := by
    have hv := v.isLt
    rw [BitVec.toNat_add, pageOff_toNat (by omega)]
    omega
  simp only [tablePath, slot, index_eq level39, index_eq level30, index_eq level21, hadd,
    List.cons.injEq, Fin.mk.injEq, and_true]
  omega

/-- A kernel of three pages. -/
def smallImage : KernelImage where
  textStart := 0xffffffff80000000
  textEnd := 0xffffffff80001000
  rodataStart := 0xffffffff80001000
  rodataEnd := 0xffffffff80002000
  dataStart := 0xffffffff80002000
  dataEnd := 0xffffffff80003000
  virtualBase := 0xffffffff80000000
  physicalBase := 0x200000

/-- Four hundred usable pages, the kernel, and a framebuffer of `0x1000` bytes at `base`. -/
def framebufferAt (base : Word) : List MemmapEntry :=
  [⟨0x1000, 0x190000, .usable⟩, ⟨0x200000, 0x3000, .kernelAndModules⟩, ⟨base, 0x1000, .framebuffer⟩]

private theorem smallImage_ok : smallImage.Ok := ⟨by decide, by decide, by decide⟩

section framebufferAt

variable {base : Word} (hbase : 0xfd000000 ≤ base.toNat ∧ base.toNat < 0xfd001000)
include hbase

theorem framebufferAt_ok : LoaderOk hhdm₀ (framebufferAt base) smallImage := by
  have husable : usableEntries (framebufferAt base) = [⟨0x1000, 0x190000, .usable⟩] := rfl
  have hentry : ∀ e ∈ usableEntries (framebufferAt base), e = ⟨0x1000, 0x190000, .usable⟩ :=
    fun e he => List.mem_singleton.mp (husable ▸ he)
  refine ⟨⟨fun e he => ?_, ?_⟩, fun e he hz => ?_, by decide, fun e he _ => ?_, smallImage_ok⟩
  · rw [hentry e he]
    exact ⟨by decide, by decide, by decide, by decide⟩
  · rw [husable]
    exact List.pairwise_singleton _ _
  · rw [hentry e he]
    decide
  · have hh : (0xffff800000000000 : Word).toNat = 0xffff800000000000 := rfl
    unfold framebufferAt at he
    simp only [List.mem_cons, List.not_mem_nil, or_false] at he
    rcases he with rfl | rfl | rfl
    · decide
    · decide
    · show (0xffff800000000000 : Word).toNat + base.toNat + (0x1000 : Word).toNat ≤ 2 ^ 64
      have hlen : (0x1000 : Word).toNat = 0x1000 := rfl
      omega

theorem framebufferAt_low (he : e ∈ framebufferAt base) (hx : Has e x) :
    x.toNat < 0xfe000000 := by
  have hlt : x.toNat < e.base.toNat + e.length.toNat := hx.2
  unfold framebufferAt at he
  simp only [List.mem_cons, List.not_mem_nil, or_false] at he
  rcases he with rfl | rfl | rfl
  · exact hlt.trans (by decide)
  · exact hlt.trans (by decide)
  · have hlt : x.toNat < base.toNat + (0x1000 : Word).toNat := hlt
    have hlen : (0x1000 : Word).toNat = 0x1000 := rfl
    omega

/-- The pages that are mapped are below four page tables. -/
theorem framebufferAt_paths {k : Nat}
    (hq : q ∈ initRanges hhdm₀ (framebufferAt base) smallImage)
    (hk : k < pages q.length) : tablePath (q.va + pageOff k) ∈
      ({[256, 0, 0], [256, 0, 1], [256, 3, 488], [511, 510, 0]} : Finset (List (Fin 512))) := by
  have hh : (0xffff800000000000 : Word).toNat = 0xffff800000000000 := rfl
  have hlisted : (framebufferAt base).filter (fun e => Listed e) = framebufferAt base := rfl
  unfold initRanges KernelImage.ranges smallImage at hq
  rw [hlisted] at hq
  unfold framebufferAt at hq
  simp only [List.map_cons, List.map_nil, List.cons_append, List.nil_append, List.mem_cons,
    List.not_mem_nil, or_false] at hq
  rcases hq with rfl | rfl | rfl | rfl | rfl | rfl
  · have hk : k < 400 := hk
    rw [tablePath_add (show 0x1000 + 4096 * k < 2 ^ 21 by omega)]
    decide
  · have hk : k < 3 := hk
    rw [tablePath_add (show 0 + 4096 * k < 2 ^ 21 by omega)]
    decide
  · have hk : k < pages 0x1000 := hk
    have hpages : pages 0x1000 = 1 := by decide
    have hva : (0xffff800000000000 + base).toNat = 0xffff800000000000 + base.toNat := by
      rw [BitVec.toNat_add, hh]
      omega
    have hpath : tablePath (0xffff800000000000 + base) = [256, 3, 488] := by
      simp only [tablePath, slot, index_eq level39, index_eq level30, index_eq level21, hva,
        List.cons.injEq, and_true]
      refine ⟨Fin.ext ?_, Fin.ext ?_, Fin.ext ?_⟩
      · show (0xffff800000000000 + base.toNat) / 2 ^ 39 % 512 = 256
        omega
      · show (0xffff800000000000 + base.toNat) / 2 ^ 30 % 512 = 3
        omega
      · show (0xffff800000000000 + base.toNat) / 2 ^ 21 % 512 = 488
        omega
    show tablePath (0xffff800000000000 + base + pageOff k) ∈ _
    rw [tablePath_add (by omega), hpath]
    decide
  all_goals
    have hk : k < 1 := hk
  · rw [tablePath_add (show 0 + 4096 * k < 2 ^ 21 by omega)]
    decide
  · rw [tablePath_add (show 0x1000 + 4096 * k < 2 ^ 21 by omega)]
    decide
  · rw [tablePath_add (show 0x2000 + 4096 * k < 2 ^ 21 by omega)]
    decide

/-- There are pages enough for the tables. -/
theorem framebufferAt_room :
    257 + (initPaths hhdm₀ (framebufferAt base) smallImage).ncard ≤
      (Arena.init (framebufferAt_ok hbase).usable).stock.freePages := by
  have hcard : (initPaths hhdm₀ (framebufferAt base) smallImage).ncard ≤ 3 * 4 := by
    refine Phys.ncard_prefixes_le
      (T := {[256, 0, 0], [256, 0, 1], [256, 3, 488], [511, 510, 0]}) (by decide) ?_
    rintro p ⟨hne, q, hq, k, hk, hpre⟩
    exact ⟨hne, _, framebufferAt_paths hbase hq hk, hpre⟩
  have hfree : (Arena.init (framebufferAt_ok hbase).usable).stock.freePages = 400 := rfl
  omega

end framebufferAt

/-- A framebuffer that begins on a page boundary is mapped completely. -/
theorem init_directMapped_iff_aligned : ∃ d s', init hhdm₀ (framebufferAt 0xfd000000)
      smallImage (Phys.initPmm hhdm₀ (framebufferAt 0xfd000000) fun _ => 0) =
        .ok (d, s') ∧ DirectMapped hhdm₀ (framebufferAt 0xfd000000) d s' := by
  have hbase : 0xfd000000 ≤ (0xfd000000 : Word).toNat ∧ (0xfd000000 : Word).toNat < 0xfd001000 := by
    decide
  have hlow : ∀ e ∈ framebufferAt 0xfd000000, Listed e → ∀ x, Has e x → x.toNat < 0xfe000000 :=
    fun e he _ x hx => framebufferAt_low hbase he hx
  obtain ⟨hiff, hreturns⟩ := init_directMapped_iff (framebufferAt_ok hbase) fun _ => 0
  obtain ⟨d, s', hs⟩ := hreturns (fun e he hl x hx => (hlow e he hl x hx).trans (by decide))
    (framebufferAt_room hbase)
  refine ⟨d, s', hs, (hiff d s' hs).mpr fun e he hl x hx => ?_⟩
  have hxlow := hlow e he hl x hx
  have hclear := smallImage_ok.clear (x := x) (by omega)
  refine ⟨by omega, fun _ => ⟨e, he, hl, hx.steps ?_⟩, fun e' he' => ?_⟩
  · have haligned : ∀ e ∈ framebufferAt 0xfd000000, e.base.toNat % 4096 = 0 := by decide
    exact haligned e he
  · cases hclear.symm.trans he'

/-- A framebuffer of one page's length that begins inside a page: its second page is not mapped. -/
theorem unaligned_not_directMapped : ∃ d s', init hhdm₀ (framebufferAt 0xfd000800)
      smallImage (Phys.initPmm hhdm₀ (framebufferAt 0xfd000800) fun _ => 0) =
        .ok (d, s') ∧ ¬ DirectMapped hhdm₀ (framebufferAt 0xfd000800) d s' := by
  have hbase : 0xfd000000 ≤ (0xfd000800 : Word).toNat ∧ (0xfd000800 : Word).toNat < 0xfd001000 := by
    decide
  have hlow : ∀ e ∈ framebufferAt 0xfd000800, Listed e → ∀ x, Has e x → x.toNat < 2 ^ 48 :=
    fun e he _ x hx => (framebufferAt_low hbase he hx).trans (by decide)
  obtain ⟨⟨d, s'⟩, hs, hwalk⟩ :=
    (init_walk (framebufferAt_ok hbase) hlow fun _ => 0).exists_ok
      (Nat.not_lt.mpr (framebufferAt_room hbase))
  refine ⟨d, s', hs, fun hd => ?_⟩
  have hmap := (directMapped_iff (framebufferAt_ok hbase) hlow hwalk).mp hd
    ⟨0xfd000800, 0x1000, .framebuffer⟩ (by simp [framebufferAt]) (by decide) 0xfd001000
    ⟨by decide, by decide⟩
  obtain ⟨e, he, -, hsteps⟩ := hmap.stepped (smallImage_ok.clear (by decide))
  have hnone : ∀ e ∈ framebufferAt 0xfd000800, ¬ Steps e 0xfd001000 := by decide
  exact hnone e he hsteps

end Vmm

end TwoKernel
