import TwoKernel.Laws.Memory.Clients
import TwoKernel.Memory.Heap

/-!
# The kernel heap gives back what it took

The number of pages of a buffer is stored next to memory its client writes, and
the free list in memory that was freed. `heap_correct` is that the two never
meet: the header of a live buffer is inside its run and outside its buffer, so it
still has the number `kmalloc` stored there when the buffer is freed.

The invariant is `Kept`: the page allocator's live blocks are those it had at the
start and the runs of the live buffers, and every header has its number.

`heap_refusals` is about requests that no run of pages can hold. `kmalloc` does
not tell them apart: it returns the address of a run that the request does not fit
into, or it stores the header of a run it did not get, which is a page fault.
-/

namespace TwoKernel

open ByteMem

variable {hhdm size : Word} {s start : Phys} {usable : Set Nat} {a a₀ : Arena hhdm usable}

/-! ## The run of a buffer -/

private theorem bytesToPages_toNat (n : Word) : (bytesToPages n).toNat = (n.toNat + 4095) / 4096 := by
  have hlt := n.isLt
  have hq : (n / pageSize).toNat = n.toNat / 4096 := BitVec.toNat_udiv
  have hr : (n % pageSize).toNat = n.toNat % 4096 := BitVec.toNat_umod
  unfold bytesToPages
  by_cases h : n % pageSize = 0
  · have hz : n.toNat % 4096 = 0 := by rw [← hr, h]; rfl
    have h0 : (0 : Word).toNat = 0 := rfl
    rw [if_neg (not_not_intro h), BitVec.toNat_add, hq, h0]
    omega
  · have hz : n.toNat % 4096 ≠ 0 := fun hz => h (BitVec.eq_of_toNat_eq (hr.trans hz))
    have hone : (1 : Word).toNat = 1 := rfl
    rw [if_pos h, BitVec.toNat_add, hq, hone]
    omega

namespace Buffer

variable {b : Buffer}

private theorem numPages_toNat (hhdm : Word) (hsize : b.size.toNat + 16 < 2 ^ 64) :
    (b.block hhdm).numPages.toNat = (b.size.toNat + 16 + 4095) / 4096 := by
  have hadd : (b.size + kmallocHeaderSize).toNat = b.size.toNat + 16 := by
    rw [BitVec.toNat_add]
    exact Nat.mod_eq_of_lt hsize
  show (bytesToPages (b.size + kmallocHeaderSize)).toNat = _
  rw [bytesToPages_toNat, hadd]

private theorem physOf_header : physOf hhdm b.header = (b.block hhdm).pa.toNat := rfl

/-- The buffer begins after its header. -/
theorem physOf_ptr (hok : (b.block hhdm).Ok hhdm) :
    physOf hhdm b.ptr = (b.block hhdm).pa.toNat + 16 := by
  have hr := hok.reached
  have hptr : b.ptr - hhdm = (b.block hhdm).pa + kmallocHeaderSize := by
    show _ = b.ptr - kmallocHeaderSize - hhdm + kmallocHeaderSize
    bv_omega
  unfold physOf
  rw [hptr, BitVec.toNat_add]
  apply Nat.mod_eq_of_lt
  show (b.block hhdm).pa.toNat + 16 < 2 ^ 64
  omega

/-- A buffer and its header are inside the run. -/
theorem extent_subset (hok : (b.block hhdm).Ok hhdm) (hsize : b.size.toNat + 16 < 2 ^ 64) :
    b.extent hhdm ⊆ pageBytes (b.block hhdm).foot := by
  have hn := numPages_toNat hhdm hsize
  have ha := hok.aligned
  intro x hx
  obtain ⟨hlo, hhi⟩ := hx
  rw [physOf_header] at hlo hhi
  have hhi : x < (b.block hhdm).pa.toNat + 16 + b.size.toNat := hhi
  show x / 4096 ∈ Set.Ico _ _
  rw [Set.mem_Ico]
  omega

private theorem bytes_subset (hok : (b.block hhdm).Ok hhdm) : b.bytes hhdm ⊆ b.extent hhdm := by
  intro x hx
  obtain ⟨hlo, hhi⟩ := hx
  rw [physOf_ptr hok] at hlo hhi
  have hh : physOf hhdm b.header = (b.block hhdm).pa.toNat := physOf_header
  have h16 : kmallocHeaderSize.toNat = 16 := rfl
  exact ⟨by omega, by omega⟩

/-- The header is read in the run and outside the buffer. -/
theorem header_congr (hok : (b.block hhdm).Ok hhdm) {m m' : Mem}
    (h : Set.EqOn m' m (b.extent hhdm \ b.bytes hhdm)) :
    load64 m' (physOf hhdm b.header) = load64 m (physOf hhdm b.header) := by
  apply load64_congr
  apply h.mono
  intro x hx
  obtain ⟨hlo, hhi⟩ := hx
  have hp := physOf_ptr hok
  have hh : physOf hhdm b.header = (b.block hhdm).pa.toNat := physOf_header
  have h16 : kmallocHeaderSize.toNat = 16 := rfl
  refine ⟨⟨hlo, by omega⟩, fun hin => ?_⟩
  have hin : physOf hhdm b.ptr ≤ x := hin.1
  omega

/-- The header of a run is mapped. -/
theorem mapped_of_ok {r : Block} (hok : r.Ok hhdm) : ¬ Phys.Unmapped hhdm (r.pa + hhdm) := by
  have ha := hok.aligned
  have hz := hok.nonzero
  have hr := hok.reached
  have hphys : physOf hhdm (r.pa + hhdm) = r.pa.toNat := physOf_node
  have hadd : (r.pa + hhdm).toNat = r.pa.toNat + hhdm.toNat := by
    rw [BitVec.toNat_add]
    exact Nat.mod_eq_of_lt (by omega)
  unfold Phys.Unmapped
  rw [hphys, hadd]
  omega

/-- What `kmalloc` returned leads back to the run. -/
theorem block_of_ptr (hhdm pa size : Word) :
    (Buffer.mk (pa + hhdm + kmallocHeaderSize) size).block hhdm =
    ⟨pa, bytesToPages (size + kmallocHeaderSize)⟩ := by
  have hpa : pa + hhdm + kmallocHeaderSize - kmallocHeaderSize - hhdm = pa := by bv_omega
  exact congrArg (Block.mk · _) hpa

end Buffer

/-! ## The invariant -/

namespace Heap

variable {x x' : Heap} {b : Buffer}

structure Kept (a₀ a : Arena hhdm usable) (x : Heap) : Prop where
  backs : x.phys.Backs hhdm a
  live : a.live.Perm (x.live.map (Buffer.block hhdm) ++ a₀.live)
  sizes : ∀ b ∈ x.live, b.size.toNat + 16 < 2 ^ 64
  headers : ∀ b ∈ x.live, load64 x.phys.mem (physOf hhdm b.header) = (b.block hhdm).numPages

namespace Kept

private theorem mem_live (h : x.Kept a₀ a) (hb : b ∈ x.live) : b.block hhdm ∈ a.live :=
  h.live.mem_iff.mpr (List.mem_append_left _ (List.mem_map_of_mem hb))

theorem ok (h : x.Kept a₀ a) (hb : b ∈ x.live) : (b.block hhdm).Ok hhdm :=
  a.ok _ (List.mem_append_right _ (h.mem_live hb))

theorem apart (h : x.Kept a₀ a) :
    x.live.Pairwise fun b c => Disjoint (b.block hhdm).foot (c.block hhdm).foot := by
  have hap : Block.Apart a.live := a.apart.sublist (List.sublist_append_right _ _)
  have hruns : Block.Apart (x.live.map (Buffer.block hhdm)) :=
    (hap.perm h.live).sublist (List.sublist_append_left _ _)
  exact (List.pairwise_map (R := fun b c : Block => Disjoint b.foot c.foot)).mp hruns

/-- The bytes of a buffer and its header are in no free block. -/
theorem clear (h : x.Kept a₀ a) (hb : b ∈ x.live) :
    Disjoint (b.extent hhdm) (pageBytes a.stock.pool) := by
  rw [Set.disjoint_left]
  intro y hy hpool
  exact Set.disjoint_left.mp (a.clear_of_live (h.mem_live hb))
    (Buffer.extent_subset (h.ok hb) (h.sizes b hb) hy) hpool

/-- `kmalloc_free` gives the run to `free` as `kmalloc` had it. -/
theorem kmallocFree_eq (h : x.Kept a₀ a) (hb : b ∈ x.live) :
    x.phys.kmallocFree hhdm b.ptr =
      .ok (x.phys.free hhdm (b.block hhdm).pa (b.block hhdm).numPages) := by
  have hmapped : ¬ Phys.Unmapped hhdm b.header := by
    rw [show b.header = (b.block hhdm).pa + hhdm from (BitVec.sub_add_cancel _ _).symm]
    exact Buffer.mapped_of_ok (h.ok hb)
  refine (if_neg hmapped).trans ?_
  show Except.ok (x.phys.free hhdm (b.block hhdm).pa (load64 x.phys.mem (physOf hhdm b.header))) = _
  rw [h.headers b hb]

theorem init (hs : start.Backs hhdm a₀) : Kept a₀ a₀ ⟨start, []⟩ where
  backs := hs
  live := List.Perm.refl _
  sizes _ hb := absurd hb List.not_mem_nil
  headers _ hb := absurd hb List.not_mem_nil

/-- A request that can be met: what the page allocator answers, and what `kmalloc` makes of it. -/
theorem kmalloc (h : x.Kept a₀ a) (hc : x.Allowed hhdm (.kmalloc size)) :
    ∃ pa s₁ s₂, x.phys.alloc hhdm (bytesToPages (size + kmallocHeaderSize)) = .ok (pa, s₁) ∧
      x.phys.kmalloc hhdm size = .ok (pa + hhdm + kmallocHeaderSize, s₂) ∧
      ∃ a', Kept a₀ a' ⟨s₂, ⟨pa + hhdm + kmallocHeaderSize, size⟩ :: x.live⟩ := by
  obtain ⟨hsize, hsupplied⟩ := hc
  let b₀ : Buffer := ⟨0, size⟩
  have hnum := Buffer.numPages_toNat (b := b₀) hhdm hsize
  have hpos : 0 < (bytesToPages (size + kmallocHeaderSize)).toNat := by
    have hnum : (bytesToPages (size + kmallocHeaderSize)).toNat = (size.toNat + 16 + 4095) / 4096 :=
      hnum
    omega
  obtain ⟨s₁, hs₁, hbacks, hmem⟩ := h.backs.alloc hpos
  have hne : (a.alloc _ hpos).1 ≠ 0 := by
    unfold supplied at hsupplied
    rw [hs₁] at hsupplied
    exact of_decide_eq_true hsupplied
  have hlive := a.alloc_live hpos
  rw [if_neg hne] at hlive
  generalize (a.alloc _ hpos).1 = pa at hs₁ hne hlive
  generalize (a.alloc _ hpos).2 = a' at hbacks hlive
  have hin : Block.mk pa (bytesToPages (size + kmallocHeaderSize)) ∈ a'.live := by
    rw [hlive]
    exact List.mem_cons_self
  have hok := a'.ok _ (List.mem_append_right _ hin)
  have hrun : x.phys.kmalloc hhdm size = .ok (pa + hhdm + kmallocHeaderSize, { s₁ with
      mem := store64 s₁.mem (physOf hhdm (pa + hhdm)) (bytesToPages (size + kmallocHeaderSize)) }) := by
    have hmapped : ¬ Phys.Unmapped hhdm (pa + hhdm) := Buffer.mapped_of_ok (r := ⟨pa, _⟩) hok
    simp only [Phys.kmalloc, hs₁, ok_bind, pure_eq_ok, if_neg hmapped]
  refine ⟨pa, s₁, _, hs₁, hrun, a', ?_⟩
  have hblock := Buffer.block_of_ptr hhdm pa size
  have hphys : physOf hhdm (pa + hhdm) = pa.toNat := physOf_node (b := ⟨pa, 0⟩)
  -- the header is stored in the run
  have hstore : Set.EqOn (store64 s₁.mem (physOf hhdm (pa + hhdm))
      (bytesToPages (size + kmallocHeaderSize))) s₁.mem
      (pageBytes (Block.mk pa (bytesToPages (size + kmallocHeaderSize))).foot)ᶜ := by
    apply store64_eqOn
    rw [hphys, Set.disjoint_left]
    intro y hy hyh
    have hstart : y / 4096 = _ := hok.header_subset .next hyh
    apply hy
    show y / 4096 ∈ Block.foot _
    rw [hstart]
    exact Block.start_mem_foot
  refine ⟨hbacks.store hin hstore, ?_, ?_, ?_⟩
  · rw [List.map_cons, hblock, hlive]
    exact h.live.cons _
  · exact List.forall_mem_cons.mpr ⟨hsize, h.sizes⟩
  · refine List.forall_mem_cons.mpr ⟨?_, fun c hc => ?_⟩
    · rw [Buffer.physOf_header, hblock, hphys]
      exact load64_store64_self
    · rw [← h.headers c hc]
      apply Buffer.header_congr (h.ok hc)
      intro y hy
      have hfoot := Buffer.extent_subset (h.ok hc) (h.sizes c hc) hy.1
      have hap : Block.Apart a'.live := a'.apart.sublist (List.sublist_append_right _ _)
      rw [hlive] at hap
      have hother := (List.pairwise_cons.mp hap).1 _ (h.mem_live hc)
      refine (hstore fun hin => ?_).trans (hmem fun hpool => ?_)
      · exact Set.disjoint_left.mp hother hin hfoot
      · exact Set.disjoint_left.mp (h.clear hc) hy.1 hpool

theorem write (h : x.Kept a₀ a) {addr : Nat} {value : Byte}
    (hc : x.Allowed hhdm (.write addr value)) : Kept a₀ a ⟨x.phys.write addr value, x.live⟩ := by
  obtain ⟨b, hb, ha⟩ := hc
  have hin := Buffer.bytes_subset (h.ok hb) ha
  have hfoot := Buffer.extent_subset (h.ok hb) (h.sizes b hb) hin
  have hother : ∀ {y : Nat}, y ≠ addr → (x.phys.write addr value).mem y = x.phys.mem y :=
    fun hne => Function.update_of_ne hne _ _
  refine ⟨h.backs.store (h.mem_live hb) ?_, h.live, h.sizes, ?_⟩
  · intro y hy
    apply hother
    intro hya
    rw [hya] at hy
    exact hy hfoot
  · intro c hc
    rw [← h.headers c hc]
    apply Buffer.header_congr (h.ok hc)
    intro y hy
    apply hother
    intro hya
    rw [hya] at hy
    -- the byte is in the buffer of its own client, and in no other run
    by_cases hcb : c = b
    · rw [hcb] at hy
      exact hy.2 ha
    · have hdis := h.apart.forall hc hb hcb
      exact Set.disjoint_left.mp hdis (Buffer.extent_subset (h.ok hc) (h.sizes c hc) hy.1) hfoot

theorem free (h : x.Kept a₀ a) {ptr : Word} (hc : x.Allowed hhdm (.kmallocFree ptr)) :
    ∃ s' a', x.phys.kmallocFree hhdm ptr = .ok s' ∧
      Kept a₀ a' ⟨s', x.live.eraseP fun b => b.ptr = ptr⟩ := by
  obtain ⟨b', hb', hptr'⟩ := hc
  obtain ⟨b, l₁, l₂, -, hptr, hsplit, herase⟩ :=
    List.exists_of_eraseP (p := fun b => decide (b.ptr = ptr)) hb' (decide_eq_true hptr')
  have hptr : b.ptr = ptr := of_decide_eq_true hptr
  have hb : b ∈ x.live := by
    rw [hsplit]
    exact List.mem_append_right _ List.mem_cons_self
  have hrest : (l₁ ++ l₂).Sublist x.live := by
    rw [hsplit]
    exact (List.sublist_cons_self b l₂).append_left l₁
  have hfree : x.phys.kmallocFree hhdm ptr =
      .ok (x.phys.free hhdm (b.block hhdm).pa (b.block hhdm).numPages) := hptr ▸ h.kmallocFree_eq hb
  rw [herase]
  refine ⟨_, a.release _ (h.mem_live hb), hfree, h.backs.free (h.mem_live hb), ?_, ?_, ?_⟩
  · have hperm : a.live.Perm (b.block hhdm :: ((l₁ ++ l₂).map (Buffer.block hhdm) ++ a₀.live)) := by
      refine h.live.trans ?_
      rw [hsplit, List.map_append, List.map_cons, List.map_append, List.append_assoc,
        List.append_assoc, List.cons_append]
      exact List.perm_middle
    have herased := hperm.erase (b.block hhdm)
    rwa [List.erase_cons_head] at herased
  · exact fun c hc => h.sizes c (hrest.subset hc)
  · intro c hc
    have hmem := hrest.subset hc
    rw [← h.headers c hmem]
    apply Buffer.header_congr (h.ok hmem)
    intro y hy
    apply Phys.free_eqOn (h.ok hb)
    intro hstart
    have hap := h.apart
    rw [hsplit] at hap
    have hcons := (List.perm_middle.pairwise_iff fun h => h.symm).mp hap
    have hdis := (List.pairwise_cons.mp hcons).1 c hc
    have hfoot := Buffer.extent_subset (h.ok hmem) (h.sizes c hmem) hy.1
    have hstart : y / 4096 = (b.block hhdm).start := hstart
    have hfoot : y / 4096 ∈ (c.block hhdm).foot := hfoot
    rw [hstart] at hfoot
    exact Set.disjoint_left.mp hdis Block.start_mem_foot hfoot

end Kept

/-- The invariant of a run. -/
theorem exists_kept (hs : start.Backs hhdm a₀) (h : (runs hhdm start).Reachable x) :
    ∃ a, Kept a₀ a x := by
  refine System.Reachable.invariant (I := fun x : Heap => ∃ a, Kept a₀ a x) ?_ ?_ h
  · intro x hx
    cases hx
    exact ⟨a₀, Kept.init hs⟩
  · intro x c x' hx hstep
    obtain ⟨a, ha⟩ := hx
    obtain ⟨hc, hnext⟩ := hstep
    cases c with
    | kmalloc size =>
      obtain ⟨pa, s₁, s₂, -, hrun, a', ha'⟩ := ha.kmalloc hc
      simp only [next, hrun, ok_bind, pure_eq_ok] at hnext
      cases hnext
      exact ⟨a', ha'⟩
    | write addr value =>
      cases hnext
      exact ⟨a, ha.write hc⟩
    | kmallocFree ptr =>
      obtain ⟨s', a', hfree, ha'⟩ := ha.free hc
      simp only [next, hfree, ok_bind, pure_eq_ok] at hnext
      cases hnext
      exact ⟨a', ha'⟩

/-! ## The heap -/

/-- The pages in the free blocks of an allocator state are the usable ones that are not handed out. -/
theorem mem_free_iff (a : Arena hhdm usable) (p : Nat) :
    (∃ b ∈ a.free, p ∈ b.pages) ↔ p ∈ usable ∧ ¬ ∃ b ∈ a.live, p ∈ b.pages := by
  rw [a.covers p]
  constructor
  · intro hfree
    obtain ⟨b, hb, hp⟩ := hfree
    refine ⟨⟨b, List.mem_append_left _ hb, hp⟩, fun hlive => ?_⟩
    obtain ⟨c, hc, hpc⟩ := hlive
    have hcross := (List.pairwise_append.mp a.apart).2.2 b hb c hc
    exact Set.disjoint_left.mp hcross (Block.pages_subset_foot hp) (Block.pages_subset_foot hpc)
  · intro h
    obtain ⟨⟨b, hb, hp⟩, hnot⟩ := h
    rcases List.mem_append.mp hb with hb | hb
    · exact ⟨b, hb, hp⟩
    · exact absurd ⟨b, hb, hp⟩ hnot

private theorem ptr_aligned (hh : 16 ∣ hhdm.toNat) (hok : (b.block hhdm).Ok hhdm) : 16 ∣ b.ptr.toNat := by
  have hp := Buffer.physOf_ptr hok
  have ha := hok.aligned
  unfold physOf at hp
  have hptr : b.ptr = b.ptr - hhdm + hhdm := (BitVec.sub_add_cancel _ _).symm
  rw [hptr, BitVec.toNat_add, hp]
  omega

/-- **The kernel heap.** From any sound state of the page allocator, in every state of a run of
requests that can be met, writes of clients to their own buffers and frees of live buffers:
pointers are 16-byte aligned; live buffers, with their headers, do not meet each other or any block of
the free list; each header has its number of pages, and `kmalloc_free` frees exactly the run that
`kmalloc` took; a request that can be met is met; and with no buffer live the free pages and the
counter are those of the start. -/
theorem heap_correct (hh : 16 ∣ hhdm.toNat) (hs : start.Backs hhdm a₀)
    (h : (runs hhdm start).Reachable x) :
    (∀ b ∈ x.live, 16 ∣ b.ptr.toNat) ∧
    x.live.Pairwise (fun b c => Disjoint (b.extent hhdm) (c.extent hhdm)) ∧
    (∃ free, x.phys.Holds hhdm free ∧
      ∀ b ∈ x.live, ∀ c ∈ free, Disjoint (b.extent hhdm) (pageBytes c.foot)) ∧
    (∀ b ∈ x.live, load64 x.phys.mem (physOf hhdm b.header) = (b.block hhdm).numPages ∧
      x.phys.kmallocFree hhdm b.ptr =
        .ok (x.phys.free hhdm (b.block hhdm).pa (b.block hhdm).numPages)) ∧
    (∀ size, x.Allowed hhdm (.kmalloc size) → ∃ pa s₁ s₂,
      x.phys.alloc hhdm (bytesToPages (size + kmallocHeaderSize)) = .ok (pa, s₁) ∧
      x.phys.kmalloc hhdm size = .ok (pa + hhdm + kmallocHeaderSize, s₂) ∧
      16 ∣ (pa + hhdm + kmallocHeaderSize).toNat ∧
      (Buffer.mk (pa + hhdm + kmallocHeaderSize) size).block hhdm =
        ⟨pa, bytesToPages (size + kmallocHeaderSize)⟩) ∧
    (x.live = [] → x.phys.gRefAlloc = start.gRefAlloc ∧
      ∃ free free₀, x.phys.Holds hhdm free ∧ start.Holds hhdm free₀ ∧
        ∀ p, (∃ b ∈ free, p ∈ b.pages) ↔ ∃ b ∈ free₀, p ∈ b.pages) := by
  obtain ⟨a, ha⟩ := exists_kept hs h
  refine ⟨?_, ?_, ⟨a.free, ha.backs.holds, ?_⟩, ?_, ?_, ?_⟩
  · intro b hb
    exact ptr_aligned hh (ha.ok hb)
  · refine ha.apart.imp_of_mem ?_
    intro b c hb hc hdis
    rw [Set.disjoint_left]
    intro y hy hy'
    exact Set.disjoint_left.mp hdis (Buffer.extent_subset (ha.ok hb) (ha.sizes b hb) hy)
      (Buffer.extent_subset (ha.ok hc) (ha.sizes c hc) hy')
  · intro b hb c hc
    apply (ha.clear hb).mono_right
    intro y hy
    exact ⟨c, hc, hy⟩
  · intro b hb
    exact ⟨ha.headers b hb, ha.kmallocFree_eq hb⟩
  · intro size hc
    obtain ⟨pa, s₁, s₂, halloc, hrun, a', ha'⟩ := ha.kmalloc hc
    exact ⟨pa, s₁, s₂, halloc, hrun, ptr_aligned hh (ha'.ok List.mem_cons_self),
      Buffer.block_of_ptr hhdm pa size⟩
  · intro hnil
    have hlive := ha.live
    rw [hnil, List.map_nil, List.nil_append] at hlive
    constructor
    · apply BitVec.eq_of_toNat_eq
      rw [ha.backs.count, hs.count, hlive.length_eq]
    · refine ⟨a.free, a₀.free, ha.backs.holds, hs.holds, ?_⟩
      intro p
      rw [mem_free_iff, mem_free_iff]
      simp only [hlive.mem_iff]

theorem heap_correct_smallMap : ∃ x : Heap, x.live = [⟨0xffff800000001010, 5000⟩] ∧
    ∀ b ∈ x.live, 16 ∣ b.ptr.toNat := by
  let start := Phys.initPmm hhdm₀ Clients.smallMap fun _ => 0
  have hs : start.Backs hhdm₀ (Arena.init Clients.smallMap_ok) := by
    obtain ⟨hholds, hgref⟩ := initPmm_holds Clients.smallMap_ok fun _ => 0
    exact ⟨hholds, by rw [hgref]; rfl⟩
  -- a buffer of one page and one of two, a store into the first, and its free
  have hrun : (([.kmalloc 4080, .kmalloc 5000, .write 0x4fff 7, .kmallocFree 0xffff800000004010] :
      List HeapCall).foldlM (System.attempt (Allowed hhdm₀) (next hhdm₀))
        ⟨start, []⟩).map (·.live) = some [⟨0xffff800000001010, 5000⟩] := by decide +kernel
  obtain ⟨x, hx, hlive⟩ := Option.map_eq_some_iff.mp hrun
  have hstart : (runs hhdm₀ start).Reachable ⟨start, []⟩ := .init rfl
  have hreach := hstart.foldlM (fun _ _ _ => System.attempt_eq_some) _ hx
  exact ⟨x, hlive, (heap_correct (by decide) hs hreach).1⟩

end Heap

/-! ## Requests that cannot be served -/

namespace Phys

variable {st : Stock hhdm}

/-- A buffer of `size` bytes cannot be had: it is empty, its size with the header is more than a word
can count, or no free block is long enough for the two. -/
def Unservable (size : Word) (l : List Block) : Prop :=
  size = 0 ∨ 2 ^ 64 ≤ size.toNat + 16 ∨ ∀ b ∈ l, b.numPages.toNat * 4096 < size.toNat + 16

/-- The first byte of the direct map. -/
theorem unmapped_hhdm (hhdm : Word) : Unmapped hhdm hhdm := by
  left
  unfold physOf
  rw [BitVec.sub_self]
  decide

/-- Nothing refuses a request: what the page allocator has not got is a header at the start of the
direct map. -/
theorem kmalloc_answers (h : s.Holds hhdm st.blocks) (size : Word) :
    s.kmalloc hhdm size = .error (.pageFault hhdm) ∨
      ∃ ptr s', s.kmalloc hhdm size = .ok (ptr, s') ∧ ptr ≠ 0 := by
  obtain ⟨pa, s₁, hs₁, hpa⟩ := alloc_answers (bytesToPages (size + kmallocHeaderSize)) st h
  unfold kmalloc
  simp only [hs₁, ok_bind]
  rcases hpa with rfl | ⟨b, hb, rfl⟩
  · left
    rw [show (0 : Word) + hhdm = hhdm from BitVec.zero_add hhdm]
    exact if_pos (unmapped_hhdm hhdm)
  · right
    have hmapped := Buffer.mapped_of_ok (st.ok b hb)
    refine ⟨_, _, if_neg hmapped, fun hzero => hmapped (.inr ?_)⟩
    have h16 : kmallocHeaderSize.toNat = 16 := rfl
    have hnat := congrArg BitVec.toNat hzero
    rw [BitVec.toNat_add, h16] at hnat
    have h0 : (0 : Word).toNat = 0 := rfl
    omega

/-- Out of memory, the store of the header faults. -/
theorem kmalloc_short (h : s.Holds hhdm st.blocks) (hsize : size.toNat + 16 < 2 ^ 64)
    (hshort : ∀ b ∈ st.blocks, b.numPages.toNat * 4096 < size.toNat + 16) :
    s.kmalloc hhdm size = .error (.pageFault hhdm) := by
  have hnum : (bytesToPages (size + kmallocHeaderSize)).toNat = (size.toNat + 16 + 4095) / 4096 :=
    Buffer.numPages_toNat (b := ⟨0, size⟩) hhdm hsize
  have halloc : s.alloc hhdm (bytesToPages (size + kmallocHeaderSize)) = .ok (0, s) := by
    rw [alloc_eq_zero_iff _ st h]
    intro b hb
    have hb := hshort b hb
    rw [BitVec.lt_def, hnum]
    omega
  unfold kmalloc
  simp only [halloc, ok_bind]
  rw [show (0 : Word) + hhdm = hhdm from BitVec.zero_add hhdm]
  exact if_pos (unmapped_hhdm hhdm)

/-- The header of the null pointer is loaded before anything is tested. -/
theorem kmallocFree_null (hhdm : Word) (s : Phys) :
    s.kmallocFree hhdm 0 = .error (.pageFault 0xfffffffffffffff0) := by
  have hheader : (0 : Word) - kmallocHeaderSize = 0xfffffffffffffff0 := by decide
  unfold kmallocFree
  rw [hheader]
  exact if_pos (.inr (by decide))

/-- **The heap never fails cleanly.** On every free list: a request that cannot be served is answered
with a pointer that is not null or is a page fault, and if it is memory that is short it is the fault,
on the store of the header. A free of the null pointer is always a page fault, on the load of its
header. -/
theorem heap_refusals (st : Stock hhdm) (h : s.Holds hhdm st.blocks) :
    (∀ size, Unservable size st.blocks → s.kmalloc hhdm size = .error (.pageFault hhdm) ∨
      ∃ ptr s', s.kmalloc hhdm size = .ok (ptr, s') ∧ ptr ≠ 0) ∧
    (∀ size : Word, size.toNat + 16 < 2 ^ 64 →
      (∀ b ∈ st.blocks, b.numPages.toNat * 4096 < size.toNat + 16) →
      s.kmalloc hhdm size = .error (.pageFault hhdm)) ∧
    s.kmallocFree hhdm 0 = .error (.pageFault 0xfffffffffffffff0) := by
  refine ⟨?_, ?_, kmallocFree_null hhdm s⟩
  · intro size _
    exact kmalloc_answers h size
  · intro size hsize hshort
    exact kmalloc_short h hsize hshort

/-- Sixteen pages are more than the pool has. -/
theorem heap_refusals_pageAndPair :
    Clients.pageAndPair.kmalloc hhdm₀ 0x10000 =
      .error (.pageFault hhdm₀) ∧
    Clients.pageAndPair.kmallocFree hhdm₀ 0 =
      .error (.pageFault 0xfffffffffffffff0) := by
  obtain ⟨-, hshort, hnull⟩ := heap_refusals (Arena.init Clients.smallMap_ok).stock
    (initPmm_holds Clients.smallMap_ok fun _ => 0).1
  refine ⟨hshort 0x10000 (by decide) (fun b hb => ?_), hnull⟩
  have hb : b ∈ [Block.mk 0x4000 1, Block.mk 0x1000 2] := hb
  rcases List.mem_pair.mp hb with rfl | rfl <;> decide

/-- **What the heap does instead.** A buffer of no bytes takes a page; one of all but one byte of the
address space takes the same page; one of sixteen pages faults on the first byte of the direct map,
and a free of the null pointer below the end of the address space. -/
theorem heap_serves_all : ∃ s₁ s₂ : Phys,
    Clients.pageAndPair.kmalloc hhdm₀ 0 = .ok (0xffff800000004010, s₁) ∧
    s₁.gRefAlloc = 1 ∧
    Clients.pageAndPair.kmalloc hhdm₀ 0xffffffffffffffff =
      .ok (0xffff800000004010, s₂) ∧
    Clients.pageAndPair.kmalloc hhdm₀ 0x10000 =
      .error (.pageFault hhdm₀) ∧
    s₁.kmallocFree hhdm₀ 0 = .error (.pageFault 0xfffffffffffffff0) := by
  have hzero : (Clients.pageAndPair.kmalloc hhdm₀ 0).map
      (fun r => (r.1, r.2.gRefAlloc)) = .ok (0xffff800000004010, 1) := by decide +kernel
  have hwrap : (Clients.pageAndPair.kmalloc hhdm₀ 0xffffffffffffffff).map (·.1) =
      .ok 0xffff800000004010 := by decide +kernel
  have hshort : (Clients.pageAndPair.kmalloc hhdm₀ 0x10000).map (·.1) =
      .error (.pageFault hhdm₀) := by decide +kernel
  obtain ⟨⟨p₁, s₁⟩, hs₁, h₁⟩ := map_ok.mp hzero
  obtain ⟨⟨p₂, s₂⟩, hs₂, h₂⟩ := map_ok.mp hwrap
  cases h₂
  obtain ⟨rfl, hcount⟩ := Prod.mk.inj h₁
  exact ⟨s₁, s₂, hs₁, hcount, hs₂, map_error.mp hshort, kmallocFree_null _ s₁⟩

end Phys

end TwoKernel
