import TwoKernel.Laws.Memory.Pmm
import TwoKernel.Memory.Clients

/-!
# No page is lost, and the list in memory is the list on paper

Two laws of the physical allocator over whole runs. `pages_conserved`: the free
blocks and the outstanding allocations are always the usable pages, each once.
`free_list_refines`: run beside the abstract first-fit allocator, the code's
free list is that allocator's, its answers are that allocator's, and no client
write reaches it.

Both rest on one invariant, that the memory holds the free list of an `Arena`
whose live blocks are the outstanding ones. The counter equals their number
because there are fewer blocks than counter values.
-/

namespace TwoKernel

open ByteMem

variable {hhdm count : Word} {memmap : List MemmapEntry} {s : Phys} {b : Block}

/-! ## The blocks of a memory map -/

namespace MemmapEntry

variable {e f : MemmapEntry}

theorem block_numPages : e.block.numPages.toNat = e.length.toNat / 4096 := by
  show (e.length / pageSize).toNat = _
  rw [BitVec.toNat_udiv]
  rfl

theorem Ok.block (h : e.Ok hhdm) : e.block.Ok hhdm := by
  have hb := h.base_aligned
  have hl := h.length_aligned
  have hr := h.reached
  have hz : e.base.toNat ≠ 0 := fun hz => h.base_ne (BitVec.eq_of_toNat_eq hz)
  have hs : e.block.start = e.base.toNat / 4096 := rfl
  refine ⟨?_, ?_, ?_⟩
  · show e.base.toNat = _
    omega
  · omega
  · rw [block_numPages]
    show hhdm.toNat + e.base.toNat + _ ≤ _
    omega

/-- The pages of an entry's block are the pages that lie in the entry. -/
theorem Ok.mem_pages (h : e.Ok hhdm) (p : Nat) : p ∈ e.block.pages ↔
    e.base.toNat ≤ 4096 * p ∧ 4096 * p + 4096 ≤ e.base.toNat + e.length.toNat := by
  have hb := h.base_aligned
  have hl := h.length_aligned
  have hs : e.block.start = e.base.toNat / 4096 := rfl
  unfold Block.pages
  rw [Set.mem_Ico, block_numPages]
  omega

theorem Ok.disjoint (he : e.Ok hhdm) (hf : f.Ok hhdm) (h : e.Clear f) :
    Disjoint e.block.foot f.block.foot := by
  have hbe := he.base_aligned
  have hle := he.length_aligned
  have hbf := hf.base_aligned
  have hlf := hf.length_aligned
  have hse : e.block.start = e.base.toNat / 4096 := rfl
  have hsf : f.block.start = f.base.toNat / 4096 := rfl
  rw [Set.disjoint_left]
  intro p hp hp'
  unfold Block.foot at hp hp'
  rw [Set.mem_Ico, block_numPages] at hp hp'
  rcases h with h | h
  · omega
  · omega

end MemmapEntry

/-- The blocks of the usable entries, in the order of the map. -/
def usableBlocks (memmap : List MemmapEntry) : List Block :=
  (usableEntries memmap).map MemmapEntry.block

theorem MemmapOk.blocks_ok (h : MemmapOk hhdm memmap) : ∀ b ∈ usableBlocks memmap, b.Ok hhdm := by
  intro b hb
  obtain ⟨e, he, rfl⟩ := List.mem_map.mp hb
  exact (h.entry e he).block

private theorem MemmapOk.blocks_apart (h : MemmapOk hhdm memmap) : Block.Apart (usableBlocks memmap) := by
  apply List.pairwise_map.mpr
  exact h.clear.imp_of_mem fun he hf hc => (h.entry _ he).disjoint (h.entry _ hf) hc

private theorem usableBlocks_cons (e : MemmapEntry) : usableBlocks (e :: memmap) =
    if e.type = .usable then e.block :: usableBlocks memmap else usableBlocks memmap := by
  unfold usableBlocks usableEntries
  by_cases h : e.type = .usable
  · simp [h]
  · simp [h]

/-- The loop of `init_pmm`, from a list already built: each usable entry goes in front of it. -/
theorem addEntries_holds (memmap : List MemmapEntry) : ∀ (s : Phys) (acc : List Block),
    (∀ b ∈ usableBlocks memmap ++ acc, b.Ok hhdm) → Block.Apart (usableBlocks memmap ++ acc) →
    s.Holds hhdm acc →
    (memmap.foldl (Phys.addEntry hhdm) s).Holds hhdm ((usableBlocks memmap).reverse ++ acc) ∧
      (memmap.foldl (Phys.addEntry hhdm) s).gRefAlloc = s.gRefAlloc := by
  induction memmap with
  | nil =>
    intro s acc _ _ h
    exact ⟨h, rfl⟩
  | cons e memmap ih =>
    intro s acc hok hap h
    rw [usableBlocks_cons] at hok hap ⊢
    by_cases hu : e.type = .usable
    · rw [if_pos hu] at hok hap ⊢
      -- the entry's block moves from what is to come to what is there
      have hperm : (e.block :: usableBlocks memmap ++ acc).Perm
          (usableBlocks memmap ++ e.block :: acc) := List.perm_middle.symm
      have hb : e.block.Ok hhdm := hok _ List.mem_cons_self
      have hacc : Block.Apart (e.block :: acc) :=
        (hap.perm hperm).sublist (List.sublist_append_right _ _)
      let st : Stock hhdm := ⟨acc, fun b hb => hok b (List.mem_append_right _ hb),
        (List.pairwise_cons.mp hacc).2⟩
      have hd : Disjoint e.block.foot st.pool := by
        rw [Set.disjoint_left]
        rintro p hp ⟨c, hc, hpc⟩
        exact Set.disjoint_left.mp ((List.pairwise_cons.mp hacc).1 c hc) hp hpc
      have hpush := Phys.pushList_holds hb hd h
      have hstep : Phys.addEntry hhdm s e = s.pushList hhdm e.block.pa e.block.numPages := if_pos hu
      rw [List.foldl_cons, hstep, List.reverse_cons, List.append_assoc]
      exact ih _ _ (fun b hb => hok b (hperm.mem_iff.mpr hb)) (hap.perm hperm) hpush
    · rw [if_neg hu] at hok hap ⊢
      have hstep : Phys.addEntry hhdm s e = s := if_neg hu
      rw [List.foldl_cons, hstep]
      exact ih _ _ hok hap h

/-- The loop writes the first page of each usable entry, and no other. -/
theorem addEntries_eqOn (memmap : List MemmapEntry) (hok : ∀ b ∈ usableBlocks memmap, b.Ok hhdm)
    (s : Phys) : Set.EqOn (memmap.foldl (Phys.addEntry hhdm) s).mem s.mem
      (pageBytes {p | ∃ b ∈ usableBlocks memmap, p = b.start})ᶜ := by
  induction memmap generalizing s with
  | nil => exact fun _ _ => rfl
  | cons e memmap ih =>
    rw [usableBlocks_cons] at hok ⊢
    rw [List.foldl_cons]
    by_cases hu : e.type = .usable
    · rw [if_pos hu] at hok ⊢
      have hstep : Phys.addEntry hhdm s e = s.pushList hhdm e.block.pa e.block.numPages := if_pos hu
      rw [hstep]
      refine ((ih (fun b hb => hok b (List.mem_cons_of_mem _ hb)) _).mono ?_).trans
        ((Phys.pushList_eqOn (hok _ List.mem_cons_self)).mono ?_)
      · intro x hx hxb
        obtain ⟨b, hb, hxb⟩ := hxb
        exact hx ⟨b, List.mem_cons_of_mem _ hb, hxb⟩
      · intro x hx hxe
        exact hx ⟨e.block, List.mem_cons_self, hxe⟩
    · rw [if_neg hu] at hok ⊢
      have hstep : Phys.addEntry hhdm s e = s := if_neg hu
      rw [hstep]
      exact ih hok s

/-- What `init_pmm` leaves: the usable blocks, last entry first, and nothing handed out. -/
theorem initPmm_holds (h : MemmapOk hhdm memmap) (mem : Mem) :
    (Phys.initPmm hhdm memmap mem).Holds hhdm (usableBlocks memmap).reverse ∧
      (Phys.initPmm hhdm memmap mem).gRefAlloc = 0 := by
  have hnil : (Phys.mk mem 0 0).Holds hhdm [] := ⟨rfl, by simp, by simp⟩
  have hgo := addEntries_holds memmap ⟨mem, 0, 0⟩ []
    (by rw [List.append_nil]; exact h.blocks_ok) (by rw [List.append_nil]; exact h.blocks_apart) hnil
  rwa [List.append_nil] at hgo

/-- The abstract allocator after `init_pmm`. -/
def Arena.init (h : MemmapOk hhdm memmap) : Arena hhdm (usablePages memmap) where
  free := (usableBlocks memmap).reverse
  live := []
  ok b hb := h.blocks_ok b (by simpa using hb)
  nonempty b hb := by cases hb
  apart := by
    rw [List.append_nil]
    exact h.blocks_apart.perm (List.reverse_perm _).symm
  covers p := by
    constructor
    · rintro ⟨e, he, hp⟩
      refine ⟨e.block, ?_, ((h.entry e he).mem_pages p).mpr hp⟩
      rw [List.append_nil, List.mem_reverse]
      exact List.mem_map_of_mem he
    · rintro ⟨b, hb, hp⟩
      rw [List.append_nil, List.mem_reverse] at hb
      obtain ⟨e, he, rfl⟩ := List.mem_map.mp hb
      exact ⟨e, he, ((h.entry e he).mem_pages p).mp hp⟩

/-! ## The invariant -/

/-- There are fewer live blocks than values of a counter. -/
theorem Arena.live_length {usable : Set Nat} (a : Arena hhdm usable) : a.live.length < 2 ^ 64 := by
  have hap : Block.Apart a.live := a.apart.sublist (List.sublist_append_right _ _)
  have hnd : (a.live.map Block.start).Nodup := by
    apply List.pairwise_map.mpr
    apply hap.imp
    intro b c hd e
    exact Set.disjoint_left.mp hd Block.start_mem_foot (e ▸ Block.start_mem_foot)
  have hsub : a.live.map Block.start ⊆ List.range (2 ^ 52) := by
    intro p hp
    obtain ⟨b, hb, rfl⟩ := List.mem_map.mp hp
    have ha := (a.ok b (List.mem_append_right _ hb)).aligned
    have hlt := b.pa.isLt
    rw [List.mem_range]
    omega
  have hlen := (List.Nodup.subperm hnd hsub).length_le
  rw [List.length_range, List.length_map] at hlen
  omega

/-- A block that is handed out is not free. -/
theorem Arena.clear_of_live {usable : Set Nat} (a : Arena hhdm usable) (hb : b ∈ a.live) :
    Disjoint b.foot a.stock.pool := by
  rw [Set.disjoint_left]
  intro p hp hpool
  obtain ⟨c, hc, hpc⟩ := hpool
  have hcross := (List.pairwise_append.mp a.apart).2.2 c hc b hb
  exact Set.disjoint_left.mp hcross hpc hp

/-- The memory holds the allocator state `a`, and the counter counts its live blocks. -/
structure Phys.Backs {usable : Set Nat} (hhdm : Word) (s : Phys) (a : Arena hhdm usable) : Prop where
  holds : s.Holds hhdm a.free
  count : s.gRefAlloc.toNat = a.live.length

namespace Phys.Backs

variable {usable : Set Nat} {a : Arena hhdm usable}

/-- An allocation gives what the abstract allocator gives, and writes to free pages only. -/
theorem alloc (h : s.Backs hhdm a) (hpos : 0 < count.toNat) :
    ∃ s', s.alloc hhdm count = .ok ((a.alloc count hpos).1, s') ∧
      s'.Backs hhdm (a.alloc count hpos).2 ∧
      Set.EqOn s'.mem s.mem (pageBytes a.stock.pool)ᶜ := by
  obtain ⟨hnone, hsome⟩ := Phys.alloc_spec count a.stock h.holds
  cases hfit : Block.firstFit count a.free with
  | none =>
    rw [a.alloc_none hpos hfit]
    exact ⟨s, hnone hfit, h, fun _ _ => rfl⟩
  | some r =>
    obtain ⟨b, l⟩ := r
    obtain ⟨s', hs', hholds, hgref, hmem⟩ := hsome b l hfit
    rw [a.alloc_some hpos hfit]
    refine ⟨s', hs', ⟨hholds, ?_⟩, hmem⟩
    have hlen : a.live.length + 1 < 2 ^ 64 := (a.carve hfit hpos).live_length
    show s'.gRefAlloc.toNat = a.live.length + 1
    rw [hgref, BitVec.toNat_add, h.count]
    exact Nat.mod_eq_of_lt hlen

/-- A free of a live block gives what the abstract allocator gives. -/
theorem free (h : s.Backs hhdm a) (hb : b ∈ a.live) :
    (s.free hhdm b.pa b.numPages).Backs hhdm (a.release b hb) := by
  have hbok : b.Ok hhdm := a.ok b (List.mem_append_right _ hb)
  have hlen : 0 < a.live.length := List.length_pos_of_mem hb
  have hz : s.gRefAlloc ≠ 0 := by
    intro e
    have hc := h.count
    rw [e] at hc
    exact absurd hc (by show 0 ≠ _; omega)
  obtain ⟨hholds, hgref⟩ := Phys.free_spec hbok (a.clear_of_live hb) hz h.holds
  refine ⟨hholds, ?_⟩
  show _ = (a.live.erase b).length
  rw [hgref, List.length_erase_of_mem hb, ← h.count]
  have hone : (1 : Word) ≤ s.gRefAlloc := by
    rw [BitVec.le_def, h.count]
    exact hlen
  rw [BitVec.toNat_sub_of_le hone]
  rfl

/-- What is written in a live block reaches no node of the free list. -/
theorem store (h : s.Backs hhdm a) (hb : b ∈ a.live) {mem : Mem}
    (hmem : Set.EqOn mem s.mem (pageBytes b.foot)ᶜ) : Backs hhdm { s with mem := mem } a := by
  refine ⟨Phys.Holds.frame a.stock h.holds rfl (hmem.mono ?_), h.count⟩
  intro x hx hxb
  exact Set.disjoint_left.mp (a.clear_of_live hb) hxb hx

theorem write (h : s.Backs hhdm a) (hb : b ∈ a.live) {addr : Nat} (ha : addr / 4096 ∈ b.pages)
    (value : Byte) : (s.write addr value).Backs hhdm a := by
  apply h.store hb
  intro x hx
  apply Function.update_of_ne
  intro hxa
  apply hx
  rw [hxa]
  exact Block.pages_subset_foot ha

end Phys.Backs

/-! ## Conservation of pages -/

/-- The direct map of the sample states, where the loader puts it. -/
abbrev hhdm₀ : Word := 0xffff800000000000

namespace Clients

variable {x : Clients}

/-- The free blocks and the outstanding allocations are the usable pages, each once, and the
counter counts the allocations. -/
def Conserved (hhdm : Word) (memmap : List MemmapEntry) (x : Clients) : Prop :=
  ∃ free : List Block, x.phys.Holds hhdm free ∧
    (free ++ x.out).Pairwise (fun b c => Disjoint b.pages c.pages) ∧
    (∀ p, p ∈ usablePages memmap ↔ ∃ b ∈ free ++ x.out, p ∈ b.pages) ∧
    x.phys.gRefAlloc.toNat = x.out.length

/-- The answer `r` to a request for `count` pages is page aligned, and its `count` pages are usable
ones that nobody has. -/
def Owned (memmap : List MemmapEntry) (x : Clients) (r count : Word) : Prop :=
  r.toNat % 4096 = 0 ∧ r.toNat + count.toNat * 4096 ≤ 2 ^ 64 ∧
    (Block.mk r count).pages ⊆ usablePages memmap ∧
    ∀ b ∈ x.out, Disjoint (Block.mk r count).pages b.pages

theorem pages_disjoint {b c : Block} (h : Disjoint b.foot c.foot) : Disjoint b.pages c.pages :=
  h.mono Block.pages_subset_foot Block.pages_subset_foot

private theorem conserved_of_backs {a : Arena hhdm (usablePages memmap)} (h : x.phys.Backs hhdm a)
    (hout : a.live = x.out) : x.Conserved hhdm memmap := by
  refine ⟨a.free, h.holds, ?_, ?_, ?_⟩
  · rw [← hout]
    exact a.apart.imp pages_disjoint
  · rw [← hout]
    exact a.covers
  · rw [← hout]
    exact h.count

/-- The invariant of a run: the memory backs an allocator state whose live blocks are the
outstanding ones. -/
theorem backed (hm : MemmapOk hhdm memmap) (h : (runs hhdm memmap).Reachable x) :
    ∃ a : Arena hhdm (usablePages memmap), x.phys.Backs hhdm a ∧ a.live = x.out := by
  refine System.Reachable.invariant (I := fun x : Clients =>
    ∃ a : Arena hhdm (usablePages memmap), x.phys.Backs hhdm a ∧ a.live = x.out) ?_ ?_ h
  · rintro x ⟨mem, rfl⟩
    obtain ⟨hholds, hgref⟩ := initPmm_holds hm mem
    exact ⟨Arena.init hm, ⟨hholds, by rw [hgref]; rfl⟩, rfl⟩
  · rintro x c x' ⟨a, ha, hout⟩ ⟨hc, hstep⟩
    cases c with
    | alloc count =>
      have hpos : 0 < count.toNat := Nat.pos_of_ne_zero fun e => hc (BitVec.eq_of_toNat_eq e)
      obtain ⟨s', hs', ha', -⟩ := ha.alloc hpos
      simp only [next, hs', ok_bind, pure_eq_ok] at hstep
      cases hstep
      refine ⟨_, ha', ?_⟩
      rw [a.alloc_live hpos, hout]
    | free physMem count =>
      cases hstep
      have hb : Block.mk physMem count ∈ a.live := hout ▸ hc
      exact ⟨_, ha.free hb, congrArg (List.erase · _) hout⟩
    | write addr value =>
      cases hstep
      obtain ⟨b, hb, hp⟩ := hc
      exact ⟨a, ha.write (hout ▸ hb) hp value, hout⟩

/-- **No page is lost or owned twice.** In every state of a run the free blocks and the outstanding
allocations are exactly the usable pages, the counter is their number, and a request for a page or
more returns, with zero or with pages nobody has. -/
theorem pages_conserved (hm : MemmapOk hhdm memmap) (h : (runs hhdm memmap).Reachable x) :
    x.Conserved hhdm memmap ∧ ∀ count, count ≠ 0 →
      ∃ r s', x.phys.alloc hhdm count = .ok (r, s') ∧ (r ≠ 0 → x.Owned memmap r count) := by
  obtain ⟨a, ha, hout⟩ := backed hm h
  refine ⟨conserved_of_backs ha hout, fun count hc => ?_⟩
  have hpos : 0 < count.toNat := Nat.pos_of_ne_zero fun e => hc (BitVec.eq_of_toNat_eq e)
  obtain ⟨s', hs', -⟩ := ha.alloc hpos
  refine ⟨_, s', hs', fun hr => ?_⟩
  -- the answer is the first live block of the allocator state after the request
  let a' := (a.alloc count hpos).2
  have hlive : a'.live = ⟨(a.alloc count hpos).1, count⟩ :: a.live := by
    rw [a.alloc_live hpos, if_neg hr]
  have hmem : Block.mk (a.alloc count hpos).1 count ∈ a'.free ++ a'.live := by
    apply List.mem_append_right
    rw [hlive]
    exact List.mem_cons_self
  have hok := a'.ok _ hmem
  refine ⟨?_, ?_, ?_, ?_⟩
  · have hal : (a.alloc count hpos).1.toNat = 4096 * _ := hok.aligned
    omega
  · have hre : hhdm.toNat + (a.alloc count hpos).1.toNat + max count.toNat 1 * 4096 ≤ 2 ^ 64 :=
      hok.reached
    have hmax := Nat.mul_le_mul_right 4096 (Nat.le_max_left count.toNat 1)
    omega
  · intro p hp
    exact (a'.covers p).mpr ⟨_, hmem, hp⟩
  · intro b hb
    have hap : Block.Apart a'.live := a'.apart.sublist (List.sublist_append_right _ _)
    rw [hlive] at hap
    exact pages_disjoint ((List.pairwise_cons.mp hap).1 b (hout ▸ hb))

/-- Two usable pages, then a reserved one, then one more that is usable. -/
def smallMap : List MemmapEntry :=
  [⟨0x1000, 0x2000, .usable⟩, ⟨0x3000, 0x1000, .reserved⟩, ⟨0x4000, 0x1000, .usable⟩]

theorem smallMap_ok : MemmapOk hhdm₀ smallMap := by
  refine ⟨fun e he => ?_, by simp [smallMap, usableEntries, MemmapEntry.Clear]⟩
  have he' : e = ⟨0x1000, 0x2000, .usable⟩ ∨ e = ⟨0x4000, 0x1000, .usable⟩ := by
    simpa [smallMap, usableEntries] using he
  rcases he' with rfl | rfl
  · exact ⟨by decide, by decide, by decide, by decide⟩
  · exact ⟨by decide, by decide, by decide, by decide⟩

/-- `init_pmm` on that map: a free page, and two. -/
def pageAndPair : Phys := Phys.initPmm hhdm₀ smallMap fun _ => 0

/-- An allocation, a write into it, one that splits a block, and the first one freed. -/
def smallRun : List PmmCall :=
  [.alloc 1, .write 0x4008 7, .alloc 1, .free 0x4000 1]

theorem pages_conserved_smallMap : ∃ x : Clients, x.out = [⟨0x1000, 1⟩] ∧
    x.Conserved hhdm₀ smallMap := by
  let start : Clients := ⟨Phys.initPmm hhdm₀ smallMap fun _ => 0, []⟩
  have hrun : (smallRun.foldlM (System.attempt Allowed (next hhdm₀)) start).map (·.out)
      = some [⟨0x1000, 1⟩] := by decide +kernel
  obtain ⟨x, hx, hout⟩ := Option.map_eq_some_iff.mp hrun
  have hstart : (runs hhdm₀ smallMap).Reachable start := .init ⟨_, rfl⟩
  exact ⟨x, hout, (pages_conserved smallMap_ok
    (hstart.foldlM (fun _ _ _ => System.attempt_eq_some) _ hx)).1⟩

end Clients

/-! ## The intrusive list refines the abstract one -/

namespace Lockstep

/-- The runs of both allocators from one memory map. -/
def runs (hhdm : Word) (memmap : List MemmapEntry) :
    System (Lockstep hhdm (usablePages memmap)) PmmCall where
  init x := ∃ mem, x.phys = Phys.initPmm hhdm memmap mem ∧
    x.arena.free = (usableBlocks memmap).reverse ∧ x.arena.live = []
  step := Step

variable {x : Lockstep hhdm (usablePages memmap)}

private theorem backed (hm : MemmapOk hhdm memmap) (h : (runs hhdm memmap).Reachable x) :
    x.phys.Backs hhdm x.arena := by
  refine System.Reachable.invariant (I := fun x : Lockstep hhdm (usablePages memmap) =>
    x.phys.Backs hhdm x.arena) ?_ ?_ h
  · rintro x ⟨mem, hphys, hfree, hlive⟩
    obtain ⟨hholds, hgref⟩ := initPmm_holds hm mem
    refine ⟨?_, ?_⟩
    · rw [hphys, hfree]
      exact hholds
    · rw [hphys, hlive, hgref]
      rfl
  · intro x c x' hx hstep
    cases hstep with
    | alloc hpos hs =>
      obtain ⟨s', hs', ha', -⟩ := hx.alloc hpos
      cases hs.symm.trans hs'
      exact ha'
    | free hb => exact hx.free hb
    | write hb hp => exact hx.write hb hp _

/-- **The intrusive free list refines the abstract one.** In every state of a run of both
allocators, under any client writes: the chain from `freelist_head` visits the nodes of the
abstract free list, without repetition, and ends; each node's `pa` is the physical address it is
stored at, and its fields are its block's; `alloc` returns, with the abstract allocator's answer;
and a write inside an outstanding block changes neither the head nor any node of the chain. -/
theorem free_list_refines (hm : MemmapOk hhdm memmap) (h : (runs hhdm memmap).Reachable x) :
    Chain.Linked (x.phys.nextNode hhdm) (ptr x.phys.freelistHead)
        (x.arena.free.map (Block.node hhdm)) ∧
      (x.arena.free.map (Block.node hhdm)).Nodup ∧
      (∀ b ∈ x.arena.free, (x.phys.field hhdm .pa (b.node hhdm)).toNat = physOf hhdm (b.node hhdm) ∧
        x.phys.field hhdm .pa (b.node hhdm) = b.pa ∧
        x.phys.field hhdm .numPages (b.node hhdm) = b.numPages) ∧
      (∀ count (hpos : 0 < count.toNat), ∃ s',
        x.phys.alloc hhdm count = .ok ((x.arena.alloc count hpos).1, s')) ∧
      ∀ b ∈ x.arena.live, ∀ addr value, addr / 4096 ∈ b.pages →
        (x.phys.write addr value).freelistHead = x.phys.freelistHead ∧
        ∀ c ∈ x.arena.free, ∀ f,
          (x.phys.write addr value).field hhdm f (c.node hhdm) = x.phys.field hhdm f (c.node hhdm) := by
  have hx := backed hm h
  refine ⟨hx.holds.chain, hx.holds.chain.nodup, ?_, ?_, ?_⟩
  · intro b hb
    have hpa := hx.holds.pa b hb
    refine ⟨?_, hpa, hx.holds.numPages b hb⟩
    rw [hpa, physOf_node]
  · intro count hpos
    obtain ⟨s', hs', -⟩ := hx.alloc hpos
    exact ⟨s', hs'⟩
  · intro b hb addr value hp
    refine ⟨rfl, fun c hc f => ?_⟩
    have hcok : c.Ok hhdm := x.arena.ok c (List.mem_append_left _ hc)
    apply Phys.field_congr hcok
    intro y hy
    apply Function.update_of_ne
    rintro rfl
    have hcross := (List.pairwise_append.mp x.arena.apart).2.2 c hc b hb
    have hyc : y / 4096 = c.start := hy
    exact Set.disjoint_left.mp hcross (hyc ▸ Block.start_mem_foot) (Block.pages_subset_foot hp)

private theorem reachable_alloc (count : Word) (hm : MemmapOk hhdm memmap)
    (h : (runs hhdm memmap).Reachable x) (hpos : 0 < count.toNat) :
    ∃ s', (runs hhdm memmap).Reachable ⟨s', (x.arena.alloc count hpos).2⟩ := by
  obtain ⟨s', hs', -⟩ := (backed hm h).alloc hpos
  exact ⟨s', h.step (Step.alloc hpos hs')⟩

private theorem reachable_write (addr : Nat) (value : Byte) (h : (runs hhdm memmap).Reachable x)
    (hb : b ∈ x.arena.live) (hp : addr / 4096 ∈ b.pages) :
    (runs hhdm memmap).Reachable ⟨x.phys.write addr value, x.arena⟩ :=
  h.step (Step.write hb hp)

/-- Both allocators after `init_pmm` on the small map. -/
def smallStart : Lockstep hhdm₀ (usablePages Clients.smallMap) :=
  ⟨Phys.initPmm hhdm₀ Clients.smallMap fun _ => 0, Arena.init Clients.smallMap_ok⟩

/-- The abstract allocator after one request for a page, and after two. -/
def smallOne : Arena hhdm₀ (usablePages Clients.smallMap) :=
  (smallStart.arena.alloc 1 (by decide)).2

@[inherit_doc smallOne]
def smallTwo : Arena hhdm₀ (usablePages Clients.smallMap) :=
  (smallOne.alloc 1 (by decide)).2

/-- Two allocations, the second of which splits a block, with a client write after each: the chain
is the one page left, a request for two pages is refused, and a further write reaches no node. -/
theorem free_list_refines_smallTwo :
    ∃ x : Lockstep hhdm₀ (usablePages Clients.smallMap),
      (runs _ Clients.smallMap).Reachable x ∧ x.arena.live = [⟨0x1000, 1⟩, ⟨0x4000, 1⟩] ∧
      Chain.Linked (x.phys.nextNode hhdm₀) (ptr x.phys.freelistHead)
        [0xffff800000002000] ∧
      (∃ s', x.phys.alloc hhdm₀ 2 = .ok (0, s')) ∧
      ∀ value, (x.phys.write 0x1010 value).freelistHead = x.phys.freelistHead := by
  have hone : smallOne.live = [⟨0x4000, 1⟩] := by decide +kernel
  have htwo : smallTwo.live = [⟨0x1000, 1⟩, ⟨0x4000, 1⟩] := by decide +kernel
  have hfree : smallTwo.free = [⟨0x2000, 1⟩] := by decide +kernel
  have h₀ : (runs _ Clients.smallMap).Reachable smallStart := .init ⟨_, rfl, rfl, rfl⟩
  obtain ⟨s₁, h₁⟩ := reachable_alloc 1 Clients.smallMap_ok h₀ (by decide)
  have h₂ := reachable_write (x := ⟨s₁, smallOne⟩) (b := ⟨0x4000, 1⟩) 0x4008 7 h₁ (by simp [hone])
    ⟨by decide, by decide⟩
  obtain ⟨s₃, h₃⟩ := reachable_alloc 1 Clients.smallMap_ok h₂ (by decide)
  have h₄ := reachable_write (x := ⟨s₃, smallTwo⟩) (b := ⟨0x1000, 1⟩) 0x1008 9 h₃ (by simp [htwo])
    ⟨by decide, by decide⟩
  obtain ⟨hchain, -, -, halloc, hwrite⟩ := free_list_refines Clients.smallMap_ok h₄
  rw [show (Lockstep.mk _ smallTwo).arena.free = [⟨0x2000, 1⟩] from hfree] at hchain
  have hrefused : (smallTwo.alloc 2 (by decide)).1 = 0 := by decide +kernel
  obtain ⟨s', hs'⟩ := halloc 2 (by decide)
  refine ⟨_, h₄, htwo, hchain, ⟨s', hs'.trans ?_⟩, fun value => ?_⟩
  · rw [← hrefused]
  · exact (hwrite ⟨0x1000, 1⟩ (by simp [htwo]) 0x1010 value ⟨by decide, by decide⟩).1

end Lockstep

end TwoKernel
