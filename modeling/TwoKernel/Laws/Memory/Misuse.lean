import TwoKernel.Laws.Memory.Clients

/-!
# Frees that match no allocation

`free` does not know what is outstanding. All it looks at is the number of
allocations, so it refuses a free only when there are none; any other goes on the
free list, whether or not something was handed out there.

`free_refused_iff` says what is left of the intention: the list stays sound in
the runs in which a free that matches no allocation comes when the counter is
zero. `free_twice_loops` frees a page twice while another one is outstanding, and
the node of the page becomes its own successor.

The runs here also ask for no pages at all. `alloc(0)` answers with the first
block and leaves it on the list, so to free what it returned is a free of that
kind too.
-/

namespace TwoKernel

open ByteMem

variable {hhdm : Word} {memmap : List MemmapEntry}

namespace Clients

variable {x x' : Clients} {c : PmmCall}

/-- Any request and any free, and writes by owners. -/
def AnyCall (x : Clients) : PmmCall → Prop
  | .write addr _ => ∃ b ∈ x.out, addr / 4096 ∈ b.pages
  | _ => True

instance (x : Clients) : ∀ c, Decidable (x.AnyCall c)
  | .alloc _ => instDecidableTrue
  | .free _ _ => instDecidableTrue
  | .write addr _ => inferInstanceAs (Decidable (∃ b ∈ x.out, b.start ≤ addr / 4096 ∧
      addr / 4096 < b.start + b.numPages.toNat))

/-- The runs from `init_pmm` in which anything may be freed. -/
def anyRuns (hhdm : Word) (memmap : List MemmapEntry) : System Clients PmmCall :=
  .guarded (fun x => ∃ mem, x = ⟨Phys.initPmm hhdm memmap mem, []⟩) AnyCall (next hhdm)

/-- A free is of an allocation of a page or more that is outstanding, or comes when the counter is
zero. -/
def Matched (x : Clients) : PmmCall → Prop
  | .free physMem count =>
    x.phys.gRefAlloc = 0 ∨ (⟨physMem, count⟩ ∈ x.out ∧ 0 < count.toNat)
  | _ => True

instance (x : Clients) : ∀ c, Decidable (x.Matched c)
  | .alloc _ => instDecidableTrue
  | .free physMem count => inferInstanceAs (Decidable (x.phys.gRefAlloc = 0 ∨
      (⟨physMem, count⟩ ∈ x.out ∧ 0 < count.toNat)))
  | .write _ _ => instDecidableTrue

/-- The outstanding allocations that have pages. -/
def held (x : Clients) : List Block := x.out.filter fun b => 0 < b.numPages.toNat

/-- The free list is sound, and apart from what is held. -/
structure Sound (hhdm : Word) (x : Clients) (st : Stock hhdm) : Prop where
  holds : x.phys.Holds hhdm st.blocks
  ok : ∀ b ∈ x.held, b.Ok hhdm
  apart : Block.Apart x.held
  clear : ∀ b ∈ x.held, Disjoint b.foot st.pool

namespace Sound

variable {st : Stock hhdm}

theorem init (hm : MemmapOk hhdm memmap) (mem : Mem) :
    Sound hhdm ⟨Phys.initPmm hhdm memmap mem, []⟩ (Arena.init hm).stock where
  holds := (initPmm_holds hm mem).1
  ok _ hb := absurd hb List.not_mem_nil
  apart := List.Pairwise.nil
  clear _ hb := absurd hb List.not_mem_nil

/-- A request, of any number of pages. -/
theorem alloc (h : x.Sound hhdm st) {count : Word} (hs : x.next hhdm (.alloc count) = .ok x') :
    ∃ st', x'.Sound hhdm st' := by
  obtain ⟨hnone, hsome⟩ := Phys.alloc_spec count st h.holds
  cases hfit : Block.firstFit count st.blocks with
  | none =>
    simp only [next, hnone hfit, ok_bind, pure_eq_ok] at hs
    cases hs
    exact ⟨st, h.holds, h.ok, h.apart, h.clear⟩
  | some r =>
    obtain ⟨b, l⟩ := r
    obtain ⟨s', hs', hholds, -, -⟩ := hsome b l hfit
    have hmem := st.mem_of_firstFit hfit
    have hb : b.Ok hhdm := st.ok b hmem
    obtain ⟨-, -, -, -, hle, -⟩ := Block.firstFit_eq_some hfit
    obtain ⟨-, hpool⟩ := st.carve_pool hfit
    simp only [next, hs', ok_bind, pure_eq_ok] at hs
    cases hs
    rw [if_neg hb.pa_ne]
    have hfoot : (Block.mk b.pa count).foot ⊆ st.pool := by
      intro p hp
      exact ⟨b, hmem, Block.foot_split_subset hb hle _ List.mem_cons_self hp⟩
    -- an allocation of no pages is not held
    by_cases hpos : 0 < count.toNat
    · have hheld : (Clients.mk s' (⟨b.pa, count⟩ :: x.out)).held = ⟨b.pa, count⟩ :: x.held :=
        List.filter_cons_of_pos (decide_eq_true hpos)
      refine ⟨st.carve hfit, hholds, ?_, ?_, ?_⟩
      · rw [hheld]
        exact List.forall_mem_cons.mpr ⟨hb.take hle, h.ok⟩
      · rw [hheld]
        exact List.pairwise_cons.mpr ⟨fun c hc => ((h.clear c hc).mono_right hfoot).symm, h.apart⟩
      · rw [hheld]
        refine List.forall_mem_cons.mpr ⟨?_, fun c hc => (h.clear c hc).mono_right ?_⟩
        · rw [← Block.pages_eq_foot hpos]
          exact Set.disjoint_sdiff_right.mono_right hpool
        · exact hpool.trans Set.sdiff_subset
    · have hheld : (Clients.mk s' (⟨b.pa, count⟩ :: x.out)).held = x.held :=
        List.filter_cons_of_neg (by simpa using hpos)
      refine ⟨st.carve hfit, hholds, ?_, ?_, ?_⟩
      · rw [hheld]
        exact h.ok
      · rw [hheld]
        exact h.apart
      · rw [hheld]
        exact fun c hc => (h.clear c hc).mono_right (hpool.trans Set.sdiff_subset)

/-- A free that is matched, or refused. -/
theorem free (h : x.Sound hhdm st) {physMem count : Word} (hc : x.Matched (.free physMem count)) :
    ∃ st', Sound hhdm ⟨x.phys.free hhdm physMem count, x.out.erase ⟨physMem, count⟩⟩ st' := by
  have hsub : ((x.out.erase ⟨physMem, count⟩).filter fun b => 0 < b.numPages.toNat).Sublist
      x.held := (List.erase_sublist).filter _
  by_cases hzero : x.phys.gRefAlloc = 0
  · have hfree : x.phys.free hhdm physMem count = x.phys := if_pos hzero
    rw [hfree]
    exact ⟨st, h.holds, fun b hb => h.ok b (hsub.subset hb), h.apart.sublist hsub,
      fun b hb => h.clear b (hsub.subset hb)⟩
  · obtain ⟨hout, hpos⟩ := hc.resolve_left hzero
    have hmem : Block.mk physMem count ∈ x.held := List.mem_filter.mpr ⟨hout, decide_eq_true hpos⟩
    have hclear := h.clear _ hmem
    obtain ⟨hholds, -⟩ := Phys.free_spec (h.ok _ hmem) hclear hzero h.holds
    refine ⟨st.push _ (h.ok _ hmem) hclear, hholds, fun b hb => h.ok b (hsub.subset hb),
      h.apart.sublist hsub, ?_⟩
    intro b hb
    have hb : b ∈ x.held.erase ⟨physMem, count⟩ := by
      unfold held
      rw [List.erase_filter]
      exact hb
    have hother := (List.pairwise_cons.mp (h.apart.perm (List.perm_cons_erase hmem))).1 b hb
    rw [Set.disjoint_left]
    intro p hp hpool
    obtain ⟨c, hc, hpc⟩ := hpool
    rcases List.mem_cons.mp hc with rfl | hc
    · exact Set.disjoint_left.mp hother hpc hp
    · exact Set.disjoint_left.mp (h.clear b (List.mem_of_mem_erase hb)) hp ⟨c, hc, hpc⟩

theorem write (h : x.Sound hhdm st) {addr : Nat} {value : Byte}
    (hc : x.AnyCall (.write addr value)) : Sound hhdm ⟨x.phys.write addr value, x.out⟩ st := by
  obtain ⟨b, hb, hp⟩ := hc
  have hpos : 0 < b.numPages.toNat := by
    obtain ⟨hlo, hhi⟩ := hp
    omega
  refine ⟨?_, h.ok, h.apart, h.clear⟩
  refine Phys.Holds.frame st h.holds
    (show (x.phys.write addr value).freelistHead = x.phys.freelistHead from rfl) ?_
  intro y hy
  apply Function.update_of_ne
  intro hya
  rw [hya] at hy
  have hmem : b ∈ x.held := List.mem_filter.mpr ⟨hb, decide_eq_true hpos⟩
  exact Set.disjoint_left.mp (h.clear b hmem) (Block.pages_subset_foot hp) hy

end Sound

/-- The invariant of the runs in which a free is matched or refused. -/
theorem exists_sound (hm : MemmapOk hhdm memmap)
    (h : ((anyRuns hhdm memmap).restrict Matched).Reachable x) : ∃ st, x.Sound hhdm st := by
  refine System.Reachable.invariant (I := fun x : Clients => ∃ st, x.Sound hhdm st) ?_ ?_ h
  · intro x hx
    obtain ⟨mem, rfl⟩ := hx
    exact ⟨_, Sound.init hm mem⟩
  · intro x c x' hx hstep
    obtain ⟨st, hst⟩ := hx
    obtain ⟨⟨hcall, hnext⟩, hmatch⟩ := hstep
    cases c with
    | alloc count => exact hst.alloc hnext
    | free physMem count =>
      cases hnext
      exact hst.free hmatch
    | write addr value =>
      cases hnext
      exact ⟨st, hst.write hcall⟩

/-- **What `free` refuses.** In every state of a run in which each free is of an outstanding
allocation of a page or more, or comes when the counter is zero: a free that matches no outstanding
allocation changes neither the free list nor the counter exactly if the counter is zero; and the free
list ends, has no node twice, and no page in two of its blocks. -/
theorem free_refused_iff (hm : MemmapOk hhdm memmap)
    (h : ((anyRuns hhdm memmap).restrict Matched).Reachable x) :
    (∀ physMem count, Block.mk physMem count ∉ x.out →
      ((x.phys.free hhdm physMem count).gRefAlloc = x.phys.gRefAlloc ∧
        (x.phys.free hhdm physMem count).freelistHead = x.phys.freelistHead ∧
        (x.phys.free hhdm physMem count).mem = x.phys.mem ↔ x.phys.gRefAlloc = 0)) ∧
    ∃ free : List Block, x.phys.Holds hhdm free ∧
      (free.map (Block.node hhdm)).Nodup ∧
      free.Pairwise (fun b c => Disjoint b.pages c.pages) := by
  obtain ⟨st, hst⟩ := exists_sound hm h
  refine ⟨?_, st.blocks, hst.holds, hst.holds.chain.nodup, st.apart.imp pages_disjoint⟩
  intro physMem count _
  constructor
  · intro hsame
    by_contra hzero
    rw [Phys.free_gRefAlloc _ _ hzero] at hsame
    exact absurd hsame.1 (by bv_omega)
  · intro hzero
    rw [(Phys.free_eq_self_iff _ _).mpr hzero]
    exact ⟨rfl, rfl, rfl⟩

theorem free_refused_smallMap : ∃ x : Clients, x.out = [⟨0x4000, 0⟩] ∧
    ∃ free : List Block, x.phys.Holds hhdm₀ free ∧
      free.Pairwise (fun b c => Disjoint b.pages c.pages) := by
  let start : Clients := ⟨Phys.initPmm hhdm₀ smallMap fun _ => 0, []⟩
  -- a free with nothing outstanding, a request for no pages, an allocation and its free
  have hrun : (([.free 0x1000 1, .alloc 0, .alloc 1, .free 0x4000 1] : List PmmCall).foldlM
      (System.attempt (fun x c => AnyCall x c ∧ Matched x c) (next hhdm₀)) start).map
        (·.out) = some [⟨0x4000, 0⟩] := by decide +kernel
  obtain ⟨x, hx, hout⟩ := Option.map_eq_some_iff.mp hrun
  have hstart : ((anyRuns hhdm₀ smallMap).restrict Matched).Reachable start :=
    .init ⟨_, rfl⟩
  have hreach := hstart.foldlM (fun _ _ _ hstep => by
    obtain ⟨⟨hcall, hmatch⟩, hnext⟩ := System.attempt_eq_some hstep
    exact ⟨⟨hcall, hnext⟩, hmatch⟩) _ hx
  obtain ⟨-, free, hholds, -, hapart⟩ := free_refused_iff smallMap_ok hreach
  exact ⟨x, hout, free, hholds, hapart⟩

/-- **A page is freed twice.** With another page outstanding, a page that was freed already is freed
again: the counter changes, and the node of the page is its own successor. -/
theorem free_twice_loops : ∃ x : Clients,
    (anyRuns hhdm₀ smallMap).Reachable x ∧ Block.mk 0x4000 1 ∉ x.out ∧
    (x.phys.free hhdm₀ 0x4000 1).gRefAlloc ≠ x.phys.gRefAlloc ∧
    (x.phys.free hhdm₀ 0x4000 1).freelistHead = 0xffff800000004000 ∧
    (x.phys.free hhdm₀ 0x4000 1).field hhdm₀ .next 0xffff800000004000 =
      0xffff800000004000 := by
  let start : Clients := ⟨Phys.initPmm hhdm₀ smallMap fun _ => 0, []⟩
  have hrun : (([.alloc 1, .alloc 1, .free 0x4000 1] : List PmmCall).foldlM
      (System.attempt AnyCall (next hhdm₀)) start).map (fun x =>
        decide (Block.mk 0x4000 1 ∉ x.out ∧
          (x.phys.free hhdm₀ 0x4000 1).gRefAlloc ≠ x.phys.gRefAlloc ∧
          (x.phys.free hhdm₀ 0x4000 1).freelistHead = 0xffff800000004000 ∧
          (x.phys.free hhdm₀ 0x4000 1).field hhdm₀ .next
            0xffff800000004000 = 0xffff800000004000)) = some true := by decide +kernel
  obtain ⟨x, hx, htest⟩ := Option.map_eq_some_iff.mp hrun
  have hstart : (anyRuns hhdm₀ smallMap).Reachable start := .init ⟨_, rfl⟩
  exact ⟨x, hstart.foldlM (fun _ _ _ => System.attempt_eq_some) _ hx, of_decide_eq_true htest⟩

end Clients

end TwoKernel
