import Mathlib.Data.List.Induction
import TwoKernel.Laws.Memory.Clients

/-!
# First fit, and its replay

`AllocsFirstFit` is what `alloc` is for: the first block that is long enough, the
remainder in front, and a failure that changes nothing. It holds of every free list
and of every number of pages but one. A request for no pages takes the first block of
the list, whatever its length, and counts as an allocation
(`alloc_firstFit_iff`).

The second half is about allocations that are given back from the last to the first
and made again. They are pushed in front of the free list one by one, so the list
starts with blocks of exactly the lengths that are asked for, in the order in which
they are asked for: first fit takes them off again, and the free list and the counter
are those from before. `replay_stable` says so for any number of rounds.
-/

namespace TwoKernel

variable {hhdm count : Word} {s s' : Phys} {st : Stock hhdm} {b : Block} {l : List Block}
  {memmap : List MemmapEntry} {usable : Set Nat} {a : Arena hhdm usable}

namespace Phys

/-! ## First fit -/

/-- No block of the list will do for the request, or it is for no pages. -/
def Refusable (count : Word) (l : List Block) : Prop := count = 0 ∨ ∀ b ∈ l, b.numPages < count

/-- The answer is the first block that is long enough. It leaves the list, its remainder becomes the
head, and the counter goes up. -/
def TakesFirst (hhdm count : Word) (l : List Block) (s : Phys) : Prop :=
  ∃ (l₁ : List Block) (b : Block) (l₂ : List Block) (s' : Phys),
    l = l₁ ++ b :: l₂ ∧ (∀ c ∈ l₁, c.numPages < count) ∧ count ≤ b.numPages ∧
    s.alloc hhdm count = .ok (b.pa, s') ∧
    s'.Holds hhdm ((if b.numPages = count then []
      else [⟨b.pa + count * 4096, b.numPages - count⟩]) ++ (l₁ ++ l₂)) ∧
    s'.gRefAlloc = s.gRefAlloc + 1

/-- **What `alloc` is for.** -/
structure AllocsFirstFit (hhdm count : Word) (l : List Block) (s : Phys) : Prop where
  refused : Refusable count l → s.alloc hhdm count = .ok (0, s)
  taken : ¬ Refusable count l → TakesFirst hhdm count l s

private theorem remainder_eq (h : count ≤ b.numPages) : b.remainder count =
    if b.numPages = count then [] else [⟨b.pa + count * 4096, b.numPages - count⟩] := by
  unfold Block.remainder
  by_cases heq : b.numPages = count
  · rw [if_pos heq, if_neg (heq ▸ BitVec.lt_irrefl _)]
  · rw [if_neg heq, if_pos (BitVec.lt_of_le_ne h (Ne.symm heq))]
    rfl

private theorem takesFirst_of_fit (h : s.Holds hhdm st.blocks) {r : Block × List Block}
    (hfit : Block.firstFit count st.blocks = some r) : TakesFirst hhdm count st.blocks s := by
  obtain ⟨b, l⟩ := r
  obtain ⟨s', hs', hholds, hcount, -⟩ := (alloc_spec count st h).2 b l hfit
  obtain ⟨l₁, l₂, hst, rfl, hle, hnot⟩ := Block.firstFit_eq_some hfit
  refine ⟨l₁, b, l₂, s', hst, fun c hc => BitVec.not_le.mp (hnot c hc), hle, hs', ?_, hcount⟩
  rw [← remainder_eq hle]
  exact hholds

/-- **`alloc` is first fit, unless it is asked for nothing.** On every free list, a request is served
by the first block that is long enough, and refused without a trace if there is none, exactly if it
is for a page or more, or the list is empty. -/
theorem alloc_firstFit_iff (st : Stock hhdm) (h : s.Holds hhdm st.blocks) (count : Word) :
    AllocsFirstFit hhdm count st.blocks s ↔ count ≠ 0 ∨ st.blocks = [] := by
  constructor
  · intro hfirst
    by_contra hcon
    obtain ⟨hzero, hne⟩ := not_or.mp hcon
    have hzero : count = 0 := not_not.mp hzero
    obtain ⟨b, hb⟩ := List.exists_mem_of_ne_nil _ hne
    have hshort := (alloc_eq_zero_iff count st h).mp (hfirst.refused (.inl hzero)) b hb
    rw [hzero] at hshort
    exact Nat.not_lt_zero _ (BitVec.lt_def.mp hshort)
  · intro hcase
    constructor
    · intro href
      rw [alloc_eq_zero_iff count st h]
      rcases hcase with hne | hnil
      · exact href.resolve_left hne
      · rw [hnil]
        exact fun b hb => absurd hb List.not_mem_nil
    · intro hnot
      obtain ⟨-, hlong⟩ := not_or.mp hnot
      cases hfit : Block.firstFit count st.blocks with
      | none => exact absurd (Block.firstFit_eq_none_iff.mp hfit) hlong
      | some r => exact takesFirst_of_fit h hfit

theorem alloc_firstFit_two :
    AllocsFirstFit hhdm₀ 2 [⟨0x4000, 1⟩, ⟨0x1000, 2⟩] Clients.pageAndPair :=
  (alloc_firstFit_iff (Arena.init Clients.smallMap_ok).stock (initPmm_holds Clients.smallMap_ok _).1
    2).mpr (.inl (by decide))

/-- **A request for nothing is granted.** The answer is the first block, and the counter goes up. -/
theorem alloc_zero_granted : ∃ s', Clients.pageAndPair.alloc hhdm₀ 0 = .ok (0x4000, s') ∧
    s'.gRefAlloc = 1 ∧ Clients.pageAndPair.gRefAlloc = 0 := by
  have hrun : (Clients.pageAndPair.alloc hhdm₀ 0).map (fun r => (r.1, r.2.gRefAlloc)) =
      .ok (0x4000, 1) := by decide +kernel
  obtain ⟨r, hr, hval⟩ := map_ok.mp hrun
  obtain ⟨hpa, hcount⟩ := Prod.mk.inj hval
  exact ⟨r.2, hr.trans (by rw [← hpa]), hcount, rfl⟩

/-! ## Allocations made again -/

/-- Requests one after the other: the answers, and the state after them. -/
def allocAll (hhdm : Word) : List Word → Phys → Outcome (List Word × Phys)
  | [], s => .ok ([], s)
  | count :: counts, s => do
    let r ← s.alloc hhdm count
    let rs ← allocAll hhdm counts r.2
    return (r.1 :: rs.1, rs.2)

/-- Blocks freed one after the other, from the last to the first. -/
def freeAll (hhdm : Word) (l : List Block) (s : Phys) : Phys :=
  l.foldr (fun b s => s.free hhdm b.pa b.numPages) s

/-- What was answered is freed in reverse order, and asked for again. -/
def replay (hhdm : Word) (counts answers : List Word) (s : Phys) : Outcome (List Word × Phys) :=
  (s.freeAll hhdm (List.zipWith Block.mk answers counts)).allocAll hhdm counts

/-- The state after `n` such rounds. -/
def rounds (hhdm : Word) (counts answers : List Word) : Nat → Phys → Outcome Phys
  | 0, s => .ok s
  | n + 1, s => do
    let s ← rounds hhdm counts answers n s
    let r ← s.replay hhdm counts answers
    return r.2

/-- The free list, in memory, and the counter are the same. -/
structure SameFreeList (hhdm : Word) (s s' : Phys) : Prop where
  head : s'.freelistHead = s.freelistHead
  blocks : ∃ l, s.Holds hhdm l ∧ s'.Holds hhdm l
  counter : s'.gRefAlloc = s.gRefAlloc

private theorem ptr_inj {p q : Word} (h : ptr p = ptr q) : p = q := by
  unfold ptr at h
  by_cases hp : p = 0
  · by_cases hq : q = 0
    · exact hp.trans hq.symm
    · rw [if_pos hp, if_neg hq] at h
      cases h
  · by_cases hq : q = 0
    · rw [if_neg hp, if_pos hq] at h
      cases h
    · rw [if_neg hp, if_neg hq] at h
      exact Option.some.inj h

namespace Backs

/-- Two states that back the same allocator state have the same free list. -/
theorem sameFreeList (h : s.Backs hhdm a) (h' : s'.Backs hhdm a) : SameFreeList hhdm s s' where
  head := ptr_inj (h'.holds.chain.head.trans h.holds.chain.head.symm)
  blocks := ⟨a.free, h.holds, h'.holds⟩
  counter := BitVec.eq_of_toNat_eq (h'.count.trans h.count.symm)

/-- A state backs an allocator state by its two lists. -/
theorem congr {a' : Arena hhdm usable} (h : s.Backs hhdm a') (hfree : a'.free = a.free)
    (hlive : a'.live = a.live) : s.Backs hhdm a :=
  ⟨hfree ▸ h.holds, hlive ▸ h.count⟩

/-- Requests that are all granted: the allocations are live, the last one in front. -/
theorem allocAll (counts : List Word) : ∀ {s : Phys} {a : Arena hhdm usable} {ps : List Word},
    s.Backs hhdm a → (∀ c ∈ counts, c ≠ 0) → s.allocAll hhdm counts = .ok (ps, s') →
    (∀ p ∈ ps, p ≠ 0) → ps.length = counts.length ∧ ∃ a' : Arena hhdm usable, s'.Backs hhdm a' ∧
      a'.live = (List.zipWith Block.mk ps counts).reverse ++ a.live := by
  induction counts with
  | nil =>
    intro s a ps h _ hs _
    cases hs
    exact ⟨rfl, a, h, rfl⟩
  | cons count counts ih =>
    intro s a ps h hc hs hp
    obtain ⟨hne, hc⟩ := List.forall_mem_cons.mp hc
    have hpos : 0 < count.toNat := Nat.pos_of_ne_zero fun e => hne (BitVec.eq_of_toNat_eq e)
    obtain ⟨s₁, hs₁, h₁, -⟩ := h.alloc hpos
    rw [Phys.allocAll, hs₁, ok_bind] at hs
    obtain ⟨⟨qs, s₂⟩, hs₂, hs⟩ := bind_ok.mp hs
    cases hs
    obtain ⟨hp₁, hp⟩ := List.forall_mem_cons.mp hp
    obtain ⟨hlen, a', h', hlive⟩ := ih h₁ hc hs₂ hp
    refine ⟨congrArg Nat.succ hlen, a', h', ?_⟩
    rw [hlive, a.alloc_live hpos, if_neg hp₁, List.zipWith_cons_cons, List.reverse_cons,
      List.append_assoc]
    rfl

/-- The allocations that were made last are freed, the last one first. The induction takes that one
off, which is the first to be freed. -/
theorem freeAll (bs : List Block) : ∀ {s : Phys} {a : Arena hhdm usable} {rest : List Block},
    s.Backs hhdm a → a.live = bs.reverse ++ rest →
    ∃ a' : Arena hhdm usable, (s.freeAll hhdm bs).Backs hhdm a' ∧ a'.free = bs ++ a.free ∧
      a'.live = rest := by
  induction bs using List.reverseRecOn with
  | nil =>
    intro s a rest h hlive
    exact ⟨a, h, rfl, hlive⟩
  | append_singleton bs b ih =>
    intro s a rest h hlive
    rw [List.reverse_append, List.reverse_singleton, List.singleton_append] at hlive
    have hb : b ∈ a.live := by
      rw [hlive]
      exact List.mem_cons_self
    have hrest : (a.release b hb).live = bs.reverse ++ rest := by
      show a.live.erase b = _
      rw [hlive, List.cons_append, List.erase_cons_head]
    obtain ⟨a', h', hfree, hlive'⟩ := ih (h.free hb) hrest
    refine ⟨a', ?_, ?_, hlive'⟩
    · unfold Phys.freeAll at h' ⊢
      rw [List.foldr_append]
      exact h'
    · rw [hfree, List.append_assoc]
      rfl

/-- Requests for exactly the blocks in front are answered with them. -/
theorem allocAll_front (bs : List Block) : ∀ {s : Phys} {a : Arena hhdm usable} {l : List Block},
    s.Backs hhdm a → a.free = bs ++ l → (∀ b ∈ bs, 0 < b.numPages.toNat) →
    ∃ (s' : Phys) (a' : Arena hhdm usable),
      s.allocAll hhdm (bs.map (·.numPages)) = .ok (bs.map (·.pa), s') ∧ s'.Backs hhdm a' ∧
        a'.free = l ∧ a'.live = bs.reverse ++ a.live := by
  induction bs with
  | nil =>
    intro s a l h hfree _
    exact ⟨s, a, rfl, h, hfree, rfl⟩
  | cons b bs ih =>
    intro s a l h hfree hpos
    obtain ⟨hb, hpos⟩ := List.forall_mem_cons.mp hpos
    have hfit : Block.firstFit b.numPages a.free = some (b, bs ++ l) := by
      rw [hfree]
      exact if_pos (BitVec.le_refl _)
    obtain ⟨s₁, hs₁, h₁, -⟩ := h.alloc hb
    rw [a.alloc_some hb hfit] at hs₁ h₁
    have hwhole : b.remainder b.numPages = [] := if_neg (BitVec.lt_irrefl _)
    have hfree₁ : (a.carve hfit hb).free = bs ++ l := by
      show b.remainder b.numPages ++ (bs ++ l) = _
      rw [hwhole, List.nil_append]
    obtain ⟨s', a', hs', h', hfree', hlive'⟩ := ih h₁ hfree₁ hpos
    refine ⟨s', a', ?_, h', hfree', ?_⟩
    · rw [List.map_cons, Phys.allocAll, hs₁, ok_bind, hs']
      rfl
    · rw [hlive', List.reverse_cons, List.append_assoc]
      rfl

/-- **One round.** The same answers, and the same allocator state. -/
theorem replay {counts ps : List Word} {rest : List Block} (h : s.Backs hhdm a)
    (hlen : ps.length = counts.length)
    (hlive : a.live = (List.zipWith Block.mk ps counts).reverse ++ rest) :
    ∃ s', s.replay hhdm counts ps = .ok (ps, s') ∧ s'.Backs hhdm a := by
  obtain ⟨a₁, h₁, hfree₁, hlive₁⟩ := h.freeAll _ hlive
  have hpos : ∀ b ∈ List.zipWith Block.mk ps counts, 0 < b.numPages.toNat := by
    intro b hb
    apply a.nonempty
    rw [hlive]
    exact List.mem_append_left _ (List.mem_reverse.mpr hb)
  obtain ⟨s', a₂, hs', h₂, hfree₂, hlive₂⟩ := h₁.allocAll_front _ hfree₁ hpos
  refine ⟨s', ?_, h₂.congr hfree₂ ?_⟩
  · have hcounts : (List.zipWith Block.mk ps counts).map (·.numPages) = counts := by
      have hzip : (List.zip ps counts).map Prod.snd = counts := List.map_snd_zip hlen.ge
      rw [List.zip, List.map_zipWith] at hzip
      rw [List.map_zipWith]
      exact hzip
    have hps : (List.zipWith Block.mk ps counts).map (·.pa) = ps := by
      have hzip : (List.zip ps counts).map Prod.fst = ps := List.map_fst_zip hlen.le
      rw [List.zip, List.map_zipWith] at hzip
      rw [List.map_zipWith]
      exact hzip
    unfold Phys.replay
    rw [hcounts, hps] at hs'
    exact hs'
  · rw [hlive₂, hlive₁, hlive]

end Backs

end Phys

/-- **Allocations made again are the same allocations.** In every state of a run, requests for pages
that were all granted, given back in reverse order and made again are answered the same, and leave
the free list and the counter as they were; and so after any number of such rounds. -/
theorem Clients.replay_stable {x : Clients} {counts ps : List Word} (hm : MemmapOk hhdm memmap)
    (hx : (Clients.runs hhdm memmap).Reachable x) (hc : ∀ c ∈ counts, c ≠ 0)
    (hfirst : x.phys.allocAll hhdm counts = .ok (ps, s)) (hgranted : ∀ p ∈ ps, p ≠ 0) (n : Nat) :
    ∃ s₁, s.rounds hhdm counts ps n = .ok s₁ ∧ s.SameFreeList hhdm s₁ ∧
      ∃ s₂, s₁.replay hhdm counts ps = .ok (ps, s₂) ∧ s.SameFreeList hhdm s₂ := by
  obtain ⟨a₀, h₀, -⟩ := Clients.backed hm hx
  obtain ⟨hlen, a, h, hlive⟩ := h₀.allocAll counts hc hfirst hgranted
  -- every round ends in a state that backs `a`
  have hrounds : ∃ s₁, s.rounds hhdm counts ps n = .ok s₁ ∧ s₁.Backs hhdm a := by
    induction n with
    | zero => exact ⟨s, rfl, h⟩
    | succ n ih =>
      obtain ⟨s₁, hs₁, h₁⟩ := ih
      obtain ⟨s₂, hs₂, h₂⟩ := h₁.replay hlen hlive
      refine ⟨s₂, ?_, h₂⟩
      rw [Phys.rounds, hs₁, ok_bind, hs₂]
      rfl
  obtain ⟨s₁, hs₁, h₁⟩ := hrounds
  obtain ⟨s₂, hs₂, h₂⟩ := h₁.replay hlen hlive
  exact ⟨s₁, hs₁, h.sameFreeList h₁, s₂, hs₂, h.sameFreeList h₂⟩

theorem Clients.replay_stable_twice : ∃ s s₁ : Phys,
    Clients.pageAndPair.allocAll hhdm₀ [1, 1] = .ok ([0x4000, 0x1000], s) ∧
    s.rounds hhdm₀ [1, 1] [0x4000, 0x1000] 2 = .ok s₁ ∧
    s.SameFreeList hhdm₀ s₁ := by
  have hrun : (Clients.pageAndPair.allocAll hhdm₀ [1, 1]).map (·.1) =
      .ok [0x4000, 0x1000] := by decide +kernel
  obtain ⟨⟨ps, s⟩, hs, rfl⟩ := map_ok.mp hrun
  have hx : (Clients.runs hhdm₀ Clients.smallMap).Reachable ⟨Clients.pageAndPair, []⟩ :=
    .init ⟨_, rfl⟩
  have hcounts : ∀ c ∈ ([1, 1] : List Word), c ≠ 0 := by simp
  have hgranted : ∀ p ∈ ([0x4000, 0x1000] : List Word), p ≠ 0 := by simp
  obtain ⟨s₁, hs₁, hsame, -⟩ := Clients.replay_stable Clients.smallMap_ok hx hcounts hs hgranted 2
  exact ⟨s, s₁, hs, hs₁, hsame⟩

end TwoKernel
