import Mathlib.Data.List.Pairwise
import Mathlib.Data.List.Perm.Basic
import Mathlib.Order.Interval.Set.Disjoint
import TwoKernel.Memory.Pmm

/-!
# The page allocator as a list of blocks

What the physical allocator is for: a first-fit allocator over a list of free
blocks, with no memory behind it. A `Block` is a run of pages. `Stock` is a
free list whose blocks do not meet, and `Arena` a stock together with the
blocks handed out, which between them are exactly the pages there are. Both
carry these facts, so an allocator state in which a page is lost or owned twice
cannot be written down.

A block of no pages is allowed: the loader may report an empty entry, and the
allocator then stores a node at its base. So what must not meet are the
footprints, which give an empty block the page its node is in.
-/

namespace TwoKernel

/-- A run of `numPages` pages from `pa` on. -/
structure Block where
  pa : Word
  numPages : Word
  deriving DecidableEq, Repr

namespace Block

/-- The number of the page at `pa`. -/
def start (b : Block) : Nat := b.pa.toNat / 4096

/-- The page numbers of a block. -/
def pages (b : Block) : Set Nat := Set.Ico b.start (b.start + b.numPages.toNat)

/-- The pages of a block, or the page its node is in when it has none. -/
def foot (b : Block) : Set Nat := Set.Ico b.start (b.start + max b.numPages.toNat 1)

/-- A block the allocator can store: page aligned, not at address zero, and reached through the
direct map without wrapping. -/
structure Ok (hhdm : Word) (b : Block) : Prop where
  aligned : b.pa.toNat = 4096 * b.start
  nonzero : 0 < b.start
  reached : hhdm.toNat + b.pa.toNat + max b.numPages.toNat 1 * 4096 ≤ 2 ^ 64

/-- What is left of a block when its first `count` pages are taken. -/
def remainder (count : Word) (b : Block) : List Block :=
  if count < b.numPages then [⟨b.pa + count * pageSize, b.numPages - count⟩] else []

/-- The first block of at least `count` pages, and the others in their order. -/
def firstFit (count : Word) : List Block → Option (Block × List Block)
  | [] => none
  | b :: l =>
    if count ≤ b.numPages then some (b, l)
    else (firstFit count l).map fun r => (r.1, b :: r.2)

/-- Blocks that do not meet. -/
def Apart (l : List Block) : Prop := l.Pairwise fun b c => Disjoint b.foot c.foot

/-! ## Splitting a block -/

variable {hhdm count : Word} {b c : Block} {l l' : List Block}

theorem pages_subset_foot : b.pages ⊆ b.foot :=
  Set.Ico_subset_Ico_right (Nat.add_le_add_left (Nat.le_max_left _ _) _)

theorem start_mem_foot : b.start ∈ b.foot := ⟨le_rfl, by omega⟩

theorem pages_eq_foot (h : 0 < b.numPages.toNat) : b.pages = b.foot := by
  unfold pages foot
  rw [Nat.max_eq_left h]

/-- What is found is the first block that is long enough. -/
theorem firstFit_eq_some (h : firstFit count l = some (b, l')) :
    ∃ l₁ l₂, l = l₁ ++ b :: l₂ ∧ l' = l₁ ++ l₂ ∧ count ≤ b.numPages ∧
      ∀ c ∈ l₁, ¬ count ≤ c.numPages := by
  induction l generalizing l' with
  | nil => cases h
  | cons c l ih =>
    unfold firstFit at h
    by_cases hc : count ≤ c.numPages
    · rw [if_pos hc] at h
      cases h
      exact ⟨[], l, rfl, rfl, hc, by simp⟩
    · rw [if_neg hc] at h
      obtain ⟨⟨d, k⟩, hd, hk⟩ := Option.map_eq_some_iff.mp h
      cases hk
      obtain ⟨l₁, l₂, rfl, rfl, hfit, hnot⟩ := ih hd
      refine ⟨c :: l₁, l₂, rfl, rfl, hfit, ?_⟩
      intro e he
      rcases List.mem_cons.mp he with rfl | he
      · exact hc
      · exact hnot e he

theorem firstFit_eq_none (h : firstFit count l = none) : ∀ c ∈ l, ¬ count ≤ c.numPages := by
  induction l with
  | nil => simp
  | cons c l ih =>
    unfold firstFit at h
    by_cases hc : count ≤ c.numPages
    · rw [if_pos hc] at h
      cases h
    · rw [if_neg hc, Option.map_eq_none_iff] at h
      intro e he
      rcases List.mem_cons.mp he with rfl | he
      · exact hc
      · exact ih h e he

/-- None is found if all are too short. -/
theorem firstFit_eq_none_iff : firstFit count l = none ↔ ∀ b ∈ l, b.numPages < count := by
  constructor
  · intro hnone b hb
    exact BitVec.not_le.mp (firstFit_eq_none hnone b hb)
  · intro hshort
    cases hfit : firstFit count l with
    | none => rfl
    | some r =>
      obtain ⟨b, l'⟩ := r
      obtain ⟨l₁, l₂, rfl, -, hle, -⟩ := firstFit_eq_some hfit
      exact absurd hle (BitVec.not_le.mpr (hshort b (by simp)))

/-- What first fit takes out is one block of the list. -/
theorem firstFit_perm (h : firstFit count l = some (b, l')) : l.Perm (b :: l') := by
  obtain ⟨l₁, l₂, rfl, rfl, -, -⟩ := firstFit_eq_some h
  exact List.perm_middle

/-- Where the remainder of a block starts and how long it is, in numbers that do not wrap. -/
theorem Ok.remainder (hb : b.Ok hhdm) (hc : count.toNat < b.numPages.toNat) :
    (b.pa + count * pageSize).toNat = 4096 * (b.start + count.toNat) ∧
      (b.numPages - count).toNat = b.numPages.toNat - count.toNat := by
  have hr := hb.reached
  have ha := hb.aligned
  rw [Nat.max_eq_left (by omega)] at hr
  constructor
  · have hm : (count * pageSize).toNat = count.toNat * 4096 := by
      rw [BitVec.toNat_mul]
      exact Nat.mod_eq_of_lt (show count.toNat * 4096 < 2 ^ 64 by omega)
    rw [BitVec.toNat_add, hm, Nat.mod_eq_of_lt (by omega)]
    omega
  · rw [BitVec.toNat_sub_of_le (BitVec.le_def.mpr (Nat.le_of_lt hc))]

theorem Ok.pa_ne (hb : b.Ok hhdm) : b.pa ≠ 0 := by
  have ha := hb.aligned
  have hz := hb.nonzero
  intro e
  rw [e] at ha
  have h0 : (0 : Word).toNat = 0 := rfl
  omega

/-- The front of a block is a block. -/
theorem Ok.take (hb : b.Ok hhdm) (hle : count ≤ b.numPages) : (Block.mk b.pa count).Ok hhdm := by
  refine ⟨hb.aligned, hb.nonzero, ?_⟩
  have hmax : max count.toNat 1 ≤ max b.numPages.toNat 1 :=
    max_le_max_right 1 (BitVec.le_def.mp hle)
  exact le_trans (Nat.add_le_add_left (Nat.mul_le_mul_right 4096 hmax) _) hb.reached

/-- The remainder of a block the allocator can store can be stored, and begins `count` pages in. -/
theorem mem_remainder (hb : b.Ok hhdm) (hc : c ∈ b.remainder count) :
    c.Ok hhdm ∧ 0 < c.numPages.toNat ∧ c.start = b.start + count.toNat ∧
      c.start + c.numPages.toNat = b.start + b.numPages.toNat := by
  unfold Block.remainder at hc
  split at hc
  · next hlt =>
    have hlt' : count.toNat < b.numPages.toNat := BitVec.lt_def.mp hlt
    obtain ⟨hpa, hn⟩ := hb.remainder hlt'
    rw [List.mem_singleton] at hc
    subst hc
    have hstart : (Block.mk (b.pa + count * pageSize) (b.numPages - count)).start =
        b.start + count.toNat := by
      unfold start
      rw [hpa]
      unfold start
      omega
    have hr := hb.reached
    have ha := hb.aligned
    refine ⟨⟨?_, ?_, ?_⟩, ?_, hstart, ?_⟩
    · rw [hstart]
      exact hpa
    · rw [hstart]
      have := hb.nonzero
      omega
    · dsimp only
      rw [hpa, hn]
      omega
    · show 0 < (b.numPages - count).toNat
      omega
    · rw [hstart]
      show b.start + count.toNat + (b.numPages - count).toNat = _
      omega
  · cases hc

private theorem apart_remainder : Apart (b.remainder count) := by
  unfold Block.remainder
  split
  · exact List.pairwise_singleton _ _
  · exact List.Pairwise.nil

/-- Taking the first `count` pages of a block leaves two runs that do not meet. -/
theorem apart_split (hb : b.Ok hhdm) (hpos : 0 < count.toNat) :
    Apart (Block.mk b.pa count :: b.remainder count) := by
  apply List.pairwise_cons.mpr
  constructor
  · intro c hc
    obtain ⟨-, -, hstart, -⟩ := mem_remainder hb hc
    rw [Set.disjoint_left]
    rintro p ⟨-, hp⟩ ⟨hp', -⟩
    have hp : p < b.start + max count.toNat 1 := hp
    omega
  · exact apart_remainder

/-- Both parts stay within the block. -/
theorem foot_split_subset (hb : b.Ok hhdm) (hle : count ≤ b.numPages) :
    ∀ c ∈ Block.mk b.pa count :: b.remainder count, c.foot ⊆ b.foot := by
  have hle' : count.toNat ≤ b.numPages.toNat := BitVec.le_def.mp hle
  intro c hc
  rcases List.mem_cons.mp hc with rfl | hc
  · apply Set.Ico_subset_Ico_right
    apply Nat.add_le_add_left
    dsimp only
    omega
  · obtain ⟨-, hn, hstart, hend⟩ := mem_remainder hb hc
    apply Set.Ico_subset_Ico
    · omega
    · omega

/-- The pages of a block are those taken and those of the remainder. -/
theorem pages_split (hb : b.Ok hhdm) (hle : count ≤ b.numPages) (p : Nat) :
    p ∈ b.pages ↔ ∃ c ∈ Block.mk b.pa count :: b.remainder count, p ∈ c.pages := by
  have hle' : count.toNat ≤ b.numPages.toNat := BitVec.le_def.mp hle
  constructor
  · rintro ⟨hlo, hhi⟩
    by_cases hp : p < b.start + count.toNat
    · exact ⟨_, List.mem_cons_self, hlo, hp⟩
    · have hlt : count < b.numPages := BitVec.lt_def.mpr (by omega)
      have hmem : Block.mk (b.pa + count * pageSize) (b.numPages - count) ∈ b.remainder count := by
        unfold Block.remainder
        rw [if_pos hlt]
        exact List.mem_singleton_self _
      obtain ⟨-, -, hstart, hend⟩ := mem_remainder hb hmem
      exact ⟨_, List.mem_cons_of_mem _ hmem, by omega, by omega⟩
  · rintro ⟨c, hc, hlo, hhi⟩
    rcases List.mem_cons.mp hc with rfl | hc
    · have hhi : p < b.start + count.toNat := hhi
      exact ⟨hlo, by omega⟩
    · obtain ⟨-, -, hstart, hend⟩ := mem_remainder hb hc
      exact ⟨by omega, by omega⟩

/-! ## Lists of blocks that do not meet -/

theorem Apart.perm (h : Apart l) (hp : l.Perm l') : Apart l' :=
  (hp.pairwise_iff fun h => h.symm).mp h

/-- Parts of a block that do not meet each other meet no other block either. -/
theorem Apart.refine {k : List Block} (h : Apart (b :: l)) (hk : Apart k)
    (hsub : ∀ c ∈ k, c.foot ⊆ b.foot) : Apart (k ++ l) := by
  obtain ⟨hb, hl⟩ := List.pairwise_cons.mp h
  refine List.pairwise_append.mpr ⟨hk, hl, ?_⟩
  intro c hc d hd
  exact (hb d hd).mono_left (hsub c hc)

theorem Apart.sublist (h : Apart l) (hs : l'.Sublist l) : Apart l' := List.Pairwise.sublist hs h

end Block

/-! ## Free lists -/

/-- A free list: blocks the allocator can store, no two of which meet. -/
structure Stock (hhdm : Word) where
  blocks : List Block
  ok : ∀ b ∈ blocks, b.Ok hhdm
  apart : Block.Apart blocks

namespace Stock

open Block

variable {hhdm count : Word} {b : Block} {l : List Block}

/-- The pages a free list occupies. -/
def pool (st : Stock hhdm) : Set Nat := {p | ∃ b ∈ st.blocks, p ∈ b.foot}

/-- How many pages a free list can hand out. -/
def freePages (st : Stock hhdm) : Nat := (st.blocks.map fun b => b.numPages.toNat).sum

/-- A block put in front. -/
def push (b : Block) (hb : b.Ok hhdm) (st : Stock hhdm) (hd : Disjoint b.foot st.pool) :
    Stock hhdm where
  blocks := b :: st.blocks
  ok := by
    intro c hc
    rcases List.mem_cons.mp hc with rfl | hc
    · exact hb
    · exact st.ok c hc
  apart := by
    refine List.pairwise_cons.mpr ⟨fun c hc => ?_, st.apart⟩
    apply hd.mono_right
    intro p hp
    exact ⟨c, hc, hp⟩

/-- The free list after first fit took `count` pages of `b`. -/
def carve (st : Stock hhdm) (hfit : firstFit count st.blocks = some (b, l)) : Stock hhdm where
  blocks := b.remainder count ++ l
  ok := by
    have hperm := firstFit_perm hfit
    have hb : b.Ok hhdm := st.ok b (hperm.mem_iff.mpr List.mem_cons_self)
    intro c hc
    rcases List.mem_append.mp hc with hc | hc
    · exact (mem_remainder hb hc).1
    · exact st.ok c (hperm.mem_iff.mpr (List.mem_cons_of_mem _ hc))
  apart := by
    have hperm := firstFit_perm hfit
    have hb : b.Ok hhdm := st.ok b (hperm.mem_iff.mpr List.mem_cons_self)
    obtain ⟨l₁, l₂, -, -, hle, -⟩ := firstFit_eq_some hfit
    apply (st.apart.perm hperm).refine
    · exact apart_remainder
    · intro c hc
      exact foot_split_subset hb hle c (List.mem_cons_of_mem _ hc)

theorem mem_of_firstFit (st : Stock hhdm) (hfit : firstFit count st.blocks = some (b, l)) :
    b ∈ st.blocks := (firstFit_perm hfit).mem_iff.mpr List.mem_cons_self

/-- The pages that are taken were free, and are not free any more. -/
theorem carve_pool (st : Stock hhdm) (hfit : firstFit count st.blocks = some (b, l)) :
    (Block.mk b.pa count).pages ⊆ st.pool ∧
      (st.carve hfit).pool ⊆ st.pool \ (Block.mk b.pa count).pages := by
  have hperm := firstFit_perm hfit
  have hb : b.Ok hhdm := st.ok b (st.mem_of_firstFit hfit)
  obtain ⟨l₁, l₂, -, -, hle, -⟩ := firstFit_eq_some hfit
  have hsub := foot_split_subset hb hle
  constructor
  · intro p hp
    exact ⟨b, st.mem_of_firstFit hfit, hsub _ List.mem_cons_self (pages_subset_foot hp)⟩
  · intro p hp
    obtain ⟨c, hc, hpc⟩ := hp
    refine ⟨?_, fun hmem => ?_⟩
    · rcases List.mem_append.mp hc with hc | hc
      · exact ⟨b, st.mem_of_firstFit hfit, hsub c (List.mem_cons_of_mem _ hc) hpc⟩
      · exact ⟨c, hperm.mem_iff.mpr (List.mem_cons_of_mem _ hc), hpc⟩
    · -- a page was taken, so the count is not zero and the parts do not meet
      obtain ⟨hlo, hhi⟩ := hmem
      have hpos : 0 < count.toNat := by
        have hhi : p < b.start + count.toNat := hhi
        have hlo : b.start ≤ p := hlo
        omega
      have hcons := List.pairwise_cons.mp ((st.apart.perm hperm).refine (apart_split hb hpos) hsub)
      exact Set.disjoint_left.mp (hcons.1 c hc) (pages_subset_foot ⟨hlo, hhi⟩) hpc

/-- Carving takes as many pages as were asked for. -/
theorem carve_freePages (st : Stock hhdm) (hfit : firstFit count st.blocks = some (b, l)) :
    (st.carve hfit).freePages + count.toNat = st.freePages := by
  have hperm := firstFit_perm hfit
  obtain ⟨l₁, l₂, -, -, hle, -⟩ := firstFit_eq_some hfit
  have hle' : count.toNat ≤ b.numPages.toNat := BitVec.le_def.mp hle
  have hsum : st.freePages = b.numPages.toNat + (l.map fun b => b.numPages.toNat).sum :=
    (hperm.map _).sum_nat
  have hrem : ((b.remainder count).map fun b => b.numPages.toNat).sum =
      b.numPages.toNat - count.toNat := by
    unfold Block.remainder
    split
    · simp [BitVec.toNat_sub_of_le hle]
    · next hlt =>
      have hge := mt BitVec.lt_def.mpr hlt
      show 0 = _
      omega
  have hcarve : (st.carve hfit).freePages =
      ((b.remainder count).map fun b => b.numPages.toNat).sum +
        (l.map fun b => b.numPages.toNat).sum := by
    show (((b.remainder count) ++ l).map _).sum = _
    rw [List.map_append, List.sum_append]
  omega

/-- A request for one page fails only when there is none. -/
theorem freePages_eq_zero (st : Stock hhdm) (h : firstFit 1 st.blocks = none) :
    st.freePages = 0 := by
  apply List.sum_eq_zero_iff_forall_eq_nat.mpr
  intro n hn
  obtain ⟨b, hb, rfl⟩ := List.mem_map.mp hn
  have hnot := mt BitVec.le_def.mpr (firstFit_eq_none h b hb)
  have hone : (1 : Word).toNat = 1 := rfl
  omega

end Stock

/-! ## The allocator -/

/-- An allocator state over the pages `usable`: what is free, what is handed out, no page in two
blocks, and no page in none. -/
structure Arena (hhdm : Word) (usable : Set Nat) where
  free : List Block
  live : List Block
  ok : ∀ b ∈ free ++ live, b.Ok hhdm
  nonempty : ∀ b ∈ live, 0 < b.numPages.toNat
  apart : Block.Apart (free ++ live)
  covers : ∀ p, p ∈ usable ↔ ∃ b ∈ free ++ live, p ∈ b.pages

namespace Arena

open Block

variable {hhdm count : Word} {usable : Set Nat} {b : Block} {l : List Block}

/-- The free list of an allocator state. -/
def stock (a : Arena hhdm usable) : Stock hhdm where
  blocks := a.free
  ok b hb := a.ok b (List.mem_append_left _ hb)
  apart := a.apart.sublist (List.sublist_append_left _ _)

/-- The blocks before and after `count` pages of `b` are handed out. -/
theorem carve_perm (a : Arena hhdm usable) (hfit : firstFit count a.free = some (b, l)) :
    (a.free ++ a.live).Perm (b :: (l ++ a.live)) ∧
      ((b.remainder count ++ l) ++ (Block.mk b.pa count :: a.live)).Perm
        ((Block.mk b.pa count :: b.remainder count) ++ (l ++ a.live)) := by
  constructor
  · exact (firstFit_perm hfit).append_right a.live
  · rw [List.cons_append, ← List.append_assoc]
    exact List.perm_middle

/-- First fit found `b`: hand out its first `count` pages. -/
def carve (a : Arena hhdm usable) (hfit : firstFit count a.free = some (b, l))
    (hpos : 0 < count.toNat) : Arena hhdm usable where
  free := b.remainder count ++ l
  live := ⟨b.pa, count⟩ :: a.live
  ok := by
    obtain ⟨hold, hnew⟩ := a.carve_perm hfit
    have hb : b.Ok hhdm := a.ok b (hold.mem_iff.mpr List.mem_cons_self)
    obtain ⟨-, -, -, -, hle, -⟩ := firstFit_eq_some hfit
    intro c hc
    rcases List.mem_append.mp (hnew.mem_iff.mp hc) with hc | hc
    · rcases List.mem_cons.mp hc with rfl | hc
      · exact hb.take hle
      · exact (mem_remainder hb hc).1
    · exact a.ok c (hold.mem_iff.mpr (List.mem_cons_of_mem _ hc))
  nonempty := by
    intro c hc
    rcases List.mem_cons.mp hc with rfl | hc
    · exact hpos
    · exact a.nonempty c hc
  apart := by
    obtain ⟨hold, hnew⟩ := a.carve_perm hfit
    have hb : b.Ok hhdm := a.ok b (hold.mem_iff.mpr List.mem_cons_self)
    obtain ⟨-, -, -, -, hle, -⟩ := firstFit_eq_some hfit
    apply Apart.perm _ hnew.symm
    exact (a.apart.perm hold).refine (apart_split hb hpos) (foot_split_subset hb hle)
  covers := by
    obtain ⟨hold, hnew⟩ := a.carve_perm hfit
    have hb : b.Ok hhdm := a.ok b (hold.mem_iff.mpr List.mem_cons_self)
    obtain ⟨-, -, -, -, hle, -⟩ := firstFit_eq_some hfit
    intro p
    have hsplit := pages_split hb hle p
    rw [a.covers p]
    constructor
    · rintro ⟨c, hc, hp⟩
      rcases List.mem_cons.mp (hold.mem_iff.mp hc) with rfl | hc
      · obtain ⟨d, hd, hp⟩ := hsplit.mp hp
        exact ⟨d, hnew.mem_iff.mpr (List.mem_append_left _ hd), hp⟩
      · exact ⟨c, hnew.mem_iff.mpr (List.mem_append_right _ hc), hp⟩
    · rintro ⟨c, hc, hp⟩
      rcases List.mem_append.mp (hnew.mem_iff.mp hc) with hc | hc
      · exact ⟨b, hold.mem_iff.mpr List.mem_cons_self, hsplit.mpr ⟨c, hc, hp⟩⟩
      · exact ⟨c, hold.mem_iff.mpr (List.mem_cons_of_mem _ hc), hp⟩

/-- First-fit allocation of `count` pages: the address, or zero when nothing fits. -/
def alloc (count : Word) (hpos : 0 < count.toNat) (a : Arena hhdm usable) :
    Word × Arena hhdm usable :=
  match hfit : firstFit count a.free with
  | none => (0, a)
  | some (b, _) => (b.pa, a.carve hfit hpos)

theorem alloc_none (a : Arena hhdm usable) (hpos : 0 < count.toNat)
    (h : firstFit count a.free = none) : a.alloc count hpos = (0, a) := by
  unfold alloc
  split
  · rfl
  · next h' => rw [h] at h'; cases h'

theorem alloc_some (a : Arena hhdm usable) (hpos : 0 < count.toNat)
    (h : firstFit count a.free = some (b, l)) : a.alloc count hpos = (b.pa, a.carve h hpos) := by
  unfold alloc
  split
  · next h' => rw [h] at h'; cases h'
  · next h' =>
    have heq := h.symm.trans h'
    cases heq
    rfl

/-- The answer zero hands nothing out; any other answer is handed out with its length. -/
theorem alloc_live (a : Arena hhdm usable) (hpos : 0 < count.toNat) :
    (a.alloc count hpos).2.live =
      if (a.alloc count hpos).1 = 0 then a.live else ⟨(a.alloc count hpos).1, count⟩ :: a.live := by
  cases hfit : firstFit count a.free with
  | none =>
    rw [a.alloc_none hpos hfit]
    exact (if_pos rfl).symm
  | some r =>
    obtain ⟨b, l⟩ := r
    have hb : b.Ok hhdm :=
      a.ok b (List.mem_append_left _ ((firstFit_perm hfit).mem_iff.mpr List.mem_cons_self))
    rw [a.alloc_some hpos hfit]
    exact (if_neg hb.pa_ne).symm

private theorem release_perm (a : Arena hhdm usable) (hb : b ∈ a.live) :
    (b :: a.free ++ a.live.erase b).Perm (a.free ++ a.live) :=
  List.perm_middle.symm.trans ((List.perm_cons_erase hb).symm.append_left a.free)

/-- A block handed out comes back, in front of the free list. -/
def release (b : Block) (a : Arena hhdm usable) (hb : b ∈ a.live) : Arena hhdm usable where
  free := b :: a.free
  live := a.live.erase b
  ok c hc := a.ok c ((a.release_perm hb).mem_iff.mp hc)
  nonempty c hc := a.nonempty c (List.mem_of_mem_erase hc)
  apart := a.apart.perm (a.release_perm hb).symm
  covers p := by
    rw [a.covers p]
    simp only [(a.release_perm hb).mem_iff]

end Arena

end TwoKernel
