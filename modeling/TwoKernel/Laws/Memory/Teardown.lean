import Mathlib.Algebra.Order.BigOperators.Group.List
import Mathlib.Order.Interval.Finset.Nat
import TwoKernel.Laws.Memory.Ledger
import TwoKernel.Lib.Parcels

/-!
# What `free_pagemap` gives back

A user process's address space, from its construction on: runs of pages are taken
from the allocator, written, and mapped in the lower half, each page at one
address. Then the space is freed, and everything it holds should go back to the
allocator: the root, the tables of the lower half and the mapped pages, each once,
with the allocator's counter at the number of allocations still outstanding.

Two things stand in the way. `free_table` goes through the first half of every
table, not only of the root, so whatever is at an index of 256 or more on a lower
level stays. And a run of several pages is one allocation but is given back page
by page, so the counter goes down too far. `givenBack_iff` says that these are the
only two.

`Held` is the invariant of the runs; `Parcels` does the counting.
-/

namespace TwoKernel

open ByteMem Vmm Trie

/-- An address space among the others, the number of allocations that were outstanding before it was
made, and the runs of pages taken since. -/
structure UserSpace extends Spaces where
  dir : PageDirectory
  before : Nat
  taken : List Block

inductive UserCall where
  | alloc (count : Word)
  | map (pa va length flags : Word)
  /-- A byte is written to a page of a run, as when a segment is copied in. -/
  | write (addr : Nat) (value : Byte)

namespace UserSpace

/-- Page `f` is the root or a table of the lower half. -/
def HasTable (x : UserSpace) (f : Nat) : Prop :=
  ∃ p : List (Fin 512), p.length ≤ 3 ∧ Lower p ∧ x.phys.table x.dir.root p = some f

/-- Page `f` is mapped in the lower half. -/
def Maps (x : UserSpace) (f : Nat) : Prop :=
  ∃ v e, index 39 v < 256 ∧ x.phys.walk x.dir.root v = some e ∧ frameOf e = f

def Owns (x : UserSpace) (f : Nat) : Prop := x.HasTable f ∨ x.Maps f

/-- A mapped range lies below `USER_ADDR_END`, and its pages are pages of the runs that are not
mapped yet. -/
def Allowed (x : UserSpace) : UserCall → Prop
  | .alloc count => count ≠ 0
  | .map pa va length flags => pa.toNat % 4096 = 0 ∧ flags &&& paddrMask = 0 ∧
      va.toNat + length.toNat ≤ userAddrEnd.toNat ∧
      ∀ k, k < pages length → (∃ b ∈ x.taken, pa.toNat / 4096 + k ∈ b.pages) ∧
        ¬ x.Maps (pa.toNat / 4096 + k)
  | .write addr _ => ∃ b ∈ x.taken, addr / 4096 ∈ b.pages

def next (hhdm : Word) (x : UserSpace) : UserCall → Outcome UserSpace
  | .alloc count => do
    let r ← x.phys.alloc hhdm count
    return { x with phys := r.2, taken := if r.1 = 0 then x.taken else ⟨r.1, count⟩ :: x.taken }
  | .map pa va length flags => do
    let s ← x.phys.map hhdm x.dir.pml4 pa va length flags
    return { x with phys := s }
  | .write addr value => .ok { x with phys := x.phys.write addr value }

/-- The runs of a space made for a user process, in any state of the kernel's spaces in which the
counter is right. An allocation is at least a page, so allocations and free pages together are fewer
than values of the counter. -/
def runs (hhdm : Word) : System UserSpace UserCall :=
  .guarded
    (fun x => ∃ (y : Spaces) (st : Stock hhdm), (Spaces.runs hhdm).Reachable y ∧
      y.phys.Holds hhdm st.blocks ∧ y.phys.gRefAlloc.toNat = x.before ∧
      x.before + st.freePages < 2 ^ 64 ∧
      y.phys.newSpace hhdm y.kernel true = .ok (x.dir, x.phys) ∧ x.kernel = y.kernel ∧
      x.live = x.dir :: y.live ∧ x.taken = [])
    Allowed (next hhdm)

open Classical in
/-- How many allocations are outstanding once the space has given back what it owns. -/
noncomputable def outstanding (x : UserSpace) : Nat :=
  x.before + (x.taken.filter fun b => ¬ ∀ f ∈ b.pages, x.Owns f).length

/-- **Everything is given back** by `free_pagemap`, and nothing else is touched. -/
structure GivenBack (hhdm : Word) (x : UserSpace) : Prop where
  returned : ∃ (fs : List Nat) (l : List Block), fs.Nodup ∧ (∀ f, f ∈ fs ↔ x.Owns f) ∧
    x.phys.Holds hhdm l ∧
    (x.phys.freePagemap hhdm x.dir).2.Holds hhdm (fs.map (fun f => ⟨framePa f, 1⟩) ++ l)
  upper : ∀ p f, p ≠ [] → p.length ≤ 3 → Upper p → x.phys.table x.dir.root p = some f →
    Set.EqOn (x.phys.freePagemap hhdm x.dir).2.mem x.phys.mem (pageBytes {f})
  count : (x.phys.freePagemap hhdm x.dir).2.gRefAlloc = BitVec.ofNat 64 x.outstanding

/-- Every table and every mapped page of the lower half is at indices below 256 on all levels, and
every mapped page is an allocation of its own. -/
structure Returnable (x : UserSpace) : Prop where
  low : ∀ p : List (Fin 512), p.length ≤ 4 → Lower p → x.phys.table x.dir.root p ≠ none →
    ∀ i ∈ p, i.val < 256
  single : ∀ f, x.Maps f → ∀ b ∈ x.taken, f ∈ b.pages → b.numPages = 1

end UserSpace

/-! ## The invariant -/

/-- The tables a lower half can have. -/
def lowerPlaces (r : Nat) : Set Place := {z | z.1 = r ∧ z.2.length ≤ 3 ∧ Lower z.2}

/-- **The invariant.** The runs are pages of their own; each mapped page is in one of them and mapped
once; and the counter has counted the allocations before, the runs, and the tables. -/
structure Held (hhdm : Word) (x : UserSpace) (st : Stock hhdm) (K r : Nat) (R : List Nat) : Prop where
  coherent : Coherent hhdm x.toSpaces st K (r :: R)
  dir : x.dir = dirOf hhdm r
  nonempty : ∀ b ∈ x.taken, 0 < b.numPages.toNat
  own : ∀ b ∈ x.taken, ∀ f ∈ b.pages, Phys.FrameOk hhdm f ∧ f ∉ st.pool ∧
    f ∉ x.phys.frames (spacePlaces K (r :: R))
  apart : Parcels.Apart Block.pages x.taken
  leaf : ∀ {p j e}, p.length = 3 → Lower p → x.phys.leafAt r p j = some e →
    ∃ b ∈ x.taken, frameOf e ∈ b.pages
  once : ∀ {p j e q k e'}, p.length = 3 → q.length = 3 → Lower p → Lower q →
    x.phys.leafAt r p j = some e → x.phys.leafAt r q k = some e' → frameOf e = frameOf e' →
    p = q ∧ j = k
  count : x.phys.gRefAlloc + BitVec.ofNat 64 (x.phys.missing (lowerPlaces r)).ncard =
    BitVec.ofNat 64 (x.before + x.taken.length + (lowerPlaces r).ncard)
  room : x.before + x.taken.length + (lowerPlaces r).ncard + st.freePages <
    2 ^ 64 + (x.phys.missing (lowerPlaces r)).ncard

variable {hhdm : Word} {s s' : Phys} {st st' : Stock hhdm} {K r n : Nat} {R : List Nat}
  {p q : List (Fin 512)} {i j : Fin 512} {v : Word} {x x' : UserSpace} {f : Nat}

private theorem lowerPlaces_finite (r : Nat) : (lowerPlaces r).Finite :=
  (Phys.treePlaces_finite r).subset fun _ hz => ⟨hz.1, hz.2.1⟩

private theorem lowerPlaces_subset (hr : r ∈ R) : lowerPlaces r ⊆ spacePlaces K R := by
  rintro ⟨r', p⟩ ⟨e, hlen, hlow⟩
  cases e
  exact mem_lower hr hlen hlow

/-- A page table's entry is a link to the page it maps. -/
theorem table_leaf : s.table r (p ++ [j]) = (s.leafAt r p j).map frameOf := by
  unfold Phys.leafAt Phys.table
  rw [descend_concat]
  cases descend s.link r p with
  | none => rfl
  | some t =>
    show s.link t j = (s.leaf t j).map frameOf
    unfold Phys.link Phys.nextFrame Phys.leaf
    split <;> rfl

private theorem lower_concat_iff (hne : p ≠ []) : Lower (p ++ [j]) ↔ Lower p := by
  cases p with
  | nil => exact absurd rfl hne
  | cons i p => exact Iff.rfl

/-- A path of four slots, its last one apart. -/
theorem split_path (hlen : p.length = 4) (hlow : Lower p) :
    ∃ q k, p = q ++ [k] ∧ q.length = 3 ∧ Lower q := by
  have hne : p ≠ [] := by
    rintro rfl
    cases hlen
  refine ⟨p.dropLast, p.getLast hne, (List.dropLast_append_getLast hne).symm, ?_, ?_⟩
  · rw [List.length_dropLast, hlen]
  · rw [← List.dropLast_append_getLast hne] at hlow
    exact lower_of_concat hlow

namespace Held

variable (h : Held hhdm x st K r R)
include h

theorem root : x.dir.root = r := by
  rw [h.dir]
  exact dirOf_root (h.coherent.tables.root (mem_process List.mem_cons_self))

/-- Mapped pages, by the leaf entries of the tree. -/
theorem maps_iff : x.Maps f ↔
    ∃ p j e, p.length = 3 ∧ Lower p ∧ x.phys.leafAt r p j = some e ∧ frameOf e = f := by
  unfold UserSpace.Maps
  rw [h.root]
  constructor
  · rintro ⟨v, e, hv, hw, hf⟩
    rw [Phys.walk_eq] at hw
    exact ⟨tablePath v, slot level12 v, e, rfl, lower_tablePath hv List.prefix_rfl, hw, hf⟩
  · rintro ⟨p, j, e, hlen, hlow, hleaf, hf⟩
    obtain ⟨i, i₁, i₂, rfl⟩ : ∃ i i₁ i₂, p = [i, i₁, i₂] := List.length_eq_three.mp hlen
    obtain ⟨v, hpath, hslot⟩ := Coherent.exists_path i i₁ i₂ j
    refine ⟨v, e, ?_, ?_, hf⟩
    · have hi : slot level39 v = i := (List.cons.inj hpath).1
      have hlow : i.val < 256 := hlow
      rw [← hi] at hlow
      exact hlow
    · rw [Phys.walk_eq, hpath, hslot]
      exact hleaf

/-- What the space owns is at the end of a path through its lower half. -/
theorem owns_iff : x.Owns f ↔ ∃ p, p.length ≤ 4 ∧ Lower p ∧ x.phys.table r p = some f := by
  unfold UserSpace.Owns UserSpace.HasTable
  rw [h.maps_iff, h.root]
  constructor
  · rintro (⟨p, hlen, hlow, hp⟩ | ⟨p, j, e, hlen, hlow, hleaf, hf⟩)
    · exact ⟨p, Nat.le_succ_of_le hlen, hlow, hp⟩
    · have hne : p ≠ [] := by
        rintro rfl
        cases hlen
      refine ⟨p ++ [j], ?_, (lower_concat_iff hne).mpr hlow, ?_⟩
      · rw [List.length_append, hlen]
        exact Nat.le_refl 4
      · rw [table_leaf, hleaf, ← hf]
        rfl
  · rintro ⟨p, hlen, hlow, hp⟩
    by_cases h3 : p.length ≤ 3
    · exact .inl ⟨p, h3, hlow, hp⟩
    · obtain ⟨q, k, rfl, hq, hlq⟩ := split_path (by omega) hlow
      rw [table_leaf] at hp
      obtain ⟨e, he, hf⟩ := Option.map_eq_some_iff.mp hp
      exact .inr ⟨q, k, e, hq, hlq, he, hf⟩

/-- The mapped pages are the space's own. -/
theorem owned : Coherent.Owned hhdm x.phys st (spacePlaces K (r :: R)) r := by
  constructor
  · intro p n hlen hlow hn
    obtain ⟨q, k, rfl, hq, hlq⟩ := split_path hlen hlow
    rw [table_leaf] at hn
    obtain ⟨e, he, rfl⟩ := Option.map_eq_some_iff.mp hn
    obtain ⟨b, hb, hf⟩ := h.leaf hq hlq he
    exact h.own b hb _ hf
  · intro p q n hp hq hlp hlq hn hn'
    obtain ⟨p, j, rfl, hp, hlp⟩ := split_path hp hlp
    obtain ⟨q, k, rfl, hq, hlq⟩ := split_path hq hlq
    rw [table_leaf] at hn hn'
    obtain ⟨e, he, hf⟩ := Option.map_eq_some_iff.mp hn
    obtain ⟨e', he', hf'⟩ := Option.map_eq_some_iff.mp hn'
    obtain ⟨rfl, rfl⟩ := h.once hp hq hlp hlq he he' (hf.trans hf'.symm)
    rfl

/-! ## The steps -/

/-- A step that leaves the tables of all spaces alone and takes the run `b`, or none. -/
theorem keep {taken : List Block} (hst : s'.Stocked hhdm st')
    (hkept : ∀ n ∈ x.phys.frames (spacePlaces K (r :: R)),
      n ∉ st'.pool ∧ ∀ j : Fin 512, s'.pte n j = x.phys.pte n j)
    (hold : ∀ b ∈ x.taken, b ∈ taken) (hnonempty : ∀ b ∈ taken, 0 < b.numPages.toNat)
    (hown : ∀ b ∈ taken, ∀ f ∈ b.pages, Phys.FrameOk hhdm f ∧ f ∉ st'.pool ∧
      f ∉ x.phys.frames (spacePlaces K (r :: R)))
    (hapart : Parcels.Apart Block.pages taken)
    (hcount : s'.gRefAlloc + BitVec.ofNat 64 x.taken.length =
      x.phys.gRefAlloc + BitVec.ofNat 64 taken.length)
    (hroom : taken.length + st'.freePages ≤ x.taken.length + st.freePages) :
    Held hhdm { x with phys := s', taken := taken } st' K r R ∧
      ∀ p, p.length = 3 → Lower p → ∀ j, s'.leafAt r p j = x.phys.leafAt r p j := by
  obtain ⟨ht, htable⟩ := h.coherent.tables.restrict Set.Subset.rfl spacePlaces_closed hst hkept
  obtain ⟨hcoh, hsame⟩ := h.coherent.same (List.Sublist.refl _) hst hkept
  rw [← h.coherent.live] at hcoh
  have hmissing : s'.missing (lowerPlaces r) = x.phys.missing (lowerPlaces r) := by
    ext z
    refine and_congr_right fun hz => ?_
    rw [htable (lowerPlaces_subset List.mem_cons_self hz)]
  have hframes : ∀ n, n ∈ s'.frames (spacePlaces K (r :: R)) →
      n ∈ x.phys.frames (spacePlaces K (r :: R)) := by
    rintro n ⟨r', p, hp, hat⟩
    exact ⟨r', p, hp, (htable hp).symm.trans hat⟩
  have hleaf : ∀ p, p.length = 3 → Lower p → ∀ j, s'.leafAt r p j = x.phys.leafAt r p j :=
    hsame r List.mem_cons_self
  refine ⟨⟨hcoh, h.dir, hnonempty, ?_, hapart, ?_, ?_, ?_, ?_⟩, hleaf⟩
  · intro b hb f hf
    obtain ⟨hok, hpool, hnot⟩ := hown b hb f hf
    exact ⟨hok, hpool, fun hm => hnot (hframes f hm)⟩
  · intro p j e hlen hlow he
    obtain ⟨b, hb, hf⟩ := h.leaf hlen hlow ((hleaf p hlen hlow j).symm.trans he)
    exact ⟨b, hold b hb, hf⟩
  · intro p j e q k e' hp hq hlp hlq he he' hee
    exact h.once hp hq hlp hlq ((hleaf p hp hlp j).symm.trans he)
      ((hleaf q hq hlq k).symm.trans he') hee
  · show s'.gRefAlloc + BitVec.ofNat 64 (s'.missing (lowerPlaces r)).ncard =
      BitVec.ofNat 64 (x.before + taken.length + (lowerPlaces r).ncard)
    have hc := h.count
    rw [hmissing]
    rw [BitVec.ofNat_add, BitVec.ofNat_add] at hc ⊢
    generalize BitVec.ofNat 64 (x.phys.missing (lowerPlaces r)).ncard = m at hc ⊢
    generalize BitVec.ofNat 64 (lowerPlaces r).ncard = c at hc ⊢
    generalize BitVec.ofNat 64 x.before = b at hc ⊢
    generalize BitVec.ofNat 64 x.taken.length = t at hc hcount ⊢
    generalize BitVec.ofNat 64 taken.length = t' at hcount ⊢
    bv_omega
  · have hr := h.room
    show x.before + taken.length + (lowerPlaces r).ncard + st'.freePages <
      2 ^ 64 + (s'.missing (lowerPlaces r)).ncard
    rw [hmissing]
    omega

/-- The tables of all spaces are outside the free pages, so what happens there leaves them alone. -/
theorem kept_of_eqOn (hpool : st'.pool ⊆ st.pool)
    (hmem : Set.EqOn s'.mem x.phys.mem (pageBytes (x.phys.frames (spacePlaces K (r :: R))))) :
    ∀ n ∈ x.phys.frames (spacePlaces K (r :: R)),
      n ∉ st'.pool ∧ ∀ j : Fin 512, s'.pte n j = x.phys.pte n j := by
  intro n hn
  refine ⟨fun hm => ?_, fun j => Phys.pte_congr (hmem.mono ?_) j.isLt⟩
  · obtain ⟨r', p, hp, hat⟩ := hn
    exact h.coherent.tables.forest.used hp hat (hpool hm)
  · intro y hy
    have hy : y / 4096 = n := hy
    show y / 4096 ∈ x.phys.frames _
    rw [hy]
    exact hn

theorem alloc {count a : Word} (hc : count ≠ 0) (hs : x.phys.alloc hhdm count = .ok (a, s')) :
    ∃ st', Held hhdm { x with
      phys := s', taken := if a = 0 then x.taken else ⟨a, count⟩ :: x.taken } st' K r R ∧
      ∀ p, p.length = 3 → Lower p → ∀ j, s'.leafAt r p j = x.phys.leafAt r p j := by
  have hstocked := h.coherent.tables.stocked
  rcases hstocked.alloc count with ⟨-, ha⟩ | ⟨f, s₁, st₁, ha, ht⟩
  · cases hs.symm.trans ha
    exact ⟨st, h, fun _ _ _ _ => rfl⟩
  · cases hs.symm.trans ha
    have hpos : 0 < count.toNat := Nat.pos_of_ne_zero fun e => hc (BitVec.eq_of_toNat_eq e)
    have hlow : f < 2 ^ 52 := by
      have := ht.below
      omega
    have hne : framePa f ≠ 0 := framePa_ne_zero ht.pos hlow
    have hpages : (Block.mk (framePa f) count).pages = Set.Ico f (f + count.toNat) := by
      unfold Block.pages Block.start
      rw [framePa_toNat hlow, Nat.mul_div_cancel_left f (by decide)]
    have hpool : st₁.pool ⊆ st.pool := fun p hp => (ht.rest hp).1
    rw [if_neg hne]
    refine ⟨st₁, h.keep ht.stocked (h.kept_of_eqOn hpool (ht.mem.mono ?_)) ?_ ?_ ?_ ?_ ?_ ?_⟩
    · rintro y ⟨r', p, hp, hat⟩ hy
      exact h.coherent.tables.forest.used hp hat hy
    · exact fun b hb => List.mem_cons_of_mem _ hb
    · exact List.forall_mem_cons.mpr ⟨hpos, h.nonempty⟩
    · refine List.forall_mem_cons.mpr ⟨fun g hg => ?_, fun b hb g hg => ?_⟩
      · rw [hpages] at hg
        refine ⟨hstocked.frameOk (ht.taken hg), fun hm => (ht.rest hm).2 hg, ?_⟩
        rintro ⟨r', p, hp, hat⟩
        exact h.coherent.tables.forest.used hp hat (ht.taken hg)
      · obtain ⟨hok, hfree, htab⟩ := h.own b hb g hg
        exact ⟨hok, fun hm => hfree (hpool hm), htab⟩
    · refine List.pairwise_cons.mpr ⟨fun b hb => ?_, h.apart⟩
      rw [hpages, Set.disjoint_left]
      intro g hg hgb
      exact (h.own b hb g hgb).2.1 (ht.taken hg)
    · rw [Phys.alloc_counted hs hne, List.length_cons, BitVec.ofNat_add, BitVec.add_assoc,
        BitVec.add_comm 1]
      rfl
    · have hcount := ht.count
      rw [List.length_cons]
      omega

theorem write {addr : Nat} {b : Block} (hb : b ∈ x.taken) (haddr : addr / 4096 ∈ b.pages)
    (value : Byte) : Held hhdm { x with phys := x.phys.write addr value } st K r R := by
  obtain ⟨-, hfree, htab⟩ := h.own b hb _ haddr
  have hmem : ∀ P : Set Nat, addr / 4096 ∉ P →
      Set.EqOn (x.phys.write addr value).mem x.phys.mem (pageBytes P) := by
    intro P hP y hy
    refine Function.update_of_ne ?_ _ _
    rintro rfl
    exact hP hy
  have hst : (x.phys.write addr value).Stocked hhdm st :=
    h.coherent.tables.stocked.frame rfl (hmem _ hfree)
  exact (h.keep hst (h.kept_of_eqOn Set.Subset.rfl (hmem _ htab)) (fun _ hb => hb) h.nonempty h.own
    h.apart rfl le_rfl).1

/-- The leaf entries after a range is mapped: those of the range, and those that were there. -/
theorem leaf_of_mapped {pa va length flags : Word} (ha : x.Allowed (.map pa va length flags))
    (hm : Phys.MappedPages (lowerPlaces r) (spacePlaces K (r :: R)) x.phys st r pa va flags
      (pages length) s' st') {e : Word} (hlen : p.length = 3) (hlow : Lower p)
    (he : s'.leafAt r p j = some e) :
    (∃ k, k < pages length ∧ p = tablePath (va + pageOff k) ∧ j = slot level12 (va + pageOff k) ∧
      frameOf e = pa.toNat / 4096 + k) ∨ x.phys.leafAt r p j = some e := by
  obtain ⟨hpa, hflags, -, hpages⟩ := ha
  by_cases hin : ∃ k, k < pages length ∧ p = tablePath (va + pageOff k) ∧
      j = slot level12 (va + pageOff k)
  · obtain ⟨k, hk, rfl, rfl⟩ := hin
    left
    obtain ⟨⟨b, hb, hf⟩, -⟩ := hpages k hk
    have hlow := (h.own b hb _ hf).1.low
    have hent : alignDown (pa + pageOff k) pageSize = framePa (pa.toNat / 4096 + k) :=
      Phys.alignDown_pageOff (by omega)
    rw [hm.here k hk, hent] at he
    split at he
    · cases he
      exact ⟨k, hk, rfl, rfl, frameOf_or hlow hflags⟩
    · cases he
  · right
    rw [← he]
    refine (hm.there (mem_lower List.mem_cons_self (Nat.le_of_eq hlen) hlow) hlen ?_).symm
    intro k hk hpath
    simp only [Prod.mk.injEq, true_and] at hpath
    exact hin ⟨k, hk, hpath.1, hpath.2⟩

theorem map {pa va length flags : Word} (ha : x.Allowed (.map pa va length flags))
    (hs : x.phys.map hhdm x.dir.pml4 pa va length flags = .ok s') :
    ∃ st', Held hhdm { x with phys := s' } st' K r R := by
  have hend : userAddrEnd.toNat = 2 ^ 47 := by decide
  have hva : va.toNat + length.toNat ≤ 2 ^ 47 := hend ▸ ha.2.2.1
  have hX := lowerPlaces_finite r
  have hXp : lowerPlaces r ⊆ spacePlaces K (r :: R) := lowerPlaces_subset List.mem_cons_self
  -- the tables on the way to the range are places of the lower half
  have hplace : ∀ off, off < length → ∀ p, p ≠ [] → p <+: tablePath (va + off) →
      (r, p) ∈ lowerPlaces r := by
    intro off hoff p _ hpre
    have hoff : off.toNat < length.toNat := BitVec.lt_def.mp hoff
    refine ⟨rfl, hpre.length_le, lower_tablePath ?_ hpre⟩
    rw [index_eq level39, BitVec.toNat_add]
    omega
  have hpage : ∀ k, k < pages length → pageOff k < length := by
    intro k hk
    unfold pages at hk
    rw [BitVec.lt_def, pageOff_toNat (by omega)]
    omega
  rw [h.dir] at hs
  obtain ⟨st', hm⟩ := (h.coherent.tables.map hX hXp (by omega)
    (fun k hk => hplace (pageOff k) (hpage k hk)) pa flags).of_ok hs
  have hcounted := h.coherent.tables.map_counted hX hXp hplace hs
  have hnew : ∀ {p j e}, p.length = 3 → Lower p → s'.leafAt r p j = some e → _ :=
    fun hlen hlow he => h.leaf_of_mapped ha hm hlen hlow he
  have hfresh : ∀ k, k < pages length → ¬ x.Maps (pa.toNat / 4096 + k) := fun k hk =>
    (ha.2.2.2 k hk).2
  refine ⟨st', h.coherent.keep hm.tables hm.keeps, h.dir, h.nonempty, ?_, h.apart, ?_, ?_,
    Eq.trans hcounted h.count, ?_⟩
  · intro b hb f hf
    obtain ⟨hok, hfree, htab⟩ := h.own b hb f hf
    refine ⟨hok, fun hp => hfree (hm.keeps.pool hp), fun hf => ?_⟩
    rcases hm.keeps.frames hf with hf | hf
    · exact htab hf
    · exact hfree hf
  · intro p j e hlen hlow he
    rcases hnew hlen hlow he with ⟨k, hk, -, -, hf⟩ | he
    · rw [hf]
      exact (ha.2.2.2 k hk).1
    · exact h.leaf hlen hlow he
  · intro p j e q k e' hp hq hlp hlq he he' hee
    rcases hnew hp hlp he with ⟨a, ha', rfl, rfl, hf⟩ | he
    · rcases hnew hq hlq he' with ⟨b, -, rfl, rfl, hf'⟩ | he'
      · have hab : a = b := by omega
        rw [hab]
        exact ⟨rfl, rfl⟩
      · refine absurd (h.maps_iff.mpr ⟨q, k, e', hq, hlq, he', ?_⟩) (hfresh a ha')
        rw [← hee, hf]
    · rcases hnew hq hlq he' with ⟨b, hb, rfl, rfl, hf'⟩ | he'
      · refine absurd (h.maps_iff.mpr ⟨p, j, e, hp, hlp, he, ?_⟩) (hfresh b hb)
        rw [hee, hf']
      · exact h.once hp hq hlp hlq he he' hee
  · have hr := h.room
    have hpaid := hm.paid
    unfold Phys.Paid at hpaid
    show x.before + x.taken.length + (lowerPlaces r).ncard + st'.freePages <
      2 ^ 64 + (s'.missing (lowerPlaces r)).ncard
    omega

end Held

/-! ## The start of a run -/

/-- Copying entries allocates nothing. -/
theorem processFillKernelEntries_gRefAlloc (kernel d : PageDirectory) :
    (s.processFillKernelEntries hhdm kernel d).gRefAlloc = s.gRefAlloc := by
  unfold Phys.processFillKernelEntries
  generalize List.range' 256 256 = l
  induction l generalizing s with
  | nil => rfl
  | cons k l ih => exact ih

section zero

variable {m : Nat} (hzero : ∀ j : Fin 512, j.val < 256 → s.pte m j = 0)
include hzero

/-- There is no table below an empty lower half. -/
theorem table_none_of_zero (hne : p ≠ []) (hlow : Lower p) : s.table m p = none := by
  cases p with
  | nil => exact absurd rfl hne
  | cons i p =>
    have hlink : s.link m i = none := by
      unfold Phys.link Phys.nextFrame
      rw [hzero i hlow]
      exact if_neg (by decide)
    show (s.link m i).bind _ = none
    rw [hlink]
    rfl

/-- All tables but the root are missing. -/
theorem ncard_missing_of_zero :
    (s.missing (lowerPlaces m)).ncard + 1 = (lowerPlaces m).ncard := by
  have hroot : (m, []) ∈ lowerPlaces m := ⟨rfl, Nat.zero_le _, trivial⟩
  have hset : s.missing (lowerPlaces m) = lowerPlaces m \ {(m, [])} := by
    ext ⟨r, p⟩
    constructor
    · intro hz
      obtain ⟨hz, hempty⟩ := hz
      refine ⟨hz, fun e => ?_⟩
      cases e
      cases hempty
    · intro hz
      obtain ⟨⟨rfl, hlen, hlow⟩, hne⟩ := hz
      refine ⟨⟨rfl, hlen, hlow⟩, table_none_of_zero hzero (fun e => hne ?_) hlow⟩
      have e : p = [] := e
      rw [e]
      rfl
  rw [hset]
  exact Set.ncard_sdiff_singleton_add_one hroot (lowerPlaces_finite m)

end zero

/-- A new space has its root and the tables of its lower half, counted and paid for, and no mapped
page. -/
theorem newSpace_counted {y : Spaces} {d : PageDirectory} (h : Coherent hhdm y st K R)
    (hs : y.phys.newSpace hhdm y.kernel true = .ok (d, s')) :
    ∃ m st', d = dirOf hhdm m ∧ Coherent hhdm ⟨s', y.kernel, d :: y.live⟩ st' K (m :: R) ∧
      s'.gRefAlloc + BitVec.ofNat 64 (s'.missing (lowerPlaces m)).ncard =
        y.phys.gRefAlloc + BitVec.ofNat 64 (lowerPlaces m).ncard ∧
      st'.freePages + (lowerPlaces m).ncard =
        st.freePages + (s'.missing (lowerPlaces m)).ncard ∧
      st'.freePages + 257 = st.freePages ∧
      ∀ p, 2 ≤ p.length → p.length ≤ 3 → Lower p → s'.table m p = none := by
  obtain ⟨m', st₄, hd', hcoh, -⟩ := (h.newSpace true).of_ok hs
  obtain ⟨⟨d₁, s₁⟩, hs₁, hs⟩ := bind_ok.mp hs
  obtain ⟨m, st₁, hd, hnew⟩ := (Coherent.newPagemap h.tables.stocked).of_ok hs₁
  have hd : d₁ = dirOf hhdm m := hd
  obtain ⟨s₃, hs₃, hs⟩ := bind_ok.mp hs
  cases hs
  have hcount₁ : s₁.gRefAlloc = y.phys.gRefAlloc + 1 := Phys.newPagemap_gRefAlloc hs₁
  subst hd
  have hm : m < 2 ^ 52 := Nat.lt_trans (h.tables.stocked.low m hnew.taken) (by decide)
  have hmm : m' = m := by
    have hm' := hcoh.tables.root (mem_process List.mem_cons_self)
    exact (dirOf_root hm').symm.trans ((congrArg PageDirectory.root hd'.symm).trans (dirOf_root hm))
  subst hmm
  -- the kernel half is copied in
  have hcount₂ : (s₁.processFillKernelEntries hhdm y.kernel (dirOf hhdm m')).gRefAlloc =
      s₁.gRefAlloc := processFillKernelEntries_gRefAlloc _ _
  generalize hs₂ : s₁.processFillKernelEntries hhdm y.kernel (dirOf hhdm m') = s₂ at hs₃ hcount₂
  rw [h.kernel] at hs₂
  obtain ⟨h₂, -, hzero⟩ := h.plantCopy hnew hs₂.symm
  have hmissing := ncard_missing_of_zero hzero
  -- and the lower half is filled
  have hmem : m' ∈ m' :: R := List.mem_cons_self
  have hslot : ∀ k ∈ List.range 256, ∀ hk : k < 512, (m', [⟨k, hk⟩]) ∈ lowerPlaces m' :=
    fun k hk _ => ⟨rfl, show 1 ≤ 3 by decide, List.mem_range.mp hk⟩
  have hv : Phys.Tables.Vacant s₂ (spacePlaces K (m' :: R)) m' (List.range 256) :=
    Coherent.vacant_lower hmem hzero
  have ht₂ : s₂.Tables hhdm st₁ (spacePlaces K (m' :: R)) := h₂.tables
  obtain ⟨st₃, h₃, hcounted, hpaid, hsame⟩ := Phys.Tables.fillEntries_counted
    (show (present ||| writeable ||| user) &&& paddrMask = 0 by decide) (by decide)
    (lowerPlaces_finite m') (lowerPlaces_subset hmem) (List.range 256) ht₂ hv hslot hs₃
  obtain ⟨st₅, hfilled⟩ := (Phys.Tables.fillEntries
    (show (present ||| writeable ||| user) &&& paddrMask = 0 by decide) (by decide)
    (List.range 256) ht₂ hv).of_ok hs₃
  have hblocks₃ := h₃.stocked.holds.freePages_eq hcoh.tables.stocked.holds
  have hblocks₅ := hfilled.tables.stocked.holds.freePages_eq hcoh.tables.stocked.holds
  have hfill := hfilled.count
  rw [List.length_range] at hfill
  have hcount := hnew.count
  unfold Phys.Paid at hpaid
  unfold Phys.Counted at hcounted
  refine ⟨m', st₄, rfl, hcoh, ?_, by omega, by omega, ?_⟩
  · rw [hcounted, hcount₂, hcount₁, ← hmissing, BitVec.ofNat_add, BitVec.add_assoc,
      BitVec.add_comm 1]
    rfl
  · intro p hlo hlen hlow
    rw [hsame (lowerPlaces_subset hmem ⟨rfl, hlen, hlow⟩) hlo]
    refine table_none_of_zero hzero ?_ hlow
    rintro rfl
    exact absurd hlo (by decide)

theorem Held.start {y : Spaces} {d : PageDirectory} (h : Coherent hhdm y st K R)
    (hroom : y.phys.gRefAlloc.toNat + st.freePages < 2 ^ 64)
    (hs : y.phys.newSpace hhdm y.kernel true = .ok (d, s')) :
    ∃ st' m, Held hhdm ⟨⟨s', y.kernel, d :: y.live⟩, d, y.phys.gRefAlloc.toNat, []⟩ st' K m R ∧
      st'.freePages + 257 = st.freePages ∧
      ∀ p, 2 ≤ p.length → p.length ≤ 3 → Lower p → s'.table m p = none := by
  obtain ⟨m, st', hd, hcoh, hcount, hpaid, hfree, hnone⟩ := newSpace_counted h hs
  have hleaf : ∀ p : List (Fin 512), p.length = 3 → Lower p → ∀ j, s'.leafAt m p j = none := by
    intro p hlen hlow j
    unfold Phys.leafAt
    rw [hnone p (by omega) (by omega) hlow]
    rfl
  refine ⟨st', m, ⟨hcoh, hd, by simp, by simp, List.Pairwise.nil, ?_, ?_, ?_, ?_⟩, hfree, hnone⟩
  · intro p j e hlen hlow he
    rw [hleaf p hlen hlow j] at he
    cases he
  · intro p j e q k e' hp _ hlp _ he
    rw [hleaf p hp hlp j] at he
    cases he
  · show s'.gRefAlloc + BitVec.ofNat 64 (s'.missing (lowerPlaces m)).ncard =
      BitVec.ofNat 64 (y.phys.gRefAlloc.toNat + 0 + (lowerPlaces m).ncard)
    rw [hcount, Nat.add_zero, BitVec.ofNat_add, BitVec.ofNat_toNat, BitVec.setWidth_eq]
  · show y.phys.gRefAlloc.toNat + 0 + (lowerPlaces m).ncard + st'.freePages <
      2 ^ 64 + (s'.missing (lowerPlaces m)).ncard
    omega

namespace UserSpace

theorem held (h : (runs hhdm).Reachable x) : ∃ st K r R, Held hhdm x st K r R := by
  refine System.Reachable.invariant (I := fun x => ∃ st K r R, Held hhdm x st K r R) ?_ ?_ h
  · rintro ⟨⟨s, kernel, live⟩, d, before, taken⟩ ⟨y, st₀, hy, hl₀, hg, hroom, hs, hk, hl, ht⟩
    obtain rfl : kernel = y.kernel := hk
    obtain rfl : live = d :: y.live := hl
    obtain rfl : y.phys.gRefAlloc.toNat = before := hg
    obtain rfl : taken = [] := ht
    obtain ⟨st, K, R, hcoh⟩ := Spaces.coherent hy
    have hst : st₀.freePages = st.freePages := hl₀.freePages_eq hcoh.tables.stocked.holds
    obtain ⟨st', m, h', -⟩ := Held.start hcoh (hst ▸ hroom) hs
    exact ⟨st', K, m, R, h'⟩
  · rintro x c x' ⟨st, K, r, R, hx⟩ ⟨hc, hs⟩
    cases c with
    | alloc count =>
      obtain ⟨⟨a, s'⟩, ha, hs⟩ := bind_ok.mp hs
      cases hs
      obtain ⟨st', h', -⟩ := hx.alloc hc ha
      exact ⟨st', K, r, R, h'⟩
    | map pa va length flags =>
      obtain ⟨s', hm, hs⟩ := bind_ok.mp hs
      cases hs
      obtain ⟨st', h'⟩ := hx.map hc hm
      exact ⟨st', K, r, R, h'⟩
    | write addr value =>
      cases hs
      obtain ⟨b, hb, haddr⟩ := hc
      exact ⟨st, K, r, R, hx.write hb haddr value⟩

end UserSpace

/-! ## Counting -/

/-- A list without repetitions is as long as the set of its members is large. -/
theorem ncard_of_nodup {l : List Nat} (hnd : l.Nodup) : {f | f ∈ l}.ncard = l.length := by
  rw [← List.coe_toFinset, Set.ncard_coe_finset, List.toFinset_card_of_nodup hnd]

private theorem Block.ncard_pages (b : Block) : b.pages.ncard = b.numPages.toNat := by
  unfold Block.pages
  rw [← Finset.coe_Ico, Set.ncard_coe_finset, Nat.card_Ico, Nat.add_sub_cancel_left]

namespace Held

variable (h : Held hhdm x st K r R)
include h

/-- The tables there are and the tables that are missing. -/
theorem tables_ncard : {f | x.HasTable f}.ncard + (x.phys.missing (lowerPlaces r)).ncard =
    (lowerPlaces r).ncard := by
  have hsub : x.phys.missing (lowerPlaces r) ⊆ lowerPlaces r := fun _ hz => hz.1
  let page : Place → Nat := fun z => (x.phys.table z.1 z.2).getD 0
  have hpage : ∀ z ∈ lowerPlaces r \ x.phys.missing (lowerPlaces r),
      x.phys.table z.1 z.2 = some (page z) := by
    rintro z ⟨hz, hnot⟩
    have hne : x.phys.table z.1 z.2 ≠ none := fun e => hnot ⟨hz, e⟩
    obtain ⟨n, hn⟩ := Option.ne_none_iff_exists'.mp hne
    show _ = some ((x.phys.table z.1 z.2).getD 0)
    rw [hn]
    rfl
  have hinj : Set.InjOn page (lowerPlaces r \ x.phys.missing (lowerPlaces r)) := by
    intro z hz w hw e
    have hwz : x.phys.table w.1 w.2 = some (page z) := by rw [hpage w hw, e]
    have hplace := fun z hz => lowerPlaces_subset (K := K) (R := r :: R) List.mem_cons_self
      (a := z) hz
    obtain ⟨h₁, h₂⟩ := h.coherent.tables.forest.sole (hplace z hz.1) (hplace w hw.1) (hpage z hz) hwz
    exact Prod.ext h₁ h₂
  have himage : {f | x.HasTable f} =
      page '' (lowerPlaces r \ x.phys.missing (lowerPlaces r)) := by
    ext f
    constructor
    · rintro ⟨p, hlen, hlow, hp⟩
      rw [h.root] at hp
      refine ⟨(r, p), ⟨⟨rfl, hlen, hlow⟩, fun hm => ?_⟩, ?_⟩
      · have hnone : x.phys.table r p = none := hm.2
        rw [hnone] at hp
        cases hp
      · show (x.phys.table r p).getD 0 = f
        rw [hp]
        rfl
    · rintro ⟨⟨r', p⟩, hz, rfl⟩
      obtain ⟨rfl, hlen, hlow⟩ := hz.1
      refine ⟨p, hlen, hlow, ?_⟩
      rw [h.root]
      exact hpage (r', p) hz
  rw [himage, Set.InjOn.ncard_image hinj]
  exact Set.ncard_sdiff_add_ncard_of_subset hsub (lowerPlaces_finite r)

/-- The counter, in numbers that do not wrap. -/
theorem counter : x.phys.gRefAlloc.toNat =
    x.before + x.taken.length + {f | x.HasTable f}.ncard := by
  have hcard := h.tables_ncard
  have hc := h.count
  have hroom := h.room
  rw [← hcard, ← Nat.add_assoc, BitVec.ofNat_add] at hc
  have hg := (BitVec.add_left_inj _).mp hc
  rw [hg, BitVec.toNat_ofNat, Nat.mod_eq_of_lt (by omega)]

/-- A mapped page is a page of a run, and no table. -/
theorem mapped (hf : x.Maps f) : (∃ b ∈ x.taken, f ∈ b.pages) ∧ ¬ x.HasTable f := by
  obtain ⟨p, j, e, hlen, hlow, he, rfl⟩ := h.maps_iff.mp hf
  obtain ⟨b, hb, hfb⟩ := h.leaf hlen hlow he
  refine ⟨⟨b, hb, hfb⟩, ?_⟩
  rintro ⟨q, hq, hlq, hat⟩
  rw [h.root] at hat
  exact (h.own b hb _ hfb).2.2 ⟨r, q, mem_lower List.mem_cons_self hq hlq, hat⟩

private theorem mapped_finite : {f | x.Maps f}.Finite :=
  Parcels.finite_of_cover (l := x.taken) (f := Block.pages) (fun _ _ => Set.finite_Ico _ _)
    fun _ hf => (h.mapped hf).1

private theorem owned_ncard : {f | x.Owns f}.ncard = {f | x.HasTable f}.ncard + {f | x.Maps f}.ncard := by
  have hfin : {f | x.HasTable f}.Finite := by
    refine ((lowerPlaces_finite r).image fun z => (x.phys.table z.1 z.2).getD 0).subset ?_
    rintro f ⟨p, hlen, hlow, hp⟩
    rw [h.root] at hp
    refine ⟨(r, p), ⟨rfl, hlen, hlow⟩, ?_⟩
    show (x.phys.table r p).getD 0 = f
    rw [hp]
    rfl
  have hdis : Disjoint {f | x.HasTable f} {f | x.Maps f} := by
    rw [Set.disjoint_left]
    exact fun f ht hm => (h.mapped hm).2 ht
  exact Set.ncard_union_eq hdis hfin h.mapped_finite

open Classical in
/-- **The runs that are wholly mapped** are as many as the pages that are mapped exactly if every
mapped page is an allocation of its own; and the others are still outstanding. -/
theorem outstanding_iff :
    (∃ whole, x.outstanding + whole = x.before + x.taken.length ∧
      whole ≤ {f | x.Maps f}.ncard ∧ ({f | x.Maps f}.ncard = whole ↔
        ∀ f, x.Maps f → ∀ b ∈ x.taken, f ∈ b.pages → b.numPages = 1)) := by
  have hne : ∀ b ∈ x.taken, b.pages.Nonempty := fun b hb =>
    ⟨b.start, le_rfl, Nat.lt_add_of_pos_right (h.nonempty b hb)⟩
  obtain ⟨hle, hiff⟩ := Parcels.ncard_eq_length_filter_iff (f := Block.pages) x.taken
    {f | x.Maps f} (fun b _ => Set.finite_Ico _ _) hne h.apart fun f hf => (h.mapped hf).1
  -- a page of a run is no table, so the space owns it if it is mapped
  have howns : ∀ b ∈ x.taken, (∀ f ∈ b.pages, x.Owns f) ↔ b.pages ⊆ {f | x.Maps f} := by
    intro b hb
    refine forall₂_congr fun f hf => ⟨fun ho => ho.resolve_left ?_, .inr⟩
    rintro ⟨q, hq, hlq, hat⟩
    rw [h.root] at hat
    exact (h.own b hb f hf).2.2 ⟨r, q, mem_lower List.mem_cons_self hq hlq, hat⟩
  refine ⟨(x.taken.filter fun b => b.pages ⊆ {f | x.Maps f}).length, ?_, hle, hiff.trans ?_⟩
  · have hfilter : (x.taken.filter fun b => ¬ ∀ f ∈ b.pages, x.Owns f) =
        x.taken.filter fun b => !decide (b.pages ⊆ {f | x.Maps f}) :=
      List.filter_congr fun b hb => by
        rw [decide_not]
        exact congrArg (! ·) (decide_eq_decide.mpr (howns b hb))
    unfold UserSpace.outstanding
    rw [hfilter]
    have hsplit := List.length_eq_length_filter_add (l := x.taken)
      fun b => decide (b.pages ⊆ {f | x.Maps f})
    omega
  · constructor
    · intro hs f hf b hb hfb
      apply BitVec.eq_of_toNat_eq
      rw [← b.ncard_pages]
      exact hs b hb ⟨f, hfb, hf⟩
    · rintro hs b hb ⟨f, hfb, hf⟩
      rw [b.ncard_pages, hs f hf b hb hfb]
      rfl

/-! ## Both directions -/

/-- What `free_pagemap` does to the allocator and to memory. -/
theorem freePagemap : ∃ st', (x.phys.freePagemap hhdm x.dir).2.Stocked hhdm st' ∧
    (x.phys.freePagemap hhdm x.dir).2.till st' =
      (x.phys.freed 4 r ++ [r]).foldl Phys.Till.giveBack (x.phys.till st) ∧
    Set.EqOn (x.phys.freePagemap hhdm x.dir).2.mem x.phys.mem
      (Phys.listBytes (r :: x.phys.freed 4 r))ᶜ := by
  rw [h.dir]
  exact h.coherent.freePagemap_till List.mem_cons_self h.owned

/-- The pages that are given back are those on paths through the first halves. -/
theorem mem_given : f ∈ x.phys.freed 4 r ++ [r] ↔
    ∃ p, Phys.LowPath 4 p ∧ x.phys.table r p = some f := by
  rw [List.mem_append, List.mem_singleton]
  constructor
  · rintro (hf | rfl)
    · obtain ⟨p, -, hlow, hat⟩ := Phys.mem_freed 4 r hf
      exact ⟨p, hlow, hat⟩
    · exact ⟨[], Phys.lowPath_nil 4, rfl⟩
  · rintro ⟨p, hlow, hat⟩
    by_cases hp : p = []
    · subst hp
      exact .inr (Option.some.inj hat).symm
    · exact .inl (Phys.freed_of_path 4 r p hp hlow hat)

private theorem given_nodup : (x.phys.freed 4 r ++ [r]).Nodup :=
  (List.perm_append_singleton _ _).nodup_iff.mpr
    (h.coherent.freeable List.mem_cons_self h.owned).nodup

/-- The upper half is never touched: its tables are the kernel's. -/
theorem upper (hne : p ≠ []) (hlen : p.length ≤ 3) (hup : Upper p)
    (hp : x.phys.table x.dir.root p = some f) :
    Set.EqOn (x.phys.freePagemap hhdm x.dir).2.mem x.phys.mem (pageBytes {f}) := by
  obtain ⟨st', -, -, hmem⟩ := h.freePagemap
  rw [h.root] at hp
  have hK : x.phys.table K p = some f := by
    cases p with
    | nil => exact absurd rfl hne
    | cons i p =>
      have hpte := h.coherent.shared r List.mem_cons_self i hup
      have hlink : x.phys.link K i = x.phys.link r i := by
        unfold Phys.link Phys.nextFrame
        rw [hpte]
      show (x.phys.link K i).bind _ = some f
      rw [hlink]
      exact hp
  have hnot := h.coherent.not_freed List.mem_cons_self h.owned (n := K)
    ⟨hlen, .inl ⟨rfl, hup⟩⟩ (h.coherent.ne_kernel List.mem_cons_self).symm hK
  refine hmem.mono ?_
  intro y hy hyl
  have hy : y / 4096 = f := hy
  exact hnot (hy ▸ hyl)

theorem givenBack (hx : x.Returnable) : x.GivenBack hhdm := by
  obtain ⟨st', hst', htill, -⟩ := h.freePagemap
  have howns : ∀ f, f ∈ x.phys.freed 4 r ++ [r] ↔ x.Owns f := by
    intro f
    rw [h.mem_given, h.owns_iff]
    constructor
    · rintro ⟨p, hlow, hat⟩
      exact ⟨p, hlow.1, Coherent.lower_of_lowPath hlow, hat⟩
    · rintro ⟨p, hlen, hlow, hat⟩
      refine ⟨p, ⟨hlen, hx.low p hlen hlow ?_⟩, hat⟩
      rw [h.root, hat]
      exact Option.some_ne_none _
  have hlen : (x.phys.freed 4 r ++ [r]).length =
      {f | x.HasTable f}.ncard + {f | x.Maps f}.ncard := by
    rw [← h.owned_ncard, ← ncard_of_nodup h.given_nodup]
    exact congrArg Set.ncard (Set.ext howns)
  obtain ⟨whole, hout, -, hiff⟩ := h.outstanding_iff
  have hmaps := hiff.mpr hx.single
  have hcounter := h.counter
  rw [Phys.Till.giveBack_all _ _ (show _ ≤ x.phys.gRefAlloc.toNat by omega)] at htill
  have hblocks : st'.blocks = _ := congrArg Phys.Till.blocks htill
  have hcount : (x.phys.freePagemap hhdm x.dir).2.gRefAlloc = _ := congrArg Phys.Till.count htill
  refine ⟨⟨(x.phys.freed 4 r ++ [r]).reverse, st.blocks, List.nodup_reverse.mpr h.given_nodup, ?_,
    h.coherent.tables.stocked.holds, ?_⟩, fun p f hne hlen hup hp => h.upper hne hlen hup hp, ?_⟩
  · intro f
    rw [List.mem_reverse]
    exact howns f
  · rw [List.map_reverse]
    have hholds := hst'.holds
    rw [hblocks] at hholds
    exact hholds
  · have hg : x.phys.gRefAlloc =
        BitVec.ofNat 64 (x.outstanding + (x.phys.freed 4 r ++ [r]).length) := by
      apply BitVec.eq_of_toNat_eq
      have hlt := x.phys.gRefAlloc.isLt
      rw [BitVec.toNat_ofNat, Nat.mod_eq_of_lt (by omega)]
      omega
    rw [hcount]
    show x.phys.gRefAlloc - _ = _
    rw [hg, BitVec.ofNat_add, BitVec.add_sub_cancel]

/-- If what the space owns is what was given back, all of it is on paths that are gone through. -/
theorem lowPath_of_given {fs : List Nat} (hmem : ∀ f, f ∈ fs ↔ x.Owns f)
    (hblocks : fs.map (fun f => Block.mk (framePa f) 1) ++ st.blocks =
      ((x.phys.freed 4 r ++ [r]).foldl Phys.Till.giveBack (x.phys.till st)).blocks)
    (hlen : p.length ≤ 4) (hlow : Lower p) (hat : x.phys.table r p = some f) :
    Phys.LowPath 4 p := by
  obtain ⟨hpool, hok⟩ := h.coherent.path_ok List.mem_cons_self h.owned hlen hlow hat
  have hf : f ∈ fs := (hmem f).mpr (h.owns_iff.mpr ⟨p, hlen, hlow, hat⟩)
  have hb : Block.mk (framePa f) 1 ∈
      ((x.phys.freed 4 r ++ [r]).foldl Phys.Till.giveBack (x.phys.till st)).blocks := by
    rw [← hblocks]
    exact List.mem_append_left _ (List.mem_map_of_mem hf)
  rcases Phys.Till.mem_giveBack _ _ hb with hb | ⟨g, hg, he⟩
  · refine absurd ⟨_, hb, ?_⟩ hpool
    rw [hok.foot]
    rfl
  · obtain ⟨q, hlq, hq⟩ := h.mem_given.mp hg
    have hgok := (h.coherent.path_ok List.mem_cons_self h.owned hlq.1
      (Coherent.lower_of_lowPath hlq) hq).2
    have hfg : f = g := by
      have hpa := hok.pa_toNat
      rw [(Block.mk.inj he).1, hgok.pa_toNat] at hpa
      omega
    subst hfg
    have hpq : q = p := h.coherent.path_inj List.mem_cons_self h.owned hlq.1 hlen
      (Coherent.lower_of_lowPath hlq) hlow hq hat
    exact hpq ▸ hlq

private theorem returnable (hx : x.GivenBack hhdm) : x.Returnable := by
  obtain ⟨st', hst', htill, -⟩ := h.freePagemap
  obtain ⟨fs, l, hnd, hmem, hl, hholds⟩ := hx.returned
  obtain rfl : l = st.blocks := hl.unique h.coherent.tables.stocked.holds
  have hblocks : fs.map (fun f => Block.mk (framePa f) 1) ++ st.blocks =
      ((x.phys.freed 4 r ++ [r]).foldl Phys.Till.giveBack (x.phys.till st)).blocks :=
    (hholds.unique hst'.holds).trans (congrArg Phys.Till.blocks htill)
  have hgiven : ∀ f, f ∈ x.phys.freed 4 r ++ [r] ↔ f ∈ fs := by
    intro f
    rw [h.mem_given, hmem, h.owns_iff]
    constructor
    · rintro ⟨p, hlp, hat⟩
      exact ⟨p, hlp.1, Coherent.lower_of_lowPath hlp, hat⟩
    · rintro ⟨p, hlen, hlp, hat⟩
      exact ⟨p, h.lowPath_of_given hmem hblocks hlen hlp hat, hat⟩
  have hlen : (x.phys.freed 4 r ++ [r]).length = fs.length := by
    rw [← ncard_of_nodup h.given_nodup, ← ncard_of_nodup hnd]
    exact congrArg Set.ncard (Set.ext hgiven)
  have hfs : fs.length = {f | x.HasTable f}.ncard + {f | x.Maps f}.ncard := by
    rw [← h.owned_ncard, ← ncard_of_nodup hnd]
    exact congrArg Set.ncard (Set.ext hmem)
  -- none was refused, so the counter went down by all of them
  have hall : (x.phys.freed 4 r ++ [r]).length ≤ x.phys.gRefAlloc.toNat := by
    have hle := Phys.Till.giveBack_length (x.phys.freed 4 r ++ [r]) (x.phys.till st)
    rw [← hblocks, List.length_append, List.length_map] at hle
    have hle : fs.length + st.blocks.length ≤ x.phys.gRefAlloc.toNat + st.blocks.length := hle
    omega
  rw [Phys.Till.giveBack_all _ _ hall] at htill
  have hcount : (x.phys.freePagemap hhdm x.dir).2.gRefAlloc =
      x.phys.gRefAlloc - BitVec.ofNat 64 (x.phys.freed 4 r ++ [r]).length :=
    congrArg Phys.Till.count htill
  obtain ⟨whole, hout, hle, hiff⟩ := h.outstanding_iff
  have hcounter := h.counter
  have hg := hcount.symm.trans hx.count
  have hglt := x.phys.gRefAlloc.isLt
  have hlt : (x.phys.freed 4 r ++ [r]).length < 2 ^ 64 := by omega
  have hsub : (x.phys.gRefAlloc - BitVec.ofNat 64 (x.phys.freed 4 r ++ [r]).length).toNat =
      x.phys.gRefAlloc.toNat - (x.phys.freed 4 r ++ [r]).length := by
    have hof : (BitVec.ofNat 64 (x.phys.freed 4 r ++ [r]).length).toNat =
        (x.phys.freed 4 r ++ [r]).length := by
      rw [BitVec.toNat_ofNat, Nat.mod_eq_of_lt hlt]
    rw [BitVec.toNat_sub_of_le (BitVec.le_def.mpr (by rw [hof]; exact hall)), hof]
  rw [hg, BitVec.toNat_ofNat, Nat.mod_eq_of_lt (by omega)] at hsub
  refine ⟨fun p hp hlp hat => ?_, hiff.mp (by omega)⟩
  rw [h.root] at hat
  obtain ⟨f, hf⟩ := Option.ne_none_iff_exists'.mp hat
  exact (h.lowPath_of_given hmem hblocks hp hlp hf).2

end Held

/-- **What `free_pagemap` gives back.** In every state of a run, freeing the space gives everything
back if and only if every table and every mapped page of the lower half is at indices below 256 on
all levels, and every mapped page is an allocation of its own. -/
theorem UserSpace.givenBack_iff (h : (UserSpace.runs hhdm).Reachable x) :
    x.GivenBack hhdm ↔ x.Returnable := by
  obtain ⟨st, K, r, R, hx⟩ := UserSpace.held h
  exact ⟨hx.returnable, hx.givenBack⟩

namespace UserSpace

/-- A space on a machine with a thousand pages, just made. -/
theorem exists_fresh : ∃ x st K r R, (runs hhdm₀).Reachable x ∧
    Held hhdm₀ x st K r R ∧ st.freePages = 486 ∧ x.taken = [] ∧
    ∀ p, 2 ≤ p.length → p.length ≤ 3 → Lower p → x.phys.table r p = none := by
  have hst := Spaces.oneRegion_stocked fun _ => 0
  have hfree : (Arena.init Spaces.oneRegion_ok).stock.freePages = 1000 := by decide
  obtain ⟨⟨d, s⟩, hs, K, st, h, hcount⟩ := (Coherent.newKernelSpace hst).exists_ok (by omega)
  have hgref : s.gRefAlloc = 257 := by
    obtain ⟨⟨d₁, s₁⟩, hs₁, hs⟩ := bind_ok.mp hs
    obtain ⟨s₂, hs₂, hs⟩ := bind_ok.mp hs
    cases hs
    have hroot : s₁.gRefAlloc = 0 + 1 := Phys.newPagemap_gRefAlloc hs₁
    rw [Phys.fillEntries_gRefAlloc _ hs₂, hroot, List.length_range']
    rfl
  have hroom : s.gRefAlloc.toNat + st.freePages < 2 ^ 64 := by
    have h257 : s.gRefAlloc.toNat = 257 := congrArg BitVec.toNat hgref
    omega
  obtain ⟨⟨d', s'⟩, hs', -⟩ := (h.newSpace true).exists_ok (by omega)
  obtain ⟨st', m, hheld, hcount', hnone⟩ := Held.start h hroom hs'
  refine ⟨_, st', K, m, [], .init ⟨⟨s, d, []⟩, st, .init ⟨rfl, _, _, hst, hs⟩,
    h.tables.stocked.holds, rfl, hroom, hs', rfl, rfl, rfl⟩, hheld, by omega, rfl, hnone⟩

/-- The same space with one page allocated. -/
theorem exists_onePage : ∃ x st K r R f, (runs hhdm₀).Reachable x ∧
    Held hhdm₀ x st K r R ∧ st.freePages = 485 ∧ f < 2 ^ 36 ∧
    x.taken = [⟨framePa f, 1⟩] ∧
    ∀ p, 2 ≤ p.length → p.length ≤ 3 → Lower p → x.phys.table r p = none := by
  obtain ⟨x, st, K, r, R, hx, h, hfree, htaken, hnone⟩ := exists_fresh
  rcases h.coherent.tables.stocked.alloc 1 with ⟨hfull, -⟩ | ⟨f, s₁, st₁, ha, ht⟩
  · exact absurd (st.freePages_eq_zero hfull) (by omega)
  have hlow : f < 2 ^ 36 := ht.below
  obtain ⟨st₂, h₂, -⟩ := h.alloc (by decide) ha
  have hfree₂ := h₂.coherent.tables.stocked.holds.freePages_eq ht.stocked.holds
  have hcount : st₁.freePages + 1 = st.freePages := ht.count
  have hnext : next hhdm₀ x (.alloc 1) = .ok { x with
      phys := s₁, taken := if framePa f = 0 then x.taken else ⟨framePa f, 1⟩ :: x.taken } := by
    show (do let y ← x.phys.alloc hhdm₀ 1; _) = _
    rw [ha]
    rfl
  have hone : Allowed x (.alloc 1) := show (1 : Word) ≠ 0 by decide
  refine ⟨_, st₂, K, r, R, f, hx.step ⟨hone, hnext⟩, h₂, by omega, hlow, ?_, ?_⟩
  · rw [if_neg (framePa_ne_zero ht.pos (by omega)), htaken]
  · -- the page comes from the free list, where no table is
    have hkept := h.kept_of_eqOn (fun p hp => (ht.rest hp).1) (ht.mem.mono (by
      rintro y ⟨r', p, hp, hat⟩ hy
      exact h.coherent.tables.forest.used hp hat hy))
    obtain ⟨-, htable⟩ := h.coherent.tables.restrict Set.Subset.rfl spacePlaces_closed ht.stocked hkept
    intro p h2 h3 hlow
    exact (htable (mem_lower List.mem_cons_self h3 hlow)).trans (hnone p h2 h3 hlow)

/-- The same space with that page mapped at `va`: the tables made are those on the way. -/
theorem exists_mapped (va : Word) (hva : va.toNat + 0x1000 ≤ userAddrEnd.toNat) :
    ∃ x st K r R f, (runs hhdm₀).Reachable x ∧
      Held hhdm₀ x st K r R ∧ x.taken = [⟨framePa f, 1⟩] ∧
      (∃ e, x.phys.leafAt r (tablePath va) (slot level12 va) = some e ∧ frameOf e = f) ∧
      (∀ p, 2 ≤ p.length → p.length ≤ 3 → Lower p → x.phys.table r p ≠ none → p <+: tablePath va) ∧
      ∀ p j, p.length = 3 → Lower p → x.phys.leafAt r p j ≠ none →
        p = tablePath va ∧ j = slot level12 va := by
  obtain ⟨x, st, K, r, R, f, hx, h, hfree, hlow, htaken, hnone⟩ := exists_onePage
  have hfresh : ∀ g, ¬ x.Maps g := by
    intro g hg
    obtain ⟨p, j, e, hlen, hlp, he, -⟩ := h.maps_iff.mp hg
    rw [Phys.leafAt, hnone p (by omega) (by omega) hlp] at he
    cases he
  have hend : userAddrEnd.toNat = 2 ^ 47 := by decide
  have hpage : ∀ k, k < pages 0x1000 → va + pageOff k = va := fun _ => Phys.add_pageOff_of_lt va
  have hindex : index 39 va < 256 := by
    rw [index_eq level39]
    omega
  have hX : Phys.rangeTables r va 0x1000 ⊆ lowerPlaces r := by
    rintro ⟨r', p⟩ ⟨hr, -, k, hk, hpre⟩
    rw [hpage k hk] at hpre
    exact ⟨hr, hpre.length_le, lower_tablePath hindex hpre⟩
  have hXp := lowerPlaces_subset (K := K) (R := r :: R) (r := r) List.mem_cons_self
  obtain ⟨s', st', hs', hm, hwalk, -⟩ := h.coherent.tables.map_page (r := r)
    (fun p hp => mem_lower List.mem_cons_self hp.length_le (lower_tablePath hindex hp)) hlow
    (show Present (present ||| writeable ||| user) by decide) (by omega)
  have hpa : (framePa f).toNat = 4096 * f := framePa_toNat (by omega)
  have hallowed : x.Allowed (.map (framePa f) va 0x1000 (present ||| writeable ||| user)) := by
    refine ⟨by omega, by decide, hva, fun k hk => ⟨⟨⟨framePa f, 1⟩, ?_, ?_⟩, hfresh _⟩⟩
    · rw [htaken]
      exact List.mem_singleton_self _
    · obtain rfl : k = 0 := Nat.lt_one_iff.mp hk
      exact ⟨le_rfl, Nat.lt_succ_self _⟩
  have hdir : x.phys.map hhdm₀ x.dir.pml4 (framePa f) va 0x1000
      (present ||| writeable ||| user) = .ok s' := h.dir ▸ hs'
  have hnext : next hhdm₀ x (.map (framePa f) va 0x1000
      (present ||| writeable ||| user)) = .ok { x with phys := s' } := by
    show (do let y ← x.phys.map hhdm₀ x.dir.pml4 _ _ _ _; _) = _
    rw [hdir]
    rfl
  obtain ⟨st₄, h₄⟩ := h.map hallowed hdir
  refine ⟨_, st₄, K, r, R, f, hx.step ⟨hallowed, hnext⟩, h₄, htaken,
    ⟨_, Phys.walk_eq.symm.trans hwalk, frameOf_or hlow (by decide)⟩, ?_, ?_⟩
  · intro p h2 h3 hlp hat
    have hz : (r, p) ∈ lowerPlaces r := ⟨rfl, h3, hlp⟩
    rcases h.coherent.tables.table_of_map (lowerPlaces_finite r) hXp (by decide) hX hs' hz hat with
      hold | ⟨-, -, k, hk, hpre⟩
    · exact absurd (hnone p h2 h3 hlp) hold
    · rwa [hpage k hk] at hpre
  · intro p j hlen hlp hat
    by_contra hne
    refine hat ?_
    rw [hm.there (mem_lower List.mem_cons_self (Nat.le_of_eq hlen) hlp) hlen, Phys.leafAt,
      hnone p (by omega) (by omega) hlp]
    · rfl
    · intro k hk he
      rw [hpage k hk] at he
      exact hne (Prod.mk.inj (Prod.mk.inj he).2)

/-- A page at `0x400000` is at indices 0, 0, 2 and 0: it is given back, with its tables. -/
theorem givenBack_iff_lowPage : ∃ x, (runs hhdm₀).Reachable x ∧
    (∃ f, x.taken = [⟨framePa f, 1⟩] ∧ x.Maps f) ∧ x.GivenBack hhdm₀ := by
  obtain ⟨x, st, K, r, R, f, hx, h, htaken, ⟨e, he, hf⟩, htables, hleaves⟩ :=
    exists_mapped 0x400000 (by decide)
  have hmaps : x.Maps f :=
    h.maps_iff.mpr ⟨tablePath 0x400000, _, e, rfl, show 0 < 256 by decide, he, hf⟩
  refine ⟨x, hx, ⟨f, htaken, hmaps⟩, (givenBack_iff hx).mpr ⟨fun p hlen hlow hat => ?_, ?_⟩⟩
  · rw [h.root] at hat
    have hpath : ∀ i ∈ ([0, 0, 2, 0] : List (Fin 512)), i.val < 256 := by simp
    by_cases h4 : p.length = 4
    · obtain ⟨q, k, rfl, hq, hlq⟩ := split_path h4 hlow
      rw [table_leaf] at hat
      obtain ⟨rfl, rfl⟩ := hleaves q k hq hlq fun hn => hat (by rw [hn]; rfl)
      exact hpath
    · match p, hlow with
      | [], _ => exact fun _ hi => absurd hi List.not_mem_nil
      | [i], hi =>
        intro k hk
        rw [List.mem_singleton.mp hk]
        exact hi
      | i :: j :: p, hlow =>
        have hpre : i :: j :: p <+: [0, 0, 2] := htables _ (by simp) (by omega) hlow hat
        exact fun k hk => hpath k ((hpre.trans (List.prefix_append _ [0])).subset hk)
  · intro g _ b hb _
    rw [htaken] at hb
    rw [List.mem_singleton.mp hb]

/-- The highest page of a user stack is at index 510 of its page table: it is not given back. -/
theorem stackPage_not_givenBack : ∃ x, (runs hhdm₀).Reachable x ∧
    ¬ x.GivenBack hhdm₀ := by
  obtain ⟨x, st, K, r, R, f, hx, h, -, ⟨e, he, -⟩, -⟩ := exists_mapped 0x7fffffffe000 (by decide)
  refine ⟨x, hx, fun hback => ?_⟩
  have hat : x.phys.table r [255, 511, 511, 510] ≠ none := by
    have hleaf : x.phys.leafAt r [255, 511, 511] 510 = some e := he
    show x.phys.table r ([255, 511, 511] ++ [510]) ≠ none
    rw [table_leaf, hleaf]
    exact Option.some_ne_none _
  have hlow := (h.returnable hback).low [255, 511, 511, 510] le_rfl (show 255 < 256 by decide)
    (h.root ▸ hat)
  exact absurd (hlow 511 (by decide)) (by decide)

end UserSpace

end TwoKernel
