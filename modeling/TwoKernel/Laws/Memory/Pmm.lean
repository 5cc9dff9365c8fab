import Mathlib.Data.List.Perm.Subperm
import Mathlib.Tactic.Tauto
import TwoKernel.Lib.Chain
import TwoKernel.Memory.Arena

/-!
# The free list in memory stands for a list of blocks

`Holds`: the chain from `freelist_head` visits the nodes of the blocks of a
list, in order, and each node holds its block's address and length. Three facts
make the intrusive list safe.

* A node lies in the first page of its block, so a write to any page outside
  the free blocks changes no node (`Holds.frame`).
* `push_list` writes one page, the one its node goes to (`pushList_holds`).
* What `alloc` writes lies in blocks that were free (`alloc_spec`), and its
  scan finds what first fit finds.
-/

namespace TwoKernel

open ByteMem Chain

/-- The bytes of a set of pages. -/
def pageBytes (pages : Set Nat) : Set Nat := {x | x / 4096 ∈ pages}

theorem pageBytes_mono {s t : Set Nat} (h : s ⊆ t) : pageBytes s ⊆ pageBytes t := fun _ hx => h hx

/-- A pointer, with null as `none`. -/
def ptr (w : Word) : Option Word := if w = 0 then none else some w

theorem ptr_of_ne {w : Word} (h : w ≠ 0) : ptr w = some w := if_neg h

/-- Where the node of a block is, as the kernel addresses it. -/
def Block.node (hhdm : Word) (b : Block) : Word := b.pa + hhdm

variable {hhdm count : Word} {s s' : Phys} {b c : Block} {l l₁ l₂ : List Block}

@[simp] theorem physOf_node : physOf hhdm (b.node hhdm) = b.pa.toNat := by
  unfold physOf Block.node
  rw [BitVec.add_sub_cancel]

theorem Block.Ok.node_ne (h : b.Ok hhdm) : b.node hhdm ≠ 0 := by
  have hr := h.reached
  have ha := h.aligned
  have hz := h.nonzero
  intro e
  have hn : (b.pa + hhdm).toNat = 0 := congrArg BitVec.toNat e
  rw [BitVec.toNat_add, Nat.mod_eq_of_lt (by omega)] at hn
  omega

/-- The words of a node lie in the first page of its block. -/
theorem Block.Ok.header_subset (h : b.Ok hhdm) (f : FreeListField) :
    Set.Ico (b.pa.toNat + f.offset) (b.pa.toNat + f.offset + 8) ⊆ pageBytes {b.start} := by
  have hoff : f.offset ≤ 16 := by cases f <;> decide
  have ha := h.aligned
  rintro x ⟨hlo, hhi⟩
  show x / 4096 = b.start
  omega

namespace Phys

/-- The link a node holds. -/
def nextNode (hhdm : Word) (s : Phys) (p : Word) : Option Word := ptr (s.field hhdm .next p)

/-- The free list of `s` stands for the blocks `l`. -/
structure Holds (hhdm : Word) (s : Phys) (l : List Block) : Prop where
  chain : Linked (s.nextNode hhdm) (ptr s.freelistHead) (l.map (Block.node hhdm))
  pa : ∀ b ∈ l, s.field hhdm .pa (b.node hhdm) = b.pa
  numPages : ∀ b ∈ l, s.field hhdm .numPages (b.node hhdm) = b.numPages

/-! ## What a field read depends on -/

private theorem field_setHead (head : Word) (f : FreeListField) (p : Word) :
    ({ s with freelistHead := head } : Phys).field hhdm f p = s.field hhdm f p := rfl

theorem field_congr (h : b.Ok hhdm) (hmem : Set.EqOn s'.mem s.mem (pageBytes {b.start}))
    (f : FreeListField) : s'.field hhdm f (b.node hhdm) = s.field hhdm f (b.node hhdm) := by
  unfold field
  rw [physOf_node]
  exact load64_congr (hmem.mono (h.header_subset f))

theorem setField_eqOn (h : b.Ok hhdm) (f : FreeListField) (v : Word) :
    Set.EqOn (s.setField hhdm f (b.node hhdm) v).mem s.mem (pageBytes {b.start})ᶜ := by
  unfold setField
  rw [physOf_node]
  apply store64_eqOn
  exact Set.disjoint_compl_left_iff_subset.mpr (h.header_subset f)

private theorem field_setField_self (v : Word) (f : FreeListField) (p : Word) :
    (s.setField hhdm f p v).field hhdm f p = v := load64_store64_self

private theorem field_setField_of_ne {f g : FreeListField} (h : f ≠ g) (v p : Word) :
    (s.setField hhdm g p v).field hhdm f p = s.field hhdm f p := by
  apply load64_store64_of_ne
  cases f <;> cases g <;> first | exact absurd rfl h | (simp only [FreeListField.offset]; omega)

/-- The free list does not read memory outside the pages it occupies. -/
theorem Holds.frame (st : Stock hhdm) (h : s.Holds hhdm st.blocks)
    (hhead : s'.freelistHead = s.freelistHead)
    (hmem : Set.EqOn s'.mem s.mem (pageBytes st.pool)) : s'.Holds hhdm st.blocks := by
  have hfield : ∀ b ∈ st.blocks, ∀ f, s'.field hhdm f (b.node hhdm) = s.field hhdm f (b.node hhdm) := by
    intro b hb f
    apply field_congr (st.ok b hb)
    apply hmem.mono
    apply pageBytes_mono
    rintro p rfl
    exact ⟨b, hb, Block.start_mem_foot⟩
  refine ⟨?_, fun b hb => ?_, fun b hb => ?_⟩
  · rw [hhead]
    apply h.chain.congr
    intro x hx
    obtain ⟨b, hb, rfl⟩ := List.mem_map.mp hx
    exact congrArg ptr (hfield b hb .next)
  · rw [hfield b hb .pa]
    exact h.pa b hb
  · rw [hfield b hb .numPages]
    exact h.numPages b hb

/-! ## Pushing a block -/

theorem pushList_eqOn (h : b.Ok hhdm) :
    Set.EqOn (s.pushList hhdm b.pa b.numPages).mem s.mem (pageBytes {b.start})ᶜ := by
  refine ((setField_eqOn h .next _).trans (setField_eqOn h .numPages _)).trans ?_
  exact setField_eqOn h .pa _

@[simp] theorem pushList_gRefAlloc (phys n : Word) :
    (s.pushList hhdm phys n).gRefAlloc = s.gRefAlloc := rfl

/-- The three fields of the node just pushed. -/
theorem pushList_fields (hhdm : Word) (s : Phys) (b : Block) :
    (s.pushList hhdm b.pa b.numPages).field hhdm .pa (b.node hhdm) = b.pa ∧
    (s.pushList hhdm b.pa b.numPages).field hhdm .numPages (b.node hhdm) = b.numPages ∧
    (s.pushList hhdm b.pa b.numPages).field hhdm .next (b.node hhdm) = s.freelistHead := by
  refine ⟨?_, ?_, ?_⟩
  · refine (field_setField_of_ne (by decide) _ _).trans ?_
    refine (field_setField_of_ne (by decide) _ _).trans ?_
    exact field_setField_self _ _ _
  · refine (field_setField_of_ne (by decide) _ _).trans ?_
    exact field_setField_self _ _ _
  · exact field_setField_self _ _ _

/-- `push_list` puts a block in front of the list it found. -/
theorem pushList_holds {st : Stock hhdm} (hb : b.Ok hhdm) (hd : Disjoint b.foot st.pool)
    (h : s.Holds hhdm st.blocks) :
    (s.pushList hhdm b.pa b.numPages).Holds hhdm (b :: st.blocks) := by
  obtain ⟨hpa, hnum, hnext⟩ := pushList_fields hhdm s b
  -- the old list, in the new memory and from the old head
  let old : Phys := { s.pushList hhdm b.pa b.numPages with freelistHead := s.freelistHead }
  have hold : old.Holds hhdm st.blocks := by
    refine h.frame st (show old.freelistHead = s.freelistHead from rfl) ?_
    apply (pushList_eqOn hb).mono
    intro x hx hx'
    have hpage : x / 4096 = b.start := hx'
    have hin : x / 4096 ∈ b.foot := hpage ▸ Block.start_mem_foot
    exact Set.disjoint_left.mp hd hin hx
  refine ⟨⟨ptr_of_ne hb.node_ne, ?_⟩, ?_, ?_⟩
  · show Linked _ (ptr _) _
    rw [hnext]
    exact hold.chain
  · intro c hc
    rcases List.mem_cons.mp hc with rfl | hc
    · exact hpa
    · exact hold.pa c hc
  · intro c hc
    rcases List.mem_cons.mp hc with rfl | hc
    · exact hnum
    · exact hold.numPages c hc

/-! ## Unlinking a block -/

/-- The node before a position, or `prev` at the front. -/
def lastNode (hhdm prev : Word) (l : List Block) : Word :=
  (l.getLast?.map (Block.node hhdm)).getD prev

/-- Two blocks of a free list are one, or start on different pages. -/
theorem start_ne {st : Stock hhdm} (hb : b ∈ st.blocks) (hc : c ∈ st.blocks) (hne : c ≠ b) :
    c.start ≠ b.start := by
  have hsymm : Std.Symm fun b c : Block => Disjoint b.foot c.foot := ⟨fun _ _ h => h.symm⟩
  have hd : Disjoint c.foot b.foot := st.apart.forall hc hb hne
  intro e
  exact Set.disjoint_left.mp hd Block.start_mem_foot (e ▸ Block.start_mem_foot)

/-- A write to one link changes no other field of the list. -/
theorem field_setNext {st : Stock hhdm} (hb : b ∈ st.blocks) (hc : c ∈ st.blocks)
    (v : Word) {f : FreeListField} (hf : c = b → f ≠ .next) :
    (s.setField hhdm .next (b.node hhdm) v).field hhdm f (c.node hhdm) =
      s.field hhdm f (c.node hhdm) := by
  by_cases hcb : c = b
  · subst hcb
    exact field_setField_of_ne (hf rfl) _ _
  · apply field_congr (st.ok c hc)
    apply (setField_eqOn (st.ok b hb) .next v).mono
    intro x hx hx'
    have hxc : x / 4096 = c.start := hx
    have hxb : x / 4096 = b.start := hx'
    exact start_ne hb hc hcb (hxc.symm.trans hxb)

/-- Unlinking the block `b` behind the block `a`. -/
theorem splice_holds {a : Block} {st : Stock hhdm} (hst : st.blocks = l₁ ++ a :: b :: l₂)
    (h : s.Holds hhdm st.blocks) :
    (s.setField hhdm .next (a.node hhdm) (s.field hhdm .next (b.node hhdm))).Holds hhdm
      (l₁ ++ a :: l₂) := by
  let s' := s.setField hhdm .next (a.node hhdm) (s.field hhdm .next (b.node hhdm))
  have hchain := h.chain
  rw [hst, List.map_append, List.map_cons, List.map_cons] at hchain
  have hmem : ∀ c ∈ l₁ ++ a :: l₂, c ∈ st.blocks := by
    intro c hc
    rw [hst]
    simp only [List.mem_append, List.mem_cons] at hc ⊢
    tauto
  have ha : a ∈ st.blocks := hmem a (by simp)
  have hnd : (a :: (l₁ ++ b :: l₂)).Nodup := by
    have hnd := h.chain.nodup
    rw [hst] at hnd
    exact List.perm_middle.nodup (List.Nodup.of_map _ hnd)
  -- every other block of the list keeps its link
  have hsame : ∀ c ∈ l₁ ++ l₂, s'.nextNode hhdm (c.node hhdm) = s.nextNode hhdm (c.node hhdm) := by
    intro c hc
    have hne : c ≠ a := by
      rintro rfl
      apply (List.nodup_cons.mp hnd).1
      simp only [List.mem_append, List.mem_cons] at hc ⊢
      tauto
    have hcb : c ∈ st.blocks := by
      apply hmem
      simp only [List.mem_append, List.mem_cons] at hc ⊢
      tauto
    exact congrArg ptr (field_setNext ha hcb _ fun e => absurd e hne)
  have hlink : s'.nextNode hhdm (a.node hhdm) = ptr (s.field hhdm .next (b.node hhdm)) :=
    congrArg ptr (field_setField_self _ _ _)
  have hrest : Linked (s.nextNode hhdm) (ptr (s.field hhdm .next (b.node hhdm)))
      (l₂.map (Block.node hhdm)) := hchain.suffix.2.2
  refine ⟨?_, fun c hc => ?_, fun c hc => ?_⟩
  · rw [List.map_append, List.map_cons]
    apply hchain.replace_suffix
    · intro x hx
      obtain ⟨c, hc, rfl⟩ := List.mem_map.mp hx
      exact hsame c (List.mem_append_left _ hc)
    · rw [hlink]
      apply hrest.congr
      intro x hx
      obtain ⟨c, hc, rfl⟩ := List.mem_map.mp hx
      exact hsame c (List.mem_append_right _ hc)
  · rw [field_setNext ha (hmem c hc) _ fun _ => by decide]
    exact h.pa c (hmem c hc)
  · rw [field_setNext ha (hmem c hc) _ fun _ => by decide]
    exact h.numPages c (hmem c hc)

/-- Unlinking the first block. -/
theorem unlinkHead_holds (h : s.Holds hhdm (b :: l)) :
    ({ s with freelistHead := s.field hhdm .next (b.node hhdm) } : Phys).Holds hhdm l := by
  refine ⟨?_, fun c hc => ?_, fun c hc => ?_⟩
  · apply h.chain.2.congr
    intro x _
    exact congrArg ptr (field_setHead _ .next x)
  · rw [field_setHead]
    exact h.pa c (List.mem_cons_of_mem _ hc)
  · rw [field_setHead]
    exact h.numPages c (List.mem_cons_of_mem _ hc)

/-- Unlinking `b` leaves the other blocks listed, and writes at most the page of the node before
it. -/
theorem unlink_holds {st : Stock hhdm} (hst : st.blocks = l₁ ++ b :: l₂)
    (h : s.Holds hhdm st.blocks) :
    (s.unlink hhdm (lastNode hhdm 0 l₁) (b.node hhdm)).Holds hhdm (l₁ ++ l₂) ∧
      Set.EqOn (s.unlink hhdm (lastNode hhdm 0 l₁) (b.node hhdm)).mem s.mem
        (pageBytes {p | ∃ c ∈ l₁, p = c.start})ᶜ := by
  rcases List.eq_nil_or_concat' l₁ with rfl | ⟨k, a, rfl⟩
  · have hun : s.unlink hhdm (lastNode hhdm 0 []) (b.node hhdm) =
        { s with freelistHead := s.field hhdm .next (b.node hhdm) } := if_neg (by simp [lastNode])
    rw [hun]
    rw [hst] at h
    exact ⟨unlinkHead_holds h, fun _ _ => rfl⟩
  · have ha : a.Ok hhdm := st.ok a (by rw [hst]; simp)
    have hun : s.unlink hhdm (lastNode hhdm 0 (k ++ [a])) (b.node hhdm) =
        s.setField hhdm .next (a.node hhdm) (s.field hhdm .next (b.node hhdm)) := by
      rw [show lastNode hhdm 0 (k ++ [a]) = a.node hhdm by simp [lastNode]]
      exact if_pos ha.node_ne
    rw [hun]
    constructor
    · rw [List.append_assoc, List.singleton_append] at hst ⊢
      exact splice_holds hst h
    · apply (setField_eqOn ha .next _).mono
      apply Set.compl_subset_compl.mpr
      apply pageBytes_mono
      rintro p rfl
      exact ⟨a, by simp, rfl⟩

@[simp] theorem unlink_gRefAlloc (prev curr : Word) :
    (s.unlink hhdm prev curr).gRefAlloc = s.gRefAlloc := by
  unfold unlink
  split <;> rfl

/-! ## Handing out a block -/

/-- What is left of a block just unlinked goes back in front. -/
theorem pushRest_holds {st : Stock hhdm} (hb : b.Ok hhdm) (hd : Disjoint b.foot st.pool)
    (hle : count ≤ b.numPages)
    (hpa : s.field hhdm .pa (b.node hhdm) = b.pa)
    (hnum : s.field hhdm .numPages (b.node hhdm) = b.numPages) (h : s.Holds hhdm st.blocks) :
    (s.pushRest hhdm count (b.node hhdm)).Holds hhdm (b.remainder count ++ st.blocks) ∧
      (s.pushRest hhdm count (b.node hhdm)).field hhdm .pa (b.node hhdm) = b.pa ∧
      (s.pushRest hhdm count (b.node hhdm)).gRefAlloc = s.gRefAlloc ∧
      Set.EqOn (s.pushRest hhdm count (b.node hhdm)).mem s.mem (pageBytes b.foot)ᶜ := by
  unfold pushRest
  rw [hnum, hpa]
  by_cases hlt : count < b.numPages
  · let r : Block := ⟨b.pa + count * pageSize, b.numPages - count⟩
    have hrem : b.remainder count = [r] := if_pos hlt
    have hmem : r ∈ b.remainder count := hrem ▸ List.mem_singleton_self r
    obtain ⟨hr, -, hstart, -⟩ := Block.mem_remainder hb hmem
    have hsub : r.foot ⊆ b.foot :=
      Block.foot_split_subset hb hle r (List.mem_cons_of_mem _ hmem)
    have hwrote : Set.EqOn (s.pushList hhdm r.pa r.numPages).mem s.mem (pageBytes {r.start})ᶜ :=
      pushList_eqOn hr
    have hholds : (s.pushList hhdm r.pa r.numPages).Holds hhdm (r :: st.blocks) :=
      pushList_holds hr (hd.mono_left hsub) h
    have hpa' : (s.pushList hhdm r.pa r.numPages).field hhdm .pa (b.node hhdm) = b.pa := by
      by_cases hzero : count = 0
      · -- the whole block goes back, over its own node
        have hrpa : r.pa = b.pa := by simp [r, hzero]
        have hnode : b.node hhdm = r.node hhdm := by
          unfold Block.node
          rw [hrpa]
        rw [hnode, (pushList_fields hhdm s r).1, hrpa]
      · refine (field_congr hb (hwrote.mono ?_) .pa).trans hpa
        intro x hx hx'
        have hxb : x / 4096 = b.start := hx
        have hxr : x / 4096 = r.start := hx'
        exact hzero (BitVec.eq_of_toNat_eq (show count.toNat = 0 by omega))
    have hout : (pageBytes b.foot)ᶜ ⊆ (pageBytes {r.start})ᶜ := by
      apply Set.compl_subset_compl.mpr
      apply pageBytes_mono
      rintro p rfl
      exact hsub Block.start_mem_foot
    rw [if_pos hlt, hrem]
    exact ⟨hholds, hpa', pushList_gRefAlloc _ _, hwrote.mono hout⟩
  · have hrem : b.remainder count = [] := if_neg hlt
    rw [if_neg hlt, hrem]
    exact ⟨h, hpa, rfl, fun _ _ => rfl⟩

/-- What `alloc` does once the scan has stopped at `b`: first fit's answer, first fit's new list,
and no write outside the pages that were free. -/
theorem take_spec {st : Stock hhdm} (hst : st.blocks = l₁ ++ b :: l₂)
    (hle : count ≤ b.numPages) (h : s.Holds hhdm st.blocks) :
    (s.take hhdm count (lastNode hhdm 0 l₁) (b.node hhdm)).1 = b.pa ∧
      (s.take hhdm count (lastNode hhdm 0 l₁) (b.node hhdm)).2.Holds hhdm
        (b.remainder count ++ (l₁ ++ l₂)) ∧
      (s.take hhdm count (lastNode hhdm 0 l₁) (b.node hhdm)).2.gRefAlloc = s.gRefAlloc + 1 ∧
      Set.EqOn (s.take hhdm count (lastNode hhdm 0 l₁) (b.node hhdm)).2.mem s.mem
        (pageBytes st.pool)ᶜ := by
  obtain ⟨hs₁, hmem₁⟩ := unlink_holds hst h
  have hbm : b ∈ st.blocks := by rw [hst]; simp
  have hb : b.Ok hhdm := st.ok b hbm
  have hap : Block.Apart (b :: (l₁ ++ l₂)) := st.apart.perm (hst ▸ List.perm_middle)
  obtain ⟨hoff, hap₁⟩ := List.pairwise_cons.mp hap
  have hmem : ∀ c ∈ l₁ ++ l₂, c ∈ st.blocks := by
    intro c hc
    rw [hst]
    simp only [List.mem_append, List.mem_cons] at hc ⊢
    tauto
  -- the node of `b` itself is untouched by the unlinking
  have hfield : ∀ f, (s.unlink hhdm (lastNode hhdm 0 l₁) (b.node hhdm)).field hhdm f (b.node hhdm) =
      s.field hhdm f (b.node hhdm) := by
    intro f
    apply field_congr hb
    apply hmem₁.mono
    rintro x hx ⟨c, hc, hxc⟩
    have hxb : x / 4096 = b.start := hx
    apply Set.disjoint_left.mp (hoff c (List.mem_append_left _ hc)) Block.start_mem_foot
    rw [← hxb, hxc]
    exact Block.start_mem_foot
  let others : Stock hhdm := ⟨l₁ ++ l₂, fun c hc => st.ok c (hmem c hc), hap₁⟩
  have hd : Disjoint b.foot others.pool := by
    rw [Set.disjoint_left]
    rintro p hp ⟨c, hc, hpc⟩
    exact Set.disjoint_left.mp (hoff c hc) hp hpc
  have hpa₁ := (hfield .pa).trans (h.pa b hbm)
  have hnum₁ := (hfield .numPages).trans (h.numPages b hbm)
  obtain ⟨hs₂, hpa, hgref, hmem₂⟩ := pushRest_holds hb hd hle hpa₁ hnum₁ hs₁
  rw [unlink_gRefAlloc] at hgref
  refine ⟨hpa, ⟨hs₂.chain, hs₂.pa, hs₂.numPages⟩, congrArg (· + 1) hgref, ?_⟩
  · refine (hmem₂.mono ?_).trans (hmem₁.mono ?_)
    · apply Set.compl_subset_compl.mpr
      apply pageBytes_mono
      intro p hp
      exact ⟨b, hbm, hp⟩
    · apply Set.compl_subset_compl.mpr
      apply pageBytes_mono
      rintro p ⟨c, hc, rfl⟩
      exact ⟨c, hmem c (List.mem_append_left _ hc), Block.start_mem_foot⟩

/-! ## The scan -/

private theorem ptr_eq_none {w : Word} (h : ptr w = none) : w = 0 := by
  by_contra hw
  rw [ptr_of_ne hw] at h
  cases h

private theorem ptr_eq_some {w p : Word} (h : ptr w = some p) : w = p ∧ w ≠ 0 := by
  by_cases hw : w = 0
  · rw [ptr, if_pos hw] at h
    cases h
  · rw [ptr_of_ne hw] at h
    exact ⟨Option.some.inj h, hw⟩

/-- A scan over blocks that are all too short ends at null. -/
theorem scan_none (hnum : ∀ b ∈ l, s.field hhdm .numPages (b.node hhdm) = b.numPages)
    (hnot : ∀ b ∈ l, ¬ count ≤ b.numPages) :
    ∀ {fuel : Nat} {prev curr : Word}, l.length < fuel →
      Linked (s.nextNode hhdm) (ptr curr) (l.map (Block.node hhdm)) →
      s.scan hhdm count fuel prev curr = .ok (0, s) := by
  induction l with
  | nil =>
    intro fuel prev curr hf hl
    obtain ⟨f, rfl⟩ : ∃ f, fuel = f + 1 := ⟨fuel - 1, by omega⟩
    rw [scan, if_pos (ptr_eq_none hl)]
  | cons b l ih =>
    intro fuel prev curr hf hl
    obtain ⟨f, rfl⟩ : ∃ f, fuel = f + 1 := ⟨fuel - 1, by omega⟩
    obtain ⟨rfl, hne⟩ := ptr_eq_some hl.1
    rw [scan, if_neg hne, hnum b List.mem_cons_self, if_neg (hnot b List.mem_cons_self)]
    apply ih (fun c hc => hnum c (List.mem_cons_of_mem _ hc))
      (fun c hc => hnot c (List.mem_cons_of_mem _ hc))
    · rw [List.length_cons] at hf
      omega
    · exact hl.2

private theorem lastNode_cons (prev : Word) :
    lastNode hhdm prev (b :: l) = lastNode hhdm (b.node hhdm) l := by
  unfold lastNode
  rw [List.getLast?_cons]
  cases l.getLast? <;> rfl

/-- A scan stops at the first block that fits, with the node before it in `prev`. -/
theorem scan_some (hnum : ∀ c ∈ l₁ ++ b :: l₂, s.field hhdm .numPages (c.node hhdm) = c.numPages)
    (hnot : ∀ c ∈ l₁, ¬ count ≤ c.numPages) (hfit : count ≤ b.numPages) :
    ∀ (fuel : Nat) (prev curr : Word), l₁.length < fuel →
      Linked (s.nextNode hhdm) (ptr curr) ((l₁ ++ b :: l₂).map (Block.node hhdm)) →
      s.scan hhdm count fuel prev curr =
        .ok (s.take hhdm count (lastNode hhdm prev l₁) (b.node hhdm)) := by
  induction l₁ with
  | nil =>
    intro fuel prev curr hf hl
    obtain ⟨f, rfl⟩ : ∃ f, fuel = f + 1 := ⟨fuel - 1, by omega⟩
    obtain ⟨rfl, hne⟩ := ptr_eq_some hl.1
    rw [scan, if_neg hne, hnum b List.mem_cons_self, if_pos hfit]
    rfl
  | cons c l₁ ih =>
    intro fuel prev curr hf hl
    obtain ⟨f, rfl⟩ : ∃ f, fuel = f + 1 := ⟨fuel - 1, by omega⟩
    obtain ⟨rfl, hne⟩ := ptr_eq_some hl.1
    rw [scan, if_neg hne, hnum c List.mem_cons_self, if_neg (hnot c List.mem_cons_self),
      lastNode_cons]
    apply ih (fun d hd => hnum d (List.mem_cons_of_mem _ hd))
      (fun d hd => hnot d (List.mem_cons_of_mem _ hd))
    · rw [List.length_cons] at hf
      omega
    · exact hl.2

/-- A free list has fewer nodes than there are pointers. -/
theorem Holds.length_lt {st : Stock hhdm} (h : s.Holds hhdm st.blocks) :
    st.blocks.length < walkFuel := by
  let nodes := (st.blocks.map (Block.node hhdm)).map BitVec.toNat
  have hnd : (0 :: nodes).Nodup := by
    refine List.nodup_cons.mpr ⟨?_, ?_⟩
    · intro hm
      obtain ⟨w, hw, hz⟩ := List.mem_map.mp hm
      obtain ⟨b, hb, rfl⟩ := List.mem_map.mp hw
      exact (st.ok b hb).node_ne (BitVec.eq_of_toNat_eq hz)
    · exact h.chain.nodup.map fun _ _ e => BitVec.eq_of_toNat_eq e
  have hsub : (0 :: nodes) ⊆ List.range (2 ^ 64) := by
    intro x hx
    rw [List.mem_range]
    rcases List.mem_cons.mp hx with rfl | hx
    · exact Nat.two_pow_pos 64
    · obtain ⟨w, -, rfl⟩ := List.mem_map.mp hx
      exact w.isLt
  have hlen := (List.Nodup.subperm hnd hsub).length_le
  rw [List.length_range, List.length_cons, List.length_map, List.length_map] at hlen
  exact hlen

/-- **`alloc` is first fit.** The scan ends. If no block has `count` pages the answer is zero and
nothing changes; otherwise the answer is the first block that has, the list becomes first fit's,
the counter goes up, and nothing is written outside the pages that were free. -/
theorem alloc_spec (count : Word) (st : Stock hhdm) (h : s.Holds hhdm st.blocks) :
    (Block.firstFit count st.blocks = none → s.alloc hhdm count = .ok (0, s)) ∧
    ∀ b l (hfit : Block.firstFit count st.blocks = some (b, l)), ∃ s',
      s.alloc hhdm count = .ok (b.pa, s') ∧ s'.Holds hhdm (st.carve hfit).blocks ∧
      s'.gRefAlloc = s.gRefAlloc + 1 ∧ Set.EqOn s'.mem s.mem (pageBytes st.pool)ᶜ := by
  have hlen := h.length_lt
  constructor
  · intro hnone
    exact scan_none h.numPages (Block.firstFit_eq_none hnone) hlen h.chain
  · intro b l hfit
    obtain ⟨l₁, l₂, hst, rfl, hle, hnot⟩ := Block.firstFit_eq_some hfit
    obtain ⟨hpa, hholds, hgref, hmem⟩ := take_spec hst hle h
    refine ⟨(s.take hhdm count (lastNode hhdm 0 l₁) (b.node hhdm)).2, ?_, hholds, hgref, hmem⟩
    have hlen₁ : l₁.length < walkFuel := by
      rw [hst, List.length_append] at hlen
      omega
    have hscan := scan_some (hst ▸ h.numPages) hnot hle walkFuel 0 s.freelistHead hlen₁
      (hst ▸ h.chain)
    rw [alloc, hscan, ← hpa]

/-- `alloc` returns: zero, or a block of the list. -/
theorem alloc_answers (count : Word) (st : Stock hhdm) (h : s.Holds hhdm st.blocks) :
    ∃ r s', s.alloc hhdm count = .ok (r, s') ∧ (r = 0 ∨ ∃ b ∈ st.blocks, r = b.pa) := by
  obtain ⟨hnone, hsome⟩ := alloc_spec count st h
  cases hfit : Block.firstFit count st.blocks with
  | none => exact ⟨0, s, hnone hfit, .inl rfl⟩
  | some r =>
    obtain ⟨s', hs', -⟩ := hsome r.1 r.2 hfit
    exact ⟨r.1.pa, s', hs', .inr ⟨r.1, st.mem_of_firstFit hfit, rfl⟩⟩

/-- `alloc` refuses exactly if no free block is long enough. -/
theorem alloc_eq_zero_iff (count : Word) (st : Stock hhdm) (h : s.Holds hhdm st.blocks) :
    s.alloc hhdm count = .ok (0, s) ↔ ∀ b ∈ st.blocks, b.numPages < count := by
  obtain ⟨hnone, hsome⟩ := alloc_spec count st h
  rw [← Block.firstFit_eq_none_iff]
  constructor
  · intro hzero
    cases hfit : Block.firstFit count st.blocks with
    | none => rfl
    | some r =>
      obtain ⟨s', hs', -⟩ := hsome r.1 r.2 hfit
      have hpa : r.1.pa = 0 := (Prod.mk.inj (Except.ok.inj (hs'.symm.trans hzero))).1
      exact absurd hpa (st.ok r.1 (st.mem_of_firstFit hfit)).pa_ne
  · exact hnone

theorem free_eqOn (hb : b.Ok hhdm) :
    Set.EqOn (s.free hhdm b.pa b.numPages).mem s.mem (pageBytes {b.start})ᶜ := by
  unfold free
  split
  · exact fun _ _ => rfl
  · exact pushList_eqOn hb

theorem free_gRefAlloc (phys n : Word) (hz : s.gRefAlloc ≠ 0) :
    (s.free hhdm phys n).gRefAlloc = s.gRefAlloc - 1 := by
  unfold free
  rw [if_neg hz]
  rfl

/-- `free` does something, unless nothing is handed out. -/
theorem free_eq_self_iff (phys n : Word) : s.free hhdm phys n = s ↔ s.gRefAlloc = 0 := by
  constructor
  · intro hsame
    by_contra hne
    have hcount : (s.free hhdm phys n).gRefAlloc = s.gRefAlloc - 1 := free_gRefAlloc phys n hne
    rw [hsame] at hcount
    exact absurd hcount (by bv_omega)
  · intro hzero
    exact if_pos hzero

/-- `free` of a block while something is handed out. -/
theorem free_spec {st : Stock hhdm} (hb : b.Ok hhdm) (hd : Disjoint b.foot st.pool)
    (hz : s.gRefAlloc ≠ 0) (h : s.Holds hhdm st.blocks) :
    (s.free hhdm b.pa b.numPages).Holds hhdm (b :: st.blocks) ∧
      (s.free hhdm b.pa b.numPages).gRefAlloc = s.gRefAlloc - 1 := by
  refine ⟨?_, free_gRefAlloc _ _ hz⟩
  unfold free
  rw [if_neg hz]
  have hp := pushList_holds hb hd h
  exact ⟨hp.chain, hp.pa, hp.numPages⟩

end Phys

end TwoKernel
