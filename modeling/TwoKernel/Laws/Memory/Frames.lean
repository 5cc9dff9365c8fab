import TwoKernel.Laws.Memory.Address
import TwoKernel.Laws.Memory.Pmm

/-!
# Taking pages from the allocator

The page tables and the loader take pages from the physical allocator, zero
them and link them. Here that is said in page numbers: which page came, that it
was free, that it is free no longer, and that nothing outside the free pages
was written on the way.

An entry has room for 36 bits of page number. `Stocked` therefore asks that the
free pages lie below `2 ^ 48`.
-/

namespace TwoKernel

open ByteMem Vmm

/-- The physical address of a page. -/
def framePa (f : Nat) : Word := BitVec.ofNat 64 (4096 * f)

/-- The address the kernel reaches a page at. -/
def tablePtr (hhdm : Word) (f : Nat) : Word := framePa f + hhdm

variable {hhdm count : Word} {s s' : Phys} {st st' : Stock hhdm} {f g i n : Nat} {v : Word}

theorem framePa_toNat (h : f < 2 ^ 52) : (framePa f).toNat = 4096 * f := by
  unfold framePa
  rw [BitVec.toNat_ofNat, Nat.mod_eq_of_lt (by omega)]

@[simp] theorem physOf_tablePtr (h : f < 2 ^ 52) : physOf hhdm (tablePtr hhdm f) = 4096 * f := by
  unfold physOf tablePtr
  rw [BitVec.add_sub_cancel, framePa_toNat h]

theorem framePa_ne_zero (hpos : 0 < f) (h : f < 2 ^ 52) : framePa f ≠ 0 := by
  intro e
  have hz := framePa_toNat h
  rw [e] at hz
  have h0 : (0 : Word).toNat = 0 := rfl
  omega

/-- The address in an entry is the address of its page. -/
theorem framePa_frameOf (e : Word) : framePa (frameOf e) = e &&& paddrMask := by
  apply BitVec.eq_of_toNat_eq
  have hlt : frameOf e < 2 ^ 36 := frameOf_lt
  rw [framePa_toNat (by omega), and_paddrMask_toNat, frameOf_eq, Nat.mul_comm]

/-- An entry made of the address of a page below `2 ^ 48` and flags. -/
theorem frameOf_or (h : f < 2 ^ 36) {flags : Word} (hf : flags &&& paddrMask = 0) :
    frameOf (framePa f ||| flags) = f := by
  have hpa : (framePa f).toNat = 4096 * f := framePa_toNat (by omega)
  unfold frameOf
  rw [or_and_paddrMask (by omega) (by omega) hf, hpa]
  omega

theorem present_framePa_or (h : f < 2 ^ 36) {flags : Word} :
    Present (framePa f ||| flags) ↔ Present flags := by
  have hpa : (framePa f).toNat = 4096 * f := framePa_toNat (by omega)
  exact present_or (by omega) (by omega)

namespace Phys

/-! ## Tables in memory -/

/-- The entry that is read is that of the frame. -/
theorem entry_tablePtr (h : f < 2 ^ 52) : s.entry hhdm (tablePtr hhdm f) i = s.pte f i := by
  unfold entry pte
  rw [physOf_tablePtr h]

/-- An entry depends on its page. -/
theorem pte_congr (h : Set.EqOn s'.mem s.mem (pageBytes {f})) (hi : i < 512) :
    s'.pte f i = s.pte f i := by
  apply load64_congr
  apply h.mono
  rintro x ⟨hlo, hhi⟩
  show x / 4096 = f
  omega

theorem setEntry_eqOn (h : f < 2 ^ 52) (hi : i < 512) :
    Set.EqOn (s.setEntry hhdm (tablePtr hhdm f) i v).mem s.mem (pageBytes {f})ᶜ := by
  unfold setEntry
  rw [physOf_tablePtr h]
  apply store64_eqOn
  rw [Set.disjoint_left]
  rintro x hx ⟨hlo, hhi⟩
  apply hx
  show x / 4096 = f
  omega

/-- An entry that is stored is read back. -/
theorem pte_setEntry_self (h : f < 2 ^ 52) :
    (s.setEntry hhdm (tablePtr hhdm f) i v).pte f i = v := by
  unfold setEntry pte
  rw [physOf_tablePtr h]
  exact load64_store64_self

/-- Every other entry stays. -/
theorem pte_setEntry_of_ne (h : f < 2 ^ 52) (hi : i < 512) {j : Nat} (hj : j < 512)
    (hne : g = f → j ≠ i) : (s.setEntry hhdm (tablePtr hhdm f) i v).pte g j = s.pte g j := by
  by_cases hg : g = f
  · subst hg
    unfold setEntry pte
    rw [physOf_tablePtr h]
    have hji : j ≠ i := hne rfl
    apply load64_store64_of_ne
    omega
  · apply pte_congr _ hj
    apply (setEntry_eqOn h hi).mono
    rintro x rfl hx
    exact hg hx

private theorem clearTable_eqOn (h : f < 2 ^ 52) :
    Set.EqOn (s.clearTable hhdm (tablePtr hhdm f)).mem s.mem (pageBytes {f})ᶜ := by
  unfold clearTable
  rw [physOf_tablePtr h]
  apply fill_eqOn
  rw [Set.disjoint_left]
  rintro x hx ⟨hlo, hhi⟩
  apply hx
  show x / 4096 = f
  omega

private theorem pte_clearTable (h : f < 2 ^ 52) (hi : i < 512) :
    (s.clearTable hhdm (tablePtr hhdm f)).pte f i = 0 := by
  unfold clearTable pte
  rw [physOf_tablePtr h]
  exact load64_fill_zero (by omega) (by omega)

/-! ## Free pages -/

/-- The free list of `s` is `st`, and its pages fit an entry. -/
structure Stocked (hhdm : Word) (s : Phys) (st : Stock hhdm) : Prop where
  holds : s.Holds hhdm st.blocks
  low : ∀ p ∈ st.pool, p < 2 ^ 36

/-- The free list depends on the free pages alone. -/
theorem Stocked.frame (h : s.Stocked hhdm st) (hhead : s'.freelistHead = s.freelistHead)
    (hmem : Set.EqOn s'.mem s.mem (pageBytes st.pool)) : s'.Stocked hhdm st :=
  ⟨h.holds.frame st hhead hmem, h.low⟩

/-- The `n` pages from `f` on were taken out of `st`, which left `st'`. -/
structure Took (s : Phys) (st : Stock hhdm) (f n : Nat) (s' : Phys) (st' : Stock hhdm) : Prop where
  pos : 0 < f
  below : f + n ≤ 2 ^ 36
  taken : Set.Ico f (f + n) ⊆ st.pool
  stocked : s'.Stocked hhdm st'
  rest : st'.pool ⊆ st.pool \ Set.Ico f (f + n)
  count : st'.freePages + n = st.freePages
  mem : Set.EqOn s'.mem s.mem (pageBytes st.pool)ᶜ

/-- `alloc` answers zero and does nothing, or takes pages. -/
theorem Stocked.alloc (h : s.Stocked hhdm st) (count : Word) :
    (Block.firstFit count st.blocks = none ∧ s.alloc hhdm count = .ok (0, s)) ∨
      ∃ f s' st', s.alloc hhdm count = .ok (framePa f, s') ∧ Took s st f count.toNat s' st' := by
  obtain ⟨hnone, hsome⟩ := alloc_spec count st h.holds
  cases hfit : Block.firstFit count st.blocks with
  | none => exact .inl ⟨rfl, hnone hfit⟩
  | some r =>
    obtain ⟨b, l⟩ := r
    right
    obtain ⟨s', hs', hholds, -, hmem⟩ := hsome b l hfit
    have hb : b.Ok hhdm := st.ok b (st.mem_of_firstFit hfit)
    obtain ⟨htaken, hrest⟩ := st.carve_pool hfit
    have hfirst : b.start < 2 ^ 36 := h.low _ ⟨b, st.mem_of_firstFit hfit, Block.start_mem_foot⟩
    have hbelow : b.start + count.toNat ≤ 2 ^ 36 := by
      by_contra hover
      exact absurd (h.low (2 ^ 36) (htaken ⟨Nat.le_of_lt hfirst, Nat.lt_of_not_le hover⟩))
        (Nat.lt_irrefl _)
    have hpa : framePa b.start = b.pa := by
      apply BitVec.eq_of_toNat_eq
      rw [framePa_toNat (by omega), hb.aligned]
    refine ⟨b.start, s', st.carve hfit, by rw [hpa]; exact hs', hb.nonzero, hbelow, htaken,
      ⟨hholds, fun p hp => h.low p (hrest hp).1⟩, hrest, st.carve_freePages hfit, hmem⟩

/-- Page `f` was taken out of `st` and zeroed. -/
structure NewTable (s : Phys) (st : Stock hhdm) (f : Nat) (s' : Phys) (st' : Stock hhdm) : Prop where
  pos : 0 < f
  taken : f ∈ st.pool
  stocked : s'.Stocked hhdm st'
  rest : st'.pool ⊆ st.pool \ {f}
  count : st'.freePages + 1 = st.freePages
  mem : Set.EqOn s'.mem s.mem (pageBytes st.pool)ᶜ
  zero : ∀ i, i < 512 → s'.pte f i = 0

/-- The way the kernel makes a table: one page, then `memset`. -/
theorem Stocked.newTable (h : s.Stocked hhdm st) :
    (st.freePages = 0 ∧ s.alloc hhdm 1 = .ok (0, s)) ∨
      ∃ f s' st', s.alloc hhdm 1 = .ok (framePa f, s') ∧ framePa f ≠ 0 ∧
        NewTable s st f (s'.clearTable hhdm (tablePtr hhdm f)) st' := by
  rcases h.alloc 1 with ⟨hnone, hz⟩ | ⟨f, s', st', hs', ht⟩
  · exact .inl ⟨st.freePages_eq_zero hnone, hz⟩
  · right
    have hf : f ∈ st.pool := ht.taken ⟨le_rfl, Nat.lt_succ_self _⟩
    have hlt : f < 2 ^ 52 := Nat.lt_trans (h.low f hf) (by decide)
    have hrest : st'.pool ⊆ st.pool \ {f} := by
      intro p hp
      refine ⟨(ht.rest hp).1, ?_⟩
      rintro rfl
      exact (ht.rest hp).2 ⟨le_rfl, Nat.lt_succ_self _⟩
    refine ⟨f, s', st', hs', framePa_ne_zero ht.pos hlt, ht.pos, hf, ?_, hrest, ht.count, ?_,
      fun i hi => pte_clearTable hlt hi⟩
    · refine ht.stocked.frame rfl ((clearTable_eqOn hlt).mono ?_)
      rintro x hx rfl
      exact (hrest hx).2 rfl
    · refine ((clearTable_eqOn hlt).mono ?_).trans ht.mem
      rintro x hx rfl
      exact hx hf

end Phys

end TwoKernel
