import TwoKernel.Laws.Memory.Map

/-!
# `unmap` and `va_to_pa`

Both go down to the page table of an address without making tables. Where a table is
missing, `get_next_level` returns null, and they read through it; that is all that can
go wrong with them (`pageTable_find`).

Where all tables are there, `unmap` writes a zero to the leaf entry of each page of its
range and leaves the rest alone (`Unmaps`). So it undoes `map` as far as the
processor can tell, though not the tables that `map` made (`unmap_correct`).

`va_to_pa` does not look whether the leaf entry is present (`walks_absent`).
-/

namespace TwoKernel

open ByteMem Vmm Trie

variable {hhdm : Word} {s s' s'' : Phys} {st st' : Stock hhdm} {places : Set Place} {free : Set Nat}
  {r n t k count : Nat} {p : List (Fin 512)} {i j : Fin 512}
  {pa va v length flags off dirPa : Word}

namespace Phys

/-! ## Finding a page table -/

/-- `get_next_level` that does not allocate. -/
theorem getNextLevel_find (hn : n < 2 ^ 52) : s.getNextLevel hhdm (tablePtr hhdm n) i flags false =
    .ok ((s.link n i).map (tablePtr hhdm), s) := by
  unfold getNextLevel link nextFrame
  rw [entry_tablePtr hn]
  by_cases hpres : Present (s.pte n i)
  · rw [if_pos hpres, if_pos hpres, Option.map_some, tablePtr, framePa_frameOf]
  · rw [if_neg hpres, if_neg hpres]
    rfl

/-- **The walk of the kernel.** It ends at the page table, or at a null pointer if that is
missing. -/
theorem pageTable_find (hr : r < 2 ^ 52) : s.pageTable hhdm (tablePtr hhdm r) va flags false = do
    let t ← deref (s.table r (tablePath va))
    return (tablePtr hhdm t, s) := by
  unfold pageTable table tablePath
  rw [show index 39 va = slot level39 va from rfl, show index 30 va = slot level30 va from rfl,
    show index 21 va = slot level21 va from rfl, getNextLevel_find hr]
  cases h39 : s.link r (slot level39 va) with
  | none =>
    rw [descend, h39]
    rfl
  | some pdpt =>
    simp only [ok_bind, Option.map_some, deref_some, descend, h39, Option.bind_some,
      getNextLevel_find (link_lt h39)]
    cases h30 : s.link pdpt (slot level30 va) with
    | none => rfl
    | some pd =>
      simp only [Option.map_some, deref_some, ok_bind, Option.bind_some,
        getNextLevel_find (link_lt h30)]
      cases s.link pd (slot level21 va) <;> rfl

private theorem vaToPa_eq (hr : r < 2 ^ 52) : s.vaToPa hhdm ⟨tablePtr hhdm r, dirPa⟩ va = do
    let t ← deref (s.table r (tablePath va))
    return (s.pte t (slot level12 va) &&& paddrMask) ||| (va &&& offMask) := by
  unfold vaToPa
  rw [pageTable_find hr]
  cases ht : s.table r (tablePath va) with
  | none => rfl
  | some t =>
    rw [deref_some, ok_bind, ok_bind, pure_eq_ok, pure_eq_ok, ok_bind, entry_tablePtr (table_lt hr ht)]
    rfl

private theorem unmapPage_eq (hr : r < 2 ^ 52) : s.unmapPage hhdm (tablePtr hhdm r) va off = do
    let t ← deref (s.table r (tablePath (va + off)))
    return s.setEntry hhdm (tablePtr hhdm t) (slot level12 (va + off)) 0 := by
  unfold unmapPage
  dsimp only
  rw [pageTable_find hr, tablePath_alignDown,
    show index 12 (alignDown (va + off) pageSize) = slot level12 (alignDown (va + off) pageSize) from rfl,
    slot_alignDown]
  cases s.table r (tablePath (va + off)) <;> rfl

/-! ## Clearing leaf entries -/

/-- The tables are where they were. -/
structure SameTables (places : Set Place) (free : Set Nat) (s s' : Phys) : Prop where
  trees : Trees s' free places
  table : ∀ {r p}, (r, p) ∈ places → s'.table r p = s.table r p

/-- The leaf entries of the first `count` pages from `va` on are zero, and nothing else is changed. -/
structure Unmaps (places : Set Place) (free : Set Nat) (s : Phys) (r : Nat) (va : Word)
    (count : Nat) (s' : Phys) : Prop where
  same : SameTables places free s s'
  zero : ∀ k, k < count → ∀ t, s.table r (tablePath (va + pageOff k)) = some t →
    s'.pte t (slot level12 (va + pageOff k)) = 0
  other : ∀ a (j : Fin 512), (∀ k, k < count → ∀ t, s.table r (tablePath (va + pageOff k)) = some t →
    (a, j) ≠ (t, slot level12 (va + pageOff k))) → s'.pte a j = s.pte a j
  head : s'.freelistHead = s.freelistHead
  mem : Set.EqOn s'.mem s.mem (pageBytes (s.frames places))ᶜ

private theorem SameTables.unmapPage (h : SameTables places free s s')
    (hp : (r, tablePath (va + off)) ∈ places) (hn : s.table r (tablePath (va + off)) = some t) :
    s'.unmapPage hhdm (tablePtr hhdm r) va off =
        .ok (s'.setEntry hhdm (tablePtr hhdm t) (slot level12 (va + off)) 0) ∧
      SameTables places free s (s'.setEntry hhdm (tablePtr hhdm t) (slot level12 (va + off)) 0) := by
  have hn' : s'.table r (tablePath (va + off)) = some t := (h.table hp).trans hn
  obtain ⟨htrees, htable⟩ :
      Trees (s'.setEntry hhdm (tablePtr hhdm t) (slot level12 (va + off)) 0) free places ∧ _ :=
    h.trees.setEntry hp hn' (h.trees.not_below rfl) 0
  refine ⟨?_, htrees, fun hp' => (htable hp').trans (h.table hp')⟩
  rw [unmapPage_eq (h.trees.root hp), hn']
  rfl

theorem Unmaps.step (h : Unmaps places free s r va k s')
    (hp : (r, tablePath (va + pageOff k)) ∈ places)
    (hn : s.table r (tablePath (va + pageOff k)) = some t) :
    ∃ s'', s'.unmapPage hhdm (tablePtr hhdm r) va (pageOff k) = .ok s'' ∧
      Unmaps places free s r va (k + 1) s'' := by
  have hlt := table_lt (h.same.trees.root hp) hn
  obtain ⟨hs'', hsame⟩ : s'.unmapPage hhdm (tablePtr hhdm r) va (pageOff k) = .ok _ ∧ _ :=
    h.same.unmapPage hp hn
  refine ⟨_, hs'', hsame, ?_, ?_, h.head, ?_⟩
  · intro k' hk' t' ht'
    by_cases hslot : t' = t ∧ slot level12 (va + pageOff k') = slot level12 (va + pageOff k)
    · rw [hslot.1, hslot.2, pte_setEntry_self hlt]
    · -- not the entry that was written last, so an earlier one
      have hne : k' ≠ k := by
        rintro rfl
        exact hslot ⟨Option.some.inj (ht'.symm.trans hn), rfl⟩
      rw [pte_setEntry_of_ne hlt (Fin.isLt _) (Fin.isLt _) fun e he => hslot ⟨e, Fin.ext he⟩]
      exact h.zero k' (by omega) t' ht'
  · intro a j hne
    have hlast := hne k (Nat.lt_succ_self k) t hn
    rw [pte_setEntry_of_ne hlt (Fin.isLt _) j.isLt fun e he => hlast (Prod.ext e (Fin.ext he))]
    exact h.other a j fun k' hk' => hne k' (Nat.lt_succ_of_lt hk')
  · refine ((setEntry_eqOn hlt (Fin.isLt _)).mono ?_).trans h.mem
    intro x hx hxt
    have hxt : x / 4096 = t := hxt
    exact hx ⟨r, _, hp, by rw [hxt]; exact hn⟩

section tree

variable (hroot : r < 2 ^ 52) (hwf : s.WellFormed r free)
include hroot hwf

private theorem sameTables_refl : SameTables (treePlaces r) free s s :=
  ⟨(trees_tree_iff hroot).mpr hwf, fun _ => rfl⟩

/-- **`unmap` where every table is there.** -/
theorem unmap_returns (hlen : length.toNat + 4095 < 2 ^ 64)
    (hthere : ∀ k, k < pages length → s.table r (tablePath (va + pageOff k)) ≠ none) :
    ∃ s', s.unmap hhdm (tablePtr hhdm r) va length = .ok s' ∧
      Unmaps (treePlaces r) free s r va (pages length) s' := by
  have hstart : Unmaps (treePlaces r) free s r va 0 s :=
    ⟨sameTables_refl hroot hwf, nofun, fun _ _ _ => rfl, rfl, fun _ _ => rfl⟩
  have hret : Outcome.Returns False (s.unmap hhdm (tablePtr hhdm r) va length)
      (Unmaps (treePlaces r) free s r va (pages length)) := by
    refine eachPage_spec hlen ?_ walkFuel 0 s (Nat.zero_le _) (pages_lt length) hstart
    intro k s' hk h
    obtain ⟨t, ht⟩ := Option.ne_none_iff_exists'.mp (hthere k hk)
    exact .inl (h.step ⟨rfl, le_rfl⟩ ht)
  exact hret.exists_ok id

/-- **`unmap` reads through null exactly if a table of its range is missing.** -/
theorem unmap_null_iff : s.unmap hhdm (tablePtr hhdm r) va length = .error .nullDeref ↔
    ∃ k, k < pages length ∧ s.table r (tablePath (va + pageOff k)) = none := by
  constructor
  · intro hnull
    by_contra hall
    have hpage : ∀ k s', k < pages length → SameTables (treePlaces r) free s s' →
        ∃ s'', s'.unmapPage hhdm (tablePtr hhdm r) va (pageOff k) = .ok s'' ∧
          SameTables (treePlaces r) free s s'' := by
      intro k s' hk h
      obtain ⟨t, ht⟩ := Option.ne_none_iff_exists'.mp fun hn => hall ⟨k, hk, hn⟩
      exact ⟨_, h.unmapPage ⟨rfl, le_rfl⟩ ht⟩
    rcases eachPage_total hpage walkFuel 0 s (sameTables_refl hroot hwf) with hd | ⟨s', hs', -⟩
    · cases hnull.symm.trans hd
    · cases hnull.symm.trans hs'
  · intro hmiss
    obtain ⟨k, ⟨hk, hnone⟩, hfirst⟩ := Nat.findX hmiss
    refine eachPage_fails (I := fun _ s' => SameTables (treePlaces r) free s s') hk ?_ ?_ walkFuel 0
      s (Nat.zero_le k) (Nat.lt_trans hk (pages_lt length)) (sameTables_refl hroot hwf)
    · intro k' s' hk' h
      obtain ⟨t, ht⟩ := Option.ne_none_iff_exists'.mp fun hn =>
        hfirst k' hk' ⟨Nat.lt_trans hk' hk, hn⟩
      exact ⟨_, h.unmapPage ⟨rfl, le_rfl⟩ ht⟩
    · intro s' h
      rw [unmapPage_eq hroot, h.table ⟨rfl, le_rfl⟩, hnone]
      rfl

/-- What the processor finds after `unmap`. -/
theorem Unmaps.walk (h : Unmaps (treePlaces r) free s r va count s') (v : Word) :
    s'.walk r v = if ∃ k, k < count ∧ pageNumber v = pageNumber (va + pageOff k) then none
      else s.walk r v := by
  have htrees := (trees_tree_iff hroot).mpr hwf
  have hplace : ∀ v, (r, tablePath v) ∈ treePlaces r := fun v => ⟨rfl, le_rfl⟩
  rw [walk_eq, walk_eq]
  unfold leafAt
  rw [h.same.table (hplace v)]
  cases ht : s.table r (tablePath v) with
  | none => exact (ite_self none).symm
  | some t =>
    show s'.leaf t (slot level12 v) = if _ then none else s.leaf t (slot level12 v)
    by_cases hin : ∃ k, k < count ∧ pageNumber v = pageNumber (va + pageOff k)
    · rw [if_pos hin]
      obtain ⟨k, hk, hnum⟩ := hin
      obtain ⟨hpath, hslot⟩ := path_eq_iff.mpr hnum
      rw [hpath] at ht
      unfold leaf
      rw [hslot, h.zero k hk t ht]
      exact if_neg (by decide)
    · rw [if_neg hin]
      apply leaf_congr
      apply h.other
      intro k hk t' ht' he
      obtain ⟨rfl, hslot⟩ := Prod.mk.inj he
      obtain ⟨-, hpath⟩ := htrees.forest.sole (hplace v) (hplace _) ht ht'
      exact hin ⟨k, hk, path_eq_iff.mp ⟨hpath, hslot⟩⟩

end tree

/-- The free pages are not written. -/
theorem Unmaps.stocked (h : Unmaps places free s r va count s') (hst : s.Stocked hhdm st)
    (hfree : ∀ {r p n}, (r, p) ∈ places → s.table r p = some n → n ∉ st.pool) :
    s'.Stocked hhdm st := by
  refine hst.frame h.head (h.mem.mono ?_)
  rintro x hx ⟨r', p, hp, hn⟩
  exact hfree hp hn hx

/-- A range that wraps round the address space is no range of aligned length. -/
theorem length_of_aligned (h : length.toNat % 4096 = 0) : length.toNat + 4095 < 2 ^ 64 := by
  have hlt := length.isLt
  omega

/-- A page is mapped if all upper levels are there and its leaf entry is PRESENT. -/
theorem walk_ne_none_iff : s.walk r v ≠ none ↔
    ∃ t, s.table r (tablePath v) = some t ∧ Present (s.pte t (slot level12 v)) := by
  rw [walk_eq, leafAt]
  cases s.table r (tablePath v) with
  | none =>
    constructor
    · exact fun h => absurd rfl h
    · rintro ⟨t, ht, -⟩
      cases ht
  | some t =>
    show (if Present (s.pte t (slot level12 v)) then some _ else none) ≠ none ↔ _
    by_cases hp : Present (s.pte t (slot level12 v))
    · rw [if_pos hp]
      exact ⟨fun _ => ⟨t, rfl, hp⟩, fun _ => Option.some_ne_none _⟩
    · rw [if_neg hp]
      constructor
      · exact fun h => absurd rfl h
      · rintro ⟨_, ht, hp'⟩
        cases ht
        exact absurd hp' hp

/-- A page that is mapped has all its tables. -/
theorem table_of_walk (h : s.walk r v ≠ none) : s.table r (tablePath v) ≠ none := by
  obtain ⟨t, ht, -⟩ := walk_ne_none_iff.mp h
  rw [ht]
  exact Option.some_ne_none t

private theorem walk_of_pageNumber {w : Word} (h : pageNumber v = pageNumber w) :
    s.walk r v = s.walk r w := by
  obtain ⟨hpath, hslot⟩ := path_eq_iff.mpr h
  rw [walk_eq, walk_eq, hpath, hslot]

/-- **`unmap` undoes `map`.** Over a well-formed tree: `map` of a range of which no page was mapped,
and `unmap` of the range after it, leave every address as the processor saw it before, and the tree
well formed; together they return unless `map` runs out of pages. And `unmap` of a range that is
mapped throughout removes its pages and no others. Neither needs `va` to be aligned. -/
theorem unmap_correct {root : Nat} (hroot : root < 2 ^ 52) (hst : s.Stocked hhdm st)
    (hwf : s.WellFormed root st.pool) (va : Word) :
    (∀ pa length flags : Word, pa.toNat + length.toNat ≤ 2 ^ 48 → Present flags →
      (∀ k, k < pages length → s.walk root (va + pageOff k) = none) →
      Outcome.Returns (st.freePages < (s.missing (rangeTables root va length)).ncard)
        (s.map hhdm (tablePtr hhdm root) pa va length flags >>=
          unmap hhdm (tablePtr hhdm root) va length)
        fun s₂ => ∃ st₂ : Stock hhdm, s₂.Stocked hhdm st₂ ∧ s₂.WellFormed root st₂.pool ∧
          ∀ v, s₂.walk root v = s.walk root v) ∧
    (∀ length : Word, length.toNat % 4096 = 0 →
      (∀ k, k < pages length → s.walk root (va + pageOff k) ≠ none) →
      ∃ s', s.unmap hhdm (tablePtr hhdm root) va length = .ok s' ∧ s'.WellFormed root st.pool ∧
        ∀ v, s'.walk root v =
          if ∃ k, k < pages length ∧ pageNumber v = pageNumber (va + pageOff k) then none
          else s.walk root v) := by
  constructor
  · intro pa length flags hpl hpres hfresh
    have htree := (tables_tree_iff hroot).mpr ⟨hst, hwf⟩
    have hX : (rangeTables root va length).Finite :=
      (treePlaces_finite root).subset rangeTables_subset
    refine (htree.map (r := root) hX rangeTables_subset (by omega)
      (fun k hk p hne hpre => ⟨rfl, hne, k, hk, hpre⟩) pa flags).bind fun s₁ hs₁ => ?_
    obtain ⟨st₁, hm⟩ := hs₁
    obtain ⟨hst₁, hwf₁⟩ := (tables_tree_iff hroot).mp hm.tables
    have hthere : ∀ k, k < pages length → s₁.table root (tablePath (va + pageOff k)) ≠ none := by
      intro k hk
      apply table_of_walk
      have hcount : 4096 * pages length < length.toNat + 4096 := by
        unfold pages
        omega
      rw [walk_eq, hm.here k hk, alignDown_pageOff (by omega),
        if_pos ((present_framePa_or (by omega)).mpr hpres)]
      exact Option.some_ne_none _
    obtain ⟨s₂, hs₂, h⟩ : ∃ s₂, s₁.unmap hhdm (tablePtr hhdm root) va length = .ok s₂ ∧ _ :=
      unmap_returns hroot hwf₁ (by omega) hthere
    rw [hs₂]
    refine .ok ⟨st₁, h.stocked hst₁ fun hp hn => hm.tables.forest.used hp hn,
      (trees_tree_iff hroot).mp h.same.trees, ?_⟩
    intro v
    rw [h.walk hroot hwf₁ v]
    by_cases hin : ∃ k, k < pages length ∧ pageNumber v = pageNumber (va + pageOff k)
    · rw [if_pos hin]
      obtain ⟨k, hk, hnum⟩ := hin
      rw [walk_of_pageNumber hnum, hfresh k hk]
    · rw [if_neg hin, walk_eq, walk_eq]
      apply hm.there ⟨rfl, le_rfl⟩ rfl
      intro k hk e
      simp only [Prod.mk.injEq, true_and] at e
      exact hin ⟨k, hk, path_eq_iff.mp e⟩
  · intro length hlen hmapped
    obtain ⟨s', hs', h⟩ : ∃ s', s.unmap hhdm (tablePtr hhdm root) va length = .ok s' ∧ _ :=
      unmap_returns hroot hwf (length_of_aligned hlen) fun k hk => table_of_walk (hmapped k hk)
    exact ⟨s', hs', (trees_tree_iff hroot).mp h.same.trees, h.walk hroot hwf⟩

theorem unmap_correct_threePages : ∃ s', (threePages.map hhdm₀
    (tablePtr hhdm₀ 8) 0x5000 0x400000 0x1000 (present ||| writeable) >>=
      unmap hhdm₀ (tablePtr hhdm₀ 8) 0x400000 0x1000) = .ok s' ∧
    s'.walk 8 0x400abc = threePages.walk 8 0x400abc := by
  have hcard : (threePages.missing (rangeTables 8 0x400000 0x1000)).ncard ≤ 3 :=
    (Set.ncard_le_ncard (fun _ hz => hz.1)
      ((treePlaces_finite 8).subset rangeTables_subset)).trans ncard_rangeTables_le
  have hfresh : ∀ k, k < pages 0x1000 → threePages.walk 8 (0x400000 + pageOff k) = none := by
    intro k hk
    obtain rfl : k = 0 := Nat.lt_one_iff.mp hk
    decide +kernel
  have hret := (unmap_correct (by decide) threePages_stocked
    (wellFormed_initPmm Clients.smallMap_ok fun hp => absurd (threePages_pool hp) (by decide))
    0x400000).1 0x5000 0x1000 (present ||| writeable) (by decide) (by decide) hfresh
  obtain ⟨s', hs', -, -, -, hwalk⟩ := hret.exists_ok fun hlt => absurd hcard (Nat.not_le.mpr hlt)
  exact ⟨s', hs', hwalk _⟩

/-! ## Absent levels -/

/-- `unmap` of a range whose leaf entries are all zero leaves memory as it is. -/
theorem unmap_zero (hroot : r < 2 ^ 52) (hlen : length.toNat + 4095 < 2 ^ 64)
    (hzero : ∀ k, k < pages length → ∃ t, s.table r (tablePath (va + pageOff k)) = some t ∧
      s.pte t (slot level12 (va + pageOff k)) = 0) :
    s.unmap hhdm (tablePtr hhdm r) va length = .ok s := by
  have hret : Outcome.Returns False (s.unmap hhdm (tablePtr hhdm r) va length) (· = s) := by
    refine eachPage_spec (I := fun _ s' => s' = s) hlen ?_ walkFuel 0 s (Nat.zero_le _)
      (pages_lt length) rfl
    rintro k _ hk rfl
    obtain ⟨t, ht, hpte⟩ := hzero k hk
    rw [unmapPage_eq hroot, ht, deref_some, ok_bind, pure_eq_ok]
    refine .ok ?_
    unfold setEntry
    rw [physOf_tablePtr (table_lt hroot ht), ← hpte]
    unfold pte
    rw [store64_load64]
  obtain ⟨s', hs', rfl⟩ := hret.exists_ok id
  exact hs'

/-- `va_to_pa` neither reads through null nor reports an address for a page that is not mapped exactly if
the page is mapped. -/
theorem vaToPa_safe_iff (hroot : r < 2 ^ 52) (dirPa va : Word) :
    (s.vaToPa hhdm ⟨tablePtr hhdm r, dirPa⟩ va ≠ .error .nullDeref ∧
      ∀ pa, s.vaToPa hhdm ⟨tablePtr hhdm r, dirPa⟩ va = .ok pa → s.walk r va ≠ none) ↔
    ∃ t, s.table r (tablePath va) = some t ∧ Present (s.pte t (slot level12 va)) := by
  rw [vaToPa_eq hroot, ← walk_ne_none_iff]
  constructor
  · rintro ⟨hnull, hmapped⟩
    cases ht : s.table r (tablePath va) with
    | none =>
      rw [ht] at hnull
      exact absurd rfl hnull
    | some t =>
      rw [ht] at hmapped
      exact hmapped _ rfl
  · intro h
    obtain ⟨t, ht, -⟩ := walk_ne_none_iff.mp h
    rw [ht]
    refine ⟨fun herr => ?_, fun _ _ => h⟩
    cases herr

/-- **Walks over absent levels.** Over any well-formed tree, any address and any range:

* `va_to_pa` reads through null exactly if the page table is missing, and otherwise reports an
  address, present or not; so it is safe exactly if all upper levels are there and the leaf is PRESENT;
* `unmap` reads through null exactly if the page table of one of its pages is missing;
* `unmap` of pages that are not mapped, if it returns, changes no translation, and no memory exactly
  if their entries were zero. -/
theorem walks_absent {root : Nat} (hroot : root < 2 ^ 52) (hwf : s.WellFormed root free)
    (dirPa va length : Word) :
    (s.vaToPa hhdm ⟨tablePtr hhdm root, dirPa⟩ va = .error .nullDeref ↔
      s.table root (tablePath va) = none) ∧
    (∀ t, s.table root (tablePath va) = some t → s.vaToPa hhdm ⟨tablePtr hhdm root, dirPa⟩ va =
      .ok ((s.pte t (slot level12 va) &&& paddrMask) ||| (va &&& offMask))) ∧
    ((s.vaToPa hhdm ⟨tablePtr hhdm root, dirPa⟩ va ≠ .error .nullDeref ∧
        ∀ pa, s.vaToPa hhdm ⟨tablePtr hhdm root, dirPa⟩ va = .ok pa → s.walk root va ≠ none) ↔
      ∃ t, s.table root (tablePath va) = some t ∧ Present (s.pte t (slot level12 va))) ∧
    (s.unmap hhdm (tablePtr hhdm root) va length = .error .nullDeref ↔
      ∃ k, k < pages length ∧ s.table root (tablePath (va + pageOff k)) = none) ∧
    (∀ s', s.unmap hhdm (tablePtr hhdm root) va length = .ok s' →
      (∀ k, k < pages length → s.walk root (va + pageOff k) = none) →
      (∀ v, s'.walk root v = s.walk root v) ∧
      (s' = s ↔ ∀ k, k < pages length → ∀ t, s.table root (tablePath (va + pageOff k)) = some t →
        s.pte t (slot level12 (va + pageOff k)) = 0)) := by
  refine ⟨?_, ?_, vaToPa_safe_iff hroot dirPa va, unmap_null_iff hroot hwf, ?_⟩
  · rw [vaToPa_eq hroot]
    cases s.table root (tablePath va) with
    | none => exact ⟨fun _ => rfl, fun _ => rfl⟩
    | some t => exact ⟨nofun, nofun⟩
  · intro t ht
    rw [vaToPa_eq hroot, ht]
    rfl
  · intro s' hs' hnone
    have hlen : length.toNat + 4095 < 2 ^ 64 := eachPage_length walkFuel 0 s hs'
    have hthere : ∀ k, k < pages length → s.table root (tablePath (va + pageOff k)) ≠ none := by
      intro k hk hn
      cases hs'.symm.trans ((unmap_null_iff hroot hwf).mpr ⟨k, hk, hn⟩)
    obtain ⟨_, hsame, h⟩ := unmap_returns hroot hwf hlen hthere
    cases hs'.symm.trans hsame
    refine ⟨?_, ?_, ?_⟩
    · intro v
      rw [h.walk hroot hwf v]
      split
      · next hin =>
        obtain ⟨k, hk, hnum⟩ := hin
        rw [walk_of_pageNumber hnum, hnone k hk]
      · rfl
    · rintro rfl
      exact h.zero
    · intro hzero
      refine Except.ok.inj (hs'.symm.trans (unmap_zero hroot hlen ?_))
      intro k hk
      obtain ⟨t, ht⟩ := Option.ne_none_iff_exists'.mp (hthere k hk)
      exact ⟨t, ht, hzero k hk t ht⟩

theorem walks_absent_threePages :
    threePages.vaToPa hhdm₀ ⟨tablePtr hhdm₀ 8, 0x8000⟩ 0x400000 =
      .error .nullDeref := by
  have hwf : threePages.WellFormed 8 (Arena.init Clients.smallMap_ok).stock.pool :=
    wellFormed_initPmm Clients.smallMap_ok fun hp => absurd (threePages_pool hp) (by decide)
  exact (walks_absent (by decide) hwf 0x8000 0x400000 0).1.mpr (by decide +kernel)

/-- **Null pointers, and an address that is not there.** In an empty page map both calls read through
null; and after a page was mapped and unmapped, `va_to_pa` still reports an address for it. -/
theorem walks_absent_fail :
    threePages.unmap hhdm₀ (tablePtr hhdm₀ 8) 0x400000 0x1000 =
      .error .nullDeref ∧
    threePages.vaToPa hhdm₀ ⟨tablePtr hhdm₀ 8, 0x8000⟩ 0x400000 =
      .error .nullDeref ∧
    ∃ s', (threePages.map hhdm₀ (tablePtr hhdm₀ 8) 0x5000 0x400000 0x1000
        (present ||| writeable) >>=
          unmap hhdm₀ (tablePtr hhdm₀ 8) 0x400000 0x1000) = .ok s' ∧
      s'.walk 8 0x400abc = none ∧
      s'.vaToPa hhdm₀ ⟨tablePtr hhdm₀ 8, 0x8000⟩ 0x400abc =
        .ok 0xabc := by
  have hunmap : (threePages.unmap hhdm₀ (tablePtr hhdm₀ 8) 0x400000
      0x1000).map (fun _ => ()) = .error .nullDeref := by decide +kernel
  have hrun : (threePages.map hhdm₀ (tablePtr hhdm₀ 8) 0x5000 0x400000
      0x1000 (present ||| writeable) >>=
        unmap hhdm₀ (tablePtr hhdm₀ 8) 0x400000 0x1000).map
      (fun s' => (s'.walk 8 0x400abc,
        s'.vaToPa hhdm₀ ⟨tablePtr hhdm₀ 8, 0x8000⟩ 0x400abc)) =
      .ok (none, .ok 0xabc) := by decide +kernel
  refine ⟨?_, by decide +kernel, ?_⟩
  · cases hu : threePages.unmap hhdm₀ (tablePtr hhdm₀ 8) 0x400000
        0x1000 with
    | ok s' =>
      rw [hu] at hunmap
      cases hunmap
    | error e =>
      rw [hu] at hunmap
      exact congrArg _ (Except.error.inj hunmap)
  · obtain ⟨s', hs', hval⟩ := map_ok.mp hrun
    exact ⟨s', hs', congrArg Prod.fst hval, congrArg Prod.snd hval⟩

end Phys

end TwoKernel
