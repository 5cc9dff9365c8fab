import TwoKernel.Laws.Memory.Spaces

/-!
# Tables are counted

The allocator counts the allocations it has made (`g_ref_alloc`), and every page
table is an allocation of its own. `Counted X s s'` says that between `s` and `s'`
the counter went up by the number of tables of `X` that were made, beside `Paid`,
which says that the free pages went down by it. Both hold of every function that
extends a tree.

The last section is about the counter going down: how many pages a `Till` takes
back, and what is left.
-/

namespace TwoKernel

open ByteMem Vmm Trie

variable {hhdm : Word} {s s' s'' : Phys} {st st' st'' : Stock hhdm} {places X : Set Place}
  {r n m k : Nat} {p q : List (Fin 512)} {i j : Fin 512} {pa va length flags off : Word}

namespace Phys

/-! ## The free list is one list -/

/-- A free list can be read off the memory. -/
theorem Holds.unique {l l' : List Block} (h : s.Holds hhdm l) (h' : s.Holds hhdm l') : l = l' := by
  have hread : ∀ {l : List Block}, s.Holds hhdm l → (l.map (Block.node hhdm)).map
      (fun p => Block.mk (s.field hhdm .pa p) (s.field hhdm .numPages p)) = l := by
    intro l h
    rw [List.map_map]
    refine (List.map_congr_left fun b hb => ?_).trans (List.map_id l)
    show Block.mk (s.field hhdm .pa (b.node hhdm)) (s.field hhdm .numPages (b.node hhdm)) = b
    rw [h.pa b hb, h.numPages b hb]
  rw [← hread h, ← hread h', h.chain.unique h'.chain]

theorem Holds.freePages_eq (h : s.Holds hhdm st.blocks) (h' : s.Holds hhdm st'.blocks) :
    st.freePages = st'.freePages := by
  unfold Stock.freePages
  rw [h.unique h']

private theorem missing_subset (h : Keeps places s st s' st') (hX : X ⊆ places) :
    s'.missing X ⊆ s.missing X := by
  rintro ⟨r, p⟩ ⟨hz, hnone⟩
  refine ⟨hz, Option.eq_none_iff_forall_not_mem.mpr fun n hn => ?_⟩
  cases hnone.symm.trans (h.table (hX hz) hn)

/-- **`map` makes no table it does not need.** One that is there afterwards was there before, or is
on the way to a page of the range. -/
theorem Tables.table_of_map (h : Tables hhdm s st places) (hX : X.Finite) (hXp : X ⊆ places)
    (hlen : length.toNat ≤ 2 ^ 48) (hrange : rangeTables r va length ⊆ X)
    (hs : s.map hhdm (tablePtr hhdm r) pa va length flags = .ok s') {z : Place} (hz : z ∈ X)
    (hat : s'.table z.1 z.2 ≠ none) :
    s.table z.1 z.2 ≠ none ∨ z ∈ rangeTables r va length := by
  have hway : ∀ k, k < pages length → ∀ p, p ≠ [] → p <+: tablePath (va + pageOff k) →
      (r, p) ∈ rangeTables r va length := fun k hk p hne hpre => ⟨rfl, hne, k, hk, hpre⟩
  have hfin := hX.subset hrange
  obtain ⟨st₁, h₁⟩ := (h.map hX hXp hlen (fun k hk p hne hpre => hrange (hway k hk p hne hpre))
    pa flags).of_ok hs
  obtain ⟨st₂, h₂⟩ := (h.map hfin (hrange.trans hXp) hlen hway pa flags).of_ok hs
  have hfree := h₁.tables.stocked.holds.freePages_eq h₂.tables.stocked.holds
  by_contra hnew
  obtain ⟨hbefore, hout⟩ := not_or.mp hnew
  have hbefore : s.table z.1 z.2 = none := not_not.mp hbefore
  -- as many places of `X` are filled as places of the range, so none outside the range is
  have hsplit : ∀ t : Phys, (t.missing X).ncard =
      (t.missing (rangeTables r va length)).ncard +
        (t.missing (X \ rangeTables r va length)).ncard := by
    intro t
    rw [← Set.ncard_union_eq ?_ (hfin.subset fun _ hy => hy.1)
      ((hX.subset Set.sdiff_subset).subset fun _ hy => hy.1)]
    · congr 1
      ext y
      by_cases hy : y ∈ rangeTables r va length
      · simp [missing, hy, hrange hy]
      · simp [missing, hy]
    · exact Set.disjoint_left.mpr fun y hy hy' => hy'.1.2 hy.1
  have hlt : (s'.missing (X \ rangeTables r va length)).ncard <
      (s.missing (X \ rangeTables r va length)).ncard :=
    Set.ncard_lt_ncard ⟨missing_subset h₁.keeps (Set.sdiff_subset.trans hXp),
      fun hsub => hat (hsub ⟨⟨hz, hout⟩, hbefore⟩).2⟩
      ((hX.subset Set.sdiff_subset).subset fun _ hy => hy.1)
  have hpaid₁ := h₁.paid
  have hpaid₂ := h₂.paid
  unfold Paid at hpaid₁ hpaid₂
  rw [hsplit s, hsplit s'] at hpaid₁
  omega

/-! ## The counter going up -/

/-- The counter went up by the tables of `X` that are no longer missing. -/
def Counted (X : Set Place) (s s' : Phys) : Prop :=
  s'.gRefAlloc + BitVec.ofNat 64 (s'.missing X).ncard =
    s.gRefAlloc + BitVec.ofNat 64 (s.missing X).ncard

theorem Counted.trans (h : Counted X s s') (h' : Counted X s' s'') : Counted X s s'' :=
  Eq.trans h' h

private theorem pushRest_gRefAlloc (count curr : Word) :
    (s.pushRest hhdm count curr).gRefAlloc = s.gRefAlloc := by
  unfold pushRest
  split <;> rfl

/-- The scan does nothing or counts, whatever the free list looks like. -/
theorem scan_cases {count prev curr a : Word} {fuel : Nat}
    (hs : scan hhdm count fuel prev curr s = .ok (a, s')) :
    (a = 0 ∧ s' = s) ∨ s'.gRefAlloc = s.gRefAlloc + 1 := by
  induction fuel generalizing prev curr with
  | zero => cases hs
  | succ fuel ih =>
    unfold scan at hs
    split at hs
    · cases hs
      exact .inl ⟨rfl, rfl⟩
    · split at hs
      · cases hs
        right
        show ((s.unlink hhdm prev curr).pushRest hhdm count curr).gRefAlloc + 1 = _
        rw [pushRest_gRefAlloc, unlink_gRefAlloc]
      · exact ih hs

theorem alloc_cases {count a : Word} (hs : s.alloc hhdm count = .ok (a, s')) :
    (a = 0 ∧ s' = s) ∨ s'.gRefAlloc = s.gRefAlloc + 1 := scan_cases hs

/-- An allocation is counted. -/
theorem alloc_counted {count a : Word} (hs : s.alloc hhdm count = .ok (a, s')) (ha : a ≠ 0) :
    s'.gRefAlloc = s.gRefAlloc + 1 :=
  (alloc_cases hs).resolve_left fun h => ha h.1

/-- The loops that fill a root count a table for each slot. -/
theorem fillEntries_gRefAlloc {pml4 : Word} (l : List Nat) : ∀ {s : Phys},
    l.foldlM (fillEntry hhdm pml4 flags) s = .ok s' →
    s'.gRefAlloc = s.gRefAlloc + BitVec.ofNat 64 l.length := by
  induction l with
  | nil =>
    intro s hs
    cases hs
    exact (BitVec.add_zero _).symm
  | cons k l ih =>
    intro s hs
    rw [List.foldlM_cons] at hs
    obtain ⟨s₁, hs₁, hs⟩ := bind_ok.mp hs
    have hone : s₁.gRefAlloc = s.gRefAlloc + 1 := by
      obtain ⟨x, hx, hs₁⟩ := bind_ok.mp hs₁
      split at hs₁
      · cases hs₁
      · next hne =>
        cases hs₁
        have hcount : x.2.gRefAlloc = s.gRefAlloc + 1 := alloc_counted hx hne
        exact hcount
    rw [ih hs, hone, List.length_cons, BitVec.ofNat_add, BitVec.add_assoc, BitVec.add_comm 1]
    rfl

/-- A new directory is one allocation. -/
theorem newPagemap_gRefAlloc {d : PageDirectory} (hs : s.newPagemap hhdm = .ok (d, s')) :
    s'.gRefAlloc = s.gRefAlloc + 1 := by
  obtain ⟨x, hx, hs⟩ := bind_ok.mp hs
  split at hs
  · cases hs
  · next hne =>
    cases hs
    have hcount : x.2.gRefAlloc = s.gRefAlloc + 1 := alloc_counted hx hne
    exact hcount

namespace Tables

/-- One table more, and one allocation. -/
theorem sprout_counted (h : Tables hhdm s st places) (hp : (r, q ++ [i]) ∈ places)
    (hn : s.table r q = some n) (hi : s.link n i = none) (hl : Linked s st n i m s' st')
    (hX : X.Finite) (hXp : X ⊆ places) (hz : (r, q ++ [i]) ∈ X)
    (hcount : s'.gRefAlloc = s.gRefAlloc + 1) : Counted X s s' := by
  have hcard := h.sprout_missing hp hn hi hl hX hXp hz
  unfold Counted
  rw [hcount, ← hcard, BitVec.ofNat_add, BitVec.add_assoc, BitVec.add_comm 1]
  rfl

private theorem getNextLevel_counted {x : Option Word × Phys} (h : Tables hhdm s st places)
    (hX : X.Finite)
    (hXp : X ⊆ places) (hz : (r, q ++ [i]) ∈ X) (hn : s.table r q = some n)
    (hs : s.getNextLevel hhdm (tablePtr hhdm n) i flags true = .ok x) : Counted X s x.2 := by
  have hp : (r, q ++ [i]) ∈ places := hXp hz
  have hq : (r, q) ∈ places := h.forest.closed hp
  have hlt := h.trees.table_lt hq hn
  unfold Phys.getNextLevel at hs
  rw [entry_tablePtr hlt] at hs
  by_cases hpres : Present (s.pte n i)
  · rw [if_pos hpres] at hs
    cases hs
    exact Eq.refl _
  · rw [if_neg hpres, if_pos rfl] at hs
    have hlink : s.link n i = none := if_neg hpres
    rcases h.stocked.newTable with ⟨-, ha⟩ | ⟨m, s₁, st', ha, hne, hnew⟩
    · rw [ha] at hs
      cases hs
    · rw [ha, ok_bind, if_neg hne, tableFlags_eq] at hs
      cases hs
      obtain ⟨hf, hfp⟩ := tableFlags_ok flags
      have hcount : s₁.gRefAlloc = s.gRefAlloc + 1 := alloc_counted ha hne
      exact h.sprout_counted hp hn hlink
        (linked_of_newTable hnew (h.stocked.low m hnew.taken) (h.forest.used hq hn) hlt hf hfp)
        hX hXp hz hcount

/-- One more level down from a table that was reached, counted. -/
theorem Grown.next_counted {x : Option Word × Phys} (h : Grown X places s st r q n s' st')
    (hc : Counted X s s') (hX : X.Finite) (hXp : X ⊆ places) (hz : (r, q ++ [i]) ∈ X)
    (hs : s'.getNextLevel hhdm (tablePtr hhdm n) i flags true = .ok x) :
    ∃ m st'', x.1 = some (tablePtr hhdm m) ∧ Grown X places s st r (q ++ [i]) m x.2 st'' ∧
      Counted X s x.2 := by
  obtain ⟨m, st'', hptr, hg⟩ := (h.next hX hXp hz flags).of_ok hs
  exact ⟨m, st'', hptr, hg, hc.trans (h.tables.getNextLevel_counted hX hXp hz h.reached hs)⟩

private theorem pageTable_counted {x : Word × Phys} (h : Tables hhdm s st places) (hX : X.Finite)
    (hXp : X ⊆ places) (hva : ∀ p, p ≠ [] → p <+: tablePath va → (r, p) ∈ X)
    (hs : s.pageTable hhdm (tablePtr hhdm r) va flags true = .ok x) : Counted X s x.2 := by
  have h0 : Grown X places s st r [] r s st := ⟨h, rfl, fun _ _ _ => rfl, .refl, rfl⟩
  have h39 : (r, [slot level39 va]) ∈ X := hva _ (by simp) ⟨_, rfl⟩
  have h30 : (r, [slot level39 va, slot level30 va]) ∈ X := hva _ (by simp) ⟨_, rfl⟩
  have h21 : (r, tablePath va) ∈ X := hva _ (by simp [tablePath]) List.prefix_rfl
  obtain ⟨x₁, hs₁, hs⟩ := bind_ok.mp hs
  obtain ⟨pdpt, st₁, hptr₁, h1, hc₁⟩ :=
    h0.next_counted rfl hX hXp (i := slot level39 va) h39 hs₁
  rw [hptr₁, deref_some, ok_bind] at hs
  obtain ⟨x₂, hs₂, hs⟩ := bind_ok.mp hs
  obtain ⟨pd, st₂, hptr₂, h2, hc₂⟩ :=
    h1.next_counted hc₁ hX hXp (i := slot level30 va) h30 hs₂
  rw [hptr₂, deref_some, ok_bind] at hs
  obtain ⟨x₃, hs₃, hs⟩ := bind_ok.mp hs
  obtain ⟨pt, st₃, hptr₃, -, hc₃⟩ :=
    h2.next_counted hc₂ hX hXp (i := slot level21 va) h21 hs₃
  rw [hptr₃, deref_some, ok_bind] at hs
  cases hs
  exact hc₃

private theorem mapPage_counted (h : Tables hhdm s st places) (hX : X.Finite) (hXp : X ⊆ places)
    (hva : ∀ p, p ≠ [] → p <+: tablePath (va + off) → (r, p) ∈ X)
    (hs : s.mapPage hhdm (tablePtr hhdm r) pa va flags off = .ok s') : Counted X s s' := by
  rw [← tablePath_alignDown] at hva
  obtain ⟨x, hx, hs⟩ := bind_ok.mp hs
  obtain ⟨t, st', hptr, hg⟩ := (h.pageTable hX hXp hva flags).of_ok hx
  have hc := h.pageTable_counted hX hXp hva hx
  cases hs
  rw [hptr]
  have hp : (r, tablePath (alignDown (va + off) pageSize)) ∈ places :=
    hXp (hva _ (by simp [tablePath]) List.prefix_rfl)
  have hleaf := hg.tables.setLeaf_missing (i := slot level12 (alignDown (va + off) pageSize)) hp rfl
    hg.reached (alignDown (pa + off) pageSize ||| flags) hXp
  refine hc.trans ?_
  show x.2.gRefAlloc + BitVec.ofNat 64 (Set.ncard _) = _
  rw [show index 12 (alignDown (va + off) pageSize) =
    (slot level12 (alignDown (va + off) pageSize)).val from rfl, hleaf]

/-- **`map` counts the tables it makes.** -/
theorem map_counted (h : Tables hhdm s st places) (hX : X.Finite) (hXp : X ⊆ places)
    (hva : ∀ off, off < length → ∀ p, p ≠ [] → p <+: tablePath (va + off) → (r, p) ∈ X)
    (hs : s.map hhdm (tablePtr hhdm r) pa va length flags = .ok s') : Counted X s s' := by
  have hinv : (∃ st', Tables hhdm s' st' places) ∧ Counted X s s' := by
    refine eachPage_invariant
      (I := fun s' => (∃ st' : Stock hhdm, Tables hhdm s' st' places) ∧ Counted X s s')
      ?_ walkFuel 0 s ⟨⟨st, h⟩, Eq.refl _⟩ hs
    rintro off s₁ s₂ hoff ⟨⟨st₁, h₁⟩, hc₁⟩ hs₂
    obtain ⟨st₂, hm⟩ := (h₁.mapPage hX hXp (hva off hoff) pa flags).of_ok hs₂
    exact ⟨⟨st₂, hm.tables⟩, hc₁.trans (h₁.mapPage_counted hX hXp (hva off hoff) hs₂)⟩
  exact hinv.2

/-- **Filling counts.** Only the slots that are filled change, each to a table of its own. -/
theorem fillEntries_counted (hf : flags &&& paddrMask = 0) (hpres : Present flags) (hX : X.Finite)
    (hXp : X ⊆ places) (l : List Nat) :
    ∀ {s : Phys} {st : Stock hhdm}, Tables hhdm s st places → Vacant s places r l →
      (∀ k ∈ l, ∀ hk : k < 512, (r, [⟨k, hk⟩]) ∈ X) →
      l.foldlM (Phys.fillEntry hhdm (tablePtr hhdm r) flags) s = .ok s' →
      ∃ st', Tables hhdm s' st' places ∧ Counted X s s' ∧ Paid X s st s' st' ∧
        ∀ {p}, (r, p) ∈ places → 2 ≤ p.length → s'.table r p = s.table r p := by
  induction l with
  | nil =>
    intro s st h _ _ hs
    cases hs
    exact ⟨st, h, Eq.refl _, Eq.refl _, fun _ _ => rfl⟩
  | cons k l ih =>
    intro s st h hv hmem hs
    obtain ⟨hk, hp, hempty⟩ := hv.2 k List.mem_cons_self
    have hroot : (r, []) ∈ places := h.forest.closed (p := []) hp
    have hlink : s.link r ⟨k, hk⟩ = none := if_neg hempty
    have hz := hmem k List.mem_cons_self hk
    rw [List.foldlM_cons] at hs
    obtain ⟨s₁, hs₁, hs⟩ := bind_ok.mp hs
    obtain ⟨m, st₁, hl⟩ := (h.fillEntry (i := ⟨k, hk⟩) hp hf hpres).of_ok hs₁
    have hcount : s₁.gRefAlloc = s.gRefAlloc + 1 :=
      fillEntries_gRefAlloc [k] (by rw [List.foldlM_cons, hs₁]; rfl)
    obtain ⟨h₁, -, hrest⟩ := h.sprout (q := []) hp rfl hlink hl
    obtain ⟨st', h', hc, hpaid, hsame⟩ := ih h₁ (hv.tail h hroot hl)
      (fun k' hk' => hmem k' (List.mem_cons_of_mem _ hk')) hs
    refine ⟨st', h', ?_, ?_, ?_⟩
    · exact (h.sprout_counted (q := []) hp rfl hlink hl hX hXp hz hcount).trans hc
    · exact (h.sprout_paid (q := []) hp rfl hlink hl hX hXp hz).trans hpaid
    · intro p hpp hlen
      refine (hsame hpp hlen).trans (hrest hpp ?_)
      intro e
      rw [(Prod.mk.inj e).2] at hlen
      exact absurd hlen (Nat.not_succ_le_self 1)

end Tables

/-! ## The counter going down -/

namespace Till

/-- A till takes back as many pages as it has counted. -/
theorem giveBack_all (l : List Nat) : ∀ t : Till, l.length ≤ t.count.toNat →
    l.foldl giveBack t = ⟨t.count - BitVec.ofNat 64 l.length,
      (l.map fun f => Block.mk (framePa f) 1).reverse ++ t.blocks⟩ := by
  induction l with
  | nil =>
    intro t _
    show t = _
    rw [List.length_nil, List.map_nil, List.reverse_nil, List.nil_append, BitVec.sub_zero]
  | cons f l ih =>
    intro t hlen
    rw [List.length_cons] at hlen
    have hone : (1 : Word).toNat = 1 := rfl
    have hz : t.count ≠ 0 := by
      intro e
      rw [e] at hlen
      exact absurd hlen (Nat.not_succ_le_zero _)
    have hsub : (t.count - 1).toNat = t.count.toNat - 1 := by
      rw [BitVec.toNat_sub_of_le (BitVec.le_def.mpr (by omega)), hone]
    have hstep : t.giveBack f = ⟨t.count - 1, ⟨framePa f, 1⟩ :: t.blocks⟩ := if_neg hz
    rw [List.foldl_cons, hstep, ih _ (by rw [hsub]; omega), List.length_cons, List.map_cons,
      List.reverse_cons, List.append_assoc, List.singleton_append]
    congr 1
    show t.count - 1 - _ = _
    rw [BitVec.ofNat_add, BitVec.sub_sub, BitVec.add_comm]
    rfl

/-- And no more. -/
theorem giveBack_length (l : List Nat) : ∀ t : Till,
    (l.foldl giveBack t).blocks.length ≤ t.count.toNat + t.blocks.length := by
  induction l with
  | nil =>
    intro t
    exact Nat.le_add_left _ _
  | cons f l ih =>
    intro t
    refine Nat.le_trans (ih (t.giveBack f)) ?_
    unfold giveBack
    split
    · exact Nat.le_refl _
    · next hz =>
      have hone : (1 : Word).toNat = 1 := rfl
      have hpos : 0 < t.count.toNat := Nat.pos_of_ne_zero fun e => hz (BitVec.eq_of_toNat_eq e)
      have hsub : (t.count - 1).toNat = t.count.toNat - 1 := by
        rw [BitVec.toNat_sub_of_le (BitVec.le_def.mpr (by omega)), hone]
      simp only [hsub, List.length_cons]
      omega

end Till

/-- The converse of `mem_freed`. -/
theorem freed_of_path (levels : Nat) : ∀ f p, p ≠ [] → LowPath levels p → s.table f p = some n →
    n ∈ s.freed levels f := by
  induction levels with
  | zero =>
    intro f p hne hlow _
    exact absurd (List.length_eq_zero_iff.mp (Nat.le_zero.mp hlow.1)) hne
  | succ levels ih =>
    intro f p hne hlow hn
    cases p with
    | nil => exact absurd rfl hne
    | cons i p =>
      have hi : i.val < 256 := hlow.2 i List.mem_cons_self
      obtain ⟨c, hc, hn⟩ := Option.bind_eq_some_iff.mp (show (s.link f i).bind _ = some n from hn)
      have hp : Present (s.pte f i) := by
        by_contra hno
        have hnone : s.link f i = none := if_neg hno
        rw [hnone] at hc
        cases hc
      have hlink : s.link f i = some (frameOf (s.pte f i)) := if_pos hp
      obtain rfl : frameOf (s.pte f i) = c := Option.some.inj (hlink.symm.trans hc)
      rw [freed_succ]
      refine List.mem_flatMap.mpr ⟨i, List.mem_range.mpr hi, ?_⟩
      unfold freedAt
      rw [if_pos hp]
      cases p with
      | nil =>
        cases hn
        exact List.mem_append_right _ (List.mem_singleton_self _)
      | cons j p =>
        refine List.mem_append_left _ (ih _ (j :: p) (List.cons_ne_nil _ _) ?_ hn)
        exact ⟨Nat.le_of_succ_le_succ hlow.1, fun k hk => hlow.2 k (List.mem_cons_of_mem _ hk)⟩

end Phys

end TwoKernel
