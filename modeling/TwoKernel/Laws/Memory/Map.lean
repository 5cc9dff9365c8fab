import Mathlib.Algebra.Order.BigOperators.Group.Finset
import Mathlib.Data.Set.Finite.List
import TwoKernel.Laws.Memory.Clients
import TwoKernel.Laws.Memory.Tables

/-!
# `map` is correct and framed

`map` walks a range of pages; for each it makes the tables that are missing and
writes one leaf entry. One page is `Tables.mapPage`, over any forest that has
the tables on the way among its places. The loop is `Tables.map`: the range has
fewer pages than there are page numbers, so no page is written twice.

`map_correct` is that for a single tree.
-/

namespace TwoKernel

open ByteMem Vmm Trie

variable {hhdm : Word} {s s' s'' : Phys} {st st' st'' : Stock hhdm} {places X : Set Place}
  {r r' n m t k : Nat} {p q : List (Fin 512)} {i j : Fin 512}
  {pa va v w length flags off value : Word} {short : Prop}

namespace Vmm

theorem tablePath_alignDown : tablePath (alignDown v pageSize) = tablePath v := by
  simp only [tablePath, slot, index_alignDown level39, index_alignDown level30,
    index_alignDown level21]

theorem slot_alignDown {shift : Nat} (h : Level shift) :
    slot h (alignDown v pageSize) = slot h v := Fin.ext (index_alignDown h)

/-- The pages that a range of `length` bytes touches, from a page boundary on. -/
def pages (length : Word) : Nat := (length.toNat + 4095) / 4096

/-- There is fuel for all of them. -/
theorem pages_lt (length : Word) : pages length < walkFuel := by
  have hlt := length.isLt
  show pages length < 2 ^ 64
  unfold pages
  omega

/-- The offset of page `k` of a range. -/
def pageOff (k : Nat) : Word := BitVec.ofNat 64 (4096 * k)

theorem pageOff_toNat (h : 4096 * k < 2 ^ 64) : (pageOff k).toNat = 4096 * k := by
  unfold pageOff
  rw [BitVec.toNat_ofNat, Nat.mod_eq_of_lt h]

private theorem pageOff_succ (k : Nat) : pageOff k + pageSize = pageOff (k + 1) := by
  unfold pageOff
  rw [Nat.mul_add, BitVec.ofNat_add]
  rfl

/-- The pages of a range, in the order of the loop. -/
theorem pageOff_lt (h : k < pages length) : pageOff k < length := by
  have hlt := length.isLt
  unfold pages at h
  rw [BitVec.lt_def, pageOff_toNat (by omega)]
  omega

theorem pageNumber_add : pageNumber (va + pageOff k) = (va.toNat / 4096 + k) % 2 ^ 36 := by
  unfold pageNumber pageOff
  rw [BitVec.toNat_add, BitVec.toNat_ofNat]
  omega

end Vmm

namespace Phys

/-! ## The loop -/

/-- The loop over a range runs its body once for each page, in order. -/
theorem eachPage_spec {body : Word → Phys → Outcome Phys} {I : Nat → Phys → Prop}
    (hlen : length.toNat + 4095 < 2 ^ 64)
    (hbody : ∀ k s, k < pages length → I k s → Outcome.Returns short (body (pageOff k) s) (I (k + 1))) :
    ∀ fuel k s, k ≤ pages length → pages length - k < fuel → I k s →
      Outcome.Returns short (eachPage length body fuel (pageOff k) s) (I (pages length)) := by
  intro fuel
  induction fuel with
  | zero =>
    intro k s _ hf
    omega
  | succ fuel ih =>
    intro k s hk hf hI
    have hdiv : 4096 * pages length < length.toNat + 4096 := by
      unfold pages
      omega
    have hoff : (pageOff k).toNat = 4096 * k := pageOff_toNat (by omega)
    unfold eachPage
    by_cases hlt : pageOff k < length
    · have hk' : k < pages length := by
        rw [BitVec.lt_def, hoff] at hlt
        unfold pages
        omega
      rw [if_pos hlt]
      refine (hbody k s hk' hI).bind fun s' hs' => ?_
      rw [pageOff_succ]
      exact ih (k + 1) s' hk' (by omega) hs'
    · have hk' : k = pages length := by
        rw [BitVec.lt_def, hoff] at hlt
        unfold pages
        unfold pages at hk
        omega
      rw [if_neg hlt, ← hk']
      exact .ok hI

/-- A loop whose turns all return, returns or goes on for ever. -/
theorem eachPage_total {body : Word → Phys → Outcome Phys} {I : Phys → Prop}
    (hbody : ∀ k s, k < pages length → I s → ∃ s', body (pageOff k) s = .ok s' ∧ I s') :
    ∀ fuel k s, I s → eachPage length body fuel (pageOff k) s = .error .diverges ∨
      ∃ s', eachPage length body fuel (pageOff k) s = .ok s' ∧ I s' := by
  intro fuel
  induction fuel with
  | zero => exact fun _ _ _ => .inl rfl
  | succ fuel ih =>
    intro k s hI
    unfold eachPage
    by_cases hlt : pageOff k < length
    · -- an offset that has wrapped is that of an earlier page
      have hwrap : pageOff k = pageOff (k % 2 ^ 52) := by
        apply BitVec.eq_of_toNat_eq
        rw [pageOff, pageOff, BitVec.toNat_ofNat, BitVec.toNat_ofNat]
        omega
      have hk : k % 2 ^ 52 < pages length := by
        rw [hwrap, BitVec.lt_def, pageOff_toNat (by omega)] at hlt
        unfold pages
        omega
      obtain ⟨s', hs', hI'⟩ := hbody _ s hk hI
      rw [if_pos hlt, hwrap, hs', ok_bind, ← hwrap, pageOff_succ]
      exact ih (k + 1) s' hI'
    · rw [if_neg hlt]
      exact .inr ⟨s, rfl, hI⟩

/-- A loop that fails in turn `n`, and not before. -/
theorem eachPage_fails {body : Word → Phys → Outcome Phys} {I : Nat → Phys → Prop} {e : Fault}
    (hn : n < pages length)
    (hbody : ∀ k s, k < n → I k s → ∃ s', body (pageOff k) s = .ok s' ∧ I (k + 1) s')
    (hfail : ∀ s, I n s → body (pageOff n) s = .error e) :
    ∀ fuel k s, k ≤ n → n - k < fuel → I k s →
      eachPage length body fuel (pageOff k) s = .error e := by
  intro fuel
  induction fuel with
  | zero =>
    intro k s _ hf
    omega
  | succ fuel ih =>
    intro k s hk hf hI
    unfold eachPage
    rw [if_pos (pageOff_lt (by omega))]
    rcases Nat.lt_or_eq_of_le hk with hk | rfl
    · obtain ⟨s', hs', hI'⟩ := hbody k s hk hI
      rw [hs', ok_bind, pageOff_succ]
      exact ih (k + 1) s' hk (by omega) hI'
    · rw [hfail s hI]
      rfl

/-- A loop that ends has a range that ends below `2 ^ 64`. -/
theorem eachPage_length {body : Word → Phys → Outcome Phys} :
    ∀ fuel k s, eachPage length body fuel (pageOff k) s = .ok s' → length.toNat + 4095 < 2 ^ 64 := by
  intro fuel
  induction fuel with
  | zero =>
    intro k s he
    cases he
  | succ fuel ih =>
    intro k s he
    unfold eachPage at he
    by_cases hlt : pageOff k < length
    · rw [if_pos hlt] at he
      obtain ⟨s₁, -, he⟩ := bind_ok.mp he
      rw [pageOff_succ] at he
      exact ih (k + 1) s₁ he
    · have hlen := length.isLt
      rw [BitVec.lt_def, pageOff, BitVec.toNat_ofNat] at hlt
      omega

/-- What every turn of the loop keeps, the loop keeps if it ends. -/
theorem eachPage_invariant {body : Word → Phys → Outcome Phys} {I : Phys → Prop}
    (hbody : ∀ off s s', off < length → I s → body off s = .ok s' → I s') :
    ∀ fuel off s, I s → eachPage length body fuel off s = .ok s' → I s' := by
  intro fuel
  induction fuel with
  | zero =>
    intro off s _ he
    cases he
  | succ fuel ih =>
    intro off s hI he
    unfold eachPage at he
    by_cases hlt : off < length
    · rw [if_pos hlt] at he
      obtain ⟨s₁, hs₁, he⟩ := bind_ok.mp he
      exact ih _ s₁ (hbody off s s₁ hlt hI hs₁) he
    · rw [if_neg hlt] at he
      cases he
      exact hI

/-! ## One page -/

/-- The leaf entry of `va` under `r` was set to `e`, and no other. -/
structure Mapped (X places : Set Place) (s : Phys) (st : Stock hhdm) (r : Nat) (va e : Word)
    (s' : Phys) (st' : Stock hhdm) : Prop where
  tables : Tables hhdm s' st' places
  keeps : Keeps places s st s' st'
  paid : Paid X s st s' st'
  here : s'.leafAt r (tablePath va) (slot level12 va) = if Present e then some e else none
  there : ∀ {r' p j}, (r', p) ∈ places → p.length = 3 →
    (r', p, j) ≠ (r, tablePath va, slot level12 va) → s'.leafAt r' p j = s.leafAt r' p j

private theorem Mapped.of_alignDown {e : Word}
    (h : Mapped X places s st r (alignDown va pageSize) e s' st') :
    Mapped X places s st r va e s' st' := by
  obtain ⟨htables, hkeeps, hpaid, hhere, hthere⟩ := h
  rw [tablePath_alignDown, slot_alignDown] at hhere hthere
  exact ⟨htables, hkeeps, hpaid, hhere, hthere⟩

namespace Tables

/-- A write to a page table makes no table. -/
theorem setLeaf_missing (h : Tables hhdm s st places) (hp : (r, p) ∈ places) (hlen : p.length = 3)
    (hn : s.table r p = some n) (value : Word) (hXp : X ⊆ places) :
    (s.setEntry hhdm (tablePtr hhdm n) i value).missing X = s.missing X := by
  ext z
  refine and_congr_right fun hz => ?_
  rw [(h.setEntry hp hn (h.trees.not_below hlen) value).2 (hXp hz)]

/-- A write to a page table keeps the rest. -/
theorem setLeaf_keeps (h : Tables hhdm s st places) (hp : (r, p) ∈ places)
    (hlen : p.length = 3) (hn : s.table r p = some n) (value : Word) :
    Keeps places s st (s.setEntry hhdm (tablePtr hhdm n) i value) st ∧
      (X ⊆ places → Paid X s st (s.setEntry hhdm (tablePtr hhdm n) i value) st) := by
  have hlt := h.trees.table_lt hp hn
  obtain ⟨-, htable⟩ := h.setEntry hp hn (h.trees.not_below hlen) value
  refine ⟨⟨?_, ?_, Set.Subset.rfl, ?_, ?_⟩, fun hXp => ?_⟩
  · intro r' p' a hp' ha
    rw [htable hp']
    exact ha
  · intro r' p' a j hp' hlen' ha _
    apply pte_setEntry_of_ne hlt i.isLt j.isLt
    rintro rfl
    obtain ⟨-, rfl⟩ := h.forest.sole hp' hp ha hn
    omega
  · rintro a ⟨r', p', hp', ha⟩
    rw [htable hp'] at ha
    exact .inl ⟨r', p', hp', ha⟩
  · apply (setEntry_eqOn hlt i.isLt).mono
    intro x hx hxn
    have hxn : x / 4096 = n := hxn
    exact hx (.inl ⟨r, p, hp, by rw [hxn]; exact hn⟩)
  · unfold Paid
    rw [h.setLeaf_missing hp hlen hn value hXp]

/-- One more level down from a table that was reached. -/
theorem Grown.next (h : Grown X places s st r q n s' st') (hX : X.Finite) (hXp : X ⊆ places)
    (hz : (r, q ++ [i]) ∈ X) (flags : Word) :
    Outcome.Returns (st.freePages < (s.missing X).ncard)
      (s'.getNextLevel hhdm (tablePtr hhdm n) i flags true) fun x => ∃ m st'',
        x.1 = some (tablePtr hhdm m) ∧ Grown X places s st r (q ++ [i]) m x.2 st'' := by
  refine (h.tables.getNextLevel hX hXp hz h.reached flags).mono h.paid.short ?_
  intro x hx
  obtain ⟨m, st'', hptr, hg⟩ := hx
  refine ⟨m, st'', hptr, hg.tables, hg.reached, ?_, h.keeps.trans hg.keeps, h.paid.trans hg.paid⟩
  intro r' p' hp' hlen j
  rw [hg.leaf hp' hlen j, h.leaf hp' hlen j]

/-- The three calls that lead to the page table of `va`. -/
theorem pageTable (h : Tables hhdm s st places) (hX : X.Finite) (hXp : X ⊆ places)
    (hva : ∀ p, p ≠ [] → p <+: tablePath va → (r, p) ∈ X) (flags : Word) :
    Outcome.Returns (st.freePages < (s.missing X).ncard)
      (s.pageTable hhdm (tablePtr hhdm r) va flags true) fun x => ∃ t st',
        x.1 = tablePtr hhdm t ∧ Grown X places s st r (tablePath va) t x.2 st' := by
  have h0 : Grown X places s st r [] r s st := ⟨h, rfl, fun _ _ _ => rfl, .refl, rfl⟩
  have h39 : (r, [slot level39 va]) ∈ X := hva _ (by simp) ⟨_, rfl⟩
  have h30 : (r, [slot level39 va, slot level30 va]) ∈ X := hva _ (by simp) ⟨_, rfl⟩
  have h21 : (r, tablePath va) ∈ X := hva _ (by simp [tablePath]) List.prefix_rfl
  unfold Phys.pageTable
  refine (h0.next hX hXp (i := slot level39 va) h39 flags).bind fun x hx => ?_
  obtain ⟨pdpt, st₁, hptr₁, h1⟩ := hx
  rw [hptr₁, deref_some, ok_bind]
  refine (h1.next hX hXp (i := slot level30 va) h30 flags).bind fun y hy => ?_
  obtain ⟨pd, st₂, hptr₂, h2⟩ := hy
  rw [hptr₂, deref_some, ok_bind]
  refine (h2.next hX hXp (i := slot level21 va) h21 flags).bind fun z hz => ?_
  obtain ⟨pt, st₃, hptr₃, h3⟩ := hz
  rw [hptr₃, deref_some, ok_bind]
  exact .ok ⟨pt, st₃, rfl, h3⟩

/-- **One page of `map`.** -/
theorem mapPage (h : Tables hhdm s st places) (hX : X.Finite) (hXp : X ⊆ places)
    (hva : ∀ p, p ≠ [] → p <+: tablePath (va + off) → (r, p) ∈ X) (pa flags : Word) :
    Outcome.Returns (st.freePages < (s.missing X).ncard)
      (s.mapPage hhdm (tablePtr hhdm r) pa va flags off) fun s' => ∃ st',
        Mapped X places s st r (va + off) (alignDown (pa + off) pageSize ||| flags) s' st' := by
  rw [← tablePath_alignDown] at hva
  unfold Phys.mapPage
  refine (h.pageTable hX hXp hva flags).bind fun x hx => ?_
  obtain ⟨t, st', hptr, hg⟩ := hx
  rw [hptr]
  have hp : (r, tablePath (alignDown (va + off) pageSize)) ∈ places :=
    hXp (hva _ (by simp [tablePath]) List.prefix_rfl)
  have hno : (r, tablePath (alignDown (va + off) pageSize) ++
      [slot level12 (alignDown (va + off) pageSize)]) ∉ places := by
    intro hpl
    exact absurd (h.depth hpl) (by simp [tablePath])
  let e := alignDown (pa + off) pageSize ||| flags
  obtain ⟨htables, -⟩ := hg.tables.setEntry hp hg.reached hno e
  let l := slot level12 (alignDown (va + off) pageSize)
  obtain ⟨hself, hother⟩ := hg.tables.trees.leafAt_setEntry (i := l) hp rfl hg.reached e
  obtain ⟨hkeeps, hpaid⟩ := hg.tables.setLeaf_keeps (i := l) hp rfl hg.reached e
  refine .ok ⟨st', Mapped.of_alignDown
    ⟨htables, hg.keeps.trans hkeeps, hg.paid.trans (hpaid hXp), hself, ?_⟩⟩
  intro r' p j hp' hlen hne
  rw [← hg.leaf hp' hlen j]
  exact hother hp' hne

end Tables

/-! ## The whole range -/

/-- The leaf entries of the first `count` pages from `va` on were set to the pages from `pa` on, and
no others. -/
structure MappedPages (X places : Set Place) (s : Phys) (st : Stock hhdm) (r : Nat)
    (pa va flags : Word) (count : Nat) (s' : Phys) (st' : Stock hhdm) : Prop where
  tables : Tables hhdm s' st' places
  keeps : Keeps places s st s' st'
  paid : Paid X s st s' st'
  here : ∀ k, k < count →
    s'.leafAt r (tablePath (va + pageOff k)) (slot level12 (va + pageOff k)) =
      if Present (alignDown (pa + pageOff k) pageSize ||| flags) then
        some (alignDown (pa + pageOff k) pageSize ||| flags) else none
  there : ∀ {r' p j}, (r', p) ∈ places → p.length = 3 →
    (∀ k, k < count → (r', p, j) ≠ (r, tablePath (va + pageOff k), slot level12 (va + pageOff k))) →
    s'.leafAt r' p j = s.leafAt r' p j

/-- Two pages of a range that is not too long are different pages. -/
theorem path_ne {k l : Nat} (hkl : k < l) (hl : l < 2 ^ 36) :
    (r, tablePath (va + pageOff k), slot level12 (va + pageOff k)) ≠
      (r, tablePath (va + pageOff l), slot level12 (va + pageOff l)) := by
  intro e
  simp only [Prod.mk.injEq, true_and] at e
  have hnum := path_eq_iff.mp e
  rw [pageNumber_add, pageNumber_add] at hnum
  omega

theorem MappedPages.step {count : Nat} (h : MappedPages X places s st r pa va flags count s' st')
    (hcount : count < 2 ^ 36) (hp : ∀ k, k ≤ count → (r, tablePath (va + pageOff k)) ∈ places)
    (hm : Mapped X places s' st' r (va + pageOff count)
      (alignDown (pa + pageOff count) pageSize ||| flags) s'' st'') :
    MappedPages X places s st r pa va flags (count + 1) s'' st'' where
  tables := hm.tables
  keeps := h.keeps.trans hm.keeps
  paid := h.paid.trans hm.paid
  here k hk := by
    rcases Nat.lt_succ_iff_lt_or_eq.mp hk with hk | rfl
    · rw [hm.there (hp k (Nat.le_of_lt hk)) rfl (path_ne hk hcount)]
      exact h.here k hk
    · exact hm.here
  there hp' hlen hne := by
    rw [hm.there hp' hlen (hne count (Nat.lt_succ_self count)),
      h.there hp' hlen fun k hk => hne k (Nat.lt_succ_of_lt hk)]

namespace Tables

/-- **`map`, over a forest.** -/
theorem map (h : Tables hhdm s st places) (hX : X.Finite) (hXp : X ⊆ places)
    (hlen : length.toNat ≤ 2 ^ 48)
    (hva : ∀ k, k < pages length → ∀ p, p ≠ [] → p <+: tablePath (va + pageOff k) → (r, p) ∈ X)
    (pa flags : Word) :
    Outcome.Returns (st.freePages < (s.missing X).ncard)
      (s.map hhdm (tablePtr hhdm r) pa va length flags) fun s' => ∃ st',
        MappedPages X places s st r pa va flags (pages length) s' st' := by
  have hpages : pages length ≤ 2 ^ 36 := by
    unfold pages
    omega
  refine eachPage_spec (I := fun k s' => ∃ st', MappedPages X places s st r pa va flags k s' st')
    (by omega) ?_ walkFuel 0 s (Nat.zero_le _) (pages_lt length)
      ⟨st, h, .refl, rfl, ?_, fun _ _ _ => rfl⟩
  · intro k s' hk hI
    obtain ⟨st', hm⟩ := hI
    refine (hm.tables.mapPage hX hXp (hva k hk) pa flags).mono hm.paid.short ?_
    intro s'' hs''
    obtain ⟨st'', hm'⟩ := hs''
    have hp : ∀ l, l ≤ k → (r, tablePath (va + pageOff l)) ∈ places := by
      intro l hl
      exact hXp (hva l (by omega) _ (by simp [tablePath]) List.prefix_rfl)
    exact ⟨st'', hm.step (by omega) hp hm'⟩
  · intro k hk
    omega

end Tables

/-! ## A single tree -/

/-- Every present entry above the leaves points to a table, the tables are distinct, and none is in
a free page. -/
structure WellFormed (s : Phys) (root : Nat) (free : Set Nat) : Prop where
  distinct : ∀ {p q n}, p.length ≤ 3 → q.length ≤ 3 → s.table root p = some n →
    s.table root q = some n → p = q
  used : ∀ {p n}, p.length ≤ 3 → s.table root p = some n → n ∉ free

/-- The places of one tree. -/
def treePlaces (root : Nat) : Set Place := {z | z.1 = root ∧ z.2.length ≤ 3}

theorem trees_tree_iff {free : Set Nat} (hroot : r < 2 ^ 52) :
    Trees s free (treePlaces r) ↔ s.WellFormed r free := by
  constructor
  · intro h
    refine ⟨?_, ?_⟩
    · intro p q n hp hq hn hn'
      exact (h.forest.sole ⟨rfl, hp⟩ ⟨rfl, hq⟩ hn hn').2
    · intro p n hp hn
      exact h.forest.used (r := r) ⟨rfl, hp⟩ hn
  · intro hwf
    refine ⟨⟨?_, ?_, ?_⟩, ?_, fun h => h.2⟩
    · rintro r' p i ⟨hr, hlen⟩
      refine ⟨hr, ?_⟩
      rw [List.length_append] at hlen
      exact Nat.le_of_add_right_le hlen
    · rintro r₁ p₁ r₂ p₂ n ⟨h₁, hp₁⟩ ⟨h₂, hp₂⟩ hn₁ hn₂
      cases h₁
      cases h₂
      exact ⟨rfl, hwf.distinct hp₁ hp₂ hn₁ hn₂⟩
    · rintro r' p n ⟨hr, hp⟩ hn
      cases hr
      exact hwf.used hp hn
    · rintro r' p ⟨hr, -⟩
      cases hr
      exact hroot

theorem tables_tree_iff (hroot : r < 2 ^ 52) : Tables hhdm s st (treePlaces r) ↔
    s.Stocked hhdm st ∧ s.WellFormed r st.pool := by
  rw [← trees_tree_iff hroot]
  constructor
  · intro h
    exact ⟨h.stocked, h.trees⟩
  · rintro ⟨hst, h⟩
    exact ⟨hst, h.forest, h.root, h.depth⟩

theorem treePlaces_finite (root : Nat) : (treePlaces root).Finite := by
  have hfin : ({l : List (Fin 512) | l.length ≤ 3}).Finite := List.finite_length_le _ 3
  apply (hfin.image (Prod.mk root)).subset
  rintro ⟨r, p⟩ ⟨rfl, hp⟩
  exact ⟨p, hp, rfl⟩

/-- The tables on the way to the pages of a range. -/
def rangeTables (root : Nat) (va length : Word) : Set Place :=
  {z | z.1 = root ∧ z.2 ≠ [] ∧ ∃ k, k < pages length ∧ z.2 <+: tablePath (va + pageOff k)}

theorem rangeTables_subset : rangeTables r va length ⊆ treePlaces r := by
  rintro z ⟨hr, -, k, -, hpre⟩
  exact ⟨hr, hpre.length_le⟩

/-- The tables on the way to finitely many page tables are at most three times as many. -/
theorem ncard_prefixes_le {P : Set (List (Fin 512))} {T : Finset (List (Fin 512))}
    (hT : ∀ t ∈ T, t.length ≤ 3) (hP : ∀ p ∈ P, p ≠ [] ∧ ∃ t ∈ T, p <+: t) :
    P.ncard ≤ 3 * T.card := by
  let tables : List (Fin 512) → Finset (List (Fin 512)) := fun t => t.inits.tail.toFinset
  have hsub : P ⊆ ↑(T.biUnion tables) := by
    intro p hp
    obtain ⟨hne, t, ht, hpre⟩ := hP p hp
    refine Finset.mem_biUnion.mpr ⟨t, ht, List.mem_toFinset.mpr ?_⟩
    cases t with
    | nil => exact absurd (List.prefix_nil.mp hpre) hne
    | cons i t => exact (List.mem_cons.mp ((List.mem_inits _ _).mpr hpre)).resolve_left hne
  have hcard : ∀ t ∈ T, (tables t).card ≤ 3 := by
    intro t ht
    refine (List.toFinset_card_le _).trans ?_
    rw [List.length_tail, List.length_inits]
    exact hT t ht
  calc P.ncard
      ≤ (T.biUnion tables).card := by
        rw [← Set.ncard_coe_finset]
        exact Set.ncard_le_ncard hsub (Finset.finite_toSet _)
    _ ≤ T.card * 3 := Finset.card_biUnion_le_card_mul _ _ _ hcard
    _ = 3 * T.card := Nat.mul_comm _ _

/-- The same for places, of one tree. -/
theorem ncard_places_le {P : Set Place} {T : Finset (List (Fin 512))} (hT : ∀ t ∈ T, t.length ≤ 3)
    (hP : ∀ z ∈ P, z.1 = r ∧ z.2 ≠ [] ∧ ∃ t ∈ T, z.2 <+: t) : P.ncard ≤ 3 * T.card := by
  have hinj : Set.InjOn Prod.snd P := by
    intro z hz z' hz' hp
    exact Prod.ext ((hP z hz).1.trans (hP z' hz').1.symm) hp
  rw [← Set.InjOn.ncard_image hinj]
  apply ncard_prefixes_le hT
  rintro p ⟨z, hz, rfl⟩
  exact (hP z hz).2

/-- A page needs three tables at most. -/
theorem ncard_rangeTables_le : (rangeTables r va length).ncard ≤ 3 * pages length := by
  let paths := (Finset.range (pages length)).image fun k => tablePath (va + pageOff k)
  have hcard : paths.card ≤ pages length := Finset.card_image_le.trans_eq (Finset.card_range _)
  refine (ncard_places_le (r := r) (T := paths) ?_ ?_).trans (Nat.mul_le_mul_left 3 hcard)
  · intro t ht
    obtain ⟨k, -, rfl⟩ := Finset.mem_image.mp ht
    exact le_rfl
  · rintro z ⟨hr, hne, k, hk, hpre⟩
    exact ⟨hr, hne, _, Finset.mem_image_of_mem _ (Finset.mem_range.mpr hk), hpre⟩

/-- Where a leaf entry takes an address. -/
theorem translate_of_walk {f : Nat} (hf : f < 2 ^ 36) (hflags : flags &&& paddrMask = 0)
    (hw : s.walk r v = some (framePa f ||| flags)) :
    s.translate r v = some (BitVec.ofNat 64 (4096 * f + v.toNat % 4096), flags) := by
  have hpa : (framePa f).toNat = 4096 * f := framePa_toNat (by omega)
  unfold translate
  rw [hw]
  show some (_, _) = _
  rw [or_and_not_paddrMask (by omega) (by omega) hflags]
  congr 2
  apply BitVec.eq_of_toNat_eq
  rw [or_offMask_toNat, frameOf_or hf hflags, BitVec.toNat_ofNat]
  omega

/-- The leaf entry that `map` writes for page `k`. -/
theorem alignDown_pageOff (hk : pa.toNat + 4096 * k < 2 ^ 64) :
    alignDown (pa + pageOff k) pageSize = framePa (pa.toNat / 4096 + k) := by
  apply BitVec.eq_of_toNat_eq
  rw [alignDown_toNat, BitVec.toNat_add, pageOff_toNat (by omega), Nat.mod_eq_of_lt hk,
    framePa_toNat (by omega)]
  omega

/-- The pages of a range of one page. -/
theorem add_pageOff_of_lt {k : Nat} (va : Word) (hk : k < pages 0x1000) : va + pageOff k = va := by
  obtain rfl : k = 0 := Nat.lt_one_iff.mp hk
  exact BitVec.add_zero va

/-- One page is mapped, if there are three free ones for its tables. -/
theorem Tables.map_page (h : Tables hhdm s st places) (hp : ∀ p, p <+: tablePath va → (r, p) ∈ places)
    {f : Nat} (hf : f < 2 ^ 36) (hpres : Present flags) (hfree : 3 ≤ st.freePages) :
    ∃ s' st', s.map hhdm (tablePtr hhdm r) (framePa f) va 0x1000 flags = .ok s' ∧
      MappedPages (rangeTables r va 0x1000) places s st r (framePa f) va flags 1 s' st' ∧
      s'.walk r va = some (framePa f ||| flags) ∧ st.freePages ≤ st'.freePages + 3 := by
  have hX : (rangeTables r va 0x1000).Finite := (treePlaces_finite r).subset rangeTables_subset
  have hXp : rangeTables r va 0x1000 ⊆ places := by
    rintro ⟨r', p⟩ ⟨hr, -, k, hk, hpre⟩
    rw [add_pageOff_of_lt va hk] at hpre
    have hr : r' = r := hr
    rw [hr]
    exact hp p hpre
  have hcard : (s.missing (rangeTables r va 0x1000)).ncard ≤ 3 :=
    (Set.ncard_le_ncard (fun _ hz => hz.1) hX).trans ncard_rangeTables_le
  obtain ⟨s', hs', st', hm⟩ := (h.map hX hXp (show (0x1000 : Word).toNat ≤ 2 ^ 48 by decide)
    (fun k hk p hne hpre => ⟨rfl, hne, k, hk, hpre⟩) (framePa f) flags).exists_ok (by omega)
  have hpa : (framePa f).toNat = 4096 * f := framePa_toNat (by omega)
  refine ⟨s', st', hs', hm, ?_, ?_⟩
  · have hhere := hm.here 0 (show 0 < 1 by decide)
    rw [alignDown_pageOff (by omega), hpa, Nat.mul_div_cancel_left f (by decide), Nat.add_zero,
      if_pos ((present_framePa_or hf).mpr hpres), add_pageOff_of_lt va (show 0 < 1 by decide)]
      at hhere
    rw [walk_eq]
    exact hhere
  · have hpaid := hm.paid
    unfold Paid at hpaid
    omega

/-- **`map` is correct and framed.** Over a well-formed tree, with pages enough for the tables that
are missing, `map` returns; every address of its range translates to its place in the physical range
under exactly the given flags; every address of another page walks as it did; and the tree is well
formed. -/
theorem map_correct {root : Nat} (hroot : root < 2 ^ 52) (hst : s.Stocked hhdm st)
    (hwf : s.WellFormed root st.pool) (hva : va.toNat % 4096 = 0) (hpa : pa.toNat % 4096 = 0)
    (hvl : va.toNat + length.toNat ≤ 2 ^ 64) (hpl : pa.toNat + length.toNat ≤ 2 ^ 48)
    (hpres : Present flags) (hflags : flags &&& paddrMask = 0)
    (hsupply : (s.missing (rangeTables root va length)).ncard ≤ st.freePages) :
    ∃ s' st', s.map hhdm (tablePtr hhdm root) pa va length flags = .ok s' ∧
      (∀ v, va.toNat ≤ v.toNat → v.toNat < va.toNat + 4096 * pages length →
        s'.translate root v = some (pa + (v - va), flags)) ∧
      (∀ v, (∀ w, va.toNat ≤ w.toNat → w.toNat < va.toNat + 4096 * pages length →
        pageNumber v ≠ pageNumber w) → s'.walk root v = s.walk root v) ∧
      s'.Stocked hhdm st' ∧ s'.WellFormed root st'.pool := by
  have htree := (tables_tree_iff hroot).mpr ⟨hst, hwf⟩
  have hX : (rangeTables root va length).Finite :=
    (treePlaces_finite root).subset rangeTables_subset
  have hmap := htree.map (r := root) hX rangeTables_subset (by omega)
    (fun k hk p hne hpre => ⟨rfl, hne, k, hk, hpre⟩) pa flags
  obtain ⟨s', hs', st', hm⟩ := hmap.exists_ok (by omega)
  have hcount : 4096 * pages length < length.toNat + 4096 := by
    unfold pages
    omega
  have hplace : ∀ v, (root, tablePath v) ∈ treePlaces root := fun v => ⟨rfl, le_rfl⟩
  refine ⟨s', st', hs', ?_, ?_, (tables_tree_iff hroot).mp hm.tables⟩
  · intro v hlo hhi
    -- the page of the range that `v` is in
    let k := (v.toNat - va.toNat) / 4096
    have hk : k < pages length := by omega
    have hnum : pageNumber v = pageNumber (va + pageOff k) := by
      rw [pageNumber_add]
      unfold pageNumber
      omega
    obtain ⟨hpath, hslot⟩ := path_eq_iff.mpr hnum
    have hlow : pa.toNat / 4096 + k < 2 ^ 36 := by omega
    have hw : s'.walk root v = some (framePa (pa.toNat / 4096 + k) ||| flags) := by
      rw [walk_eq, hpath, hslot, hm.here k hk, alignDown_pageOff (by omega),
        if_pos ((present_framePa_or hlow).mpr hpres)]
    rw [translate_of_walk hlow hflags hw]
    congr 2
    apply BitVec.eq_of_toNat_eq
    have hsub : (v - va).toNat = v.toNat - va.toNat :=
      BitVec.toNat_sub_of_le (BitVec.le_def.mpr hlo)
    rw [BitVec.toNat_add, hsub, BitVec.toNat_ofNat]
    omega
  · intro v hout
    rw [walk_eq, walk_eq]
    apply hm.there (hplace v) rfl
    intro k hk e
    simp only [Prod.mk.injEq, true_and] at e
    have hw : (va + pageOff k).toNat = va.toNat + 4096 * k := by
      rw [BitVec.toNat_add, pageOff_toNat (by omega), Nat.mod_eq_of_lt (by omega)]
    exact hout (va + pageOff k) (by omega) (by omega) (path_eq_iff.mp e)

/-- `init_pmm` writes free pages only. -/
theorem initPmm_eqOn {memmap : List MemmapEntry} (h : MemmapOk hhdm memmap) (mem : Mem) :
    Set.EqOn (initPmm hhdm memmap mem).mem mem (pageBytes (Arena.init h).stock.pool)ᶜ := by
  refine (addEntries_eqOn memmap h.blocks_ok ⟨mem, 0, 0⟩).mono (Set.compl_subset_compl.mpr ?_)
  intro x hx
  obtain ⟨b, hb, hxb⟩ := hx
  exact ⟨b, List.mem_reverse.mpr hb, by rw [hxb]; exact Block.start_mem_foot⟩

/-- A page of zeros that is not free still holds them after `init_pmm`. -/
theorem pte_initPmm {memmap : List MemmapEntry} (h : MemmapOk hhdm memmap) {mem : Mem}
    (hr : r ∉ (Arena.init h).stock.pool) (hmem : ∀ x, x / 4096 = r → mem x = 0) (j : Fin 512) :
    (initPmm hhdm memmap mem).pte r j = 0 := by
  have heq : Set.EqOn (initPmm hhdm memmap mem).mem (fun _ => 0) (pageBytes {r}) := by
    intro x hx
    have hx : x / 4096 = r := hx
    refine (initPmm_eqOn h mem fun hin => hr ?_).trans (hmem x hx)
    rw [← hx]
    exact hin
  have hsame : Phys.pte r j (initPmm hhdm memmap mem) = Phys.pte r j ⟨fun _ => 0, 0, 0⟩ :=
    pte_congr heq j.isLt
  exact hsame.trans (load64_zero _)

/-- A page of zeros that is not free is an empty, well-formed table. -/
theorem wellFormed_of_zero {free : Set Nat} (hzero : ∀ j : Fin 512, s.pte r j = 0) (hr : r ∉ free) :
    s.WellFormed r free := by
  refine ⟨?_, ?_⟩
  · intro p q n _ _ hp hq
    rw [(Tables.table_zero hzero hp).1, (Tables.table_zero hzero hq).1]
  · intro p n _ hp
    rw [(Tables.table_zero hzero hp).2]
    exact hr

/-- After `init_pmm` over zeros any page that is not free holds an empty, well-formed table. -/
theorem wellFormed_initPmm {memmap : List MemmapEntry} (h : MemmapOk hhdm memmap)
    (hr : r ∉ (Arena.init h).stock.pool) :
    (initPmm hhdm memmap fun _ => 0).WellFormed r (Arena.init h).stock.pool :=
  wellFormed_of_zero (pte_initPmm h hr fun _ _ => rfl) hr

/-- A machine with three free pages, and zeros in page 8. -/
def threePages : Phys := initPmm hhdm₀ Clients.smallMap fun _ => 0

theorem threePages_pool {f : Nat} (h : f ∈ (Arena.init Clients.smallMap_ok).stock.pool) : f < 5 := by
  obtain ⟨b, hb, -, hlt⟩ := h
  have hend : ∀ c ∈ [Block.mk 0x4000 1, Block.mk 0x1000 2],
    c.start + max c.numPages.toNat 1 ≤ 5 := by decide
  exact Nat.lt_of_lt_of_le hlt (hend b hb)

theorem threePages_stocked :
    threePages.Stocked hhdm₀ (Arena.init Clients.smallMap_ok).stock where
  holds := (initPmm_holds Clients.smallMap_ok _).1
  low _ hp := Nat.lt_trans (threePages_pool hp) (by decide)

/-- One page needs three tables, and three pages are free. -/
theorem map_correct_threePages : ∃ s', threePages.map hhdm₀
    (tablePtr hhdm₀ 8) 0x5000 0x400000 0x1000 (present ||| writeable) = .ok s' ∧
      s'.translate 8 0x400abc = some (0x5abc, present ||| writeable) := by
  have hcard : (threePages.missing (rangeTables 8 0x400000 0x1000)).ncard ≤ 3 :=
    (Set.ncard_le_ncard (fun _ hz => hz.1)
      ((treePlaces_finite 8).subset rangeTables_subset)).trans ncard_rangeTables_le
  obtain ⟨s', st', hs', hin, -⟩ := map_correct (by decide) threePages_stocked
    (wellFormed_initPmm Clients.smallMap_ok fun hp => absurd (threePages_pool hp) (by decide))
    (show (0x400000 : Word).toNat % 4096 = 0 by decide)
    (show (0x5000 : Word).toNat % 4096 = 0 by decide) (show _ + (0x1000 : Word).toNat ≤ _ by decide)
    (by decide) (show Present (present ||| writeable) by decide) (by decide) hcard
  exact ⟨s', hs', hin 0x400abc (by decide) (by decide)⟩

end Phys

end TwoKernel
