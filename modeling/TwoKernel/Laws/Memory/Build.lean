import TwoKernel.Laws.Memory.Free
import TwoKernel.Laws.Memory.Map

/-!
# Building address spaces

A new root table is planted beside the trees that are there (`plant`); its
upper half is copied from another root, slot by slot (`copyEntries`); empty
slots are filled with new tables (`fillEntries`); and a range is mapped below it
(`map_kept`). Each keeps the other trees.
-/

namespace TwoKernel

open ByteMem Vmm Trie

variable {hhdm : Word} {s s' s'' : Phys} {st st' st'' : Stock hhdm} {places X : Set Place}
  {r r' n m k : Nat} {p q : List (Fin 512)} {i j : Fin 512} {pa va length flags : Word}

namespace Phys

/-- The places of one tree. -/
def placesOf (places : Set Place) (r : Nat) : Set Place := {z ∈ places | z.1 = r}

namespace Tables

theorem placesOf_finite (h : Tables hhdm s st places) (r : Nat) : (placesOf places r).Finite :=
  (treePlaces_finite r).subset fun _ hz => ⟨hz.2, h.depth hz.1⟩

theorem placesOf_subset : placesOf places r ⊆ places := fun _ hz => hz.1

/-! ## Changes that leave the tables alone -/

/-- Part of a forest, after a change that keeps its tables and does not free them. -/
theorem restrict (h : Tables hhdm s st places) {places' : Set Place} (hsub : places' ⊆ places)
    (hclosed : ∀ {r p i}, (r, p ++ [i]) ∈ places' → (r, p) ∈ places') (hst : s'.Stocked hhdm st')
    (hkept : ∀ n ∈ s.frames places', n ∉ st'.pool ∧ ∀ j : Fin 512, s'.pte n j = s.pte n j) :
    Tables hhdm s' st' places' ∧ ∀ {r p}, (r, p) ∈ places' → s'.table r p = s.table r p := by
  have hall : ∀ {r p}, (r, p) ∈ places' → ∀ q, q <+: p → (r, q) ∈ places' := by
    intro r p hp q hq
    obtain ⟨t, rfl⟩ := hq
    induction t using List.reverseRecOn with
    | nil => rwa [List.append_nil] at hp
    | append_singleton t i ih =>
      rw [← List.append_assoc] at hp
      exact ih (hclosed hp)
  have htable : ∀ {r p}, (r, p) ∈ places' → s'.table r p = s.table r p := by
    intro r p hp
    apply descend_congr
    intro q i hq n hn
    have hqi := hall hp _ hq
    exact link_congr ((hkept n ⟨r, q, hclosed hqi, hn⟩).2 i)
  refine ⟨⟨hst, ⟨hclosed, ?_, ?_⟩, fun hp => h.root (hsub hp), fun hp => h.depth (hsub hp)⟩, htable⟩
  · intro r₁ p₁ r₂ p₂ n h₁ h₂ hn₁ hn₂
    exact h.forest.sole (hsub h₁) (hsub h₂) ((htable h₁).symm.trans hn₁)
      ((htable h₂).symm.trans hn₂)
  · intro r₁ p₁ n h₁ hn
    exact (hkept n ⟨r₁, p₁, h₁, (htable h₁).symm.trans hn⟩).1

/-- Leaf entries are kept where tables and their entries are. -/
theorem leafAt_kept (htable : s'.table r p = s.table r p)
    (hpte : ∀ n, s.table r p = some n → s'.pte n j = s.pte n j) :
    s'.leafAt r p j = s.leafAt r p j := by
  unfold leafAt
  rw [htable]
  cases hn : s.table r p with
  | none => rfl
  | some n => exact leaf_congr (hpte n hn)

/-- A change outside the tables, to pages that were free before what `Keeps` covers, adds nothing to
what that covers. -/
theorem quiet (h : Tables hhdm s' st' places) (hk : Keeps places s st s' st')
    (hst : s''.Stocked hhdm st'') (hpool : st''.pool ⊆ st'.pool) {P : Set Nat} (hP : P ⊆ st.pool)
    (hframes : Disjoint P (s'.frames places)) (hmem : Set.EqOn s''.mem s'.mem (pageBytes P)ᶜ) :
    Tables hhdm s'' st'' places ∧ Keeps places s st s'' st'' ∧
      s''.frames places = s'.frames places ∧
      ∀ {r p}, (r, p) ∈ places → ∀ j, s''.leafAt r p j = s'.leafAt r p j := by
  have hpte : ∀ n ∈ s'.frames places, ∀ j : Fin 512, s''.pte n j = s'.pte n j := by
    intro n hn j
    apply pte_congr (hmem.mono _) j.isLt
    intro x hx hxP
    have hx : x / 4096 = n := hx
    exact Set.disjoint_left.mp hframes (hx ▸ hxP) hn
  obtain ⟨htab, htable⟩ := h.restrict Set.Subset.rfl h.forest.closed hst fun n hn => by
    refine ⟨fun hm => ?_, hpte n hn⟩
    obtain ⟨r, p, hp, hat⟩ := hn
    exact h.forest.used hp hat (hpool hm)
  have hsame : s''.frames places = s'.frames places := by
    ext n
    constructor
    · intro hn
      obtain ⟨r, p, hp, hat⟩ := hn
      exact ⟨r, p, hp, (htable hp).symm.trans hat⟩
    · intro hn
      obtain ⟨r, p, hp, hat⟩ := hn
      exact ⟨r, p, hp, (htable hp).trans hat⟩
  refine ⟨htab, ⟨?_, ?_, hpool.trans hk.pool, ?_, ?_⟩, hsame, ?_⟩
  · intro r p n hp hn
    rw [htable hp]
    exact hk.table hp hn
  · intro r p n j hp hlen hn hslot
    rw [hpte n ⟨r, p, hp, hk.table hp hn⟩ j]
    exact hk.entry hp hlen hn hslot
  · rw [hsame]
    exact hk.frames
  · refine (hmem.mono ?_).trans hk.mem
    exact Set.compl_subset_compl.mpr (pageBytes_mono (hP.trans Set.subset_union_right))
  · intro r p hp j
    exact leafAt_kept (htable hp) fun n hn => hpte n ⟨r, p, hp, hn⟩ j

/-- Pages taken from the allocator. -/
theorem took (h : Tables hhdm s st places) (ht : Took s st n m s' st') :
    Tables hhdm s' st' places ∧ Keeps places s st s' st' ∧ s'.frames places = s.frames places ∧
      ∀ {r p}, (r, p) ∈ places → ∀ j, s'.leafAt r p j = s.leafAt r p j := by
  refine h.quiet .refl ht.stocked (fun p hp => (ht.rest hp).1) Set.Subset.rfl ?_ ht.mem
  rw [Set.disjoint_left]
  intro a ha hn
  obtain ⟨r, p, hp, hat⟩ := hn
  exact h.forest.used hp hat ha

/-! ## A new root -/

/-- **Planting.** A new table becomes the root of one more tree, over any of its places. -/
theorem plant (h : Tables hhdm s st places) (hnew : NewTable s st m s' st')
    (half : Set (List (Fin 512))) (hlen : ∀ p ∈ half, p.length ≤ 3)
    (hclosed : ∀ {p i}, p ++ [i] ∈ half → p ∈ half) :
    Tables hhdm s' st' (places ∪ {z | z.1 = m ∧ z.2 ∈ half}) ∧
      ∀ {r p}, (r, p) ∈ places → s'.table r p = s.table r p := by
  have hpte : ∀ n, n ∉ st.pool → ∀ j : Fin 512, s'.pte n j = s.pte n j := by
    intro n hn j
    apply pte_congr (hnew.mem.mono _) j.isLt
    intro x hx hxp
    have hx : x / 4096 = n := hx
    exact hn (hx ▸ hxp)
  have hm' : m ∉ st'.pool := fun hm => (hnew.rest hm).2 rfl
  obtain ⟨hold, htable⟩ := h.restrict (Set.Subset.refl places) h.forest.closed
    hnew.stocked fun n hn => by
      obtain ⟨r, p, hp, hat⟩ := hn
      have hnot := h.forest.used hp hat
      exact ⟨fun hm => hnot (hnew.rest hm).1, hpte n hnot⟩
  have hzero : ∀ j : Fin 512, s'.pte m j = 0 := fun j => hnew.zero j j.isLt
  have hold_ne : ∀ {r p}, (r, p) ∈ places → s'.table r p ≠ some m := by
    intro r p hp hat
    rw [htable hp] at hat
    exact h.forest.used hp hat hnew.taken
  refine ⟨⟨hnew.stocked, ⟨?_, ?_, ?_⟩, ?_, ?_⟩, htable⟩
  · intro r p i hp
    rcases hp with hp | hp
    · exact .inl (h.forest.closed hp)
    · exact .inr ⟨hp.1, hclosed hp.2⟩
  · intro r₁ p₁ r₂ p₂ n h₁ h₂ hn₁ hn₂
    rcases h₁ with h₁ | ⟨e₁, -⟩ <;> rcases h₂ with h₂ | ⟨e₂, -⟩
    · exact hold.forest.sole h₁ h₂ hn₁ hn₂
    · cases e₂
      obtain ⟨-, rfl⟩ := table_zero hzero hn₂
      exact absurd hn₁ (hold_ne h₁)
    · cases e₁
      obtain ⟨-, rfl⟩ := table_zero hzero hn₁
      exact absurd hn₂ (hold_ne h₂)
    · cases e₁
      cases e₂
      exact ⟨rfl, (table_zero hzero hn₁).1.trans (table_zero hzero hn₂).1.symm⟩
  · intro r p n hp hn
    rcases hp with hp | ⟨e, -⟩
    · exact hold.forest.used hp hn
    · cases e
      rw [(table_zero hzero hn).2]
      exact hm'
  · intro r p hp
    rcases hp with hp | ⟨e, -⟩
    · exact h.root hp
    · cases e
      exact Nat.lt_trans (h.stocked.low _ hnew.taken) (by decide)
  · intro r p hp
    rcases hp with hp | ⟨-, hp⟩
    · exact h.depth hp
    · exact hlen p hp

/-! ## Filling empty slots -/

/-- The body of the loop of `fill_kernel_entries` and `process_fill_user_entires`. -/
theorem fillEntry (h : Tables hhdm s st places) (hp : (r, [i]) ∈ places)
    (hf : flags &&& paddrMask = 0) (hpres : Present flags) :
    Outcome.Returns (st.freePages = 0) (s.fillEntry hhdm (tablePtr hhdm r) flags i) fun s' =>
      ∃ m st', Linked s st r i m s' st' := by
  unfold Phys.fillEntry
  have hroot : (r, []) ∈ places := h.forest.closed (p := []) hp
  rcases h.stocked.newTable with ⟨hzero, ha⟩ | ⟨m, s₁, st', ha, hne, hnew⟩
  · rw [ha]
    exact .inr ⟨hzero, _, rfl⟩
  · rw [ha, ok_bind, if_neg hne]
    exact .ok ⟨m, st', linked_of_newTable hnew (h.stocked.low m hnew.taken)
      (h.forest.used hroot rfl) (h.root hroot) hf hpres⟩

/-- The slots `l` of the root `r` are places, and empty. -/
def Vacant (s : Phys) (places : Set Place) (r : Nat) (l : List Nat) : Prop :=
  l.Nodup ∧ ∀ k ∈ l, ∃ hk : k < 512, (r, [⟨k, hk⟩]) ∈ places ∧ ¬ Present (s.pte r k)

/-- A new table in the first of the vacant slots leaves the others vacant. -/
theorem Vacant.tail {l : List Nat} (hv : Vacant s places r (k :: l)) {hk : k < 512}
    (h : Tables hhdm s st places) (hroot : (r, []) ∈ places)
    (hl : Linked s st r ⟨k, hk⟩ m s' st') : Vacant s' places r l := by
  obtain ⟨hnd, hslots⟩ := hv
  refine ⟨(List.nodup_cons.mp hnd).2, ?_⟩
  intro k' hk'
  obtain ⟨hlt, hp', hempty'⟩ := hslots k' (List.mem_cons_of_mem _ hk')
  refine ⟨hlt, hp', ?_⟩
  have hne : k' ≠ k := by
    rintro rfl
    exact (List.nodup_cons.mp hnd).1 hk'
  rw [hl.pte r ⟨k', hlt⟩ (h.forest.used hroot rfl) fun _ e => hne (congrArg Fin.val e)]
  exact hempty'

/-- The slots `l` of `r` were filled, each with a new table. -/
structure Filled (places : Set Place) (s : Phys) (st : Stock hhdm) (r : Nat) (l : List Nat)
    (s' : Phys) (st' : Stock hhdm) : Prop where
  tables : Tables hhdm s' st' places
  keeps : Keeps places s st s' st'
  leaf : ∀ {r' p}, (r', p) ∈ places → p.length = 3 → ∀ j, s'.leafAt r' p j = s.leafAt r' p j
  full : ∀ k ∈ l, Present (s'.pte r k)
  count : st'.freePages + l.length = st.freePages

/-- **Filling.** Vacant slots of a root are filled, if there are pages enough. -/
theorem fillEntries (hf : flags &&& paddrMask = 0) (hpres : Present flags) (l : List Nat) :
    ∀ {s : Phys} {st : Stock hhdm}, Tables hhdm s st places → Vacant s places r l →
      Outcome.Returns (st.freePages < l.length)
        (l.foldlM (Phys.fillEntry hhdm (tablePtr hhdm r) flags) s) fun s' =>
          ∃ st', Filled places s st r l s' st' := by
  induction l with
  | nil =>
    intro s st h _
    exact .ok ⟨st, h, .refl, fun _ _ _ => rfl, by simp, rfl⟩
  | cons k l ih =>
    intro s st h hv
    obtain ⟨hk, hp, hempty⟩ := hv.2 k List.mem_cons_self
    have hroot : (r, []) ∈ places := h.forest.closed (p := []) hp
    have hlink : s.link r ⟨k, hk⟩ = none := if_neg hempty
    rw [List.foldlM_cons]
    refine ((h.fillEntry (i := ⟨k, hk⟩) hp hf hpres).mono (fun hz => ?_) fun _ hx => hx).bind
      fun s₁ hs₁ => ?_
    · rw [hz]
      exact Nat.succ_pos _
    obtain ⟨m, st₁, hl⟩ := hs₁
    have hcount := hl.count
    obtain ⟨h₁, -, -⟩ := h.sprout (q := []) hp rfl hlink hl
    have hkeeps := h.sprout_keeps (q := []) hp rfl hlink hl
    refine (ih h₁ (hv.tail h hroot hl)).mono (fun hs => ?_) fun s' hs' => ?_
    · rw [List.length_cons]
      omega
    obtain ⟨st', hfill⟩ := hs'
    refine ⟨st', hfill.tables, hkeeps.trans hfill.keeps, ?_, ?_, ?_⟩
    · intro r' p hp' hlen j
      rw [hfill.leaf hp' hlen j]
      exact h.sprout_leafAt (q := []) hp rfl hlink hl hp' hlen j
    · intro k' hk'
      rcases List.mem_cons.mp hk' with rfl | hk'
      · -- the first slot is not written again
        have hpres₁ : Present (s₁.pte r k') := by
          by_contra hno
          have hnone : s₁.link r ⟨k', hk⟩ = none := if_neg hno
          rw [hl.link] at hnone
          cases hnone
        rw [hfill.keeps.entry (p := []) (j := ⟨k', hk⟩) hroot (by decide) rfl fun _ => ?_]
        · exact hpres₁
        · rw [hl.link]
          exact Option.some_ne_none _
      · exact hfill.full k' hk'
    · have hc := hfill.count
      rw [List.length_cons]
      omega

/-! ## Copying slots -/

/-- **Copying.** Slots of a root that are no places, each set to the slot of another root. -/
theorem copyEntries {K : Nat} (hroot : (r, []) ∈ places) (hK : K < 2 ^ 52) (hne : K ≠ r)
    (l : List Nat) : ∀ {s : Phys}, Tables hhdm s st places →
      (∀ k ∈ l, ∃ hk : k < 512, (r, [⟨k, hk⟩]) ∉ places) →
      let s' := l.foldl
        (fun s i => s.setEntry hhdm (tablePtr hhdm r) i (s.entry hhdm (tablePtr hhdm K) i)) s
      Tables hhdm s' st places ∧ (∀ {r' p}, (r', p) ∈ places → s'.table r' p = s.table r' p) ∧
        (∀ k ∈ l, s'.pte r k = s.pte K k) ∧
        ∀ a (j : Fin 512), (a = r → j.val ∉ l) → s'.pte a j = s.pte a j := by
  induction l with
  | nil =>
    intro s h _
    exact ⟨h, fun _ => rfl, by simp, fun _ _ _ => rfl⟩
  | cons k l ih =>
    intro s h hslots s'
    obtain ⟨hk, hno⟩ := hslots k List.mem_cons_self
    have hr := h.root hroot
    let s₁ := s.setEntry hhdm (tablePtr hhdm r) k (s.entry hhdm (tablePtr hhdm K) k)
    obtain ⟨h₁, htable₁⟩ := h.setEntry (i := ⟨k, hk⟩) hroot rfl hno
      (s.entry hhdm (tablePtr hhdm K) k)
    have hpte₁ : ∀ a (j : Fin 512), (a = r → j.val ≠ k) → s₁.pte a j = s.pte a j :=
      fun a j ha => pte_setEntry_of_ne hr hk j.isLt ha
    obtain ⟨h', htable', hcopy, hpte'⟩ := ih h₁ fun k' hk' => hslots k' (List.mem_cons_of_mem _ hk')
    refine ⟨h', fun hp => (htable' hp).trans (htable₁ hp), ?_, ?_⟩
    · intro k' hk'
      by_cases hmem : k' ∈ l
      · obtain ⟨hlt, -⟩ := hslots k' hk'
        exact (hcopy k' hmem).trans (hpte₁ K ⟨k', hlt⟩ fun e => absurd e hne)
      · rcases List.mem_cons.mp hk' with rfl | hk'
        · refine (hpte' r ⟨k', hk⟩ fun _ => hmem).trans ?_
          exact (pte_setEntry_self hr).trans (entry_tablePtr hK)
        · exact absurd hk' hmem
    · intro a j ha
      refine (hpte' a j fun e hm => ha e (List.mem_cons_of_mem _ hm)).trans (hpte₁ a j ?_)
      intro e hj
      exact ha e (List.mem_cons.mpr (.inl hj))

/-! ## Mapping below a root -/

/-- `map` below `r`, over any range, keeps the leaf entries of the other roots. -/
theorem map_kept (h : Tables hhdm s st places)
    (hva : ∀ off, off < length → ∀ p, p ≠ [] → p <+: tablePath (va + off) → (r, p) ∈ places)
    (hs : s.map hhdm (tablePtr hhdm r) pa va length flags = .ok s') :
    ∃ st', Tables hhdm s' st' places ∧ Keeps places s st s' st' ∧
      ∀ {r' p}, (r', p) ∈ places → p.length = 3 → r' ≠ r → ∀ j,
        s'.leafAt r' p j = s.leafAt r' p j := by
  refine eachPage_invariant (I := fun s' => ∃ st', Tables hhdm s' st' places ∧
    Keeps places s st s' st' ∧
      ∀ {r' p}, (r', p) ∈ places → p.length = 3 → r' ≠ r → ∀ j,
        s'.leafAt r' p j = s.leafAt r' p j) ?_ walkFuel 0 s ⟨st, h, .refl, fun _ _ _ _ => rfl⟩ hs
  intro off s₁ s₂ hoff hI hs₂
  obtain ⟨st₁, h₁, hkeeps₁, hleaf₁⟩ := hI
  obtain ⟨st₂, hm⟩ := (h₁.mapPage (h₁.placesOf_finite r) placesOf_subset
    (fun p hne hpre => ⟨hva off hoff p hne hpre, rfl⟩) pa flags).of_ok hs₂
  refine ⟨st₂, hm.tables, hkeeps₁.trans hm.keeps, ?_⟩
  intro r' p hp hlen hne j
  rw [hm.there hp hlen fun e => hne (Prod.mk.inj e).1, hleaf₁ hp hlen hne j]

end Tables

end Phys

end TwoKernel
