import Mathlib.Data.Set.Card
import TwoKernel.Laws.Memory.Frames
import TwoKernel.Lib.Trie

/-!
# Page tables as trees

The tables in memory are trees of linked nodes (`Trie`): a node is a page
number, a slot one of the 512 entries, and a present entry a link. `Tables` says
that over a set of places the trees are well formed, beside the free list they
draw new nodes from; `Trees` is that without the free list.

`Keeps` is what the code that extends a tree promises about everything it is
not asked to change. `getNextLevel` keeps the forest and every leaf entry, and a
write to a slot that is not a link keeps the forest and every other leaf.
Running out of pages is the one way not to return, and it takes more missing
tables than there are free pages (`missing`, `Stock.freePages`).
-/

namespace TwoKernel

open ByteMem Vmm Trie

/-- A root and the slots that lead down from it. -/
abbrev Place := Nat × List (Fin 512)

variable {hhdm : Word} {s s' s'' : Phys} {st st' st'' : Stock hhdm} {places X : Set Place}
  {r r' n m t : Nat} {p q : List (Fin 512)} {i j : Fin 512} {va v flags value : Word}

namespace Phys

/-- The page that entry `i` of the table in page `f` links to. -/
def link (s : Phys) (f : Nat) (i : Fin 512) : Option Nat := s.nextFrame f i

/-- The table at a place. -/
def table (s : Phys) (r : Nat) (p : List (Fin 512)) : Option Nat := descend s.link r p

/-- An entry of a page table, if it is present. -/
def leaf (s : Phys) (t : Nat) (j : Fin 512) : Option Word :=
  if Present (s.pte t j) then some (s.pte t j) else none

/-- The leaf entry in slot `j` of the page table at a place. -/
def leafAt (s : Phys) (r : Nat) (p : List (Fin 512)) (j : Fin 512) : Option Word :=
  (s.table r p).bind fun t => s.leaf t j

/-- The processor's walk finds the leaf entry at the end of the path of `va`. -/
theorem walk_eq : s.walk r va = s.leafAt r (tablePath va) (slot level12 va) := by
  unfold walk leafAt table tablePath
  simp only [descend, link, slot]
  cases s.nextFrame r (index 39 va) with
  | none => rfl
  | some pdpt =>
    show Option.bind (s.nextFrame pdpt _) _ = Option.bind (Option.bind (s.nextFrame pdpt _) _) _
    cases s.nextFrame pdpt (index 30 va) with
    | none => rfl
    | some pd =>
      show Option.bind (s.nextFrame pd _) _ = Option.bind (Option.bind (s.nextFrame pd _) _) _
      cases s.nextFrame pd (index 21 va) <;> rfl

theorem link_congr (h : s'.pte n i = s.pte n i) : s'.link n i = s.link n i := by
  unfold link nextFrame
  rw [h]

theorem leaf_congr (h : s'.pte n i = s.pte n i) : s'.leaf n i = s.leaf n i := by
  unfold leaf
  rw [h]

/-- An entry names a page below `2 ^ 48`. -/
theorem link_lt (h : s.link n i = some m) : m < 2 ^ 52 := by
  unfold link nextFrame at h
  split at h
  · cases h
    exact Nat.lt_trans frameOf_lt (by decide)
  · cases h

theorem table_lt (hr : r < 2 ^ 52) (hn : s.table r p = some n) : n < 2 ^ 52 := by
  induction p using List.reverseRecOn with
  | nil =>
    cases hn
    exact hr
  | append_singleton p i _ =>
    unfold table at hn
    rw [descend_concat] at hn
    obtain ⟨a, -, ha⟩ := Option.bind_eq_some_iff.mp hn
    exact link_lt ha

/-- The places of `X` that have no table yet. -/
def missing (s : Phys) (X : Set Place) : Set Place := {z ∈ X | s.table z.1 z.2 = none}

/-- The pages of the tables at the given places. -/
def frames (s : Phys) (places : Set Place) : Set Nat :=
  {n | ∃ r p, (r, p) ∈ places ∧ s.table r p = some n}

/-- Well-formed trees beside a free list: every place leads to a table of its own, and no table is
in a free page. -/
structure Tables (hhdm : Word) (s : Phys) (st : Stock hhdm) (places : Set Place) : Prop where
  stocked : s.Stocked hhdm st
  forest : Forest s.link places st.pool
  root : ∀ {r p}, (r, p) ∈ places → r < 2 ^ 52
  depth : ∀ {r p}, (r, p) ∈ places → p.length ≤ 3

/-- Well-formed trees: every place leads to a table of its own, and no table is in a page of
`free`. -/
structure Trees (s : Phys) (free : Set Nat) (places : Set Place) : Prop where
  forest : Forest s.link places free
  root : ∀ {r p}, (r, p) ∈ places → r < 2 ^ 52
  depth : ∀ {r p}, (r, p) ∈ places → p.length ≤ 3

theorem Tables.trees (h : Tables hhdm s st places) : Trees s st.pool places :=
  ⟨h.forest, h.root, h.depth⟩

/-- What is kept while a tree over `places` is extended: tables stay where they are; an entry above
the leaves changes only if it is an empty slot that is a place; and no page but free ones and tables
is written. -/
structure Keeps (places : Set Place) (s : Phys) (st : Stock hhdm) (s' : Phys) (st' : Stock hhdm) :
    Prop where
  table : ∀ {r p n}, (r, p) ∈ places → s.table r p = some n → s'.table r p = some n
  entry : ∀ {r p n j}, (r, p) ∈ places → p.length < 3 → s.table r p = some n →
    ((r, p ++ [j]) ∈ places → s.link n j ≠ none) → s'.pte n j = s.pte n j
  pool : st'.pool ⊆ st.pool
  frames : s'.frames places ⊆ s.frames places ∪ st.pool
  mem : Set.EqOn s'.mem s.mem (pageBytes (s.frames places ∪ st.pool))ᶜ

/-- Each page that is no longer free is a table of `X` that is no longer missing. -/
def Paid (X : Set Place) (s : Phys) (st : Stock hhdm) (s' : Phys) (st' : Stock hhdm) : Prop :=
  st'.freePages + (s.missing X).ncard = st.freePages + (s'.missing X).ncard

theorem Paid.trans (h : Paid X s st s' st') (h' : Paid X s' st' s'' st'') : Paid X s st s'' st'' := by
  unfold Paid at *
  omega

/-- A later stop for want of pages is one from the start. -/
theorem Paid.short (h : Paid X s st s' st') (hs : st'.freePages < (s'.missing X).ncard) :
    st.freePages < (s.missing X).ncard := by
  unfold Paid at h
  omega

namespace Keeps

theorem refl : Keeps places s st s st where
  table _ h := h
  entry _ _ _ _ := rfl
  pool := Set.Subset.rfl
  frames := Set.subset_union_left
  mem _ _ := rfl

theorem dom (h : Keeps places s st s' st') :
    s'.frames places ∪ st'.pool ⊆ s.frames places ∪ st.pool :=
  Set.union_subset h.frames (h.pool.trans Set.subset_union_right)

theorem trans (h : Keeps places s st s' st') (h' : Keeps places s' st' s'' st'') :
    Keeps places s st s'' st'' where
  table hp hn := h'.table hp (h.table hp hn)
  entry {r p n j} hp hlen hn hslot := by
    have he := h.entry hp hlen hn hslot
    rw [h'.entry hp hlen (h.table hp hn) fun hpj => link_congr he ▸ hslot hpj, he]
  pool := h'.pool.trans h.pool
  frames := (h'.frames.trans (Set.union_subset_union_right _ h.pool)).trans
    (Set.union_subset h.frames Set.subset_union_right)
  mem := (h'.mem.mono (Set.compl_subset_compl.mpr (pageBytes_mono h.dom))).trans h.mem

end Keeps

/-! ## Writing a slot that is not a link -/

namespace Trees

variable {free : Set Nat}

theorem table_lt (h : Trees s free places) (hp : (r, p) ∈ places) (hn : s.table r p = some n) :
    n < 2 ^ 52 := Phys.table_lt (h.root hp) hn

/-- A slot written in a table: if the slot is no place of the forest, every table is where it was,
and the trees are well formed. -/
theorem setEntry (h : Trees s free places) (hp : (r, p) ∈ places) (hn : s.table r p = some n)
    (hno : (r, p ++ [i]) ∉ places) (value : Word) :
    Trees (s.setEntry hhdm (tablePtr hhdm n) i value) free places ∧
      (∀ {r' p'}, (r', p') ∈ places →
        (s.setEntry hhdm (tablePtr hhdm n) i value).table r' p' = s.table r' p') := by
  have hlt := h.table_lt hp hn
  have htable : ∀ {r' p'}, (r', p') ∈ places →
      (s.setEntry hhdm (tablePtr hhdm n) i value).table r' p' = s.table r' p' := by
    intro r' p' hp'
    refine h.forest.descend_eq (i := i) hp hn ?_ hp' ?_
    · intro a j _ hne
      exact link_congr (pte_setEntry_of_ne hlt i.isLt j.isLt fun e he => hne e (Fin.ext he))
    · rintro rfl hpre
      exact hno (h.forest.closed_prefix hp' hpre)
  exact ⟨⟨h.forest.congr Set.Subset.rfl fun r' p' hp' => htable hp', h.root, h.depth⟩, htable⟩

/-- No table is below a page table. -/
theorem not_below (h : Trees s free places) (hlen : p.length = 3) : (r, p ++ [i]) ∉ places := by
  intro hpl
  have hd := h.depth hpl
  rw [List.length_append, List.length_singleton] at hd
  omega

/-- The leaf entries after a write to a page table. -/
theorem leafAt_setEntry (h : Trees s free places) (hp : (r, p) ∈ places) (hlen : p.length = 3)
    (hn : s.table r p = some n) (value : Word) :
    (s.setEntry hhdm (tablePtr hhdm n) i value).leafAt r p i =
        (if Present value then some value else none) ∧
      ∀ {r' p' j}, (r', p') ∈ places → (r', p', j) ≠ (r, p, i) →
        (s.setEntry hhdm (tablePtr hhdm n) i value).leafAt r' p' j = s.leafAt r' p' j := by
  have hlt := h.table_lt hp hn
  obtain ⟨-, htable⟩ := h.setEntry hp hn (h.not_below hlen) value
  constructor
  · unfold leafAt
    rw [htable hp, hn]
    show (s.setEntry hhdm (tablePtr hhdm n) i value).leaf n i = _
    unfold leaf
    rw [pte_setEntry_self hlt]
  · intro r' p' j hp' hne
    unfold leafAt
    rw [htable hp']
    cases ha : s.table r' p' with
    | none => rfl
    | some a =>
      refine leaf_congr (pte_setEntry_of_ne hlt i.isLt j.isLt ?_)
      rintro rfl hji
      obtain ⟨rfl, rfl⟩ := h.forest.sole hp' hp ha hn
      exact hne (by rw [Fin.ext hji])

end Trees

namespace Tables

/-- One level down is one link. -/
theorem table_concat (hn : s.table r q = some n) : s.table r (q ++ [i]) = s.link n i := by
  unfold table
  rw [descend_concat]
  show (s.table r q).bind _ = _
  rw [hn]
  rfl

/-- The tree of an empty root table. -/
theorem table_zero (hzero : ∀ j : Fin 512, s.pte m j = 0) (h : s.table m p = some n) :
    p = [] ∧ n = m := by
  cases p with
  | nil =>
    cases h
    exact ⟨rfl, rfl⟩
  | cons i p =>
    have hlink : s.link m i = none := by
      unfold link nextFrame
      rw [hzero]
      exact if_neg (by decide)
    have hnone : s.table m (i :: p) = none := by
      show (s.link m i).bind _ = none
      rw [hlink]
      rfl
    rw [hnone] at h
    cases h

/-- A write to a slot that is no place leaves the free pages alone. -/
theorem setEntry (h : Tables hhdm s st places) (hp : (r, p) ∈ places) (hn : s.table r p = some n)
    (hno : (r, p ++ [i]) ∉ places) (value : Word) :
    Tables hhdm (s.setEntry hhdm (tablePtr hhdm n) i value) st places ∧
      (∀ {r' p'}, (r', p') ∈ places →
        (s.setEntry hhdm (tablePtr hhdm n) i value).table r' p' = s.table r' p') := by
  obtain ⟨htrees, htable⟩ := h.trees.setEntry hp hn hno value
  refine ⟨⟨?_, htrees.forest, h.root, h.depth⟩, htable⟩
  refine h.stocked.frame rfl ((setEntry_eqOn (h.trees.table_lt hp hn) i.isLt).mono ?_)
  rintro x hx rfl
  exact h.forest.used hp hn hx

/-! ## Extending a tree -/

/-- The flags `get_next_level` gives a new table. -/
def tableFlags (flags : Word) : Word :=
  if flags &&& user ≠ 0 then present ||| writeable ||| user else present ||| writeable

/-- The flags that `get_next_level` gives a table. -/
theorem tableFlags_eq (pa flags : Word) :
    (if flags &&& user ≠ 0 then pa ||| present ||| writeable ||| user
      else pa ||| present ||| writeable) = pa ||| tableFlags flags := by
  unfold tableFlags
  split
  · rw [BitVec.or_assoc, BitVec.or_assoc, BitVec.or_assoc]
  · rw [BitVec.or_assoc]

/-- They leave the address alone and have `PRESENT`. -/
theorem tableFlags_ok (flags : Word) :
    tableFlags flags &&& paddrMask = 0 ∧ Present (tableFlags flags) := by
  unfold tableFlags
  split
  · decide
  · decide

/-- Slot `i` of the table in page `n` was made to link to page `m`, which was free and is zero. -/
structure Linked (s : Phys) (st : Stock hhdm) (n : Nat) (i : Fin 512) (m : Nat) (s' : Phys)
    (st' : Stock hhdm) : Prop where
  fresh : m ∈ st.pool
  stocked : s'.Stocked hhdm st'
  rest : st'.pool ⊆ st.pool \ {m}
  count : st'.freePages + 1 = st.freePages
  mem : Set.EqOn s'.mem s.mem (pageBytes ({n} ∪ st.pool))ᶜ
  link : s'.link n i = some m
  zero : ∀ j : Fin 512, s'.pte m j = 0
  pte : ∀ a (j : Fin 512), a ∉ st.pool → (a = n → j ≠ i) → s'.pte a j = s.pte a j

/-- A new table whose address is in an entry is linked. -/
theorem linked_of_newTable (h : NewTable s st m s' st') (hlow : m < 2 ^ 36)
    (hn : n ∉ st.pool) (hlt : n < 2 ^ 52) (hf : flags &&& paddrMask = 0) (hpres : Present flags) :
    Linked s st n i m (s'.setEntry hhdm (tablePtr hhdm n) i (framePa m ||| flags)) st' where
  fresh := h.taken
  stocked := by
    refine h.stocked.frame rfl ((setEntry_eqOn hlt i.isLt).mono ?_)
    intro x hx hxn
    have hx : x / 4096 ∈ st'.pool := hx
    have hxn : x / 4096 = n := hxn
    exact hn (h.rest (hxn ▸ hx)).1
  rest := h.rest
  count := h.count
  mem := by
    refine ((setEntry_eqOn hlt i.isLt).mono ?_).trans (h.mem.mono ?_)
    · exact fun x hx hxn => hx (.inl hxn)
    · exact fun x hx hxp => hx (.inr hxp)
  link := by
    unfold link nextFrame
    rw [pte_setEntry_self hlt, if_pos ((present_framePa_or hlow).mpr hpres), frameOf_or hlow hf]
  zero j := by
    have hmn : m ≠ n := fun e => hn (e ▸ h.taken)
    rw [pte_setEntry_of_ne hlt i.isLt j.isLt fun e => absurd e hmn]
    exact h.zero j j.isLt
  pte a j ha hne := by
    rw [pte_setEntry_of_ne hlt i.isLt j.isLt fun e he => hne e (Fin.ext he)]
    apply pte_congr (h.mem.mono _) j.isLt
    intro x hx hxa
    have hxa : x / 4096 ∈ st.pool := hxa
    have hx : x / 4096 = a := hx
    exact ha (hx ▸ hxa)

section sprout

variable (h : Tables hhdm s st places) (hp : (r, q ++ [i]) ∈ places) (hn : s.table r q = some n)
  (hi : s.link n i = none) (hl : Linked s st n i m s' st')
include h hp hn hi hl

/-- A new table linked into an empty slot is at the place of the slot and disturbs no other. -/
theorem sprout : Tables hhdm s' st' places ∧ s'.table r (q ++ [i]) = some m ∧
    ∀ {r' p'}, (r', p') ∈ places → (r', p') ≠ (r, q ++ [i]) → s'.table r' p' = s.table r' p' := by
  have hempty : ∀ j, s'.link m j = none := by
    intro j
    unfold link nextFrame
    rw [hl.zero]
    exact if_neg (by decide)
  obtain ⟨hat, hrest, hforest⟩ : descend s'.link r (q ++ [i]) = some m ∧
      (∀ r' p, (r', p) ∈ places → (r', p) ≠ (r, q ++ [i]) →
        descend s'.link r' p = descend s.link r' p) ∧ Forest s'.link places st'.pool :=
    h.forest.graft hp hn hi hl.fresh (fun a j ha hne => link_congr (hl.pte a j ha hne)) hl.link
      hempty hl.rest
  exact ⟨⟨hl.stocked, hforest, h.root, h.depth⟩, hat, fun hp' hne => hrest _ _ hp' hne⟩

/-- Only the entry in the slot itself is new. -/
theorem sprout_leafAt_of_ne (hp' : (r', p) ∈ places) (hne : (r', p, j) ≠ (r, q, i)) :
    s'.leafAt r' p j = s.leafAt r' p j := by
  obtain ⟨-, hat, hrest⟩ := h.sprout hp hn hi hl
  unfold leafAt
  by_cases e : (r', p) = (r, q ++ [i])
  · cases e
    rw [hat, table_concat hn, hi]
    show s'.leaf m j = none
    unfold leaf
    rw [hl.zero]
    exact if_neg (by decide)
  · rw [hrest hp' e]
    cases ha : s.table r' p with
    | none => rfl
    | some a =>
      refine leaf_congr (hl.pte a j (h.forest.used hp' ha) ?_)
      rintro rfl rfl
      obtain ⟨rfl, rfl⟩ := h.forest.sole hp' (h.forest.closed hp) ha hn
      exact hne rfl

/-- A new table changes no leaf entry. -/
theorem sprout_leafAt (hp' : (r', p) ∈ places) (hlen : p.length = 3) (j : Fin 512) :
    s'.leafAt r' p j = s.leafAt r' p j := by
  apply h.sprout_leafAt_of_ne hp hn hi hl hp'
  intro e
  cases e
  -- a page table is three levels down, the table that was written is not
  have hd := h.depth hp
  rw [List.length_append, List.length_singleton] at hd
  omega

/-- Exactly one place is no longer missing. -/
theorem sprout_missing (hX : X.Finite) (hXp : X ⊆ places) (hz : (r, q ++ [i]) ∈ X) :
    (s'.missing X).ncard + 1 = (s.missing X).ncard := by
  obtain ⟨-, hat, hrest⟩ := h.sprout hp hn hi hl
  have hmiss : (r, q ++ [i]) ∈ s.missing X := ⟨hz, by rw [table_concat hn, hi]⟩
  have hset : s'.missing X = s.missing X \ {(r, q ++ [i])} := by
    ext z
    constructor
    · rintro ⟨hzX, hnone⟩
      have hne : z ≠ (r, q ++ [i]) := by
        rintro rfl
        rw [hat] at hnone
        cases hnone
      exact ⟨⟨hzX, by rw [← hrest (hXp hzX) hne]; exact hnone⟩, hne⟩
    · rintro ⟨⟨hzX, hnone⟩, hne⟩
      exact ⟨hzX, by rw [hrest (hXp hzX) hne]; exact hnone⟩
  rw [hset]
  exact Set.ncard_sdiff_singleton_add_one hmiss (hX.subset fun z hz => hz.1)

/-- It is paid for with a free page. -/
theorem sprout_paid (hX : X.Finite) (hXp : X ⊆ places) (hz : (r, q ++ [i]) ∈ X) :
    Paid X s st s' st' := by
  have hcard := h.sprout_missing hp hn hi hl hX hXp hz
  have hcount := hl.count
  unfold Paid
  omega

theorem sprout_keeps : Keeps places s st s' st' := by
  obtain ⟨-, hat, hrest⟩ := h.sprout hp hn hi hl
  have hq : (r, q) ∈ places := h.forest.closed hp
  refine ⟨?_, ?_, fun x hx => (hl.rest hx).1, ?_, ?_⟩
  · intro r' p a hp' ha
    rw [hrest hp' ?_]
    · exact ha
    · intro e
      cases e
      rw [table_concat hn, hi] at ha
      cases ha
  · intro r' p a j hp' _ ha hslot
    refine hl.pte a j (h.forest.used hp' ha) ?_
    rintro rfl rfl
    obtain ⟨rfl, rfl⟩ := h.forest.sole hp' hq ha hn
    exact hslot hp hi
  · rintro a ⟨r', p, hp', ha⟩
    by_cases e : (r', p) = (r, q ++ [i])
    · cases e
      rw [hat] at ha
      cases ha
      exact .inr hl.fresh
    · rw [hrest hp' e] at ha
      exact .inl ⟨r', p, hp', ha⟩
  · apply hl.mem.mono
    apply Set.compl_subset_compl.mpr
    apply pageBytes_mono
    apply Set.union_subset_union_left
    rintro a rfl
    exact ⟨r, q, hq, hn⟩

end sprout

/-- A table was reached at the place `(r, p)`, made if it was not there; no leaf entry changed. -/
structure Grown (X places : Set Place) (s : Phys) (st : Stock hhdm) (r : Nat) (p : List (Fin 512))
    (t : Nat) (s' : Phys) (st' : Stock hhdm) : Prop where
  tables : Tables hhdm s' st' places
  reached : s'.table r p = some t
  leaf : ∀ {r' p'}, (r', p') ∈ places → p'.length = 3 → ∀ j, s'.leafAt r' p' j = s.leafAt r' p' j
  keeps : Keeps places s st s' st'
  paid : Paid X s st s' st'

/-- **`get_next_level` that may allocate.** It returns the table at the slot, there before or made
now; the forest stands, every leaf entry is what it was, and the rest is kept. It stops the machine
only if more tables are missing than there are free pages. -/
theorem getNextLevel (h : Tables hhdm s st places) (hX : X.Finite) (hXp : X ⊆ places)
    (hz : (r, q ++ [i]) ∈ X) (hn : s.table r q = some n) (flags : Word) :
    Outcome.Returns (st.freePages < (s.missing X).ncard)
      (s.getNextLevel hhdm (tablePtr hhdm n) i flags true) fun x => ∃ m st',
        x.1 = some (tablePtr hhdm m) ∧ Grown X places s st r (q ++ [i]) m x.2 st' := by
  have hp : (r, q ++ [i]) ∈ places := hXp hz
  have hq : (r, q) ∈ places := h.forest.closed hp
  have hlt := h.trees.table_lt hq hn
  unfold Phys.getNextLevel
  rw [entry_tablePtr hlt]
  by_cases hpres : Present (s.pte n i)
  · rw [if_pos hpres]
    have hlink : s.link n i = some (frameOf (s.pte n i)) := if_pos hpres
    refine .ok ⟨frameOf (s.pte n i), st, ?_, h, ?_, fun _ _ _ => rfl, .refl, rfl⟩
    · unfold tablePtr
      rw [framePa_frameOf]
    · rw [table_concat hn, hlink]
  · rw [if_neg hpres, if_pos rfl]
    have hlink : s.link n i = none := if_neg hpres
    rcases h.stocked.newTable with ⟨hzero, hs⟩ | ⟨m, s', st', hs, hne, hnew⟩
    · rw [hs]
      refine .inr ⟨?_, _, rfl⟩
      rw [hzero]
      apply (Set.ncard_pos (hX.subset fun z hz => hz.1)).mpr
      exact ⟨(r, q ++ [i]), hz, by rw [table_concat hn, hlink]⟩
    · rw [hs, ok_bind, if_neg hne, tableFlags_eq]
      obtain ⟨hf, hfp⟩ := tableFlags_ok flags
      have hl : Linked s st n i m _ st' :=
        linked_of_newTable hnew (h.stocked.low m hnew.taken) (h.forest.used hq hn) hlt hf hfp
      obtain ⟨htab, hat, -⟩ := h.sprout hp hn hlink hl
      exact .ok ⟨m, st', rfl, htab, hat, h.sprout_leafAt hp hn hlink hl,
        h.sprout_keeps hp hn hlink hl, h.sprout_paid hp hn hlink hl hX hXp hz⟩

end Tables

end Phys

end TwoKernel
