import TwoKernel.Laws.Memory.Spaces

/-!
# Permissions of mapped pages

The processor takes the permissions of a page from all four entries of its walk:
each must have `USER`, each must have `WRITEABLE`, and none may have `NX`. `map`
writes the flags it is given into the last entry only. The three above it get
their flags when their table is made, from whichever call was the first to go
through them, and keep them.

`Tracks` ties the entries to the history of the directory: an entry above the
leaves has the flags of the first mapping through it, or those that
`process_fill_user_entires` gave it, and a leaf entry is that of the last mapping
of its page. So a page has the permissions it was last mapped with unless it was
mapped with `USER` through a table made without (`permissions_iff`).
-/

namespace TwoKernel

open ByteMem Vmm Trie

variable {hhdm : Word} {s s' s'' : Phys} {st st' st'' : Stock hhdm} {places X Y Y' : Set Place}
  {r r' n m k root : Nat} {p q : List (Fin 512)} {i j : Fin 512} {pa va v off flags e : Word}

namespace Vmm

/-- What an entry says about the use of a page. -/
structure Rights where
  user : Bool
  writeable : Bool
  noExec : Bool
  deriving DecidableEq, Repr

namespace Rights

/-- The permissions in the flags of an entry. -/
def of (e : Word) : Rights :=
  ⟨decide (e &&& Vmm.user ≠ 0), decide (e &&& Vmm.writeable ≠ 0), decide (e &&& nx ≠ 0)⟩

/-- What two entries on one walk allow together. -/
def meet (a b : Rights) : Rights :=
  ⟨a.user && b.user, a.writeable && b.writeable, a.noExec || b.noExec⟩

/-- Bits of an address that are not among the flags say nothing about the permissions. -/
theorem of_or (hu : e &&& Vmm.user = 0) (hw : e &&& Vmm.writeable = 0) (flags : Word) :
    of (e ||| flags) =
      ⟨(of flags).user, (of flags).writeable, (of e).noExec || (of flags).noExec⟩ := by
  have hbit : ∀ b : Word, e &&& b = 0 → (e ||| flags) &&& b = flags &&& b := by
    intro b hb
    rw [BitVec.and_or_distrib_right, hb]
    exact BitVec.zero_or
  have hnx : (e ||| flags) &&& nx ≠ 0 ↔ e &&& nx ≠ 0 ∨ flags &&& nx ≠ 0 := by
    rw [BitVec.and_or_distrib_right, ← not_and_or, not_iff_not]
    exact BitVec.or_eq_zero_iff
  unfold of
  rw [hbit _ hu, hbit _ hw, Rights.mk.injEq]
  refine ⟨rfl, rfl, ?_⟩
  rw [← Bool.decide_or]
  exact decide_eq_decide.mpr hnx

/-- Permissions with some taken away are the same if those were not there. -/
theorem narrowed_eq_iff {f : Rights} {b n : Bool} :
    (⟨b && f.user, f.writeable, n || f.noExec⟩ : Rights) = f ↔
      (f.user = true → b = true) ∧ (n = true → f.noExec = true) := by
  obtain ⟨user, writeable, noExec⟩ := f
  rw [Rights.mk.injEq]
  cases b <;> cases user <;> cases n <;> cases noExec <;> simp

end Rights

end Vmm

namespace Phys

/-- The permissions the processor finds for `va`, if every entry on the way is present. -/
def effective (root : Nat) (va : Word) (s : Phys) : Option Rights := do
  let pdpt ← s.nextFrame root (index 39 va)
  let pd ← s.nextFrame pdpt (index 30 va)
  let pt ← s.nextFrame pd (index 21 va)
  if Present (s.pte pt (index 12 va)) then
    some ((((Rights.of (s.pte root (index 39 va))).meet (.of (s.pte pdpt (index 30 va)))).meet
      (.of (s.pte pd (index 21 va)))).meet (.of (s.pte pt (index 12 va))))
  else none

/-- The permissions in slot `i` of the table at a place. -/
def rightsAt (s : Phys) (r : Nat) (q : List (Fin 512)) (i : Fin 512) : Option Rights :=
  (s.leafAt r q i).map Rights.of

theorem rightsAt_of_table (hn : s.table r q = some n) :
    s.rightsAt r q i = (s.link n i).map fun _ => Rights.of (s.pte n i) := by
  unfold rightsAt leafAt link nextFrame leaf
  rw [hn, Option.bind_some]
  split
  · rfl
  · rfl

theorem leaf_some (h : s.leaf n i = some e) :
    Present e ∧ s.pte n i = e ∧ s.nextFrame n i = some (frameOf e) := by
  unfold leaf at h
  unfold nextFrame
  split at h
  next hpres =>
    cases h
    exact ⟨hpres, rfl, if_pos hpres⟩
  next => cases h

/-- An entry one level down is in the table that the entry above it names. -/
theorem leaf_of_concat (hq : s.leafAt r q i = some e) :
    s.leafAt r (q ++ [i]) j = s.leaf (frameOf e) j := by
  obtain ⟨n, hn, hleaf⟩ := Option.bind_eq_some_iff.mp hq
  unfold leafAt
  rw [Tables.table_concat hn]
  show (s.nextFrame n i).bind _ = _
  rw [(leaf_some hleaf).2.2]
  rfl

/-- The four entries of the walk are those at the places along the path of `va`. -/
theorem effective_of_rightsAt {a b c d : Rights} (ha : s.rightsAt r [] (slot level39 va) = some a)
    (hb : s.rightsAt r [slot level39 va] (slot level30 va) = some b)
    (hc : s.rightsAt r [slot level39 va, slot level30 va] (slot level21 va) = some c)
    (hd : s.rightsAt r (tablePath va) (slot level12 va) = some d) :
    s.effective r va = some (((a.meet b).meet c).meet d) := by
  obtain ⟨e₁, h₁, rfl⟩ := Option.map_eq_some_iff.mp ha
  obtain ⟨e₂, h₂, rfl⟩ := Option.map_eq_some_iff.mp hb
  obtain ⟨e₃, h₃, rfl⟩ := Option.map_eq_some_iff.mp hc
  obtain ⟨e₄, h₄, rfl⟩ := Option.map_eq_some_iff.mp hd
  obtain ⟨-, hpte₁, hnext₁⟩ := leaf_some (n := r) h₁
  obtain ⟨-, hpte₂, hnext₂⟩ := leaf_some ((leaf_of_concat h₁).symm.trans h₂)
  obtain ⟨-, hpte₃, hnext₃⟩ := leaf_some ((leaf_of_concat h₂).symm.trans h₃)
  obtain ⟨hpres, hpte₄, -⟩ := leaf_some ((leaf_of_concat h₃).symm.trans h₄)
  unfold effective
  simp only [slot] at hpte₁ hnext₁ hpte₂ hnext₂ hpte₃ hnext₃ hpte₄
  simp only [hnext₁, hnext₂, hnext₃, Option.bind_eq_bind, Option.bind_some, hpte₁, hpte₂, hpte₃,
    hpte₄, if_pos hpres]

/-! ## New tables -/

/-- The entries above the leaves in the places of `Y` are there now: an entry that was there is kept,
and one that was not gives the permissions `R`. All other entries above the leaves are kept. -/
structure Gives (places Y : Set Place) (R : Rights) (s s' : Phys) : Prop where
  inside : ∀ {r q i}, (r, q ++ [i]) ∈ places → (r, q ++ [i]) ∈ Y →
    s'.rightsAt r q i = some ((s.rightsAt r q i).getD R)
  outside : ∀ {r q i}, (r, q ++ [i]) ∈ places → (r, q ++ [i]) ∉ Y →
    s'.rightsAt r q i = s.rightsAt r q i

namespace Gives

variable {R : Rights}

private theorem refl : Gives places ∅ R s s := ⟨fun _ h => absurd h (Set.notMem_empty _), fun _ _ => rfl⟩

theorem trans (h : Gives places Y R s s') (h' : Gives places Y' R s' s'') :
    Gives places (Y ∪ Y') R s s'' where
  inside {r q i} hp hY := by
    by_cases hY' : (r, q ++ [i]) ∈ Y'
    · rw [h'.inside hp hY']
      by_cases hin : (r, q ++ [i]) ∈ Y
      · rw [h.inside hp hin]
        rfl
      · rw [h.outside hp hin]
    · rw [h'.outside hp hY', h.inside hp (hY.resolve_right hY')]
  outside hp hY := by
    rw [h'.outside hp fun h => hY (.inr h), h.outside hp fun h => hY (.inl h)]

/-- An entry that was there. -/
theorem of_rightsAt {a : Rights} (ha : s.rightsAt r q i = some a) :
    Gives places {(r, q ++ [i])} R s s := by
  refine ⟨?_, fun _ _ => rfl⟩
  intro r' q' i' _ hY
  obtain ⟨rfl, hqi⟩ := Prod.mk.inj (Set.mem_singleton_iff.mp hY)
  obtain ⟨rfl, hi⟩ := List.append_inj' hqi rfl
  cases hi
  rw [ha]
  rfl

/-- A new table. -/
theorem of_linked (h : Tables hhdm s st places) (hp : (r, q ++ [i]) ∈ places)
    (hn : s.table r q = some n) (hi : s.link n i = none) (hl : Tables.Linked s st n i m s' st')
    (hR : Rights.of (s'.pte n i) = R) : Gives places {(r, q ++ [i])} R s s' := by
  have hat : s'.table r q = some n := by
    obtain ⟨-, -, hrest⟩ := h.sprout hp hn hi hl
    rw [hrest (h.forest.closed hp) fun e => ?_, hn]
    exact absurd (congrArg List.length (Prod.mk.inj e).2) (by simp)
  have hold : s.rightsAt r q i = none := by
    rw [rightsAt_of_table hn, hi]
    rfl
  have hnew : s'.rightsAt r q i = some R := by
    rw [rightsAt_of_table hat, hl.link, ← hR]
    rfl
  refine ⟨?_, ?_⟩
  · intro r' q' i' _ hY
    obtain ⟨rfl, hqi⟩ := Prod.mk.inj (Set.mem_singleton_iff.mp hY)
    obtain ⟨rfl, hi⟩ := List.append_inj' hqi rfl
    cases hi
    rw [hold, hnew]
    rfl
  · intro r' q' i' hp' hY
    unfold rightsAt
    rw [h.sprout_leafAt_of_ne hp hn hi hl (h.forest.closed hp') fun e => ?_]
    cases e
    exact hY rfl

end Gives

namespace Tables

/-- The address of a table says nothing about permissions. -/
theorem rights_framePa (hm : m < 2 ^ 36) (flags : Word) :
    Rights.of (framePa m ||| flags) = Rights.of flags := by
  have hpa : (framePa m).toNat = 4096 * m := framePa_toNat (by omega)
  have hself : framePa m &&& paddrMask = framePa m :=
    and_paddrMask_of_aligned (by omega) (by omega)
  have hmask : ∀ b, paddrMask &&& b = 0 → framePa m &&& b = 0 := by
    intro b hb
    rw [← hself, BitVec.and_assoc, hb]
    exact BitVec.and_zero
  have hnx : (Rights.of (framePa m)).noExec = false :=
    decide_eq_false (not_not.mpr (hmask nx (by decide)))
  rw [Rights.of_or (hmask user (by decide)) (hmask writeable (by decide)), hnx, Bool.false_or]

/-- `get_next_level` gives a table it makes the permissions its caller asked for, in so far as `USER`
is concerned. -/
theorem getNextLevel_gives (h : Tables hhdm s st places) (hp : (r, q ++ [i]) ∈ places)
    (hn : s.table r q = some n) {x : Option Word × Phys}
    (hx : s.getNextLevel hhdm (tablePtr hhdm n) i flags true = .ok x) :
    ∃ m st', x.1 = some (tablePtr hhdm m) ∧ Tables hhdm x.2 st' places ∧
      x.2.table r (q ++ [i]) = some m ∧
      Gives places {(r, q ++ [i])} (.of (tableFlags flags)) s x.2 := by
  have hq : (r, q) ∈ places := h.forest.closed hp
  have hlt := h.trees.table_lt hq hn
  obtain ⟨m, st', hptr, hg⟩ := (h.getNextLevel (h.placesOf_finite r) placesOf_subset ⟨hp, rfl⟩ hn
    flags).of_ok hx
  refine ⟨m, st', hptr, hg.tables, hg.reached, ?_⟩
  unfold Phys.getNextLevel at hx
  rw [entry_tablePtr hlt] at hx
  by_cases hpres : Present (s.pte n i)
  · rw [if_pos hpres] at hx
    cases hx
    have hlink : s.link n i = some _ := if_pos hpres
    exact .of_rightsAt (by rw [rightsAt_of_table hn, hlink]; rfl)
  · rw [if_neg hpres, if_pos rfl] at hx
    have hlink : s.link n i = none := if_neg hpres
    rcases h.stocked.newTable with ⟨-, hs⟩ | ⟨m, s', st', hs, hne, hnew⟩
    · rw [hs, ok_bind, if_pos rfl] at hx
      cases hx
    · rw [hs, ok_bind, if_neg hne, tableFlags_eq] at hx
      cases hx
      have hlow := h.stocked.low m hnew.taken
      obtain ⟨hf, hfp⟩ := tableFlags_ok flags
      have hl : Linked s st n i m _ st' :=
        linked_of_newTable hnew hlow (h.forest.used hq hn) hlt hf hfp
      refine .of_linked h hp hn hlink hl ?_
      rw [pte_setEntry_self hlt, rights_framePa hlow]

/-- The places of the tables on the way to the page of `va`. -/
def wayPlaces (r : Nat) (va : Word) : Set Place := {z | z.1 = r ∧ z.2 ≠ [] ∧ z.2 <+: tablePath va}

private theorem wayPlaces_eq : {(r, [slot level39 va])} ∪ {(r, [slot level39 va, slot level30 va])} ∪
    {(r, tablePath va)} = wayPlaces r va := by
  ext ⟨r', p⟩
  constructor
  · intro hz
    rcases hz with (hz | hz) | hz
    · cases hz
      exact ⟨rfl, List.cons_ne_nil _ _, _, rfl⟩
    · cases hz
      exact ⟨rfl, List.cons_ne_nil _ _, _, rfl⟩
    · cases hz
      exact ⟨rfl, List.cons_ne_nil _ _, List.prefix_rfl⟩
  · intro hz
    obtain ⟨hr, hne, hpre⟩ := hz
    cases hr
    obtain ⟨p, rfl, hp⟩ := (List.prefix_cons_iff.mp hpre).resolve_left hne
    rcases List.prefix_cons_iff.mp hp with rfl | ⟨q, rfl, hq⟩
    · exact .inl (.inl rfl)
    rcases List.prefix_cons_iff.mp hq with rfl | ⟨t, rfl, ht⟩
    · exact .inl (.inr rfl)
    · cases List.prefix_nil.mp ht
      exact .inr rfl

/-- The three calls that lead to the page table of `va`. -/
theorem pageTable_gives (h : Tables hhdm s st places)
    (hva : ∀ p, p ≠ [] → p <+: tablePath va → (r, p) ∈ places) {x : Word × Phys}
    (hx : s.pageTable hhdm (tablePtr hhdm r) va flags true = .ok x) :
    ∃ t st', x.1 = tablePtr hhdm t ∧ Tables hhdm x.2 st' places ∧
      x.2.table r (tablePath va) = some t ∧
      Gives places (wayPlaces r va) (.of (tableFlags flags)) s x.2 := by
  have h39 : (r, [slot level39 va]) ∈ places := hva _ (by simp) ⟨_, rfl⟩
  have h30 : (r, [slot level39 va, slot level30 va]) ∈ places := hva _ (by simp) ⟨_, rfl⟩
  have h21 : (r, tablePath va) ∈ places := hva _ (by simp [tablePath]) List.prefix_rfl
  unfold Phys.pageTable at hx
  obtain ⟨y, hy, hx⟩ := bind_ok.mp hx
  obtain ⟨pdpt, st₁, hptr₁, htab₁, hat₁, hg₁⟩ :=
    h.getNextLevel_gives (q := []) (i := slot level39 va) h39 rfl hy
  rw [hptr₁, deref_some, ok_bind] at hx
  obtain ⟨z, hz, hx⟩ := bind_ok.mp hx
  obtain ⟨pd, st₂, hptr₂, htab₂, hat₂, hg₂⟩ :=
    htab₁.getNextLevel_gives (i := slot level30 va) h30 hat₁ hz
  rw [hptr₂, deref_some, ok_bind] at hx
  obtain ⟨w, hw, hx⟩ := bind_ok.mp hx
  obtain ⟨pt, st₃, hptr₃, htab₃, hat₃, hg₃⟩ :=
    htab₂.getNextLevel_gives (i := slot level21 va) h21 hat₂ hw
  rw [hptr₃, deref_some, ok_bind] at hx
  cases hx
  refine ⟨pt, st₃, rfl, htab₃, hat₃, ?_⟩
  rw [← wayPlaces_eq]
  exact (hg₁.trans hg₂).trans hg₃

/-- **One page of `map`** makes the tables that are missing on its way, and changes no other entry
above the leaves. -/
theorem mapPage_gives (h : Tables hhdm s st places)
    (hva : ∀ p, p ≠ [] → p <+: tablePath (va + off) → (r, p) ∈ places)
    (hs : s.mapPage hhdm (tablePtr hhdm r) pa va flags off = .ok s') :
    Gives places (wayPlaces r (va + off)) (.of (tableFlags flags)) s s' := by
  have hway : wayPlaces r (va + off) = wayPlaces r (alignDown (va + off) pageSize) := by
    unfold wayPlaces
    rw [tablePath_alignDown]
  rw [← tablePath_alignDown] at hva
  unfold Phys.mapPage at hs
  obtain ⟨x, hx, hs⟩ := bind_ok.mp hs
  obtain ⟨t, st', hptr, htab, hat, hg⟩ := h.pageTable_gives hva hx
  rw [hptr] at hs
  cases hs
  have hp : (r, tablePath (alignDown (va + off) pageSize)) ∈ places :=
    hva _ (by simp [tablePath]) List.prefix_rfl
  rw [hway, ← Set.union_empty (wayPlaces _ _)]
  refine hg.trans ⟨fun _ hY => absurd hY (Set.notMem_empty _), ?_⟩
  intro r' q i hp' _
  -- the entry written is a leaf, and this one is not
  refine congrArg (Option.map Rights.of) ((htab.trees.leafAt_setEntry
    (i := slot level12 (alignDown (va + off) pageSize)) hp rfl hat _).2 (h.forest.closed hp')
    fun e => ?_)
  have hlen := h.depth hp'
  have hq : q = tablePath _ := (Prod.mk.inj (Prod.mk.inj e).2).1
  rw [hq, List.length_append] at hlen
  exact absurd hlen (by simp [tablePath])

/-- A new table in an empty slot of the root. -/
theorem fillEntry_gives (h : Tables hhdm s st places) (hp : (r, [i]) ∈ places)
    (hempty : ¬ Present (s.pte r i)) (hf : flags &&& paddrMask = 0) (hpres : Present flags)
    (hs : s.fillEntry hhdm (tablePtr hhdm r) flags i = .ok s') :
    Gives places {(r, [i])} (.of flags) s s' := by
  have hroot : (r, []) ∈ places := h.forest.closed (p := []) hp
  have hlt := h.root hroot
  unfold Phys.fillEntry at hs
  rcases h.stocked.newTable with ⟨-, ha⟩ | ⟨m, s₁, st', ha, hne, hnew⟩
  · rw [ha, ok_bind, if_pos rfl] at hs
    cases hs
  · rw [ha, ok_bind, if_neg hne] at hs
    cases hs
    have hlow := h.stocked.low m hnew.taken
    have hl : Linked s st r i m _ st' :=
      linked_of_newTable hnew hlow (h.forest.used hroot rfl) hlt hf hpres
    refine .of_linked (q := []) h hp rfl (if_neg hempty) hl ?_
    rw [pte_setEntry_self hlt, rights_framePa hlow]

/-- The places of the tables in the slots `l` of the root. -/
def slotPlaces (r : Nat) (l : List Nat) : Set Place :=
  {z | z.1 = r ∧ ∃ i : Fin 512, i.val ∈ l ∧ z.2 = [i]}

private theorem slotPlaces_cons {l : List Nat} (hk : k < 512) :
    slotPlaces r (k :: l) = {(r, [⟨k, hk⟩])} ∪ slotPlaces r l := by
  ext ⟨r', p⟩
  constructor
  · intro hz
    obtain ⟨rfl, i, hi, rfl⟩ := hz
    rcases List.mem_cons.mp hi with rfl | hi
    · exact .inl rfl
    · exact .inr ⟨rfl, i, hi, rfl⟩
  · intro hz
    rcases hz with hz | ⟨rfl, i, hi, rfl⟩
    · cases hz
      exact ⟨rfl, ⟨k, hk⟩, List.mem_cons_self, rfl⟩
    · exact ⟨rfl, i, List.mem_cons_of_mem _ hi, rfl⟩

/-- The loop of `process_fill_user_entires`. -/
theorem fillEntries_gives (hf : flags &&& paddrMask = 0) (hpres : Present flags) (l : List Nat) :
    ∀ {s : Phys} {st : Stock hhdm}, Tables hhdm s st places → Vacant s places r l →
      l.foldlM (Phys.fillEntry hhdm (tablePtr hhdm r) flags) s = .ok s' →
        Gives places (slotPlaces r l) (.of flags) s s' := by
  induction l with
  | nil =>
    intro s st _ _ hs
    cases hs
    rw [show slotPlaces r [] = ∅ by simp [slotPlaces]]
    exact .refl
  | cons k l ih =>
    intro s st h hv hs
    obtain ⟨hk, hp, hempty⟩ := hv.2 k List.mem_cons_self
    have hroot : (r, []) ∈ places := h.forest.closed (p := []) hp
    rw [List.foldlM_cons] at hs
    obtain ⟨s₁, hs₁, hs⟩ := bind_ok.mp hs
    obtain ⟨m, st₁, hl⟩ := (h.fillEntry (i := ⟨k, hk⟩) hp hf hpres).of_ok hs₁
    obtain ⟨h₁, -, -⟩ := h.sprout (q := []) hp rfl (if_neg hempty) hl
    rw [slotPlaces_cons hk]
    exact (h.fillEntry_gives (i := ⟨k, hk⟩) hp hempty hf hpres hs₁).trans
      (ih h₁ (hv.tail h hroot hl) hs)

end Tables

end Phys

/-! ## The history of a directory -/

namespace Vmm

/-- One page mapped: a turn of the loop of `map`. -/
structure Mapping where
  va : Word
  pa : Word
  flags : Word

/-- A call of `map`. -/
structure MapCall where
  pa : Word
  va : Word
  length : Word
  flags : Word

/-- The leaf entry of a mapping. -/
def Mapping.entry (t : Mapping) : Word := alignDown t.pa pageSize ||| t.flags

def MapCall.turn (c : MapCall) (k : Nat) : Mapping := ⟨c.va + pageOff k, c.pa + pageOff k, c.flags⟩

def MapCall.turns (c : MapCall) : List Mapping := (List.range (pages c.length)).map c.turn

def history (calls : List MapCall) : List Mapping := calls.flatMap MapCall.turns

/-- The last mapping of the page of `v`. -/
def lastMapping (H : List Mapping) (v : Word) : Option Mapping :=
  H.reverse.find? fun t => pageNumber t.va = pageNumber v

/-- The first mapping that went through the table at the end of `p`. -/
def firstThrough (H : List Mapping) (p : List (Fin 512)) : Option Mapping :=
  H.find? fun t => p <+: tablePath t.va

/-- The tables that `process_fill_user_entires` makes. -/
def UserSlot (p : List (Fin 512)) : Prop := ∃ i : Fin 512, i.val ∈ List.range 256 ∧ p = [i]

/-- The table at the end of `p` was made for user pages: ahead of all mappings, or by the first
mapping through it. -/
def MadeForUser (filled : Bool) (H : List Mapping) (p : List (Fin 512)) : Prop :=
  filled = true ∧ UserSlot p ∨ ∃ t, firstThrough H p = some t ∧ t.flags &&& user ≠ 0

variable {filled : Bool} {H : List Mapping} {t : Mapping} {c : MapCall} {calls : List MapCall}

private theorem Mapping.entry_present (h : Present t.flags) : Present t.entry := by
  intro hzero
  unfold entry at hzero
  rw [BitVec.and_or_distrib_right] at hzero
  exact h (BitVec.or_eq_zero_iff.mp hzero).2

/-- A leaf entry has the permissions that were asked for, and those in the top bit of the address. -/
theorem Mapping.rights_entry : Rights.of t.entry = ⟨(Rights.of t.flags).user,
    (Rights.of t.flags).writeable, (Rights.of t.pa).noExec || (Rights.of t.flags).noExec⟩ := by
  have hmask : ∀ b, alignDown t.pa pageSize &&& b = t.pa &&& (~~~(pageSize - 1) &&& b) :=
    fun b => BitVec.and_assoc _ _ _
  have hlow : ∀ b, ~~~(pageSize - 1) &&& b = 0 → alignDown t.pa pageSize &&& b = 0 := by
    intro b hb
    rw [hmask, hb]
    exact BitVec.and_zero
  have hnx : (Rights.of (alignDown t.pa pageSize)).noExec = (Rights.of t.pa).noExec := by
    unfold Rights.of
    rw [hmask nx, show ~~~(pageSize - 1) &&& nx = nx by decide]
  unfold entry
  rw [Rights.of_or (hlow user (by decide)) (hlow writeable (by decide)), hnx]

private theorem lastMapping_concat : lastMapping (H ++ [t]) v =
    if pageNumber t.va = pageNumber v then some t else lastMapping H v := by
  unfold lastMapping
  rw [List.reverse_concat, List.find?_cons]
  by_cases hnum : pageNumber t.va = pageNumber v
  · rw [if_pos hnum, decide_eq_true hnum]
  · rw [if_neg hnum, decide_eq_false hnum]

private theorem firstThrough_concat : firstThrough (H ++ [t]) p =
    (firstThrough H p).or (if p <+: tablePath t.va then some t else none) := by
  unfold firstThrough
  rw [List.find?_append]
  congr 1
  rw [List.find?_singleton]
  simp

/-- A page that was mapped was mapped through the tables on its way. -/
theorem firstThrough_of_lastMapping (h : lastMapping H v = some t) (hp : p <+: tablePath v) :
    ∃ t', firstThrough H p = some t' := by
  have hmem : t ∈ H := List.mem_reverse.mp (List.mem_of_find?_eq_some h)
  have hnum : pageNumber t.va = pageNumber v := by simpa using List.find?_some h
  have hpath : tablePath t.va = tablePath v := (path_eq_iff.mpr hnum).1
  unfold firstThrough
  rw [← Option.isSome_iff_exists, List.find?_isSome]
  exact ⟨t, hmem, by simpa [hpath] using hp⟩

end Vmm

namespace Phys

variable {filled : Bool} {H : List Mapping} {t : Mapping} {c : MapCall} {calls : List MapCall}

/-- The permissions of the tables that are made for user pages. -/
def userTable : Rights := .of (present ||| writeable ||| user)

/-- **The entries follow the history.** Above the leaves they are those of the first mapping through
them, unless they were filled; the leaves are those of the last mapping of their page. -/
structure Tracks (hhdm : Word) (filled : Bool) (root : Nat) (H : List Mapping) (s : Phys)
    (st : Stock hhdm) : Prop where
  tables : Tables hhdm s st (treePlaces root)
  prefilled : ∀ {q i}, filled = true → UserSlot (q ++ [i]) → s.rightsAt root q i = some userTable
  first : ∀ {q i}, (q ++ [i]).length ≤ 3 → ¬ (filled = true ∧ UserSlot (q ++ [i])) →
    s.rightsAt root q i =
      (firstThrough H (q ++ [i])).map fun t => Rights.of (Tables.tableFlags t.flags)
  last : ∀ v, s.walk root v = (lastMapping H v).map Mapping.entry

/-- The places of the tables on the way to the pages of `H`. -/
def mappingTables (root : Nat) (H : List Mapping) : Set Place :=
  {z | z.1 = root ∧ z.2 ≠ [] ∧ ∃ t ∈ H, z.2 <+: tablePath t.va}

private theorem mappingTables_subset : mappingTables root H ⊆ treePlaces root := by
  intro z hz
  obtain ⟨hr, -, t, -, hpre⟩ := hz
  exact ⟨hr, hpre.length_le⟩

private theorem mappingTables_finite : (mappingTables root H).Finite :=
  (treePlaces_finite root).subset mappingTables_subset

private theorem ncard_mappingTables_le : (mappingTables root H).ncard ≤ 3 * H.length := by
  let paths := (H.map fun t => tablePath t.va).toFinset
  have hcard : paths.card ≤ H.length := by
    refine (List.toFinset_card_le _).trans_eq ?_
    rw [List.length_map]
  refine (ncard_places_le (r := root) (T := paths) ?_ ?_).trans (Nat.mul_le_mul_left 3 hcard)
  · intro p hp
    obtain ⟨t, -, rfl⟩ := List.mem_map.mp (List.mem_toFinset.mp hp)
    exact le_rfl
  · intro z hz
    obtain ⟨hr, hne, t, ht, hpre⟩ := hz
    exact ⟨hr, hne, _, List.mem_toFinset.mpr (List.mem_map_of_mem ht), hpre⟩

namespace Tracks

/-- One turn of the loop of `map`. -/
theorem turn (h : Tracks hhdm filled root H s st) (hX : X.Finite) (hXp : X ⊆ treePlaces root)
    (hva : ∀ p, p ≠ [] → p <+: tablePath (va + off) → (root, p) ∈ X) (hpres : Present flags) :
    Outcome.Returns (st.freePages < (s.missing X).ncard)
      (s.mapPage hhdm (tablePtr hhdm root) pa va flags off) fun s' => ∃ st',
        Tracks hhdm filled root (H ++ [⟨va + off, pa + off, flags⟩]) s' st' ∧ Paid X s st s' st' := by
  refine (h.tables.mapPage hX hXp hva pa flags).with_eq.mono id fun s' hm => ?_
  obtain ⟨hs', st', hm⟩ := hm
  have hg := h.tables.mapPage_gives (fun p hne hpre => hXp (hva p hne hpre)) hs'
  refine ⟨st', ⟨hm.tables, ?_, ?_, ?_⟩, hm.paid⟩
  · intro q i hfill hslot
    have hplace : (root, q ++ [i]) ∈ treePlaces root := by
      obtain ⟨j, -, hj⟩ := hslot
      exact ⟨rfl, by simp [hj]⟩
    by_cases hway : (root, q ++ [i]) ∈ Tables.wayPlaces root (va + off)
    · rw [hg.inside hplace hway, h.prefilled hfill hslot]
      rfl
    · rw [hg.outside hplace hway, h.prefilled hfill hslot]
  · intro q i hlen hslot
    have hplace : (root, q ++ [i]) ∈ treePlaces root := ⟨rfl, hlen⟩
    rw [firstThrough_concat]
    by_cases hpre : q ++ [i] <+: tablePath (va + off)
    · rw [hg.inside hplace ⟨rfl, by simp, hpre⟩, h.first hlen hslot, if_pos hpre]
      cases firstThrough H (q ++ [i]) with
      | none => rfl
      | some t => rfl
    · rw [hg.outside hplace fun hway => hpre hway.2.2, h.first hlen hslot, if_neg hpre, Option.or_none]
  · intro v
    rw [lastMapping_concat, walk_eq]
    by_cases hnum : pageNumber (va + off) = pageNumber v
    · obtain ⟨hpath, hslot⟩ := path_eq_iff.mpr hnum
      rw [if_pos hnum, ← hpath, ← hslot, hm.here, if_pos]
      · rfl
      · exact Mapping.entry_present (t := ⟨va + off, pa + off, flags⟩) hpres
    · rw [if_neg hnum, ← h.last v, walk_eq]
      refine hm.there ⟨rfl, le_rfl⟩ rfl fun e => hnum ?_
      simp only [Prod.mk.injEq, true_and] at e
      exact (path_eq_iff.mp e).symm

/-- One call of `map`. -/
theorem call (h : Tracks hhdm filled root H s st) (hX : X.Finite) (hXp : X ⊆ treePlaces root)
    (hcX : mappingTables root c.turns ⊆ X) (hpres : Present c.flags)
    (hlen : c.length.toNat + 4095 < 2 ^ 64) :
    Outcome.Returns (st.freePages < (s.missing X).ncard)
      (s.map hhdm (tablePtr hhdm root) c.pa c.va c.length c.flags) fun s' => ∃ st',
        Tracks hhdm filled root (H ++ c.turns) s' st' ∧ Paid X s st s' st' := by
  refine eachPage_spec (I := fun k s' => ∃ st',
      Tracks hhdm filled root (H ++ (List.range k).map c.turn) s' st' ∧ Paid X s st s' st')
    hlen ?_ walkFuel 0 s (Nat.zero_le _) (pages_lt c.length) ⟨st, ?_, rfl⟩
  · intro k s' hk hI
    obtain ⟨st', h', hpaid⟩ := hI
    have hva : ∀ p, p ≠ [] → p <+: tablePath (c.va + pageOff k) → (root, p) ∈ X := by
      intro p hne hpre
      exact hcX ⟨rfl, hne, c.turn k, List.mem_map_of_mem (List.mem_range.mpr hk), hpre⟩
    refine (h'.turn hX hXp hva hpres).mono hpaid.short ?_
    intro s'' hs''
    obtain ⟨st'', h'', hpaid'⟩ := hs''
    rw [List.range_succ, List.map_append, ← List.append_assoc]
    exact ⟨st'', h'', hpaid.trans hpaid'⟩
  · rw [List.range_zero, List.map_nil, List.append_nil]
    exact h

/-- A sequence of calls. -/
theorem run (hX : X.Finite) (hXp : X ⊆ treePlaces root) : ∀ (calls : List MapCall) {H s st},
    Tracks hhdm filled root H s st → mappingTables root (history calls) ⊆ X →
      (∀ c ∈ calls, Present c.flags) → (∀ c ∈ calls, c.length.toNat + 4095 < 2 ^ 64) →
      Outcome.Returns (st.freePages < (s.missing X).ncard)
        (calls.foldlM (fun s c => s.map hhdm (tablePtr hhdm root) c.pa c.va c.length c.flags) s)
        fun s' => ∃ st', Tracks hhdm filled root (H ++ history calls) s' st' := by
  intro calls
  induction calls with
  | nil =>
    intro H s st h _ _ _
    exact .ok ⟨st, by rw [history, List.flatMap_nil, List.append_nil]; exact h⟩
  | cons c calls ih =>
    intro H s st h hcX hpres hlen
    have hhist : history (c :: calls) = c.turns ++ history calls := rfl
    rw [List.foldlM_cons]
    refine (h.call (c := c) hX hXp (fun z hz => hcX ?_) (hpres c List.mem_cons_self)
      (hlen c List.mem_cons_self)).bind fun s' hs' => ?_
    · obtain ⟨hr, hne, t, ht, hpre⟩ := hz
      exact ⟨hr, hne, t, hhist ▸ List.mem_append_left _ ht, hpre⟩
    obtain ⟨st', h', hpaid⟩ := hs'
    rw [hhist, ← List.append_assoc]
    refine (ih h' (fun z hz => hcX ?_) (fun c hc => hpres c (List.mem_cons_of_mem _ hc))
      fun c hc => hlen c (List.mem_cons_of_mem _ hc)).mono hpaid.short fun _ hx => hx
    obtain ⟨hr, hne, t, ht, hpre⟩ := hz
    exact ⟨hr, hne, t, hhist ▸ List.mem_append_right _ ht, hpre⟩

/-- An empty root table. -/
theorem start (hst : s.Stocked hhdm st) (hnew : NewTable s st m s' st') :
    Tracks hhdm false m [] s' st' := by
  have hempty : s.Tables hhdm st ∅ := ⟨hst, ⟨by simp, by simp, by simp⟩, by simp, by simp⟩
  have hplaces : (∅ : Set Place) ∪ {z | z.1 = m ∧ z.2 ∈ {p : List (Fin 512) | p.length ≤ 3}} =
      treePlaces m := Set.empty_union _
  obtain ⟨htab, -⟩ := hempty.plant hnew {p | p.length ≤ 3} (fun _ hp => hp) fun {p i} hp => by
    have hp : (p ++ [i]).length ≤ 3 := hp
    rw [List.length_append] at hp
    exact Nat.le_of_add_right_le hp
  rw [hplaces] at htab
  have hnone : ∀ q i, s'.leafAt m q i = none := by
    intro q i
    rw [← Option.not_isSome_iff_eq_none, Option.isSome_iff_exists]
    intro hsome
    obtain ⟨e, he⟩ := hsome
    obtain ⟨n, hn, hleaf⟩ := Option.bind_eq_some_iff.mp he
    obtain ⟨hpres, hpte, -⟩ := leaf_some hleaf
    rw [(Tables.table_zero (fun j => hnew.zero j j.isLt) hn).2, hnew.zero i i.isLt] at hpte
    rw [← hpte] at hpres
    exact absurd hpres (by decide)
  refine ⟨htab, fun hfill => absurd hfill (by decide), ?_, ?_⟩
  · intro q i _ _
    exact congrArg (Option.map Rights.of) (hnone q i)
  · intro v
    rw [walk_eq]
    exact hnone _ _

/-- `process_fill_user_entires` on an empty root table. -/
theorem fill (h : Tracks hhdm false m [] s st) :
    Outcome.Returns (st.freePages < 256) (s.processFillUserEntires hhdm (dirOf hhdm m)) fun s' =>
      ∃ st', Tracks hhdm true m [] s' st' ∧ st'.freePages + 256 = st.freePages := by
  have hnone : ∀ {q i}, (q ++ [i]).length ≤ 3 → s.rightsAt m q i = none := by
    intro q i hlen
    rw [h.first hlen (by simp)]
    rfl
  have hvacant : Tables.Vacant s (treePlaces m) m (List.range 256) := by
    refine ⟨List.nodup_range, ?_⟩
    intro k hk
    have hk : k < 256 := List.mem_range.mp hk
    refine ⟨by omega, ⟨rfl, by simp⟩, ?_⟩
    intro hpres
    have hlink : s.link m ⟨k, by omega⟩ = some _ := if_pos hpres
    have hr := hnone (q := []) (i := ⟨k, by omega⟩) (by simp)
    rw [rightsAt_of_table (n := m) rfl, hlink] at hr
    cases hr
  have hflags : (present ||| writeable ||| user) &&& paddrMask = 0 := by decide
  have hpres : Present (present ||| writeable ||| user) := by decide
  unfold processFillUserEntires
  refine (Tables.fillEntries hflags hpres (List.range 256) h.tables hvacant).with_eq.mono
    (fun hshort => by rwa [List.length_range] at hshort) fun s' hfill => ?_
  obtain ⟨hs', st', hfill⟩ := hfill
  have hg := Tables.fillEntries_gives hflags hpres (List.range 256) h.tables hvacant hs'
  have hcount := hfill.count
  rw [List.length_range] at hcount
  refine ⟨st', ⟨hfill.tables, ?_, ?_, ?_⟩, hcount⟩
  · intro q i _ hslot
    have hlen : (q ++ [i]).length ≤ 3 := by
      obtain ⟨j, -, hj⟩ := hslot
      simp [hj]
    rw [hg.inside ⟨rfl, hlen⟩ ⟨rfl, hslot⟩, hnone hlen]
    rfl
  · intro q i hlen hslot
    rw [hg.outside ⟨rfl, hlen⟩ fun hz => hslot ⟨rfl, hz.2⟩, hnone hlen]
    rfl
  · intro v
    rw [← h.last v, walk_eq, walk_eq]
    exact hfill.leaf ⟨rfl, le_rfl⟩ rfl _

/-- An entry on the way to a page that is mapped: it is there and lets writes through, and it lets
user code through exactly if its table was made for it. -/
theorem way (h : Tracks hhdm filled root H s st) (ht : lastMapping H v = some t)
    (hp : q ++ [i] <+: tablePath v) : ∃ b, s.rightsAt root q i = some ⟨b, true, false⟩ ∧
      (b = true ↔ MadeForUser filled H (q ++ [i])) := by
  have hlen : (q ++ [i]).length ≤ 3 := hp.length_le
  by_cases hslot : filled = true ∧ UserSlot (q ++ [i])
  · refine ⟨true, ?_, iff_of_true rfl (.inl hslot)⟩
    rw [h.prefilled hslot.1 hslot.2]
    rfl
  · obtain ⟨t', ht'⟩ := firstThrough_of_lastMapping ht hp
    have hrights : Rights.of (Tables.tableFlags t'.flags) =
        ⟨decide (t'.flags &&& user ≠ 0), true, false⟩ := by
      unfold Tables.tableFlags
      by_cases hu : t'.flags &&& user ≠ 0
      · rw [if_pos hu, decide_eq_true hu]
        rfl
      · rw [if_neg hu, decide_eq_false hu]
        rfl
    refine ⟨decide (t'.flags &&& user ≠ 0), ?_, ?_⟩
    · rw [h.first hlen hslot, ht', Option.map_some, hrights]
    · rw [decide_eq_true_iff]
      constructor
      · intro hu
        exact .inr ⟨t', ht', hu⟩
      · intro hmade
        obtain ⟨t'', ht'', hu⟩ := hmade.resolve_left hslot
        cases ht'.symm.trans ht''
        exact hu

/-- The permissions of a page that is mapped. -/
theorem effective (h : Tracks hhdm filled root H s st) (ht : lastMapping H v = some t) : ∃ b,
    s.effective root v = some ⟨b && (Rights.of t.flags).user, (Rights.of t.flags).writeable,
      (Rights.of t.pa).noExec || (Rights.of t.flags).noExec⟩ ∧
    (b = true ↔ ∀ p, p ≠ [] → p <+: tablePath v → MadeForUser filled H p) := by
  obtain ⟨b₁, h₁, hiff₁⟩ := h.way (q := []) (i := slot level39 v) ht ⟨_, rfl⟩
  obtain ⟨b₂, h₂, hiff₂⟩ := h.way (q := [slot level39 v]) (i := slot level30 v) ht ⟨_, rfl⟩
  obtain ⟨b₃, h₃, hiff₃⟩ := h.way (q := [slot level39 v, slot level30 v]) (i := slot level21 v) ht
    List.prefix_rfl
  have h₄ : s.rightsAt root (tablePath v) (slot level12 v) = some (Rights.of t.entry) := by
    unfold rightsAt
    rw [← walk_eq, h.last v, ht]
    rfl
  refine ⟨b₁ && b₂ && b₃, ?_, ?_⟩
  · rw [effective_of_rightsAt h₁ h₂ h₃ h₄, Mapping.rights_entry]
    rfl
  · rw [Bool.and_eq_true, Bool.and_eq_true, hiff₁, hiff₂, hiff₃]
    constructor
    · intro hall p hne hpre
      have hmem : (root, p) ∈ Tables.wayPlaces root v := ⟨rfl, hne, hpre⟩
      rw [← Tables.wayPlaces_eq] at hmem
      rcases hmem with (hz | hz) | hz
      · cases hz
        exact hall.1.1
      · cases hz
        exact hall.1.2
      · cases hz
        exact hall.2
    · intro hall
      refine ⟨⟨hall _ (by simp) ⟨_, rfl⟩, hall _ (by simp) ⟨_, rfl⟩⟩, ?_⟩
      exact hall _ (by simp) List.prefix_rfl

end Tracks

/-! ## From `new_pagemap` on -/

/-- `process_fill_user_entires`, or not. -/
def fillUser (hhdm : Word) (filled : Bool) (d : PageDirectory) (s : Phys) : Outcome Phys :=
  if filled then s.processFillUserEntires hhdm d else .ok s

/-- A new directory, filled for a user process or not, and a sequence of calls of `map` on it. -/
def newMapped (hhdm : Word) (filled : Bool) (calls : List MapCall) (s : Phys) :
    Outcome (PageDirectory × Phys) := do
  let r ← s.newPagemap hhdm
  let s ← r.2.fillUser hhdm filled r.1
  let s ← calls.foldlM (fun s c => s.map hhdm r.1.pml4 c.pa c.va c.length c.flags) s
  return (r.1, s)

/-- The pages that are needed at most. -/
def mappedNeed (filled : Bool) (calls : List MapCall) : Nat :=
  1 + (if filled then 256 else 0) + 3 * (history calls).length

private theorem newMapped_tracks (hst : s.Stocked hhdm st) (filled : Bool) (calls : List MapCall)
    (hpres : ∀ c ∈ calls, Present c.flags) (hlen : ∀ c ∈ calls, c.length.toNat + 4095 < 2 ^ 64) :
    Outcome.Returns (st.freePages < mappedNeed filled calls) (s.newMapped hhdm filled calls) fun x =>
      ∃ st', Tracks hhdm filled x.1.root (history calls) x.2 st' := by
  unfold newMapped mappedNeed
  refine ((Coherent.newPagemap hst).mono (fun hz => by omega) fun _ hx => hx).bind fun x hx => ?_
  obtain ⟨m, st₁, hdir, hnew⟩ := hx
  have hcount := hnew.count
  have hroot : x.1.root = m := by
    rw [hdir]
    exact dirOf_root (Nat.lt_trans (hst.low _ hnew.taken) (by decide))
  have hfill : Outcome.Returns (st₁.freePages < if filled then 256 else 0)
      (x.2.fillUser hhdm filled x.1) fun s' => ∃ st₂, Tracks hhdm filled m [] s' st₂ ∧
        st₂.freePages + (if filled then 256 else 0) = st₁.freePages := by
    have h := Tracks.start hst hnew
    cases filled with
    | false => exact .ok ⟨st₁, h, rfl⟩
    | true =>
      rw [hdir]
      exact h.fill
  refine (hfill.mono (fun hs => by omega) fun _ hx => hx).bind fun s₂ hs₂ => ?_
  obtain ⟨st₂, h₂, hcount₂⟩ := hs₂
  have hmaps := Tracks.run mappingTables_finite mappingTables_subset calls h₂ Set.Subset.rfl hpres hlen
  have hcard : (s₂.missing (mappingTables m (history calls))).ncard ≤ 3 * (history calls).length :=
    (Set.ncard_le_ncard (fun _ hz => hz.1) mappingTables_finite).trans ncard_mappingTables_le
  rw [hdir]
  refine (hmaps.mono (fun hs => by omega) fun _ hx => hx).bind fun s₃ hs₃ => ?_
  obtain ⟨st₃, h₃⟩ := hs₃
  refine .ok ⟨st₃, ?_⟩
  rw [← hdir, hroot]
  exact h₃

/-- Calls that all returned had ranges that end below `2 ^ 64`. -/
theorem maps_length {pml4 : Word} : ∀ (calls : List MapCall) (s : Phys),
    calls.foldlM (fun s c => s.map hhdm pml4 c.pa c.va c.length c.flags) s = .ok s' →
      ∀ c ∈ calls, c.length.toNat + 4095 < 2 ^ 64 := by
  intro calls
  induction calls with
  | nil =>
    intro s _ c hc
    cases hc
  | cons c calls ih =>
    intro s hs c' hc'
    rw [List.foldlM_cons] at hs
    obtain ⟨s₁, hs₁, hs⟩ := bind_ok.mp hs
    rcases List.mem_cons.mp hc' with rfl | hc'
    · exact eachPage_length walkFuel 0 s hs₁
    · exact ih s₁ hs c' hc'

/-- **When a page has the permissions it was mapped with.** A new directory and any calls of `map`
with `PRESENT` on it: for a page that was last mapped with some flags, the permissions the processor
finds are those of the flags, exactly if

* they do not have `USER`, or each of the three tables on the way was made for user pages, by
  `process_fill_user_entires` or by the first mapping through it; and
* the top bit of the physical address is clear, or the flags have `NX` themselves.

The calls return if there are pages enough and no range ends within a page of `2 ^ 64`. -/
theorem permissions_iff (hst : s.Stocked hhdm st) (filled : Bool) (calls : List MapCall)
    (hpres : ∀ c ∈ calls, Present c.flags) :
    ((∀ c ∈ calls, c.length.toNat + 4095 < 2 ^ 64) → mappedNeed filled calls ≤ st.freePages →
      ∃ d s', s.newMapped hhdm filled calls = .ok (d, s')) ∧
    ∀ d s', s.newMapped hhdm filled calls = .ok (d, s') →
      ∀ v t, lastMapping (history calls) v = some t →
        (s'.effective d.root v = some (Rights.of t.flags) ↔
          (t.flags &&& user ≠ 0 → ∀ p, p ≠ [] → p <+: tablePath v →
            MadeForUser filled (history calls) p) ∧
          (t.pa &&& nx ≠ 0 → t.flags &&& nx ≠ 0)) := by
  constructor
  · intro hlen hneed
    obtain ⟨x, hx, -⟩ := (newMapped_tracks hst filled calls hpres hlen).exists_ok (by omega)
    exact ⟨x.1, x.2, hx⟩
  · intro d s' hs v t ht
    have hlen : ∀ c ∈ calls, c.length.toNat + 4095 < 2 ^ 64 := by
      obtain ⟨x, -, hmaps⟩ := bind_ok.mp hs
      obtain ⟨s₁, -, hmaps⟩ := bind_ok.mp hmaps
      obtain ⟨s₂, hmaps, -⟩ := bind_ok.mp hmaps
      exact maps_length calls s₁ hmaps
    obtain ⟨st', h⟩ := (newMapped_tracks hst filled calls hpres hlen).of_ok hs
    obtain ⟨b, heff, hiff⟩ := h.effective ht
    rw [heff, ← hiff, Option.some_inj, Rights.narrowed_eq_iff]
    simp only [Rights.of, decide_eq_true_eq]

/-- Two pages for a user process, and the second of them again, to be read only. -/
def forUser : List MapCall :=
  [⟨0x100000, 0x400000, 0x2000, present ||| writeable ||| user⟩,
    ⟨0x101000, 0x401000, 0x1000, present ||| user ||| nx⟩]

theorem permissions_iff_forUser : ∃ d s',
    (initPmm hhdm₀ Spaces.oneRegion fun _ => 0).newMapped hhdm₀ true
      forUser = .ok (d, s') ∧
    s'.effective d.root 0x401abc = some (Rights.of (present ||| user ||| nx)) := by
  have hfree : (Arena.init Spaces.oneRegion_ok).stock.freePages = 1000 := by decide
  have hneed : mappedNeed true forUser ≤ 1000 := by decide
  obtain ⟨hreturns, hrights⟩ := permissions_iff (Spaces.oneRegion_stocked fun _ => 0) true forUser
    (by decide)
  obtain ⟨d, s', hs⟩ := hreturns (by decide) (hfree ▸ hneed)
  have hlast : lastMapping (history forUser) 0x401abc = some (forUser[1].turn 0) := by rfl
  refine ⟨d, s', hs, (hrights d s' hs 0x401abc _ hlast).mpr ⟨fun _ p _ hpre => ?_, by decide⟩⟩
  -- the first of the mappings goes through the same tables
  have hpath : tablePath (forUser[0].turn 0).va = tablePath 0x401abc := by decide
  exact .inr ⟨forUser[0].turn 0, List.find?_cons_of_pos (decide_eq_true (hpath ▸ hpre)), by decide⟩

/-- Two pages side by side, the first for the kernel only. -/
def sideBySide : List MapCall :=
  [⟨0x100000, 0x400000, 0x1000, present ||| writeable⟩,
    ⟨0x101000, 0x401000, 0x1000, present ||| writeable ||| user⟩]

/-- **A user page that user code cannot reach.** The second page was mapped with `USER`. Its page
table was made for the first, without, whether the directory was filled or not. -/
theorem permissions_userLost :
    (lastMapping (history sideBySide) 0x401000).map Mapping.flags =
      some (present ||| writeable ||| user) ∧
    ∀ filled, ∃ d s', (initPmm hhdm₀ Spaces.oneRegion fun _ => 0).newMapped
      hhdm₀ filled sideBySide = .ok (d, s') ∧
        s'.effective d.root 0x401000 = some ⟨false, true, false⟩ := by
  refine ⟨by decide, fun filled => ?_⟩
  have hfree : (Arena.init Spaces.oneRegion_ok).stock.freePages = 1000 := by decide
  have hneed : mappedNeed filled sideBySide ≤ 1000 := by cases filled <;> decide
  obtain ⟨x, hx, st, h⟩ := (newMapped_tracks (Spaces.oneRegion_stocked fun _ => 0) filled sideBySide
    (by decide) (by decide)).exists_ok (by omega)
  have hlast : lastMapping (history sideBySide) 0x401000 = some (sideBySide[1].turn 0) := by rfl
  have hfirst : firstThrough (history sideBySide) (tablePath 0x401000) =
      some (sideBySide[0].turn 0) := by rfl
  obtain ⟨b, heff, hiff⟩ := h.effective hlast
  have hb : b = false := by
    rw [← Bool.not_eq_true, hiff]
    intro hmade
    rcases hmade (tablePath 0x401000) (by decide) List.prefix_rfl with ⟨-, i, -, hi⟩ | ⟨t, ht, hu⟩
    · cases hi
    · cases hfirst.symm.trans ht
      exact hu (by decide)
  refine ⟨x.1, x.2, hx, ?_⟩
  rw [heff, hb]
  decide

end Phys

end TwoKernel
