import TwoKernel.Laws.Memory.Tables

/-!
# Freeing a tree of tables

`free_table` walks a tree in post-order and hands every page it finds back to
the allocator, leaf pages included, each table after the tables below it. It
goes through the first half of every table only.

`freed` lists those pages as the memory before the call names them. When no page
is listed twice and none is free, the call reads what the list was computed
from (`freed_congr`: a page is overwritten only once nothing below it is left to
read), so what it frees is the list.

A `Till` is what the allocator keeps: its counter and its free list. Pages are
given back to it one at a time, and it takes none once the counter is at zero
(`giveBack`); so what `free_table` leaves is a fold over the list
(`FreesInOrder`).
-/

namespace TwoKernel

open ByteMem Vmm Trie

variable {hhdm : Word} {s s' s'' : Phys} {st st' : Stock hhdm} {f g n : Nat}

namespace Phys

/-- The pages of `levels` levels below a table, in the order `free_table` frees them. -/
def freed (s : Phys) : Nat → Nat → List Nat
  | 0, _ => []
  | levels + 1, f => (List.range 256).flatMap fun i =>
    if Present (s.pte f i) then s.freed levels (frameOf (s.pte f i)) ++ [frameOf (s.pte f i)] else []

/-- What entry `i` of a table contributes. -/
def freedAt (s : Phys) (levels f i : Nat) : List Nat :=
  if Present (s.pte f i) then s.freed levels (frameOf (s.pte f i)) ++ [frameOf (s.pte f i)] else []

theorem freed_succ (levels : Nat) :
    s.freed (levels + 1) f = (List.range 256).flatMap (s.freedAt levels f) := rfl

private theorem child_subset_freedAt {levels i : Nat} (hp : Present (s.pte f i)) :
    frameOf (s.pte f i) :: s.freed levels (frameOf (s.pte f i)) ⊆ s.freedAt levels f i := by
  intro x hx
  unfold freedAt
  rw [if_pos hp]
  rcases List.mem_cons.mp hx with hx | hx
  · exact List.mem_append_right _ (List.mem_singleton.mpr hx)
  · exact List.mem_append_left _ hx

/-- The bytes of a list of pages. -/
def listBytes (l : List Nat) : Set Nat := pageBytes {g | g ∈ l}

/-- The list is read from the tables in it. -/
theorem freed_congr (levels : Nat) : ∀ f, Set.EqOn s'.mem s.mem (listBytes (f :: s.freed levels f)) →
    s'.freed levels f = s.freed levels f := by
  induction levels with
  | zero =>
    intro f _
    rfl
  | succ levels ih =>
    intro f h
    rw [freed_succ, freed_succ]
    apply List.flatMap_congr
    intro i hi
    have hi512 : i < 512 := Nat.lt_trans (List.mem_range.mp hi) (by decide)
    have hpte : s'.pte f i = s.pte f i := by
      apply pte_congr (h.mono _) hi512
      intro x hx
      exact List.mem_cons.mpr (.inl hx)
    unfold freedAt
    rw [hpte]
    by_cases hp : Present (s.pte f i)
    · rw [if_pos hp, if_pos hp]
      congr 1
      apply ih
      apply h.mono
      intro x hx
      apply List.mem_cons_of_mem
      rw [freed_succ]
      exact List.mem_flatMap.mpr ⟨i, hi, child_subset_freedAt hp hx⟩
    · rw [if_neg hp, if_neg hp]

/-- A page that can be handed back: not page zero, reached without wrapping, and named by an
entry. -/
structure FrameOk (hhdm : Word) (f : Nat) : Prop where
  pos : 0 < f
  low : f < 2 ^ 36
  reached : hhdm.toNat + 4096 * f + 4096 ≤ 2 ^ 64

/-- Every free page can be handed back once it is taken. -/
theorem Stocked.frameOk (h : s.Stocked hhdm st) (hf : f ∈ st.pool) : FrameOk hhdm f := by
  refine ⟨?_, h.low f hf, ?_⟩
  · obtain ⟨b, hb, hlo, -⟩ := hf
    exact Nat.lt_of_lt_of_le (st.ok b hb).nonzero hlo
  · obtain ⟨b, hb, hlo, hhi⟩ := hf
    have hr := (st.ok b hb).reached
    have ha := (st.ok b hb).aligned
    have hmul : 4096 * (f + 1) ≤ 4096 * (b.start + max b.numPages.toNat 1) :=
      Nat.mul_le_mul_left _ hhi
    omega

theorem FrameOk.pa_toNat (h : FrameOk hhdm f) : (framePa f).toNat = 4096 * f :=
  framePa_toNat (Nat.lt_trans h.low (by decide))

theorem FrameOk.start (h : FrameOk hhdm f) : (Block.mk (framePa f) 1).start = f := by
  unfold Block.start
  rw [h.pa_toNat]
  omega

theorem FrameOk.foot (h : FrameOk hhdm f) : (Block.mk (framePa f) 1).foot = {f} := by
  ext p
  unfold Block.foot
  rw [h.start, Set.mem_Ico, Set.mem_singleton_iff]
  show f ≤ p ∧ p < f + max 1 1 ↔ p = f
  omega

theorem FrameOk.block (h : FrameOk hhdm f) : (Block.mk (framePa f) 1).Ok hhdm := by
  refine ⟨?_, ?_, ?_⟩
  · rw [h.start]
    exact h.pa_toNat
  · rw [h.start]
    exact h.pos
  · have hr := h.reached
    have hmax : max (1 : Word).toNat 1 = 1 := rfl
    dsimp only
    rw [h.pa_toNat, hmax]
    omega

/-! ## Giving pages back -/

/-- The counter of the allocator and its free list. -/
structure Till where
  count : Word
  blocks : List Block

/-- `Pmm::free` of one page. -/
def Till.giveBack (t : Till) (f : Nat) : Till :=
  if t.count = 0 then t else ⟨t.count - 1, ⟨framePa f, 1⟩ :: t.blocks⟩

/-- What the allocator keeps in a state whose free list is `st`. -/
def till (s : Phys) (st : Stock hhdm) : Till := ⟨s.gRefAlloc, st.blocks⟩

theorem Till.mem_giveBack {b : Block} (l : List Nat) : ∀ t : Till,
    b ∈ (l.foldl giveBack t).blocks → b ∈ t.blocks ∨ ∃ f ∈ l, b = ⟨framePa f, 1⟩ := by
  induction l with
  | nil =>
    intro t hb
    exact .inl hb
  | cons f l ih =>
    intro t hb
    rcases ih (t.giveBack f) hb with hb | ⟨g, hg, hb⟩
    · unfold giveBack at hb
      split at hb
      · exact .inl hb
      · rcases List.mem_cons.mp hb with hb | hb
        · exact .inr ⟨f, List.mem_cons_self, hb⟩
        · exact .inl hb
    · exact .inr ⟨g, List.mem_cons_of_mem _ hg, hb⟩

/-- The pages that are free after some were given back. -/
theorem pool_of_giveBack {l : List Nat} (h : s'.till st' = l.foldl Till.giveBack (s.till st))
    (hok : ∀ f ∈ l, FrameOk hhdm f) : st'.pool ⊆ st.pool ∪ {g | g ∈ l} := by
  intro g hg
  obtain ⟨b, hb, hgb⟩ := hg
  have hblocks : st'.blocks = (l.foldl Till.giveBack (s.till st)).blocks := congrArg Till.blocks h
  rw [hblocks] at hb
  rcases Till.mem_giveBack l _ hb with hb | ⟨f, hf, rfl⟩
  · exact .inl ⟨b, hb, hgb⟩
  · rw [(hok f hf).foot] at hgb
    rw [Set.mem_singleton_iff.mp hgb]
    exact .inr hf

/-- `Pmm::free` of one page. -/
theorem Stocked.free (h : s.Stocked hhdm st) (hf : FrameOk hhdm f) (hn : f ∉ st.pool) :
    ∃ st', (s.free hhdm (framePa f) 1).Stocked hhdm st' ∧
      (s.free hhdm (framePa f) 1).till st' = (s.till st).giveBack f ∧
      Set.EqOn (s.free hhdm (framePa f) 1).mem s.mem (pageBytes {f})ᶜ := by
  by_cases hz : s.gRefAlloc = 0
  · have hsame : s.free hhdm (framePa f) 1 = s := if_pos hz
    rw [hsame]
    exact ⟨st, h, (if_pos hz).symm, fun _ _ => rfl⟩
  · have hb := hf.block
    have hd : Disjoint (Block.mk (framePa f) 1).foot st.pool := by
      rw [hf.foot, Set.disjoint_singleton_left]
      exact hn
    obtain ⟨hholds, hcount⟩ := free_spec hb hd hz h.holds
    have hmem := free_eqOn (s := s) hb
    rw [hf.start] at hmem
    have htill : (s.free hhdm (framePa f) 1).till (st.push _ hb hd) = (s.till st).giveBack f := by
      unfold Till.giveBack
      rw [if_neg (show (s.till st).count ≠ 0 from hz)]
      unfold till
      rw [hcount]
      rfl
    refine ⟨st.push _ hb hd, ⟨hholds, ?_⟩, htill, hmem⟩
    intro p hp
    have hpool := pool_of_giveBack (l := [f]) htill fun g hg => List.mem_singleton.mp hg ▸ hf
    rcases hpool hp with hp | hp
    · exact h.low p hp
    · rw [List.mem_singleton.mp hp]
      exact hf.low

/-- A page list that can be freed while `st` is free. -/
structure Freeable (hhdm : Word) (st : Stock hhdm) (l : List Nat) : Prop where
  nodup : l.Nodup
  apart : ∀ f ∈ l, f ∉ st.pool
  ok : ∀ f ∈ l, FrameOk hhdm f

private theorem Freeable.sublist {l l' : List Nat} (h : Freeable hhdm st l) (hs : l'.Sublist l) :
    Freeable hhdm st l' :=
  ⟨hs.nodup h.nodup, fun f hf => h.apart f (hs.subset hf), fun f hf => h.ok f (hs.subset hf)⟩

/-- `below` gives the pages listed in `levels` levels below a table back in their order, and writes only
there and in the table. -/
def FreesInOrder (hhdm : Word) (levels : Nat) (below : Word → Phys → Phys) : Prop :=
  ∀ (s : Phys) (st : Stock hhdm) (f : Nat), s.Stocked hhdm st →
    Freeable hhdm st (f :: s.freed levels f) →
    ∃ st', (below (tablePtr hhdm f) s).Stocked hhdm st' ∧
      (below (tablePtr hhdm f) s).till st' = (s.freed levels f).foldl Till.giveBack (s.till st) ∧
      Set.EqOn (below (tablePtr hhdm f) s).mem s.mem (listBytes (f :: s.freed levels f))ᶜ

private theorem freesInOrder_zero : FreesInOrder hhdm 0 fun _ s => s := by
  intro s st f h _
  exact ⟨st, h, rfl, fun _ _ => rfl⟩

section step

variable {levels i : Nat} {below : Word → Phys → Phys}

/-- One turn of the loop. -/
theorem freeEntry_spec (hb : FreesInOrder hhdm levels below) (hi : i < 512) (h : s.Stocked hhdm st)
    (hl : Freeable hhdm st (f :: s.freedAt levels f i)) :
    ∃ st', (s.freeEntry hhdm below (tablePtr hhdm f) i).Stocked hhdm st' ∧
      (s.freeEntry hhdm below (tablePtr hhdm f) i).till st' =
        (s.freedAt levels f i).foldl Till.giveBack (s.till st) ∧
      Set.EqOn (s.freeEntry hhdm below (tablePtr hhdm f) i).mem s.mem
        (listBytes (f :: s.freedAt levels f i))ᶜ ∧
      ∀ j, j < 512 → j ≠ i →
        (s.freeEntry hhdm below (tablePtr hhdm f) i).pte f j = s.pte f j := by
  have hf52 : f < 2 ^ 52 := Nat.lt_trans (hl.ok f List.mem_cons_self).low (by decide)
  unfold freeEntry
  rw [entry_tablePtr hf52]
  by_cases hp : Present (s.pte f i)
  · -- the page the entry names, and what is below it
    let c := frameOf (s.pte f i)
    have hat : s.freedAt levels f i = s.freed levels c ++ [c] := if_pos hp
    rw [if_pos hp]
    rw [hat] at hl ⊢
    have hperm : (s.freed levels c ++ [c]).Perm (c :: s.freed levels c) :=
      List.perm_append_singleton _ _
    have hnd := List.nodup_cons.mp hl.nodup
    have hsub : ∀ g, g ∈ c :: s.freed levels c → g ∈ f :: (s.freed levels c ++ [c]) :=
      fun g hg => List.mem_cons_of_mem _ (hperm.mem_iff.mpr hg)
    have hlc : Freeable hhdm st (c :: s.freed levels c) :=
      ⟨hperm.nodup_iff.mp hnd.2, fun g hg => hl.apart g (hsub g hg), fun g hg => hl.ok g (hsub g hg)⟩
    have hfc : f ∉ c :: s.freed levels c := fun hm => hnd.1 (hperm.mem_iff.mpr hm)
    have hpa : s.pte f i &&& paddrMask = framePa c := (framePa_frameOf _).symm
    rw [hpa]
    -- the levels below, then the page itself, then the entry
    obtain ⟨st₁, h₁, htill₁, hmem₁⟩ := hb s st c h hlc
    have hpool₁ := pool_of_giveBack htill₁ fun g hg => hlc.ok g (List.mem_cons_of_mem _ hg)
    have hc₁ : c ∉ st₁.pool := by
      intro hm
      rcases hpool₁ hm with hm | hm
      · exact hlc.apart c List.mem_cons_self hm
      · exact (List.nodup_cons.mp hlc.nodup).1 hm
    obtain ⟨st₂, h₂, htill₂, hmem₂⟩ := h₁.free (hlc.ok c List.mem_cons_self) hc₁
    have htill : ((below (tablePtr hhdm c) s).free hhdm (framePa c) 1).till st₂ =
        (s.freed levels c ++ [c]).foldl Till.giveBack (s.till st) := by
      rw [List.foldl_append, ← htill₁]
      exact htill₂
    have hf₂ : f ∉ st₂.pool := by
      intro hm
      rcases pool_of_giveBack htill (fun g hg => hl.ok g (List.mem_cons_of_mem _ hg)) hm with hm | hm
      · exact hl.apart f List.mem_cons_self hm
      · exact hnd.1 hm
    have hmem₁₂ : Set.EqOn ((below (tablePtr hhdm c) s).free hhdm (framePa c) 1).mem s.mem
        (listBytes (c :: s.freed levels c))ᶜ := by
      refine (hmem₂.mono ?_).trans hmem₁
      intro x hx hxc
      exact hx (List.mem_cons.mpr (.inl hxc))
    refine ⟨st₂, ?_, htill, ?_, ?_⟩
    · refine h₂.frame rfl ((setEntry_eqOn hf52 hi).mono ?_)
      rintro x hx rfl
      exact hf₂ hx
    · refine ((setEntry_eqOn hf52 hi).mono ?_).trans (hmem₁₂.mono ?_)
      · exact fun x hx hxf => hx (List.mem_cons.mpr (.inl hxf))
      · exact fun x hx hxc => hx (hsub _ hxc)
    · intro j hj hji
      refine (pte_setEntry_of_ne hf52 hi hj fun _ => hji).trans (pte_congr (hmem₁₂.mono ?_) hj)
      intro x hx hxc
      have hx : x / 4096 = f := hx
      exact hfc (hx ▸ hxc)
  · have hat : s.freedAt levels f i = [] := if_neg hp
    rw [if_neg hp, hat]
    exact ⟨st, h, rfl, fun _ _ => rfl, fun _ _ _ => rfl⟩

/-- What is still to be freed is not touched by a turn of the loop. -/
theorem freedAt_congr {j : Nat} (hpte : s'.pte f j = s.pte f j)
    (hmem : Set.EqOn s'.mem s.mem (listBytes (s.freedAt levels f j))) :
    s'.freedAt levels f j = s.freedAt levels f j := by
  unfold freedAt
  rw [hpte]
  by_cases hp : Present (s.pte f j)
  · rw [if_pos hp, if_pos hp]
    congr 1
    apply freed_congr
    apply hmem.mono
    intro x hx
    exact child_subset_freedAt hp hx
  · rw [if_neg hp, if_neg hp]

/-- The loop over the entries in `l`. -/
theorem freeEntries_spec (hb : FreesInOrder hhdm levels below) (l : List Nat) :
    ∀ (s : Phys) (st : Stock hhdm), l.Nodup → (∀ i ∈ l, i < 512) → s.Stocked hhdm st →
    Freeable hhdm st (f :: l.flatMap (s.freedAt levels f)) →
    ∃ st', (l.foldl (freeEntry hhdm below (tablePtr hhdm f)) s).Stocked hhdm st' ∧
      (l.foldl (freeEntry hhdm below (tablePtr hhdm f)) s).till st' =
        (l.flatMap (s.freedAt levels f)).foldl Till.giveBack (s.till st) ∧
      Set.EqOn (l.foldl (freeEntry hhdm below (tablePtr hhdm f)) s).mem s.mem
        (listBytes (f :: l.flatMap (s.freedAt levels f)))ᶜ := by
  induction l with
  | nil =>
    intro s st _ _ h _
    exact ⟨st, h, rfl, fun _ _ => rfl⟩
  | cons i l ih =>
    intro s st hnd hlt h hl
    rw [List.flatMap_cons] at hl ⊢
    obtain ⟨hf, hnd'⟩ := List.nodup_cons.mp hl.nodup
    have hdisj := (List.nodup_append.mp hnd').2.2
    obtain ⟨st₁, h₁, htill₁, hmem₁, hpte₁⟩ := freeEntry_spec hb (hlt i List.mem_cons_self) h
      (hl.sublist ((List.sublist_append_left _ _).cons_cons f))
    have hpool₁ := pool_of_giveBack htill₁ fun g hg =>
      hl.ok g (List.mem_cons_of_mem _ (List.mem_append_left _ hg))
    have hl' : Freeable hhdm st (f :: l.flatMap (s.freedAt levels f)) :=
      hl.sublist ((List.sublist_append_right _ _).cons_cons f)
    -- the rest of the list is read from pages this turn did not write
    have hrest : l.flatMap ((s.freeEntry hhdm below (tablePtr hhdm f) i).freedAt levels f) =
        l.flatMap (s.freedAt levels f) := by
      apply List.flatMap_congr
      intro j hj
      have hji : j ≠ i := by
        rintro rfl
        exact (List.nodup_cons.mp hnd).1 hj
      refine freedAt_congr (hpte₁ j (hlt j (List.mem_cons_of_mem _ hj)) hji) (hmem₁.mono ?_)
      intro x hx hxi
      have hxB : x / 4096 ∈ l.flatMap (s.freedAt levels f) := List.mem_flatMap.mpr ⟨j, hj, hx⟩
      rcases List.mem_cons.mp hxi with hxf | hxA
      · exact hf (List.mem_append_right _ (hxf ▸ hxB))
      · exact hdisj _ hxA _ hxB rfl
    have hl₁ : Freeable hhdm st₁ (f :: l.flatMap (s.freedAt levels f)) := by
      refine ⟨hl'.nodup, ?_, hl'.ok⟩
      intro g hg hgp
      rcases hpool₁ hgp with hgp | hgA
      · exact hl'.apart g hg hgp
      · rcases List.mem_cons.mp hg with rfl | hgB
        · exact hf (List.mem_append_left _ hgA)
        · exact hdisj g hgA g hgB rfl
    obtain ⟨st₂, h₂, htill₂, hmem₂⟩ := ih (s.freeEntry hhdm below (tablePtr hhdm f) i) st₁
      (List.nodup_cons.mp hnd).2 (fun j hj => hlt j (List.mem_cons_of_mem _ hj)) h₁
      (by rw [hrest]; exact hl₁)
    rw [hrest] at htill₂ hmem₂
    refine ⟨st₂, h₂, ?_, ?_⟩
    · rw [List.foldl_append, ← htill₁]
      exact htill₂
    · refine (hmem₂.mono ?_).trans (hmem₁.mono ?_)
      · intro x hx hxl
        exact hx (((List.sublist_append_right _ _).cons_cons f).subset hxl)
      · intro x hx hxl
        exact hx (((List.sublist_append_left _ _).cons_cons f).subset hxl)

private theorem freesInOrder_succ (hb : FreesInOrder hhdm levels below) : FreesInOrder hhdm (levels + 1)
    fun table s => (List.range 256).foldl (freeEntry hhdm below table) s := by
  intro s st f h hl
  apply freeEntries_spec hb _ s st List.nodup_range _ h hl
  intro i hi
  exact Nat.lt_trans (List.mem_range.mp hi) (by decide)

/-- **`free_table` gives the listed pages back, in order.** -/
theorem freeLevels_inOrder (below : Nat) :
    FreesInOrder hhdm (below + 1) (freeLevels hhdm below) := by
  induction below with
  | zero => exact freesInOrder_succ freesInOrder_zero
  | succ below ih => exact freesInOrder_succ ih

end step

/-! ## Pages at the ends of paths -/

/-- The paths through the first halves of `levels` levels of tables. -/
def LowPath (levels : Nat) (p : List (Fin 512)) : Prop := p.length ≤ levels ∧ ∀ i ∈ p, i.val < 256

theorem LowPath.cons {levels : Nat} {p : List (Fin 512)} {i : Fin 512} (h : LowPath levels p)
    (hi : i.val < 256) : LowPath (levels + 1) (i :: p) := by
  refine ⟨Nat.succ_le_succ h.1, ?_⟩
  intro k hk
  rcases List.mem_cons.mp hk with rfl | hk
  · exact hi
  · exact h.2 k hk

theorem lowPath_nil (levels : Nat) : LowPath levels [] := ⟨Nat.zero_le _, by simp⟩

private theorem table_cons {i : Fin 512} {c : Nat} {p : List (Fin 512)} (h : s.link f i = some c) :
    s.table f (i :: p) = s.table c p := by
  show (s.link f i).bind _ = _
  rw [h]
  rfl

/-- What an entry contributes is at the end of a path that begins with it. -/
theorem mem_freedAt {levels : Nat} (i : Fin 512)
    (hbelow : ∀ f, g ∈ s.freed levels f → ∃ p, LowPath levels p ∧ s.table f p = some g)
    (hg : g ∈ s.freedAt levels f i) : ∃ p, LowPath levels p ∧ s.table f (i :: p) = some g := by
  unfold freedAt at hg
  by_cases hp : Present (s.pte f i)
  · rw [if_pos hp] at hg
    have hlink : s.link f i = some (frameOf (s.pte f i)) := if_pos hp
    rcases List.mem_append.mp hg with hg | hg
    · obtain ⟨p, hlow, hat⟩ := hbelow _ hg
      exact ⟨p, hlow, by rw [table_cons hlink]; exact hat⟩
    · rw [List.mem_singleton.mp hg]
      exact ⟨[], lowPath_nil _, by rw [table_cons hlink]; rfl⟩
  · rw [if_neg hp] at hg
    cases hg

/-- What is listed is at the end of a path. -/
theorem mem_freed (levels : Nat) : ∀ f, g ∈ s.freed levels f →
    ∃ p, p ≠ [] ∧ LowPath levels p ∧ s.table f p = some g := by
  induction levels with
  | zero =>
    intro f hg
    cases hg
  | succ levels ih =>
    intro f hg
    rw [freed_succ] at hg
    obtain ⟨i, hi, hg⟩ := List.mem_flatMap.mp hg
    have hi : i < 256 := List.mem_range.mp hi
    obtain ⟨p, hlow, hat⟩ := mem_freedAt ⟨i, Nat.lt_trans hi (by decide)⟩
      (fun f hf => (ih f hf).imp fun p hp => hp.2) hg
    exact ⟨_, List.cons_ne_nil _ _, hlow.cons hi, hat⟩

/-- When no page is at the end of two paths, no page is listed twice. -/
theorem freed_nodup (levels : Nat) : ∀ f,
    (∀ p q n, LowPath levels p → LowPath levels q → s.table f p = some n → s.table f q = some n →
      p = q) → (f :: s.freed levels f).Nodup := by
  induction levels with
  | zero =>
    intro f _
    exact List.nodup_singleton f
  | succ levels ih =>
    intro f hinj
    have hpath : ∀ (i : Fin 512) g, g ∈ s.freedAt levels f i →
        ∃ p, LowPath levels p ∧ s.table f (i :: p) = some g := fun i g hg =>
      mem_freedAt i (fun f hf => (mem_freed levels f hf).imp fun p hp => hp.2) hg
    refine List.nodup_cons.mpr ⟨?_, ?_⟩
    · intro hm
      obtain ⟨p, hne, hlow, hat⟩ := mem_freed _ _ hm
      exact hne (hinj p [] f hlow (lowPath_nil _) hat rfl)
    · rw [freed_succ]
      refine List.nodup_flatMap.mpr ⟨?_, ?_⟩
      · intro i hi
        have hi : i < 256 := List.mem_range.mp hi
        unfold freedAt
        by_cases hp : Present (s.pte f i)
        · rw [if_pos hp, (List.perm_append_singleton _ _).nodup_iff]
          let j : Fin 512 := ⟨i, Nat.lt_trans hi (by decide)⟩
          have hlink : s.link f j = some (frameOf (s.pte f i)) := if_pos hp
          apply ih
          intro p q n hlp hlq hp hq
          have he := hinj (j :: p) (j :: q) n (hlp.cons hi) (hlq.cons hi)
            (by rw [table_cons hlink]; exact hp) (by rw [table_cons hlink]; exact hq)
          exact (List.cons.inj he).2
        · rw [if_neg hp]
          exact List.nodup_nil
      · refine List.nodup_range.imp_of_mem ?_
        intro i k hi hk hne
        have hi : i < 256 := List.mem_range.mp hi
        have hk : k < 256 := List.mem_range.mp hk
        intro g hgi hgk
        obtain ⟨p, hlp, hp⟩ := hpath ⟨i, Nat.lt_trans hi (by decide)⟩ g hgi
        obtain ⟨q, hlq, hq⟩ := hpath ⟨k, Nat.lt_trans hk (by decide)⟩ g hgk
        have he := hinj _ _ g (hlp.cons hi) (hlq.cons hk) hp hq
        exact hne (congrArg Fin.val (List.cons.inj he).1)

end Phys

end TwoKernel
