import TwoKernel.Laws.Memory.Build
import TwoKernel.Lib.System

/-!
# Address spaces share the kernel half and nothing else

The kernel directory and the directories of the live processes, under any
sequence of the operations on them. The upper half of every process directory
is a copy of the kernel's upper entries; the tables below those entries are the
kernel's own. The lower half is the process's.

`Coherent` is the invariant: one forest, whose places are the kernel's upper
half and each process's lower half, so that a shared table is counted once; the
kernel's upper entries are present, hence never replaced; and each process has
them as they are.

Pages that are mapped come from the allocator and are written by their owners.
Both are steps here too, so that a run can be one of a whole kernel.

Every access to a table goes through the direct map, and the model has each of them
reach the physical page its pointer names. That is right as long as the direct map of
the allocator's pages is not itself mapped elsewhere, which a call on the kernel
directory could do. `SparesDirectMap` excludes it, and `spaces_coherent_isolated` is
about runs under it.
-/

namespace TwoKernel

open ByteMem Vmm Trie

/-- The page of a directory's root table. -/
def Vmm.PageDirectory.root (d : PageDirectory) : Nat := d.pml4Pa.toNat / 4096

/-- Page `f` belongs to the free list. -/
def Phys.FreePage (hhdm : Word) (s : Phys) (f : Nat) : Prop :=
  ∃ l, s.Holds hhdm l ∧ ∃ b ∈ l, f ∈ b.foot

/-- The kernel directory and those of the live processes. -/
structure Spaces where
  phys : Phys
  kernel : PageDirectory
  live : List PageDirectory

inductive SpaceCall where
  /-- `ProcessBlock`, constructed for a user or a kernel process. -/
  | create (isUser : Bool)
  | mapKernel (pa va length flags : Word)
  | mapProcess (d : PageDirectory) (pa va length flags : Word)
  | freePagemap (d : PageDirectory)
  /-- Pages are taken for some other use, such as to be mapped. -/
  | alloc (count : Word)
  /-- A byte is written to a page in such a use. -/
  | write (addr : Nat) (value : Byte)

namespace Spaces

/-- Page `f` is a page table of some space. -/
def IsTable (x : Spaces) (f : Nat) : Prop :=
  ∃ d ∈ x.kernel :: x.live, ∃ p : List (Fin 512), p.length ≤ 3 ∧ x.phys.table d.root p = some f

/-- The pages mapped in the lower half of `d` are its own: each mapped once, none of them free or a
page table, and all of them pages the allocator can take back. -/
structure OwnsLeaves (hhdm : Word) (x : Spaces) (d : PageDirectory) : Prop where
  once : ∀ {v w e e'}, index 39 v < 256 → index 39 w < 256 → x.phys.walk d.root v = some e →
    x.phys.walk d.root w = some e' → frameOf e = frameOf e' → pageNumber v = pageNumber w
  mine : ∀ {v e}, index 39 v < 256 → x.phys.walk d.root v = some e →
    Phys.FrameOk hhdm (frameOf e) ∧ ¬ x.phys.FreePage hhdm (frameOf e) ∧ ¬ x.IsTable (frameOf e)

def Allowed (hhdm : Word) (x : Spaces) : SpaceCall → Prop
  | .create _ => True
  | .mapKernel _ va length _ => ∀ off, off < length → 256 ≤ index 39 (va + off)
  | .mapProcess d _ va length _ => d ∈ x.live ∧ ∀ off, off < length → index 39 (va + off) < 256
  | .freePagemap d => d ∈ x.live ∧ x.OwnsLeaves hhdm d
  | .alloc _ => True
  | .write addr _ => ¬ x.phys.FreePage hhdm (addr / 4096) ∧ ¬ x.IsTable (addr / 4096)

def next (hhdm : Word) (x : Spaces) : SpaceCall → Outcome Spaces
  | .create isUser => do
    let r ← x.phys.newSpace hhdm x.kernel isUser
    return ⟨r.2, x.kernel, r.1 :: x.live⟩
  | .mapKernel pa va length flags => do
    let s ← x.phys.map hhdm x.kernel.pml4 pa va length flags
    return { x with phys := s }
  | .mapProcess d pa va length flags => do
    let s ← x.phys.map hhdm d.pml4 pa va length flags
    return { x with phys := s }
  | .freePagemap d => .ok ⟨(x.phys.freePagemap hhdm d).2, x.kernel, x.live.erase d⟩
  | .alloc count => do
    let r ← x.phys.alloc hhdm count
    return { x with phys := r.2 }
  | .write addr value =>
    .ok { x with phys := { x.phys with mem := Function.update x.phys.mem addr value } }

/-- The runs from a kernel directory just filled, over any allocator in order whose pages an entry
can name. -/
def runs (hhdm : Word) : System Spaces SpaceCall :=
  .guarded
    (fun x => x.live = [] ∧ ∃ (s : Phys) (st : Stock hhdm), s.Stocked hhdm st ∧
      s.newKernelSpace hhdm = .ok (x.kernel, x.phys))
    (Allowed hhdm) (next hhdm)

/-- What the kernel reaches through the direct map stays where it is: the direct-map address of a page
of `memory` is mapped to no other page, and what is freed with a process is of `memory`. -/
def SparesDirectMap (hhdm : Word) (memory : Set Nat) (x : Spaces) : SpaceCall → Prop
  | .mapKernel pa va length _ => ∀ k, k < pages length → ∀ f ∈ memory,
      pageNumber (va + pageOff k) = pageNumber (tablePtr hhdm f) → pa.toNat / 4096 + k = f
  | .freePagemap d => ∀ v e, index 39 v < 256 → x.phys.walk d.root v = some e → frameOf e ∈ memory
  | _ => True

/-- The runs over an allocator whose pages are in `memory`, and that spare their direct map. -/
def runsIn (hhdm : Word) (memory : Set Nat) : System Spaces SpaceCall :=
  .guarded
    (fun x => x.live = [] ∧ ∃ (s : Phys) (st : Stock hhdm), s.Stocked hhdm st ∧
      st.pool ⊆ memory ∧ s.newKernelSpace hhdm = .ok (x.kernel, x.phys))
    (fun x c => x.Allowed hhdm c ∧ x.SparesDirectMap hhdm memory c) (next hhdm)

end Spaces

/-! ## The two halves -/

/-- Paths that begin in the upper half, and the empty one. -/
def Upper : List (Fin 512) → Prop
  | [] => True
  | i :: _ => 256 ≤ i.val

/-- Paths that begin in the lower half, and the empty one. -/
def Lower : List (Fin 512) → Prop
  | [] => True
  | i :: _ => i.val < 256

/-- The kernel's upper half and the lower halves of the processes. -/
def spacePlaces (K : Nat) (R : List Nat) : Set Place :=
  {z | z.2.length ≤ 3 ∧ (z.1 = K ∧ Upper z.2 ∨ z.1 ∈ R ∧ Lower z.2)}

variable {hhdm : Word} {s s' : Phys} {st st' : Stock hhdm} {K r n : Nat} {R : List Nat}
  {p q : List (Fin 512)} {i j : Fin 512} {va v w : Word} {x x' : Spaces}

theorem upper_of_concat (h : Upper (p ++ [i])) : Upper p := by
  cases p with
  | nil => trivial
  | cons _ _ => exact h

theorem lower_of_concat (h : Lower (p ++ [i])) : Lower p := by
  cases p with
  | nil => trivial
  | cons _ _ => exact h

private theorem eq_slot_of_tablePath (hp : i :: p <+: tablePath va) : i = slot level39 va :=
  (List.cons_prefix_cons.mp hp).1

/-- The tables on the way to an upper address are upper ones. -/
theorem upper_tablePath (h : 256 ≤ index 39 va) (hp : p <+: tablePath va) : Upper p := by
  cases p with
  | nil => trivial
  | cons i p =>
    rw [eq_slot_of_tablePath hp]
    exact h

/-- Those to a lower address are lower ones. -/
theorem lower_tablePath (h : index 39 va < 256) (hp : p <+: tablePath va) : Lower p := by
  cases p with
  | nil => trivial
  | cons i p =>
    rw [eq_slot_of_tablePath hp]
    exact h

/-- The directory whose root table is page `f`. -/
def dirOf (hhdm : Word) (f : Nat) : PageDirectory := ⟨tablePtr hhdm f, framePa f⟩

theorem dirOf_root (h : n < 2 ^ 52) : (dirOf hhdm n).root = n := by
  unfold PageDirectory.root dirOf
  rw [framePa_toNat h]
  omega

private theorem map_erase_dirOf (hr : r < 2 ^ 52) (hR : ∀ r' ∈ R, r' < 2 ^ 52) :
    (R.map (dirOf hhdm)).erase (dirOf hhdm r) = (R.erase r).map (dirOf hhdm) := by
  induction R with
  | nil => rfl
  | cons a R ih =>
    have ha : a < 2 ^ 52 := hR a List.mem_cons_self
    rw [List.map_cons, List.erase_cons, List.erase_cons]
    by_cases e : a = r
    · rw [e, if_pos (beq_self_eq_true _), if_pos (beq_self_eq_true _)]
    · have hne : dirOf hhdm a ≠ dirOf hhdm r := fun he =>
        e ((dirOf_root ha).symm.trans ((congrArg PageDirectory.root he).trans (dirOf_root hr)))
      rw [if_neg (by simpa using hne), if_neg (by simpa using e), List.map_cons,
        ih fun r' hr' => hR r' (List.mem_cons_of_mem _ hr')]

/-! ## The invariant -/

/-- **The invariant.** `K` is the kernel's root page and `R` lists the processes' root pages. -/
structure Coherent (hhdm : Word) (x : Spaces) (st : Stock hhdm) (K : Nat) (R : List Nat) : Prop where
  kernel : x.kernel = dirOf hhdm K
  live : x.live = R.map (dirOf hhdm)
  distinct : (K :: R).Nodup
  tables : x.phys.Tables hhdm st (spacePlaces K R)
  ok : ∀ n ∈ x.phys.frames (spacePlaces K R), Phys.FrameOk hhdm n
  filled : ∀ j : Fin 512, 256 ≤ j.val → Present (x.phys.pte K j)
  shared : ∀ r ∈ R, ∀ j : Fin 512, 256 ≤ j.val → x.phys.pte r j = x.phys.pte K j

theorem mem_kernel (K : Nat) (R : List Nat) : (K, []) ∈ spacePlaces K R :=
  ⟨Nat.zero_le _, .inl ⟨rfl, trivial⟩⟩

theorem mem_process (hr : r ∈ R) : (r, []) ∈ spacePlaces K R := ⟨Nat.zero_le _, .inr ⟨hr, trivial⟩⟩

theorem mem_lower (hr : r ∈ R) (hlen : p.length ≤ 3) (hp : Lower p) : (r, p) ∈ spacePlaces K R :=
  ⟨hlen, .inr ⟨hr, hp⟩⟩

private theorem not_mem_upper (hne : r ≠ K) (hj : 256 ≤ j.val) : (r, [j]) ∉ spacePlaces K R := by
  intro h
  rcases h.2 with ⟨e, -⟩ | ⟨-, hlow⟩
  · exact hne e
  · exact Nat.not_lt.mpr hj hlow

theorem spacePlaces_closed (h : (r, p ++ [i]) ∈ spacePlaces K R) : (r, p) ∈ spacePlaces K R := by
  obtain ⟨hlen, hcase⟩ := h
  rw [List.length_append] at hlen
  refine ⟨Nat.le_of_add_right_le hlen, ?_⟩
  rcases hcase with ⟨hr, hp⟩ | ⟨hr, hp⟩
  · exact .inl ⟨hr, upper_of_concat hp⟩
  · exact .inr ⟨hr, lower_of_concat hp⟩

/-- The lower half of `r` translates as it did. -/
def SameLower (s s' : Phys) (r : Nat) : Prop :=
  ∀ p, p.length = 3 → Lower p → ∀ j, s'.leafAt r p j = s.leafAt r p j

/-- The same lower half has the same lower walks. -/
theorem SameLower.walk (h : SameLower s s' r) (hv : index 39 v < 256) : s'.walk r v = s.walk r v := by
  rw [Phys.walk_eq, Phys.walk_eq]
  exact h _ rfl (lower_tablePath hv List.prefix_rfl) _

namespace Coherent

theorem ne_kernel (h : Coherent hhdm x st K R) (hr : r ∈ R) : r ≠ K := by
  rintro rfl
  exact (List.nodup_cons.mp h.distinct).1 hr

/-- A step that keeps the forest and what `Keeps` says keeps the invariant. -/
theorem keep (h : Coherent hhdm x st K R) (ht : s'.Tables hhdm st' (spacePlaces K R))
    (hk : Phys.Keeps (spacePlaces K R) x.phys st s' st') :
    Coherent hhdm { x with phys := s' } st' K R := by
  have hK : ∀ j : Fin 512, 256 ≤ j.val → s'.pte K j = x.phys.pte K j := by
    intro j hj
    refine hk.entry (p := []) (mem_kernel K R) (by decide) rfl fun _ => ?_
    have hlink : x.phys.link K j = some _ := if_pos (h.filled j hj)
    rw [hlink]
    exact Option.some_ne_none _
  have hR : ∀ r ∈ R, ∀ j : Fin 512, 256 ≤ j.val → s'.pte r j = x.phys.pte r j := by
    intro r hr j hj
    refine hk.entry (p := []) (mem_process hr) (by decide) rfl fun hp => ?_
    exact absurd hp (not_mem_upper (h.ne_kernel hr) hj)
  refine ⟨h.kernel, h.live, h.distinct, ht, ?_, ?_, ?_⟩
  · intro n hn
    rcases hk.frames hn with hn | hn
    · exact h.ok n hn
    · exact h.tables.stocked.frameOk hn
  · intro j hj
    rw [hK j hj]
    exact h.filled j hj
  · intro r hr j hj
    rw [hK j hj, hR r hr j hj]
    exact h.shared r hr j hj

/-- A step that touches no table of the spaces it leaves, and frees none, keeps the invariant for
them and all their translations. -/
theorem same (h : Coherent hhdm x st K R) {R' : List Nat} (hR : R'.Sublist R)
    (hst : s'.Stocked hhdm st')
    (hkept : ∀ n ∈ x.phys.frames (spacePlaces K R'),
      n ∉ st'.pool ∧ ∀ j : Fin 512, s'.pte n j = x.phys.pte n j) :
    Coherent hhdm ⟨s', x.kernel, R'.map (dirOf hhdm)⟩ st' K R' ∧ ∀ r ∈ R', SameLower x.phys s' r := by
  have hsub : spacePlaces K R' ⊆ spacePlaces K R := fun z hz =>
    ⟨hz.1, hz.2.imp_right fun hz => ⟨hR.subset hz.1, hz.2⟩⟩
  obtain ⟨ht, htable⟩ := h.tables.restrict hsub spacePlaces_closed hst hkept
  have hroot : ∀ r, (r, []) ∈ spacePlaces K R' → ∀ j : Fin 512, s'.pte r j = x.phys.pte r j :=
    fun r hr => (hkept r ⟨r, [], hr, rfl⟩).2
  refine ⟨⟨h.kernel, rfl, (hR.cons_cons K).nodup h.distinct, ht, ?_, ?_, ?_⟩, ?_⟩
  · intro n hn
    obtain ⟨r, p, hp, hat⟩ := hn
    exact h.ok n ⟨r, p, hsub hp, (htable hp).symm.trans hat⟩
  · intro j hj
    show Present (s'.pte K j)
    rw [hroot K (mem_kernel K R')]
    exact h.filled j hj
  · intro r hr j hj
    show s'.pte r j = s'.pte K j
    rw [hroot K (mem_kernel K R'), hroot r (mem_process hr)]
    exact h.shared r (hR.subset hr) j hj
  · intro r hr p hlen hlow j
    have hp := mem_lower (K := K) hr (Nat.le_of_eq hlen) hlow
    exact Phys.Tables.leafAt_kept (htable hp) fun n hn => (hkept n ⟨r, p, hp, hn⟩).2 j

/-- Every process has the upper entries of the kernel. -/
theorem pte_upper (h : Coherent hhdm x st K R) (hr : r ∈ R) (hv : 256 ≤ index 39 v) :
    x.phys.pte r (index 39 v) = x.phys.pte K (index 39 v) :=
  h.shared r hr (slot level39 v) hv

/-- So it has the kernel's upper tables. -/
theorem nextFrame_upper (h : Coherent hhdm x st K R) (hr : r ∈ R) (hv : 256 ≤ index 39 v) :
    x.phys.nextFrame r (index 39 v) = x.phys.nextFrame K (index 39 v) := by
  unfold Phys.nextFrame
  rw [h.pte_upper hr hv]

/-- **Coherence.** -/
theorem walk_upper (h : Coherent hhdm x st K R) (hr : r ∈ R) (hv : 256 ≤ index 39 v) :
    x.phys.walk r v = x.phys.walk K v := by
  unfold Phys.walk
  rw [h.nextFrame_upper hr hv]

/-! ## Mapping -/

/-- A mapping in the upper half keeps the spaces coherent. -/
theorem mapKernel (h : Coherent hhdm x st K R) {pa va length flags : Word}
    (hva : ∀ off, off < length → 256 ≤ index 39 (va + off))
    (hs : x.phys.map hhdm x.kernel.pml4 pa va length flags = .ok s') :
    ∃ st', Coherent hhdm { x with phys := s' } st' K R ∧ ∀ r ∈ R, SameLower x.phys s' r := by
  rw [h.kernel] at hs
  obtain ⟨st', ht, hk, hleaf⟩ := h.tables.map_kept
    (fun off hoff p _ hp => ⟨hp.length_le, .inl ⟨rfl, upper_tablePath (hva off hoff) hp⟩⟩) hs
  refine ⟨st', h.keep ht hk, ?_⟩
  intro r hr p hlen hlow j
  exact hleaf (mem_lower hr (Nat.le_of_eq hlen) hlow) hlen (h.ne_kernel hr) j

private theorem mapProcess (h : Coherent hhdm x st K R) (hr : r ∈ R) {pa va length flags : Word}
    (hva : ∀ off, off < length → index 39 (va + off) < 256)
    (hs : x.phys.map hhdm (dirOf hhdm r).pml4 pa va length flags = .ok s') :
    ∃ st', Coherent hhdm { x with phys := s' } st' K R ∧
      ∀ r' ∈ R, r' ≠ r → SameLower x.phys s' r' := by
  obtain ⟨st', ht, hk, hleaf⟩ := h.tables.map_kept
    (fun off hoff p _ hp => mem_lower hr hp.length_le (lower_tablePath (hva off hoff) hp)) hs
  refine ⟨st', h.keep ht hk, ?_⟩
  intro r' hr' hne p hlen hlow j
  exact hleaf (mem_lower hr' (Nat.le_of_eq hlen) hlow) hlen hne j

/-! ## Other uses of pages -/

/-- So does an allocation. -/
theorem alloc (h : Coherent hhdm x st K R) {count a : Word}
    (hs : x.phys.alloc hhdm count = .ok (a, s')) :
    ∃ st', Coherent hhdm { x with phys := s' } st' K R ∧ ∀ r ∈ R, SameLower x.phys s' r := by
  rcases h.tables.stocked.alloc count with ⟨-, ha⟩ | ⟨f, s₁, st₁, ha, ht⟩
  · cases hs.symm.trans ha
    exact ⟨st, h, fun _ _ _ _ _ _ => rfl⟩
  · cases hs.symm.trans ha
    obtain ⟨htab, hk, -, hleaf⟩ := h.tables.took ht
    refine ⟨st₁, h.keep htab hk, ?_⟩
    intro r hr p hlen hlow j
    exact hleaf (mem_lower hr (Nat.le_of_eq hlen) hlow) j

/-- A place of the forest is a page table of some space. -/
theorem isTable (h : Coherent hhdm x st K R) (hn : n ∈ x.phys.frames (spacePlaces K R)) :
    x.IsTable n := by
  obtain ⟨r, p, hp, hat⟩ := hn
  have hroot := h.tables.root hp
  rcases hp.2 with ⟨e, -⟩ | ⟨hr, -⟩
  · refine ⟨x.kernel, List.mem_cons_self, p, hp.1, ?_⟩
    cases e
    rw [h.kernel, dirOf_root hroot]
    exact hat
  · refine ⟨dirOf hhdm r, List.mem_cons_of_mem _ ?_, p, hp.1, ?_⟩
    · rw [h.live]
      exact List.mem_map_of_mem hr
    · rw [dirOf_root hroot]
      exact hat

private theorem not_pool (h : Coherent hhdm x st K R) (hn : ¬ x.phys.FreePage hhdm n) : n ∉ st.pool := by
  intro hm
  obtain ⟨b, hb, hnb⟩ := hm
  exact hn ⟨st.blocks, h.tables.stocked.holds, b, hb, hnb⟩

/-- So does a write outside the tables and the free pages. -/
theorem write (h : Coherent hhdm x st K R) {addr : Nat} (hfree : ¬ x.phys.FreePage hhdm (addr / 4096))
    (htab : ¬ x.IsTable (addr / 4096)) (value : Byte) :
    Coherent hhdm { x with phys := { x.phys with mem := Function.update x.phys.mem addr value } }
      st K R ∧
    ∀ r ∈ R, SameLower x.phys { x.phys with mem := Function.update x.phys.mem addr value } r := by
  have hmem : ∀ pages : Set Nat, addr / 4096 ∉ pages →
      Set.EqOn (Function.update x.phys.mem addr value) x.phys.mem (pageBytes pages) := by
    intro pages hnot y hy
    apply Function.update_of_ne
    rintro rfl
    exact hnot hy
  rw [h.live]
  apply h.same (List.Sublist.refl R)
  · exact h.tables.stocked.frame rfl (hmem _ (h.not_pool hfree))
  · intro n hn
    have hne : addr / 4096 ≠ n := fun e => htab (e ▸ h.isTable hn)
    obtain ⟨r, p, hp, hat⟩ := hn
    exact ⟨h.tables.forest.used hp hat, fun j => Phys.pte_congr (hmem {n} hne) j.isLt⟩

/-! ## New directories -/

/-- `new_pagemap` takes a page and clears it. -/
theorem newPagemap (h : s.Stocked hhdm st) :
    Outcome.Returns (st.freePages = 0) (s.newPagemap hhdm) fun x =>
      ∃ m st', x.1 = dirOf hhdm m ∧ Phys.NewTable s st m x.2 st' := by
  unfold Phys.newPagemap
  rcases h.newTable with ⟨hzero, ha⟩ | ⟨m, s₁, st', ha, hne, hnew⟩
  · rw [ha]
    exact .inr ⟨hzero, _, rfl⟩
  · rw [ha, ok_bind, if_neg hne]
    exact .ok ⟨m, st', rfl, hnew⟩

/-- The paths of one half of a tree. -/
def halfPaths (half : List (Fin 512) → Prop) : Set (List (Fin 512)) := {p | p.length ≤ 3 ∧ half p}

theorem halfPaths_closed {half : List (Fin 512) → Prop} (hhalf : ∀ {p i}, half (p ++ [i]) → half p)
    (h : p ++ [i] ∈ halfPaths half) : p ∈ halfPaths half := by
  obtain ⟨hlen, hp⟩ := h
  rw [List.length_append] at hlen
  exact ⟨Nat.le_of_add_right_le hlen, hhalf hp⟩

private theorem places_cons (m : Nat) : spacePlaces K R ∪ {z | z.1 = m ∧ z.2 ∈ halfPaths Lower} =
    spacePlaces K (m :: R) := by
  ext z
  constructor
  · intro hz
    rcases hz with ⟨hlen, hz⟩ | ⟨e, hlen, hlow⟩
    · exact ⟨hlen, hz.imp_right fun hz => ⟨List.mem_cons_of_mem _ hz.1, hz.2⟩⟩
    · exact ⟨hlen, .inr ⟨e ▸ List.mem_cons_self, hlow⟩⟩
  · intro hz
    obtain ⟨hlen, hz | ⟨hm, hlow⟩⟩ := hz
    · exact .inl ⟨hlen, .inl hz⟩
    · rcases List.mem_cons.mp hm with e | hm
      · exact .inr ⟨e, hlen, hlow⟩
      · exact .inl ⟨hlen, .inr ⟨hm, hlow⟩⟩

theorem mem_range' {k : Nat} (hk : k ∈ List.range' 256 256) : 256 ≤ k ∧ k < 512 := by
  rw [List.mem_range'_1] at hk
  exact hk

/-- The lower half of an empty root can be filled. -/
theorem vacant_lower (hr : r ∈ R) (hzero : ∀ j : Fin 512, j.val < 256 → s.pte r j = 0) :
    Phys.Tables.Vacant s (spacePlaces K R) r (List.range 256) := by
  refine ⟨List.nodup_range, fun k hk => ?_⟩
  have hk : k < 256 := List.mem_range.mp hk
  have hk512 : k < 512 := Nat.lt_trans hk (by decide)
  refine ⟨hk512, mem_lower hr (show 1 ≤ 3 by decide) hk, ?_⟩
  have hz : s.pte r k = 0 := hzero ⟨k, hk512⟩ hk
  rw [hz]
  decide

/-- A new directory with the kernel half copied in. -/
theorem plantCopy (h : Coherent hhdm x st K R) {m : Nat} (hnew : Phys.NewTable x.phys st m s' st')
    {s₂ : Phys} (hs₂ : s₂ = s'.processFillKernelEntries hhdm (dirOf hhdm K) (dirOf hhdm m)) :
    Coherent hhdm ⟨s₂, x.kernel, dirOf hhdm m :: x.live⟩ st' K (m :: R) ∧
      (∀ r ∈ R, SameLower x.phys s₂ r) ∧ ∀ j : Fin 512, j.val < 256 → s₂.pte m j = 0 := by
  have hused : ∀ {r p n}, (r, p) ∈ spacePlaces K R → x.phys.table r p = some n →
      n ∉ st.pool ∧ n ≠ m := fun hp hn =>
    ⟨h.tables.forest.used hp hn, fun e => h.tables.forest.used hp hn (e ▸ hnew.taken)⟩
  have hmK : K ≠ m := (hused (mem_kernel K R) rfl).2
  have hmR : m ∉ R := fun hm => (hused (mem_process hm) rfl).2 rfl
  obtain ⟨h₁, htable₁⟩ := h.tables.plant hnew (halfPaths Lower) (fun p hp => hp.1)
    (halfPaths_closed lower_of_concat)
  rw [places_cons] at h₁
  obtain ⟨h₂, htable₂, hcopy, hpte₂⟩ : s₂.Tables hhdm st' (spacePlaces K (m :: R)) ∧
      (∀ {r p}, (r, p) ∈ spacePlaces K (m :: R) → s₂.table r p = s'.table r p) ∧
      (∀ k ∈ List.range' 256 256, s₂.pte m k = s'.pte K k) ∧
      ∀ a (j : Fin 512), (a = m → j.val ∉ List.range' 256 256) → s₂.pte a j = s'.pte a j := by
    rw [hs₂]
    exact Phys.Tables.copyEntries (mem_process List.mem_cons_self) (h.tables.root (mem_kernel K R))
      hmK (List.range' 256 256) h₁ fun k hk =>
        ⟨(mem_range' hk).2, not_mem_upper hmK.symm (mem_range' hk).1⟩
  -- the entries of the tables that were there
  have hpte : ∀ {r p n}, (r, p) ∈ spacePlaces K R → x.phys.table r p = some n →
      ∀ j : Fin 512, s₂.pte n j = x.phys.pte n j := by
    intro r p n hp hn j
    obtain ⟨hpool, hne⟩ := hused hp hn
    rw [hpte₂ n j fun e => absurd e hne]
    apply Phys.pte_congr (hnew.mem.mono _) j.isLt
    intro y hy hyp
    have hy : y / 4096 = n := hy
    exact hpool (hy ▸ hyp)
  have hsub : ∀ {r p}, (r, p) ∈ spacePlaces K R → (r, p) ∈ spacePlaces K (m :: R) :=
    fun hp => ⟨hp.1, hp.2.imp_right fun hp => ⟨List.mem_cons_of_mem _ hp.1, hp.2⟩⟩
  have hK := hpte (mem_kernel K R) rfl
  refine ⟨⟨h.kernel, congrArg (dirOf hhdm m :: ·) h.live, ?_, h₂, ?_, ?_, ?_⟩, ?_, ?_⟩
  · obtain ⟨hKR, hR⟩ := List.nodup_cons.mp h.distinct
    refine List.nodup_cons.mpr ⟨?_, List.nodup_cons.mpr ⟨hmR, hR⟩⟩
    intro hm
    rcases List.mem_cons.mp hm with e | hm
    · exact hmK e
    · exact hKR hm
  · intro n hn
    obtain ⟨r, p, hp, hat⟩ := hn
    have hat' : s'.table r p = some n := (htable₂ hp).symm.trans hat
    rw [← places_cons] at hp
    rcases hp with hp | ⟨e, -⟩
    · exact h.ok n ⟨r, p, hp, (htable₁ hp).symm.trans hat'⟩
    · have e : r = m := e
      subst e
      rw [(Phys.Tables.table_zero (fun j => hnew.zero j j.isLt) hat').2]
      exact h.tables.stocked.frameOk hnew.taken
  · intro j hj
    show Present (s₂.pte K j)
    rw [hK]
    exact h.filled j hj
  · intro r hr j hj
    show s₂.pte r j = s₂.pte K j
    rw [hK]
    rcases List.mem_cons.mp hr with rfl | hr
    · have hmem : j.val ∈ List.range' 256 256 := List.mem_range'_1.mpr ⟨hj, j.isLt⟩
      rw [hcopy j hmem, ← hK, hpte₂ K j fun e => absurd e hmK]
    · rw [hpte (mem_process hr) rfl]
      exact h.shared r hr j hj
  · intro r hr p hlen hlow j
    have hp := mem_lower (K := K) hr (Nat.le_of_eq hlen) hlow
    exact Phys.Tables.leafAt_kept ((htable₂ (hsub hp)).trans (htable₁ hp)) fun n hn => hpte hp hn j
  · intro j hj
    rw [hpte₂ m j fun _ hm => Nat.not_lt.mpr (mem_range' hm).1 hj]
    exact hnew.zero j j.isLt

/-- **A process is created.** The constructor returns if there are pages enough for the root and
the tables of its lower half. -/
theorem newSpace (h : Coherent hhdm x st K R) (isUser : Bool) :
    Outcome.Returns (st.freePages < 257) (x.phys.newSpace hhdm x.kernel isUser) fun y =>
      ∃ m st', y.1 = dirOf hhdm m ∧ Coherent hhdm ⟨y.2, x.kernel, y.1 :: x.live⟩ st' K (m :: R) ∧
        (∀ r ∈ R, SameLower x.phys y.2 r) ∧ st.freePages ≤ st'.freePages + 257 := by
  unfold Phys.newSpace
  refine ((newPagemap h.tables.stocked).mono (fun hz => by omega) fun _ hx => hx).bind fun y hy => ?_
  obtain ⟨m, st₁, hd, hnew⟩ := hy
  have hcount := hnew.count
  rw [hd]
  generalize hs₂ : y.2.processFillKernelEntries hhdm x.kernel (dirOf hhdm m) = s₂
  rw [h.kernel] at hs₂
  obtain ⟨h₂, hsame, hzero⟩ := h.plantCopy hnew hs₂.symm
  cases isUser with
  | false => exact .ok ⟨m, st₁, rfl, h₂, hsame, by omega⟩
  | true =>
    have hmem : m ∈ m :: R := List.mem_cons_self
    have hv : Phys.Tables.Vacant s₂ (spacePlaces K (m :: R)) m (List.range 256) :=
      vacant_lower hmem hzero
    have hfill := Phys.Tables.fillEntries (show (present ||| writeable ||| user) &&& paddrMask = 0 by decide)
      (by decide) (List.range 256) h₂.tables hv
    refine (hfill.mono (fun hs => ?_) fun _ hx => hx).bind fun s₃ hs₃ => ?_
    · rw [List.length_range] at hs
      omega
    obtain ⟨st₃, hfilled⟩ := hs₃
    have hcount₃ := hfilled.count
    rw [List.length_range] at hcount₃
    refine .ok ⟨m, st₃, rfl, h₂.keep hfilled.tables hfilled.keeps, ?_, by omega⟩
    intro r hr p hlen hlow j
    rw [← hsame r hr p hlen hlow j]
    exact hfilled.leaf (mem_lower (List.mem_cons_of_mem _ hr) (Nat.le_of_eq hlen) hlow) hlen j

/-- The kernel directory: a new root whose upper half is filled, as a tree over any set of paths. -/
theorem newKernelTree (h : s.Stocked hhdm st) (half : Set (List (Fin 512)))
    (hlen : ∀ p ∈ half, p.length ≤ 3) (hclosed : ∀ {p i}, p ++ [i] ∈ half → p ∈ half)
    (hup : ∀ k : Fin 512, 256 ≤ k.val → [k] ∈ half) :
    Outcome.Returns (st.freePages < 257) (s.newKernelSpace hhdm) fun y =>
      ∃ K s₁ st₁ st', y.1 = dirOf hhdm K ∧ Phys.NewTable s st K s₁ st₁ ∧
        Phys.Tables.Filled {z | z.1 = K ∧ z.2 ∈ half} s₁ st₁ K (List.range' 256 256) y.2 st' := by
  unfold Phys.newKernelSpace
  refine ((newPagemap h).mono (fun hz => by omega) fun _ hx => hx).bind fun y hy => ?_
  obtain ⟨K, st₁, hd, hnew⟩ := hy
  have hcount := hnew.count
  have hempty : s.Tables hhdm st ∅ := ⟨h, ⟨by simp, by simp, by simp⟩, by simp, by simp⟩
  obtain ⟨h₁, -⟩ := hempty.plant hnew half hlen hclosed
  rw [Set.empty_union] at h₁
  have hv : Phys.Tables.Vacant y.2 {z | z.1 = K ∧ z.2 ∈ half} K (List.range' 256 256) := by
    refine ⟨List.nodup_range', fun k hk => ?_⟩
    obtain ⟨hlo, hhi⟩ := mem_range' hk
    refine ⟨hhi, ⟨rfl, hup ⟨k, hhi⟩ hlo⟩, ?_⟩
    rw [hnew.zero k hhi]
    decide
  rw [hd]
  have hfill := Phys.Tables.fillEntries (show (present ||| writeable) &&& paddrMask = 0 by decide)
    (by decide) (List.range' 256 256) h₁ hv
  refine (hfill.mono (fun hs => ?_) fun _ hx => hx).bind fun s₂ hs₂ => ?_
  · rw [List.length_range'] at hs
    omega
  obtain ⟨st₂, hfilled⟩ := hs₂
  exact .ok ⟨K, y.2, st₁, st₂, rfl, hnew, hfilled⟩

/-- The kernel directory, just filled. -/
theorem newKernelSpace (h : s.Stocked hhdm st) :
    Outcome.Returns (st.freePages < 257) (s.newKernelSpace hhdm) fun y =>
      ∃ K st', Coherent hhdm ⟨y.2, y.1, []⟩ st' K [] ∧ st'.freePages + 257 = st.freePages := by
  refine (newKernelTree h (halfPaths Upper) (fun p hp => hp.1) (halfPaths_closed upper_of_concat)
    fun k hk => ⟨show 1 ≤ 3 by decide, hk⟩).mono id ?_
  rintro ⟨d, s'⟩ ⟨K, s₁, st₁, st₂, hd, hnew, hfilled⟩
  have hplaces : {z : Place | z.1 = K ∧ z.2 ∈ halfPaths Upper} = spacePlaces K [] := by
    ext z
    simp only [spacePlaces, halfPaths, Set.mem_ofPred_eq, List.not_mem_nil, false_and, or_false]
    exact and_left_comm
  rw [hplaces] at hfilled
  have hzero : ∀ j : Fin 512, s₁.pte K j = 0 := fun j => hnew.zero j j.isLt
  have hcount := hnew.count
  have hcount₂ := hfilled.count
  rw [List.length_range'] at hcount₂
  refine ⟨K, st₂, ⟨hd, rfl, List.nodup_singleton K, hfilled.tables, ?_, ?_, by simp⟩, by omega⟩
  · intro n hn
    rcases hfilled.keeps.frames hn with ⟨r, p, hp, hat⟩ | hn
    · have hr : r = K := by
        rcases hp.2 with ⟨hr, -⟩ | ⟨hr, -⟩
        · exact hr
        · cases hr
      subst hr
      rw [(Phys.Tables.table_zero hzero hat).2]
      exact h.frameOk hnew.taken
    · exact hnew.stocked.frameOk hn
  · intro j hj
    exact hfilled.full j (List.mem_range'_1.mpr ⟨hj, j.isLt⟩)

/-! ## Freeing a directory -/

/-- Four slots are the path of an address. -/
theorem exists_path (i j k l : Fin 512) :
    ∃ v : Word, tablePath v = [i, j, k] ∧ slot level12 v = l := by
  let n := i.val * 2 ^ 39 + j.val * 2 ^ 30 + k.val * 2 ^ 21 + l.val * 2 ^ 12
  have hi := i.isLt
  have hj := j.isLt
  have hk := k.isLt
  have hl := l.isLt
  have hn : (BitVec.ofNat 64 n).toNat = n := by
    rw [BitVec.toNat_ofNat]
    exact Nat.mod_eq_of_lt (by omega)
  refine ⟨BitVec.ofNat 64 n, ?_, ?_⟩
  · simp only [tablePath, slot, List.cons.injEq, Fin.ext_iff, and_true, index_eq level39,
      index_eq level30, index_eq level21, hn]
    omega
  · simp only [slot, Fin.ext_iff, index_eq level12, hn]
    omega

/-- A page four slots down is a mapped page. -/
theorem mapped_of_table (hlen : p.length = 4) (hn : s.table r p = some n) :
    ∃ v e, p = tablePath v ++ [slot level12 v] ∧ s.walk r v = some e ∧ frameOf e = n := by
  obtain ⟨i, j, k, l, rfl⟩ : ∃ i j k l, p = [i, j, k, l] := List.length_eq_four.mp hlen
  obtain ⟨v, hpath, hslot⟩ := exists_path i j k l
  have hsplit : s.table r ([i, j, k] ++ [l]) = some n := hn
  unfold Phys.table at hsplit
  rw [descend_concat] at hsplit
  obtain ⟨t, ht, hl⟩ := Option.bind_eq_some_iff.mp hsplit
  unfold Phys.link Phys.nextFrame at hl
  by_cases hp : Present (s.pte t l)
  · rw [if_pos hp] at hl
    refine ⟨v, s.pte t l, by rw [hpath, hslot]; rfl, ?_, Option.some.inj hl⟩
    rw [Phys.walk_eq, hpath, hslot]
    unfold Phys.leafAt Phys.table
    rw [ht]
    exact if_pos hp
  · rw [if_neg hp] at hl
    cases hl

/-- What freeing the tree of `r` needs of the pages mapped in its lower half: each is there once, can
be handed back, and is neither free nor a table. -/
structure Owned (hhdm : Word) (s : Phys) (st : Stock hhdm) (places : Set Place) (r : Nat) : Prop where
  leaf : ∀ {p n}, p.length = 4 → Lower p → s.table r p = some n →
    Phys.FrameOk hhdm n ∧ n ∉ st.pool ∧ n ∉ s.frames places
  once : ∀ {p q n}, p.length = 4 → q.length = 4 → Lower p → Lower q → s.table r p = some n →
    s.table r q = some n → p = q

theorem lower_of_lowPath {levels : Nat} (h : Phys.LowPath levels p) : Lower p := by
  cases p with
  | nil => trivial
  | cons i p => exact h.2 i List.mem_cons_self

theorem owned (h : Coherent hhdm x st K R) (hr : r ∈ R)
    (hown : x.OwnsLeaves hhdm (dirOf hhdm r)) : Owned hhdm x.phys st (spacePlaces K R) r := by
  have hroot : (dirOf hhdm r).root = r := dirOf_root (h.tables.root (mem_process hr))
  constructor
  · intro p n hlen hlow hn
    obtain ⟨v, e, rfl, hw, rfl⟩ := mapped_of_table hlen hn
    obtain ⟨hok, hfree, htab⟩ := hown.mine hlow (hroot.symm ▸ hw)
    exact ⟨hok, h.not_pool hfree, fun hm => htab (h.isTable hm)⟩
  · intro p q n hp hq hlp hlq hn hn'
    obtain ⟨v, e, rfl, hv, he⟩ := mapped_of_table hp hn
    obtain ⟨w, e', rfl, hw, he'⟩ := mapped_of_table hq hn'
    have hnum := hown.once hlp hlq (hroot.symm ▸ hv) (hroot.symm ▸ hw) (he.trans he'.symm)
    obtain ⟨hpath, hslot⟩ := path_eq_iff.mpr hnum
    rw [hpath, hslot]

section free

variable (h : Coherent hhdm x st K R) (hr : r ∈ R)
  (hown : Owned hhdm x.phys st (spacePlaces K R) r)
include h hr hown

omit h in
/-- The pages of a process's lower half: its own tables, and pages mapped there. -/
theorem path_cases (hlen : p.length ≤ 4) (hlow : Lower p) (hn : x.phys.table r p = some n) :
    (r, p) ∈ spacePlaces K R ∨ p.length = 4 ∧ Phys.FrameOk hhdm n ∧ n ∉ st.pool ∧
      n ∉ x.phys.frames (spacePlaces K R) := by
  by_cases h3 : p.length ≤ 3
  · exact .inl (mem_lower hr h3 hlow)
  · have h4 : p.length = 4 := by omega
    exact .inr ⟨h4, hown.leaf h4 hlow hn⟩

/-- No page is at the end of two of these paths. -/
theorem path_inj (hp : p.length ≤ 4) (hq : q.length ≤ 4) (hlp : Lower p) (hlq : Lower q)
    (hn : x.phys.table r p = some n) (hn' : x.phys.table r q = some n) : p = q := by
  rcases path_cases hr hown hp hlp hn with hpl | ⟨hp4, -, -, hptab⟩
  · rcases path_cases hr hown hq hlq hn' with hql | ⟨-, -, -, hqtab⟩
    · exact (h.tables.forest.sole hpl hql hn hn').2
    · exact absurd ⟨r, p, hpl, hn⟩ hqtab
  · rcases path_cases hr hown hq hlq hn' with hql | ⟨hq4, -, -, -⟩
    · exact absurd ⟨r, q, hql, hn'⟩ hptab
    · exact hown.once hp4 hq4 hlp hlq hn hn'

theorem path_ok (hlen : p.length ≤ 4) (hlow : Lower p) (hn : x.phys.table r p = some n) :
    n ∉ st.pool ∧ Phys.FrameOk hhdm n := by
  rcases path_cases hr hown hlen hlow hn with hpl | ⟨-, hok, hpool, -⟩
  · exact ⟨h.tables.forest.used hpl hn, h.ok n ⟨r, p, hpl, hn⟩⟩
  · exact ⟨hpool, hok⟩

theorem freeable : Phys.Freeable hhdm st (r :: x.phys.freed 4 r) := by
  have hpath : ∀ f ∈ r :: x.phys.freed 4 r, ∃ p, Phys.LowPath 4 p ∧ x.phys.table r p = some f := by
    intro f hf
    rcases List.mem_cons.mp hf with rfl | hf
    · exact ⟨[], Phys.lowPath_nil _, rfl⟩
    · obtain ⟨p, -, hlow, hat⟩ := Phys.mem_freed 4 r hf
      exact ⟨p, hlow, hat⟩
  refine ⟨Phys.freed_nodup 4 r fun p q n hp hq hn hn' => ?_, ?_, ?_⟩
  · exact h.path_inj hr hown hp.1 hq.1 (lower_of_lowPath hp) (lower_of_lowPath hq) hn hn'
  · intro f hf
    obtain ⟨p, hlow, hat⟩ := hpath f hf
    exact (h.path_ok hr hown hlow.1 (lower_of_lowPath hlow) hat).1
  · intro f hf
    obtain ⟨p, hlow, hat⟩ := hpath f hf
    exact (h.path_ok hr hown hlow.1 (lower_of_lowPath hlow) hat).2

/-- The tables of the other spaces are not among the pages that are freed. -/
theorem not_freed (hp : (n, p) ∈ spacePlaces K R) (hne : n ≠ r) {f : Nat}
    (hat : x.phys.table n p = some f) : f ∉ r :: x.phys.freed 4 r := by
  intro hf
  rcases List.mem_cons.mp hf with rfl | hf
  · exact hne (h.tables.forest.sole hp (mem_process hr) hat rfl).1
  · obtain ⟨q, -, hlow, hat'⟩ := Phys.mem_freed 4 r hf
    rcases path_cases hr hown hlow.1 (lower_of_lowPath hlow) hat' with hql | ⟨-, -, -, htab⟩
    · exact hne (h.tables.forest.sole hp hql hat hat').1
    · exact htab ⟨n, p, hp, hat⟩

/-- What `free_pagemap` does to memory and to the allocator. -/
theorem freePagemap_till :
    ∃ st', (x.phys.freePagemap hhdm (dirOf hhdm r)).2.Stocked hhdm st' ∧
      (x.phys.freePagemap hhdm (dirOf hhdm r)).2.till st' =
        (x.phys.freed 4 r ++ [r]).foldl Phys.Till.giveBack (x.phys.till st) ∧
      Set.EqOn (x.phys.freePagemap hhdm (dirOf hhdm r)).2.mem x.phys.mem
        (Phys.listBytes (r :: x.phys.freed 4 r))ᶜ := by
  have hl := h.freeable hr hown
  have hok := hl.ok r List.mem_cons_self
  have hptr : (dirOf hhdm r).pml4 ≠ 0 := hok.block.node_ne
  have hpa : (dirOf hhdm r).pml4Pa ≠ 0 := hok.block.pa_ne
  have hphys : (x.phys.freePagemap hhdm (dirOf hhdm r)).2 =
      (x.phys.freeLevels hhdm 3 (tablePtr hhdm r)).free hhdm (framePa r) 1 := by
    unfold Phys.freePagemap Phys.freeTable
    rw [if_neg (not_or.mpr ⟨hptr, hpa⟩)]
    rfl
  rw [hphys]
  obtain ⟨st₁, h₁, htill₁, hmem₁⟩ := Phys.freeLevels_inOrder 3 x.phys st r h.tables.stocked hl
  have hr₁ : r ∉ st₁.pool := by
    intro hm
    rcases Phys.pool_of_giveBack htill₁ (fun g hg => hl.ok g (List.mem_cons_of_mem _ hg)) hm with
      hm | hm
    · exact hl.apart r List.mem_cons_self hm
    · exact (List.nodup_cons.mp hl.nodup).1 hm
  obtain ⟨st₂, h₂, htill₂, hmem₂⟩ := h₁.free hok hr₁
  refine ⟨st₂, h₂, ?_, (hmem₂.mono ?_).trans hmem₁⟩
  · rw [List.foldl_append, ← htill₁, List.foldl_cons, List.foldl_nil]
    exact htill₂
  · exact fun y hy hyr => hy (List.mem_cons.mpr (.inl hyr))

theorem freePagemap_phys :
    ∃ st', (x.phys.freePagemap hhdm (dirOf hhdm r)).2.Stocked hhdm st' ∧
      st'.pool ⊆ st.pool ∪ {f | f ∈ r :: x.phys.freed 4 r} ∧
      Set.EqOn (x.phys.freePagemap hhdm (dirOf hhdm r)).2.mem x.phys.mem
        (Phys.listBytes (r :: x.phys.freed 4 r))ᶜ := by
  obtain ⟨st', h', htill, hmem⟩ := h.freePagemap_till hr hown
  have hperm : (x.phys.freed 4 r ++ [r]).Perm (r :: x.phys.freed 4 r) :=
    List.perm_append_singleton _ _
  have hpool := Phys.pool_of_giveBack htill fun g hg =>
    (h.freeable hr hown).ok g (hperm.mem_iff.mp hg)
  exact ⟨st', h', fun f hf => (hpool hf).imp_right hperm.mem_iff.mp, hmem⟩

/-- **A directory is freed.** -/
theorem freePagemap :
    ∃ st', Coherent hhdm ⟨(x.phys.freePagemap hhdm (dirOf hhdm r)).2, x.kernel,
        x.live.erase (dirOf hhdm r)⟩ st' K (R.erase r) ∧
      ∀ r' ∈ R.erase r, SameLower x.phys (x.phys.freePagemap hhdm (dirOf hhdm r)).2 r' := by
  obtain ⟨st', hst, hpool, hmem⟩ := h.freePagemap_phys hr hown
  generalize (x.phys.freePagemap hhdm (dirOf hhdm r)).2 = s' at hst hmem
  have hnd : R.Nodup := (List.nodup_cons.mp h.distinct).2
  have hsub : spacePlaces K (R.erase r) ⊆ spacePlaces K R := fun z hz =>
    ⟨hz.1, hz.2.imp_right fun hz => ⟨List.mem_of_mem_erase hz.1, hz.2⟩⟩
  have hne : ∀ {r' p}, (r', p) ∈ spacePlaces K (R.erase r) → r' ≠ r := by
    intro r' p hp e
    rcases hp.2 with ⟨hK, -⟩ | ⟨hm, -⟩
    · exact h.ne_kernel hr (e.symm.trans hK)
    · exact (List.Nodup.mem_erase_iff hnd).mp hm |>.1 e
  have hkept : ∀ n ∈ x.phys.frames (spacePlaces K (R.erase r)),
      n ∉ st'.pool ∧ ∀ j : Fin 512, s'.pte n j = x.phys.pte n j := by
    intro n hn
    obtain ⟨r', p, hp, hat⟩ := hn
    have hnot := h.not_freed hr hown (hsub hp) (hne hp) hat
    refine ⟨fun hm => ?_, fun j => ?_⟩
    · rcases hpool hm with hm | hm
      · exact h.tables.forest.used (hsub hp) hat hm
      · exact hnot hm
    · apply Phys.pte_congr (hmem.mono _) j.isLt
      intro y hy hyl
      have hy : y / 4096 = n := hy
      exact hnot (hy ▸ hyl)
  have hlive : x.live.erase (dirOf hhdm r) = (R.erase r).map (dirOf hhdm) := by
    rw [h.live]
    exact map_erase_dirOf (h.tables.root (mem_process hr)) fun r' hr' =>
      h.tables.root (mem_process (K := K) hr')
  rw [hlive]
  exact ⟨st', h.same List.erase_sublist hst hkept⟩

end free

/-! ## Runs -/

theorem mem_live (h : Coherent hhdm x st K R) {d : PageDirectory} (hd : d ∈ x.live) :
    ∃ r ∈ R, d = dirOf hhdm r ∧ d.root = r := by
  rw [h.live] at hd
  obtain ⟨r, hr, rfl⟩ := List.mem_map.mp hd
  exact ⟨r, hr, rfl, dirOf_root (h.tables.root (mem_process hr))⟩

/-- One step: the invariant is kept, and so is the lower half of every process that the step is not
about. -/
theorem next (h : Coherent hhdm x st K R) {c : SpaceCall} (hc : x.Allowed hhdm c)
    (hs : x.next hhdm c = .ok x') :
    ∃ st' R', Coherent hhdm x' st' K R' ∧ ∀ d ∈ x.live, d ∈ x'.live →
      (∀ pa va length flags, c ≠ .mapProcess d pa va length flags) →
      SameLower x.phys x'.phys d.root := by
  cases c with
  | create isUser =>
    obtain ⟨y, hy, hx'⟩ := bind_ok.mp hs
    cases hx'
    obtain ⟨m, st', -, h', hsame, -⟩ := (h.newSpace isUser).of_ok hy
    refine ⟨st', _, h', fun d hd _ _ => ?_⟩
    obtain ⟨r, hr, -, hroot⟩ := h.mem_live hd
    rw [hroot]
    exact hsame r hr
  | mapKernel pa va length flags =>
    obtain ⟨s', hs', hx'⟩ := bind_ok.mp hs
    cases hx'
    obtain ⟨st', h', hsame⟩ := h.mapKernel hc hs'
    refine ⟨st', _, h', fun d hd _ _ => ?_⟩
    obtain ⟨r, hr, -, hroot⟩ := h.mem_live hd
    rw [hroot]
    exact hsame r hr
  | mapProcess d₀ pa va length flags =>
    obtain ⟨s', hs', hx'⟩ := bind_ok.mp hs
    cases hx'
    obtain ⟨r₀, hr₀, rfl, -⟩ := h.mem_live hc.1
    obtain ⟨st', h', hsame⟩ := h.mapProcess hr₀ hc.2 hs'
    refine ⟨st', _, h', fun d hd _ hne => ?_⟩
    obtain ⟨r, hr, rfl, hroot⟩ := h.mem_live hd
    rw [hroot]
    refine hsame r hr ?_
    rintro rfl
    exact hne pa va length flags rfl
  | freePagemap d₀ =>
    cases hs
    obtain ⟨r₀, hr₀, rfl, -⟩ := h.mem_live hc.1
    obtain ⟨st', h', hsame⟩ := h.freePagemap hr₀ (h.owned hr₀ hc.2)
    refine ⟨st', _, h', fun d _ hd' _ => ?_⟩
    obtain ⟨r, hr, -, hroot⟩ := h'.mem_live hd'
    rw [hroot]
    exact hsame r hr
  | alloc count =>
    obtain ⟨y, hy, hx'⟩ := bind_ok.mp hs
    cases hx'
    obtain ⟨st', h', hsame⟩ := h.alloc hy
    refine ⟨st', _, h', fun d hd _ _ => ?_⟩
    obtain ⟨r, hr, -, hroot⟩ := h.mem_live hd
    rw [hroot]
    exact hsame r hr
  | write addr value =>
    cases hs
    obtain ⟨h', hsame⟩ := h.write hc.1 hc.2 value
    refine ⟨st, _, h', fun d hd _ _ => ?_⟩
    obtain ⟨r, hr, -, hroot⟩ := h.mem_live hd
    rw [hroot]
    exact hsame r hr

end Coherent

namespace Spaces

/-- **Every reachable state is coherent.** -/
theorem coherent (h : (runs hhdm).Reachable x) : ∃ st K R, Coherent hhdm x st K R := by
  refine System.Reachable.invariant (I := fun x => ∃ st K R, Coherent hhdm x st K R) ?_ ?_ h
  · intro x hx
    obtain ⟨hlive, s, st, hst, hs⟩ := hx
    obtain ⟨K, st', h', -⟩ := (Coherent.newKernelSpace hst).of_ok hs
    obtain ⟨phys, kernel, live⟩ := x
    cases hlive
    exact ⟨st', K, [], h'⟩
  · intro x c x' hx hstep
    obtain ⟨st, K, R, hx⟩ := hx
    obtain ⟨st', R', h', -⟩ := hx.next hstep.1 hstep.2
    exact ⟨st', K, R', h'⟩

private theorem runs_of_runsIn {memory : Set Nat} (h : (runsIn hhdm memory).Reachable x) :
    (runs hhdm).Reachable x := by
  induction h with
  | init hx =>
    obtain ⟨hlive, s, st, hst, -, hs⟩ := hx
    exact .init ⟨hlive, s, st, hst, hs⟩
  | step _ hs ih => exact ih.step ⟨hs.1.1, hs.2⟩

/-- **Address spaces are coherent and isolated**, under any calls that spare the direct map. In every
state of a run every live process walks the upper half as the kernel directory does; and a step that
is not about a process, and after which it is still live, leaves its lower half as it was. -/
theorem spaces_coherent_isolated {memory : Set Nat} (h : (runsIn hhdm memory).Reachable x) :
    (∀ d ∈ x.live, ∀ v, 256 ≤ index 39 v →
      x.phys.walk d.root v = x.phys.walk x.kernel.root v) ∧
    ∀ c x', x.Allowed hhdm c → x.SparesDirectMap hhdm memory c → x.next hhdm c = .ok x' →
      ∀ d ∈ x.live, d ∈ x'.live → (∀ pa va length flags, c ≠ .mapProcess d pa va length flags) →
      ∀ v, index 39 v < 256 → x'.phys.walk d.root v = x.phys.walk d.root v := by
  obtain ⟨st, K, R, hx⟩ := coherent (runs_of_runsIn h)
  constructor
  · intro d hd v hv
    obtain ⟨r, hr, -, hroot⟩ := hx.mem_live hd
    have hK : x.kernel.root = K := by
      rw [hx.kernel]
      exact dirOf_root (hx.tables.root (mem_kernel K R))
    rw [hroot, hK]
    exact hx.walk_upper hr hv
  · intro c x' hc _ hs d hd hd' hne v hv
    obtain ⟨st', R', -, hsame⟩ := hx.next hc hs
    exact (hsame d hd hd' hne).walk hv

/-- A memory map with one region of a thousand pages. -/
def oneRegion : List MemmapEntry := [⟨0x1000, 0x3e8000, .usable⟩]

theorem oneRegion_ok : MemmapOk hhdm₀ oneRegion := by
  refine ⟨fun e he => ?_, List.pairwise_singleton _ _⟩
  rw [List.mem_singleton.mp (show e ∈ [MemmapEntry.mk 0x1000 0x3e8000 .usable] from he)]
  exact ⟨by decide, by decide, by decide, by decide⟩

theorem oneRegion_stocked (mem : Mem) :
    (Phys.initPmm hhdm₀ oneRegion mem).Stocked hhdm₀
      (Arena.init oneRegion_ok).stock where
  holds := (initPmm_holds oneRegion_ok mem).1
  low p hp := by
    obtain ⟨b, hb, -, hlt⟩ := hp
    have hend : ∀ c ∈ [Block.mk 0x1000 1000], c.start + max c.numPages.toNat 1 ≤ 2 ^ 36 := by decide
    exact Nat.lt_of_lt_of_le hlt (hend b hb)

/-- The pages of that region. -/
theorem oneRegion_pool : (Arena.init oneRegion_ok).stock.pool ⊆ Set.Icc 1 1000 := by
  intro f hf
  obtain ⟨b, hb, hlo, hhi⟩ := hf
  have hbounds : ∀ c ∈ [Block.mk 0x1000 1000], c.start = 1 ∧ max c.numPages.toNat 1 = 1000 := by
    decide
  obtain ⟨hstart, hnum⟩ := hbounds b hb
  exact ⟨by omega, by omega⟩

section sample

variable {x : Spaces} {st : Stock hhdm₀} {f : Nat}

/-- A state of a run over that region, and how many pages are free at least. -/
structure Going (x : Spaces) (st : Stock hhdm₀) (K : Nat) (R : List Nat) (free : Nat) :
    Prop where
  reachable : (runsIn hhdm₀ (Set.Icc 1 1000)).Reachable x
  coherent : Coherent hhdm₀ x st K R
  free : free ≤ st.freePages

private theorem exists_kernel : ∃ x st K, Going x st K [] 743 := by
  have hst := oneRegion_stocked fun _ => 0
  have hfree : (Arena.init oneRegion_ok).stock.freePages = 1000 := by decide
  obtain ⟨⟨d, s⟩, hs, K, st, h, hcount⟩ := (Coherent.newKernelSpace hst).exists_ok (by omega)
  exact ⟨⟨s, d, []⟩, st, K, .init ⟨rfl, _, _, hst, oneRegion_pool, hs⟩, h, by omega⟩

theorem Going.create (free : Nat) (h : Going x st K R (free + 257)) : ∃ x' st' m,
    dirOf hhdm₀ m ∈ x'.live ∧ Going x' st' K (m :: R) free := by
  have hfree := h.free
  obtain ⟨⟨d, s⟩, hs, m, st', hd, hcoh, -, hcount⟩ :=
    (h.coherent.newSpace true).exists_ok (by omega)
  have hnext : x.next hhdm₀ (.create true) = .ok ⟨s, x.kernel, d :: x.live⟩ := by
    show (do let r ← x.phys.newSpace hhdm₀ x.kernel true; _) = _
    rw [hs]
    rfl
  refine ⟨_, st', m, ?_, h.reachable.step (i := .create true) ⟨⟨trivial, trivial⟩, hnext⟩, hcoh,
    by omega⟩
  rw [← hd]
  exact List.mem_cons_self

/-- A page is taken, and is not free any more. -/
theorem Going.alloc (free : Nat) (h : Going x st K R (free + 1)) : ∃ s' st' f,
    f < 2 ^ 36 ∧ f ∈ st.pool ∧ f ∉ st'.pool ∧ (∀ r ∈ R, SameLower x.phys s' r) ∧
    Going { x with phys := s' } st' K R free := by
  have hfree := h.free
  rcases h.coherent.tables.stocked.alloc 1 with ⟨hfull, -⟩ | ⟨f, s₁, st₁, ha, ht⟩
  · exact absurd (st.freePages_eq_zero hfull) (by omega)
  have hone : (1 : Word).toNat = 1 := rfl
  have hbelow := ht.below
  have hcount := ht.count
  have hmine : f ∈ Set.Ico f (f + (1 : Word).toNat) := ⟨le_rfl, by omega⟩
  obtain ⟨htab, hk, -, hleaf⟩ := h.coherent.tables.took ht
  have hnext : x.next hhdm₀ (.alloc 1) = .ok { x with phys := s₁ } := by
    show (do let r ← x.phys.alloc hhdm₀ 1; _) = _
    rw [ha]
    rfl
  refine ⟨s₁, st₁, f, by omega, ht.taken hmine, fun hf => (ht.rest hf).2 hmine, ?_,
    h.reachable.step (i := .alloc 1) ⟨⟨trivial, trivial⟩, hnext⟩, h.coherent.keep htab hk, by omega⟩
  intro r hr p hlen hlow j
  exact hleaf (mem_lower hr (Nat.le_of_eq hlen) hlow) j

/-- A page is mapped in a process. -/
theorem Going.map (free : Nat) (h : Going x st K R (free + 3)) {r : Nat} (hr : r ∈ R)
    (hf : f < 2 ^ 36) :
    x.Allowed hhdm₀ (.mapProcess (dirOf hhdm₀ r) (framePa f) 0x400000 0x1000
      (present ||| user)) ∧
    ∃ s' st', x.next hhdm₀ (.mapProcess (dirOf hhdm₀ r) (framePa f) 0x400000
        0x1000 (present ||| user)) = .ok { x with phys := s' } ∧
      s'.walk r 0x400000 = some (framePa f ||| (present ||| user)) ∧ st'.pool ⊆ st.pool ∧
      Going { x with phys := s' } st' K R free := by
  have hfree := h.free
  have hindex : index 39 0x400000 < 256 := by decide
  obtain ⟨s', st', hs', hm, hwalk, hcount⟩ := h.coherent.tables.map_page (r := r)
    (fun p hp => mem_lower hr hp.length_le (lower_tablePath hindex hp)) hf
    (show Present (present ||| user) by decide) (by omega)
  have hnext : x.next hhdm₀ (.mapProcess (dirOf hhdm₀ r) (framePa f)
      0x400000 0x1000 (present ||| user)) = .ok { x with phys := s' } := by
    show (do let s ← x.phys.map hhdm₀ (tablePtr hhdm₀ r) _ _ _ _; _) = _
    rw [hs']
    rfl
  have hallowed : x.Allowed hhdm₀ (.mapProcess (dirOf hhdm₀ r) (framePa f)
      0x400000 0x1000 (present ||| user)) := by
    refine ⟨h.coherent.live ▸ List.mem_map_of_mem hr, fun off hoff => ?_⟩
    have hoff : off.toNat < 0x1000 := BitVec.lt_def.mp hoff
    have hva : (0x400000 : Word).toNat = 0x400000 := rfl
    rw [index_eq level39, BitVec.toNat_add, hva]
    omega
  exact ⟨hallowed, s', st', hnext, hwalk, hm.keeps.pool,
    h.reachable.step ⟨⟨hallowed, trivial⟩, hnext⟩, h.coherent.keep hm.tables hm.keeps, by omega⟩

end sample

/-- The kernel directory is filled, and a user process is created. -/
theorem exists_user : ∃ x : Spaces, (runs hhdm₀).Reachable x ∧ ∃ d, d ∈ x.live := by
  obtain ⟨x₀, st₀, K, h₀⟩ := exists_kernel
  obtain ⟨x, st, m, hd, h⟩ := Going.create 486 h₀
  exact ⟨x, runs_of_runsIn h.reachable, _, hd⟩

/-- A page is mapped at `0x400000` in one process, and then another page at the same address in
another: the first still has its own, and both share the upper half. -/
theorem spaces_coherent_isolated_twoProcesses : ∃ (x x' : Spaces) (d d' : PageDirectory) (f g : Nat),
    (runsIn hhdm₀ (Set.Icc 1 1000)).Reachable x ∧ d ∈ x.live ∧ d' ∈ x.live ∧ f ≠ g ∧
    x.next hhdm₀ (.mapProcess d' (framePa g) 0x400000 0x1000 (present ||| user)) =
      .ok x' ∧
    x'.phys.walk d'.root 0x400000 = some (framePa g ||| (present ||| user)) ∧
    x'.phys.walk d.root 0x400000 = some (framePa f ||| (present ||| user)) ∧
    ∀ v, 256 ≤ index 39 v → x.phys.walk d.root v = x.phys.walk d'.root v := by
  obtain ⟨x₀, st₀, K, h₀⟩ := exists_kernel
  obtain ⟨x₁, st₁, m, -, h₁⟩ := Going.create 486 h₀
  obtain ⟨x₂, st₂, m', -, h₂⟩ := Going.create 229 h₁
  obtain ⟨s₃, st₃, f, hf, -, hused, -, h₃⟩ := Going.alloc 228 h₂
  obtain ⟨-, s₄, st₄, -, hwalk, hpool, h₄⟩ := Going.map 225 h₃ (r := m) (by simp) hf
  obtain ⟨s₅, st₅, g, hg, hfree, -, hsame, h₅⟩ := Going.alloc 224 h₄
  obtain ⟨hallowed, s₆, st₆, hnext, hwalk', -, h₆⟩ := Going.map 221 h₅ (r := m') (by simp) hg
  have hne : m ≠ m' := fun e => by
    have hnd := h₂.coherent.distinct
    simp [e] at hnd
  have hroot : ∀ r ∈ [m', m], (dirOf hhdm₀ r).root = r := fun r hr =>
    dirOf_root (h₅.coherent.tables.root (mem_process hr))
  have hlive : ∀ r ∈ [m', m], dirOf hhdm₀ r ∈ x₂.live := fun r hr =>
    h₂.coherent.live ▸ List.mem_map_of_mem hr
  obtain ⟨hupper, hlower⟩ := spaces_coherent_isolated h₅.reachable
  refine ⟨_, _, dirOf hhdm₀ m, dirOf hhdm₀ m', f, g, h₅.reachable,
    hlive m (by simp), hlive m' (by simp), ?_, hnext, ?_, ?_, ?_⟩
  · rintro rfl
    exact hused (hpool hfree)
  · rw [hroot m' (by simp)]
    exact hwalk'
  · rw [hlower _ _ hallowed trivial hnext _ (hlive m (by simp)) (hlive m (by simp)) ?_ _ (by decide),
      hroot m (by simp), (hsame m (by simp)).walk (by decide)]
    · exact hwalk
    · intro pa va length flags e
      have hd := (SpaceCall.mapProcess.inj e).1
      have hr := congrArg PageDirectory.root hd
      rw [hroot m' (by simp), hroot m (by simp)] at hr
      exact hne hr.symm
  · intro v hv
    rw [hupper _ (hlive m (by simp)) v hv, hupper _ (hlive m' (by simp)) v hv]

end Spaces

end TwoKernel
