import TwoKernel.Laws.Memory.Boot
import TwoKernel.Laws.Memory.Permissions

/-!
# The kernel half stays protected

`Vmm::init` maps the direct map and the data of the kernel with `WRITEABLE | NX`, the
constants with `NX`, and the text with neither. From then on the kernel maps only
into processes: `elf_load` is the one caller of `map` left. Processes are made and
freed, pages change hands and are written.

**The law.** In every state of such a run, and in the directory of every process, the
upper half is what `Vmm::init` made it. User code has no access to it, no page of it
can be both written and executed, and the pages that can be executed are those of the
kernel's text (`kernel_half_protected`).

The argument is about pages, not about entries: a step writes no byte of the kernel's
own tables (`Untouched`). What it does write is in free pages, in the tables of the
process it is about, or in no table at all; and the forest of `Coherent` keeps the
kernel's tables apart from all of these.

A page of the text is also in the direct map, at another address and `WRITEABLE`. The
law is about addresses, as the processor's check is.
-/

namespace TwoKernel

open ByteMem Vmm Trie

/-! ## The system -/

namespace Vmm

/-- What the loader promises, with the direct map in the upper half, and with what is listed and
the text at physical addresses that an entry can hold. -/
structure LoaderHigh (hhdm : Word) (memmap : List MemmapEntry) (image : KernelImage) : Prop where
  ok : LoaderOk hhdm memmap image
  high : 0xffff800000000000 ≤ hhdm.toNat
  low : ∀ e ∈ memmap, Listed e → ∀ x, Has e x → x.toNat < 2 ^ 48
  text : (image.textStart - image.virtualBase + image.physicalBase).toNat +
    (image.textEnd - image.textStart).toNat ≤ 2 ^ 48

end Vmm

/-- The range has the page of `v`. -/
def Range.Covers (q : Range) (v : Word) : Prop := q.ahead v < pages q.length

instance (q : Range) (v : Word) : Decidable (q.Covers v) := inferInstanceAs (Decidable (_ < _))

/-- The page of `v` is one of the text, and of no part of the image that is mapped after it. -/
def Vmm.KernelImage.IsText (image : KernelImage) (v : Word) : Prop :=
  (image.range image.textStart image.textEnd present).Covers v ∧
    ¬ (image.range image.rodataStart image.rodataEnd (present ||| nx)).Covers v ∧
    ¬ (image.range image.dataStart image.dataEnd directFlags).Covers v

instance (image : KernelImage) (v : Word) : Decidable (image.IsText v) :=
  inferInstanceAs (Decidable (_ ∧ _ ∧ _))

/-- The runs from the end of `Vmm::init` on: whatever is done with processes and pages. -/
def Spaces.booted (hhdm : Word) (memmap : List MemmapEntry) (image : KernelImage) :
    System Spaces SpaceCall :=
  .guarded
    (fun x => x.live = [] ∧ ∃ mem, Vmm.init hhdm memmap image (Phys.initPmm hhdm memmap mem) =
      .ok (x.kernel, x.phys))
    (fun x c => x.Allowed hhdm c ∧ ∀ pa va length flags, c ≠ .mapKernel pa va length flags)
    (Spaces.next hhdm)

/-- The tables of the kernel's upper half. -/
def kernelPlaces (K : Nat) : Set Place := spacePlaces K []

/-- The tables of a process's lower half. -/
def processPlaces (r : Nat) : Set Place := {z | z.2.length ≤ 3 ∧ z.1 = r ∧ Lower z.2}

/-- No entry of the kernel's tables is changed. -/
def Phys.Untouched (K : Nat) (s s' : Phys) : Prop :=
  ∀ n ∈ s.frames (kernelPlaces K), ∀ j : Fin 512, s'.pte n j = s.pte n j

/-- Every entry above the leaves is for the kernel only, and takes nothing else away. -/
def Phys.Supervised (K : Nat) (s : Phys) : Prop :=
  ∀ q i a, (K, q ++ [i]) ∈ kernelPlaces K → s.rightsAt K q i = some a → a = ⟨false, true, false⟩

/-- What is left of the permissions of a leaf entry below entries that are for the kernel only. -/
def Vmm.supervised (e : Word) : Rights := ⟨false, (Rights.of e).writeable, (Rights.of e).noExec⟩

variable {hhdm : Word} {s s' s'' : Phys} {st st' : Stock hhdm} {K r n : Nat} {R : List Nat}
  {p q : List (Fin 512)} {i j : Fin 512} {v a e : Word} {x x' : Spaces} {l : List Range}
  {memmap : List MemmapEntry} {image : KernelImage}

private theorem mem_kernelPlaces : (r, p) ∈ kernelPlaces K ↔ r = K ∧ p.length ≤ 3 ∧ Upper p := by
  unfold kernelPlaces spacePlaces
  simp only [Set.mem_ofPred_eq, List.not_mem_nil, false_and, or_false]
  exact and_left_comm

private theorem kernelPlaces_subset : kernelPlaces K ⊆ spacePlaces K R := by
  rintro ⟨r, p⟩ hp
  obtain ⟨hr, hlen, hup⟩ := mem_kernelPlaces.mp hp
  exact ⟨hlen, .inl ⟨hr, hup⟩⟩

private theorem processPlaces_subset (hr : r ∈ R) : processPlaces r ⊆ spacePlaces K R := by
  rintro ⟨r', p⟩ ⟨hlen, hr', hlow⟩
  cases hr'
  exact mem_lower hr hlen hlow

private theorem processPlaces_closed (h : (n, p ++ [i]) ∈ processPlaces r) :
    (n, p) ∈ processPlaces r := by
  obtain ⟨hlen, hr, hlow⟩ := h
  rw [List.length_append] at hlen
  exact ⟨Nat.le_of_add_right_le hlen, hr, lower_of_concat hlow⟩

/-! ## Tables that are not touched -/

namespace Phys.Untouched

private theorem of_eqOn {P : Set Nat} (hmem : Set.EqOn s'.mem s.mem (pageBytes P)ᶜ)
    (hP : ∀ n ∈ s.frames (kernelPlaces K), n ∉ P) : Untouched K s s' := by
  intro n hn j
  apply pte_congr (hmem.mono _) j.isLt
  intro y hy hyP
  have hy : y / 4096 = n := hy
  exact hP n hn (hy ▸ hyP)

theorem table (h : Untouched K s s') (hp : (K, p) ∈ kernelPlaces K) :
    s'.table K p = s.table K p := by
  apply descend_congr
  intro q i hq n hn
  -- the tables on the way are the kernel's as well
  have hqi : (K, q ++ [i]) ∈ kernelPlaces K := by
    obtain ⟨-, hlen, hup⟩ := mem_kernelPlaces.mp hp
    refine mem_kernelPlaces.mpr ⟨rfl, hq.length_le.trans hlen, ?_⟩
    obtain ⟨t, rfl⟩ := hq
    cases q with
    | nil => exact hup
    | cons _ _ => exact hup
  exact link_congr (h n ⟨K, q, spacePlaces_closed hqi, hn⟩ i)

theorem frames (h : Untouched K s s') : s'.frames (kernelPlaces K) = s.frames (kernelPlaces K) := by
  ext n
  constructor
  · rintro ⟨r, p, hp, hat⟩
    obtain ⟨rfl, -⟩ := mem_kernelPlaces.mp hp
    exact ⟨r, p, hp, (h.table hp).symm.trans hat⟩
  · rintro ⟨r, p, hp, hat⟩
    obtain ⟨rfl, -⟩ := mem_kernelPlaces.mp hp
    exact ⟨r, p, hp, (h.table hp).trans hat⟩

theorem trans (h : Untouched K s s') (h' : Untouched K s' s'') : Untouched K s s'' := by
  intro n hn j
  rw [h' n (h.frames ▸ hn) j, h n hn j]

/-- The entries along the path of an address of the upper half. -/
theorem leafAt (h : Untouched K s s') (hp : (K, p) ∈ kernelPlaces K) :
    s'.leafAt K p j = s.leafAt K p j :=
  Tables.leafAt_kept (h.table hp) fun n hn => h n ⟨K, p, hp, hn⟩ j

end Phys.Untouched

/-- The places along the path of an address of the upper half are the kernel's. -/
theorem mem_kernelPlaces_of_path (hv : 256 ≤ index 39 v) (hp : p <+: tablePath v) :
    (K, p) ∈ kernelPlaces K :=
  mem_kernelPlaces.mpr ⟨rfl, hp.length_le, upper_tablePath hv hp⟩

namespace Phys

/-- Permissions are found where the walk finds an entry. -/
theorem effective_isSome : (s.effective K v).isSome = (s.walk K v).isSome := by
  unfold effective walk
  cases s.nextFrame K (index 39 v) with
  | none => rfl
  | some pdpt =>
    simp only [Option.bind_eq_bind, Option.bind_some]
    cases s.nextFrame pdpt (index 30 v) with
    | none => rfl
    | some pd =>
      simp only [Option.bind_some]
      cases s.nextFrame pd (index 21 v) with
      | none => rfl
      | some pt =>
        simp only [Option.bind_some]
        split
        · rfl
        · rfl

/-- The entry above a table is there. -/
theorem rightsAt_of_concat (h : s.table K (q ++ [i]) = some n) :
    (∃ m, s.table K q = some m) ∧ ∃ a, s.rightsAt K q i = some a := by
  have hdesc : s.table K (q ++ [i]) = (s.table K q).bind fun m => s.link m i := descend_concat ..
  rw [hdesc] at h
  obtain ⟨m, hm, hlink⟩ := Option.bind_eq_some_iff.mp h
  refine ⟨⟨m, hm⟩, Rights.of (s.pte m i), ?_⟩
  rw [rightsAt_of_table hm, hlink]
  rfl

/-- The entries on the way to a leaf entry are there. -/
theorem exists_way (h : s.walk K v = some e) : ∃ a b c,
    s.rightsAt K [] (slot level39 v) = some a ∧
    s.rightsAt K [slot level39 v] (slot level30 v) = some b ∧
    s.rightsAt K [slot level39 v, slot level30 v] (slot level21 v) = some c := by
  rw [walk_eq] at h
  obtain ⟨n, hn, -⟩ := Option.bind_eq_some_iff.mp h
  obtain ⟨⟨pd, hpd⟩, c, hc⟩ := rightsAt_of_concat (q := [slot level39 v, slot level30 v]) hn
  obtain ⟨⟨pdpt, hpdpt⟩, b, hb⟩ := rightsAt_of_concat (q := [slot level39 v]) hpd
  obtain ⟨-, a, ha⟩ := rightsAt_of_concat (q := []) hpdpt
  exact ⟨a, b, c, ha, hb, hc⟩

private theorem rightsAt_of_walk (h : s.walk K v = some e) :
    s.rightsAt K (tablePath v) (slot level12 v) = some (Rights.of e) := by
  unfold rightsAt
  rw [← walk_eq, h]
  rfl

/-- Below entries that are for the kernel only, the leaf entry decides the rest. -/
theorem Supervised.effective (h : Supervised K s) (hv : 256 ≤ index 39 v) :
    s.effective K v = (s.walk K v).map supervised := by
  cases hw : s.walk K v with
  | none =>
    have hsome : (s.effective K v).isSome = false := by
      rw [effective_isSome, hw]
      rfl
    simpa using hsome
  | some e =>
    obtain ⟨a, b, c, ha, hb, hc⟩ := exists_way hw
    rw [effective_of_rightsAt ha hb hc (rightsAt_of_walk hw),
      h [] _ a (mem_kernelPlaces_of_path hv ⟨_, rfl⟩) ha,
      h [_] _ b (mem_kernelPlaces_of_path hv ⟨_, rfl⟩) hb,
      h [_, _] _ c (mem_kernelPlaces_of_path hv List.prefix_rfl) hc]
    rfl

theorem Untouched.walk (h : Untouched K s s') (hv : 256 ≤ index 39 v) :
    s'.walk K v = s.walk K v := by
  rw [walk_eq, walk_eq]
  exact h.leafAt (mem_kernelPlaces_of_path hv List.prefix_rfl)

private theorem Untouched.supervised (h : Untouched K s s') (hs : Supervised K s) : Supervised K s' := by
  intro q i a hp ha
  apply hs q i a hp
  unfold rightsAt at ha ⊢
  rwa [h.leafAt (spacePlaces_closed hp)] at ha

end Phys

/-! ## The steps -/

namespace Coherent

/-- A table of the kernel's upper half is not in a free page. -/
theorem kernel_used (h : Coherent hhdm x st K R) (hn : n ∈ x.phys.frames (kernelPlaces K)) :
    n ∉ st.pool := by
  obtain ⟨r, p, hp, hat⟩ := hn
  exact h.tables.forest.used (kernelPlaces_subset hp) hat

/-- The tables of a process by themselves. -/
theorem processTables (h : Coherent hhdm x st K R) (hr : r ∈ R) :
    x.phys.Tables hhdm st (processPlaces r) := by
  refine (h.tables.restrict (processPlaces_subset hr) processPlaces_closed h.tables.stocked ?_).1
  rintro n ⟨r', p, hp, hat⟩
  exact ⟨h.tables.forest.used (processPlaces_subset hr hp) hat, fun _ => rfl⟩

/-- What is done to the tables of a process is not done to the kernel's. -/
theorem untouched_of_keeps (h : Coherent hhdm x st K R) (hr : r ∈ R)
    (hk : Phys.Keeps (processPlaces r) x.phys st s' st') : Phys.Untouched K x.phys s' := by
  refine .of_eqOn hk.mem fun n hn hP => ?_
  rcases hP with ⟨r', p, hp, hat⟩ | hpool
  · obtain ⟨K', q, hq, hat'⟩ := hn
    obtain ⟨hK, -, -⟩ := mem_kernelPlaces.mp hq
    have hsole := h.tables.forest.sole (processPlaces_subset hr hp) (kernelPlaces_subset hq) hat hat'
    exact h.ne_kernel hr (hp.2.1.symm.trans (hsole.1.trans hK))
  · exact h.kernel_used hn hpool

private theorem mapProcess_untouched (h : Coherent hhdm x st K R) (hr : r ∈ R) {pa va length flags : Word}
    (hva : ∀ off, off < length → index 39 (va + off) < 256)
    (hs : x.phys.map hhdm (dirOf hhdm r).pml4 pa va length flags = .ok s') :
    Phys.Untouched K x.phys s' := by
  obtain ⟨st', -, hk, -⟩ := (h.processTables hr).map_kept (fun off hoff p _ hp =>
    ⟨hp.length_le, rfl, lower_tablePath (hva off hoff) hp⟩) hs
  exact h.untouched_of_keeps hr hk

private theorem alloc_untouched (h : Coherent hhdm x st K R) {count : Word}
    (hs : x.phys.alloc hhdm count = .ok (a, s')) : Phys.Untouched K x.phys s' := by
  rcases h.tables.stocked.alloc count with ⟨-, ha⟩ | ⟨f, s₁, st₁, ha, ht⟩
  · cases hs.symm.trans ha
    exact fun _ _ _ => rfl
  · cases hs.symm.trans ha
    exact .of_eqOn ht.mem fun n hn => h.kernel_used hn

private theorem write_untouched (h : Coherent hhdm x st K R) {addr : Nat}
    (htab : ¬ x.IsTable (addr / 4096))
    (value : Byte) : Phys.Untouched K x.phys
      { x.phys with mem := Function.update x.phys.mem addr value } := by
  refine .of_eqOn (P := {addr / 4096}) ?_ ?_
  · intro y hy
    apply Function.update_of_ne
    rintro rfl
    exact hy rfl
  · rintro n ⟨r, p, hp, hat⟩ hn
    cases Set.mem_singleton_iff.mp hn
    exact htab (h.isTable ⟨r, p, kernelPlaces_subset hp, hat⟩)

private theorem freePagemap_untouched (h : Coherent hhdm x st K R) (hr : r ∈ R)
    (hown : Owned hhdm x.phys st (spacePlaces K R) r) :
    Phys.Untouched K x.phys (x.phys.freePagemap hhdm (dirOf hhdm r)).2 := by
  obtain ⟨st', -, -, hmem⟩ := h.freePagemap_phys hr hown
  refine .of_eqOn hmem ?_
  rintro n ⟨K', p, hp, hat⟩
  obtain ⟨rfl, -⟩ := mem_kernelPlaces.mp hp
  exact h.not_freed hr hown (kernelPlaces_subset hp) (h.ne_kernel hr).symm hat

/-- The kernel half is copied into the page of the new directory. -/
theorem processFillKernelEntries_eqOn (hm : n < 2 ^ 52) (kernel : PageDirectory) (s : Phys) :
    Set.EqOn (s.processFillKernelEntries hhdm kernel (dirOf hhdm n)).mem s.mem (pageBytes {n})ᶜ := by
  unfold Phys.processFillKernelEntries
  have hrange : ∀ i ∈ List.range' 256 256, i < 512 := fun i hi => (mem_range' hi).2
  generalize List.range' 256 256 = l at hrange
  induction l generalizing s with
  | nil => exact Set.eqOn_refl _ _
  | cons i l ih =>
    rw [List.foldl_cons]
    refine (ih _ fun j hj => hrange j (List.mem_cons_of_mem _ hj)).trans ?_
    exact Phys.setEntry_eqOn hm (hrange i List.mem_cons_self)

private theorem newSpace_untouched (h : Coherent hhdm x st K R) {isUser : Bool} {y : PageDirectory × Phys}
    (hs : x.phys.newSpace hhdm x.kernel isUser = .ok y) : Phys.Untouched K x.phys y.2 := by
  unfold Phys.newSpace at hs
  obtain ⟨z, hz, hs⟩ := bind_ok.mp hs
  obtain ⟨m, st₁, hd, hnew⟩ := (newPagemap h.tables.stocked).of_ok hz
  rw [hd] at hs
  have hm : m < 2 ^ 52 := Nat.lt_trans (h.tables.stocked.low m hnew.taken) (by decide)
  have hcopied : Phys.Untouched K x.phys
      (z.2.processFillKernelEntries hhdm x.kernel (dirOf hhdm m)) := by
    refine .of_eqOn (P := st.pool) ?_ fun n hn => h.kernel_used hn
    refine ((processFillKernelEntries_eqOn hm x.kernel z.2).mono ?_).trans hnew.mem
    intro y hy hym
    have hym : y / 4096 = m := hym
    exact hy (show y / 4096 ∈ st.pool from hym ▸ hnew.taken)
  generalize hs₂ : z.2.processFillKernelEntries hhdm x.kernel (dirOf hhdm m) = s₂ at hs hcopied
  rw [h.kernel] at hs₂
  obtain ⟨h₂, -, hzero⟩ := h.plantCopy hnew hs₂.symm
  cases isUser with
  | false =>
    cases hs
    exact hcopied
  | true =>
    obtain ⟨s₃, hs₃, hs⟩ := bind_ok.mp hs
    cases hs
    have hmem : m ∈ m :: R := List.mem_cons_self
    have hv : Phys.Tables.Vacant s₂ (processPlaces m) m (List.range 256) := by
      obtain ⟨hnodup, hslots⟩ := vacant_lower (K := K) hmem hzero
      refine ⟨hnodup, fun k hk => ?_⟩
      obtain ⟨hk512, -, hempty⟩ := hslots k hk
      exact ⟨hk512, ⟨show 1 ≤ 3 by decide, rfl, List.mem_range.mp hk⟩, hempty⟩
    obtain ⟨st₃, hfilled⟩ := (Phys.Tables.fillEntries
      (show (present ||| writeable ||| user) &&& paddrMask = 0 by decide) (by decide)
      (List.range 256) (h₂.processTables hmem) hv).of_ok hs₃
    exact hcopied.trans (h₂.untouched_of_keeps hmem hfilled.keeps)

/-- **No step touches the kernel's tables**, once the kernel maps nothing more for itself. -/
theorem next_untouched (h : Coherent hhdm x st K R) {c : SpaceCall} (hc : x.Allowed hhdm c)
    (hkernel : ∀ pa va length flags, c ≠ .mapKernel pa va length flags)
    (hs : x.next hhdm c = .ok x') : Phys.Untouched K x.phys x'.phys := by
  cases c with
  | create isUser =>
    obtain ⟨y, hy, hx'⟩ := bind_ok.mp hs
    cases hx'
    exact h.newSpace_untouched hy
  | mapKernel pa va length flags => exact absurd rfl (hkernel pa va length flags)
  | mapProcess d pa va length flags =>
    obtain ⟨s', hs', hx'⟩ := bind_ok.mp hs
    cases hx'
    obtain ⟨r, hr, rfl, -⟩ := h.mem_live hc.1
    exact h.mapProcess_untouched hr hc.2 hs'
  | freePagemap d =>
    cases hs
    obtain ⟨r, hr, rfl, -⟩ := h.mem_live hc.1
    exact h.freePagemap_untouched hr (h.owned hr hc.2)
  | alloc count =>
    obtain ⟨y, hy, hx'⟩ := bind_ok.mp hs
    cases hx'
    exact h.alloc_untouched hy
  | write addr value =>
    cases hs
    exact h.write_untouched hc.2 value

end Coherent

/-! ## Boot -/

namespace Phys

/-- Tables that are made for the kernel only keep the rest so. -/
theorem Gives.supervised {Y : Set Place} (h : Gives (kernelPlaces K) Y ⟨false, true, false⟩ s s')
    (hs : Supervised K s) : Supervised K s' := by
  intro q i a hp ha
  by_cases hY : (K, q ++ [i]) ∈ Y
  · rw [h.inside hp hY] at ha
    cases hold : s.rightsAt K q i with
    | none =>
      rw [hold] at ha
      cases ha
      rfl
    | some b =>
      rw [hold] at ha
      cases ha
      exact hs q i b hp hold
  · rw [h.outside hp hY] at ha
    exact hs q i a hp ha

private theorem map_supervised (h : Tables hhdm s st (kernelPlaces K)) (hs : Supervised K s)
    {pa va length flags : Word} (hva : ∀ off, off < length → 256 ≤ index 39 (va + off))
    (hflags : flags &&& user = 0) (hmap : s.map hhdm (tablePtr hhdm K) pa va length flags = .ok s') :
    Supervised K s' := by
  have hrights : Rights.of (Tables.tableFlags flags) = ⟨false, true, false⟩ := by
    unfold Tables.tableFlags
    rw [if_neg (not_not.mpr hflags)]
    rfl
  refine (eachPage_invariant (I := fun s' => (∃ st', Tables hhdm s' st' (kernelPlaces K)) ∧
    Supervised K s') ?_ walkFuel 0 s ⟨⟨st, h⟩, hs⟩ hmap).2
  rintro off s₁ s₂ hoff ⟨⟨st₁, h₁⟩, hsup⟩ hs₂
  have hplaces : ∀ p, p ≠ [] → p <+: tablePath (va + off) → (K, p) ∈ kernelPlaces K :=
    fun p _ hp => mem_kernelPlaces_of_path (hva off hoff) hp
  have hgives := h₁.mapPage_gives hplaces hs₂
  rw [hrights] at hgives
  obtain ⟨st₂, hm⟩ := (h₁.mapPage (h₁.placesOf_finite K) Tables.placesOf_subset
    (fun p hne hp => ⟨hplaces p hne hp, rfl⟩) pa flags).of_ok hs₂
  exact ⟨⟨st₂, hm.tables⟩, hgives.supervised hsup⟩

/-- `fill_kernel_entries` makes its tables for the kernel only. -/
theorem newKernelSpace_supervised (h : s.Stocked hhdm st) {y : PageDirectory × Phys}
    (hs : s.newKernelSpace hhdm = .ok y) (hK : K < 2 ^ 52) (hy : y.1 = dirOf hhdm K) :
    Supervised K y.2 := by
  unfold newKernelSpace at hs
  obtain ⟨z, hz, hs⟩ := bind_ok.mp hs
  obtain ⟨m, st₁, hd, hnew⟩ := (Coherent.newPagemap h).of_ok hz
  obtain ⟨s₂, hs₂, hs⟩ := bind_ok.mp hs
  cases hs
  have hroot : (dirOf hhdm K).root = K := dirOf_root hK
  have hm : m = K := by
    rw [← hroot, ← hy, hd, dirOf_root (Nat.lt_trans (h.low m hnew.taken) (by decide))]
  subst hm
  have hempty : s.Tables hhdm st ∅ := ⟨h, ⟨by simp, by simp, by simp⟩, by simp, by simp⟩
  obtain ⟨h₁, -⟩ := hempty.plant hnew (Coherent.halfPaths Upper) (fun p hp => hp.1)
    (Coherent.halfPaths_closed upper_of_concat)
  have hplaces : (∅ : Set Place) ∪ {z | z.1 = m ∧ z.2 ∈ Coherent.halfPaths Upper} =
      kernelPlaces m := by
    ext ⟨r, p⟩
    rw [Set.empty_union, mem_kernelPlaces]
    rfl
  rw [hplaces] at h₁
  have hv : Tables.Vacant z.2 (kernelPlaces m) m (List.range' 256 256) := by
    refine ⟨List.nodup_range', fun k hk => ?_⟩
    obtain ⟨hlo, hhi⟩ := Coherent.mem_range' hk
    refine ⟨hhi, mem_kernelPlaces.mpr ⟨rfl, show 1 ≤ 3 by decide, hlo⟩, ?_⟩
    rw [hnew.zero k hhi]
    decide
  rw [hd] at hs₂
  have hgives := Tables.fillEntries_gives (show (present ||| writeable) &&& paddrMask = 0 by decide)
    (by decide) (List.range' 256 256) h₁ hv hs₂
  refine Gives.supervised hgives ?_
  intro q i a _ ha
  -- before, the root is the only table, and it is empty
  have hzero : ∀ j : Fin 512, z.2.pte m j = 0 := fun j => hnew.zero j j.isLt
  obtain ⟨e, he, -⟩ := Option.map_eq_some_iff.mp ha
  obtain ⟨n, hn, hleaf⟩ := Option.bind_eq_some_iff.mp he
  obtain ⟨hpres, hpte, -⟩ := leaf_some hleaf
  rw [(Tables.table_zero hzero hn).2, hzero i] at hpte
  rw [← hpte] at hpres
  exact absurd hpres (by decide)

end Phys

namespace Vmm

/-- A range whose pages are in the upper half, for the kernel only. -/
def Kernels (q : Range) : Prop :=
  (∀ off, off < q.length → 256 ≤ index 39 (q.va + off)) ∧ q.flags &&& user = 0

/-- The ranges that are mapped at boot leave the spaces in order. -/
theorem maps_supervised (hl : ∀ q ∈ l, Kernels q) : ∀ {s : Phys} {st : Stock hhdm},
    Coherent hhdm ⟨s, dirOf hhdm K, []⟩ st K [] → Phys.Supervised K s →
      l.foldlM (Range.map hhdm (dirOf hhdm K)) s = .ok s' →
      (∃ st', Coherent hhdm ⟨s', dirOf hhdm K, []⟩ st' K []) ∧ Phys.Supervised K s' := by
  induction l with
  | nil =>
    intro s st h hsup hs
    cases hs
    exact ⟨⟨st, h⟩, hsup⟩
  | cons q l ih =>
    intro s st h hsup hs
    obtain ⟨hva, hflags⟩ := hl q List.mem_cons_self
    rw [List.foldlM_cons] at hs
    obtain ⟨s₁, hs₁, hs⟩ := bind_ok.mp hs
    obtain ⟨st₁, h₁, -⟩ := h.mapKernel hva hs₁
    exact ih (fun q hq => hl q (List.mem_cons_of_mem _ hq)) h₁
      (Phys.map_supervised h.tables hsup hva hflags hs₁) hs

private theorem index_of_high (h : 0xffff800000000000 ≤ v.toNat) : 256 ≤ index 39 v := by
  have hv := v.isLt
  rw [index_eq level39]
  omega

private theorem LoaderHigh.kernels (h : LoaderHigh hhdm memmap image) {q : Range}
    (hq : q ∈ initRanges hhdm memmap image) : Kernels q := by
  have hpart : ∀ start stop off : Word, 0xffffffff80000000 ≤ start.toNat ∧ start ≤ stop →
      off < stop - start → 256 ≤ index 39 (start + off) := by
    intro start stop off hstart hoff
    have hlen : (stop - start).toNat = stop.toNat - start.toNat := BitVec.toNat_sub_of_le hstart.2
    have hoff : off.toNat < (stop - start).toNat := hoff
    have hstop := stop.isLt
    apply index_of_high
    rw [BitVec.toNat_add]
    omega
  rcases List.mem_append.mp hq with hq | hq
  · obtain ⟨e, he, rfl⟩ := List.mem_map.mp hq
    obtain ⟨hmem, hlisted⟩ := List.mem_filter.mp he
    refine ⟨fun off hoff => ?_, show directFlags &&& user = 0 by decide⟩
    have hreach := h.ok.reached e hmem (by simpa using hlisted)
    have hhigh := h.high
    have hoff : off.toNat < e.length.toNat := hoff
    show 256 ≤ index 39 (hhdm + e.base + off)
    apply index_of_high
    rw [BitVec.toNat_add, BitVec.toNat_add]
    omega
  · unfold KernelImage.ranges at hq
    simp only [List.mem_cons, List.not_mem_nil, or_false] at hq
    rcases hq with rfl | rfl | rfl
    · exact ⟨fun off => hpart _ _ off h.ok.image.text, show present &&& user = 0 by decide⟩
    · exact ⟨fun off => hpart _ _ off h.ok.image.rodata, show (present ||| nx) &&& user = 0 by decide⟩
    · exact ⟨fun off => hpart _ _ off h.ok.image.data, show directFlags &&& user = 0 by decide⟩

/-- What `Vmm::init` leaves behind. -/
theorem LoaderHigh.booted (h : LoaderHigh hhdm memmap image) {mem : Mem} {d : PageDirectory}
    (hs : init hhdm memmap image (Phys.initPmm hhdm memmap mem) = .ok (d, s)) :
    ∃ K st, Coherent hhdm ⟨s, d, []⟩ st K [] ∧ Phys.Supervised K s ∧
      ∀ v, s.walk K v = Range.last (initRanges hhdm memmap image) v none := by
  have hwalk := (init_walk h.ok h.low mem).of_ok hs
  rw [init_eq] at hs
  obtain ⟨y, hy, hs⟩ := bind_ok.mp hs
  obtain ⟨s₁, hs₁, hs⟩ := bind_ok.mp hs
  cases hs
  have hst := h.ok.stocked h.low mem
  obtain ⟨K, st₁, h₁, -⟩ := (Coherent.newKernelSpace hst).of_ok hy
  have hK : K < 2 ^ 52 := h₁.tables.root (mem_kernel K [])
  have hd : y.1 = dirOf hhdm K := h₁.kernel
  have hsup := Phys.newKernelSpace_supervised hst hy hK hd
  rw [hd] at h₁ hs₁ hwalk ⊢
  obtain ⟨⟨st, hco⟩, hsup⟩ := maps_supervised (fun q hq => h.kernels hq) h₁ hsup hs₁
  refine ⟨K, st, hco, hsup, fun v => ?_⟩
  rw [← hwalk v, dirOf_root hK]

/-! ## What the ranges allow -/

/-- The leaf entry of the range for a page it has. -/
theorem entry_of_covers {q : Range} (h : q.Covers v) :
    q.entry v = some (alignDown (q.pa + pageOff (q.ahead v)) pageSize ||| q.flags) := if_pos h

private theorem entry_of_not_covers {q : Range} (h : ¬ q.Covers v) : q.entry v = none := if_neg h

private theorem exists_of_last (h : Range.last l v none = some e) : ∃ q ∈ l, q.entry v = some e := by
  induction l with
  | nil => cases h
  | cons q l ih =>
    rw [Range.last_cons, Range.last_eq_or, Option.or_eq_some_iff] at h
    rcases h with h | ⟨-, h⟩
    · obtain ⟨q', hq', he⟩ := ih h
      exact ⟨q', List.mem_cons_of_mem _ hq', he⟩
    · rw [Option.or_none] at h
      exact ⟨q, List.mem_cons_self, h⟩

/-- A range that is mapped with `NX` cannot be executed. -/
theorem noExec_of_entry {q : Range} (hflags : (Rights.of q.flags).noExec = true)
    (he : q.entry v = some e) : (Rights.of e).noExec = true := by
  unfold Range.entry at he
  split at he
  · cases he
    have hrights := Mapping.rights_entry (t := ⟨0, q.pa + pageOff (q.ahead v), q.flags⟩)
    unfold Mapping.entry at hrights
    rw [hrights, hflags, Bool.or_true]
  · cases he

/-- The text can be executed, and not written. -/
theorem LoaderHigh.rights_text (h : LoaderHigh hhdm memmap image)
    (hv : (image.range image.textStart image.textEnd present).Covers v)
    (he : (image.range image.textStart image.textEnd present).entry v = some e) :
    Rights.of e = ⟨false, false, false⟩ := by
  rw [entry_of_covers hv] at he
  have htext := h.text
  have hlt : (image.range image.textStart image.textEnd present).ahead v <
      ((image.textEnd - image.textStart).toNat + 4095) / 4096 := hv
  generalize (image.range image.textStart image.textEnd present).ahead v = k at he hlt
  have hpa : alignDown ((image.range image.textStart image.textEnd present).pa + pageOff k) pageSize =
      framePa ((image.range image.textStart image.textEnd present).pa.toNat / 4096 + k) :=
    Phys.alignDown_pageOff (by unfold KernelImage.range; dsimp only; omega)
  rw [hpa] at he
  rw [← Option.some.inj he, Phys.Tables.rights_framePa (by unfold KernelImage.range; dsimp only; omega)]
  show Rights.of present = _
  decide

/-- **What the ranges of `Vmm::init` allow**: nothing to write and execute, and the text to execute. -/
theorem LoaderHigh.rights_last (h : LoaderHigh hhdm memmap image)
    (he : Range.last (initRanges hhdm memmap image) v none = some e) :
    ((Rights.of e).writeable = true → (Rights.of e).noExec = true) ∧
      ((Rights.of e).noExec = false ↔ image.IsText v) := by
  have hnx : (Rights.of e).noExec = true → ¬ image.IsText v →
      ((Rights.of e).writeable = true → (Rights.of e).noExec = true) ∧
        ((Rights.of e).noExec = false ↔ image.IsText v) := by
    intro hnx htext
    refine ⟨fun _ => hnx, ?_⟩
    rw [hnx]
    exact iff_of_false (by decide) htext
  unfold initRanges KernelImage.ranges at he
  rw [Range.last_append, Range.last_cons, Range.last_cons, Range.last_cons, Range.last_nil] at he
  -- the last part of the image that has the page decides, and the direct map if none has
  rw [Option.or_eq_some_iff, Option.or_eq_some_iff, Option.or_eq_some_iff] at he
  have hdirect : (Rights.of directFlags).noExec = true := by decide
  have hconst : (Rights.of (present ||| nx)).noExec = true := by decide
  rcases he with he | ⟨hdata, he | ⟨hrodata, he | ⟨htext, he⟩⟩⟩
  · refine hnx (noExec_of_entry hdirect he) fun htext => ?_
    rw [entry_of_not_covers htext.2.2] at he
    cases he
  · refine hnx (noExec_of_entry hconst he) fun htext => ?_
    rw [entry_of_not_covers htext.2.1] at he
    cases he
  · have hcovers : (image.range image.textStart image.textEnd present).Covers v := by
      by_contra hno
      rw [entry_of_not_covers hno] at he
      cases he
    rw [h.rights_text hcovers he]
    refine ⟨fun hw => absurd hw (by decide), iff_of_true rfl ⟨hcovers, fun hc => ?_, fun hc => ?_⟩⟩
    · rw [entry_of_covers hc] at hrodata
      cases hrodata
    · rw [entry_of_covers hc] at hdata
      cases hdata
  · obtain ⟨q, hq, he⟩ := exists_of_last he
    obtain ⟨m, -, rfl⟩ := List.mem_map.mp hq
    refine hnx (noExec_of_entry hdirect he) fun hin => ?_
    rw [entry_of_covers hin.1] at htext
    cases htext

end Vmm

/-! ## Runs -/

namespace Spaces

private theorem booted_invariant (h : LoaderHigh hhdm memmap image)
    (hx : (booted hhdm memmap image).Reachable x) :
    ∃ st K R, Coherent hhdm x st K R ∧ Phys.Supervised K x.phys ∧ ∀ v, 256 ≤ index 39 v →
      x.phys.walk K v = Range.last (initRanges hhdm memmap image) v none := by
  refine System.Reachable.invariant (I := fun x => ∃ st K R, Coherent hhdm x st K R ∧
    Phys.Supervised K x.phys ∧ ∀ v, 256 ≤ index 39 v →
      x.phys.walk K v = Range.last (initRanges hhdm memmap image) v none) ?_ ?_ hx
  · intro x hx
    obtain ⟨hlive, mem, hs⟩ := hx
    obtain ⟨K, st, hco, hsup, hwalk⟩ := h.booted hs
    obtain ⟨phys, kernel, live⟩ := x
    cases hlive
    exact ⟨st, K, [], hco, hsup, fun v _ => hwalk v⟩
  · intro x c x' hx hstep
    obtain ⟨st, K, R, hco, hsup, hwalk⟩ := hx
    have hun := hco.next_untouched hstep.1.1 hstep.1.2 hstep.2
    obtain ⟨st', R', hco', -⟩ := hco.next hstep.1.1 hstep.2
    refine ⟨st', K, R', hco', hun.supervised hsup, fun v hv => ?_⟩
    rw [hun.walk hv, hwalk v hv]

/-- A process finds the permissions of the upper half as the kernel does. -/
theorem effective_upper (h : Coherent hhdm x st K R) (hr : r ∈ R) (hv : 256 ≤ index 39 v) :
    x.phys.effective r v = x.phys.effective K v := by
  unfold Phys.effective
  rw [h.nextFrame_upper hr hv, h.pte_upper hr hv]

/-- **The kernel half stays protected.** After `Vmm::init`, whatever processes are made, mapped into
and freed, and whatever pages are allocated and written, every directory walks the upper half as
`Vmm::init` laid it out. User code has no access to a page of it; a page that can be written cannot be
executed; and the pages that can be executed are those of the kernel's text. -/
theorem kernel_half_protected (h : LoaderHigh hhdm memmap image)
    (hx : (booted hhdm memmap image).Reachable x) {d : PageDirectory} (hd : d ∈ x.kernel :: x.live)
    (hv : 256 ≤ index 39 v) :
    x.phys.walk d.root v = Range.last (initRanges hhdm memmap image) v none ∧
    ∀ rights, x.phys.effective d.root v = some rights → rights.user = false ∧
      (rights.writeable = true → rights.noExec = true) ∧
      (rights.noExec = false ↔ image.IsText v) := by
  obtain ⟨st, K, R, hco, hsup, hwalk⟩ := booted_invariant h hx
  have hroot : x.phys.walk d.root v = x.phys.walk K v ∧
      x.phys.effective d.root v = x.phys.effective K v := by
    rcases List.mem_cons.mp hd with rfl | hd
    · rw [hco.kernel, dirOf_root (hco.tables.root (mem_kernel K R))]
      exact ⟨rfl, rfl⟩
    · obtain ⟨r, hr, -, hroot⟩ := hco.mem_live hd
      rw [hroot]
      exact ⟨hco.walk_upper hr hv, effective_upper hco hr hv⟩
  rw [hroot.1, hroot.2, hwalk v hv]
  refine ⟨rfl, fun rights hrights => ?_⟩
  rw [hsup.effective hv, hwalk v hv] at hrights
  obtain ⟨e, he, rfl⟩ := Option.map_eq_some_iff.mp hrights
  exact ⟨rfl, h.rights_last he⟩

private theorem framebufferAt_high : LoaderHigh hhdm₀ (framebufferAt 0xfd000000) smallImage where
  ok := framebufferAt_ok ⟨by decide, by decide⟩
  high := by decide
  low e he _ x hx := (framebufferAt_low ⟨by decide, by decide⟩ he hx).trans (by decide)
  text := by decide

/-- The first page of a small kernel, after boot and an allocation: it can be executed, and nothing
else. -/
theorem kernel_half_protected_text : ∃ x : Spaces,
    (booted hhdm₀ (framebufferAt 0xfd000000) smallImage).Reachable x ∧
    x.phys.effective x.kernel.root 0xffffffff80000000 = some ⟨false, false, false⟩ := by
  have hbase : 0xfd000000 ≤ (0xfd000000 : Word).toNat ∧ (0xfd000000 : Word).toNat < 0xfd001000 := by
    decide
  obtain ⟨⟨d, s⟩, hs, -⟩ := (init_walk framebufferAt_high.ok framebufferAt_high.low
    fun _ => 0).exists_ok (Nat.not_lt.mpr (framebufferAt_room hbase))
  have hboot : (booted hhdm₀ (framebufferAt 0xfd000000) smallImage).Reachable
      ⟨s, d, []⟩ := .init ⟨rfl, _, hs⟩
  obtain ⟨x, hx⟩ : ∃ x, (booted hhdm₀ (framebufferAt 0xfd000000) smallImage).Reachable
      x := by
    obtain ⟨K, st, hco, -⟩ := framebufferAt_high.booted hs
    obtain ⟨y, hy⟩ : ∃ y, s.alloc hhdm₀ 1 = .ok y := by
      rcases hco.tables.stocked.alloc 1 with ⟨-, ha⟩ | ⟨f, s', st', ha, -⟩
      · exact ⟨_, ha⟩
      · exact ⟨_, ha⟩
    have hnext : next hhdm₀ ⟨s, d, []⟩ (.alloc 1) = .ok ⟨y.2, d, []⟩ := by
      show (do let r ← s.alloc hhdm₀ 1; _) = _
      rw [hy]
      rfl
    exact ⟨_, hboot.step (i := .alloc 1) ⟨⟨trivial, fun _ _ _ _ e => by cases e⟩, hnext⟩⟩
  refine ⟨x, hx, ?_⟩
  obtain ⟨hwalk, hrights⟩ := kernel_half_protected framebufferAt_high hx (d := x.kernel)
    List.mem_cons_self (v := 0xffffffff80000000) (by decide)
  have hsome : (x.phys.effective x.kernel.root 0xffffffff80000000).isSome = true := by
    rw [Phys.effective_isSome, hwalk]
    decide
  obtain ⟨⟨user, writeable, noExec⟩, heff⟩ := Option.isSome_iff_exists.mp hsome
  obtain ⟨huser, hwx, htext⟩ := hrights _ heff
  have hexec : noExec = false := htext.mpr (by decide)
  have hwrite : writeable = false := by
    by_contra hw
    have hno : noExec = true := hwx (by simpa using hw)
    exact absurd (hno.symm.trans hexec) (by decide)
  rw [heff, hexec, hwrite, show user = false from huser]

end Spaces

end TwoKernel
