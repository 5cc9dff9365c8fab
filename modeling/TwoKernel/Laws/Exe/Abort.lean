import TwoKernel.Laws.Exe.Events
import TwoKernel.Laws.Memory.Ledger

/-!
# A load that fails

`elfLoadTakes` is `elf_load` with a log of the pages it takes from the allocator:
those for a segment, and those `map` takes for page tables. Without the log it is
`elf_load` (`elfLoadTakes_result`).

`Undone` is what a failed load should leave: the translations as they were, each
page that was taken free again or a page table, and no allocation counted but
those of the tables. An image that is rejected leaves all of memory as it was. A
load for which memory runs out gives nothing back, so it is undone exactly if it
had taken nothing, that is, if the first segment found no pages
(`elfLoad_undone_iff`). `greedyImage` has a second segment that finds none, and its
first stays mapped.
-/

namespace TwoKernel

open ByteMem Vmm Elf

variable {hhdm size : Word} {s s' : Phys} {st : Stock hhdm} {data : Mem}

namespace Phys

theorem elfLoadTakes_result (data : Mem) (size : Word) (d : PageDirectory) (s : Phys) :
    (s.elfLoadTakes hhdm data size d).result = s.elfLoad hhdm data size d :=
  elfLoadEvents_apart data size d s

/-! ## The counter -/

/-- How many of the takes are for tables. -/
def tablesOf (l : List Take) : Nat := l.countP fun t => t.purpose = .table

private theorem tablesOf_append (l l' : List Take) : tablesOf (l ++ l') = tablesOf l + tablesOf l' :=
  List.countP_append

/-- The counter went up by the tables that were taken, and `n`. -/
def Tallied (n : Nat) (s : Phys) (l : List Take) (s' : Phys) : Prop :=
  s'.gRefAlloc = s.gRefAlloc + BitVec.ofNat 64 (tablesOf l + n)

private theorem Tallied.refl : Tallied 0 s [] s := (BitVec.add_zero _).symm

theorem Tallied.trans {n m : Nat} {l l' : List Take} {s'' : Phys} (h : Tallied n s l s')
    (h' : Tallied m s' l' s'') : Tallied (n + m) s (l ++ l') s'' := by
  have hsum : tablesOf (l ++ l') + (n + m) = tablesOf l + n + (tablesOf l' + m) := by
    rw [tablesOf_append]
    omega
  unfold Tallied at *
  rw [h', h, hsum, BitVec.ofNat_add _ (tablesOf l' + m), BitVec.add_assoc]

/-- Tables after tables. -/
theorem Tallied.append {l l' : List Take} {s'' : Phys} (h : Tallied 0 s l s')
    (h' : Tallied 0 s' l' s'') : Tallied 0 s (l ++ l') s'' := by
  have hall := h.trans h'
  exact hall

private theorem Tallied.of_counter {n : Nat} {l : List Take} {s'' : Phys} (h : Tallied n s l s')
    (hc : s''.gRefAlloc = s'.gRefAlloc) : Tallied n s l s'' := hc.trans h

private theorem allocTakes_leaves (purpose : Purpose) (count : Word) (s : Phys) :
    Logged.Leaves (fun l r => s.alloc hhdm count = .ok r ∧
      l = if r.1 ≠ 0 then [⟨r.1, count, purpose⟩] else []) (s.allocTakes hhdm purpose count) := by
  constructor
  intro r hr
  rw [allocTakes_result] at hr
  constructor
  · exact hr
  unfold allocTakes
  rw [Logged.log_bind (a := r) hr]
  split <;> rfl

/-- A table that is made is counted as such. -/
theorem getNextLevelTakes_leaves (table : Word) (i : Nat) (flags : Word) (s : Phys) :
    Logged.Leaves (fun l r => Tallied 0 s l r.2) (s.getNextLevelTakes hhdm table i flags) := by
  unfold getNextLevelTakes
  split
  · exact .pure .refl
  apply (allocTakes_leaves .table 1 s).bind
  intro l r ⟨halloc, hl⟩
  split
  · exact .error
  next hne =>
  apply Logged.Leaves.pure
  rw [if_pos hne] at hl
  have hcount : r.2.gRefAlloc = s.gRefAlloc + 1 := alloc_counted halloc hne
  rw [hl]
  exact hcount

private theorem pageTableTakes_leaves (pml4 va flags : Word) (s : Phys) :
    Logged.Leaves (fun l r => Tallied 0 s l r.2) (s.pageTableTakes hhdm pml4 va flags) := by
  have hderef : ∀ p : Option Word,
      Logged.Leaves (fun l _ => l = []) (.lift (deref p) : Logged Take Fault Word) :=
    fun p => .lift fun a _ => rfl
  unfold pageTableTakes
  apply (getNextLevelTakes_leaves pml4 _ flags s).bind
  intro l₁ r₁ h₁
  apply (hderef r₁.1).bind
  intro _ pdpt hnil
  subst hnil
  apply (getNextLevelTakes_leaves pdpt _ flags r₁.2).bind
  intro l₂ r₂ h₂
  apply (hderef r₂.1).bind
  intro _ pd hnil
  subst hnil
  apply (getNextLevelTakes_leaves pd _ flags r₂.2).bind
  intro l₃ r₃ h₃
  apply (hderef r₃.1).bind
  intro _ pt hnil
  subst hnil
  apply Logged.Leaves.pure
  have h := h₁.append (h₂.append h₃)
  simpa only [List.nil_append, List.append_nil] using h

private theorem mapTakes_leaves (pml4 pa va length flags : Word) (s : Phys) :
    Logged.Leaves (Tallied 0 s) (s.mapTakes hhdm pml4 pa va length flags) := by
  have hpage : ∀ (off : Word) (s : Phys),
      Logged.Leaves (Tallied 0 s) (s.mapPageTakes hhdm pml4 pa va flags off) := by
    intro off s
    unfold mapPageTakes
    apply (pageTableTakes_leaves pml4 _ flags s).bind
    intro l r h
    apply Logged.Leaves.pure
    rw [List.append_nil]
    exact h.of_counter rfl
  unfold mapTakes
  generalize walkFuel = fuel
  generalize (0 : Word) = off
  induction fuel generalizing off s with
  | zero => exact .error
  | succ fuel ih =>
    unfold eachPageTakes
    split
    · apply (hpage off s).bind
      intro l s₁ h
      exact (ih s₁ (off + pageSize)).mono fun l' s₂ h' => h.append h'
    · exact .pure .refl

/-- The takes of a log. -/
def takesOf (l : List LoadEvent) : List Take := l.filterMap LoadEvent.take?

private theorem takesOf_append (l l' : List LoadEvent) : takesOf (l ++ l') = takesOf l ++ takesOf l' :=
  List.filterMap_append

private theorem takesOf_step (l : List ImageStep) : takesOf (l.map .step) = [] := by
  unfold takesOf
  rw [List.filterMap_map, List.filterMap_eq_nil_iff]
  exact fun _ _ => rfl

private theorem take?_take (t : Take) : LoadEvent.take? (.take t) = some t := rfl

/-- A turn without a segment takes nothing. A segment finds no pages and leaves memory alone, or counts
once beside its tables. -/
theorem loadTurn_leaves (pml4 : Word) (i : Nat) (s : Phys) :
    Logged.Leaves (fun l r =>
        ((phdrAt data i).pType ≠ programLoad → takesOf l = [] ∧ r = (none, s)) ∧
        ((phdrAt data i).pType = programLoad →
          (s.alloc hhdm (alignedSize (phdrAt data i) / pageSize) = .ok (0, s) ∧ takesOf l = [] ∧
            r = (some .noMemory, s)) ∨
          s.alloc hhdm (alignedSize (phdrAt data i) / pageSize) ≠ .ok (0, s) ∧
            Tallied 1 s (takesOf l) r.2))
      (s.loadTurn hhdm (.apart hhdm data) pml4 i) := by
  unfold loadTurn
  dsimp only
  refine (Logged.Leaves.tells (P := fun l _ => takesOf l = []) (takesOf_step _)).bind fun l₀ _ h₀ => ?_
  show Logged.Leaves _ (if (phdrAt data i).pType ≠ programLoad then _ else _)
  split
  next htype =>
    apply Logged.Leaves.pure
    rw [List.append_nil]
    exact ⟨fun _ => ⟨h₀, rfl⟩, fun hload => absurd hload htype⟩
  next htype =>
  refine ((allocTakes_leaves .segment _ s).relabel take?_take).bind ?_
  intro l r ⟨halloc, hl⟩
  have hl : takesOf l = _ := hl
  split
  next hzero =>
    apply Logged.Leaves.pure
    rw [if_neg (not_not_intro hzero)] at hl
    rw [takesOf_append, takesOf_append, h₀, hl]
    refine ⟨fun hne => absurd hne htype, fun _ => ?_⟩
    rcases alloc_cases halloc with ⟨-, hsame⟩ | hcount
    · have hr : r = (0, s) := Prod.ext hzero hsame
      rw [hr] at halloc ⊢
      exact .inl ⟨halloc, rfl, rfl⟩
    · refine .inr ⟨fun hnone => ?_, hcount⟩
      -- the counter went up
      cases halloc.symm.trans hnone
      exact absurd hcount (by simp)
  next hne =>
    rw [if_pos hne] at hl
    have hfirst : Tallied 1 s (takesOf l) r.2 := by
      rw [hl]
      exact alloc_counted halloc hne
    refine ((mapTakes_leaves pml4 r.1 _ _ _ r.2).relabel take?_take).bind ?_
    intro l' s' h'
    have h' : Tallied 0 r.2 (takesOf l') s' := h'
    refine (Logged.Leaves.tells (P := fun l _ => takesOf l = []) rfl).bind fun l'' _ h'' => ?_
    apply Logged.Leaves.pure
    have hall : takesOf (l₀ ++ (l ++ (l' ++ (l'' ++ [])))) = takesOf l ++ takesOf l' := by
      rw [takesOf_append, takesOf_append, takesOf_append, takesOf_append, h₀, h'']
      simp [takesOf]
    rw [hall]
    refine ⟨fun hne => absurd hne htype, fun _ => .inr ⟨fun hnone => ?_, ?_⟩⟩
    · cases halloc.symm.trans hnone
      exact hne rfl
    · exact (hfirst.trans h').of_counter rfl

/-- **What the second pass counts.** Besides the tables, every segment that got pages; none only if
the first segment got none. -/
theorem passOver_leaves (pml4 : Word) (l : List Nat) (s : Phys) :
    Logged.Leaves (fun log r => ∃ n ≤ (loads (l.map (phdrAt data))).length,
        Tallied n s (takesOf log) r.2 ∧
        (n = 0 → r.1 ≠ none → ∃ ph, (loads (l.map (phdrAt data))).head? = some ph ∧
          s.alloc hhdm (alignedSize ph / pageSize) = .ok (0, s)))
      (passOver (fun i s => s.loadTurn hhdm (.apart hhdm data) pml4 i) l s) := by
  induction l generalizing s with
  | nil => exact .pure ⟨0, le_rfl, .refl, fun _ hne => absurd rfl hne⟩
  | cons i l ih =>
    rw [passOver, List.map_cons]
    refine (loadTurn_leaves pml4 i s).bind fun log r h => ?_
    obtain ⟨hother, hload⟩ := h
    by_cases htype : (phdrAt data i).pType = programLoad
    · rw [loads_cons_of_load htype]
      rcases hload htype with ⟨halloc, htakes, rfl⟩ | ⟨-, h⟩
      · apply Logged.Leaves.pure
        rw [List.append_nil, htakes]
        exact ⟨0, Nat.zero_le _, .refl, fun _ _ => ⟨_, rfl, halloc⟩⟩
      cases r.1 with
      | some e =>
        apply Logged.Leaves.pure
        rw [List.append_nil]
        exact ⟨1, by simp, h, fun hzero => absurd hzero Nat.one_ne_zero⟩
      | none =>
        refine (ih r.2).mono fun log' r' hrest => ?_
        obtain ⟨n, hn, h', -⟩ := hrest
        refine ⟨1 + n, ?_, ?_, fun hzero => absurd hzero (by omega)⟩
        · rw [List.length_cons]
          omega
        · rw [takesOf_append]
          exact h.trans h'
    · rw [loads_cons_of_ne htype]
      obtain ⟨htakes, rfl⟩ := hother htype
      refine (ih s).mono fun log' r' h' => ?_
      rw [takesOf_append, htakes]
      exact h'

/-- The second pass stops at the first segment if there are no pages for it. -/
theorem passOver_none (pml4 : Word) {l : List Nat} {ph : Elf64Phdr}
    (hhead : (loads (l.map (phdrAt data))).head? = some ph)
    (halloc : s.alloc hhdm (alignedSize ph / pageSize) = .ok (0, s)) :
    Logged.Leaves (fun log r => takesOf log = [] ∧ r.2 = s)
      (passOver (fun i s => s.loadTurn hhdm (.apart hhdm data) pml4 i) l s) := by
  induction l with
  | nil => cases hhead
  | cons i l ih =>
    rw [passOver]
    rw [List.map_cons] at hhead
    refine (loadTurn_leaves pml4 i s).bind fun log r h => ?_
    obtain ⟨hother, hload⟩ := h
    by_cases htype : (phdrAt data i).pType = programLoad
    · rw [loads_cons_of_load htype] at hhead
      obtain rfl : phdrAt data i = ph := Option.some.inj hhead
      rcases hload htype with ⟨-, htakes, rfl⟩ | ⟨hnot, -⟩
      · apply Logged.Leaves.pure
        rw [List.append_nil]
        exact ⟨htakes, rfl⟩
      · exact absurd halloc hnot
    · rw [loads_cons_of_ne htype] at hhead
      obtain ⟨htakes, rfl⟩ := hother htype
      refine (ih hhead).mono fun log' r' hrest => ⟨?_, hrest.2⟩
      rw [takesOf_append, htakes, hrest.1]
      rfl

/-! ## What is left -/

/-- A page table of the process: reached from its root by at most three entries. -/
def IsTable (root : Nat) (s : Phys) (f : Nat) : Prop :=
  ∃ p : List (Fin 512), p.length ≤ 3 ∧ s.table root p = some f

/-- A page on the free list. -/
def IsFree (hhdm : Word) (s : Phys) (f : Nat) : Prop :=
  ∃ l, s.Holds hhdm l ∧ ∃ b ∈ l, f ∈ b.pages

/-- Between `s` and `s'` nothing happened but that tables were added to the process at `root`. -/
structure Undone (hhdm : Word) (root : Nat) (takes : List Take) (s s' : Phys) : Prop where
  translate : ∀ va, s'.translate root va = s.translate root va
  returned : ∀ t ∈ takes, ∀ f ∈ (Block.mk t.pa t.count).pages, s'.IsTable root f ∨ s'.IsFree hhdm f
  counted : s'.gRefAlloc = s.gRefAlloc + BitVec.ofNat 64 (tablesOf takes)

private theorem Undone.refl {root : Nat} : Undone hhdm root [] s s :=
  ⟨fun _ => rfl, fun _ ht => absurd ht List.not_mem_nil, (BitVec.add_zero _).symm⟩

/-- Up to the tables nothing was counted. -/
theorem Tallied.eq_zero {n : Nat} {l : List Take} (h : Tallied n s l s') (hn : n < 2 ^ 64)
    (hcount : s'.gRefAlloc = s.gRefAlloc + BitVec.ofNat 64 (tablesOf l)) : n = 0 := by
  unfold Tallied at h
  rw [hcount, BitVec.ofNat_add, ← BitVec.add_assoc] at h
  have hzero : BitVec.ofNat 64 n = 0 := by simpa using h
  have hmod := congrArg BitVec.toNat hzero
  rw [BitVec.toNat_ofNat, Nat.mod_eq_of_lt hn] at hmod
  exact hmod

/-- There are fewer segments than the counter can tell apart. -/
theorem segments_length_lt (data : Mem) : (segments data).length < 2 ^ 64 := by
  have hle : (segments data).length ≤ (phdrs data).length := List.length_filter_le _ _
  have hnum := (readHeader data).ePhnum.isLt
  have hlen : (phdrs data).length = (readHeader data).ePhnum.toNat := by
    unfold phdrs
    rw [List.length_map, List.length_range]
  omega

/-- Beyond the checks, the takes of a load are those of its second pass. -/
theorem elfLoadTakes_log {sc : ImageScan} {r : Option ElfLoadError × Phys} (d : PageDirectory)
    (hcheck : checkImage data size = .ok sc)
    (hpass : (passOver (fun i s => s.loadTurn hhdm (.apart hhdm data) d.pml4 i)
      (List.range (readHeader data).ePhnum.toNat) s).result = .ok r) :
    (s.elfLoadTakes hhdm data size d).log =
      takesOf (passOver (fun i s => s.loadTurn hhdm (.apart hhdm data) d.pml4 i)
        (List.range (readHeader data).ePhnum.toNat) s).log := by
  have hlog : (s.elfLoadEvents hhdm (.apart hhdm data) size d).log =
      (checkImageSteps data size).1.map .step ++
        ((passOver (fun i s => s.loadTurn hhdm (.apart hhdm data) d.pml4 i)
          (List.range (readHeader data).ePhnum.toNat) s).log ++
            (if r.1 = none then [.read 0 headerSize] else []).map .step) := by
    unfold elfLoadEvents
    refine (Logged.log_bind (a := ()) rfl).trans (congrArg (_ ++ ·) ?_)
    rw [show (checkImageSteps ((Source.apart hhdm data).bytes s) size).2 = .ok sc from
      (checkImageSteps_snd data size).trans hcheck]
    dsimp only
    rw [loadPass_apart_range, Logged.log_bind hpass]
    cases r.1 <;> rfl
  show takesOf _ = _
  rw [hlog, takesOf_append, takesOf_append, takesOf_step, takesOf_step, List.nil_append, List.append_nil]

/-- **A failed load is undone exactly if it took nothing.** Whatever the image, the process and the
free list: a load that returns an error leaves the translations, gives back the pages that are not
page tables and counts the tables only, exactly if the image was rejected, or no block of the free
list was long enough for its first segment. -/
theorem elfLoad_undone_iff {d : PageDirectory} {e : ElfLoadError} (hst : s.Stocked hhdm st)
    (hload : s.elfLoad hhdm data size d = .ok (.error e, s')) :
    Undone hhdm d.root (s.elfLoadTakes hhdm data size d).log s s' ↔
      checkImage data size = .error e ∨ ∃ ph, (segments data).head? = some ph ∧
        ∀ b ∈ st.blocks, b.numPages < alignedSize ph / pageSize := by
  rcases elfLoad_ok hload with ⟨err, hcheck, herr, rfl⟩ | ⟨sc, r, hcheck, hs, hres⟩
  · cases herr
    refine iff_of_true ?_ (.inl hcheck)
    have hnone : (s'.elfLoadTakes hhdm data size d).log = [] := by
      rw [List.eq_nil_iff_forall_not_mem]
      intro t ht
      have hrecords : (s'.elfLoadEvents hhdm (.apart hhdm data) size d).Records fun e =>
          LoadEvent.take? e = none := by
        refine elfLoadEvents_records d s' (fun _ _ => rfl) fun sc hok => ?_
        cases hcheck.symm.trans hok
      obtain ⟨e, he, ht⟩ := List.mem_filterMap.mp ht
      cases (hrecords e he).symm.trans ht
    rw [hnone]
    exact .refl
  obtain ⟨h, -, -⟩ := checkImage_cases hcheck
  have hsegments : segments data =
      loads ((List.range (readHeader data).ePhnum.toNat).map (phdrAt data)) := by
    unfold segments
    rw [phdrs_eq h.supported]
  have hpass : (passOver (fun i s => s.loadTurn hhdm (.apart hhdm data) d.pml4 i)
      (List.range (readHeader data).ePhnum.toNat) s).result = .ok (r, s') := by
    rw [passOver_apart_result, ← phdrs_eq h.supported]
    exact hs
  rw [elfLoadTakes_log d hcheck hpass]
  constructor
  · intro hundone
    right
    obtain ⟨n, hn, htally, hfirst⟩ := (passOver_leaves d.pml4 _ s).of_ok _ hpass
    rw [← hsegments] at hn hfirst
    have hzero : n = 0 :=
      htally.eq_zero (Nat.lt_of_le_of_lt hn (segments_length_lt data)) hundone.counted
    have hr : r ≠ none := by
      intro hr
      rw [hr] at hres
      cases hres
    obtain ⟨ph, hhead, halloc⟩ := hfirst hzero hr
    exact ⟨ph, hhead, (alloc_eq_zero_iff _ st hst.holds).mp halloc⟩
  · intro h
    rcases h with hrejected | ⟨ph, hhead, hshort⟩
    · cases hcheck.symm.trans hrejected
    rw [hsegments] at hhead
    obtain ⟨hnil, hsame⟩ := (passOver_none d.pml4 hhead
      ((alloc_eq_zero_iff _ st hst.holds).mpr hshort)).of_ok _ hpass
    obtain rfl : s' = s := hsame
    rw [hnil]
    exact .refl

/-- The load failed, and the error and what was left pass a test. -/
def failedWith (test : ElfLoadError → Phys → Bool) :
    Outcome (Except ElfLoadError LoadedElf × Phys) → Bool
  | .ok (.error e, s) => test e s
  | _ => false

private theorem failedWith_eq_true {test : ElfLoadError → Phys → Bool}
    {x : Outcome (Except ElfLoadError LoadedElf × Phys)} (h : failedWith test x = true) :
    ∃ e s, x = .ok (.error e, s) ∧ test e s = true := by
  unfold failedWith at h
  split at h
  · exact ⟨_, _, rfl, h⟩
  · cases h

/-- `userImage` with a segment of sixty-five thousand pages. -/
def hungryImage : Mem := fun i => if i = 107 then 0x10 else userImage i

theorem elfLoad_undone_hungry : ∃ e s',
    blank.elfLoad hhdm₀ hungryImage 123 (dirOf hhdm₀ 1024) =
      .ok (.error e, s') ∧ e = .noMemory ∧
    Undone hhdm₀ (dirOf hhdm₀ 1024).root
      (blank.elfLoadTakes hhdm₀ hungryImage 123 (dirOf hhdm₀ 1024)).log
      blank s' := by
  have hrun : failedWith (fun e _ => e = .noMemory)
      (blank.elfLoad hhdm₀ hungryImage 123 (dirOf hhdm₀ 1024)) = true := by
    decide +kernel
  have hhead : (segments hungryImage).head? = some ⟨1, 5, 120, 0x400010, 3, 0x10000008⟩ := by
    decide +kernel
  have hshort : ∀ b ∈ (Arena.init Spaces.oneRegion_ok).stock.blocks,
      b.numPages < alignedSize ⟨1, 5, 120, 0x400010, 3, 0x10000008⟩ / pageSize := by decide
  obtain ⟨e, s', hs', he⟩ := failedWith_eq_true hrun
  exact ⟨e, s', hs', of_decide_eq_true he,
    (elfLoad_undone_iff (Spaces.oneRegion_stocked _) hs').mpr (.inr ⟨_, hhead, hshort⟩)⟩

/-- An image of two segments: one of a page, and one of sixty-four thousand. -/
def greedyImage : Mem :=
  let bytes := ehdrBytes 0x400010 64 2 ++ phdrBytes 5 176 0x400010 3 8 ++
    phdrBytes 6 176 0x600000 0 0x10000000 ++ [0xaa, 0xbb, 0xcc]
  (bytes.getD · 0)

/-- **A failed load is not undone.** There is no memory for the second segment of `greedyImage`; its
first stays mapped, and four allocations stay counted for it, one of them not for a table. -/
theorem elfLoad_leaves_greedy : ∃ s',
    blank.elfLoad hhdm₀ greedyImage 179 (dirOf hhdm₀ 1024) =
      .ok (.error .noMemory, s') ∧
    blank.translate 1024 0x400010 = none ∧ s'.translate 1024 0x400010 = some (0x1010, 5) ∧
    s'.gRefAlloc = blank.gRefAlloc + 4 ∧
    ¬ Undone hhdm₀ (dirOf hhdm₀ 1024).root
      (blank.elfLoadTakes hhdm₀ greedyImage 179 (dirOf hhdm₀ 1024)).log
      blank s' := by
  have hrun : failedWith (fun e s' => e = .noMemory ∧ blank.translate 1024 0x400010 = none ∧
        s'.translate 1024 0x400010 = some (0x1010, 5) ∧ s'.gRefAlloc = blank.gRefAlloc + 4)
      (blank.elfLoad hhdm₀ greedyImage 179 (dirOf hhdm₀ 1024)) = true := by
    decide +kernel
  obtain ⟨e, s', hs', htest⟩ := failedWith_eq_true hrun
  obtain ⟨rfl, hbefore, hafter, hcount⟩ := of_decide_eq_true htest
  refine ⟨s', hs', hbefore, hafter, hcount, ?_⟩
  intro hundone
  have hroot : (dirOf hhdm₀ 1024).root = 1024 := dirOf_root (by decide)
  have hsame := hundone.translate 0x400010
  rw [hroot, hbefore, hafter] at hsame
  cases hsame

end Phys

end TwoKernel
