import TwoKernel.Laws.Exe.Reads

/-!
# The loader beside its log

An image apart does not change, so that the second pass is a pass over the indices of
its program headers (`loadPass_apart`), and without the log `elfLoadEvents` is `elfLoad`
(`elfLoadEvents_apart`).

What every turn records satisfies a condition, so everything that a load records does
(`elfLoadEvents_records`). The first use of it is that each step with the image is sound
(`elfLoadEvents_sound`).
-/

namespace TwoKernel

open ByteMem Vmm Elf

variable {hhdm size : Word} {s s' : Phys} {data : Mem} {ω : Type}

/-- A step with the image is sound. -/
def LoadEvent.Sound (size : Word) (e : LoadEvent) : Prop := ∀ st, e = .step st → st.Sound size

namespace Phys

/-! ## Taking pages -/

/-- Without its events, `allocTakes` is `alloc`. -/
@[simp] theorem allocTakes_result (purpose : Purpose) (count : Word) (s : Phys) :
    (s.allocTakes hhdm purpose count).result = s.alloc hhdm count := by
  unfold allocTakes
  rw [Logged.result_bind, Logged.result_lift]
  cases s.alloc hhdm count with
  | error f => rfl
  | ok r =>
    rw [ok_bind]
    split <;> rfl

@[simp] theorem getNextLevelTakes_result (table : Word) (i : Nat) (flags : Word) (s : Phys) :
    (s.getNextLevelTakes hhdm table i flags).result = s.getNextLevel hhdm table i flags true := by
  unfold getNextLevelTakes getNextLevel
  split
  · rfl
  · rw [Logged.result_bind, allocTakes_result, if_pos rfl]
    congr 1
    funext r
    split <;> rfl

@[simp] theorem pageTableTakes_result (pml4 va flags : Word) (s : Phys) :
    (s.pageTableTakes hhdm pml4 va flags).result = s.pageTable hhdm pml4 va flags true := by
  simp only [pageTableTakes, pageTable, Logged.result_bind, getNextLevelTakes_result,
    Logged.result_lift, Logged.result_pure, pure_eq_ok]

@[simp] theorem mapPageTakes_result (pml4 pa va flags off : Word) (s : Phys) :
    (s.mapPageTakes hhdm pml4 pa va flags off).result = s.mapPage hhdm pml4 pa va flags off := by
  simp only [mapPageTakes, mapPage, Logged.result_bind, pageTableTakes_result, Logged.result_pure,
    pure_eq_ok]

private theorem eachPageTakes_result {length : Word} {body : Word → Phys → Logged Take Fault Phys}
    (fuel : Nat) (off : Word) (s : Phys) :
    (eachPageTakes length body fuel off s).result =
      eachPage length (fun off s => (body off s).result) fuel off s := by
  induction fuel generalizing off s with
  | zero => rfl
  | succ fuel ih =>
    unfold eachPageTakes eachPage
    split
    · rw [Logged.result_bind]
      simp only [ih]
    · rfl

/-- Without its events, `mapTakes` is `map`. -/
@[simp] theorem mapTakes_result (pml4 pa va length flags : Word) (s : Phys) :
    (s.mapTakes hhdm pml4 pa va length flags).result = s.map hhdm pml4 pa va length flags := by
  unfold mapTakes map
  rw [eachPageTakes_result]
  simp only [mapPageTakes_result]

/-! ## The second pass -/

/-- A pass over `l` that ends with the first error. -/
def passOver (body : Nat → Phys → Logged ω Fault (Option ElfLoadError × Phys)) :
    List Nat → Phys → Logged ω Fault (Option ElfLoadError × Phys)
  | [], s => return (none, s)
  | i :: l, s => do
    let r ← body i s
    match r.1 with
    | some e => return (some e, r.2)
    | none => passOver body l r.2

/-- The number of program headers of an image apart is the same at every turn. -/
theorem loadPass_apart (pml4 : Word) (fuel i : Nat) (s : Phys)
    (hfuel : (readHeader data).ePhnum.toNat ≤ i + fuel) :
    s.loadPass hhdm (.apart hhdm data) pml4 fuel i =
      passOver (fun i s => s.loadTurn hhdm (.apart hhdm data) pml4 i)
        (List.range' i ((readHeader data).ePhnum.toNat - i)) s := by
  induction fuel generalizing i s with
  | zero =>
    rw [Nat.add_zero] at hfuel
    rw [Nat.sub_eq_zero_of_le hfuel]
    rfl
  | succ fuel ih =>
    rw [loadPass]
    show (if i < (readHeader data).ePhnum.toNat then _ else _) = _
    by_cases hlt : i < (readHeader data).ePhnum.toNat
    · rw [if_pos hlt, show (readHeader data).ePhnum.toNat - i =
        (readHeader data).ePhnum.toNat - (i + 1) + 1 by omega, List.range'_succ, passOver]
      refine bind_congr fun r => ?_
      cases r.1 with
      | some e => rfl
      | none => exact ih (i + 1) r.2 (by omega)
    · rw [if_neg hlt, Nat.sub_eq_zero_of_le (Nat.not_lt.mp hlt)]
      rfl

/-- The second pass has fuel for every header. -/
theorem loadPass_apart_range (data : Mem) (pml4 : Word) (s : Phys) :
    s.loadPass hhdm (.apart hhdm data) pml4 (2 ^ 16) 0 =
      passOver (fun i s => s.loadTurn hhdm (.apart hhdm data) pml4 i)
        (List.range (readHeader data).ePhnum.toNat) s := by
  have hlt := (readHeader data).ePhnum.isLt
  rw [loadPass_apart pml4 _ 0 s (by omega), Nat.sub_zero, List.range_eq_range']

theorem loadTurn_apart_result (pml4 : Word) (i : Nat) (s : Phys) :
    (s.loadTurn hhdm (.apart hhdm data) pml4 i).result =
      if (phdrAt data i).pType ≠ programLoad then .ok (none, s)
      else s.loadSegment hhdm data pml4 (phdrAt data i) := by
  unfold loadTurn
  dsimp only
  rw [Logged.result_bind, Logged.result_tells, ok_bind]
  show (if (phdrAt data i).pType ≠ programLoad then _ else _ : Logged _ _ _).result = _
  split
  · rfl
  unfold loadSegment
  dsimp only
  rw [Logged.result_bind, Logged.result_relabel, allocTakes_result]
  refine bind_congr fun r => ?_
  split
  · rfl
  rw [Logged.result_bind, Logged.result_relabel, mapTakes_result]
  rfl

theorem passOver_apart_result (pml4 : Word) (l : List Nat) (s : Phys) :
    (passOver (fun i s => s.loadTurn hhdm (.apart hhdm data) pml4 i) l s).result =
      s.loadSegments hhdm data pml4 (l.map (phdrAt data)) := by
  induction l generalizing s with
  | nil => rfl
  | cons i l ih =>
    rw [passOver, Logged.result_bind, loadTurn_apart_result, List.map_cons, loadSegments]
    split
    · exact ih s
    · refine bind_congr fun r => ?_
      cases r.1 with
      | some e => rfl
      | none => exact ih r.2

/-- **Without the log the loader is `elf_load`.** -/
theorem elfLoadEvents_apart (data : Mem) (size : Word) (d : PageDirectory) (s : Phys) :
    (s.elfLoadEvents hhdm (.apart hhdm data) size d).result = s.elfLoad hhdm data size d := by
  have hcheck : (checkImageSteps ((Source.apart hhdm data).bytes s) size).2 = checkImage data size :=
    checkImageSteps_snd data size
  unfold elfLoadEvents elfLoad
  rw [Logged.result_bind, Logged.result_tells, ok_bind, hcheck]
  cases hres : checkImage data size with
  | error e => rfl
  | ok sc =>
    obtain ⟨h, -, -⟩ := checkImage_cases hres
    dsimp only
    rw [Logged.result_bind, loadPass_apart_range, passOver_apart_result, ← phdrs_eq h.supported]
    refine bind_congr fun r => ?_
    cases r.1 <;> rfl

/-! ## What is recorded -/

section records

variable {P : LoadEvent → Prop} {i : Nat} {l : List Nat}

/-- A turn over an image apart: finding the header, the pages, and for a segment that gets them the source
of the copy and what is written. -/
theorem loadTurn_records (pml4 : Word) (s : Phys) (hphdr : ∀ st ∈ phdrSteps data i, P (.step st))
    (htake : ∀ t, P (.take t))
    (hread : (phdrAt data i).pType = programLoad →
      P (.step (.read (phdrAt data i).pOffset (phdrAt data i).pFilesz)))
    (hwrite : (phdrAt data i).pType = programLoad →
      ∀ pa, P (.write (.ofSegment hhdm pa (phdrAt data i)))) :
    (s.loadTurn hhdm (.apart hhdm data) pml4 i).Records P := by
  have hsteps : ∀ w ∈ (phdrSteps data i).map LoadEvent.step, P w := by
    intro w hw
    obtain ⟨st, hst, rfl⟩ := List.mem_map.mp hw
    exact hphdr st hst
  unfold loadTurn
  dsimp only
  refine (Logged.Records.tells hsteps).bind fun _ _ => ?_
  show Logged.Records P (if (phdrAt data i).pType ≠ programLoad then _ else _)
  split
  · exact .pure _
  next htype =>
  have hload := not_not.mp htype
  refine (Logged.Records.relabel htake _).bind fun r _ => ?_
  split
  · exact .pure _
  refine (Logged.Records.relabel htake _).bind fun s' _ => ?_
  refine (Logged.Records.tells ?_).bind fun _ _ => .pure _
  intro w hw
  simp only [List.mem_cons, List.not_mem_nil, or_false] at hw
  rcases hw with rfl | rfl | rfl
  · exact hphdr _ (List.mem_cons_of_mem _ (List.mem_append_right _ List.mem_cons_self))
  · exact hread hload
  · exact hwrite hload _

private theorem passOver_records {body : Nat → Phys → Logged LoadEvent Fault (Option ElfLoadError × Phys)}
    (h : ∀ i ∈ l, ∀ s, (body i s).Records P) (s : Phys) : (passOver body l s).Records P := by
  induction l generalizing s with
  | nil => exact .pure _
  | cons i l ih =>
    rw [passOver]
    refine (h i List.mem_cons_self s).bind fun r _ => ?_
    cases r.1 with
    | some e => exact .pure _
    | none => exact ih (fun j hj => h j (List.mem_cons_of_mem i hj)) r.2

/-- **What a load records.** -/
theorem elfLoadEvents_records (d : PageDirectory) (s : Phys)
    (hcheck : ∀ st ∈ (checkImageSteps data size).1, P (.step st))
    (hturn : ∀ sc, checkImage data size = .ok sc → P (.step (.read 0 headerSize)) ∧
      ∀ i < (readHeader data).ePhnum.toNat, ∀ s : Phys,
        (s.loadTurn hhdm (.apart hhdm data) d.pml4 i).Records P) :
    (s.elfLoadEvents hhdm (.apart hhdm data) size d).Records P := by
  have hsteps : ∀ w ∈ (checkImageSteps data size).1.map LoadEvent.step, P w := by
    intro w hw
    obtain ⟨st, hst, rfl⟩ := List.mem_map.mp hw
    exact hcheck st hst
  unfold elfLoadEvents
  refine (Logged.Records.tells hsteps).bind fun _ _ => ?_
  rw [show (checkImageSteps ((Source.apart hhdm data).bytes s) size).2 = checkImage data size from
    checkImageSteps_snd data size]
  cases hres : checkImage data size with
  | error e => exact .pure _
  | ok sc =>
    obtain ⟨hend, hturn⟩ := hturn sc hres
    dsimp only
    rw [loadPass_apart_range]
    refine (passOver_records (fun i hi => hturn i (List.mem_range.mp hi)) s).bind fun r _ => ?_
    cases r.1 with
    | some e => exact .pure _
    | none =>
      refine (Logged.Records.tells fun w hw => ?_).bind fun _ _ => .pure _
      rw [List.mem_singleton.mp hw]
      exact hend

end records

/-! ## Soundness -/

/-- The program headers of an accepted image are those that the first pass has accepted. -/
theorem phdrAt_mem_segments {sc : ImageScan} {i : Nat} (h : checkImage data size = .ok sc)
    (hi : i < (readHeader data).ePhnum.toNat) (hload : (phdrAt data i).pType = programLoad) :
    phdrAt data i ∈ segments data := by
  obtain ⟨haccepted, -, -⟩ := checkImage_cases h
  have hmem : phdrAt data i ∈ phdrs data := by
    rw [phdrs_eq haccepted.supported]
    exact List.mem_map_of_mem (List.mem_range.mpr hi)
  exact List.mem_filter.mpr ⟨hmem, decide_eq_true hload⟩

end Phys

end TwoKernel
