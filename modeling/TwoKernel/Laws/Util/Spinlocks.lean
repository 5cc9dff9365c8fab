import TwoKernel.Util.Spinlocks

/-!
# Masked sections nest

`IrqState.Nests` is the invariant of a well-nested sequence: interrupts are on only where
no section is open, and every open section has saved what they were when it was opened.
That is the state before the sequence for the outermost section, and off for every other
one, so it is a matter of what is below a section (`atOpen`). Each opening and each closing
keeps it (`Nests.step`), and `sections_nest` reads off what it says about each section.
-/

namespace TwoKernel

open TwoKernel.Bracket

variable {L : Type} {s s' : IrqState L} {fuel : Nat}

/-- `IF` in saved flags. -/
def savedIf (flags : Word) : Bool := flags &&& ifMask ≠ 0

namespace IrqState

@[simp] theorem interrupts_cli : s.cli.interrupts = false := by
  have hzero : s.rflags &&& ~~~ifMask &&& ifMask = 0 := by
    rw [BitVec.and_assoc, BitVec.and_comm (~~~ifMask), BitVec.and_not_self]
    exact BitVec.and_zero
  exact decide_eq_false (not_not.mpr hzero)

@[simp] theorem interrupts_sti : s.sti.interrupts = true := by
  have hmask : (s.rflags ||| ifMask) &&& ifMask = ifMask := by
    ext i
    simp only [BitVec.getElem_and, BitVec.getElem_or]
    cases s.rflags[i] <;> cases ifMask[i] <;> rfl
  refine decide_eq_true ?_
  show (s.rflags ||| ifMask) &&& ifMask ≠ 0
  rw [hmask]
  decide

@[simp] theorem restore_guards (flags : Word) : (s.restore flags).guards = s.guards := by
  unfold restore
  split <;> rfl

@[simp] theorem restore_locks (flags : Word) : (s.restore flags).locks = s.locks := by
  unfold restore
  split <;> rfl

/-- From off, interrupts come back as they were saved. -/
theorem restore_interrupts (flags : Word) (hoff : s.interrupts = false) :
    (s.restore flags).interrupts = savedIf flags := by
  unfold restore savedIf
  by_cases hif : flags &&& ifMask ≠ 0
  · rw [if_pos hif, interrupts_sti, decide_eq_true hif]
  · rw [if_neg hif, hoff, decide_eq_false hif]

/-- `IF` with the sections `st` open, if it was `start` before the first. -/
def atOpen (start : Bool) (st : List (Masked L)) : Bool := st.isEmpty && start

/-- What the guards of the open sections have saved. -/
def savedByGuards (start : Bool) : List (Masked L) → List Bool
  | [] => []
  | .scope :: st => atOpen start st :: savedByGuards start st
  | .lock _ :: st => savedByGuards start st

/-- **The invariant of nested sections.** `start` is `IF` and `outer` are the guards from before. -/
structure Nests (start : Bool) (outer : List Bool) (st : List (Masked L)) (s : IrqState L) : Prop where
  flag : s.interrupts = atOpen start st
  guards : s.guards.map savedIf = savedByGuards start st ++ outer
  held : ∀ l, (s.locks l).inner.data = true ↔ .lock l ∈ st
  saved : ∀ l below, .lock l :: below <:+ st →
    savedIf (s.locks l).flags = atOpen start below ∧ .lock l ∉ below

variable {start : Bool} {outer : List Bool} {st st' : List (Masked L)} {l : L}

/-- A lock that is not open is free. -/
theorem Nests.free (h : s.Nests start outer st) (hl : .lock l ∉ st) :
    (s.locks l).inner.data = false := by
  rw [← Bool.not_eq_true, h.held]
  exact hl

private theorem lock_mem_scope : .lock l ∈ .scope :: st ↔ Masked.lock l ∈ st :=
  ⟨fun h => (List.mem_cons.mp h).resolve_left nofun, List.mem_cons_of_mem _⟩

theorem Nests.guard (h : s.Nests start outer st) : s.guard.Nests start outer (.scope :: st) where
  flag := interrupts_cli
  guards := by
    show savedIf s.rflags :: s.guards.map savedIf = _
    rw [h.guards]
    exact congrArg (· :: _) h.flag
  held := fun l => (h.held l).trans lock_mem_scope.symm
  saved := by
    intro l below hb
    rcases List.suffix_cons_iff.mp hb with hb | hb
    · cases hb
    · exact h.saved l below hb

private theorem Nests.unguard (h : s.Nests start outer (.scope :: st)) :
    ∃ s', s.unguard = .ok s' ∧ s'.Nests start outer st := by
  have hguards := h.guards
  unfold IrqState.unguard
  cases hg : s.guards with
  | nil =>
    rw [hg] at hguards
    cases hguards
  | cons flags guards =>
    rw [hg] at hguards
    obtain ⟨hflags, hrest⟩ := List.cons.inj hguards
    refine ⟨_, rfl, ?_, ?_, ?_, ?_⟩
    · refine (restore_interrupts flags ?_).trans hflags
      exact h.flag
    · rw [restore_guards]
      exact hrest
    · rw [restore_locks]
      exact fun l => (h.held l).trans lock_mem_scope
    · rw [restore_locks]
      exact fun l below hb => h.saved l below (hb.trans (List.suffix_cons _ _))

variable [DecidableEq L]

/-- The first exchange of an `acquire` gets the lock: with interrupts off and all sections nested,
there is no one to hold it. -/
theorem Nests.acquire (h : s.Nests start outer st) (hfuel : 0 < fuel) (hl : .lock l ∉ st) :
    ∃ s', s.acquire fuel l = .ok s' ∧ s'.Nests start outer (.lock l :: st) := by
  obtain ⟨fuel, rfl⟩ := Nat.exists_eq_add_of_lt hfuel
  have hinner : (s.cli.locks l).inner.acquire (0 + fuel + 1) = .ok ⟨true⟩ := by
    show (if (s.locks l).inner.data then _ else _) = _
    rw [h.free hl]
    rfl
  unfold IrqState.acquire
  dsimp only
  rw [hinner, ok_bind]
  refine ⟨_, rfl, interrupts_cli, h.guards, ?_, ?_⟩
  · intro l'
    by_cases hll : l' = l
    · subst hll
      simp
    · show (Function.update s.locks l _ l').inner.data = true ↔ _
      rw [Function.update_of_ne hll, h.held, List.mem_cons]
      simp [hll]
  · intro l' below hb
    show savedIf (Function.update s.locks l _ l').flags = _ ∧ _
    rcases List.suffix_cons_iff.mp hb with hb | hb
    · cases hb
      rw [Function.update_self]
      exact ⟨h.flag, hl⟩
    · have hll : l' ≠ l := fun e => hl (e ▸ hb.subset List.mem_cons_self)
      rw [Function.update_of_ne hll]
      exact h.saved l' below hb

theorem Nests.release (h : s.Nests start outer (.lock l :: st)) :
    (s.release l).Nests start outer st := by
  obtain ⟨hflags, hl⟩ := h.saved l st List.suffix_rfl
  unfold IrqState.release
  refine ⟨?_, ?_, ?_, ?_⟩
  · refine (restore_interrupts (s.locks l).flags ?_).trans hflags
    exact h.flag
  · rw [restore_guards]
    exact h.guards
  · rw [restore_locks]
    intro l'
    by_cases hll : l' = l
    · subst hll
      simp [SpinLock.release, hl]
    · show (Function.update s.locks l _ l').inner.data = true ↔ _
      rw [Function.update_of_ne hll, h.held, List.mem_cons]
      simp [hll]
  · rw [restore_locks]
    intro l' below hb
    have hll : l' ≠ l := fun e => hl (e ▸ hb.subset List.mem_cons_self)
    show savedIf (Function.update s.locks l _ l').flags = _ ∧ _
    rw [Function.update_of_ne hll]
    exact h.saved l' below (hb.trans (List.suffix_cons _ _))

/-- One step keeps the nesting. -/
theorem Nests.step (hfuel : 0 < fuel) (op : Bracket (Masked L)) (h : s.Nests start outer st)
    (hop : push Masked.reentrant st op = some st') :
    ∃ s', s.step fuel op = .ok s' ∧ s'.Nests start outer st' := by
  cases op with
  | enter b =>
    obtain ⟨rfl, hb⟩ := push_enter hop
    cases b with
    | scope => exact ⟨_, rfl, h.guard⟩
    | lock l => exact h.acquire hfuel (hb.resolve_left nofun)
  | leave b =>
    obtain rfl := push_leave hop
    cases b with
    | scope => exact h.unguard
    | lock l => exact ⟨_, rfl, h.release⟩

/-- So does a whole sequence. -/
theorem Nests.run (hfuel : 0 < fuel) {ops : List (Bracket (Masked L))} (h : s.Nests start outer st)
    (hops : openAfter Masked.reentrant st ops = some st') :
    ∃ s', s.run fuel ops = .ok s' ∧ s'.Nests start outer st' :=
  foldlM_nested (fun _ op _ _ h hop => h.step hfuel op hop) h hops

omit [DecidableEq L] in
theorem nests_nil (hfree : ∀ l, (s.locks l).inner.data = false) :
    s.Nests s.interrupts (s.guards.map savedIf) [] where
  flag := rfl
  guards := rfl
  held := by
    intro l
    simp [hfree l]
  saved := by
    intro l below hb
    cases List.suffix_nil.mp hb

/-- **What a section of a sequence is for**: interrupts are off in all of it, its closing gives back
what its opening found, and a lock is free again. -/
structure SectionKept (fuel : Nat) (before : List (Bracket (Masked L))) (b : Masked L)
    (body : List (Bracket (Masked L))) (s : IrqState L) : Prop where
  masked : ∀ part, part <+: body →
    ∃ s', s.run fuel (before ++ .enter b :: part) = .ok s' ∧ s'.interrupts = false
  restored : ∃ s₀ s₁, s.run fuel before = .ok s₀ ∧
    s.run fuel (before ++ .enter b :: (body ++ [.leave b])) = .ok s₁ ∧
    s₁.interrupts = s₀.interrupts ∧ ∀ l, b = .lock l → (s₁.locks l).inner.data = false

/-- **Guards and locks nest.** A well-nested sequence of scopes and locks, from any flags and any
saved flags, returns with interrupts as they were and every lock free. Each opening in it has its
closing, and what is between them is a section with interrupts off that leaves no trace. One exchange
is enough for each `acquire`. -/
theorem sections_nest {ops : List (Bracket (Masked L))} (hops : WellNested Masked.reentrant ops)
    (hfree : ∀ l, (s.locks l).inner.data = false) (hfuel : 0 < fuel) :
    (∃ s', s.run fuel ops = .ok s' ∧ s'.interrupts = s.interrupts ∧
      ∀ l, (s'.locks l).inner.data = false) ∧
    ∀ before b rest, ops = before ++ .enter b :: rest →
      ∃ body after, rest = body ++ .leave b :: after ∧ WellNested Masked.reentrant body ∧
        s.SectionKept fuel before b body := by
  have hstart := nests_nil hfree
  constructor
  · obtain ⟨s', hs', h⟩ := hstart.run hfuel hops
    exact ⟨s', hs', h.flag, fun l => h.free List.not_mem_nil⟩
  · rintro before b rest rfl
    obtain ⟨body, after, rfl, hbody⟩ := hops.exists_close
    obtain ⟨st, hbefore, hb, hafter, hpart⟩ := hops.around hbody
    refine ⟨body, after, rfl, hbody, ?_, ?_⟩
    · intro part hp
      obtain ⟨k, hk⟩ := hpart part hp
      obtain ⟨s', hs', h⟩ := hstart.run hfuel hk
      refine ⟨s', hs', h.flag.trans ?_⟩
      cases k <;> rfl
    · obtain ⟨s₀, hs₀, h₀⟩ := hstart.run hfuel hbefore
      obtain ⟨s₁, hs₁, h₁⟩ := hstart.run hfuel hafter
      refine ⟨s₀, s₁, hs₀, hs₁, h₁.flag.trans h₀.flag.symm, ?_⟩
      rintro l rfl
      exact h₁.free (hb.resolve_left nofun)

/-- A lock, a scope in it and another lock in that; and the first lock once more. -/
def threeDeep : List (Bracket (Masked Bool)) :=
  [.enter (.lock true), .enter .scope, .enter (.lock false), .leave (.lock false), .leave .scope,
    .leave (.lock true), .enter (.lock true), .leave (.lock true)]

theorem sections_nest_threeDeep : ∃ s' : IrqState Bool,
    (⟨0x202, [], fun _ => ⟨0x2, {}⟩⟩ : IrqState Bool).run 1 threeDeep = .ok s' ∧
      s'.interrupts = true := by
  have hops : WellNested Masked.reentrant threeDeep := by decide
  obtain ⟨⟨s', hs', hif, -⟩, -⟩ :=
    sections_nest (s := ⟨0x202, [], fun _ => ⟨0x2, {}⟩⟩) hops (fun _ => rfl) Nat.one_pos
  exact ⟨s', hs', hif⟩

end IrqState

end TwoKernel
