import TwoKernel.Laws.Proc.Traced

/-!
# The interrupt flag across a scheduler call

`lock_scheduler` clears the interrupt flag and raises `disable_counter`;
`unlock_scheduler` lowers it and, at zero, sets the flag. Neither looks at the flag
it finds. So a call entered with the counter at zero always returns with
interrupts on, and one entered under the scheduler's own lock returns with them
off, whatever the caller had (`interruptFlag_preserved_iff`). A caller that masked
interrupts by other means, an `IrqRAIGaurd`, an `IrqSpinLock` or an interrupt gate,
has them opened by the call.

The counter is a byte. A tick entered at 255 locks it to 0, and the first sleeper
it wakes then opens interrupts in the middle of the loop.
-/

namespace TwoKernel

variable {P Q F : Type} [DecidableEq P] [DecidableEq Q]

/-- The operations that lock and unlock the scheduler. -/
inductive Entry (P F : Type) where
  | yield
  | sleep (milli : Word)
  | block
  | unblock (task : P)
  | pitIrqHandler (frame : F)

namespace Traced

def enter (fuel : Nat) (x : Traced P Q F) : Entry P F → Outcome (Traced P Q F)
  | .yield => x.yield
  | .sleep milli => x.sleep milli
  | .block => x.block
  | .unblock t => x.unblock fuel t
  | .pitIrqHandler frame => Prod.snd <$> x.pitIrqHandler fuel frame

/-- **The law.** From the first lock to the last unlock, which is the last note, interrupts are
off, and after it they are what they were before the call. -/
def Preserved (s : Sched P Q F) (y : Traced P Q F) : Prop :=
  (∀ n ∈ y.log.dropLast, n ≠ .irq true) ∧ y.sched.interruptFlag = s.interruptFlag

/-- Interrupts are on exactly if the scheduler's own counter is zero. A tick without a current
thread does nothing; one that wraps the counter must wake nobody. -/
def Balanced (fuel : Nat) (s : Sched P Q F) : Entry P F → Prop
  | .pitIrqHandler _ => s.currThread = none ∨
      (s.disableCounter = 0 ↔ s.interruptFlag = true) ∧
        (s.disableCounter = 255 → s.firstWoken fuel = none)
  | _ => s.disableCounter = 0 ↔ s.interruptFlag = true

variable {x y z : Traced P Q F} {s : Sched P Q F} {fuel : Nat} {t : P}

/-! ## Steps that leave the mask alone -/

/-- A step that leaves the counter and the flag, and notes no open interrupts. -/
structure Quiet (x y : Traced P Q F) : Prop where
  notes : Notes (· ≠ .irq true) x y
  counter : y.sched.disableCounter = x.sched.disableCounter
  flag : y.sched.interruptFlag = x.sched.interruptFlag

section Quiet

omit [DecidableEq P] [DecidableEq Q]

private theorem Quiet.refl (x : Traced P Q F) : Quiet x x := ⟨.of_eq rfl, rfl, rfl⟩

theorem Quiet.trans (h : Quiet x y) (h' : Quiet y z) : Quiet x z :=
  ⟨h.notes.trans h'.notes, h'.counter.trans h.counter, h'.flag.trans h.flag⟩

/-- A step over the state alone is quiet when it keeps the lock members. -/
theorem Quiet.of_lock (hl : y.log = x.log) (h : y.sched.toCore.lock = x.sched.toCore.lock) :
    Quiet x y :=
  ⟨.of_eq hl, congrArg Core.Lock.disableCounter h, congrArg Core.Lock.interruptFlag h⟩

end Quiet

private theorem schedule_quiet (h : x.schedule = .ok y) : Quiet x y := by
  have hs : x.sched.schedule = .ok y.sched := by
    rw [← schedule_erase, h]
    rfl
  have hnotes : Notes (· ≠ .irq true) x y := by
    refine (schedule_notes h).mono fun n hn => ?_
    obtain ⟨-, -, cur, -, rfl⟩ := hn
    exact fun e => by cases e
  by_cases hk : x.sched.taskSwitchCounter = 0
  · rw [Sched.schedule_unlocked hk] at hs
    have hlock := Sched.switchNow_lock hs
    exact ⟨hnotes, congrArg Core.Lock.disableCounter hlock, congrArg Core.Lock.interruptFlag hlock⟩
  · have hy := Except.ok.inj ((Sched.schedule_locked hk).symm.trans hs)
    exact ⟨hnotes, by rw [← hy]; rfl, by rw [← hy]; rfl⟩

/-! ## Unlocking -/

/-- The last note is the flag the unlock leaves; before it, no open interrupts. -/
structure Unlocks (x y : Traced P Q F) : Prop where
  log : ∃ l, y.log = x.log ++ l ++ [.irq y.sched.interruptFlag] ∧ ∀ n ∈ l, n ≠ .irq true
  counter : y.sched.disableCounter = x.sched.disableCounter - 1
  flag : y.sched.interruptFlag =
    if x.sched.disableCounter - 1 = 0 then true else x.sched.interruptFlag

omit [DecidableEq P] [DecidableEq Q] in
theorem Quiet.unlocks (h : Quiet x y) (h' : Unlocks y z) : Unlocks x z := by
  obtain ⟨l, hl, hn⟩ := h.notes
  obtain ⟨l', hl', hn'⟩ := h'.log
  refine ⟨⟨l ++ l', by rw [hl', hl, ← List.append_assoc], fun n hmem => ?_⟩, ?_, ?_⟩
  · rcases List.mem_append.mp hmem with hmem | hmem
    · exact hn n hmem
    · exact hn' n hmem
  · rw [h'.counter, h.counter]
  · rw [h'.flag, h.counter, h.flag]

private theorem unlockScheduler_unlocks (h : x.unlockScheduler = .ok y) : Unlocks x y := by
  -- the tail of the unlock, after a switch was served or not
  have htail : ∀ w : Traced P Q F, Quiet (x.mapSched (·.mapCore (·.leaveSwitch))) w →
      y = (w.mapSched (·.mapCore (·.leaveDisable))).note
        (.irq (w.mapSched (·.mapCore (·.leaveDisable))).sched.interruptFlag) → Unlocks x y := by
    intro w hw hy
    subst hy
    obtain ⟨l, hl, hn⟩ := hw.notes
    have hc : w.sched.disableCounter = x.sched.disableCounter := hw.counter
    have hf : w.sched.interruptFlag = x.sched.interruptFlag := hw.flag
    refine ⟨⟨l, ?_, hn⟩, ?_, ?_⟩
    · exact congrArg (· ++ [_]) hl
    · exact congrArg (· - 1) hc
    · show (if w.sched.disableCounter - 1 = 0 then true else w.sched.interruptFlag) = _
      rw [hc, hf]
  rcases Host.unlockScheduler_cases h with ⟨-, w, hw, hy⟩ | ⟨-, hy⟩
  · refine htail w (Quiet.trans ?_ (schedule_quiet hw)) hy
    exact ⟨.of_eq rfl, rfl, rfl⟩
  · exact htail _ (.refl _) hy

/-- A call of the running thread unlocks what it has locked, if its body leaves the lock alone. -/
theorem request_unlocks {body : P → Sched P Q F → Sched P Q F}
    (h : x.request body = .ok y) (hbody : ∀ cur s, (body cur s).toCore.lock = s.toCore.lock) :
    Unlocks x.lockScheduler y := by
  obtain ⟨cur, -, h⟩ := bind_ok.mp h
  obtain ⟨w, hw, h⟩ := bind_ok.mp h
  have hmarked : Quiet x.lockScheduler (x.lockScheduler.mapSched (body cur)) :=
    .of_lock rfl (hbody cur _)
  exact (hmarked.trans (schedule_quiet hw)).unlocks (unlockScheduler_unlocks h)

private theorem yield_unlocks (h : x.yield = .ok y) : Unlocks x.lockScheduler y :=
  request_unlocks h fun _ _ => rfl

private theorem sleep_unlocks {milli : Word} (h : x.sleep milli = .ok y) : Unlocks x.lockScheduler y :=
  request_unlocks h fun _ _ => rfl

private theorem block_unlocks (h : x.block = .ok y) : Unlocks x.lockScheduler y :=
  request_unlocks h fun _ _ => rfl

private theorem unblock_unlocks (h : x.unblock fuel t = .ok y) : Unlocks x.lockScheduler y := by
  obtain ⟨w, hw, h⟩ := bind_ok.mp h
  obtain ⟨hwake, hlog⟩ := lift_ok hw
  have hwoken : Quiet x.lockScheduler w := .of_lock hlog (Sched.wake_lock hwake)
  exact hwoken.unlocks (unlockScheduler_unlocks h)

/-! ## The sleeper loop -/

/-- Under a counter that is not zero, the nested lock and unlock are quiet. -/
theorem unblock_quiet (hc : x.sched.disableCounter ≠ 0) (hf : x.sched.interruptFlag = false)
    (h : x.unblock fuel t = .ok y) : Quiet x y := by
  have hu := unblock_unlocks h
  obtain ⟨l, hl, hn⟩ := hu.log
  have hcount : x.lockScheduler.sched.disableCounter - 1 = x.sched.disableCounter := by
    show x.sched.disableCounter + 1 - 1 = x.sched.disableCounter
    exact BitVec.add_sub_cancel _ _
  have hflag : y.sched.interruptFlag = false := by
    rw [hu.flag, hcount, if_neg hc]
    rfl
  refine ⟨⟨[.irq false] ++ l ++ [.irq false], ?_, fun n hmem => ?_⟩, hu.counter.trans hcount,
    hflag.trans hf.symm⟩
  · rw [hl, hflag]
    show x.log ++ [.irq false] ++ l ++ _ = _
    simp only [List.append_assoc]
  · simp only [List.mem_append, List.mem_singleton] at hmem
    rcases hmem with (rfl | hmem) | rfl
    · exact fun e => by cases e
    · exact hn n hmem
    · exact fun e => by cases e

private theorem wakeSleeper_not_due (h : x.sched.toCore.due t = false) :
    x.wakeSleeper fuel t = .ok (x.mapSched (·.mapCore (·.skip t))) := by
  simp only [Core.due, decide_eq_false_iff_not, not_and] at h
  by_cases hb : (x.sched.thread t).state = .blocked
  · have hskip : x.sched.toCore.skip t = x.sched.toCore := if_pos hb
    refine (if_pos hb).trans ?_
    show _ = Except.ok { x with sched := { x.sched with toCore := x.sched.toCore.skip t } }
    rw [hskip]
  · have hskip : x.sched.toCore.skip t = x.sched.toCore.countDown t := if_neg hb
    refine (if_neg hb).trans ?_
    refine (if_neg fun hz => h hb ((x.sched.toCore.countDown_sleepTime t).mp hz)).trans ?_
    show _ = Except.ok { x with sched := { x.sched with toCore := x.sched.toCore.skip t } }
    rw [hskip]
    rfl

private theorem wakeSleeper_due (h : x.sched.toCore.due t = true) :
    x.wakeSleeper fuel t = (x.mapSched (·.mapCore (·.countDown t))).unblock fuel t := by
  simp only [Core.due, decide_eq_true_eq] at h
  exact (if_neg h.1).trans (if_pos ((x.sched.toCore.countDown_sleepTime t).mpr h.2))

omit [DecidableEq Q] in
theorem skip_quiet : Quiet x (x.mapSched (·.mapCore (·.skip t))) := by
  refine .of_lock rfl ?_
  show (x.sched.toCore.skip t).lock = x.sched.toCore.lock
  unfold Core.skip
  split <;> rfl

private theorem wakeSleeper_quiet (hc : x.sched.disableCounter ≠ 0) (hf : x.sched.interruptFlag = false)
    (h : x.wakeSleeper fuel t = .ok y) : Quiet x y := by
  cases hd : x.sched.toCore.due t with
  | true =>
    rw [wakeSleeper_due hd] at h
    refine Quiet.trans ?_ (unblock_quiet (x := x.mapSched (·.mapCore (·.countDown t))) hc hf h)
    exact .of_lock rfl rfl
  | false =>
    rw [wakeSleeper_not_due hd] at h
    cases h
    exact skip_quiet

private theorem forEach_quiet {n : Nat} {ptr next : Option P} (hc : x.sched.disableCounter ≠ 0)
    (hf : x.sched.interruptFlag = false)
    (h : SingleDeque.forEach (·.sched.hook) (wakeSleeper fuel) n ptr next x = .ok y) :
    Quiet x y := by
  obtain ⟨-, hq⟩ := SingleDeque.forEach_invariant (I := fun _ _ w => Quiet x w)
    (fun _ _ w w' hw hstep => hw.trans (wakeSleeper_quiet (by rw [hw.counter]; exact hc)
      (by rw [hw.flag]; exact hf) hstep)) n ptr next x y h (.refl x)
  exact hq

/-- Whatever the lock is, the log only grows. -/
theorem wakeSleeper_grows (h : x.wakeSleeper fuel t = .ok y) : Notes (fun _ => True) x y := by
  cases hd : x.sched.toCore.due t with
  | true =>
    rw [wakeSleeper_due hd] at h
    obtain ⟨l, hl, -⟩ := (unblock_unlocks h).log
    refine ⟨[.irq false] ++ l ++ [.irq y.sched.interruptFlag], ?_, fun _ _ => trivial⟩
    rw [hl]
    show x.log ++ [.irq false] ++ l ++ _ = _
    simp only [List.append_assoc]
  | false =>
    rw [wakeSleeper_not_due hd] at h
    cases h
    exact .of_eq rfl

/-- A walk that wakes nobody is quiet. -/
theorem forEach_none {n : Nat} {ptr : Option P}
    (hw : Core.firstWoken x.sched.hook n ptr x.sched.toCore = none)
    (h : SingleDeque.forEach (·.sched.hook) (wakeSleeper fuel) n ptr (ptr.bind x.sched.hook) x =
      .ok y) : Quiet x y := by
  induction n generalizing ptr x with
  | zero =>
    cases ptr with
    | none =>
      cases h
      exact .refl _
    | some t => cases h
  | succ n ih =>
    cases ptr with
    | none =>
      cases h
      exact .refl _
    | some t =>
      cases hd : x.sched.toCore.due t with
      | true =>
        rw [Core.firstWoken_due hd] at hw
        cases hw
      | false =>
        rw [Core.firstWoken_not_due hd] at hw
        simp only [SingleDeque.forEach, wakeSleeper_not_due hd, ok_bind, Option.bind_some] at h
        exact skip_quiet.trans (ih hw h)

/-- A walk that wakes somebody under a counter of zero opens interrupts. -/
theorem forEach_opens {n : Nat} {ptr : Option P} {w : P} (hc : x.sched.disableCounter = 0)
    (hw : Core.firstWoken x.sched.hook n ptr x.sched.toCore = some w)
    (h : SingleDeque.forEach (·.sched.hook) (wakeSleeper fuel) n ptr (ptr.bind x.sched.hook) x =
      .ok y) : .irq true ∈ y.log := by
  induction n generalizing ptr x with
  | zero =>
    cases ptr with
    | none => cases hw
    | some t => cases h
  | succ n ih =>
    cases ptr with
    | none => cases hw
    | some t =>
      cases hd : x.sched.toCore.due t with
      | true =>
        obtain ⟨x₁, hx₁, hrest⟩ := bind_ok.mp h
        rw [wakeSleeper_due hd] at hx₁
        have hu := unblock_unlocks hx₁
        have hflag : x₁.sched.interruptFlag = true := by
          refine hu.flag.trans (if_pos ?_)
          show x.sched.disableCounter + 1 - 1 = 0
          rw [BitVec.add_sub_cancel]
          exact hc
        obtain ⟨l, hl, -⟩ := hu.log
        obtain ⟨-, l', hl', -⟩ := SingleDeque.forEach_invariant
          (I := fun _ _ v => Notes (fun _ => True) x₁ v)
          (fun _ _ _ _ hv hstep => hv.trans (wakeSleeper_grows hstep)) n _ _ x₁ y hrest (.of_eq rfl)
        rw [hl', hl, hflag]
        simp
      | false =>
        rw [Core.firstWoken_not_due hd] at hw
        simp only [SingleDeque.forEach, wakeSleeper_not_due hd, ok_bind, Option.bind_some] at h
        exact ih (x := x.mapSched (·.mapCore (·.skip t))) (skip_quiet.counter.trans hc) hw h

private theorem checkSlice_quiet (h : x.checkSlice = .ok y) : Quiet x y := by
  obtain ⟨cur, -, h⟩ := bind_ok.mp h
  dsimp only at h
  split at h
  · exact schedule_quiet h
  · split at h
    · refine Quiet.trans ?_ (schedule_quiet h)
      exact .of_lock rfl rfl
    · cases h
      exact .refl _

/-! ## The law -/

omit [DecidableEq P] [DecidableEq Q] in
/-- A call that unlocks what it locked. -/
theorem preserved_of_unlocks (h : Unlocks (lockScheduler ⟨s, []⟩) y) :
    Preserved s y ↔ (s.disableCounter = 0 ↔ s.interruptFlag = true) := by
  obtain ⟨l, hl, hn⟩ := h.log
  have hflag : y.sched.interruptFlag = decide (s.disableCounter = 0) := by
    rw [h.flag]
    show (if s.disableCounter + 1 - 1 = 0 then true else false) = _
    rw [BitVec.add_sub_cancel]
    by_cases hz : s.disableCounter = 0
    · rw [if_pos hz, decide_eq_true hz]
    · rw [if_neg hz, decide_eq_false hz]
  have hlog : ∀ n ∈ y.log.dropLast, n ≠ .irq true := by
    intro n hmem
    rw [hl, List.dropLast_concat] at hmem
    rcases List.mem_append.mp hmem with hmem | hmem
    · have hfirst : n = .irq false := List.mem_singleton.mp hmem
      rw [hfirst]
      exact fun e => by cases e
    · exact hn n hmem
  unfold Preserved
  rw [hflag]
  constructor
  · intro hp
    rw [← hp.2, decide_eq_true_iff]
  · intro hb
    refine ⟨hlog, ?_⟩
    by_cases hz : s.disableCounter = 0
    · rw [decide_eq_true hz, hb.mp hz]
    · rw [decide_eq_false hz]
      exact ((Bool.not_eq_true _).mp fun ht => hz (hb.mpr ht)).symm

/-- The tick, from its lock to its last unlock. -/
theorem pitIrqHandler_preserved {frame : F} {cur : P} (hcur : s.currThread = some cur)
    (h : Prod.snd <$> pitIrqHandler fuel frame ⟨s, []⟩ = .ok y) :
    Preserved s y ↔ (s.disableCounter = 0 ↔ s.interruptFlag = true) ∧
      (s.disableCounter = 255 → s.firstWoken fuel = none) := by
  obtain ⟨⟨out, y'⟩, hrun, rfl⟩ := map_ok.mp h
  rcases Host.pitIrqHandler_cases hrun with ⟨hnone, -⟩ | ⟨cur', x₁, x₂, now, hcur', hloop, hslice, hunlock, -⟩
  · cases hcur.symm.trans hnone
  obtain rfl : cur = cur' := Option.some.inj (hcur.symm.trans hcur')
  have hend : Unlocks x₁ y' := (checkSlice_quiet hslice).unlocks (unlockScheduler_unlocks hunlock)
  have hsave : Quiet (lockScheduler ⟨s, []⟩)
      ((lockScheduler ⟨s, []⟩).mapSched (·.mapCore (·.saveFrame cur frame))) := .of_lock rfl rfl
  have hcount : ((lockScheduler ⟨s, []⟩).mapSched
      (·.mapCore (·.saveFrame cur frame))).sched.disableCounter = s.disableCounter + 1 := rfl
  have hwalk : Core.firstWoken s.hook fuel s.waitingQueue.head
      ((lockScheduler ⟨s, []⟩).mapSched (·.mapCore (·.saveFrame cur frame))).sched.toCore =
      s.firstWoken fuel := by
    refine Core.firstWoken_congr fun t => ?_
    obtain ⟨r, m, hblock⟩ := s.toCore.lockScheduler.saveFrame_same cur t frame
    show ((s.toCore.lockScheduler.saveFrame cur frame).thread t).state = _ ∧
      ((s.toCore.lockScheduler.saveFrame cur frame).thread t).sleepTime = _
    rw [hblock]
    exact ⟨rfl, rfl⟩
  by_cases hwrap : s.disableCounter = 255
  · cases hw : s.firstWoken fuel with
    | none =>
      have hq := forEach_none (hwalk.trans hw) hloop
      rw [preserved_of_unlocks ((hsave.trans hq).unlocks hend)]
      exact ⟨fun hb => ⟨hb, fun _ => rfl⟩, fun hb => hb.1⟩
    | some w =>
      have hzero : s.disableCounter + 1 = 0 := by
        rw [hwrap]
        rfl
      have hmem := forEach_opens (hcount.trans hzero) (hwalk.trans hw) hloop
      obtain ⟨l, hl, -⟩ := hend.log
      constructor
      · intro hp
        refine absurd rfl (hp.1 (.irq true) ?_)
        rw [hl, List.dropLast_concat]
        exact List.mem_append_left _ hmem
      · intro hb
        cases hb.2 hwrap
  · have hne : s.disableCounter + 1 ≠ 0 := by
      intro hz
      apply hwrap
      bv_omega
    have hq := forEach_quiet (hcount ▸ hne) rfl hloop
    rw [preserved_of_unlocks ((hsave.trans hq).unlocks hend)]
    exact ⟨fun hb => ⟨hb, fun hh => absurd hh hwrap⟩, fun hb => hb.1⟩

/-- **When a scheduler operation preserves the interrupt flag.** For every state, every operation
and every flag on entry, if the operation returns, then interrupts were off up to its last unlock
and are afterwards what they were, exactly if they were on just when the counter of the scheduler
was zero. -/
theorem interruptFlag_preserved_iff {e : Entry P F} (h : enter fuel ⟨s, []⟩ e = .ok y) :
    Preserved s y ↔ Balanced fuel s e := by
  cases e with
  | yield => exact preserved_of_unlocks (yield_unlocks h)
  | sleep milli => exact preserved_of_unlocks (sleep_unlocks h)
  | block => exact preserved_of_unlocks (block_unlocks h)
  | unblock t => exact preserved_of_unlocks (unblock_unlocks h)
  | pitIrqHandler frame =>
    unfold Balanced
    cases hcur : s.currThread with
    | none =>
      obtain ⟨⟨out, y'⟩, hrun, rfl⟩ := map_ok.mp h
      rcases Host.pitIrqHandler_cases hrun with ⟨-, -, rfl⟩ | ⟨cur, x₁, x₂, now, hcur', -⟩
      · exact ⟨fun _ => .inl rfl, fun _ => ⟨fun n hn => absurd hn List.not_mem_nil, rfl⟩⟩
      · cases hcur.symm.trans hcur'
    | some cur =>
      rw [pitIrqHandler_preserved hcur h]
      exact ⟨.inr, fun hb => hb.resolve_left fun e => by cases e⟩

/-- Idle alone, with the interrupt flag `i`. -/
def idleWith (i : Bool) : Sched (Fin 1) Unit Unit :=
  (Sched.boot (fun _ => .construct 0 () ()) (fun _ => .construct 0 false) 0 |>.construct 0).mapCore
    fun c => { c with interruptFlag := i }

/-- From thread code, with interrupts on. -/
theorem interruptFlag_preserved_thread :
    ∃ y, enter 1 ⟨idleWith true, []⟩ .yield = .ok y ∧ Preserved (idleWith true) y := by
  have hrun : ((enter 1 ⟨idleWith true, []⟩ .yield).toOption.map (·.log)) =
      some [.irq false, .irq true] := by decide +kernel
  obtain ⟨y, hy, -⟩ := Option.map_eq_some_iff.mp hrun
  cases ho : enter 1 ⟨idleWith true, []⟩ .yield with
  | error e =>
    rw [ho] at hy
    cases hy
  | ok y' => exact ⟨y', rfl, (interruptFlag_preserved_iff ho).mpr ⟨fun _ => rfl, fun _ => rfl⟩⟩

/-- **Interrupts are opened under the caller.** `pit_irq_handler`, entered through an interrupt gate
with the flag clear, returns with it set. -/
theorem interruptFlag_opened : ∃ y, enter 1 ⟨idleWith false, []⟩ (.pitIrqHandler ()) = .ok y ∧
    ¬ Preserved (idleWith false) y := by
  have hrun : ((enter 1 ⟨idleWith false, []⟩ (.pitIrqHandler ())).toOption.map
      (·.sched.interruptFlag)) = some true := by decide +kernel
  obtain ⟨y, hy, hflag⟩ := Option.map_eq_some_iff.mp hrun
  cases ho : enter 1 ⟨idleWith false, []⟩ (.pitIrqHandler ()) with
  | error e =>
    rw [ho] at hy
    cases hy
  | ok y' =>
    rw [ho] at hy
    cases hy
    refine ⟨y, rfl, fun hp => ?_⟩
    rw [hp.2] at hflag
    cases hflag

end Traced

end TwoKernel
