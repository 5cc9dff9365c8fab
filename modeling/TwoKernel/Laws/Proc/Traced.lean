import TwoKernel.Laws.Proc.Dispatch
import TwoKernel.Proc.Traced

/-!
# The traced scheduler is the scheduler

Without its log, each traced function is the function it records
(`schedule_erase` to `pitIrqHandler_erase`), so what is proved of a log is proved of
the calls. `Notes N x x'` says that a step adds to the log, and only notes that
satisfy `N`.
-/

namespace TwoKernel.Traced

variable {P Q F : Type} [DecidableEq P] [DecidableEq Q]
variable (x : Traced P Q F)

/-! ## Erasing the log -/

section

omit [DecidableEq P] [DecidableEq Q]

private theorem lift_erase (f : Sched P Q F → Outcome (Sched P Q F)) :
    sched <$> x.lift f = f x.sched := by
  unfold lift
  cases f x.sched <;> rfl

/-- Erasure passes through a sequence. -/
theorem bind_erase {α β γ δ : Type} {g : α → β} {g' : γ → δ} {o : Outcome α} {o' : Outcome β}
    {f : α → Outcome γ} {f' : β → Outcome δ} (ho : g <$> o = o')
    (hf : ∀ a, g' <$> f a = f' (g a)) : g' <$> (o >>= f) = (o' >>= f') := by
  subst ho
  cases o with
  | error e => rfl
  | ok a => exact hf a

/-- Erasure passes through a test. -/
theorem ite_erase {α β : Type} {g : α → β} {c : Prop} [Decidable c] {o₁ o₂ : Outcome α}
    {o₁' o₂' : Outcome β} (h₁ : g <$> o₁ = o₁') (h₂ : g <$> o₂ = o₂') :
    g <$> (if c then o₁ else o₂) = if c then o₁' else o₂' := by
  split
  · exact h₁
  · exact h₂

/-- Reading through a pointer leaves the log alone. -/
theorem deref_erase {α β γ : Type} {g : β → γ} (p : Option α) {f : α → Outcome β}
    {f' : α → Outcome γ} (hf : ∀ a, g <$> f a = f' a) :
    g <$> (deref p >>= f) = (deref p >>= f') :=
  bind_erase (g := id) (id_map _) hf

end

private theorem switchNow_erase : sched <$> Host.switchNow x = x.sched.switchNow := by
  refine ite_erase (lift_erase x _) (ite_erase ?_ (lift_erase x _))
  exact deref_erase _ fun cur => lift_erase _ _

/-- Without its notes, `schedule` is the scheduler's. -/
theorem schedule_erase : sched <$> x.schedule = x.sched.schedule :=
  ite_erase rfl (switchNow_erase x)

private theorem unlockScheduler_erase : sched <$> x.unlockScheduler = x.sched.unlockScheduler := by
  refine ite_erase ?_ rfl
  exact bind_erase (schedule_erase _) fun _ => rfl

/-- A call that marks and queues the current thread, asks for a switch, and unlocks. -/
theorem request_erase (body : P → Sched P Q F → Sched P Q F) :
    sched <$> x.request body = x.sched.request body :=
  deref_erase _ fun _ => bind_erase (schedule_erase _) unlockScheduler_erase

theorem yield_erase : sched <$> x.yield = x.sched.yield := request_erase x _

theorem sleep_erase (milli : Word) : sched <$> x.sleep milli = x.sched.sleep milli :=
  request_erase x _

theorem block_erase : sched <$> x.block = x.sched.block := request_erase x _

theorem unblock_erase (fuel : Nat) (t : P) :
    sched <$> x.unblock fuel t = x.sched.unblock fuel t :=
  bind_erase (lift_erase _ _) unlockScheduler_erase

private theorem wakeSleeper_erase (fuel : Nat) (t : P) :
    sched <$> x.wakeSleeper fuel t = x.sched.wakeSleeper fuel t :=
  ite_erase rfl (ite_erase (unblock_erase _ fuel t) rfl)

theorem iterate_erase (fuel : Nat) (d : SingleDeque P) :
    sched <$> d.iterate (·.sched.hook) (wakeSleeper fuel) fuel x =
      d.iterate Sched.hook (Sched.wakeSleeper fuel) fuel x.sched :=
  (SingleDeque.forEach_map (fun _ => rfl) (fun p y => (wakeSleeper_erase y fuel p).symm)
    fuel _ _ x).symm

private theorem checkSlice_erase : sched <$> x.checkSlice = x.sched.checkSlice :=
  deref_erase _ fun _ => ite_erase (schedule_erase x) (ite_erase (schedule_erase _) rfl)

/-- Without its notes, a tick is the scheduler's. -/
theorem pitIrqHandler_erase (fuel : Nat) (frame : F) :
    (fun r => (r.1, r.2.sched)) <$> x.pitIrqHandler fuel frame =
      x.sched.pitIrqHandler fuel frame := by
  unfold pitIrqHandler Sched.pitIrqHandler Host.pitIrqHandler
  cases x.sched.currThread with
  | none => rfl
  | some cur =>
    refine bind_erase (iterate_erase _ fuel _) fun y => ?_
    refine bind_erase (checkSlice_erase y) fun y => ?_
    refine bind_erase (unlockScheduler_erase y) fun y => ?_
    exact deref_erase _ fun _ => rfl

/-! ## What a step adds to the log -/

variable {x} {y z : Traced P Q F} {N : Note → Prop}

/-- A step that adds notes to the log, all of them satisfying `N`. -/
def Notes (N : Note → Prop) (x y : Traced P Q F) : Prop :=
  ∃ l, y.log = x.log ++ l ∧ ∀ n ∈ l, N n

section Notes

omit [DecidableEq P] [DecidableEq Q]

theorem Notes.of_eq (h : y.log = x.log) : Notes N x y :=
  ⟨[], by rw [h, List.append_nil], fun _ hn => absurd hn List.not_mem_nil⟩

theorem Notes.trans (h : Notes N x y) (h' : Notes N y z) : Notes N x z := by
  obtain ⟨l, hl, hN⟩ := h
  obtain ⟨l', hl', hN'⟩ := h'
  refine ⟨l ++ l', by rw [hl', hl, List.append_assoc], fun n hn => ?_⟩
  rcases List.mem_append.mp hn with hn | hn
  · exact hN n hn
  · exact hN' n hn

theorem Notes.mono {N' : Note → Prop} (h : Notes N x y) (hN : ∀ n, N n → N' n) : Notes N' x y := by
  obtain ⟨l, hl, hmem⟩ := h
  exact ⟨l, hl, fun n hn => hN n (hmem n hn)⟩

theorem notes_note {n : Note} (h : N n) : Notes N x (x.note n) :=
  ⟨[n], rfl, fun m hm => by rw [List.mem_singleton.mp hm]; exact h⟩

/-- What is lifted notes nothing. -/
theorem lift_ok {f : Sched P Q F → Outcome (Sched P Q F)} (h : x.lift f = .ok y) :
    f x.sched = .ok y.sched ∧ y.log = x.log := by
  obtain ⟨s, hs, h⟩ := bind_ok.mp h
  cases h
  exact ⟨hs, rfl⟩

end Notes

private theorem switchNow_notes (h : Host.switchNow x = .ok y) :
    Notes (fun n => x.sched.timeQuantumPast = true ∧
      ∃ cur, x.sched.currThread = some cur ∧ n = .pay (x.sched.thread cur).scheduledTime) x y := by
  by_cases he : x.sched.readyThreads.empty = true
  · have h : x.lift (fun s => s.switchTask s.idleThread) = .ok y := (if_pos he).symm.trans h
    exact .of_eq (lift_ok h).2
  · by_cases hq : x.sched.timeQuantumPast = true
    · have h : (deref x.sched.currThread >>= fun cur =>
          ((x.note (.pay (x.sched.thread cur).scheduledTime)).mapSched
            (·.mapCore (·.payQuantum cur))).lift Sched.switchHead) = .ok y :=
        ((if_neg he).trans (if_pos hq)).symm.trans h
      obtain ⟨cur, hcur, h⟩ := bind_ok.mp h
      exact Notes.trans (notes_note ⟨hq, cur, deref_ok hcur, rfl⟩) (.of_eq (lift_ok h).2)
    · have h : x.lift Sched.switchHead = .ok y := ((if_neg he).trans (if_neg hq)).symm.trans h
      exact .of_eq (lift_ok h).2

/-- `schedule()` notes at most one payment, out of the budget of the current thread, and only if the
quantum flag is set and no lock is held. -/
theorem schedule_notes (h : x.schedule = .ok y) :
    Notes (fun n => x.sched.timeQuantumPast = true ∧ x.sched.taskSwitchCounter = 0 ∧
      ∃ cur, x.sched.currThread = some cur ∧ n = .pay (x.sched.thread cur).scheduledTime) x y := by
  by_cases hk : x.sched.taskSwitchCounter ≠ 0
  · cases (if_pos hk).symm.trans h
    exact .of_eq rfl
  · have h : Host.switchNow x = .ok y := (if_neg hk).symm.trans h
    exact (switchNow_notes h).mono fun n hn => ⟨hn.1, not_not.mp hk, hn.2⟩

end TwoKernel.Traced
