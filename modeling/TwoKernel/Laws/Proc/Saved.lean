import TwoKernel.Laws.Proc.Scheduler
import TwoKernel.Laws.Std.SingleDeque

/-!
# What a tick does to saved contexts

`registers` is written in one place, at the head of `pit_irq_handler`, and read in one place,
at its end. Everything between leaves it alone, on any queues and under any lock. So a tick
that has a current thread stores the frame there and returns the one of the thread that is
current afterwards (`pitTick_saved`).
-/

namespace TwoKernel

variable {P Q F : Type} [DecidableEq P] [DecidableEq Q]

namespace Core

/-- The context of every thread. -/
def saved (c : Core P Q F) : P → F := fun t => (c.thread t).registers

section saved

variable (c : Core P Q F) (t cur next : P)

section

omit [DecidableEq Q]

private theorem saved_modify {f : ThreadBlock Q F → ThreadBlock Q F}
    (hf : ∀ b, (f b).registers = b.registers) : (c.modify t f).saved = c.saved := by
  funext u
  unfold saved
  rw [modify_thread]
  split
  · next h => rw [hf, h]
  · rfl

private theorem saved_setState (st : ThreadState) : (c.setState t st).saved = c.saved :=
  c.saved_modify t fun _ => rfl

private theorem saved_enter : (c.enter t).saved = c.saved :=
  saved_modify { c with currThread := some t } t fun _ => rfl

end

private theorem saved_dispatch : (c.dispatch cur next).saved = c.saved := by
  unfold dispatch
  split_ifs
  · exact c.saved_enter next
  · exact ((c.loadStack next).loadCr3 next).saved_enter next
  · exact (c.loadStack next).saved_enter next

omit [DecidableEq Q] in
/-- A frame is saved for one thread. -/
theorem saved_saveFrame (frame : F) :
    (c.saveFrame t frame).saved = Function.update c.saved t frame := by
  funext u
  unfold saved
  rw [saveFrame_thread]
  by_cases h : u = t
  · rw [if_pos h, h, Function.update_self]
  · rw [if_neg h, Function.update_of_ne h]

end saved

end Core

namespace Sched

variable {s s' : Sched P Q F} {t next : P} {fuel : Nat}

omit [DecidableEq Q] in
theorem addReadyThreads_saved : (s.addReadyThreads t).toCore.saved = s.toCore.saved := by
  unfold addReadyThreads
  split_ifs
  · exact ((s.toCore.loadStack t).loadCr3 t).saved_enter t
  · exact s.toCore.saved_setState t .ready
  · have hbudget : (s.toCore.markReady t).saved = (s.toCore.setState t .ready).saved :=
      Core.saved_modify _ t fun _ => rfl
    exact hbudget.trans (s.toCore.saved_setState t .ready)

private theorem switchTask_saved (h : s.switchTask next = .ok s') : s'.toCore.saved = s.toCore.saved := by
  obtain ⟨cur, -, h⟩ := bind_ok.mp h
  cases h
  refine (Core.saved_dispatch _ cur next).trans ?_
  split
  · exact (Core.saved_setState _ next .running).trans addReadyThreads_saved
  · rfl

private theorem switchHead_saved (h : s.switchHead = .ok s') : s'.toCore.saved = s.toCore.saved := by
  obtain ⟨next, -, h⟩ := switchHead_cases h
  exact (switchTask_saved h).trans (s.toCore.saved_setState next .running)

private theorem switchNow_saved (h : s.switchNow = .ok s') : s'.toCore.saved = s.toCore.saved := by
  rcases switchNow_cases h with ⟨-, h⟩ | ⟨-, ⟨-, cur, -, h⟩ | ⟨-, h⟩⟩
  · exact switchTask_saved h
  · have hpaid : (s.toCore.payQuantum cur).saved = s.toCore.saved := by
      refine s.toCore.saved_modify cur fun b => ?_
      dsimp only
      split <;> rfl
    exact (switchHead_saved h).trans hpaid
  · exact switchHead_saved h

private theorem schedule_saved (h : s.schedule = .ok s') : s'.toCore.saved = s.toCore.saved := by
  by_cases hk : s.taskSwitchCounter = 0
  · rw [schedule_unlocked hk] at h
    exact switchNow_saved h
  · cases (schedule_locked hk).symm.trans h
    rfl

private theorem unlockScheduler_saved (h : s.unlockScheduler = .ok s') :
    s'.toCore.saved = s.toCore.saved := by
  rcases unlockScheduler_cases h with ⟨-, s₁, hs₁, rfl⟩ | ⟨-, rfl⟩
  · have hswitched := schedule_saved hs₁
    exact hswitched
  · rfl

private theorem wake_saved (h : s.wake fuel t = .ok s') : s'.toCore.saved = s.toCore.saved := by
  obtain ⟨s₁, hs₁, h⟩ := bind_ok.mp h
  obtain ⟨r, -, hr⟩ := bind_ok.mp hs₁
  have hremoved : s₁.toCore.saved = s.toCore.saved := by
    cases hr
    rfl
  have hwoken : (s₁.toCore.markWoken t).saved = s₁.toCore.saved :=
    s₁.toCore.saved_modify t fun _ => rfl
  dsimp only at h
  split at h
  · exact ((switchTask_saved h).trans hwoken).trans hremoved
  · cases h
    exact hwoken.trans hremoved

private theorem unblock_saved (h : s.unblock fuel t = .ok s') : s'.toCore.saved = s.toCore.saved := by
  obtain ⟨s₁, hs₁, h⟩ := bind_ok.mp h
  have hwoken := wake_saved hs₁
  exact (unlockScheduler_saved h).trans hwoken

private theorem wakeSleeper_saved (h : s.wakeSleeper fuel t = .ok s') :
    s'.toCore.saved = s.toCore.saved := by
  have hcount : (s.toCore.countDown t).saved = s.toCore.saved :=
    s.toCore.saved_modify t fun b => by split <;> rfl
  rcases wakeSleeper_cases h with ⟨-, rfl⟩ | ⟨-, ⟨-, h⟩ | ⟨-, rfl⟩⟩
  · rfl
  · exact (unblock_saved h).trans hcount
  · exact hcount

private theorem checkSlice_saved (h : s.checkSlice = .ok s') : s'.toCore.saved = s.toCore.saved := by
  obtain ⟨cur, -, h⟩ := bind_ok.mp h
  simp only [pure_eq_ok] at h
  split_ifs at h
  · exact schedule_saved h
  · have hswitched := schedule_saved h
    exact hswitched
  · rw [← Except.ok.inj h]

/-- **What a tick does to saved contexts.** -/
theorem pitTick_saved {frame out : F} (h : s.pitTick fuel frame = .ok (out, s')) :
    s.currThread = none ∧ out = frame ∧ s'.toCore.saved = s.toCore.saved ∨
      ∃ cur now, s.currThread = some cur ∧ s'.currThread = some now ∧
        out = s'.toCore.saved now ∧
        s'.toCore.saved = Function.update s.toCore.saved cur frame := by
  rcases pitTick_cases h with ⟨hnone, rfl, rfl⟩ | ⟨cur, s₁, s₂, now, hcur, hs₁, hs₂, hs₃, hnow, rfl⟩
  · exact .inl ⟨hnone, rfl, rfl⟩
  · -- the loop over the sleepers keeps what its body keeps
    obtain ⟨-, hloop⟩ := SingleDeque.forEach_invariant
      (I := fun _ _ (x : Sched P Q F) => x.toCore.saved = Function.update s.toCore.saved cur frame)
      (fun _ _ _ _ hI hbody => (wakeSleeper_saved hbody).trans hI) _ _ _ _ _ hs₁
      (Core.saved_saveFrame _ cur frame)
    exact .inr ⟨cur, now, hcur, hnow, rfl,
      ((unlockScheduler_saved hs₃).trans (checkSlice_saved hs₂)).trans hloop⟩

end Sched

end TwoKernel
