import TwoKernel.Laws.Proc.Atomic

/-!
# What a switch does to the queues

`switch_task` reads the state of the outgoing thread to decide whether to queue
it again. These lemmas say, for the switch and for everything built from it,
which thread is current afterwards and what the two lists are. `Requeues` is
the decision: a Running current thread other than idle.
-/

namespace TwoKernel.Queued

variable {P Q F : Type} [DecidableEq P] [DecidableEq Q]
variable (a : Queued P Q F) (t next u : P)

/-- `switch_task` puts the outgoing thread back. -/
def Requeues : Prop := (a.thread a.cur).state = .running ∧ a.cur ≠ a.idleThread

instance : Decidable a.Requeues := inferInstanceAs (Decidable (_ ∧ _))

omit [DecidableEq P] [DecidableEq Q] in
theorem cur_eq {a : Queued P Q F} {c : P} (h : a.currThread = some c) : a.cur = c := by
  simp only [cur, h, Option.getD_some]

/-! ## Queuing a thread -/

section add

omit [DecidableEq Q]

/-- A queued thread goes to the end of the ready list. -/
@[simp] theorem addReadyThreads_ready : (a.addReadyThreads t).ready = a.ready ++ [t] := by
  unfold addReadyThreads
  split <;> rfl

@[simp] theorem addReadyThreads_waiting : (a.addReadyThreads t).waiting = a.waiting := by
  unfold addReadyThreads
  split <;> rfl

@[simp] theorem addReadyThreads_currThread : (a.addReadyThreads t).currThread = a.currThread := by
  unfold addReadyThreads
  split <;> rfl

@[simp] theorem addReadyThreads_idleThread : (a.addReadyThreads t).idleThread = a.idleThread := by
  unfold addReadyThreads
  split <;> rfl

@[simp] theorem addReadyThreads_tick : (a.addReadyThreads t).tick = a.tick := by
  unfold addReadyThreads
  split <;> rfl

@[simp] theorem addReadyThreads_lock : (a.addReadyThreads t).toCore.lock = a.toCore.lock := by
  unfold addReadyThreads
  split <;> rfl

@[simp] theorem addReadyThreads_cur : (a.addReadyThreads t).cur = a.cur := by
  simp only [cur, addReadyThreads_currThread, addReadyThreads_idleThread]

/-- Queuing `t` leaves every other block alone. -/
theorem addReadyThreads_thread_of_ne (h : u ≠ t) : (a.addReadyThreads t).thread u = a.thread u := by
  unfold addReadyThreads
  split
  · exact a.toCore.setState_thread_of_ne t u .ready h
  · exact (Core.modify_thread_of_ne _ t u _ h).trans (a.toCore.setState_thread_of_ne t u .ready h)

end add

/-! ## The switch itself -/

/-- After the switch the incoming thread is current. -/
@[simp] theorem switchTask_currThread : (a.switchTask next).currThread = some next :=
  Core.dispatch_currThread _ _ _

@[simp] theorem switchTask_cur : (a.switchTask next).cur = next := cur_eq (a.switchTask_currThread next)

@[simp] theorem switchTask_idleThread : (a.switchTask next).idleThread = a.idleThread := by
  refine (Core.dispatch_idleThread _ _ _).trans ?_
  split
  · exact a.addReadyThreads_idleThread a.cur
  · rfl

/-- A switch leaves the waiting list alone. -/
@[simp] theorem switchTask_waiting : (a.switchTask next).waiting = a.waiting := by
  show Queued.waiting (if _ then _ else _) = _
  split
  · exact a.addReadyThreads_waiting a.cur
  · rfl

/-- Only a thread that is put back changes the ready list. -/
theorem switchTask_ready :
    (a.switchTask next).ready = if a.Requeues then a.ready ++ [a.cur] else a.ready := by
  by_cases h : a.Requeues
  · rw [if_pos h]
    simp only [switchTask, if_pos (show _ ∧ _ from h)]
    exact a.addReadyThreads_ready a.cur
  · rw [if_neg h]
    simp only [switchTask, if_neg (show ¬ (_ ∧ _) from h)]
    rfl

@[simp] theorem switchTask_lock : (a.switchTask next).toCore.lock = a.toCore.lock :=
  congrArg (·.toCore.lock) (a.switchTask_withLock a.toCore.lock next)

@[simp] theorem switchTask_tick : (a.switchTask next).tick = a.tick := by
  refine (Core.dispatch_tick _ _ _).trans ?_
  split
  · exact a.addReadyThreads_tick a.cur
  · rfl

/-- The incoming thread's block when nobody is queued again: its slice starts now. -/
theorem switchTask_thread_next (h : ¬ a.Requeues) :
    (a.switchTask next).thread next =
      { a.thread next with execStartMs := a.toCore.getTimeMilliseconds } := by
  simp only [switchTask, if_neg (show ¬ (_ ∧ _) from h)]
  exact (Core.dispatch_thread a.toCore next a.cur next).trans (if_pos rfl)

/-- A thread that is neither outgoing nor incoming keeps its block. -/
theorem switchTask_thread_of_ne (hc : u ≠ a.cur) (hn : u ≠ next) :
    (a.switchTask next).thread u = a.thread u := by
  refine ((Core.dispatch_thread _ u a.cur next).trans (if_neg hn)).trans ?_
  split
  · exact (Core.setState_thread_of_ne _ next u .running hn).trans
      (a.addReadyThreads_thread_of_ne a.cur u hc)
  · rfl

/-! ## The decision of `schedule()` -/

/-- With nobody ready, the switch is to idle. -/
theorem switchNow_nil (h : a.ready = []) : a.switchNow = a.switchTask a.idleThread := by
  unfold switchNow
  rw [h]

/-- The state `schedule()` hands to `switch_task` once it has popped `next`. -/
def popped (rest : List P) (a : Queued P Q F) : Queued P Q F :=
  let b := if a.timeQuantumPast then a.mapCore (·.payQuantum a.cur) else a
  { b with ready := rest, toCore := b.toCore.setState next .running }

/-- With somebody ready, it is to the first of them. -/
theorem switchNow_cons {rest : List P} (h : a.ready = next :: rest) :
    a.switchNow = (a.popped next rest).switchTask next := by
  unfold switchNow popped
  rw [h]

section popped

omit [DecidableEq Q]

variable (rest : List P)

@[simp] theorem popped_ready : (a.popped next rest).ready = rest := rfl

@[simp] theorem popped_waiting : (a.popped next rest).waiting = a.waiting := by
  unfold popped
  split <;> rfl

@[simp] theorem popped_currThread : (a.popped next rest).currThread = a.currThread := by
  unfold popped
  split <;> rfl

@[simp] theorem popped_idleThread : (a.popped next rest).idleThread = a.idleThread := by
  unfold popped
  split <;> rfl

@[simp] theorem popped_cur : (a.popped next rest).cur = a.cur := by
  simp only [cur, popped_currThread, popped_idleThread]

/-- The popped thread is Running, and nobody else's state changes. -/
theorem popped_state : ((a.popped next rest).thread u).state =
    if u = next then .running else (a.thread u).state := by
  unfold popped
  refine (Core.setState_state _ next u .running).trans ?_
  congr 1
  split
  · exact a.toCore.payQuantum_state a.cur u
  · rfl

end popped

/-- Nobody starts or stops waiting when `schedule()` switches. -/
@[simp] theorem switchNow_waiting : a.switchNow.waiting = a.waiting := by
  cases h : a.ready with
  | nil => rw [switchNow_nil a h, switchTask_waiting]
  | cons next rest => rw [switchNow_cons a next h, switchTask_waiting, popped_waiting]

@[simp] theorem switchNow_idleThread : a.switchNow.idleThread = a.idleThread := by
  cases h : a.ready with
  | nil => rw [switchNow_nil a h, switchTask_idleThread]
  | cons next rest => rw [switchNow_cons a next h, switchTask_idleThread, popped_idleThread]

@[simp] theorem switchNow_tick : a.switchNow.tick = a.tick := by
  cases h : a.ready with
  | nil => rw [switchNow_nil a h, switchTask_tick]
  | cons next rest =>
    rw [switchNow_cons a next h, switchTask_tick]
    unfold popped
    split <;> rfl

/-- Whoever is first in the queue runs next; nobody there means idle. -/
theorem switchNow_currThread : a.switchNow.currThread = some (a.ready.headD a.idleThread) := by
  cases h : a.ready with
  | nil => rw [switchNow_nil a h, switchTask_currThread, List.headD_nil]
  | cons next rest => rw [switchNow_cons a next h, switchTask_currThread, List.headD_cons]

/-! ## Waking -/

/-- Idle has the processor and nobody is ready: the case in which a woken thread gets it. -/
def Idling : Prop := a.ready = [] ∧ a.currThread = some a.idleThread

instance : Decidable a.Idling := inferInstanceAs (Decidable (_ ∧ _))

/-- Waking while idle runs alone is a switch to the woken thread. -/
theorem wake_idling (h : a.Idling) : a.wake t = (a.release t).switchTask t := if_pos h

/-- Otherwise the woken thread is queued. -/
theorem wake_busy (h : ¬ a.Idling) : a.wake t = (a.release t).pushReady t := if_neg h

/-- The woken thread no longer waits. -/
@[simp] theorem wake_waiting : (a.wake t).waiting = a.waiting.erase t := by
  unfold wake
  split
  · rw [switchTask_waiting]
    rfl
  · rfl

/-- The visit of a sleeper unlinks that one or nobody. -/
theorem visit_waiting : (a.visit t).waiting = a.waiting ∨ (a.visit t).waiting = a.waiting.erase t := by
  unfold visit
  split
  · exact Or.inl rfl
  · split
    · exact Or.inr (wake_waiting _ t)
    · exact Or.inl rfl

@[simp] theorem wake_idleThread : (a.wake t).idleThread = a.idleThread := by
  unfold wake
  split
  · exact (a.release t).switchTask_idleThread t
  · rfl

@[simp] theorem visit_idleThread : (a.visit t).idleThread = a.idleThread := by
  unfold visit
  split
  · rfl
  · split
    · exact wake_idleThread _ t
    · rfl

@[simp] theorem wake_tick : (a.wake t).tick = a.tick := by
  unfold wake
  split
  · exact (a.release t).switchTask_tick t
  · rfl

@[simp] theorem visit_tick : (a.visit t).tick = a.tick := by
  unfold visit
  split
  · rfl
  · split
    · exact wake_tick _ t
    · rfl

@[simp] theorem wake_lock : (a.wake t).toCore.lock = a.toCore.lock := by
  unfold wake
  split
  · exact (a.release t).switchTask_lock t
  · rfl

@[simp] theorem visit_lock : (a.visit t).toCore.lock = a.toCore.lock := by
  unfold visit
  split
  · rfl
  · split
    · exact wake_lock _ t
    · rfl

/-- A sleeper that is due is woken. -/
theorem visit_due (h : a.toCore.due t = true) :
    a.visit t = (a.mapCore (·.countDown t)).wake t := by
  simp only [Core.due, decide_eq_true_eq] at h
  unfold visit
  rw [if_neg h.1]
  exact if_pos ((a.toCore.countDown_sleepTime t).mpr h.2)

/-- A thread that is not due is at most counted down. -/
theorem visit_not_due (h : a.toCore.due t = false) :
    a.visit t = a ∨ a.visit t = a.mapCore (·.countDown t) := by
  simp only [Core.due, decide_eq_false_iff_not, not_and] at h
  unfold visit
  by_cases hb : (a.thread t).state = .blocked
  · exact Or.inl (if_pos hb)
  · rw [if_neg hb]
    exact Or.inr (if_neg fun hz => h hb ((a.toCore.countDown_sleepTime t).mp hz))

/-! ## Who is current after the sleeper loop -/

variable {a t}

/-- Unless idle has the processor to itself, a visit changes neither the current thread nor the
block of any thread but the one visited. -/
theorem visit_busy (h : ¬ a.Idling) :
    (a.visit t).currThread = a.currThread ∧ ¬ (a.visit t).Idling ∧
      ∀ v, v ≠ t → (a.visit t).thread v = a.thread v := by
  cases hd : a.toCore.due t with
  | false =>
    rcases a.visit_not_due t hd with e | e
    · rw [e]
      exact ⟨rfl, h, fun _ _ => rfl⟩
    · rw [e]
      exact ⟨rfl, h, fun v hv => a.toCore.countDown_thread_of_ne t v hv⟩
  | true =>
    rw [a.visit_due t hd, wake_busy _ t (show ¬ (a.mapCore (·.countDown t)).Idling from h)]
    refine ⟨rfl, ?_, ?_⟩
    · rintro ⟨hr, -⟩
      exact absurd hr (List.append_ne_nil_of_right_ne_nil _ (by simp))
    · intro v hv
      exact (Core.markWoken_thread_of_ne _ t v hv).trans (a.toCore.countDown_thread_of_ne t v hv)

/-- A walk while somebody runs or is ready switches to nobody. -/
theorem visitAll_busy {l : List P} (h : ¬ a.Idling) :
    (a.visitAll l).currThread = a.currThread ∧ ∀ v, v ∉ l → (a.visitAll l).thread v = a.thread v := by
  induction l generalizing a with
  | nil => exact ⟨rfl, fun _ _ => rfl⟩
  | cons u l ih =>
    obtain ⟨hcur, hb, hth⟩ := visit_busy (t := u) h
    obtain ⟨hcur', hth'⟩ := ih hb
    refine ⟨hcur'.trans hcur, fun v hv => ?_⟩
    rw [List.mem_cons, not_or] at hv
    exact (hth' v hv.2).trans (hth v hv.1)

/-- A due thread found by idle alone becomes current, Ready and not Running. -/
theorem visit_idling_due (h : a.Idling) (hd : a.toCore.due t = true) :
    (a.visit t).currThread = some t ∧
      (a.visit t).thread t = Core.woken a.toCore.getTimeMilliseconds (a.thread t) := by
  have hi : (a.mapCore (·.countDown t)).Idling := h
  rw [a.visit_due t hd, wake_idling _ t hi]
  refine ⟨switchTask_currThread _ t, ?_⟩
  have hreq : ¬ ((a.mapCore (·.countDown t)).release t).Requeues := fun hr => hr.2 (cur_eq h.2)
  rw [switchTask_thread_next _ t hreq]
  have hwoken : ((a.mapCore (·.countDown t)).release t).thread t =
      { a.thread t with state := .ready, sleepTime := 0 } := by
    show ((a.toCore.countDown t).markWoken t).thread t = _
    simp only [Core.markWoken, Core.countDown, Core.modify_thread_self]
    split <;> rfl
  rw [hwoken]
  rfl

/-- While idle has the processor to itself, the first due thread of the list gets it. -/
theorem visitAll_idling {l : List P} (h : a.Idling) (hnd : l.Nodup) (hidle : a.idleThread ∉ l) :
    (a.toCore.firstDue l = none → (a.visitAll l).currThread = some a.idleThread) ∧
    ∀ d, a.toCore.firstDue l = some d →
      (a.visitAll l).currThread = some d ∧
        (a.visitAll l).thread d = Core.woken a.toCore.getTimeMilliseconds (a.thread d) := by
  induction l generalizing a with
  | nil => exact ⟨fun _ => h.2, fun d hd => by cases hd⟩
  | cons u l ih =>
    obtain ⟨hul, hnd⟩ := List.nodup_cons.mp hnd
    rw [List.mem_cons, not_or] at hidle
    cases hd : a.toCore.due u with
    | true =>
      rw [Core.firstDue_cons_due a.toCore u hd]
      refine ⟨fun e => (by cases e), ?_⟩
      rintro d ⟨⟩
      obtain ⟨hcur, hth⟩ := visit_idling_due h hd
      have hbusy : ¬ (a.visit u).Idling := by
        rintro ⟨-, e⟩
        rw [hcur, visit_idleThread, Option.some_inj] at e
        exact hidle.1 e.symm
      obtain ⟨hcur', hth'⟩ := visitAll_busy (l := l) hbusy
      exact ⟨hcur'.trans hcur, (hth' u hul).trans hth⟩
    | false =>
      rw [Core.firstDue_cons_not_due a.toCore u hd]
      -- nothing but the block of `u` changes, and `u` is not visited again
      have hstep : (a.visit u).Idling ∧ (a.visit u).idleThread = a.idleThread ∧
          (a.visit u).toCore.getTimeMilliseconds = a.toCore.getTimeMilliseconds ∧
          ∀ v, v ≠ u → (a.visit u).thread v = a.thread v := by
        rcases a.visit_not_due u hd with e | e
        · rw [e]
          exact ⟨h, rfl, rfl, fun _ _ => rfl⟩
        · rw [e]
          exact ⟨h, rfl, rfl, fun v hv => a.toCore.countDown_thread_of_ne u v hv⟩
      obtain ⟨hi, hid, htime, hth⟩ := hstep
      have hfind : (a.visit u).toCore.firstDue l = a.toCore.firstDue l :=
        Core.firstDue_congr fun v hv => hth v fun e => hul (e ▸ hv)
      obtain ⟨hnone, hsome⟩ := ih hi hnd (by rw [hid]; exact hidle.2)
      rw [hfind, hid] at hnone
      rw [hfind] at hsome
      refine ⟨hnone, fun d hd => ?_⟩
      have hdu : d ≠ u := fun e => hul (e ▸ List.mem_of_find?_eq_some hd)
      obtain ⟨hcur, hblock⟩ := hsome d hd
      rw [hth d hdu, htime] at hblock
      exact ⟨hcur, hblock⟩

end TwoKernel.Queued
