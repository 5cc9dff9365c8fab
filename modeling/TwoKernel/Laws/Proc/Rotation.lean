import TwoKernel.Laws.Proc.Queued
import TwoKernel.Proc.Calls

/-!
# What one switch decision picks

`schedule()` looks at the ready queue before the outgoing thread is put back in
it. With an empty queue it therefore picks idle, also when the outgoing thread
could go on (`schedule_idles_iff`). `yield()` puts its caller in the queue first,
so the caller is picked when it is alone; but then `switch_task` finds a Running
outgoing thread and queues it once more (`yield_rotates_iff`).
-/

namespace TwoKernel

attribute [local instance] neZero_three

variable {P Q F : Type} [DecidableEq P] [DecidableEq Q]

namespace Queued

variable (a : Queued P Q F) (next u : P)

/-- A thread other than the incoming one keeps its block when nobody is queued again. -/
theorem switchTask_thread_stays (h : ¬ a.Requeues) (hn : u ≠ next) :
    (a.switchTask next).thread u = a.thread u := by
  simp only [switchTask, if_neg (show ¬ (_ ∧ _) from h)]
  exact (Core.dispatch_thread a.toCore u a.cur next).trans (if_neg hn)

/-- Idle is picked from an empty queue, and where it is the first in the queue itself. -/
theorem switchNow_idles_iff : a.switchNow.currThread = some a.idleThread ↔
    a.ready = [] ∨ a.ready.head? = some a.idleThread := by
  rw [switchNow_currThread, Option.some_inj]
  cases a.ready with
  | nil => simp only [List.headD_nil, true_or]
  | cons t l => simp only [List.headD_cons, List.head?_cons, Option.some_inj, reduceCtorEq, false_or]

/-- Nobody but idle can run: the queue is empty, and the current thread is idle or not Running. -/
def NothingToRun : Prop := a.ready = [] ∧ (a.cur = a.idleThread ∨ (a.thread a.cur).state ≠ .running)

/-- The queue of the calling thread, rotated by one. -/
structure Rotated (a b : Queued P Q F) : Prop where
  current : b.currThread = (a.ready ++ [a.cur]).head?
  running : (b.thread b.cur).state = .running
  ready : b.ready = (a.ready ++ [a.cur]).tail
  queued : ∀ t ∈ b.ready, (b.thread t).state = .ready
  waiting : b.waiting = a.waiting
  budget : (b.thread a.cur).scheduledTime = defaultScheduleTimeMs

/-! ## `yield` -/

variable {a}

private theorem yield_unlocked (hz : a.taskSwitchCounter = 0) :
    ∃ k, a.yield = a.yieldNow.withLock k :=
  ⟨_, request_unlocked ((a.mapCore (·.markReady a.cur)).pushReady a.cur) a.toCore.lock hz⟩

section

omit [DecidableEq Q]

/-- The caller's block as `yield` queues it. -/
theorem markReady_thread (c : Core P Q F) : (c.markReady u).thread u =
    { c.thread u with state := .ready, scheduledTime := defaultScheduleTimeMs } := by
  simp only [Core.markReady, Core.setState, Core.modify_thread_self]
  rfl

private theorem markReady_thread_of_ne (c : Core P Q F) {t : P} (h : u ≠ t) :
    (c.markReady t).thread u = c.thread u :=
  (Core.modify_thread_of_ne _ t u _ h).trans (Core.modify_thread_of_ne _ t u _ h)

/-- A budget of six milliseconds does not survive paying a quantum of a hundred. -/
theorem payQuantum_default {c : Core P Q F}
    (h : (c.thread u).scheduledTime = defaultScheduleTimeMs) :
    ((c.payQuantum u).thread u).scheduledTime ≠ defaultScheduleTimeMs := by
  have hleft : defaultScheduleTimeMs - defaultTimeQuantum ≠ 0 := by decide
  simp only [Core.payQuantum, Core.modify_thread_self, h, if_neg hleft]
  decide

end

/-- What `schedule()` hands to `switch_task` when somebody else is first in the queue. -/
theorem yieldNow_eq {rest : List P} (hrd : a.ready = next :: rest) :
    a.yieldNow = (((a.mapCore (·.markReady a.cur)).pushReady a.cur).popped next
      (rest ++ [a.cur])).switchTask next := by
  apply switchNow_cons
  show a.ready ++ [a.cur] = _
  rw [hrd, List.cons_append]

/-- Somebody is waiting for the processor: the queue is rotated, and only a quantum that is marked
as past spoils the caller's budget. -/
theorem yieldNow_cons {rest : List P} (hrd : a.ready = next :: rest) (hcur : a.cur ∉ a.ready)
    (hnd : a.ready.Nodup) (hready : ∀ t ∈ a.ready, (a.thread t).state = .ready) :
    a.Rotated a.yieldNow ↔ a.timeQuantumPast = false := by
  let b := (a.mapCore (·.markReady a.cur)).pushReady a.cur
  let c := b.popped next (rest ++ [a.cur])
  have hyield : a.yieldNow = c.switchTask next := yieldNow_eq next hrd
  rw [hrd] at hcur hnd hready
  have hne : a.cur ≠ next := fun e => hcur (e ▸ List.mem_cons_self)
  have hccur : c.cur = a.cur := b.popped_cur next (rest ++ [a.cur])
  -- everybody but the incoming thread is Ready by now
  have hstate : ∀ t, t ≠ next → t = a.cur ∨ t ∈ rest → (c.thread t).state = .ready := by
    intro t ht hmem
    have hpop : (c.thread t).state = (b.thread t).state :=
      (b.popped_state next t (rest ++ [a.cur])).trans (if_neg ht)
    rw [hpop]
    by_cases htc : t = a.cur
    · rw [htc]
      exact congrArg ThreadBlock.state (markReady_thread a.cur a.toCore)
    · have hblock : b.thread t = a.thread t := markReady_thread_of_ne t a.toCore htc
      rw [hblock]
      exact hready t (List.mem_cons_of_mem _ (hmem.resolve_left htc))
  have hreq : ¬ c.Requeues := by
    intro h
    have hrun := h.1
    rw [hccur, hstate a.cur hne (.inl rfl)] at hrun
    cases hrun
  have hkept : ∀ t, t ≠ next → (c.switchTask next).thread t = c.thread t :=
    fun t ht => c.switchTask_thread_stays next t hreq ht
  have hqueue : (c.switchTask next).ready = rest ++ [a.cur] := by
    rw [switchTask_ready, if_neg hreq]
    exact b.popped_ready next (rest ++ [a.cur])
  have hbudget : ((c.switchTask next).thread a.cur).scheduledTime = defaultScheduleTimeMs ↔
      a.timeQuantumPast = false := by
    have hmark : (b.thread a.cur).scheduledTime = defaultScheduleTimeMs :=
      congrArg ThreadBlock.scheduledTime (markReady_thread a.cur a.toCore)
    have hpast : b.timeQuantumPast = a.timeQuantumPast := rfl
    rw [hkept a.cur hne]
    show ((Core.setState next .running _).thread a.cur).scheduledTime = _ ↔ _
    rw [Core.setState_thread_of_ne _ _ _ _ hne, hpast]
    cases a.timeQuantumPast with
    | false => simp only [Bool.false_eq_true, if_false, hmark]
    | true =>
      simp only [if_true, Bool.true_eq_false, iff_false]
      exact payQuantum_default a.cur hmark
  rw [hyield]
  constructor
  · intro h
    exact hbudget.mp h.budget
  · intro hpast
    refine ⟨?_, ?_, ?_, ?_, ?_, hbudget.mpr hpast⟩
    · rw [switchTask_currThread, hrd, List.cons_append, List.head?_cons]
    · rw [switchTask_cur, switchTask_thread_next _ _ hreq]
      exact (b.popped_state next next (rest ++ [a.cur])).trans (if_pos rfl)
    · rw [hqueue, hrd, List.cons_append, List.tail_cons]
    · intro t ht
      rw [hqueue, List.mem_append, List.mem_singleton] at ht
      have htn : t ≠ next := by
        intro e
        cases ht with
        | inl ht => exact (List.nodup_cons.mp hnd).1 (e ▸ ht)
        | inr ht => exact hne (ht.symm.trans e)
      rw [hkept t htn]
      exact hstate t htn ht.symm
    · rw [switchTask_waiting]
      exact b.popped_waiting next (rest ++ [a.cur])

/-- The caller is alone: it becomes current, and is queued as well. -/
theorem yieldNow_nil (hrd : a.ready = []) (hidle : a.cur ≠ a.idleThread) :
    a.yieldNow.ready = [a.cur] := by
  let b := (a.mapCore (·.markReady a.cur)).pushReady a.cur
  have hready : b.ready = a.cur :: [] := by
    show a.ready ++ [a.cur] = _
    rw [hrd, List.nil_append]
  have hreq : (b.popped a.cur []).Requeues := by
    have hcur : (b.popped a.cur []).cur = a.cur := b.popped_cur a.cur []
    constructor
    · rw [hcur, popped_state, if_pos rfl]
    · rw [hcur, popped_idleThread]
      exact hidle
  show b.switchNow.ready = _
  rw [switchNow_cons b a.cur hready, switchTask_ready, if_pos hreq, popped_ready, popped_cur]
  rfl

end Queued

/-- Idle is thread `0`. Thread `1` is current and Running, and `ready` is the queue. -/
def onCpu (ready : List (Fin 3)) : Queued (Fin 3) Unit Unit where
  toCore := Core.setState 1 .running
    { ((Sched.boot (fun _ => .construct 0 () ()) (fun _ => .construct 0 false) 0).construct
        0).toCore with currThread := some 1 }
  waiting := []
  ready := ready

namespace Sched

/-- The same state in pointers, for a queue of at most one thread. -/
def onCpu (ready : Option (Fin 3)) : Sched (Fin 3) Unit Unit where
  toCore := (TwoKernel.onCpu []).toCore
  hook := fun _ => none
  waitingQueue := {}
  readyThreads := ⟨ready, ready⟩

theorem onCpu_pair : Sim (onCpu (some 2)) (TwoKernel.onCpu [2]) :=
  ⟨rfl, Option.some_ne_none _, SingleDeque.represents_nil _, ⟨⟨rfl, rfl⟩, rfl⟩,
    List.disjoint_nil_left _⟩

variable {s : Sched P Q F} {a : Queued P Q F}

/-- **When `schedule()` idles over runnable work.** It returns; and the thread it makes current is
idle only if there is nothing else to run, exactly if a Running current thread does not leave an
empty queue behind, and idle is not the first in the queue. -/
theorem schedule_idles_iff (h : Sim s a) (hr : a.cur ∉ a.ready) (hw : a.cur ∉ a.waiting)
    (hz : a.taskSwitchCounter = 0) :
    ∃ s', s.schedule = .ok s' ∧
      ((s'.currThread = some s.idleThread → a.NothingToRun) ↔
        a.ready.head? ≠ some a.idleThread ∧
          (a.ready = [] → a.cur = a.idleThread ∨ (a.thread a.cur).state ≠ .running)) := by
  obtain ⟨s', hs', hsim⟩ := h.switchNow (fun _ _ => ⟨hr, hw⟩) hz
  have hcurr : s'.currThread = a.switchNow.currThread := by rw [hsim.core]
  have hidle : s.idleThread = a.idleThread := by rw [h.core]
  refine ⟨s', hs', ?_⟩
  rw [hcurr, hidle, a.switchNow_idles_iff]
  unfold Queued.NothingToRun
  constructor
  · intro himp
    constructor
    · intro hhead
      rw [(himp (.inr hhead)).1] at hhead
      cases hhead
    · intro hempty
      exact (himp (.inl hempty)).2
  · intro hcond hpicked
    have hempty := hpicked.resolve_right hcond.1
    exact ⟨hempty, hcond.2 hempty⟩

/-- A second thread is ready, and gets the processor. -/
theorem schedule_idles_iff_pair : ∃ s', (onCpu (some 2)).schedule = .ok s' ∧
    (s'.currThread = some 0 → (TwoKernel.onCpu [2]).NothingToRun) := by
  obtain ⟨s', hs', hiff⟩ := schedule_idles_iff onCpu_pair (by decide) (by decide) rfl
  exact ⟨s', hs', hiff.mpr ⟨by decide, nofun⟩⟩

/-- The only runnable thread is put aside for idle. -/
theorem schedule_idles_alone : ∃ s', (onCpu none).schedule = .ok s' ∧
    s'.currThread = some 0 ∧ ¬ (TwoKernel.onCpu []).NothingToRun := by
  refine ⟨_, rfl, rfl, ?_⟩
  intro h
  cases h.2 with
  | inl hidle => exact absurd hidle (by decide)
  | inr hstate => exact hstate rfl

/-- **When `yield()` is a rotation.** Called by a thread other than idle, with Ready threads in the
queue, it returns; and the queue of the caller is rotated exactly if it was not alone and no
quantum is marked as past. -/
theorem yield_rotates_iff (h : Sim s a) (hz : a.taskSwitchCounter = 0)
    (hidle : a.cur ≠ a.idleThread)
    (hready : ∀ t ∈ a.ready, (a.thread t).state = .ready) (hr : a.cur ∉ a.ready)
    (hw : a.cur ∉ a.waiting) :
    ∃ s' b, s.yield = .ok s' ∧ Sim s' b ∧
      (a.Rotated b ↔ a.ready ≠ [] ∧ a.timeQuantumPast = false) := by
  obtain ⟨s', hs', hsim⟩ := h.yield hz hr hw
  obtain ⟨k, hk⟩ := Queued.yield_unlocked hz
  have hlock : a.Rotated a.yield ↔ a.Rotated a.yieldNow := by
    rw [hk]
    exact ⟨fun h => ⟨h.1, h.2, h.3, h.4, h.5, h.6⟩, fun h => ⟨h.1, h.2, h.3, h.4, h.5, h.6⟩⟩
  refine ⟨s', a.yield, hs', hsim, hlock.trans ?_⟩
  cases hrd : a.ready with
  | nil =>
    simp only [ne_eq, not_true_eq_false, false_and, iff_false]
    intro hrot
    have hqueue := hrot.ready
    rw [Queued.yieldNow_nil hrd hidle, hrd] at hqueue
    cases hqueue
  | cons next rest =>
    simp only [ne_eq, reduceCtorEq, not_false_eq_true, true_and]
    exact Queued.yieldNow_cons next hrd hr h.ready.nodup hready

/-- Two threads take turns. -/
theorem yield_rotates_iff_pair : ∃ s' b, (onCpu (some 2)).yield = .ok s' ∧ Sim s' b ∧
    (TwoKernel.onCpu [2]).Rotated b := by
  obtain ⟨s', b, hs', hsim, hiff⟩ :=
    yield_rotates_iff onCpu_pair rfl (by decide) (by decide) (by decide) (by decide)
  exact ⟨s', b, hs', hsim, hiff.mpr ⟨nofun, rfl⟩⟩

/-- A thread that yields to nobody is current and queued. -/
theorem yield_alone_queued : ∃ s', (onCpu none).yield = .ok s' ∧ s'.currThread = some 1 ∧
    s'.readyThreads.Represents s'.hook [1] :=
  ⟨_, rfl, rfl, ⟨⟨rfl, rfl⟩, rfl⟩⟩

end Sched

end TwoKernel
