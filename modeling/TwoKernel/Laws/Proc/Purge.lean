import TwoKernel.Laws.Proc.Exit
import TwoKernel.Laws.Proc.Places

/-!
# The purge of a process

`remove_dead_process_threads()` walks both queues, unlinks the threads of the
current process from `waiting_queue` in either walk, and ends with `schedule()`.
The second walk unlinks nobody, since a ready thread is not waiting, and the
switch puts a Running current thread back into the ready queue. So the process
outlives its purge, unless its only thread outside `waiting_queue` is idle and
somebody else can run: `removeDeadProcessThreads_purged_iff`.
-/

namespace TwoKernel

attribute [local instance] neZero_two neZero_three

variable {P Q F : Type} [DecidableEq P] [DecidableEq Q]
variable {s : Sched P Q F} {a b : Queued P Q F} {t : P} {fuel : Nat}

namespace Queued

/-- The thread `t` belongs to the process of the current thread. -/
def Mate (t : P) (a : Queued P Q F) : Prop := (a.thread t).mProcess = (a.thread a.cur).mProcess

instance : Decidable (a.Mate t) := inferInstanceAs (Decidable (_ = _))

/-- Nobody of the process that was current in `a` is left in `b`, and everybody else is where and
in what order they were, the processor counting as the front of the ready queue. -/
structure Purged (a b : Queued P Q F) : Prop where
  cur : ¬ a.Mate b.cur
  ready : ∀ t ∈ b.ready, ¬ a.Mate t
  waiting : ∀ t ∈ b.waiting, ¬ a.Mate t
  readyOrder : ((b.cur :: b.ready).filter fun t => ¬ a.Mate t) = a.ready.filter fun t => ¬ a.Mate t
  waitingOrder : (b.waiting.filter fun t => ¬ a.Mate t) = a.waiting.filter fun t => ¬ a.Mate t

/-- Idle is current, the switch is made at once, and the ready queue has threads, all of other
processes. -/
structure Expendable (a : Queued P Q F) : Prop where
  idle : a.cur = a.idleThread
  unlocked : a.taskSwitchCounter = 0
  work : a.ready ≠ []
  others : ∀ t ∈ a.ready, ¬ a.Mate t

/-- A switch away from a Running thread other than idle queues it. -/
theorem cur_mem_switchNow (hreq : a.Requeues) : a.cur ∈ a.switchNow.ready := by
  cases hr : a.ready with
  | nil =>
    rw [switchNow_nil a hr, switchTask_ready, if_pos hreq]
    simp
  | cons next rest =>
    have hpop : (a.popped next rest).Requeues :=
      (a.popped_requeues next hr).mpr ⟨hreq.2, .inl hreq.1⟩
    rw [switchNow_cons a next hr, switchTask_ready, if_pos hpop, popped_cur]
    simp

/-- What the purge leaves in the list model: the waiting queue without the process, and then
`schedule()`. -/
def purged (a : Queued P Q F) : Queued P Q F :=
  (a.dying a.process (a.thread a.cur).mProcess).schedule

private theorem purged_waiting : a.purged.waiting = a.waiting.filter fun t => ¬ a.Mate t := by
  unfold purged schedule
  split
  · rfl
  · exact switchNow_waiting _

private theorem purged_unlocked (hz : a.taskSwitchCounter = 0) :
    a.purged = (a.dying a.process (a.thread a.cur).mProcess).switchNow :=
  if_neg (show ¬ a.taskSwitchCounter ≠ 0 from not_not_intro hz)

/-- A purge that switches away from idle. -/
theorem purged_idle {next : P} {rest : List P} (hz : a.taskSwitchCounter = 0)
    (hidle : a.cur = a.idleThread) (hc : a.cur ∉ a.ready) (hr : a.ready = next :: rest) :
    a.purged.cur = next ∧ a.purged.ready = rest := by
  let d := a.dying a.process (a.thread a.cur).mProcess
  have hreq : ¬ d.Requeues := fun hreq => hreq.2 hidle
  have hcur := d.switchNow_currThread
  have hready := switchNow_ready (a := d) hreq (head_ne_cur (a := d) hc)
  rw [show d.ready = next :: rest from hr] at hcur hready
  rw [purged_unlocked hz]
  exact ⟨cur_eq hcur, hready⟩

/-- The process of a Running current thread outlives the purge, unless the thread is idle and
alone. -/
theorem purged_purged_iff (hrun : (a.thread a.cur).state = .running) (hc : a.cur ∉ a.ready) :
    a.Purged a.purged ↔ a.Expendable := by
  let d := a.dying a.process (a.thread a.cur).mProcess
  constructor
  · intro hp
    have hz : a.taskSwitchCounter = 0 := by
      by_contra hz
      have hkept : a.purged = d.mapCore (·.setPostponed true) := if_pos hz
      exact hp.cur (by rw [hkept]; rfl)
    have hidle : a.cur = a.idleThread := by
      by_contra hne
      have hmem : a.cur ∈ a.purged.ready := by
        rw [purged_unlocked hz]
        exact cur_mem_switchNow (a := d) ⟨hrun, hne⟩
      exact hp.ready a.cur hmem rfl
    cases hr : a.ready with
    | nil =>
      have hcur : a.purged.currThread = some a.cur := by
        rw [purged_unlocked hz, switchNow_currThread, hidle]
        exact congrArg (fun l => some (List.headD l _)) hr
      exact absurd rfl (cur_eq hcur ▸ hp.cur)
    | cons next rest =>
      obtain ⟨hcur, hready⟩ := purged_idle hz hidle hc hr
      refine ⟨hidle, hz, by simp [hr], fun t ht => ?_⟩
      rw [hr] at ht
      cases ht with
      | head => exact hcur ▸ hp.cur
      | tail _ ht => exact hp.ready t (hready ▸ ht)
  · intro he
    obtain ⟨next, rest, hr⟩ := List.exists_cons_of_ne_nil he.work
    obtain ⟨hcur, hready⟩ := purged_idle he.unlocked he.idle hc hr
    have hothers := he.others
    rw [hr] at hothers
    constructor
    · rw [hcur]
      exact hothers next List.mem_cons_self
    · rw [hready]
      exact fun t ht => hothers t (List.mem_cons_of_mem _ ht)
    · rw [purged_waiting]
      exact fun t ht => of_decide_eq_true (List.mem_filter.mp ht).2
    · rw [hcur, hready, hr]
    · rw [purged_waiting, List.filter_filter]
      simp

end Queued

namespace Sched

/-- **When a purge empties the process.** Every thread is in one place at most, and the current one
is Running. The purge returns, and leaves nobody of its process and everybody else in order,
exactly if idle is current, the switch is made at once, and there are ready threads, all of other
processes. -/
theorem removeDeadProcessThreads_purged_iff (h : Sim s a)
    (hrun : (a.thread a.cur).state = .running) (hr : a.cur ∉ a.ready) (hw : a.cur ∉ a.waiting)
    (hfw : a.waiting.length ≤ fuel) (hfr : a.ready.length ≤ fuel) :
    ∃ s' b, s.removeDeadProcessThreads fuel = .ok (true, s') ∧ Sim s' b ∧
      (a.Purged b ↔ a.Expendable) := by
  obtain ⟨s₁, h₁, hs₁⟩ := h.removeDeadProcessThreads hfw hfr
  have hset : (a.dying a.process (a.thread a.cur).mProcess).Settled :=
    fun _ _ => ⟨hr, fun hm => hw (List.mem_of_mem_filter hm)⟩
  obtain ⟨s', hs', hsim⟩ := h₁.schedule fun _ => hset
  refine ⟨s', a.purged, ?_, hsim, Queued.purged_purged_iff hrun hr⟩
  rw [hs₁, hs']
  rfl

/-- Idle is current and thread `1` of its process waits; thread `2` of another process is ready. -/
def idleProcess : Queued (Fin 3) (Fin 2) Unit where
  toCore := Core.setState 0 .running
    ((boot (fun t : Fin 3 => .construct 0 () (if t = 2 then 1 else 0)) (fun _ => .construct 0 true)
      0).construct 0).toCore
  waiting := [1]
  ready := [2]

/-- The same state in pointers. -/
def idleProcessSched : Sched (Fin 3) (Fin 2) Unit where
  toCore := idleProcess.toCore
  hook := fun _ => none
  waitingQueue := ⟨some 1, some 1⟩
  readyThreads := ⟨some 2, some 2⟩

private theorem idleProcess_sim : Sim idleProcessSched idleProcess :=
  ⟨rfl, nofun, ⟨⟨rfl, rfl⟩, rfl⟩, ⟨⟨rfl, rfl⟩, rfl⟩, by simp [idleProcess]⟩

/-- Idle purges its process: the waiting thread is unlinked, and the other process goes on. -/
theorem removeDeadProcessThreads_purged_idleProcess :
    ∃ s' b, idleProcessSched.removeDeadProcessThreads 1 = .ok (true, s') ∧ Sim s' b ∧
      idleProcess.Purged b ∧ 1 ∈ idleProcess.waiting ∧ idleProcess.Mate 1 ∧ 1 ∉ b.waiting := by
  obtain ⟨s', b, hs', hsim, hiff⟩ := removeDeadProcessThreads_purged_iff idleProcess_sim
    (by decide) (by decide) (by decide) (Nat.le_refl 1) (Nat.le_refl 1)
  have hpurged := hiff.mpr ⟨rfl, rfl, by decide, by decide⟩
  exact ⟨s', b, hs', hsim, hpurged, List.mem_singleton_self 1, rfl,
    fun hm => hpurged.waiting 1 hm rfl⟩

/-- Every thread is of its own process; idle is thread `0`, and thread `2` is ready. -/
def ownProcess (cur : Fin 3) : Queued (Fin 3) (Fin 3) Unit where
  toCore := Core.setState cur .running
    { ((boot (fun t : Fin 3 => .construct 0 () t) (fun _ => .construct 0 true) 0).construct
        0).toCore with currThread := some cur }
  waiting := []
  ready := [2]

/-- The same state in pointers. -/
def ownProcessSched (cur : Fin 3) : Sched (Fin 3) (Fin 3) Unit where
  toCore := (ownProcess cur).toCore
  hook := fun _ => none
  waitingQueue := {}
  readyThreads := ⟨some 2, some 2⟩

/-- Thread `1` purges its process and is in the ready queue afterwards. -/
theorem removeDeadProcessThreads_requeues :
    ∃ s', (ownProcessSched 1).removeDeadProcessThreads 1 = .ok (true, s') ∧
      s'.readyThreads.Represents s'.hook [1] ∧ (ownProcess 1).Mate 1 :=
  ⟨_, rfl, ⟨⟨rfl, rfl⟩, rfl⟩, rfl⟩

end Sched

end TwoKernel
