import TwoKernel.Laws.Std.SingleDeque
import TwoKernel.Laws.Proc.Switch
import TwoKernel.Laws.Proc.Unlocked

/-!
# The pointer scheduler refines the list scheduler

`Sim s a`: the pointer state `s` and the list state `a` have the same core, and
the two deques of `s` represent the two lists of `a`. For each operation, if it
starts related it returns, and ends related to the same operation on lists.

Two premises appear, and they are the two ways a caller can break the queues.
A pushed thread must be linked in neither queue; for the switch itself this is
`Settled`: a Running current thread is in no queue, because `switch_task` puts
it back. The other is fuel for the walks of `remove`, the length of the waiting
queue.
-/

namespace TwoKernel

open SingleDeque

variable {P Q F : Type} [DecidableEq P] [DecidableEq Q]
variable {s : Sched P Q F} {a : Queued P Q F} {t next : P}

/-- The pointer state stands for the list state. -/
structure Sim (s : Sched P Q F) (a : Queued P Q F) : Prop where
  core : s.toCore = a.toCore
  live : a.currThread ≠ none
  waiting : s.waitingQueue.Represents s.hook a.waiting
  ready : s.readyThreads.Represents s.hook a.ready
  apart : a.waiting.Disjoint a.ready

/-- A Running current thread other than idle is linked in neither queue. -/
def Queued.Settled (a : Queued P Q F) : Prop :=
  (a.thread a.cur).state = .running → a.cur ≠ a.idleThread → a.cur ∉ a.ready ∧ a.cur ∉ a.waiting

omit [DecidableEq P] [DecidableEq Q] in
theorem Queued.Settled.of_state (h : (a.thread a.cur).state ≠ .running) : a.Settled :=
  fun hrun => absurd hrun h

omit [DecidableEq P] [DecidableEq Q] in
theorem Queued.curr_eq (h : a.currThread ≠ none) : a.currThread = some a.cur := by
  unfold Queued.cur
  cases hc : a.currThread with
  | none => exact absurd hc h
  | some c => rfl

/-- Under the lock, the slice test only sets flags. -/
theorem Queued.Settled.checkSlice {k : Core.Lock} (hs : a.Settled) (hk : k.taskSwitchCounter ≠ 0) :
    (a.withLock k).checkSlice.Settled := by
  have hreq : ∀ b : Queued P Q F, (b.withLock k).schedule = b.withLock (k.setPostponed true) :=
    fun b => b.schedule_withLock k hk
  simp only [Queued.checkSlice]
  split
  · rw [hreq]
    exact hs
  · split
    · rw [show (a.withLock k).mapCore (·.setQuantumPast true) =
        (a.mapCore (·.setQuantumPast true)).withLock k from rfl, hreq]
      exact hs
    · exact hs

namespace Sim

section

omit [DecidableEq P] [DecidableEq Q]

theorem curr_eq (h : Sim s a) : s.currThread = some a.cur := by
  rw [h.core]
  exact Queued.curr_eq h.live

theorem empty_iff (h : Sim s a) : s.readyThreads.empty = true ↔ a.ready = [] := h.ready.empty_iff

theorem mapCore (h : Sim s a) (f : Core P Q F → Core P Q F)
    (hlive : (f a.toCore).currThread ≠ none) : Sim (s.mapCore f) (a.mapCore f) :=
  ⟨congrArg f h.core, hlive, h.waiting, h.ready, h.apart⟩

end

section

omit [DecidableEq Q]

private theorem pushReady (h : Sim s a) (hr : t ∉ a.ready) (hw : t ∉ a.waiting) :
    Sim (s.pushReady t) (a.pushReady t) := by
  refine ⟨h.core, h.live, h.waiting.frame fun x hx => ?_, pushTail_represents h.ready hr, ?_⟩
  · exact pushTail_frame h.ready (h.apart hx) (fun e => hw (e ▸ hx))
  · intro x hx hx'
    rcases List.mem_append.mp hx' with hx' | hx'
    · exact h.apart hx hx'
    · exact hw (List.mem_singleton.mp hx' ▸ hx)

private theorem pushWaiting (h : Sim s a) (hr : t ∉ a.ready) (hw : t ∉ a.waiting) :
    Sim (s.pushWaiting t) (a.pushWaiting t) := by
  refine ⟨h.core, h.live, pushTail_represents h.waiting hw, h.ready.frame fun x hx => ?_, ?_⟩
  · exact pushTail_frame h.waiting (fun hx' => h.apart hx' hx) (fun e => hr (e ▸ hx))
  · intro x hx hx'
    rcases List.mem_append.mp hx with hx | hx
    · exact h.apart hx hx'
    · exact hr (List.mem_singleton.mp hx ▸ hx')

/-- Unlinking from the waiting queue, whether or not the thread is there. -/
theorem removeWaiting {fuel : Nat} (h : Sim s a) (hf : a.waiting.length ≤ fuel) :
    ∃ s', s.removeWaiting fuel t = .ok s' ∧ Sim s' { a with waiting := a.waiting.erase t } := by
  have hsub : (a.waiting.erase t).Disjoint a.ready :=
    fun x hx hx' => h.apart (List.mem_of_mem_erase hx) hx'
  by_cases hm : t ∈ a.waiting
  · obtain ⟨hooks', d', hrm, hrep, hfr⟩ := remove_of_mem h.waiting hf hm
    refine ⟨{ s with hook := hooks', waitingQueue := d' }, ?_, h.core, h.live, hrep, ?_, hsub⟩
    · simp only [Sched.removeWaiting, hrm, ok_bind, pure_eq_ok]
    · exact h.ready.frame fun x hx => hfr x fun hx' => h.apart hx' hx
  · have hrm := remove_of_not_mem h.waiting hf hm
    refine ⟨s, ?_, h.core, h.live, ?_, h.ready, hsub⟩
    · simp only [Sched.removeWaiting, hrm, ok_bind, pure_eq_ok]
    · rw [show a.waiting.erase t = a.waiting from List.erase_of_not_mem hm]
      exact h.waiting

/-- With a current thread, `add_ready_threads` is a push at the tail. -/
theorem addReadyThreads (h : Sim s a) (hr : t ∉ a.ready) (hw : t ∉ a.waiting) :
    Sim (s.addReadyThreads t) (a.addReadyThreads t) := by
  have hflag : s.timeQuantumPast = a.timeQuantumPast := by rw [h.core]
  unfold Queued.addReadyThreads
  rw [Sched.addReadyThreads_of_current h.curr_eq, hflag]
  split
  · exact pushReady (h.mapCore _ h.live) hr hw
  · exact pushReady (h.mapCore _ h.live) hr hw

end

private theorem switchTask (h : Sim s a) (hs : a.Settled) :
    ∃ s', s.switchTask next = .ok s' ∧ Sim s' (a.switchTask next) := by
  have hcore := h.core
  have hlive : ∀ c : Core P Q F, (c.dispatch a.cur next).currThread ≠ none := by
    intro c
    simp
  by_cases hrun : (a.thread a.cur).state = .running ∧ a.cur ≠ a.idleThread
  · have hrun' : (s.thread a.cur).state = .running ∧ a.cur ≠ s.idleThread := by rwa [hcore]
    obtain ⟨hr, hw⟩ := hs hrun.1 hrun.2
    refine ⟨_, by simp only [Sched.switchTask, h.curr_eq, deref_some, ok_bind, pure_eq_ok]; rfl, ?_⟩
    rw [if_pos hrun']
    simp only [Queued.switchTask, if_pos hrun]
    have hadd := h.addReadyThreads hr hw
    exact (hadd.mapCore _ hadd.live).mapCore _ (hlive _)
  · have hrun' : ¬ ((s.thread a.cur).state = .running ∧ a.cur ≠ s.idleThread) := by rwa [hcore]
    refine ⟨_, by simp only [Sched.switchTask, h.curr_eq, deref_some, ok_bind, pure_eq_ok]; rfl, ?_⟩
    rw [if_neg hrun']
    simp only [Queued.switchTask, if_neg hrun]
    exact h.mapCore _ (hlive _)

end Sim

omit [DecidableEq Q] in
/-- Popping the next thread leaves a settled state settled, also when the popped thread is the
current one: a thread is linked once. -/
theorem Queued.Settled.popped {rest : List P} (hs : a.Settled) (hnd : a.ready.Nodup)
    (hap : a.waiting.Disjoint a.ready) (hrd : a.ready = next :: rest) :
    (a.popped next rest).Settled := by
  intro hrun hne
  rw [a.popped_cur] at hrun hne ⊢
  rw [a.popped_idleThread] at hne
  rw [a.popped_ready, a.popped_waiting]
  rw [hrd] at hnd hap
  by_cases hnext : a.cur = next
  · rw [hnext]
    exact ⟨(List.nodup_cons.mp hnd).1, fun hw => hap hw List.mem_cons_self⟩
  · rw [a.popped_state, if_neg hnext] at hrun
    obtain ⟨hr, hw⟩ := hs hrun hne
    rw [hrd] at hr
    exact ⟨fun hm => hr (List.mem_cons_of_mem _ hm), hw⟩

namespace Sim

omit [DecidableEq Q] in
/-- Popping the queue pops the list. -/
theorem popReady {rest : List P} (h : Sim s a) (hrd : a.ready = next :: rest) :
    (s.readyThreads.popHead s.hook).1 = some next ∧
      Sim { s with
            readyThreads := (s.readyThreads.popHead s.hook).2
            toCore := s.toCore.setState next .running }
          { a with ready := rest, toCore := a.toCore.setState next .running } := by
  obtain ⟨hpop, hrep⟩ := popHead_cons (hrd ▸ h.ready)
  refine ⟨hpop, congrArg (·.setState next .running) h.core, h.live, h.waiting, hrep, ?_⟩
  intro x hx hx'
  exact h.apart hx (hrd ▸ List.mem_cons_of_mem _ hx')

/-- The head of the ready queue is popped and switched to. -/
theorem switchHead {rest : List P} (h : Sim s a) (hrd : a.ready = t :: rest)
    (hs : Queued.Settled { a with ready := rest, toCore := a.toCore.setState t .running }) :
    ∃ s', s.switchHead = .ok s' ∧ Sim s' (Queued.switchTask t
      { a with ready := rest, toCore := a.toCore.setState t .running }) := by
  obtain ⟨hpop, hsim⟩ := h.popReady hrd
  rw [Sched.switchHead_eq ((SingleDeque.popHead_fst _ _).symm.trans hpop)]
  exact hsim.switchTask hs

/-- The switch decision. -/
theorem switchNow (h : Sim s a) (hs : a.Settled) (hz : a.taskSwitchCounter = 0) :
    ∃ s', s.schedule = .ok s' ∧ Sim s' a.switchNow := by
  have hflag : s.timeQuantumPast = a.timeQuantumPast := by rw [h.core]
  rw [Sched.schedule_unlocked (by rw [h.core]; exact hz)]
  cases hrd : a.ready with
  | nil =>
    have hidle : s.idleThread = a.idleThread := by rw [h.core]
    rw [Sched.switchNow_empty (h.empty_iff.mpr hrd), hidle, a.switchNow_nil hrd]
    exact h.switchTask hs
  | cons next rest =>
    have hne : ¬ s.readyThreads.empty = true := by
      rw [h.empty_iff, hrd]
      simp
    have hset : (a.popped next rest).Settled := hs.popped h.ready.nodup h.apart hrd
    rw [a.switchNow_cons next hrd]
    unfold Queued.popped at hset ⊢
    cases hq : a.timeQuantumPast with
    | true =>
      have hpay : Sim (s.mapCore (·.payQuantum a.cur)) (a.mapCore (·.payQuantum a.cur)) :=
        h.mapCore _ h.live
      rw [Sched.switchNow_past hne (hflag.trans hq), h.curr_eq, deref_some, ok_bind]
      simp only [hq, if_true] at hset
      exact hpay.switchHead hrd hset
    | false =>
      rw [Sched.switchNow_within hne (by rw [hflag, hq]; decide)]
      simp only [hq, Bool.false_eq_true, if_false] at hset
      exact h.switchHead hrd hset

/-- `schedule()` follows the lists. -/
theorem schedule (h : Sim s a) (hs : a.taskSwitchCounter = 0 → a.Settled) :
    ∃ s', s.schedule = .ok s' ∧ Sim s' a.schedule := by
  by_cases hz : a.taskSwitchCounter = 0
  · obtain ⟨s', hs', hsim⟩ := h.switchNow (hs hz) hz
    refine ⟨s', hs', ?_⟩
    rw [Queued.schedule, if_neg (by simpa using hz)]
    exact hsim
  · have hz' : s.taskSwitchCounter ≠ 0 := by rw [h.core]; exact hz
    refine ⟨_, if_pos hz', ?_⟩
    rw [Queued.schedule, if_pos hz]
    exact h.mapCore _ h.live

private theorem unlockScheduler (h : Sim s a)
    (hs : a.taskSwitchCounter - 1 = 0 → a.taskSwitchPostponed = true → a.Settled) :
    ∃ s', s.unlockScheduler = .ok s' ∧ Sim s' a.unlockScheduler := by
  have h₁ : Sim (s.mapCore (·.leaveSwitch)) (a.mapCore (·.leaveSwitch)) := h.mapCore _ h.live
  have hgo' : s.Owes ↔ a.taskSwitchCounter - 1 = 0 ∧ a.taskSwitchPostponed = true := by
    unfold Sched.Owes
    rw [h₁.core]
    exact Iff.rfl
  by_cases hgo : a.taskSwitchCounter - 1 = 0 ∧ a.taskSwitchPostponed = true
  · have h₂ := h₁.mapCore (·.setPostponed false) h.live
    obtain ⟨s', hs', hsim⟩ := h₂.schedule fun _ => hs hgo.1 hgo.2
    refine ⟨s'.mapCore (·.leaveDisable), ?_, ?_⟩
    · rw [Sched.unlockScheduler_owed (hgo'.mpr hgo), hs', ok_bind]
    · have hgo₁ : (a.mapCore (·.leaveSwitch)).taskSwitchCounter = 0 ∧
          (a.mapCore (·.leaveSwitch)).taskSwitchPostponed = true := hgo
      simp only [Queued.unlockScheduler, if_pos hgo₁]
      exact hsim.mapCore _ hsim.live
  · refine ⟨(s.mapCore (·.leaveSwitch)).mapCore (·.leaveDisable), ?_, ?_⟩
    · exact Sched.unlockScheduler_quiet (hgo'.not.mpr hgo)
    · have hgo₁ : ¬ ((a.mapCore (·.leaveSwitch)).taskSwitchCounter = 0 ∧
          (a.mapCore (·.leaveSwitch)).taskSwitchPostponed = true) := hgo
      simp only [Queued.unlockScheduler, if_neg hgo₁]
      exact h₁.mapCore _ h.live

/-! ## The calls of a running thread

Each marks the caller, links it, asks for a switch under the lock, and unlocks. The mark is what
settles the switch: a caller that is not Running is not put back by it. -/

omit [DecidableEq P] [DecidableEq Q] in
theorem lockScheduler (h : Sim s a) : Sim s.lockScheduler a.lockScheduler := h.mapCore _ h.live

/-- A request made while the lock is held, and the unlock that serves it. -/
theorem schedule_unlock (h : Sim s a) (hlock : a.taskSwitchCounter ≠ 0) (hs : a.Settled) :
    ∃ s', (s.schedule >>= fun s => s.unlockScheduler) = .ok s' ∧
      Sim s' a.schedule.unlockScheduler := by
  obtain ⟨s₁, hs₁, h₁⟩ := h.schedule fun hz => absurd hz hlock
  have ha : a.schedule = a.mapCore (·.setPostponed true) := if_pos hlock
  obtain ⟨s', hs', h'⟩ := h₁.unlockScheduler fun _ _ => by rw [ha]; exact hs
  exact ⟨s', by rw [hs₁, ok_bind, hs'], h'⟩

/-- A call by which the current thread gives up the processor: `body` marks it as not Running. -/
theorem request {body : P → Sched P Q F → Sched P Q F} {b : Queued P Q F} (h : Sim s a)
    (hz : b.taskSwitchCounter ≠ 0) (hb : Sim (body a.cur s.lockScheduler) b)
    (hs : (b.thread b.cur).state ≠ .running) :
    ∃ s', s.request body = .ok s' ∧ Sim s' b.schedule.unlockScheduler := by
  obtain ⟨s', hs', h'⟩ := hb.schedule_unlock hz (.of_state hs)
  have hcur : s.lockScheduler.currThread = some a.cur := h.curr_eq
  refine ⟨s', ?_, h'⟩
  show (deref s.lockScheduler.currThread >>= _) = _
  rw [hcur, deref_some, ok_bind]
  exact hs'

theorem sleep (milli : Word) (h : Sim s a) (hz : a.taskSwitchCounter = 0)
    (hr : a.cur ∉ a.ready) (hw : a.cur ∉ a.waiting) :
    ∃ s', s.sleep milli = .ok s' ∧ Sim s' (a.sleep milli) := by
  refine h.request (show a.taskSwitchCounter + 1 ≠ 0 by rw [hz]; decide)
    ((h.lockScheduler.mapCore (·.markSleep a.cur milli) h.live).pushWaiting hr hw) ?_
  show ((a.toCore.lockScheduler.markSleep a.cur milli).thread a.cur).state ≠ _
  simp [Core.markSleep]

theorem yield (h : Sim s a) (hz : a.taskSwitchCounter = 0)
    (hr : a.cur ∉ a.ready) (hw : a.cur ∉ a.waiting) :
    ∃ s', s.yield = .ok s' ∧ Sim s' a.yield := by
  refine h.request (show a.taskSwitchCounter + 1 ≠ 0 by rw [hz]; decide)
    ((h.lockScheduler.mapCore (·.markReady a.cur) h.live).pushReady hr hw) ?_
  show ((a.toCore.lockScheduler.markReady a.cur).thread a.cur).state ≠ _
  simp [Core.markReady, Core.setState, ThreadBlock.resetScheduledTime]

theorem block (h : Sim s a) (hz : a.taskSwitchCounter = 0)
    (hr : a.cur ∉ a.ready) (hw : a.cur ∉ a.waiting) :
    ∃ s', s.block = .ok s' ∧ Sim s' a.block := by
  refine h.request (show a.taskSwitchCounter + 1 ≠ 0 by rw [hz]; decide)
    ((h.lockScheduler.mapCore (·.setState a.cur .blocked) h.live).pushWaiting hr hw) ?_
  show ((a.toCore.lockScheduler.setState a.cur .blocked).thread a.cur).state ≠ _
  simp [Core.setState]

/-! ## Waking and the tick -/

/-- Waking a thread that is not in the ready queue. -/
theorem wake {fuel : Nat} (h : Sim s a) (hf : a.waiting.length ≤ fuel) (hr : t ∉ a.ready) :
    ∃ s', s.wake fuel t = .ok s' ∧ Sim s' (a.wake t) := by
  obtain ⟨s₁, hs₁, h₁⟩ := h.removeWaiting (t := t) hf
  have h₂ : Sim (s₁.mapCore (·.markWoken t)) (a.release t) := h₁.mapCore _ h.live
  have hcond : (s₁.mapCore (·.markWoken t)).readyThreads.empty = true ∧
      (s₁.mapCore (·.markWoken t)).currThread = some (s₁.mapCore (·.markWoken t)).idleThread ↔
      a.Idling := by
    rw [h₂.empty_iff, h₂.core]
    exact Iff.rfl
  simp only [Sched.wake, hs₁, ok_bind]
  by_cases hi : a.Idling
  · have hset : (a.release t).Settled := by
      intro _ hne
      exact absurd (Queued.cur_eq (a := a.release t) hi.2) hne
    rw [if_pos (hcond.mpr hi), Queued.wake_idling _ _ hi]
    exact h₂.switchTask hset
  · have hnd : t ∉ a.waiting.erase t := h.waiting.nodup.not_mem_erase
    rw [if_neg (hcond.not.mpr hi), Queued.wake_busy _ _ hi]
    exact ⟨_, rfl, h₂.pushReady hr hnd⟩

/-- `unblock` of a thread that is not in the ready queue, at any depth of the lock. With no lock
held no switch may be owed, or the unlock would make it. -/
theorem unblock {fuel : Nat} (h : Sim s a) (hf : a.waiting.length ≤ fuel) (hr : t ∉ a.ready)
    (hp : a.taskSwitchCounter = 0 → a.taskSwitchPostponed = false) :
    ∃ s', s.unblock fuel t = .ok s' ∧ Sim s' (a.unblock t) := by
  obtain ⟨s₁, hs₁, h₁⟩ := h.lockScheduler.wake hf hr
  have hlock : (a.lockScheduler.wake t).toCore.lock = a.toCore.lock.enter :=
    congrArg (·.toCore.lock) (a.wake_withLock a.toCore.lock.enter t)
  rw [Sched.unblock_eq_wake, hs₁, ok_bind]
  refine h₁.unlockScheduler fun hz hpost => ?_
  have hz' : a.toCore.lock.enter.taskSwitchCounter - 1 = 0 := by rwa [← hlock]
  have hpost' : a.toCore.lock.enter.taskSwitchPostponed = true := by rwa [← hlock]
  simp only [Core.Lock.enter, BitVec.add_sub_cancel] at hz' hpost'
  rw [show a.toCore.lock.taskSwitchPostponed = false from hp hz'] at hpost'
  cases hpost'

private theorem wakeSleeper {fuel : Nat} (h : Sim s a) (hf : a.waiting.length ≤ fuel) (hr : t ∉ a.ready)
    (hp : a.taskSwitchCounter ≠ 0) :
    ∃ s', s.wakeSleeper fuel t = .ok s' ∧ Sim s' (a.wakeSleeper t) := by
  have hcore := h.core
  by_cases hb : (a.thread t).state = .blocked
  · refine ⟨s, Sched.wakeSleeper_blocked (by rw [hcore]; exact hb), ?_⟩
    rw [Queued.wakeSleeper, if_pos hb]
    exact h
  · have h₁ : Sim (s.mapCore (·.countDown t)) (a.mapCore (·.countDown t)) := h.mapCore _ h.live
    have hb' : ¬ (s.thread t).state = .blocked := by rwa [hcore]
    by_cases hz : ((a.mapCore (·.countDown t)).thread t).sleepTime = 0
    · have hz' : ((s.mapCore (·.countDown t)).thread t).sleepTime = 0 := by rwa [h₁.core]
      rw [Sched.wakeSleeper_due hb' hz', Queued.wakeSleeper, if_neg hb, if_pos hz]
      exact h₁.unblock hf hr fun e => absurd e hp
    · have hz' : ¬ ((s.mapCore (·.countDown t)).thread t).sleepTime = 0 := by rwa [h₁.core]
      rw [Sched.wakeSleeper_asleep hb' hz', Queued.wakeSleeper, if_neg hb, if_neg hz]
      exact ⟨_, rfl, h₁⟩

/-- The sleeper loop. What is still to visit is a tail of the waiting queue, whatever the visits
so far have taken out of its front. -/
theorem wakeAll {fuel : Nat} {i : Bool} (h : Sim s a) (hf : a.waiting.length ≤ fuel)
    (hlock : a.toCore.lock = (Core.Lock.unlocked i).enter) :
    ∃ s', s.waitingQueue.iterate Sched.hook (Sched.wakeSleeper fuel) fuel s = .ok s' ∧
      Sim s' (a.wakeAll a.waiting) := by
  -- the abstract state of the moment, and the loop still to run from it
  let I : List P → Sched P Q F → Prop := fun rest s => ∃ b : Queued P Q F, Sim s b ∧
    (∃ front, b.waiting = front ++ rest) ∧ b.waiting.length ≤ fuel ∧
    b.toCore.lock = (Core.Lock.unlocked i).enter ∧ b.wakeAll rest = a.wakeAll a.waiting
  have hlink : ∀ p rest s, I (p :: rest) s → s.hook p = rest.head? := by
    rintro p rest s ⟨b, hb, ⟨front, hw⟩, -⟩
    have hsuf := (hw ▸ hb.waiting.linked).suffix
    exact hsuf.2.head
  have hbody : ∀ p rest s, I (p :: rest) s → ∃ s', s.wakeSleeper fuel p = .ok s' ∧ I rest s' := by
    rintro p rest s ⟨b, hb, ⟨front, hw⟩, hlen, hl, hgo⟩
    have hp : p ∈ b.waiting := by rw [hw]; simp
    have hne : b.taskSwitchCounter ≠ 0 := by
      show b.toCore.lock.taskSwitchCounter ≠ 0
      rw [hl]
      exact Core.Lock.enter_counter_ne i
    obtain ⟨s', hs', hb'⟩ := hb.wakeSleeper hlen (hb.apart hp) hne
    have heq : b.wakeSleeper p = (b.visit p).withLock (Core.Lock.unlocked i).enter := by
      have hk := b.wakeSleeper_withLock p (k := b.toCore.lock) hne
        (by rw [hl, Core.Lock.nested_enter_leave])
      rwa [b.withLock_lock, hl] at hk
    have hwait : (b.wakeSleeper p).waiting = b.waiting ∨
        (b.wakeSleeper p).waiting = b.waiting.erase p := by
      rw [heq]
      exact b.visit_waiting p
    refine ⟨s', hs', _, hb', ?_, ?_, ?_, hgo⟩
    · rcases hwait with e | e
      · exact ⟨front ++ [p], by rw [e, hw]; simp⟩
      · refine ⟨front, ?_⟩
        have hnot : p ∉ front := by
          intro hm
          exact (List.nodup_append.mp (hw ▸ hb.waiting.nodup)).2.2 p hm p (by simp) rfl
        rw [e, hw, List.erase_append_right _ hnot, List.erase_cons_head]
    · rcases hwait with e | e
      · rwa [e]
      · rw [e]
        exact Nat.le_trans List.length_erase_le hlen
    · rw [heq]
      rfl
  have hstart : I a.waiting s := ⟨a, h, ⟨[], rfl⟩, hf, hlock, rfl⟩
  obtain ⟨s', hs', b, hb, -, -, -, hgo⟩ := forEach_rule hlink hbody a.waiting fuel s hf hstart
  refine ⟨s', ?_, hgo ▸ hb⟩
  unfold SingleDeque.iterate
  rw [h.waiting.head]
  exact hs'

private theorem checkSlice (h : Sim s a) (hlock : a.taskSwitchCounter ≠ 0) :
    ∃ s', s.checkSlice = .ok s' ∧ Sim s' a.checkSlice := by
  rw [Sched.checkSlice_eq h.curr_eq, h.core]
  unfold Queued.checkSlice
  dsimp only
  by_cases hb : (a.thread a.cur).scheduledTime ≤ a.toCore.delta a.cur
  · rw [if_pos hb, if_pos hb]
    exact h.schedule fun hz => absurd hz hlock
  · rw [if_neg hb, if_neg hb]
    by_cases hq : a.toCore.delta a.cur = defaultTimeQuantum
    · rw [if_pos hq, if_pos hq]
      exact (h.mapCore _ h.live).schedule fun hz => absurd hz hlock
    · rw [if_neg hq, if_neg hq]
      exact ⟨s, rfl, h⟩

/-- A tick of an unlocked scheduler. The premise is about the one switch the tick may make. -/
theorem pitTick {fuel : Nat} {i : Bool} {frame : F} (h : Sim s a) (hf : a.waiting.length ≤ fuel)
    (hlock : a.toCore.lock = .unlocked i)
    (hset : ((a.charge frame).visitAll a.waiting).Settled) :
    ∃ s', s.pitTick fuel frame = .ok ((a.pitTick frame).frame, s') ∧ Sim s' (a.pitTick frame) := by
  let a₁ := (a.charge frame).withLock (Core.Lock.unlocked i).enter
  have h₁ : Sim ((s.mapCore Core.increaseTick).lockScheduler.mapCore (·.saveFrame a.cur frame)) a₁ := by
    have heq : (a.mapCore Core.increaseTick).lockScheduler.mapCore (·.saveFrame a.cur frame) = a₁ := by
      simp only [a₁, ← hlock]
      rfl
    rw [← heq]
    exact ((h.mapCore Core.increaseTick h.live).lockScheduler).mapCore _ h.live
  obtain ⟨s₂, hs₂, h₂⟩ := h₁.wakeAll hf rfl
  have hdrain : a₁.wakeAll a₁.waiting =
      ((a.charge frame).visitAll a.waiting).withLock (Core.Lock.unlocked i).enter :=
    Queued.wakeAll_withLock _ (Core.Lock.enter_counter_ne i) (Core.Lock.nested_enter_leave i) _
  rw [hdrain] at h₂
  obtain ⟨s₃, hs₃, h₃⟩ := h₂.checkSlice (Core.Lock.enter_counter_ne i)
  obtain ⟨s₄, hs₄, h₄⟩ := h₃.unlockScheduler fun _ _ => hset.checkSlice (Core.Lock.enter_counter_ne i)
  have hend : a.pitTick frame = (((a.charge frame).visitAll a.waiting).withLock
      (Core.Lock.unlocked i).enter).checkSlice.unlockScheduler := by
    rw [Queued.pitTick_eq frame hlock, Queued.checkSlice_unlock]
    rfl
  rw [← hend] at h₄
  refine ⟨s₄, ?_, h₄⟩
  have hcur : (s.mapCore Core.increaseTick).currThread = some a.cur := h.curr_eq
  rw [Sched.pitTick, Sched.pitIrqHandler_eq frame hcur]
  dsimp only
  rw [hs₂, ok_bind, hs₃, ok_bind, hs₄, ok_bind, h₄.curr_eq, deref_some, ok_bind, pure_eq_ok]
  rw [Queued.frame, h₄.core]

end Sim

end TwoKernel
