import TwoKernel.Laws.Proc.Unlocked
import TwoKernel.Proc.Calls

/-!
# A call is at most a dispatch

The scheduler writes thread states, budgets and flags all the time. The members
it writes only when it changes the current thread are few: `curr_thread` itself,
the processor state that goes with it, and the start of the slice. `still` hides
the others, and up to `still` every call of the running thread is one
`Core.dispatch`, to a thread the state before the call determines
(`yield_still`, `sleep_still`, `block_still`, `unblock_still`).

Nothing is assumed of the queues but that `ready_threads` has a head exactly when
it has a tail (`Even`), which every operation keeps on any links at all.
-/

namespace TwoKernel

variable {P Q F : Type}

/-! ## What a dispatch alone writes -/

/-- A block without the members that change between dispatches. -/
def ThreadBlock.still (b : ThreadBlock Q F) : ThreadBlock Q F :=
  { b with state := .ready, scheduledTime := 0, sleepTime := 0 }

namespace Core

/-- The core without the members that change between dispatches: the states, budgets and sleep
times of threads, the quantum flag, and the lock. -/
def still (c : Core P Q F) : Core P Q F :=
  { c with
    thread := fun t => (c.thread t).still
    timeQuantumPast := false
    disableCounter := 0
    taskSwitchCounter := 0
    taskSwitchPostponed := false
    interruptFlag := false }

variable (c : Core P Q F) (t cur next : P)

@[simp] theorem still_withLock (k : Lock) : (c.withLock k).still = c.still := rfl

@[simp] theorem still_setQuantumPast (b : Bool) : (c.setQuantumPast b).still = c.still := rfl

section members

variable {c c' : Core P Q F} (h : c'.still = c.still)

include h

/-- The current thread is in the still part. -/
theorem currThread_of_still : c'.currThread = c.currThread :=
  show c'.still.currThread = c.still.currThread from congrArg _ h

theorem idleThread_of_still : c'.idleThread = c.idleThread :=
  show c'.still.idleThread = c.still.idleThread from congrArg _ h

theorem tick_of_still : c'.tick = c.tick :=
  show c'.still.tick = c.still.tick from congrArg _ h

private theorem thread_of_still (t : P) : (c'.thread t).still = (c.thread t).still :=
  congrArg (fun d : Core P Q F => d.thread t) h

theorem execStartMs_of_still (t : P) : (c'.thread t).execStartMs = (c.thread t).execStartMs :=
  show (c'.thread t).still.execStartMs = (c.thread t).still.execStartMs from
    congrArg _ (thread_of_still h t)

/-- So are the saved frames. -/
theorem registers_of_still (t : P) : (c'.thread t).registers = (c.thread t).registers :=
  show (c'.thread t).still.registers = (c.thread t).still.registers from
    congrArg _ (thread_of_still h t)

end members

variable [DecidableEq P]

private theorem still_modify {f : ThreadBlock Q F → ThreadBlock Q F} (hf : ∀ b, (f b).still = b.still) :
    (c.modify t f).still = c.still := by
  have hthread : ∀ u, ((c.modify t f).thread u).still = (c.thread u).still := by
    intro u
    rw [modify_thread]
    split
    · next h => rw [h, hf]
    · rfl
  exact congrArg (fun th => { c.still with thread := th }) (funext hthread)

@[simp] theorem still_setState (st : ThreadState) : (c.setState t st).still = c.still :=
  c.still_modify t fun _ => rfl

@[simp] theorem still_markReady : (c.markReady t).still = c.still :=
  (still_modify (f := .resetScheduledTime) _ t fun _ => rfl).trans (c.still_setState t .ready)

@[simp] theorem still_markSleep (milli : Word) : (c.markSleep t milli).still = c.still :=
  c.still_modify t fun _ => rfl

@[simp] theorem still_markWoken : (c.markWoken t).still = c.still := c.still_modify t fun _ => rfl

@[simp] theorem still_countDown : (c.countDown t).still = c.still := by
  refine c.still_modify t fun b => ?_
  split <;> rfl

@[simp] theorem still_payQuantum : (c.payQuantum t).still = c.still := by
  refine c.still_modify t fun b => ?_
  dsimp only
  split <;> rfl

variable [DecidableEq Q]

/-- A dispatch reads and writes only what `still` keeps. -/
theorem still_dispatch : (c.dispatch cur next).still = (c.still.dispatch cur next).still := by
  have henter : ∀ d : Core P Q F, (d.enter next).still = (d.still.enter next).still := by
    intro d
    have hthread : ∀ u, ((d.enter next).thread u).still = ((d.still.enter next).thread u).still := by
      intro u
      rw [enter_thread, enter_thread]
      split <;> rfl
    exact congrArg (fun th => { d.still with thread := th, currThread := some next }) (funext hthread)
  unfold dispatch
  by_cases hidle : next = c.idleThread
  · rw [if_pos hidle, if_pos (show next = c.still.idleThread from hidle), henter]
  · rw [if_neg hidle, if_neg (show ¬ next = c.still.idleThread from hidle)]
    by_cases hproc : (c.thread next).mProcess ≠ (c.thread cur).mProcess
    · rw [if_pos hproc, henter]
      exact congrArg still (if_pos (show (c.still.thread next).mProcess ≠
        (c.still.thread cur).mProcess from hproc)).symm
    · rw [if_neg hproc, henter]
      exact congrArg still (if_neg (show ¬ (c.still.thread next).mProcess ≠
        (c.still.thread cur).mProcess from hproc)).symm

private theorem dispatch_congr {c c' : Core P Q F} (h : c'.still = c.still) (cur next : P) :
    (c'.dispatch cur next).still = (c.dispatch cur next).still := by
  rw [still_dispatch c', still_dispatch c, h]

end Core

/-! ## Queues with both ends or none -/

namespace SingleDeque

/-- A head exactly when a tail. -/
def Even (d : SingleDeque P) : Prop := d.head.isNone = d.tail.isNone

variable {hooks : Hooks P} {d : SingleDeque P}

private theorem Even.empty_iff (h : d.Even) : d.empty = true ↔ d.head = none := by
  unfold Even at h
  rw [empty, ← h, Bool.and_self, Option.isNone_iff_eq_none]

private theorem Even.popHead (h : d.Even) : (d.popHead hooks).2.Even := by
  unfold SingleDeque.popHead
  split
  · exact h
  · next v hv =>
    split
    · rfl
    · rw [Even, hv] at h
      exact h

variable [DecidableEq P]

private theorem even_pushTail (h : d.Even) (v : P) : (d.pushTail hooks v).2.Even := by
  unfold SingleDeque.pushTail
  dsimp only
  split
  · rfl
  · next t ht =>
    rw [Even, ht] at h
    exact h

/-- A push at the tail becomes the head only of an empty deque. -/
theorem Even.pushTail_head (h : d.Even) (v : P) :
    (d.pushTail hooks v).2.head = some (d.head.getD v) := by
  unfold Even at h
  unfold SingleDeque.pushTail
  dsimp only
  split
  · next ht =>
    rw [ht, Option.isNone_none, Option.isNone_iff_eq_none] at h
    rw [h, Option.getD_none]
  · next t ht =>
    rw [ht, Option.isNone_some, Option.isNone_eq_false_iff] at h
    obtain ⟨w, hw⟩ := Option.isSome_iff_exists.mp h
    show d.head = _
    rw [hw, Option.getD_some]

end SingleDeque

/-! ## The calls, up to `still` -/

namespace Sched

open SingleDeque (Even)

variable [DecidableEq P] [DecidableEq Q]
variable {s s' : Sched P Q F} {cur : P}

/-- What holds between calls: a current thread, no lock, and a ready queue with both ends or
none. -/
structure AtRest (s : Sched P Q F) : Prop where
  lock : ∃ i, s.toCore.lock = .unlocked i
  current : ∃ cur, s.currThread = some cur
  even : s.readyThreads.Even

/-- The thread at the head of the ready queue, or idle when there is none. -/
def first (s : Sched P Q F) : P := s.readyThreads.head.getD s.idleThread

omit [DecidableEq Q] in
/-- Handing a thread over leaves what is still. -/
theorem addReadyThreads_still (t : P) (h : s.currThread = some cur) :
    (s.addReadyThreads t).toCore.still = s.toCore.still := by
  rw [addReadyThreads_of_current h]
  split
  · exact s.toCore.still_setState t .ready
  · exact s.toCore.still_markReady t

omit [DecidableEq Q] in
theorem addReadyThreads_even (t : P) (h : s.currThread = some cur) (he : s.readyThreads.Even) :
    (s.addReadyThreads t).readyThreads.Even := by
  rw [addReadyThreads_of_current h]
  split <;> exact SingleDeque.even_pushTail he t

/-- `switch_task` is a dispatch, and queues the outgoing thread or not. -/
theorem switchTask_spec (next : P) (h : s.currThread = some cur) (he : s.readyThreads.Even) :
    ∃ s', s.switchTask next = .ok s' ∧
      s'.toCore.still = (s.toCore.dispatch cur next).still ∧ s'.readyThreads.Even := by
  unfold switchTask
  rw [h, deref_some, ok_bind]
  by_cases hrun : (s.thread cur).state = .running ∧ cur ≠ s.idleThread
  · rw [if_pos hrun]
    refine ⟨_, rfl, ?_, addReadyThreads_even cur h he⟩
    refine Core.dispatch_congr ?_ cur next
    exact (Core.still_setState _ next .running).trans (addReadyThreads_still cur h)
  · rw [if_neg hrun]
    exact ⟨_, rfl, rfl, he⟩

private theorem switchHead_spec {next : P} (h : s.currThread = some cur) (he : s.readyThreads.Even)
    (hnext : s.readyThreads.head = some next) :
    ∃ s', s.switchHead = .ok s' ∧
      s'.toCore.still = (s.toCore.dispatch cur next).still ∧ s'.readyThreads.Even := by
  rw [switchHead_eq hnext]
  obtain ⟨s', hs', hst, hev⟩ := switchTask_spec (s := { s with
    readyThreads := (s.readyThreads.popHead s.hook).2
    toCore := s.toCore.setState next .running }) next h he.popHead
  exact ⟨s', hs', hst.trans (Core.dispatch_congr (s.toCore.still_setState next .running) cur next),
    hev⟩

/-- The switch decision is a dispatch to the head of the ready queue, or to idle. -/
theorem switchNow_spec (h : s.currThread = some cur) (he : s.readyThreads.Even) :
    ∃ s', s.switchNow = .ok s' ∧
      s'.toCore.still = (s.toCore.dispatch cur s.first).still ∧ s'.readyThreads.Even := by
  unfold first
  by_cases hempty : s.readyThreads.empty = true
  · rw [switchNow_empty hempty, he.empty_iff.mp hempty]
    exact switchTask_spec s.idleThread h he
  · have hne : s.readyThreads.head ≠ none := fun hn => hempty (he.empty_iff.mpr hn)
    obtain ⟨next, hnext⟩ := Option.ne_none_iff_exists'.mp hne
    rw [hnext, Option.getD_some]
    by_cases hq : s.timeQuantumPast = true
    · rw [switchNow_past hempty hq, h, deref_some, ok_bind]
      obtain ⟨s', hs', hst, hev⟩ := switchHead_spec (s := s.mapCore (·.payQuantum cur)) h he hnext
      exact ⟨s', hs', hst.trans (Core.dispatch_congr (s.toCore.still_payQuantum cur) cur next), hev⟩
    · rw [switchNow_within hempty hq]
      exact switchHead_spec h he hnext

private theorem wake_spec {fuel : Nat} {t : P} (h : s.currThread = some cur) (he : s.readyThreads.Even)
    (hs : s.wake fuel t = .ok s') :
    s'.readyThreads.Even ∧ if s.readyThreads.empty ∧ cur = s.idleThread then
      s'.toCore.still = (s.toCore.dispatch cur t).still
    else s'.toCore.still = s.toCore.still ∧ s'.readyThreads.head = some (s.readyThreads.head.getD t) := by
  obtain ⟨s₁, hrem, hs⟩ := bind_ok.mp hs
  obtain ⟨r, -, hr⟩ := bind_ok.mp hrem
  cases hr
  have hmid : ((s.toCore.markWoken t)).still = s.toCore.still := s.toCore.still_markWoken t
  by_cases hc : s.readyThreads.empty ∧ s.currThread = some s.idleThread
  · have hc' : s.readyThreads.empty ∧ cur = s.idleThread :=
      ⟨hc.1, Option.some.inj (h.symm.trans hc.2)⟩
    obtain ⟨s₂, hs₂, hst, hev⟩ := switchTask_spec (s := { s with
      hook := r.1, waitingQueue := r.2, toCore := s.toCore.markWoken t }) t h he
    rw [if_pos hc']
    cases (if_pos hc).symm.trans hs |>.symm.trans hs₂
    exact ⟨hev, hst.trans (Core.dispatch_congr hmid cur t)⟩
  · have hc' : ¬ (s.readyThreads.empty ∧ cur = s.idleThread) :=
      fun hh => hc ⟨hh.1, hh.2 ▸ h⟩
    rw [if_neg hc']
    cases (if_neg hc).symm.trans hs
    exact ⟨SingleDeque.even_pushTail he t, hmid, he.pushTail_head t⟩

/-! ## The calls of the running thread -/

/-- The state a switch leaves, once the lock is released. -/
theorem AtRest.of_dispatch {next : P} {c : Core P Q F}
    (hs : s'.toCore.still = (c.dispatch cur next).still) (he : s'.readyThreads.Even) :
    (s'.withLock (.unlocked true)).AtRest := by
  refine ⟨⟨true, rfl⟩, ⟨next, ?_⟩, he⟩
  exact (Core.currThread_of_still hs).trans (Core.dispatch_currThread c cur next)

/-- `yield` queues the running thread first, so it runs again when nobody else is ready. -/
theorem yield_still (hr : s.AtRest) (h : s.currThread = some cur) (hs : s.yield = .ok s') :
    s'.AtRest ∧
      s'.toCore.still = (s.toCore.dispatch cur (s.readyThreads.head.getD cur)).still := by
  obtain ⟨i, hi⟩ := hr.lock
  rw [yield_eq hi, yieldNow, h] at hs
  obtain ⟨s₁, hs₁, hst, hev⟩ := switchNow_spec
    (s := (s.mapCore (·.markReady cur)).pushReady cur) h (SingleDeque.even_pushTail hr.even cur)
  rw [deref_some, ok_bind, hs₁] at hs
  cases hs
  have hfirst : ((s.mapCore (·.markReady cur)).pushReady cur).first =
      s.readyThreads.head.getD cur := by
    unfold first
    exact (congrArg (·.getD s.idleThread) (hr.even.pushTail_head cur)).trans Option.getD_some
  rw [hfirst] at hst
  refine ⟨.of_dispatch hst hev, hst.trans ?_⟩
  exact Core.dispatch_congr (s.toCore.still_markReady cur) _ _

/-- `sleep` and `block` queue the running thread elsewhere, so they leave it for the first ready
thread, or for idle. -/
theorem waitingCall_still {f : Core P Q F → Core P Q F} (hf : (f s.toCore).still = s.toCore.still)
    (hr : s.AtRest) (h : s.currThread = some cur)
    (hs : withLock (.unlocked true) <$> ((s.mapCore f).pushWaiting cur).switchNow = .ok s') :
    s'.AtRest ∧ s'.toCore.still = (s.toCore.dispatch cur s.first).still := by
  have hcur : (f s.toCore).currThread = some cur := (Core.currThread_of_still hf).trans h
  have hidle : (f s.toCore).idleThread = s.idleThread := Core.idleThread_of_still hf
  obtain ⟨s₁, hs₁, hst, hev⟩ := switchNow_spec
    (s := (s.mapCore f).pushWaiting cur) hcur hr.even
  rw [hs₁] at hs
  cases hs
  have hfirst : ((s.mapCore f).pushWaiting cur).first = s.first := by
    unfold first
    exact congrArg s.readyThreads.head.getD hidle
  rw [hfirst] at hst
  exact ⟨.of_dispatch hst hev, hst.trans (Core.dispatch_congr hf _ _)⟩

/-- `sleep` dispatches the first of the queue. -/
theorem sleep_still {milli : Word} (hr : s.AtRest) (h : s.currThread = some cur)
    (hs : s.sleep milli = .ok s') :
    s'.AtRest ∧ s'.toCore.still = (s.toCore.dispatch cur s.first).still := by
  obtain ⟨i, hi⟩ := hr.lock
  rw [sleep_eq milli hi, sleepNow, h] at hs
  exact waitingCall_still (s.toCore.still_markSleep cur milli) hr h hs

/-- So does `block`. -/
theorem block_still (hr : s.AtRest) (h : s.currThread = some cur) (hs : s.block = .ok s') :
    s'.AtRest ∧ s'.toCore.still = (s.toCore.dispatch cur s.first).still := by
  obtain ⟨i, hi⟩ := hr.lock
  rw [block_eq hi, blockNow, h] at hs
  exact waitingCall_still (s.toCore.still_setState cur .blocked) hr h hs

/-- Idle has the processor and nobody is ready: the case in which a woken thread gets it. -/
def Idling (s : Sched P Q F) : Prop :=
  s.readyThreads.head = none ∧ s.currThread = some s.idleThread

instance : Decidable s.Idling := inferInstanceAs (Decidable (_ ∧ _))

/-- `unblock` and the sleeper loop wake a thread in the same way. -/
theorem wake_idling {fuel : Nat} {t : P} (hi : s.Idling) (he : s.readyThreads.Even)
    (hs : s.wake fuel t = .ok s') :
    s'.readyThreads.Even ∧ s'.toCore.still = (s.toCore.dispatch s.idleThread t).still := by
  obtain ⟨hev, hst⟩ := wake_spec hi.2 he hs
  rw [if_pos ⟨he.empty_iff.mpr hi.1, rfl⟩] at hst
  exact ⟨hev, hst⟩

private theorem wake_busy {fuel : Nat} {t : P} (hi : ¬ s.Idling) (h : s.currThread = some cur)
    (he : s.readyThreads.Even) (hs : s.wake fuel t = .ok s') :
    s'.readyThreads.Even ∧ s'.toCore.still = s.toCore.still ∧
      s'.readyThreads.head = some (s.readyThreads.head.getD t) := by
  obtain ⟨hev, hst⟩ := wake_spec h he hs
  have hc : ¬ (s.readyThreads.empty ∧ cur = s.idleThread) :=
    fun hh => hi ⟨he.empty_iff.mp hh.1, hh.2 ▸ h⟩
  rw [if_neg hc] at hst
  exact ⟨hev, hst⟩

/-- `unblock` dispatches the woken thread, if idle has the processor to itself. -/
theorem unblock_still {fuel : Nat} {t : P} (hr : s.AtRest) (h : s.currThread = some cur)
    (hs : s.unblock fuel t = .ok s') :
    s'.AtRest ∧ if s.Idling then s'.toCore.still = (s.toCore.dispatch cur t).still
      else s'.toCore.still = s.toCore.still := by
  obtain ⟨i, hi⟩ := hr.lock
  rw [unblock_eq t fuel hi] at hs
  cases hw : s.wake fuel t with
  | error e =>
    rw [hw] at hs
    cases hs
  | ok s₁ =>
    rw [hw] at hs
    cases hs
    by_cases hidle : s.Idling
    · rw [if_pos hidle]
      obtain ⟨hev, hst⟩ := wake_idling hidle hr.even hw
      cases Option.some.inj (h.symm.trans hidle.2)
      exact ⟨.of_dispatch hst hev, hst⟩
    · rw [if_neg hidle]
      obtain ⟨hev, hst, -⟩ := wake_busy hidle h hr.even hw
      exact ⟨⟨⟨true, rfl⟩, ⟨cur, (Core.currThread_of_still hst).trans h⟩, hev⟩, hst⟩

omit [DecidableEq Q] in
theorem add_still (t : P) (hr : s.AtRest) (h : s.currThread = some cur) :
    (s.addReadyThreads t).AtRest ∧ (s.addReadyThreads t).toCore.still = s.toCore.still := by
  have hst := addReadyThreads_still t h
  obtain ⟨i, hi⟩ := hr.lock
  refine ⟨⟨⟨i, ?_⟩, ⟨cur, (Core.currThread_of_still hst).trans h⟩, addReadyThreads_even t h hr.even⟩,
    hst⟩
  have hlock := addReadyThreads_withLock s s.toCore.lock t
  rw [withLock_lock] at hlock
  rw [hlock, ← hi]
  rfl

end Sched

/-! ## The sleeper loop of a tick -/

namespace Core

variable [DecidableEq P] (c : Core P Q F) (t : P)

/-- What a tick does to a sleeper it does not wake. -/
def skip (c : Core P Q F) : Core P Q F :=
  if (c.thread t).state = .blocked then c else c.countDown t

@[simp] theorem still_skip : (c.skip t).still = c.still := by
  unfold skip
  split
  · rfl
  · exact c.still_countDown t

/-- Two cores that agree on what the quantum accounting reads: every budget, and the flag. -/
structure SameBudgets (c c' : Core P Q F) : Prop where
  scheduledTime : ∀ u, (c'.thread u).scheduledTime = (c.thread u).scheduledTime
  timeQuantumPast : c'.timeQuantumPast = c.timeQuantumPast

omit [DecidableEq P] in
theorem SameBudgets.rfl : SameBudgets c c := ⟨fun _ => Eq.refl _, Eq.refl _⟩

omit [DecidableEq P] in
theorem SameBudgets.trans {c c' c'' : Core P Q F} (h : SameBudgets c c') (h' : SameBudgets c' c'') :
    SameBudgets c c'' :=
  ⟨fun u => (h'.scheduledTime u).trans (h.scheduledTime u),
    h'.timeQuantumPast.trans h.timeQuantumPast⟩

private theorem sameBudgets_modify {f : ThreadBlock Q F → ThreadBlock Q F}
    (hf : ∀ b, (f b).scheduledTime = b.scheduledTime) : SameBudgets c (c.modify t f) := by
  refine ⟨fun u => ?_, Eq.refl _⟩
  rw [modify_thread]
  split
  · next h => rw [h, hf]
  · exact Eq.refl _

private theorem sameBudgets_countDown : SameBudgets c (c.countDown t) := by
  refine c.sameBudgets_modify t fun b => ?_
  split <;> exact Eq.refl _

private theorem sameBudgets_skip : SameBudgets c (c.skip t) := by
  unfold skip
  split
  · exact .rfl c
  · exact c.sameBudgets_countDown t

private theorem sameBudgets_dispatch [DecidableEq Q] (cur next : P) :
    SameBudgets c (c.dispatch cur next) := by
  refine ⟨fun u => ?_, c.dispatch_timeQuantumPast cur next⟩
  rw [dispatch_thread]
  split
  · next h => rw [h]
  · exact Eq.refl _

omit [DecidableEq P] in
/-- The slice test reads nothing that `still` and the budgets do not fix. -/
theorem sliceOver_of_still {c c' : Core P Q F} (hst : c'.still = c.still)
    (hb : SameBudgets c c') (t : P) : c'.SliceOver t ↔ c.SliceOver t :=
  sliceOver_congr (tick_of_still hst) (execStartMs_of_still hst t) (hb.scheduledTime t)

/-- The first sleeper that the walk of a tick wakes, from `node` on, in the links it starts with.
Up to that one the walk only counts sleepers down. -/
def firstWoken (links : Hooks P) : Nat → Option P → Core P Q F → Option P
  | _, none, _ => none
  | 0, some _, _ => none
  | fuel + 1, some t, c =>
    if c.due t then some t else firstWoken links fuel (links t) (c.skip t)

/-- The walk ends at a sleeper that is due. -/
theorem firstWoken_due {c : Core P Q F} {links : Hooks P} {n : Nat} {t : P} (h : c.due t = true) :
    firstWoken links (n + 1) (some t) c = some t := if_pos h

/-- It goes on past one that is not. -/
theorem firstWoken_not_due {c : Core P Q F} {links : Hooks P} {n : Nat} {t : P}
    (h : c.due t = false) :
    firstWoken links (n + 1) (some t) c = firstWoken links n (links t) (c.skip t) :=
  if_neg (Bool.eq_false_iff.mp h)

/-- The walk of a tick reads states and sleep times. -/
theorem firstWoken_congr {c c' : Core P Q F} {links : Hooks P} {n : Nat} {ptr : Option P}
    (h : ∀ t, (c'.thread t).state = (c.thread t).state ∧
      (c'.thread t).sleepTime = (c.thread t).sleepTime) :
    firstWoken links n ptr c' = firstWoken links n ptr c := by
  induction n generalizing ptr c c' with
  | zero => cases ptr <;> rfl
  | succ n ih =>
    cases ptr with
    | none => rfl
    | some t =>
      have hdue : c'.due t = c.due t := by
        unfold due
        rw [(h t).1, (h t).2]
      unfold firstWoken
      rw [hdue]
      congr 1
      refine ih fun u => ?_
      unfold skip
      rw [(h t).1]
      split
      · exact h u
      · unfold countDown
        rw [modify_thread, modify_thread, (h t).2]
        split
        · split <;> simp [h t]
        · exact h u

/-- Saving a frame does not change who is woken. -/
theorem firstWoken_saveFrame {links : Hooks P} {n : Nat} {ptr : Option P} (cur : P) (frame : F) :
    firstWoken links n ptr (c.increaseTick.saveFrame cur frame) = firstWoken links n ptr c := by
  refine firstWoken_congr fun t => ?_
  obtain ⟨r, m, h⟩ := c.increaseTick.saveFrame_same cur t frame
  rw [h]
  exact ⟨rfl, rfl⟩

/-- Nor does it end a slice. -/
theorem sliceOver_saveFrame (cur : P) (frame : F) {t : P} :
    (c.saveFrame cur frame).SliceOver t ↔ c.SliceOver t := by
  obtain ⟨r, m, h⟩ := c.saveFrame_same cur t frame
  refine sliceOver_congr rfl ?_ ?_
  · rw [h]
  · rw [h]

end Core

namespace Sched

variable [DecidableEq P] [DecidableEq Q]
variable {s s' : Sched P Q F} {cur t : P} {fuel : Nat}

/-- The first sleeper that the next tick wakes. -/
def firstWoken (fuel : Nat) (s : Sched P Q F) : Option P :=
  Core.firstWoken s.hook fuel s.waitingQueue.head s.toCore

/-- A sleeper that is due is woken. -/
theorem visit_due (h : s.toCore.due t = true) :
    s.visit fuel t = (s.mapCore (·.countDown t)).wake fuel t := by
  simp only [Core.due, decide_eq_true_eq] at h
  unfold visit
  rw [if_neg h.1]
  exact if_pos ((s.toCore.countDown_sleepTime t).mpr h.2)

/-- One that is not is counted down. -/
theorem visit_not_due (h : s.toCore.due t = false) :
    s.visit fuel t = .ok (s.mapCore (·.skip t)) := by
  simp only [Core.due, decide_eq_false_iff_not, not_and] at h
  unfold visit
  by_cases hb : (s.thread t).state = .blocked
  · rw [if_pos hb]
    exact congrArg (fun c => Except.ok { s with toCore := c }) (show s.toCore = s.toCore.skip t from
      (if_pos hb).symm)
  · rw [if_neg hb]
    refine (if_neg fun hz => h hb ((s.toCore.countDown_sleepTime t).mp hz)).trans ?_
    exact congrArg (fun c => Except.ok { s with toCore := c })
      (show s.toCore.countDown t = s.toCore.skip t from (if_neg hb).symm)

/-- The waking of a thread touches no budget: the one thread it can take the processor from is
idle, which is never queued again. -/
theorem wake_budgets (hs : s.wake fuel t = .ok s') : s.toCore.SameBudgets s'.toCore := by
  obtain ⟨s₁, hrem, hs⟩ := bind_ok.mp hs
  obtain ⟨r, -, hr⟩ := bind_ok.mp hrem
  cases hr
  have hwoken : s.toCore.SameBudgets (s.toCore.markWoken t) :=
    s.toCore.sameBudgets_modify t fun _ => rfl
  dsimp only at hs
  split at hs
  · next hc =>
    obtain ⟨cur, hcur, hs⟩ := bind_ok.mp hs
    have hidle : cur = s.idleThread := by
      rw [hc.2] at hcur
      cases hcur
      rfl
    dsimp only at hs
    rw [if_neg fun hh => hh.2 hidle] at hs
    cases hs
    exact hwoken.trans (Core.sameBudgets_dispatch _ cur t)
  · cases hs
    exact hwoken

private theorem visit_budgets (hs : s.visit fuel t = .ok s') : s.toCore.SameBudgets s'.toCore := by
  cases hd : s.toCore.due t with
  | true =>
    rw [visit_due hd] at hs
    exact (s.toCore.sameBudgets_countDown t).trans (wake_budgets hs)
  | false =>
    rw [visit_not_due hd] at hs
    cases hs
    exact s.toCore.sameBudgets_skip t

/-- A walk leaves the budgets. -/
theorem visitAll_budgets (hs : s.visitAll fuel = .ok s') : s.toCore.SameBudgets s'.toCore := by
  obtain ⟨-, h⟩ := SingleDeque.forEach_invariant
    (I := fun _ _ x => s.toCore.SameBudgets x.toCore)
    (fun _ _ _ _ hI hb => hI.trans (visit_budgets hb)) fuel _ _ s s' hs (.rfl _)
  exact h

/-- A visit is at most the dispatch from idle to the sleeper. -/
theorem visit_spec (h : s.currThread = some cur) (he : s.readyThreads.Even)
    (hs : s.visit fuel t = .ok s') :
    s'.readyThreads.Even ∧ (s'.toCore.still = s.toCore.still ∨
      s.Idling ∧ s'.toCore.still = (s.toCore.dispatch s.idleThread t).still) := by
  cases hd : s.toCore.due t with
  | false =>
    rw [visit_not_due hd] at hs
    cases hs
    exact ⟨he, .inl (s.toCore.still_skip t)⟩
  | true =>
    rw [visit_due hd] at hs
    have hst := s.toCore.still_countDown t
    by_cases hi : s.Idling
    · have hi' : (s.mapCore (·.countDown t)).Idling := hi
      obtain ⟨hev, hst'⟩ := wake_idling hi' he hs
      exact ⟨hev, .inr ⟨hi, hst'.trans (Core.dispatch_congr hst _ _)⟩⟩
    · obtain ⟨hev, hst', -⟩ := wake_busy (s := s.mapCore (·.countDown t)) hi h he hs
      exact ⟨hev, .inl (hst'.trans hst)⟩

/-- Unless idle has the processor to itself, a tick switches nobody in the sleeper loop, and the
head of the ready queue stays. -/
structure Busy (s s' : Sched P Q F) : Prop where
  still : s'.toCore.still = s.toCore.still
  even : s'.readyThreads.Even
  head : ∀ h, s.readyThreads.head = some h → s'.readyThreads.head = some h
  busy : ¬ s'.Idling

private theorem visit_busy (hi : ¬ s.Idling) (h : s.currThread = some cur) (he : s.readyThreads.Even)
    (hs : s.visit fuel t = .ok s') : Busy s s' := by
  cases hd : s.toCore.due t with
  | true =>
    rw [visit_due hd] at hs
    obtain ⟨hev, hst, hhead⟩ := wake_busy (s := s.mapCore (·.countDown t)) hi h he hs
    refine ⟨hst.trans (s.toCore.still_countDown t), hev, ?_, ?_⟩
    · intro w hw
      exact hhead.trans (congrArg (fun o => some (Option.getD o t)) hw)
    · intro hidle
      cases hhead.symm.trans hidle.1
  | false =>
    rw [visit_not_due hd] at hs
    cases hs
    have hst := s.toCore.still_skip t
    refine ⟨hst, he, fun _ hw => hw, fun hidle => hi ⟨hidle.1, ?_⟩⟩
    have hcur := Core.currThread_of_still hst
    have hid := Core.idleThread_of_still hst
    exact hcur.symm.trans (hidle.2.trans (congrArg some hid))

omit [DecidableEq P] [DecidableEq Q] in
theorem Busy.trans {s₁ : Sched P Q F} (h : Busy s s₁) (h' : Busy s₁ s') : Busy s s' :=
  ⟨h'.still.trans h.still, h'.even, fun w hw => h'.head w (h.head w hw), h'.busy⟩

theorem forEach_busy (hi : ¬ s.Idling) (h : s.currThread = some cur) (he : s.readyThreads.Even)
    {n : Nat} {ptr next : Option P}
    (hs : SingleDeque.forEach Sched.hook (visit fuel) n ptr next s = .ok s') : Busy s s' := by
  obtain ⟨-, hb⟩ := SingleDeque.forEach_invariant (I := fun _ _ x => Busy s x)
    (fun _ _ x x' hI hx => hI.trans (visit_busy hI.busy
      ((Core.currThread_of_still hI.still).trans h) hI.even hx))
    n ptr next s s' hs ⟨rfl, he, fun _ hw => hw, hi⟩
  exact hb

/-- A walk that wakes nobody only counts sleepers down. -/
theorem forEach_none {n : Nat} {ptr : Option P}
    (hw : Core.firstWoken s.hook n ptr s.toCore = none)
    (hs : SingleDeque.forEach Sched.hook (visit fuel) n ptr (ptr.bind s.hook) s = .ok s') :
    s'.toCore.still = s.toCore.still ∧ s'.readyThreads = s.readyThreads := by
  induction n generalizing ptr s with
  | zero =>
    cases ptr with
    | none =>
      cases hs
      exact ⟨rfl, rfl⟩
    | some t => cases hs
  | succ n ih =>
    cases ptr with
    | none =>
      cases hs
      exact ⟨rfl, rfl⟩
    | some t =>
      cases hd : s.toCore.due t with
      | true =>
        rw [Core.firstWoken_due hd] at hw
        cases hw
      | false =>
        rw [Core.firstWoken_not_due hd] at hw
        simp only [SingleDeque.forEach, visit_not_due hd, ok_bind, Option.bind_some] at hs
        obtain ⟨hst, hready⟩ := ih hw hs
        exact ⟨hst.trans (s.toCore.still_skip t), hready⟩

/-- A walk that wakes `w` first counts sleepers down until it gets there. -/
theorem forEach_some {n : Nat} {ptr : Option P} {w : P}
    (hw : Core.firstWoken s.hook n ptr s.toCore = some w)
    (hs : SingleDeque.forEach Sched.hook (visit fuel) n ptr (ptr.bind s.hook) s = .ok s') :
    ∃ (c : Core P Q F) (m : Nat) (next next' : Option P) (s₁ : Sched P Q F),
      c.still = s.toCore.still ∧ ({ s with toCore := c }).wake fuel w = .ok s₁ ∧
      SingleDeque.forEach Sched.hook (visit fuel) m next next' s₁ = .ok s' := by
  induction n generalizing ptr s with
  | zero =>
    cases ptr with
    | none => cases hw
    | some t => cases hs
  | succ n ih =>
    cases ptr with
    | none => cases hw
    | some t =>
      cases hd : s.toCore.due t with
      | true =>
        rw [Core.firstWoken_due hd, Option.some.injEq] at hw
        subst hw
        simp only [SingleDeque.forEach, visit_due hd] at hs
        obtain ⟨s₁, hs₁, hs⟩ := bind_ok.mp hs
        exact ⟨s.toCore.countDown t, n, _, _, s₁, s.toCore.still_countDown t, hs₁, hs⟩
      | false =>
        rw [Core.firstWoken_not_due hd] at hw
        simp only [SingleDeque.forEach, visit_not_due hd, ok_bind, Option.bind_some] at hs
        obtain ⟨c, m, next, next', s₁, hst, hrest⟩ := ih hw hs
        exact ⟨c, m, next, next', s₁, hst.trans (s.toCore.still_skip t), hrest⟩

/-- While idle has the processor to itself, the first sleeper a tick wakes gets it and keeps it
to the end of the loop. -/
theorem visitAll_woken {w : P} (hi : s.Idling) (he : s.readyThreads.Even) (hne : w ≠ s.idleThread)
    (hw : s.firstWoken fuel = some w) (hs : s.visitAll fuel = .ok s') :
    s'.toCore.still = (s.toCore.dispatch s.idleThread w).still ∧ s'.readyThreads.Even := by
  obtain ⟨c, m, next, next', s₁, hst, hwake, hrest⟩ := forEach_some hw hs
  have hid : c.idleThread = s.idleThread := Core.idleThread_of_still hst
  have hcur : c.currThread = s.currThread := Core.currThread_of_still hst
  have hi' : ({ s with toCore := c } : Sched P Q F).Idling :=
    ⟨hi.1, hcur.trans (hi.2.trans (congrArg some hid.symm))⟩
  obtain ⟨hev, hst₁⟩ := wake_idling hi' he hwake
  have hd : s₁.toCore.still = (s.toCore.dispatch s.idleThread w).still := by
    refine hst₁.trans ?_
    rw [show ({ s with toCore := c } : Sched P Q F).idleThread = s.idleThread from hid]
    exact Core.dispatch_congr hst _ _
  have hcur₁ : s₁.currThread = some w :=
    (Core.currThread_of_still hd).trans (Core.dispatch_currThread _ _ _)
  have hid₁ : s₁.idleThread = s.idleThread :=
    (Core.idleThread_of_still hd).trans (Core.dispatch_idleThread _ _ _)
  have hbusy : ¬ s₁.Idling := by
    intro hidle
    exact hne (Option.some.inj (hcur₁.symm.trans (hidle.2.trans (congrArg some hid₁))))
  have hb := forEach_busy hbusy hcur₁ hev hrest
  exact ⟨hb.still.trans hd, hb.even⟩

/-! ## The end of a tick -/

/-- A slice that is not over goes on. -/
theorem endSlice_not_over (h : s.currThread = some cur) (ho : ¬ s.toCore.SliceOver cur) :
    s.endSlice = .ok s := by
  have ho' := not_or.mp ho
  simp only [endSlice, h, deref_some, ok_bind, if_neg ho'.1, if_neg ho'.2]

/-- The end of a slice dispatches the first of the queue. -/
theorem endSlice_over (h : s.currThread = some cur) (he : s.readyThreads.Even)
    (ho : s.toCore.SliceOver cur) :
    ∃ s', s.endSlice = .ok s' ∧ s'.toCore.still = (s.toCore.dispatch cur s.first).still ∧
      s'.readyThreads.Even := by
  simp only [endSlice, h, deref_some, ok_bind]
  by_cases hb : (s.thread cur).scheduledTime ≤ s.toCore.delta cur
  · rw [if_pos hb]
    exact switchNow_spec h he
  · rw [if_neg hb, if_pos (ho.resolve_left hb)]
    obtain ⟨s', hs', hst, hev⟩ := switchNow_spec (s := s.mapCore (·.setQuantumPast true)) h he
    exact ⟨s', hs', hst.trans (Core.dispatch_congr (s.toCore.still_setQuantumPast true) _ _), hev⟩

/-- A tick that returns ran its body, and left the frame of the thread that is current then. -/
theorem pitTick_ok {frame out : F} (hr : s.AtRest) (h : s.currThread = some cur)
    (hs : s.pitTick fuel frame = .ok (out, s')) :
    ∃ s₁ now, s.tickNow fuel cur frame = .ok s₁ ∧ s₁.currThread = some now ∧
      out = (s₁.thread now).registers ∧ s' = s₁.withLock (.unlocked true) := by
  obtain ⟨i, hi⟩ := hr.lock
  rw [pitTick_eq fuel frame hi h] at hs
  obtain ⟨s₁, hs₁, hs⟩ := bind_ok.mp hs
  obtain ⟨now, hnow, hs⟩ := bind_ok.mp hs
  cases hs
  exact ⟨s₁, now, hs₁, deref_ok hnow, rfl, rfl⟩

/-- **The rule for a tick.** What depends only on `still` and outlasts a dispatch outlasts a tick,
from the moment the frame is saved. -/
theorem pitTick_rule {I : Core P Q F → Prop} {frame out : F}
    (hstill : ∀ c c' : Core P Q F, c'.still = c.still → I c → I c')
    (hdispatch : ∀ (c : Core P Q F) (cur next : P), I c → I (c.dispatch cur next))
    (hr : s.AtRest) (h : s.currThread = some cur)
    (hI : I (s.toCore.increaseTick.saveFrame cur frame))
    (hs : s.pitTick fuel frame = .ok (out, s')) :
    s'.AtRest ∧ I s'.toCore ∧ ∃ now, s'.currThread = some now ∧ out = (s'.thread now).registers := by
  obtain ⟨s₂, now, hrun, hnow, hout, rfl⟩ := pitTick_ok hr h hs
  obtain ⟨s₁, hloop, hend⟩ := bind_ok.mp hrun
  -- the sleeper loop
  obtain ⟨-, ⟨mid, hmid⟩, hev, hI₁⟩ := SingleDeque.forEach_invariant
    (I := fun _ _ (x : Sched P Q F) => (∃ now, x.currThread = some now) ∧ x.readyThreads.Even ∧
      I x.toCore)
    (fun p _ x x' hx hstep => by
      obtain ⟨⟨now, hnow⟩, hev, hIx⟩ := hx
      obtain ⟨hev', hst | ⟨-, hst⟩⟩ := visit_spec hnow hev hstep
      · exact ⟨⟨now, (Core.currThread_of_still hst).trans hnow⟩, hev', hstill _ _ hst hIx⟩
      · exact ⟨⟨p, (Core.currThread_of_still hst).trans (Core.dispatch_currThread _ _ _)⟩, hev',
          hstill _ _ hst (hdispatch _ _ _ hIx)⟩)
    fuel _ _ (s.charge cur frame) s₁ hloop ⟨⟨cur, h⟩, hr.even, hI⟩
  -- the slice test
  have hlast : s₂.readyThreads.Even ∧ I s₂.toCore := by
    by_cases ho : s₁.toCore.SliceOver mid
    · obtain ⟨s₃, hs₃, hst, hev₃⟩ := endSlice_over hmid hev ho
      cases hs₃.symm.trans hend
      exact ⟨hev₃, hstill _ _ hst (hdispatch _ _ _ hI₁)⟩
    · rw [endSlice_not_over hmid ho] at hend
      cases hend
      exact ⟨hev, hI₁⟩
  exact ⟨⟨⟨true, rfl⟩, ⟨now, hnow⟩, hlast.1⟩, hstill _ _ (s₂.toCore.still_withLock _) hlast.2, now,
    hnow, hout⟩

end Sched

end TwoKernel
