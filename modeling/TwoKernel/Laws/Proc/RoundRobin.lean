import TwoKernel.Laws.Proc.Queued
import TwoKernel.Proc.Calls

/-!
# Round robin with a quantum

The reference of the timer path: a queue of threads, each with a budget of
ticks. The thread at the front holds the processor until its budget or a whole
quantum is spent, goes to the back with what is left of the budget or with a
fresh one, and is resumed later with the frame it was interrupted with.

`roundRobin_refines`: while nobody sleeps or blocks, the scheduler is this
reference, tick for tick, for any number of threads, any budgets and any run.
The code gets there through two flags and a postponed switch; `Queued.tickNow`
has that settled, and one lemma about a switch between two running threads
(`switchNow_rotate`) is what is left.
-/

namespace TwoKernel

attribute [local instance] neZero_three

variable {P Q F : Type} [DecidableEq P] [DecidableEq Q]

/-- The reference: who holds the processor and for how many ticks, who waits for it in which order,
and of each thread its budget, its runtime and its frame. -/
structure RoundRobin (P F : Type) where
  cur : P
  used : Nat
  queue : List P
  budget : P → Nat
  runtime : P → Word
  frame : P → F

namespace RoundRobin

/-- The budget a thread goes to the back of the queue with. -/
def renew (budget : Nat) : Nat := if 100 < budget then budget - 100 else 6

/-- One tick, which interrupts the current thread with `f`. -/
def tick (f : F) (r : RoundRobin P F) : RoundRobin P F :=
  let r := { r with
    used := r.used + 1
    runtime := Function.update r.runtime r.cur (r.runtime r.cur + 1)
    frame := Function.update r.frame r.cur f }
  if r.used = min (r.budget r.cur) 100 then
    match r.queue with
    | [] => r
    | next :: rest =>
      { r with
        cur := next
        used := 0
        queue := rest ++ [r.cur]
        budget := Function.update r.budget r.cur (renew (r.budget r.cur)) }
  else r

/-- A run of ticks: the frames that are resumed, and the state after it. -/
def run : List F → RoundRobin P F → List F × RoundRobin P F
  | [], r => ([], r)
  | f :: fs, r =>
    let r := r.tick f
    (r.frame r.cur :: (run fs r).1, (run fs r).2)

end RoundRobin

/-- A run of PIT ticks, each with the frame it interrupts: the frames left in `*frame`, and the state
after it. -/
def Sched.pitTicks (fuel : Nat) : List F → Sched P Q F → Outcome (List F × Sched P Q F)
  | [], s => .ok ([], s)
  | f :: fs, s => do
    let r ← s.pitTick fuel f
    let rs ← pitTicks fuel fs r.2
    return (r.1 :: rs.1, rs.2)

/-! ## The clock -/

omit [DecidableEq P] [DecidableEq Q] in
theorem Core.getTimeMilliseconds_eq {c : Core P Q F} (h : c.tick.toNat * 1000 < 2 ^ 64) :
    c.getTimeMilliseconds = c.tick := by
  apply BitVec.eq_of_toNat_eq
  have hthousand : (1000 : Word).toNat = 1000 := rfl
  unfold getTimeMilliseconds
  rw [BitVec.toNat_udiv, BitVec.toNat_mul, hthousand, Nat.mod_eq_of_lt h]
  omega

/-! ## A switch between two running threads -/

namespace Queued

variable {a : Queued P Q F} {next : P} {rest : List P}

omit [DecidableEq Q] in
/-- Queuing a thread serves the quantum flag. -/
theorem addReadyThreads_timeQuantumPast (t : P) : (a.addReadyThreads t).timeQuantumPast = false := by
  unfold addReadyThreads
  split
  · rfl
  · next h => exact (Bool.not_eq_true _).mp h

omit [DecidableEq Q] in
theorem addReadyThreads_thread_self (t : P) : (a.addReadyThreads t).thread t =
    if a.timeQuantumPast then { a.thread t with state := .ready }
    else { a.thread t with state := .ready, scheduledTime := defaultScheduleTimeMs } := by
  unfold addReadyThreads
  split
  · exact a.toCore.setState_thread_self t .ready
  · show ((a.toCore.setState t .ready).modify t ThreadBlock.resetScheduledTime).thread t = _
    rw [Core.modify_thread_self, Core.setState_thread_self]
    rfl

/-- The blocks after a switch away from a thread that is queued again. -/
theorem switchTask_thread (hreq : a.Requeues) (u : P) : (a.switchTask next).thread u =
    if u = next then
      { (a.addReadyThreads a.cur).thread next with
        state := .running, execStartMs := a.toCore.getTimeMilliseconds }
    else (a.addReadyThreads a.cur).thread u := by
  simp only [switchTask, if_pos (show _ ∧ _ from hreq)]
  refine (Core.dispatch_thread _ u a.cur next).trans ?_
  by_cases hu : u = next
  · rw [if_pos hu, if_pos hu]
    have htime : ((a.addReadyThreads a.cur).toCore.setState next .running).getTimeMilliseconds =
        a.toCore.getTimeMilliseconds := by
      unfold Core.getTimeMilliseconds
      exact congrArg (fun n : Word => n * 1000 / 1000) (a.addReadyThreads_tick a.cur)
    show { ((a.addReadyThreads a.cur).toCore.setState next .running).thread next with
      execStartMs := ((a.addReadyThreads a.cur).toCore.setState next .running).getTimeMilliseconds } =
        _
    rw [htime, Core.setState_thread_self]
  · rw [if_neg hu, if_neg hu]
    exact Core.setState_thread_of_ne _ next u .running hu

/-- The block of the current thread when it is queued again. -/
def requeued (a : Queued P Q F) : ThreadBlock Q F :=
  if a.timeQuantumPast then { (a.toCore.payQuantum a.cur).thread a.cur with state := .ready }
  else { a.thread a.cur with state := .ready, scheduledTime := defaultScheduleTimeMs }

section

omit [DecidableEq Q]

private theorem requeued_keeps (a : Queued P Q F) : a.requeued.state = .ready ∧
    a.requeued.totalRuntimeMs = (a.thread a.cur).totalRuntimeMs ∧
    a.requeued.registers = (a.thread a.cur).registers := by
  unfold requeued
  split
  · unfold Core.payQuantum
    rw [Core.modify_thread_self]
    dsimp only
    split <;> exact ⟨rfl, rfl, rfl⟩
  · exact ⟨rfl, rfl, rfl⟩

/-- A thread whose quantum is past keeps what is left of its budget, and any other starts over. -/
theorem requeued_scheduledTime (h : a.timeQuantumPast = true →
      100 < (a.thread a.cur).scheduledTime.toNat) : a.requeued.scheduledTime.toNat =
    if a.timeQuantumPast then (a.thread a.cur).scheduledTime.toNat - 100 else 6 := by
  unfold requeued
  by_cases hflag : a.timeQuantumPast = true
  · have hlt := h hflag
    have hsub : ((a.thread a.cur).scheduledTime - defaultTimeQuantum).toNat =
        (a.thread a.cur).scheduledTime.toNat - 100 :=
      BitVec.toNat_sub_of_le (BitVec.le_def.mpr (Nat.le_of_lt hlt))
    have hne : (a.thread a.cur).scheduledTime - defaultTimeQuantum ≠ 0 := by
      intro e
      rw [e] at hsub
      have h0 : (0 : Word).toNat = 0 := rfl
      omega
    rw [if_pos hflag, if_pos hflag, Core.payQuantum, Core.modify_thread_self]
    dsimp only
    rw [if_neg hne, hsub]
  · rw [if_neg hflag, if_neg hflag]
    rfl

theorem popped_thread_of_ne {u : P} (hu : u ≠ next) (hc : u ≠ a.cur) :
    (a.popped next rest).thread u = a.thread u := by
  unfold popped
  refine (Core.setState_thread_of_ne _ next u .running hu).trans ?_
  split
  · exact a.toCore.payQuantum_thread_of_ne a.cur u hc
  · rfl

private theorem popped_thread_next (hne : a.cur ≠ next) :
    (a.popped next rest).thread next = { a.thread next with state := .running } := by
  unfold popped
  refine (Core.setState_thread_self _ next .running).trans ?_
  split
  · exact congrArg (fun b : ThreadBlock Q F => { b with state := .running })
      (a.toCore.payQuantum_thread_of_ne a.cur next hne.symm)
  · rfl

private theorem popped_requeued (hne : a.cur ≠ next) :
    ((a.popped next rest).addReadyThreads a.cur).thread a.cur = a.requeued := by
  rw [addReadyThreads_thread_self]
  have hflag : (a.popped next rest).timeQuantumPast = a.timeQuantumPast := by
    unfold popped
    split <;> rfl
  have hcur : (a.popped next rest).thread a.cur =
      if a.timeQuantumPast then (a.toCore.payQuantum a.cur).thread a.cur else a.thread a.cur := by
    unfold popped
    refine (Core.setState_thread_of_ne _ next a.cur .running hne).trans ?_
    split <;> rfl
  unfold requeued
  rw [hflag, hcur]
  split <;> rfl

end

/-- The current thread goes to the back of the queue, and the one at the front runs from now on. -/
theorem switchNow_rotate (hreq : a.Requeues) (hr : a.ready = next :: rest) (hne : a.cur ≠ next) :
    a.switchNow.currThread = some next ∧ a.switchNow.ready = rest ++ [a.cur] ∧
      a.switchNow.timeQuantumPast = false ∧
      ∀ u, a.switchNow.thread u =
        if u = next then
          { a.thread next with state := .running, execStartMs := a.toCore.getTimeMilliseconds }
        else if u = a.cur then a.requeued else a.thread u := by
  have hreq' : (a.popped next rest).Requeues := by
    constructor
    · rw [popped_cur, popped_state, if_neg hne]
      exact hreq.1
    · rw [popped_cur, popped_idleThread]
      exact hreq.2
  rw [switchNow_cons a next hr]
  refine ⟨switchTask_currThread _ _, ?_, ?_, ?_⟩
  · rw [switchTask_ready, if_pos hreq', popped_ready, popped_cur]
  · simp only [switchTask, if_pos (show _ ∧ _ from hreq')]
    refine (Core.dispatch_timeQuantumPast _ _ _).trans ?_
    exact addReadyThreads_timeQuantumPast _
  · intro u
    have htime : (a.popped next rest).toCore.getTimeMilliseconds = a.toCore.getTimeMilliseconds := by
      unfold popped
      split <;> rfl
    rw [switchTask_thread hreq', popped_cur, htime]
    by_cases hu : u = next
    · rw [if_pos hu, if_pos hu, addReadyThreads_thread_of_ne _ _ _ hne.symm, popped_thread_next hne]
    · rw [if_neg hu, if_neg hu]
      by_cases hc : u = a.cur
      · rw [if_pos hc, hc, popped_requeued hne]
      · rw [if_neg hc, addReadyThreads_thread_of_ne _ _ _ hc, popped_thread_of_ne hu hc]

end Queued

/-! ## The reference and the scheduler -/

namespace RoundRobin

/-- The blocks, the flags and the clock are as the reference says, in a scheduler that nobody has
locked. The current thread is Running and those in the queue are Ready; no thread is there twice, and
idle is not there. -/
structure Describes (r : RoundRobin P F) (c : Core P Q F) : Prop where
  unlocked : ∃ i, c.lock = .unlocked i
  flag : c.timeQuantumPast = false
  curr : c.currThread = some r.cur
  running : (c.thread r.cur).state = .running
  queued : ∀ t ∈ r.queue, (c.thread t).state = .ready
  nonempty : r.queue ≠ []
  distinct : (r.cur :: r.queue).Nodup
  idle : c.idleThread ∉ r.cur :: r.queue
  used : (c.thread r.cur).execStartMs + BitVec.ofNat 64 r.used = c.getTimeMilliseconds
  within : r.used < min (r.budget r.cur) 100
  budget : ∀ t, (c.thread t).scheduledTime.toNat = r.budget t
  positive : ∀ t ∈ r.cur :: r.queue, 0 < r.budget t
  runtime : ∀ t, (c.thread t).totalRuntimeMs = r.runtime t
  frame : ∀ t, (c.thread t).registers = r.frame t

/-- The scheduler is in the state of the reference, and nobody waits. -/
structure Holds (r : RoundRobin P F) (s : Sched P Q F) : Prop extends r.Describes s.toCore where
  waiting : s.waitingQueue.Represents s.hook []
  ready : s.readyThreads.Represents s.hook r.queue

variable {r : RoundRobin P F} {c c' : Core P Q F} {s s' : Sched P Q F} {f : F}

/-- The slice of the current thread ends with this tick. -/
def Spent (r : RoundRobin P F) : Prop := r.used + 1 = min (r.budget r.cur) 100

instance (r : RoundRobin P F) : Decidable r.Spent := inferInstanceAs (Decidable (_ = _))

private theorem tick_of_not_spent (h : ¬ r.Spent) : r.tick f = { r with
    used := r.used + 1
    runtime := Function.update r.runtime r.cur (r.runtime r.cur + 1)
    frame := Function.update r.frame r.cur f } := if_neg h

private theorem tick_of_spent {next : P} {rest : List P} (h : r.Spent) (hq : r.queue = next :: rest) :
    r.tick f =
      { cur := next
        used := 0
        queue := rest ++ [r.cur]
        budget := Function.update r.budget r.cur (renew (r.budget r.cur))
        runtime := Function.update r.runtime r.cur (r.runtime r.cur + 1)
        frame := Function.update r.frame r.cur f } := by
  unfold Spent at h
  unfold tick
  dsimp only
  rw [if_pos h, hq]

/-- A run from the start of a slice up to its end, and over it. -/
theorem run_slice {next : P} {rest : List P} (hq : r.queue = next :: rest)
    (hused : r.used < min (r.budget r.cur) 100) (fs : List F) :
    (r.used + fs.length < min (r.budget r.cur) 100 →
      (r.run fs).2.cur = r.cur ∧ (r.run fs).2.queue = r.queue) ∧
    (r.used + fs.length = min (r.budget r.cur) 100 →
      (r.run fs).2.cur = next ∧ (r.run fs).2.queue = rest ++ [r.cur] ∧
        (r.run fs).2.budget r.cur = renew (r.budget r.cur)) := by
  induction fs generalizing r with
  | nil =>
    refine ⟨fun _ => ⟨rfl, rfl⟩, fun h => ?_⟩
    rw [List.length_nil, Nat.add_zero] at h
    omega
  | cons f fs ih =>
    rw [List.length_cons]
    by_cases hspent : r.Spent
    · have htick := tick_of_spent (f := f) hspent hq
      unfold Spent at hspent
      refine ⟨fun h => by omega, fun h => ?_⟩
      have hnil : fs = [] := List.eq_nil_of_length_eq_zero (by omega)
      subst hnil
      show (r.tick f).cur = _ ∧ (r.tick f).queue = _ ∧ (r.tick f).budget r.cur = _
      rw [htick]
      exact ⟨rfl, rfl, Function.update_self _ _ _⟩
    · have htick := tick_of_not_spent (f := f) hspent
      unfold Spent at hspent
      have ih := ih (r := r.tick f) (by rw [htick]; exact hq) (by rw [htick]; dsimp only; omega)
      rw [htick] at ih
      dsimp only at ih
      show (_ → ((r.tick f).run fs).2.cur = _ ∧ ((r.tick f).run fs).2.queue = _) ∧
        (_ → ((r.tick f).run fs).2.cur = _ ∧ ((r.tick f).run fs).2.queue = _ ∧
          ((r.tick f).run fs).2.budget r.cur = _)
      rw [htick]
      exact ⟨fun h => ih.1 (by omega), fun h => ih.2 (by omega)⟩

/-! ### One tick -/

/-- The core of a tick up to the slice test. -/
def charged (r : RoundRobin P F) (f : F) (c : Core P Q F) : Core P Q F :=
  c.increaseTick.saveFrame r.cur f

omit [DecidableEq Q] in
theorem charged_thread (t : P) : (r.charged f c).thread t =
    if t = r.cur then
      { c.thread r.cur with registers := f, totalRuntimeMs := (c.thread r.cur).totalRuntimeMs + 1 }
    else c.thread t := Core.saveFrame_thread _ r.cur t f

namespace Describes

omit [DecidableEq Q]

/-- The blocks at the slice test have the runtime and the frame of the reference. -/
theorem charged (h : r.Describes c) (t : P) :
    ((r.charged f c).thread t).totalRuntimeMs =
        Function.update r.runtime r.cur (r.runtime r.cur + 1) t ∧
      ((r.charged f c).thread t).registers = Function.update r.frame r.cur f t ∧
      ((r.charged f c).thread t).scheduledTime.toNat = r.budget t ∧
      ((r.charged f c).thread t).state = (c.thread t).state ∧
      ((r.charged f c).thread t).execStartMs = (c.thread t).execStartMs := by
  rw [charged_thread, Function.update_apply, Function.update_apply]
  by_cases ht : t = r.cur
  · rw [if_pos ht, if_pos ht, if_pos ht, ht]
    exact ⟨congrArg (· + 1) (h.runtime r.cur), rfl, h.budget r.cur, rfl, rfl⟩
  · rw [if_neg ht, if_neg ht, if_neg ht]
    exact ⟨h.runtime t, h.frame t, h.budget t, rfl, rfl⟩

/-- The clock of the slice test, while it does not overflow. -/
theorem charged_time (h : r.Describes c) (ht : (c.tick.toNat + 1) * 1000 < 2 ^ 64) :
    (r.charged f c).getTimeMilliseconds = (c.thread r.cur).execStartMs + BitVec.ofNat 64 (r.used + 1) := by
  have hone : (c.tick + 1).toNat = c.tick.toNat + 1 := by
    have h1 : (1 : Word).toNat = 1 := rfl
    rw [BitVec.toNat_add, h1, Nat.mod_eq_of_lt (by omega)]
  have hbefore : c.tick.toNat * 1000 < 2 ^ 64 :=
    Nat.lt_of_le_of_lt (Nat.mul_le_mul_right 1000 (Nat.le_succ _)) ht
  have htick : (r.charged f c).tick = c.tick + 1 := rfl
  have hlt : (r.charged f c).tick.toNat * 1000 < 2 ^ 64 := by
    rw [htick, hone]
    exact ht
  have hnow : (r.charged f c).getTimeMilliseconds = c.tick + 1 :=
    (Core.getTimeMilliseconds_eq hlt).trans htick
  have hold := h.used
  rw [Core.getTimeMilliseconds_eq hbefore] at hold
  rw [hnow, ← hold, BitVec.ofNat_add, BitVec.add_assoc]
  rfl

/-- The slice test compares the ticks of the reference. -/
theorem charged_delta (h : r.Describes c) (ht : (c.tick.toNat + 1) * 1000 < 2 ^ 64) :
    ((r.charged f c).delta r.cur).toNat = r.used + 1 := by
  have hwithin := h.within
  unfold Core.delta
  rw [h.charged_time ht, (h.charged r.cur).2.2.2.2, BitVec.add_comm, BitVec.add_sub_cancel,
    BitVec.toNat_ofNat, Nat.mod_eq_of_lt (by omega)]

/-- A tick within the slice. -/
theorem tick_within (h : r.Describes c) (ht : (c.tick.toNat + 1) * 1000 < 2 ^ 64)
    (hspent : ¬ r.Spent) : (r.tick f).Describes ((r.charged f c).withLock (.unlocked true)) := by
  rw [tick_of_not_spent hspent]
  have hwithin := h.within
  unfold Spent at hspent
  exact {
    unlocked := ⟨true, rfl⟩
    flag := h.flag
    curr := h.curr
    running := (h.charged r.cur).2.2.2.1.trans h.running
    queued := fun t hq => (h.charged t).2.2.2.1.trans (h.queued t hq)
    nonempty := h.nonempty
    distinct := h.distinct
    idle := h.idle
    used := by
      show ((r.charged f c).thread r.cur).execStartMs + _ = (r.charged f c).getTimeMilliseconds
      rw [(h.charged r.cur).2.2.2.2, h.charged_time ht]
    within := by
      show r.used + 1 < min (r.budget r.cur) 100
      omega
    budget := fun t => (h.charged t).2.2.1
    positive := h.positive
    runtime := fun t => (h.charged t).1
    frame := fun t => (h.charged t).2.1 }

end Describes

/-! ### The end of a slice

The switch starts from `a`, which is the charged core with the flag that says whether there is budget
left.
-/

section sliceEnd

variable {a : Queued P Q F} {next : P} {rest : List P} {flag : Bool} (h : r.Describes c)
  (hcore : a.toCore = (r.charged f c).setQuantumPast flag)
include h hcore

omit [DecidableEq Q]

private theorem Describes.over_cur : a.cur = r.cur := by
  apply Queued.cur_eq
  rw [hcore]
  exact h.curr

omit h in
theorem over_thread (t : P) : a.thread t = (r.charged f c).thread t := by
  rw [hcore]
  rfl

/-- The block the current thread is queued with has the budget of the reference. -/
theorem Describes.over_requeued (hflag : flag = true ↔ 100 < r.budget r.cur) :
    a.requeued.state = .ready ∧ a.requeued.scheduledTime.toNat = renew (r.budget r.cur) ∧
      a.requeued.totalRuntimeMs = ((r.charged f c).thread r.cur).totalRuntimeMs ∧
      a.requeued.registers = ((r.charged f c).thread r.cur).registers := by
  have hcur := h.over_cur hcore
  have hpast : a.timeQuantumPast = flag := by
    rw [hcore]
    rfl
  have hold : (a.thread a.cur).scheduledTime.toNat = r.budget r.cur := by
    rw [hcur, over_thread hcore]
    exact (h.charged r.cur).2.2.1
  obtain ⟨hstate, hruntime, hframe⟩ := a.requeued_keeps
  rw [hcur, over_thread hcore] at hruntime hframe
  refine ⟨hstate, ?_, hruntime, hframe⟩
  rw [Queued.requeued_scheduledTime (by rw [hpast, hold]; exact hflag.mp), hpast, hold]
  unfold renew
  simp only [hflag]

variable [DecidableEq Q] (hq : r.queue = next :: rest) (hready : a.ready = next :: rest)
include hq

omit hcore in
omit [DecidableEq P] [DecidableEq Q] in
/-- The thread at the front is another one, and neither of the two is further back. -/
theorem Describes.front_ne : r.cur ≠ next ∧ r.cur ∉ rest ∧ next ∉ rest := by
  have hdistinct := h.distinct
  rw [hq] at hdistinct
  obtain ⟨hnotin, hrest⟩ := List.nodup_cons.mp hdistinct
  rw [List.mem_cons, not_or] at hnotin
  exact ⟨hnotin.1, hnotin.2, (List.nodup_cons.mp hrest).1⟩

include hready

/-- The current thread goes to the back of the queue, and the one at the front runs from now on. -/
theorem Describes.over_rotates : a.switchNow.currThread = some next ∧
    a.switchNow.ready = rest ++ [r.cur] ∧ a.switchNow.timeQuantumPast = false ∧
    ∀ t, a.switchNow.thread t =
      if t = next then
        { (r.charged f c).thread next with
          state := .running, execStartMs := a.toCore.getTimeMilliseconds }
      else if t = r.cur then a.requeued else (r.charged f c).thread t := by
  have hcur := h.over_cur hcore
  have hidle : a.idleThread = c.idleThread := by
    rw [hcore]
    rfl
  have hreq : a.Requeues := by
    constructor
    · rw [hcur, over_thread hcore, (h.charged r.cur).2.2.2.1]
      exact h.running
    · rw [hcur, hidle]
      exact fun e => h.idle (e ▸ List.mem_cons_self)
  have hne : a.cur ≠ next := by
    rw [hcur]
    exact (h.front_ne hq).1
  obtain ⟨hcurr, hqueue, hpast, hthread⟩ := Queued.switchNow_rotate hreq hready hne
  rw [hcur] at hqueue
  refine ⟨hcurr, hqueue, hpast, fun t => ?_⟩
  rw [hthread, hcur, over_thread hcore, over_thread hcore]

/-- The blocks after the switch, but for the states and the start of the slice. -/
theorem Describes.over_block (hflag : flag = true ↔ 100 < r.budget r.cur) (t : P) :
    (a.switchNow.thread t).scheduledTime.toNat =
        Function.update r.budget r.cur (renew (r.budget r.cur)) t ∧
      (a.switchNow.thread t).totalRuntimeMs = ((r.charged f c).thread t).totalRuntimeMs ∧
      (a.switchNow.thread t).registers = ((r.charged f c).thread t).registers := by
  obtain ⟨-, -, -, hthread⟩ := h.over_rotates hcore hq hready
  obtain ⟨hne, -, -⟩ := h.front_ne hq
  rw [hthread, Function.update_apply]
  by_cases htn : t = next
  · have htc : t ≠ r.cur := fun e => hne (e.symm.trans htn)
    rw [if_pos htn, if_neg htc, htn]
    exact ⟨(h.charged next).2.2.1, rfl, rfl⟩
  · rw [if_neg htn]
    by_cases htc : t = r.cur
    · rw [if_pos htc, if_pos htc, htc]
      exact (h.over_requeued hcore hflag).2
    · rw [if_neg htc, if_neg htc]
      exact ⟨(h.charged t).2.2.1, rfl, rfl⟩

/-- The states of the threads in the queue. -/
theorem Describes.over_queued (hflag : flag = true ↔ 100 < r.budget r.cur) :
    ∀ t ∈ rest ++ [r.cur], (a.switchNow.thread t).state = .ready := by
  obtain ⟨-, -, -, hthread⟩ := h.over_rotates hcore hq hready
  obtain ⟨hne, hcurRest, hnextRest⟩ := h.front_ne hq
  intro t ht
  rw [hthread]
  rcases List.mem_append.mp ht with ht | ht
  · have htn : t ≠ next := fun e => hnextRest (e ▸ ht)
    have htc : t ≠ r.cur := fun e => hcurRest (e ▸ ht)
    rw [if_neg htn, if_neg htc, (h.charged t).2.2.2.1]
    exact h.queued t (by rw [hq]; exact List.mem_cons_of_mem _ ht)
  · have htc : t = r.cur := List.mem_singleton.mp ht
    rw [if_neg (fun e => hne (htc.symm.trans e)), if_pos htc]
    exact (h.over_requeued hcore hflag).1

end sliceEnd

private theorem renew_pos (budget : Nat) : 0 < renew budget := by
  unfold renew
  split <;> omega

/-- A tick that ends the slice. The flag says whether there is budget left. -/
theorem Describes.tick_over {a : Queued P Q F} {next : P} {rest : List P}
    (h : r.Describes c) (flag : Bool) (hspent : r.Spent)
    (hq : r.queue = next :: rest) (hcore : a.toCore = (r.charged f c).setQuantumPast flag)
    (hready : a.ready = next :: rest) (hflag : flag = true ↔ 100 < r.budget r.cur) :
    (r.tick f).Describes (a.switchNow.withLock (.unlocked true)).toCore ∧
      (a.switchNow.withLock (.unlocked true)).ready = (r.tick f).queue := by
  obtain ⟨hcurr, hqueue, hpast, hthread⟩ := h.over_rotates hcore hq hready
  have hblock := h.over_block hcore hq hready hflag
  have hne := (h.front_ne hq).1
  have hnext := hthread next
  rw [if_pos rfl] at hnext
  -- the same threads in another order
  have hperm : (next :: (rest ++ [r.cur])).Perm (r.cur :: r.queue) := by
    rw [hq]
    exact List.perm_append_singleton r.cur (next :: rest)
  rw [tick_of_spent hspent hq]
  refine ⟨?_, hqueue⟩
  exact {
    unlocked := ⟨true, rfl⟩
    flag := hpast
    curr := hcurr
    running := by
      show (a.switchNow.thread next).state = _
      rw [hnext]
    queued := h.over_queued hcore hq hready hflag
    nonempty := List.append_ne_nil_of_right_ne_nil _ (List.cons_ne_nil _ _)
    distinct := hperm.nodup_iff.mpr h.distinct
    idle := by
      show a.switchNow.idleThread ∉ _
      rw [Queued.switchNow_idleThread, hperm.mem_iff, hcore]
      exact h.idle
    used := by
      show (a.switchNow.thread next).execStartMs + BitVec.ofNat 64 0 =
        a.switchNow.toCore.getTimeMilliseconds
      rw [hnext]
      unfold Core.getTimeMilliseconds
      rw [Queued.switchNow_tick]
      exact BitVec.add_zero _
    within := by
      have hpos : 0 < r.budget next := h.positive next (by rw [hq]; simp)
      show 0 < min (Function.update r.budget r.cur _ next) 100
      rw [Function.update_of_ne hne.symm]
      omega
    budget := fun t => (hblock t).1
    positive := by
      intro t ht
      show 0 < Function.update r.budget r.cur (renew (r.budget r.cur)) t
      rw [Function.update_apply]
      split
      · exact renew_pos _
      · exact h.positive t (hperm.mem_iff.mp ht)
    runtime := fun t => (hblock t).2.1.trans (h.charged t).1
    frame := fun t => (hblock t).2.2.trans (h.charged t).2.1 }

/-- The slice test of a tick does what the reference does. -/
theorem Describes.endSlice {a : Queued P Q F} (h : r.Describes a.toCore) (hready : a.ready = r.queue)
    (ht : (a.tick.toNat + 1) * 1000 < 2 ^ 64) :
    (r.tick f).Describes ((a.charge f).endSlice.withLock (.unlocked true)).toCore ∧
      (a.charge f).endSlice.ready = (r.tick f).queue ∧ (a.charge f).endSlice.waiting = a.waiting ∧
      (a.charge f).endSlice.tick = a.tick + 1 := by
  have hcur : (a.charge f).cur = r.cur := Queued.cur_eq h.curr
  have hcore : (a.charge f).toCore = r.charged f a.toCore := by
    show a.toCore.increaseTick.saveFrame a.cur f = a.toCore.increaseTick.saveFrame r.cur f
    rw [show a.cur = r.cur from Queued.cur_eq h.curr]
  have hdelta : ((a.charge f).toCore.delta r.cur).toNat = r.used + 1 := by
    rw [hcore]
    exact h.charged_delta ht
  have hbudget : ((a.charge f).thread r.cur).scheduledTime.toNat = r.budget r.cur := by
    rw [hcore]
    exact (h.charged r.cur).2.2.1
  have hwithin := h.within
  obtain ⟨next, rest, hq⟩ := List.exists_cons_of_ne_nil h.nonempty
  unfold Queued.endSlice
  dsimp only
  rw [hcur]
  have hiff : ((a.charge f).thread r.cur).scheduledTime ≤ (a.charge f).toCore.delta r.cur ↔
      r.budget r.cur ≤ r.used + 1 := by
    rw [BitVec.le_def, hbudget, hdelta]
  by_cases hle : r.budget r.cur ≤ r.used + 1
  · rw [if_pos (hiff.mpr hle)]
    have hspent : r.Spent := by
      unfold Spent
      omega
    obtain ⟨hdesc, hqueue⟩ := h.tick_over (f := f) (a := a.charge f) false hspent hq
      (by rw [hcore, ← h.flag]; rfl)
      (hready.trans hq) (by simp; omega)
    exact ⟨hdesc, hqueue, Queued.switchNow_waiting _, Queued.switchNow_tick _⟩
  · rw [if_neg (hiff.not.mpr hle)]
    by_cases hquantum : (a.charge f).toCore.delta r.cur = defaultTimeQuantum
    · rw [if_pos hquantum]
      have hhundred : r.used + 1 = 100 := by
        rw [← hdelta, hquantum]
        rfl
      have hspent : r.Spent := by
        unfold Spent
        omega
      obtain ⟨hdesc, hqueue⟩ := h.tick_over (f := f)
        (a := (a.charge f).mapCore (·.setQuantumPast true)) true hspent hq
        (congrArg (·.setQuantumPast true) hcore) (hready.trans hq) (by simp; omega)
      exact ⟨hdesc, hqueue, Queued.switchNow_waiting _, Queued.switchNow_tick _⟩
    · rw [if_neg hquantum]
      have hspent : ¬ r.Spent := by
        unfold Spent
        intro hspent
        apply hquantum
        apply BitVec.eq_of_toNat_eq
        rw [hdelta]
        show r.used + 1 = 100
        omega
      refine ⟨?_, ?_, rfl, rfl⟩
      · show (r.tick f).Describes ((a.charge f).toCore.withLock _)
        rw [hcore]
        exact h.tick_within ht hspent
      · rw [tick_of_not_spent hspent]
        exact hready

/-- **One tick.** -/
theorem Holds.tick (h : r.Holds s) (ht : (s.tick.toNat + 1) * 1000 < 2 ^ 64) (fuel : Nat) :
    ∃ s', s.pitTick fuel f = .ok ((r.tick f).frame (r.tick f).cur, s') ∧ (r.tick f).Holds s' ∧
      s'.tick = s.tick + 1 := by
  let a : Queued P Q F := ⟨s.toCore, [], r.queue⟩
  have hcur : a.cur = r.cur := Queued.cur_eq h.curr
  obtain ⟨i, hlock⟩ := h.unlocked
  have hsim : Sim s a := by
    refine ⟨rfl, ?_, h.waiting, h.ready, List.disjoint_nil_left _⟩
    show s.currThread ≠ none
    rw [h.curr]
    exact Option.some_ne_none _
  have hset : ((a.charge f).visitAll a.waiting).Settled := by
    intro _ _
    have hcharge : (a.charge f).cur = r.cur := hcur
    show (a.charge f).cur ∉ r.queue ∧ (a.charge f).cur ∉ []
    rw [hcharge]
    exact ⟨(List.nodup_cons.mp h.distinct).1, List.not_mem_nil⟩
  obtain ⟨s', hs', hsim'⟩ := hsim.pitTick (Nat.zero_le fuel) hlock hset
  obtain ⟨hdesc, hready, hwaiting, htick⟩ :=
    Describes.endSlice (f := f) (a := a) h.toDescribes rfl ht
  have heq : a.pitTick f = (a.charge f).endSlice.withLock (.unlocked true) :=
    Queued.pitTick_eq f hlock
  rw [heq] at hsim' hs'
  have hdesc' : (r.tick f).Describes s'.toCore := by
    rw [hsim'.core]
    exact hdesc
  refine ⟨s', ?_, { hdesc' with waiting := ?_, ready := ?_ }, ?_⟩
  · rw [hs', Queued.frame, Queued.cur_eq hdesc.curr, hdesc.frame]
  · have hrep := hsim'.waiting
    rw [show ((a.charge f).endSlice.withLock (.unlocked true)).waiting = [] from hwaiting] at hrep
    exact hrep
  · have hrep := hsim'.ready
    rw [show ((a.charge f).endSlice.withLock (.unlocked true)).ready = _ from hready] at hrep
    exact hrep
  · rw [hsim'.core]
    exact htick

/-- **The scheduler is round robin with a quantum.** From a scheduler that nobody has locked, with
nobody waiting, a Running current thread and one or more Ready ones in the queue, idle not among them,
any number of ticks returns, resumes the frames of the reference and ends in its state. In the
reference, a thread with budget `b` holds the processor for `min b 100` ticks in all, and then goes to
the back of the queue with `b - 100` or the default, and the old front runs. -/
theorem roundRobin_refines (h : r.Holds s) (fuel : Nat) (frames : List F)
    (ht : (s.tick.toNat + frames.length) * 1000 < 2 ^ 64) :
    (∃ s', s.pitTicks fuel frames = .ok ((r.run frames).1, s') ∧ (r.run frames).2.Holds s') ∧
    (r.used + frames.length < min (r.budget r.cur) 100 →
      (r.run frames).2.cur = r.cur ∧ (r.run frames).2.queue = r.queue) ∧
    ∀ next rest, r.queue = next :: rest →
      r.used + frames.length = min (r.budget r.cur) 100 →
      (r.run frames).2.cur = next ∧ (r.run frames).2.queue = rest ++ [r.cur] ∧
        (r.run frames).2.budget r.cur =
          if 100 < r.budget r.cur then r.budget r.cur - 100 else 6 := by
  refine ⟨?_, ?_, ?_⟩
  · induction frames generalizing r s with
    | nil => exact ⟨s, rfl, h⟩
    | cons f fs ih =>
      rw [List.length_cons, ← Nat.add_assoc, Nat.add_right_comm] at ht
      have hone : (s.tick.toNat + 1) * 1000 < 2 ^ 64 :=
        Nat.lt_of_le_of_lt (Nat.mul_le_mul_right 1000 (Nat.le_add_right _ _)) ht
      obtain ⟨s₁, hs₁, h₁, htick⟩ := h.tick (f := f) hone fuel
      have htick' : s₁.tick.toNat = s.tick.toNat + 1 := by
        have h1 : (1 : Word).toNat = 1 := rfl
        rw [htick, BitVec.toNat_add, h1, Nat.mod_eq_of_lt (by omega)]
      obtain ⟨s', hs', h'⟩ := ih h₁ (by rw [htick']; exact ht)
      refine ⟨s', ?_, h'⟩
      simp only [Sched.pitTicks, hs₁, ok_bind, hs', pure_eq_ok]
      rfl
  · intro hlt
    obtain ⟨next, rest, hq⟩ := List.exists_cons_of_ne_nil h.nonempty
    exact (run_slice hq h.within frames).1 hlt
  · intro next rest hq heq
    exact (run_slice hq h.within frames).2 heq

/-- Idle, thread `1` with the default budget, which runs, and thread `2` with a budget of 250. -/
def trioStart : RoundRobin (Fin 3) Nat :=
  ⟨1, 0, [2], fun t => if t = 2 then 250 else 6, fun _ => 0, fun t => t.val⟩

def trio : Sched (Fin 3) Unit Nat :=
  { Sched.boot (fun t : Fin 3 => { ThreadBlock.construct 0 t.val () with
        state := if t = 1 then .running else .ready
        scheduledTime := if t = 2 then 250 else 6 }) (fun _ => .construct 0 false) 0 with
    currThread := some 1
    readyThreads := ⟨some 2, some 2⟩ }

private theorem trio_holds : trioStart.Holds trio where
  unlocked := ⟨false, rfl⟩
  flag := rfl
  curr := rfl
  running := rfl
  queued := by decide
  nonempty := by decide
  distinct := by decide
  idle := by decide
  used := rfl
  within := by decide
  budget := by decide
  positive := by decide
  runtime := by decide
  frame := by decide
  waiting := SingleDeque.represents_nil _
  ready := ⟨⟨rfl, rfl⟩, rfl⟩

/-- Six ticks of thread `1`, and thread `2` is resumed with its own frame. -/
theorem roundRobin_trio : ∃ s', trio.pitTicks 0 [7, 7, 7, 7, 7, 9] = .ok ([7, 7, 7, 7, 7, 2], s') ∧
    (trioStart.run [7, 7, 7, 7, 7, 9]).2.cur = 2 := by
  obtain ⟨⟨s', hs', -⟩, -, hover⟩ :=
    roundRobin_refines trio_holds 0 [7, 7, 7, 7, 7, 9] (by decide)
  exact ⟨s', hs', (hover 2 [] rfl rfl).1⟩

end RoundRobin

end TwoKernel
