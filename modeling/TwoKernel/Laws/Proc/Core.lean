import TwoKernel.Proc.Thread

/-!
# What each core operation writes

One lemma per operation says what it does to every thread block at once
(`*_thread`), and the `simp` lemmas beside it say which members of the core it
leaves alone. Nothing after this module unfolds a core operation.

`Lock` gathers the four members the scheduler lock owns. No other operation
reads them, so each commutes with writing them (`withLock`); that is why a
whole call under the lock can be read as its body without the lock.
-/

namespace TwoKernel.Core

variable {P Q F : Type} [DecidableEq P] [DecidableEq Q]
variable (c : Core P Q F) (t u cur next : P) (f : ThreadBlock Q F → ThreadBlock Q F)

/-! ## Writing a thread block -/

section modify

omit [DecidableEq Q]

/-- A write to one block. -/
theorem modify_thread : (c.modify t f).thread u = if u = t then f (c.thread t) else c.thread u := by
  simp only [modify, Function.update_apply]

@[simp] theorem modify_thread_self : (c.modify t f).thread t = f (c.thread t) := by
  simp [modify_thread]

theorem modify_thread_of_ne (h : u ≠ t) : (c.modify t f).thread u = c.thread u := by
  rw [modify_thread, if_neg h]

end modify

section fields

omit [DecidableEq Q]

/-- `setState` writes one state. -/
theorem setState_state (st : ThreadState) : ((c.setState t st).thread u).state =
    if u = t then st else (c.thread u).state := by
  unfold setState
  rw [modify_thread]
  split <;> rfl

theorem setState_thread_of_ne (st : ThreadState) (h : u ≠ t) :
    (c.setState t st).thread u = c.thread u := modify_thread_of_ne c t u _ h

theorem setState_thread_self (st : ThreadState) :
    (c.setState t st).thread t = { c.thread t with state := st } := modify_thread_self c t _

theorem payQuantum_thread_of_ne (h : u ≠ t) : (c.payQuantum t).thread u = c.thread u :=
  modify_thread_of_ne c t u _ h

/-- Saving a frame also counts a millisecond of runtime. -/
theorem saveFrame_thread (frame : F) : (c.saveFrame t frame).thread u =
    if u = t then
      { c.thread t with registers := frame, totalRuntimeMs := (c.thread t).totalRuntimeMs + 1 }
    else c.thread u := modify_thread c t u _

theorem saveFrame_thread_of_ne (frame : F) (h : u ≠ t) :
    (c.saveFrame t frame).thread u = c.thread u := modify_thread_of_ne c t u _ h

theorem saveFrame_thread_self (frame : F) : (c.saveFrame t frame).thread t =
    { c.thread t with registers := frame, totalRuntimeMs := (c.thread t).totalRuntimeMs + 1 } :=
  modify_thread_self c t _

/-- Saving a frame writes two members of a block. -/
theorem saveFrame_same (frame : F) : ∃ r n, (c.saveFrame t frame).thread u =
    { c.thread u with registers := r, totalRuntimeMs := n } := by
  rw [saveFrame_thread]
  split
  · next h =>
    subst h
    exact ⟨_, _, rfl⟩
  · exact ⟨_, _, rfl⟩

theorem payQuantum_state : ((c.payQuantum t).thread u).state = (c.thread u).state := by
  unfold payQuantum
  rw [modify_thread]
  split
  · next h =>
    subst h
    dsimp only
    split <;> rfl
  · rfl

end fields

/-- A sleeper the next tick wakes. -/
def due (t : P) (c : Core P Q F) : Bool :=
  (c.thread t).state ≠ .blocked ∧ (c.thread t).sleepTime ≤ 1

/-- The first thread of a list that the next tick wakes. -/
def firstDue (l : List P) (c : Core P Q F) : Option P := l.find? fun t => c.due t

/-- The block of a thread that a tick woke and idle gave the processor to at time `now`. -/
def woken (now : Word) (b : ThreadBlock Q F) : ThreadBlock Q F :=
  { b with state := .ready, sleepTime := 0, execStartMs := now }

/-- The slice test of a tick succeeds for `t`: its budget is spent, or a whole quantum is. -/
def SliceOver (t : P) (c : Core P Q F) : Prop :=
  (c.thread t).scheduledTime ≤ c.delta t ∨ c.delta t = defaultTimeQuantum

instance : Decidable (c.SliceOver t) := inferInstanceAs (Decidable (_ ∨ _))

section

omit [DecidableEq P] [DecidableEq Q]

/-- The slice test reads the clock and two members of the block. -/
theorem sliceOver_congr {c c' : Core P Q F} {t : P} (htick : c'.tick = c.tick)
    (hstart : (c'.thread t).execStartMs = (c.thread t).execStartMs)
    (hbudget : (c'.thread t).scheduledTime = (c.thread t).scheduledTime) :
    c'.SliceOver t ↔ c.SliceOver t := by
  unfold SliceOver delta getTimeMilliseconds
  rw [htick, hstart, hbudget]

/-- At the start of a slice the test succeeds only for an empty budget. -/
theorem sliceOver_start {c : Core P Q F} {t : P}
    (h : (c.thread t).execStartMs = c.getTimeMilliseconds) :
    c.SliceOver t ↔ (c.thread t).scheduledTime = 0 := by
  have hd : c.delta t = 0 := by
    unfold delta
    rw [h, BitVec.sub_self]
    rfl
  unfold SliceOver
  rw [hd, or_iff_left (by decide)]
  bv_omega

/-- A sleeper that is due is found. -/
theorem firstDue_cons_due {l : List P} (h : c.due t = true) : c.firstDue (t :: l) = some t :=
  List.find?_cons_of_pos h

theorem firstDue_cons_not_due {l : List P} (h : c.due t = false) :
    c.firstDue (t :: l) = c.firstDue l :=
  List.find?_cons_of_neg (by simp [h])

/-- The search reads the blocks of the sleepers. -/
theorem firstDue_congr {c c' : Core P Q F} {l : List P} (h : ∀ t ∈ l, c'.thread t = c.thread t) :
    c'.firstDue l = c.firstDue l := by
  induction l with
  | nil => rfl
  | cons u l ih =>
    have hu : c'.due u = c.due u := by
      unfold due
      rw [h u List.mem_cons_self]
    have hl := ih fun t ht => h t (List.mem_cons_of_mem _ ht)
    cases hd : c.due u with
    | true => rw [firstDue_cons_due c u hd, firstDue_cons_due c' u (hu.trans hd)]
    | false => rw [firstDue_cons_not_due c u hd, firstDue_cons_not_due c' u (hu.trans hd), hl]

end

section

omit [DecidableEq Q]

theorem countDown_thread_of_ne (h : u ≠ t) : (c.countDown t).thread u = c.thread u :=
  modify_thread_of_ne c t u _ h

theorem markWoken_thread_of_ne (h : u ≠ t) : (c.markWoken t).thread u = c.thread u :=
  modify_thread_of_ne c t u _ h

/-- A sleeper is at zero after its last millisecond. -/
theorem countDown_sleepTime :
    ((c.countDown t).thread t).sleepTime = 0 ↔ (c.thread t).sleepTime ≤ 1 := by
  unfold countDown
  rw [modify_thread_self]
  split <;> bv_omega

end

/-! ## Becoming the current thread -/

section enter

omit [DecidableEq Q]

/-- Entering a thread starts its slice. -/
theorem enter_thread :
    (c.enter t).thread u =
      if u = t then { c.thread t with execStartMs := c.getTimeMilliseconds } else c.thread u :=
  modify_thread _ t u _

end enter

/-- A dispatch writes one member of one thread block. -/
theorem dispatch_thread :
    (c.dispatch cur next).thread u =
      if u = next then { c.thread next with execStartMs := c.getTimeMilliseconds }
      else c.thread u := by
  unfold dispatch
  split
  · exact enter_thread c next u
  · split
    · exact enter_thread ((c.loadStack next).loadCr3 next) next u
    · exact enter_thread (c.loadStack next) next u

/-- A dispatch makes the incoming thread current. -/
@[simp] theorem dispatch_currThread : (c.dispatch cur next).currThread = some next := by
  unfold dispatch
  split
  · rfl
  · split <;> rfl

@[simp] theorem dispatch_idleThread : (c.dispatch cur next).idleThread = c.idleThread := by
  unfold dispatch
  split
  · rfl
  · split <;> rfl

@[simp] theorem dispatch_timeQuantumPast : (c.dispatch cur next).timeQuantumPast = c.timeQuantumPast := by
  unfold dispatch
  split
  · rfl
  · split <;> rfl

@[simp] theorem dispatch_tick : (c.dispatch cur next).tick = c.tick := by
  unfold dispatch
  split
  · rfl
  · split <;> rfl

/-- It moves no thread to another process. -/
@[simp] theorem dispatch_process : (c.dispatch cur next).process = c.process := by
  unfold dispatch
  split
  · rfl
  · split <;> rfl

/-! ## The scheduler lock -/

/-- The members the lock owns. -/
structure Lock where
  disableCounter : BitVec 8
  taskSwitchCounter : BitVec 8
  taskSwitchPostponed : Bool
  interruptFlag : Bool

/-- The core with its lock members replaced. -/
def withLock (k : Lock) (c : Core P Q F) : Core P Q F :=
  { c with
    disableCounter := k.disableCounter
    taskSwitchCounter := k.taskSwitchCounter
    taskSwitchPostponed := k.taskSwitchPostponed
    interruptFlag := k.interruptFlag }

/-- The lock members of a core. -/
def lock (c : Core P Q F) : Lock :=
  ⟨c.disableCounter, c.taskSwitchCounter, c.taskSwitchPostponed, c.interruptFlag⟩

variable (k k' : Lock)

/-- A dispatch does not look at the lock. -/
@[simp] theorem dispatch_withLock :
    (c.withLock k).dispatch cur next = (c.dispatch cur next).withLock k := by
  unfold dispatch
  by_cases hn : next = c.idleThread
  · rw [if_pos hn, if_pos (show next = (c.withLock k).idleThread from hn)]
    rfl
  · rw [if_neg hn, if_neg (show ¬ next = (c.withLock k).idleThread from hn)]
    by_cases hp : (c.thread next).mProcess ≠ (c.thread cur).mProcess
    · rw [if_pos hp]
      exact if_pos hp
    · rw [if_neg hp]
      exact if_neg hp

end TwoKernel.Core
