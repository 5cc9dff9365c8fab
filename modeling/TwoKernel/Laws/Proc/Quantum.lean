import TwoKernel.Laws.Proc.Masking
import TwoKernel.Lib.System

/-!
# The quantum flag and the budget it is paid out of

A tick that finds a whole quantum used up, with budget left, sets
`time_quantum_past` and asks for a switch. `schedule()` then subtracts the quantum
from the budget, and `add_ready_threads` clears the flag when it queues the
outgoing thread with what is left. The budget was tested just before, so that
subtraction is safe. But `switch_task` queues only a Running thread other than
idle; for any other the flag stays, and the next `schedule()` subtracts 100 from
whatever budget it finds.

`Settles` says when a tick does not leave the flag behind. Along runs whose ticks
all settle, the flag is down between calls and every payment is out of at least
100 (`sound_of_run`).
-/

namespace TwoKernel

attribute [local instance] neZero_three

variable {P Q F : Type} [DecidableEq P] [DecidableEq Q]

/-! ## The flag through the calls -/

namespace Sched

variable {s s' : Sched P Q F} {cur next t p : P} {fuel : Nat}

omit [DecidableEq Q] in
/-- Queuing a thread always leaves the flag down. -/
theorem addReadyThreads_flag (h : s.currThread = some cur) :
    (s.addReadyThreads t).timeQuantumPast = false := by
  rw [addReadyThreads_of_current h]
  split
  · rfl
  · next hq => exact (Bool.not_eq_true _).mp hq

private theorem switchTask_flag (hs : s.switchTask next = .ok s') (hq : s.timeQuantumPast = false) :
    s'.timeQuantumPast = false := by
  obtain ⟨cur, hcur, hs⟩ := bind_ok.mp hs
  cases hs
  refine (Core.dispatch_timeQuantumPast _ _ _).trans ?_
  split
  · exact addReadyThreads_flag (deref_ok hcur)
  · exact hq

variable (cur) in
/-- A switch from a Running thread other than idle takes the flag down. -/
theorem switchTask_clears (h : s.currThread = some cur) (hrun : (s.thread cur).state = .running)
    (hidle : cur ≠ s.idleThread) (hs : s.switchTask next = .ok s') :
    s'.timeQuantumPast = false := by
  unfold switchTask at hs
  rw [h, deref_some, ok_bind, if_pos ⟨hrun, hidle⟩] at hs
  cases hs
  exact (Core.dispatch_timeQuantumPast _ _ _).trans (addReadyThreads_flag h)

private theorem wake_flag {fuel : Nat} {t : P} (hs : s.wake fuel t = .ok s')
    (hq : s.timeQuantumPast = false) : s'.timeQuantumPast = false := by
  obtain ⟨s₁, hrem, hs⟩ := bind_ok.mp hs
  have hq₁ : s₁.timeQuantumPast = false := by
    obtain ⟨r, -, hr⟩ := bind_ok.mp hrem
    rw [← Except.ok.inj hr]
    exact hq
  dsimp only at hs
  split at hs
  · exact switchTask_flag hs hq₁
  · cases hs
    exact hq₁

private theorem switchNow_flag (hs : s.switchNow = .ok s') (hq : s.timeQuantumPast = false) :
    s'.timeQuantumPast = false := by
  rcases switchNow_cases hs with ⟨-, hs⟩ | ⟨-, ⟨hpast, -⟩ | ⟨-, hs⟩⟩
  · exact switchTask_flag hs hq
  · rw [hq] at hpast
    cases hpast
  · obtain ⟨next, -, hs⟩ := switchHead_cases hs
    exact switchTask_flag hs hq

private theorem switchHead_clears (h : s.currThread = some cur) (hrun : (s.thread cur).state = .running)
    (hidle : cur ≠ s.idleThread) (hs : s.switchHead = .ok s') : s'.timeQuantumPast = false := by
  obtain ⟨next, -, hs⟩ := switchHead_cases hs
  refine switchTask_clears cur (by exact h) ?_ (by exact hidle) hs
  show ((s.toCore.setState next .running).thread cur).state = .running
  rw [Core.setState_state]
  split
  · rfl
  · exact hrun

private theorem switchNow_clears (h : s.currThread = some cur) (hrun : (s.thread cur).state = .running)
    (hidle : cur ≠ s.idleThread) (hs : s.switchNow = .ok s') : s'.timeQuantumPast = false := by
  rcases switchNow_cases hs with ⟨-, hs⟩ | ⟨-, ⟨-, c, -, hs⟩ | ⟨-, hs⟩⟩
  · exact switchTask_clears cur h hrun hidle hs
  · refine switchHead_clears (s := s.mapCore (·.payQuantum c)) h ?_ hidle hs
    exact (s.toCore.payQuantum_state c cur).trans hrun
  · exact switchHead_clears h hrun hidle hs

private theorem schedule_flag (hs : s.schedule = .ok s') (hq : s.timeQuantumPast = false) :
    s'.timeQuantumPast = false := by
  by_cases hk : s.taskSwitchCounter = 0
  · rw [schedule_unlocked hk] at hs
    exact switchNow_flag hs hq
  · cases (schedule_locked hk).symm.trans hs
    exact hq

/-! ## The sleeper loop, for a thread that does not wait -/

/-- A thread that a walk of the waiting queue meets. -/
def Waits (s : Sched P Q F) (t : P) : Prop := ∃ n, t ∈ s.waitingThreads n

omit [DecidableEq P] [DecidableEq Q] in
theorem walk_closed {links : Hooks P} {o : Option P} :
    SingleDeque.Closed (fun t => ∃ n, t ∈ Chain.walk links n o) links := by
  intro x hx y hy
  obtain ⟨n, hx⟩ := hx
  induction n generalizing o with
  | zero => cases o <;> cases hx
  | succ n ih =>
    cases o with
    | none => cases hx
    | some v =>
      rcases List.mem_cons.mp hx with rfl | hx
      · refine ⟨2, ?_⟩
        simp [Chain.walk, hy]
      · obtain ⟨m, hm⟩ := ih hx
        exact ⟨m + 1, List.mem_cons_of_mem _ hm⟩

omit [DecidableEq P] [DecidableEq Q] in
theorem walk_within {links : Hooks P} {d : SingleDeque P} :
    SingleDeque.Within (fun t => ∃ n, t ∈ Chain.walk links n d.head) d := by
  intro x hx
  refine ⟨1, ?_⟩
  rw [hx]
  exact List.mem_cons_self

/-- A visit inside a closed set leaves the block of every thread outside alone. -/
theorem visit_outside {W : P → Prop} (hc : SingleDeque.Closed W s.hook)
    (hw : SingleDeque.Within W s.waitingQueue) (hp : W p) (ht : ¬ W t)
    (hs : s.visit fuel p = .ok s') :
    SingleDeque.Closed W s'.hook ∧ SingleDeque.Within W s'.waitingQueue ∧
      s'.thread t = s.thread t := by
  have htp : t ≠ p := fun e => ht (e ▸ hp)
  cases hd : s.toCore.due p with
  | false =>
    rw [visit_not_due hd] at hs
    cases hs
    refine ⟨hc, hw, ?_⟩
    show (s.toCore.skip p).thread t = s.thread t
    unfold Core.skip
    split
    · rfl
    · exact s.toCore.countDown_thread_of_ne p t htp
  | true =>
    rw [visit_due hd] at hs
    obtain ⟨s₁, hrem, hs⟩ := bind_ok.mp hs
    obtain ⟨⟨hooks, d⟩, hr, hs₁⟩ := bind_ok.mp hrem
    cases hs₁
    obtain ⟨hc', hw'⟩ := SingleDeque.remove_closed hc hw hr
    have hblock : ((s.toCore.countDown p).markWoken p).thread t = s.thread t :=
      (Core.markWoken_thread_of_ne _ p t htp).trans (s.toCore.countDown_thread_of_ne p t htp)
    dsimp only at hs
    split at hs
    · next hidle =>
      obtain ⟨cur, hcur, hs⟩ := bind_ok.mp hs
      have hci : cur = s.idleThread := by
        have := (deref_ok hcur).symm.trans hidle.2
        exact Option.some.inj this
      dsimp only at hs
      rw [if_neg fun hh => hh.2 hci] at hs
      cases hs
      refine ⟨hc', hw', ?_⟩
      exact ((Core.dispatch_thread _ t cur p).trans (if_neg htp)).trans hblock
    · cases hs
      exact ⟨hc'.pushTail hp, hw', hblock⟩

private theorem visitAll_outside (ht : ¬ s.Waits t) (hs : s.visitAll fuel = .ok s') :
    s'.thread t = s.thread t := by
  let W : P → Prop := s.Waits
  obtain ⟨-, -, -, -, -, h⟩ := SingleDeque.forEach_invariant
    (I := fun ptr next (x : Sched P Q F) => (∀ q, ptr = some q → W q) ∧ (∀ q, next = some q → W q) ∧
      SingleDeque.Closed W x.hook ∧ SingleDeque.Within W x.waitingQueue ∧ x.thread t = s.thread t)
    (fun p next x x' hI hx => by
      obtain ⟨hptr, hnext, hc, hw, hth⟩ := hI
      obtain ⟨hc', hw', hth'⟩ := visit_outside hc hw (hptr p rfl) ht hx
      refine ⟨hnext, fun q hq => ?_, hc', hw', hth'.trans hth⟩
      obtain ⟨n, hn, hq⟩ := Option.bind_eq_some_iff.mp hq
      exact hc' n (hnext n hn) q hq)
    fuel _ _ s s' hs
    ⟨walk_within, fun q hq => by
      obtain ⟨v, hv, hq⟩ := Option.bind_eq_some_iff.mp hq
      exact walk_closed v (walk_within v hv) q hq, walk_closed, walk_within, rfl⟩
  exact h

/-! ## The sleeper loop, when idle hands over the processor -/

/-- The current thread's slice starts now. -/
def Fresh (s : Sched P Q F) : Prop :=
  ∀ cur, s.currThread = some cur → (s.thread cur).execStartMs = s.toCore.getTimeMilliseconds

private theorem fresh_of_dispatch {c : Core P Q F} (h : s.toCore.still = (c.dispatch cur next).still) :
    s.Fresh := by
  intro now hnow
  have hnext : now = next := by
    have := (Core.currThread_of_still h).trans (Core.dispatch_currThread c cur next)
    exact Option.some.inj (hnow.symm.trans this)
  subst hnext
  have hstart : (s.thread now).execStartMs = ((c.dispatch cur now).thread now).execStartMs :=
    Core.execStartMs_of_still h now
  have htick : s.tick = c.tick := (Core.tick_of_still h).trans (Core.dispatch_tick c cur now)
  rw [hstart, Core.dispatch_thread, if_pos rfl]
  show c.getTimeMilliseconds = s.toCore.getTimeMilliseconds
  unfold Core.getTimeMilliseconds
  rw [htick]

omit [DecidableEq P] [DecidableEq Q] in
theorem Fresh.congr (h : s.Fresh) (hst : s'.toCore.still = s.toCore.still) : s'.Fresh := by
  intro cur hcur
  rw [Core.execStartMs_of_still hst, h cur ((Core.currThread_of_still hst).symm.trans hcur)]
  unfold Core.getTimeMilliseconds
  rw [Core.tick_of_still hst]

/-- Once idle has handed the processor over in the loop, the current thread's slice is fresh to its
end. -/
theorem visitAll_fresh {w : P} (hi : s.Idling) (he : s.readyThreads.Even)
    (hw : s.firstWoken fuel = some w) (hs : s.visitAll fuel = .ok s') : s'.Fresh := by
  obtain ⟨c, m, next, next', s₁, hst, hwake, hrest⟩ := forEach_some hw hs
  have hi' : ({ s with toCore := c } : Sched P Q F).Idling :=
    ⟨hi.1, (Core.currThread_of_still hst).trans
      (hi.2.trans (congrArg some (Core.idleThread_of_still hst).symm))⟩
  obtain ⟨hev, hst₁⟩ := wake_idling hi' he hwake
  have hcur₁ := (Core.currThread_of_still hst₁).trans (Core.dispatch_currThread _ _ _)
  obtain ⟨-, -, -, h⟩ := SingleDeque.forEach_invariant
    (I := fun _ _ (x : Sched P Q F) => (∃ now, x.currThread = some now) ∧ x.readyThreads.Even ∧
      x.Fresh)
    (fun p _ x x' hI hx => by
      obtain ⟨⟨now, hnow⟩, hev, hfresh⟩ := hI
      obtain ⟨hev', hst | ⟨-, hst⟩⟩ := visit_spec hnow hev hx
      · exact ⟨⟨now, (Core.currThread_of_still hst).trans hnow⟩, hev', hfresh.congr hst⟩
      · exact ⟨⟨p, (Core.currThread_of_still hst).trans (Core.dispatch_currThread _ _ _)⟩, hev',
          fresh_of_dispatch hst⟩)
    m next next' s₁ s' hrest ⟨⟨w, hcur₁⟩, hev, fresh_of_dispatch hst₁⟩
  exact h

/-! ## A tick -/

/-- The tick ends a whole quantum of `cur` with budget left. -/
def Expires (cur : P) (c : Core P Q F) : Prop :=
  c.delta cur = defaultTimeQuantum ∧ ¬ (c.thread cur).scheduledTime ≤ c.delta cur

/-- The ticks that do not leave the flag behind: the thread whose quantum ends is Running, is not
idle and does not wait, or idle hands the processor over before the test. -/
def Settles (fuel : Nat) (s : Sched P Q F) : Prop :=
  ∀ cur, s.currThread = some cur → Expires cur s.toCore.increaseTick →
    ((s.thread cur).state = .running ∧ cur ≠ s.idleThread ∧ ¬ s.Waits cur) ∨
      s.Idling ∧ s.firstWoken fuel ≠ none

omit [DecidableEq P] [DecidableEq Q] in
theorem expires_congr {c c' : Core P Q F} (htick : c'.tick = c.tick)
    (hstart : (c'.thread t).execStartMs = (c.thread t).execStartMs)
    (hbudget : (c'.thread t).scheduledTime = (c.thread t).scheduledTime) :
    Expires t c' ↔ Expires t c := by
  unfold Expires Core.delta Core.getTimeMilliseconds
  rw [htick, hstart, hbudget]

/-- What the sleeper loop leaves to the slice test of a tick that settles. -/
theorem visitAll_settles {frame : F} {s₁ : Sched P Q F} (hr : s.AtRest)
    (hcur : s.currThread = some cur) (hset : s.Settles fuel)
    (hs : (s.charge cur frame).visitAll fuel = .ok s₁) {now : P} (hnow : s₁.currThread = some now)
    (hexp : Expires now s₁.toCore) :
    (s₁.thread now).state = .running ∧ now ≠ s₁.idleThread := by
  have hwalk : (s.charge cur frame).firstWoken fuel = s.firstWoken fuel :=
    s.toCore.firstWoken_saveFrame cur frame
  by_cases hcase : s.Idling ∧ s.firstWoken fuel ≠ none
  · -- the slice has just begun: no quantum can be over
    obtain ⟨hi, hw⟩ := hcase
    obtain ⟨w, hw⟩ := Option.ne_none_iff_exists'.mp hw
    have hfresh := visitAll_fresh (s := s.charge cur frame) hi hr.even (hwalk.trans hw) hs
    have hzero : s₁.toCore.delta now = 0 := by
      unfold Core.delta
      rw [hfresh now hnow, BitVec.sub_self]
      rfl
    exact absurd (hzero.symm.trans hexp.1) (by decide)
  · have hst : s₁.toCore.still = (s.charge cur frame).toCore.still := by
      by_cases hi : s.Idling
      · have hw : s.firstWoken fuel = none := by
          by_contra hne
          exact hcase ⟨hi, hne⟩
        exact (forEach_none (hwalk.trans hw) hs).1
      · exact (forEach_busy (s := s.charge cur frame) hi hcur hr.even hs).still
    have hsame : now = cur := by
      have := (Core.currThread_of_still hst).trans (show (s.charge cur frame).currThread = _ from hcur)
      exact Option.some.inj (hnow.symm.trans this)
    subst hsame
    have hbud := visitAll_budgets hs
    obtain ⟨r, m, hblock⟩ := s.toCore.increaseTick.saveFrame_same now now frame
    have hexp₀ : Expires now (s.toCore.increaseTick.saveFrame now frame) :=
      (expires_congr (Core.tick_of_still hst) (Core.execStartMs_of_still hst now)
        (hbud.scheduledTime now)).mp hexp
    have hexp' : Expires now s.toCore.increaseTick := by
      refine (expires_congr ?_ ?_ ?_).mp hexp₀
      · rfl
      · rw [hblock]
      · rw [hblock]
    obtain ⟨hrun, hidle, hwait⟩ := (hset now hcur hexp').resolve_right hcase
    have hth := visitAll_outside (s := s.charge now frame) hwait hs
    refine ⟨?_, ?_⟩
    · rw [hth]
      show ((s.toCore.increaseTick.saveFrame now frame).thread now).state = _
      rw [hblock]
      exact hrun
    · rw [Core.idleThread_of_still hst]
      exact hidle

private theorem endSlice_flag (hcur : s.currThread = some cur) (hq : s.timeQuantumPast = false)
    (hrun : Expires cur s.toCore → (s.thread cur).state = .running ∧ cur ≠ s.idleThread)
    (hs : s.endSlice = .ok s') : s'.timeQuantumPast = false := by
  simp only [endSlice, hcur, deref_some, ok_bind] at hs
  split at hs
  · exact switchNow_flag hs hq
  · next hb =>
    split at hs
    · next hd =>
      obtain ⟨hr, hi⟩ := hrun ⟨hd, hb⟩
      exact switchNow_clears (s := s.mapCore (·.setQuantumPast true)) hcur hr hi hs
    · cases hs
      exact hq

/-- **A tick that settles leaves the flag down.** -/
theorem pitTick_flag {frame out : F} (hr : s.AtRest) (hq : s.timeQuantumPast = false)
    (hset : s.Settles fuel) (hs : s.pitTick fuel frame = .ok (out, s')) :
    s'.timeQuantumPast = false := by
  obtain ⟨cur, hcur⟩ := hr.current
  obtain ⟨s₂, -, hrun, -, -, rfl⟩ := pitTick_ok hr hcur hs
  obtain ⟨s₁, hloop, hend⟩ := bind_ok.mp hrun
  obtain ⟨now, hnow, -⟩ := bind_ok.mp hend
  show s₂.timeQuantumPast = false
  exact endSlice_flag (deref_ok hnow) ((visitAll_budgets hloop).timeQuantumPast.trans hq)
    (visitAll_settles hr hcur hset hloop (deref_ok hnow)) hend

end Sched

/-! ## What a call notes -/

namespace Traced

variable {x y : Traced P Q F} {fuel : Nat} {t : P}

/-- A payment out of a budget that covers it. Other notes are no matter. -/
def Covered (n : Note) : Prop := ∀ b, n = .pay b → defaultTimeQuantum ≤ b

section

omit [DecidableEq P] [DecidableEq Q]

private theorem covered_irq (i : Bool) : Covered (.irq i) := fun _ h => by cases h

/-- A step entered with the flag down that leaves it down and notes no payment short of a
quantum. -/
structure Clean (x y : Traced P Q F) : Prop where
  notes : Notes Covered x y
  flag : y.sched.timeQuantumPast = false

theorem Clean.trans {z : Traced P Q F} (h : Clean x y) (h' : Clean y z) : Clean x z :=
  ⟨h.notes.trans h'.notes, h'.flag⟩

/-- A step over the state alone. -/
theorem Clean.of_log (hl : y.log = x.log) (h : y.sched.timeQuantumPast = false) : Clean x y :=
  ⟨.of_eq hl, h⟩

end

private theorem schedule_clean (hq : x.sched.timeQuantumPast = false) (h : x.schedule = .ok y) :
    Clean x y := by
  have hs : x.sched.schedule = .ok y.sched := by
    rw [← schedule_erase, h]
    rfl
  refine ⟨(schedule_notes h).mono fun n hn => ?_, Sched.schedule_flag hs hq⟩
  rw [hq] at hn
  cases hn.1

omit [DecidableEq P] [DecidableEq Q] in
theorem lockScheduler_clean (hq : x.sched.timeQuantumPast = false) : Clean x x.lockScheduler :=
  ⟨Notes.trans (.of_eq rfl) (notes_note (covered_irq _)), hq⟩

/-- An unlock notes what the switch it serves notes, and the flag. -/
theorem unlockScheduler_notes
    (hpay : x.sched.timeQuantumPast = true → ∀ cur, x.sched.currThread = some cur →
      defaultTimeQuantum ≤ (x.sched.thread cur).scheduledTime)
    (h : x.unlockScheduler = .ok y) : Notes Covered x y := by
  rcases Host.unlockScheduler_cases h with ⟨-, w, hw, rfl⟩ | ⟨-, rfl⟩
  · refine Notes.trans (y := w) ?_ (Notes.trans (.of_eq rfl) (notes_note (covered_irq _)))
    refine Notes.trans ?_ ((schedule_notes hw).mono fun n hn => ?_)
    · exact .of_eq rfl
    · obtain ⟨hq, -, cur, hcur, rfl⟩ := hn
      intro b hb
      cases hb
      exact hpay hq cur hcur
  · exact Notes.trans (.of_eq rfl) (notes_note (covered_irq _))

private theorem unlockScheduler_clean (hq : x.sched.timeQuantumPast = false)
    (h : x.unlockScheduler = .ok y) : Clean x y := by
  refine ⟨unlockScheduler_notes (fun hq' => by rw [hq] at hq'; cases hq') h, ?_⟩
  rcases Host.unlockScheduler_cases h with ⟨-, w, hw, rfl⟩ | ⟨-, rfl⟩
  · refine (schedule_clean ?_ hw).flag
    exact hq
  · exact hq

/-- A call of the running thread, if its body leaves the flag alone. -/
theorem request_clean {body : P → Sched P Q F → Sched P Q F} (h : x.request body = .ok y)
    (hbody : ∀ cur s, (body cur s).timeQuantumPast = s.timeQuantumPast)
    (hq : x.sched.timeQuantumPast = false) : Clean x y := by
  obtain ⟨cur, -, h⟩ := bind_ok.mp h
  obtain ⟨w, hw, h⟩ := bind_ok.mp h
  have hmarked : Clean x.lockScheduler (x.lockScheduler.mapSched (body cur)) :=
    .of_log rfl ((hbody cur _).trans hq)
  have hswitched := schedule_clean hmarked.flag hw
  exact (lockScheduler_clean hq).trans (hmarked.trans
    (hswitched.trans (unlockScheduler_clean hswitched.flag h)))

private theorem yield_clean (hq : x.sched.timeQuantumPast = false) (h : x.yield = .ok y) : Clean x y :=
  request_clean h (fun _ _ => rfl) hq

private theorem sleep_clean {milli : Word} (hq : x.sched.timeQuantumPast = false)
    (h : x.sleep milli = .ok y) : Clean x y :=
  request_clean h (fun _ _ => rfl) hq

private theorem block_clean (hq : x.sched.timeQuantumPast = false) (h : x.block = .ok y) : Clean x y :=
  request_clean h (fun _ _ => rfl) hq

private theorem unblock_clean (hq : x.sched.timeQuantumPast = false) (h : x.unblock fuel t = .ok y) :
    Clean x y := by
  obtain ⟨w, hw, h⟩ := bind_ok.mp h
  obtain ⟨hwake, hlog⟩ := lift_ok hw
  have hwq : w.sched.timeQuantumPast = false := Sched.wake_flag hwake hq
  have hwoken : Clean x.lockScheduler w := .of_log hlog hwq
  exact (lockScheduler_clean hq).trans (hwoken.trans (unlockScheduler_clean hwq h))

private theorem wakeSleeper_clean (hq : x.sched.timeQuantumPast = false)
    (h : x.wakeSleeper fuel t = .ok y) : Clean x y := by
  rcases Host.wakeSleeper_cases h with ⟨-, rfl⟩ | ⟨-, ⟨-, h⟩ | ⟨-, rfl⟩⟩
  · exact .of_log rfl hq
  · refine Clean.trans ?_ (unblock_clean ?_ h)
    · exact .of_log rfl hq
    · exact hq
  · exact .of_log rfl hq

def pitTick (fuel : Nat) (frame : F) (x : Traced P Q F) : Outcome (F × Traced P Q F) :=
  (x.mapSched (·.mapCore Core.increaseTick)).pitIrqHandler fuel frame

private theorem pitTick_erase (fuel : Nat) (frame : F) :
    (fun r => (r.1, r.2.sched)) <$> x.pitTick fuel frame = x.sched.pitTick fuel frame :=
  pitIrqHandler_erase _ fuel frame

variable (fuel) in
/-- The loop of a tick entered unlocked leaves the lock as it took it. -/
theorem iterate_lock {i : Bool} {s : Sched P Q F} {l : List Note}
    (h : (s.withLock (Core.Lock.unlocked i).enter).waitingQueue.iterate (·.sched.hook)
      (wakeSleeper fuel) fuel ⟨s.withLock (Core.Lock.unlocked i).enter, l⟩ = .ok y) :
    y.sched.toCore.lock = (Core.Lock.unlocked i).enter := by
  have he := iterate_erase ⟨s.withLock (Core.Lock.unlocked i).enter, l⟩ fuel
    (s.withLock (Core.Lock.unlocked i).enter).waitingQueue
  rw [h, Sched.iterate_withLock _ fuel (Core.Lock.enter_counter_ne i)
    (Core.Lock.nested_enter_leave i)] at he
  obtain ⟨s₁, -, hs₁⟩ := map_ok.mp he.symm
  rw [← hs₁]
  rfl

/-- **A tick pays only out of a budget that covers the quantum**: it has just been tested. -/
theorem pitTick_notes {frame out : F} (hr : x.sched.AtRest) (hq : x.sched.timeQuantumPast = false)
    (h : x.pitTick fuel frame = .ok (out, y)) : Notes Covered x y := by
  obtain ⟨i, hi⟩ := hr.lock
  obtain ⟨cur, hcur⟩ := hr.current
  rcases Host.pitIrqHandler_cases h with ⟨hnone, -⟩ | ⟨cur', x₁, x₂, now, hcur', hloop, hslice, hunlock, -⟩
  · cases hcur.symm.trans hnone
  obtain rfl : cur = cur' := Option.some.inj (hcur.symm.trans hcur')
  -- up to the end of the loop the flag is down
  have hstart : Clean x ((x.mapSched (·.mapCore Core.increaseTick)).lockScheduler.mapSched
      (·.mapCore (·.saveFrame cur frame))) :=
    ⟨Notes.trans (.of_eq rfl) (Notes.trans (notes_note (covered_irq _)) (.of_eq rfl)), hq⟩
  obtain ⟨-, hc₁⟩ := SingleDeque.forEach_invariant (I := fun _ _ w => Clean x w)
    (fun _ _ _ _ hw hstep => hw.trans (wakeSleeper_clean hw.flag hstep)) fuel _ _ _ x₁ hloop hstart
  have hlock : x₁.sched.toCore.lock = (Core.Lock.unlocked i).enter := by
    refine iterate_lock fuel (s := x.sched.charge cur frame) (l := x.log ++ [.irq false]) ?_
    rw [← hi]
    exact hloop
  refine hc₁.notes.trans ?_
  obtain ⟨mid, hmid, hslice⟩ := bind_ok.mp hslice
  dsimp only at hslice
  split at hslice
  · have hc₂ := schedule_clean hc₁.flag hslice
    exact (hc₂.trans (unlockScheduler_clean hc₂.flag hunlock)).notes
  · next hb =>
    split at hslice
    · next hd =>
      -- under the lock the request is only postponed; the unlock serves it
      have hk : x₁.sched.taskSwitchCounter ≠ 0 := by
        rw [show x₁.sched.taskSwitchCounter = (Core.Lock.unlocked i).enter.taskSwitchCounter from
          congrArg Core.Lock.taskSwitchCounter hlock]
        exact Core.Lock.enter_counter_ne i
      have hx₂ : x₂ = (x₁.mapSched (·.mapCore (·.setQuantumPast true))).mapSched
          (·.mapCore (·.setPostponed true)) :=
        (Except.ok.inj ((if_pos hk).symm.trans hslice)).symm
      subst hx₂
      refine Notes.trans ?_ (unlockScheduler_notes (fun _ c hcur₂ => ?_) hunlock)
      · exact .of_eq rfl
      · have hmc : mid = c := Option.some.inj ((deref_ok hmid).symm.trans hcur₂)
        subst hmc
        have hlt : defaultTimeQuantum < (x₁.sched.thread mid).scheduledTime := by
          rw [hd, BitVec.not_le] at hb
          exact hb
        exact BitVec.le_of_lt hlt
    · cases hslice
      exact (unlockScheduler_clean hc₁.flag hunlock).notes

/-! ## Runs -/

def next (fuel : Nat) (x : Traced P Q F) : Use P F → Outcome (Traced P Q F)
  | .call (.add t) => .ok (x.mapSched (·.addReadyThreads t))
  | .call (.tick frame) => Prod.snd <$> x.pitTick fuel frame
  | .call .yield => x.yield
  | .call (.sleep milli) => x.sleep milli
  | .call .block => x.block
  | .call (.unblock t) => x.unblock fuel t
  | .update t ms => .ok (x.mapSched (·.mapCore (·.modify t (·.updateScheduledTime ms))))

/-- A budget is set to one millisecond at least. -/
def Allowed (_ : Traced P Q F) : Use P F → Prop
  | .update _ ms => 1 ≤ ms
  | .call _ => True

instance (x : Traced P Q F) : (u : Use P F) → Decidable (x.Allowed u)
  | .update _ ms => inferInstanceAs (Decidable (1 ≤ ms))
  | .call _ => inferInstanceAs (Decidable True)

/-- The runs from `Schedule(idle)`, over any heap. -/
def runs (fuel : Nat) : System (Traced P Q F) (Use P F) :=
  .guarded (fun x => ∃ idle s, x = ⟨Sched.construct idle s, []⟩) Allowed (next fuel)

/-- **The law**, of the states between two calls: the flag is down there, and no budget was ever
paid below zero. Inside a call nothing is said of the flag, which a tick raises before it asks for
a switch; of the payments it is, since each is noted where it is made. -/
def Sound (x : Traced P Q F) : Prop :=
  x.sched.timeQuantumPast = false ∧ ∀ b, .pay b ∈ x.log → defaultTimeQuantum ≤ b

/-- The steps that keep the law: any but a tick that leaves the flag behind. -/
def Settled (fuel : Nat) (x : Traced P Q F) : Use P F → Prop
  | .call (.tick _) => x.sched.Settles fuel
  | _ => True

omit [DecidableEq P] [DecidableEq Q] in
theorem Sound.of_clean (h : x.Sound) (hc : Clean x y) : y.Sound := by
  obtain ⟨l, hl, hn⟩ := hc.notes
  refine ⟨hc.flag, fun b hb => ?_⟩
  rw [hl] at hb
  rcases List.mem_append.mp hb with hb | hb
  · exact h.2 b hb
  · exact hn _ hb b rfl

private theorem next_sound {u : Use P F} (hr : x.sched.AtRest) (h : x.Sound) (hset : x.Settled fuel u)
    (hs : x.next fuel u = .ok y) : y.sched.AtRest ∧ y.Sound := by
  obtain ⟨cur, hcur⟩ := hr.current
  -- the calls that lock and unlock: at rest by the scheduler, clean by their notes
  cases u with
  | update t ms =>
    cases hs
    exact ⟨⟨hr.lock, hr.current, hr.even⟩, h⟩
  | call c =>
    cases c with
    | add t =>
      cases hs
      exact ⟨(Sched.add_still t hr hcur).1,
        h.of_clean (.of_log rfl (Sched.addReadyThreads_flag hcur))⟩
    | tick frame =>
      obtain ⟨⟨out, y'⟩, hrun, rfl⟩ := map_ok.mp hs
      have hrun' : x.sched.pitTick fuel frame = .ok (out, y'.sched) := by
        rw [← pitTick_erase, hrun]
        rfl
      have hrest := (Sched.pitTick_rule (I := fun _ => True) (fun _ _ _ _ => trivial)
        (fun _ _ _ _ => trivial) hr hcur trivial hrun').1
      exact ⟨hrest, h.of_clean ⟨pitTick_notes hr h.1 hrun, Sched.pitTick_flag hr h.1 hset hrun'⟩⟩
    | yield =>
      have hrun : x.sched.yield = .ok y.sched := by
        rw [← yield_erase, show x.yield = .ok y from hs]
        rfl
      exact ⟨(Sched.yield_still hr hcur hrun).1, h.of_clean (yield_clean h.1 hs)⟩
    | sleep milli =>
      have hrun : x.sched.sleep milli = .ok y.sched := by
        rw [← sleep_erase, show x.sleep milli = .ok y from hs]
        rfl
      exact ⟨(Sched.sleep_still hr hcur hrun).1, h.of_clean (sleep_clean h.1 hs)⟩
    | block =>
      have hrun : x.sched.block = .ok y.sched := by
        rw [← block_erase, show x.block = .ok y from hs]
        rfl
      exact ⟨(Sched.block_still hr hcur hrun).1, h.of_clean (block_clean h.1 hs)⟩
    | unblock t =>
      have hrun : x.sched.unblock fuel t = .ok y.sched := by
        rw [← unblock_erase, show x.unblock fuel t = .ok y from hs]
        rfl
      exact ⟨(Sched.unblock_still hr hcur hrun).1, h.of_clean (unblock_clean h.1 hs)⟩

/-- **Quantum accounting along runs whose ticks settle.** Between calls the flag is down, and every
subtraction of a quantum was out of a budget of at least 100. -/
theorem sound_of_run (h : ((runs fuel).restrict (Settled fuel)).Reachable x) : x.Sound := by
  have hinv : x.sched.AtRest ∧ x.Sound := by
    refine System.Reachable.invariant (I := fun x : Traced P Q F => x.sched.AtRest ∧ x.Sound)
      ?_ ?_ h
    · intro x hx
      obtain ⟨idle, s, rfl⟩ := hx
      exact ⟨⟨⟨s.interruptFlag, rfl⟩, ⟨idle, rfl⟩, rfl⟩, rfl, fun b hb => absurd hb List.not_mem_nil⟩
    · intro x u x' hI hstep
      exact next_sound hI.1 hI.2 hstep.2 hstep.1.2
  exact hinv.2

/-- Idle and two more threads in one process, under a new scheduler. -/
def trio : Traced (Fin 3) Unit Unit :=
  ⟨(Sched.boot (fun _ => .construct 0 () ()) (fun _ => .construct 0 false) 0).construct 0, []⟩

/-- Threads `1` and `2` are ready while idle, with a budget of 200, uses up a quantum; then thread
`1` uses up its 6 ms. -/
def leakRun : List (Use (Fin 3) Unit) :=
  [.call (.add 1), .call (.add 2), .update 0 200] ++ List.replicate 106 (.call (.tick ()))

/-- **A budget of 6 pays a quantum.** Idle is not queued again when its quantum ends, so the flag
stays, and the next switch takes 100 from a budget of 6. -/
theorem leakRun_underflows : ∃ x : Traced (Fin 3) Unit Unit, (runs 3).Reachable x ∧ ¬ x.Sound := by
  have hrun : (leakRun.foldlM (System.attempt Allowed (next 3)) trio).map
      (fun x => decide (.pay 6 ∈ x.log)) = some true := by decide +kernel
  obtain ⟨x, hx, hobs⟩ := Option.map_eq_some_iff.mp hrun
  refine ⟨x, ?_, fun hs => ?_⟩
  · have hinit : (runs 3).Reachable trio := .init ⟨0, _, rfl⟩
    exact hinit.foldlM (fun _ _ _ => System.attempt_eq_some) _ hx
  · exact absurd (hs.2 6 (of_decide_eq_true hobs)) (by decide)

/-- A check of `Settled` for states in which nobody waits. -/
def Pays (x : Traced P Q F) : Use P F → Prop
  | .call (.tick _) => x.sched.waitingQueue.head = none ∧
      ∀ cur ∈ x.sched.currThread, x.sched.toCore.increaseTick.delta cur = defaultTimeQuantum →
        (x.sched.thread cur).state = .running ∧ cur ≠ x.sched.idleThread
  | _ => True

instance (x : Traced P Q F) : (u : Use P F) → Decidable (x.Pays u)
  | .call (.tick _) => inferInstanceAs (Decidable (_ ∧ _))
  | .call (.add _) | .call .yield | .call (.sleep _) | .call .block | .call (.unblock _)
  | .update _ _ => .isTrue trivial

omit [DecidableEq Q] in
theorem Pays.settled {u : Use P F} (h : x.Pays u) : x.Settled fuel u := by
  cases u with
  | update t ms => trivial
  | call c =>
    cases c with
    | tick frame =>
      intro cur hcur hexp
      obtain ⟨hrun, hidle⟩ := h.2 cur hcur hexp.1
      refine .inl ⟨hrun, hidle, ?_⟩
      rintro ⟨n, hn⟩
      unfold Sched.waitingThreads at hn
      rw [h.1] at hn
      cases n <;> cases hn
    | _ => trivial

/-- Thread `1` gets the processor with a budget of 200 and uses up a whole quantum. -/
def paidRun : List (Use (Fin 3) Unit) :=
  [.call (.add 1), .call (.add 2), .update 1 200] ++ List.replicate 106 (.call (.tick ()))

/-- Along that run one quantum is paid, out of 200, and thread `2` goes on. -/
theorem sound_of_run_paidRun : ∃ x : Traced (Fin 3) Unit Unit,
    ((runs 3).restrict (Settled 3)).Reachable x ∧ x.sched.currThread = some 2 ∧
    .pay 200 ∈ x.log ∧ x.Sound := by
  have hrun : (paidRun.foldlM (System.attempt (fun x u => x.Allowed u ∧ x.Pays u) (next 3)) trio).map
      (fun x => (x.sched.currThread, decide (.pay 200 ∈ x.log))) = some (some 2, true) := by
    decide +kernel
  obtain ⟨x, hx, hobs⟩ := Option.map_eq_some_iff.mp hrun
  simp only [Prod.mk.injEq, decide_eq_true_eq] at hobs
  have hinit : ((runs 3).restrict (Settled 3)).Reachable trio := .init ⟨0, _, rfl⟩
  have hreach : ((runs 3).restrict (Settled 3)).Reachable x := by
    refine hinit.foldlM (fun y u y' hy => ?_) _ hx
    obtain ⟨⟨hallowed, hpays⟩, hnext⟩ := System.attempt_eq_some hy
    exact ⟨⟨hallowed, hnext⟩, hpays.settled⟩
  exact ⟨x, hreach, hobs.1, hobs.2, sound_of_run hreach⟩

end Traced

end TwoKernel
