import TwoKernel.Laws.Proc.Follow
import TwoKernel.Laws.Proc.Queued
import TwoKernel.Laws.Proc.RoundRobin
import TwoKernel.Proc.Process

/-!
# When an exit is final

After `exit` no thread of the process should run or wait again, whatever ticks
follow. The code does less than that. Any status but -1 leaves the scheduler
alone. Status -1 purges the waiting queue, but the second loop of the purge, over
the ready threads, unlinks from the waiting queue too, so ready threads of the
process stay; the switch that ends the call queues a Running caller again; under
the scheduler lock it does not even happen; and `thread_size` is never reset.
`Exits` collects what is left; `exit_final` says that a final exit meets it, and
that meeting it is enough where idle is not a thread of the process.

`Clear q L s` is the invariant of the ticks that follow: a set `L` that holds
whatever the two queues link, the current thread and idle are all free of threads
of `q`. It needs no well-formed queues and no unlocked scheduler.
-/

namespace TwoKernel

attribute [local instance] neZero_two neZero_three

variable {P Q F : Type} [DecidableEq P] [DecidableEq Q]

namespace Sched

/-- A thread linked in a queue. -/
def Links (d : SingleDeque P) (t : P) (s : Sched P Q F) : Prop := ∃ n, t ∈ Chain.walk s.hook n d.head

/-- **What a final exit leaves of process `q`**: nothing current, nothing linked, a status that says
so, and an empty thread list. -/
structure Gone (q : Q) (s : Sched P Q F) : Prop where
  current : ∀ cur, s.currThread = some cur → (s.thread cur).mProcess ≠ q
  ready : ∀ t, s.Links s.readyThreads t → (s.thread t).mProcess ≠ q
  waiting : ∀ t, s.Links s.waitingQueue t → (s.thread t).mProcess ≠ q
  status : (s.process q).status = .zombie ∨ (s.process q).status = .dead
  threads : (s.process q).threads.empty = true
  threadSize : (s.process q).threadSize = 0

/-! ## The ticks that follow -/

/-- No thread of `q` is current, idle, or in `L`, where all links stay. -/
structure Clear (q : Q) (L : P → Prop) (s : Sched P Q F) : Prop where
  closed : SingleDeque.Closed L s.hook
  ready : SingleDeque.Within L s.readyThreads
  waiting : SingleDeque.Within L s.waitingQueue
  out : ∀ t, L t → (s.thread t).mProcess ≠ q
  current : ∀ cur, s.currThread = some cur → (s.thread cur).mProcess ≠ q
  idle : (s.thread s.idleThread).mProcess ≠ q
  status : (s.process q).status = .zombie ∨ (s.process q).status = .dead
  threads : (s.process q).threads.empty = true
  threadSize : (s.process q).threadSize = 0

variable {s s' : Sched P Q F} {q : Q} {L : P → Prop} {t next : P} {fuel : Nat}

omit [DecidableEq P] [DecidableEq Q] in
theorem Clear.gone (h : Clear q L s) : Gone q s where
  current := h.current
  ready t ht := by
    obtain ⟨n, hn⟩ := ht
    exact h.out t (h.closed.walk h.ready hn)
  waiting t ht := by
    obtain ⟨n, hn⟩ := ht
    exact h.out t (h.closed.walk h.waiting hn)
  status := h.status
  threads := h.threads
  threadSize := h.threadSize

omit [DecidableEq P] [DecidableEq Q] in
/-- A step over the core that dispatches nobody. -/
theorem Clear.mapCore {f : Core P Q F → Core P Q F} (h : Clear q L s)
    (hm : Core.SameMachine s.toCore (f s.toCore)) : Clear q L (s.mapCore f) where
  closed := h.closed
  ready := h.ready
  waiting := h.waiting
  out t ht := by
    show ((f s.toCore).thread t).mProcess ≠ q
    rw [hm.mProcess]
    exact h.out t ht
  current cur hcur := by
    show ((f s.toCore).thread cur).mProcess ≠ q
    rw [hm.mProcess]
    exact h.current cur (hm.currThread.symm.trans hcur)
  idle := by
    show ((f s.toCore).thread (f s.toCore).idleThread).mProcess ≠ q
    rw [hm.mProcess, hm.idleThread]
    exact h.idle
  status := by
    show ((f s.toCore).process q).status = _ ∨ ((f s.toCore).process q).status = _
    rw [hm.process]
    exact h.status
  threads := by
    show ((f s.toCore).process q).threads.empty = true
    rw [hm.process]
    exact h.threads
  threadSize := by
    show ((f s.toCore).process q).threadSize = 0
    rw [hm.process]
    exact h.threadSize

/-- A dispatch to a thread of another process. -/
theorem Clear.dispatch {cur : P} (h : Clear q L s) (hn : (s.thread next).mProcess ≠ q) :
    Clear q L (s.mapCore (·.dispatch cur next)) := by
  have hproc : ∀ t, ((s.toCore.dispatch cur next).thread t).mProcess = (s.thread t).mProcess := by
    intro t
    rw [Core.dispatch_thread]
    split
    · next e => rw [e]
    · rfl
  have hproc' : (s.toCore.dispatch cur next).process = s.process := Core.dispatch_process _ _ _
  refine ⟨h.closed, h.ready, h.waiting, fun t ht => ?_, fun now hnow => ?_, ?_, ?_, ?_, ?_⟩
  · show ((s.toCore.dispatch cur next).thread t).mProcess ≠ q
    rw [hproc]
    exact h.out t ht
  · have hnext := Option.some.inj ((Core.dispatch_currThread s.toCore cur next).symm.trans hnow)
    show ((s.toCore.dispatch cur next).thread now).mProcess ≠ q
    rw [hproc, ← hnext]
    exact hn
  · show ((s.toCore.dispatch cur next).thread (s.toCore.dispatch cur next).idleThread).mProcess ≠ q
    rw [hproc, Core.dispatch_idleThread]
    exact h.idle
  · show ((s.toCore.dispatch cur next).process q).status = .zombie ∨
      ((s.toCore.dispatch cur next).process q).status = .dead
    rw [hproc']
    exact h.status
  · show ((s.toCore.dispatch cur next).process q).threads.empty = true
    rw [hproc']
    exact h.threads
  · show ((s.toCore.dispatch cur next).process q).threadSize = 0
    rw [hproc']
    exact h.threadSize

omit [DecidableEq Q] in
/-- A push adds one thread to the set; its own stale link is cut first. -/
theorem Clear.pushReady (h : Clear q L s) (ht : (s.thread t).mProcess ≠ q) :
    Clear q (fun x => L x ∨ x = t) (s.pushReady t) := by
  have hcut : SingleDeque.Closed (fun x => L x ∨ x = t) (Function.update s.hook t none) := by
    intro x hx y hy
    by_cases hxt : x = t
    · rw [hxt, Function.update_self] at hy
      cases hy
    · rw [Function.update_of_ne hxt] at hy
      exact .inl (h.closed x (hx.resolve_right hxt) y hy)
  refine ⟨?_, ?_, fun x hx => .inl (h.waiting x hx), fun x hx => ?_, h.current, h.idle, h.status,
    h.threads, h.threadSize⟩
  · show SingleDeque.Closed _ (s.readyThreads.pushTail s.hook t).1
    unfold SingleDeque.pushTail
    dsimp only
    split
    · exact hcut
    · exact hcut.update fun _ y hy => .inr (Option.some.inj hy).symm
  · exact SingleDeque.Within.pushTail (fun x hx => .inl (h.ready x hx)) (.inr rfl)
  · rcases hx with hx | rfl
    · exact h.out x hx
    · exact ht

omit [DecidableEq Q] in
theorem Clear.removeWaiting (h : Clear q L s) (hs : s.removeWaiting fuel t = .ok s') :
    Clear q L s' := by
  obtain ⟨⟨hooks, d⟩, hr, hs⟩ := bind_ok.mp hs
  cases hs
  obtain ⟨hc, hw⟩ := SingleDeque.remove_closed h.closed h.waiting hr
  exact ⟨hc, h.ready, hw, h.out, h.current, h.idle, h.status, h.threads, h.threadSize⟩

/-- A step after which a set that has only grown is clear. -/
def Grows (q : Q) (L : P → Prop) (s : Sched P Q F) : Prop := ∃ L', (∀ x, L x → L' x) ∧ Clear q L' s

omit [DecidableEq P] [DecidableEq Q] in
theorem Clear.grows (h : Clear q L s) : Grows q L s := ⟨L, fun _ hx => hx, h⟩

omit [DecidableEq P] [DecidableEq Q] in
theorem Grows.mapCore {f : Core P Q F → Core P Q F} (h : Grows q L s)
    (hm : Core.SameMachine s.toCore (f s.toCore)) : Grows q L (s.mapCore f) := by
  obtain ⟨L', hL, hc⟩ := h
  exact ⟨L', hL, hc.mapCore hm⟩

omit [DecidableEq Q] in
theorem Clear.addReadyThreads {cur : P} (h : Clear q L s) (hcur : s.currThread = some cur)
    (ht : (s.thread t).mProcess ≠ q) : Grows q L (s.addReadyThreads t) := by
  have hgo : ∀ f : Core P Q F → Core P Q F, (f s.toCore).still = s.toCore.still →
      Grows q L ((s.mapCore f).pushReady t) := by
    intro f hf
    have hm := Core.SameMachine.of_still hf
    refine ⟨fun x => L x ∨ x = t, fun x hx => .inl hx, (h.mapCore hm).pushReady ?_⟩
    show ((f s.toCore).thread t).mProcess ≠ q
    rw [hm.mProcess]
    exact ht
  rw [Sched.addReadyThreads_of_current hcur]
  split
  · exact hgo (fun c => (c.setState t .ready).setQuantumPast false) (s.toCore.still_setState t .ready)
  · exact hgo (·.markReady t) (s.toCore.still_markReady t)

private theorem Clear.switchTask (h : Clear q L s) (hn : (s.thread next).mProcess ≠ q)
    (hs : s.switchTask next = .ok s') : Grows q L s' := by
  obtain ⟨cur, hcur, hs⟩ := bind_ok.mp hs
  cases hs
  have hcur := deref_ok hcur
  split
  · obtain ⟨L', hL, hc⟩ := h.addReadyThreads hcur (h.current cur hcur)
    have hst := addReadyThreads_still cur hcur
    refine ⟨L', hL, (hc.mapCore (.of_still (Core.still_setState _ next .running))).dispatch ?_⟩
    have hm := Core.SameMachine.of_still
      ((Core.still_setState (s.addReadyThreads cur).toCore next .running).trans hst)
    show ((Core.setState next .running (s.addReadyThreads cur).toCore).thread next).mProcess ≠ q
    rw [hm.mProcess]
    exact hn
  · exact (h.dispatch hn).grows

private theorem Clear.switchHead (h : Clear q L s) (hs : s.switchHead = .ok s') : Grows q L s' := by
  obtain ⟨next, hhead, hs⟩ := switchHead_cases hs
  have hout := h.out next (h.ready next hhead)
  have hm := Core.SameMachine.of_still (s.toCore.still_setState next .running)
  have h' := h.mapCore (f := (·.setState next .running)) hm
  refine Clear.switchTask (L := L) (s := { s with
    readyThreads := (s.readyThreads.popHead s.hook).2
    toCore := s.toCore.setState next .running }) ⟨h'.closed, h.ready.popHead h.closed,
    h'.waiting, h'.out, h'.current, h'.idle, h'.status, h'.threads, h'.threadSize⟩ ?_ hs
  show ((s.toCore.setState next .running).thread next).mProcess ≠ q
  rw [hm.mProcess]
  exact hout

/-- A switch brings back nobody of the process. -/
theorem Clear.switchNow (h : Clear q L s) (hs : s.switchNow = .ok s') : Grows q L s' := by
  rcases switchNow_cases hs with ⟨-, hs⟩ | ⟨-, ⟨-, cur, -, hs⟩ | ⟨-, hs⟩⟩
  · exact h.switchTask h.idle hs
  · exact (h.mapCore (.of_still (s.toCore.still_payQuantum cur))).switchHead hs
  · exact h.switchHead hs

theorem Clear.schedule (h : Clear q L s) (hs : s.schedule = .ok s') : Grows q L s' := by
  by_cases hk : s.taskSwitchCounter = 0
  · rw [schedule_unlocked hk] at hs
    exact h.switchNow hs
  · cases (schedule_locked hk).symm.trans hs
    exact (h.mapCore (.of_still rfl)).grows

private theorem Clear.unlockScheduler (h : Clear q L s) (hs : s.unlockScheduler = .ok s') :
    Grows q L s' := by
  have hleave : Clear q L (s.mapCore (·.leaveSwitch)) := h.mapCore (.of_still rfl)
  rcases unlockScheduler_cases hs with ⟨-, s₁, hs₁, rfl⟩ | ⟨-, rfl⟩
  · have hpost : Clear q L ((s.mapCore (·.leaveSwitch)).mapCore (·.setPostponed false)) :=
      hleave.mapCore (.of_still rfl)
    exact (hpost.schedule hs₁).mapCore (.of_still rfl)
  · exact (hleave.mapCore (.of_still rfl)).grows

omit [DecidableEq P] [DecidableEq Q] in
theorem Grows.trans {L' : P → Prop} (hL : ∀ x, L x → L' x) (h : Grows q L' s) : Grows q L s := by
  obtain ⟨L'', hL', hc⟩ := h
  exact ⟨L'', fun x hx => hL' x (hL x hx), hc⟩

theorem Clear.wake (h : Clear q L s) (ht : (s.thread t).mProcess ≠ q)
    (hs : s.wake fuel t = .ok s') : Grows q L s' := by
  obtain ⟨s₁, hrem, hs⟩ := bind_ok.mp hs
  have hthread : s₁.toCore = s.toCore := by
    obtain ⟨r, -, hr⟩ := bind_ok.mp hrem
    cases hr
    rfl
  have hm : Core.SameMachine s₁.toCore (s₁.toCore.markWoken t) :=
    .of_still (s₁.toCore.still_markWoken t)
  have hwoken : Clear q L (s₁.mapCore (·.markWoken t)) := (h.removeWaiting hrem).mapCore hm
  have ht' : ((s₁.mapCore (·.markWoken t)).thread t).mProcess ≠ q := by
    show ((s₁.toCore.markWoken t).thread t).mProcess ≠ q
    rw [hm.mProcess, hthread]
    exact ht
  dsimp only at hs
  split at hs
  · exact hwoken.switchTask ht' hs
  · cases hs
    exact ⟨_, fun _ hx => .inl hx, hwoken.pushReady ht'⟩

theorem Clear.unblock (h : Clear q L s) (ht : (s.thread t).mProcess ≠ q)
    (hs : s.unblock fuel t = .ok s') : Grows q L s' := by
  have hlock : Clear q L s.lockScheduler := h.mapCore (.of_still rfl)
  obtain ⟨s₁, hs₁, hs⟩ := bind_ok.mp hs
  obtain ⟨L', hL, h₁⟩ := hlock.wake ht hs₁
  exact .trans hL (h₁.unlockScheduler hs)

private theorem Clear.wakeSleeper (h : Clear q L s) (ht : L t) (hs : s.wakeSleeper fuel t = .ok s') :
    Grows q L s' := by
  have hc : Clear q L (s.mapCore (·.countDown t)) :=
    h.mapCore (.of_still (s.toCore.still_countDown t))
  rcases wakeSleeper_cases hs with ⟨-, rfl⟩ | ⟨-, ⟨-, hs⟩ | ⟨-, rfl⟩⟩
  · exact h.grows
  · exact hc.unblock (hc.out t ht) hs
  · exact hc.grows

private theorem Clear.iterate (h : Clear q L s)
    (hs : s.waitingQueue.iterate Sched.hook (Sched.wakeSleeper fuel) fuel s = .ok s') : Grows q L s' := by
  obtain ⟨-, L', hL, hc, -, -⟩ := SingleDeque.forEach_invariant
    (I := fun ptr next (x : Sched P Q F) => ∃ L', (∀ y, L y → L' y) ∧ Clear q L' x ∧
      (∀ p, ptr = some p → L' p) ∧ ∀ p, next = some p → L' p)
    (fun p next x x' hI hx => by
      obtain ⟨L₁, hL₁, hc, hptr, hnext⟩ := hI
      obtain ⟨L₂, hL₂, hc'⟩ := hc.wakeSleeper (hptr p rfl) hx
      refine ⟨L₂, fun y hy => hL₂ y (hL₁ y hy), hc', fun r hr => hL₂ r (hnext r hr), fun r hr => ?_⟩
      obtain ⟨n, hn, hr⟩ := Option.bind_eq_some_iff.mp hr
      exact hc'.closed n (hL₂ n (hnext n hn)) r hr)
    fuel _ _ s s' hs
    ⟨L, fun _ hy => hy, h, h.waiting, fun r hr => by
      obtain ⟨n, hn, hr⟩ := Option.bind_eq_some_iff.mp hr
      exact h.closed n (h.waiting n hn) r hr⟩
  exact ⟨L', hL, hc⟩

private theorem Clear.checkSlice (h : Clear q L s) (hs : s.checkSlice = .ok s') : Grows q L s' := by
  obtain ⟨cur, -, hs⟩ := bind_ok.mp hs
  dsimp only at hs
  split at hs
  · exact h.schedule hs
  · split at hs
    · have hq : Clear q L (s.mapCore (·.setQuantumPast true)) := h.mapCore (.of_still rfl)
      exact hq.schedule hs
    · cases hs
      exact h.grows

/-- **A tick keeps a dead process dead**, in any state of the queues and of the lock. -/
theorem Clear.pitTick {frame out : F} (h : Clear q L s)
    (hs : s.pitTick fuel frame = .ok (out, s')) : Grows q L s' := by
  have htick : Clear q L (s.mapCore Core.increaseTick) :=
    h.mapCore ⟨rfl, rfl, rfl, rfl, rfl, rfl, fun _ => rfl, fun _ => rfl⟩
  rcases pitTick_cases hs with ⟨-, -, rfl⟩ | ⟨cur, s₁, s₂, now, hcur, hloop, hslice, hunlock, -, -⟩
  · exact htick.grows
  · have hsave : Clear q L ((s.mapCore Core.increaseTick).lockScheduler.mapCore
        (·.saveFrame cur frame)) := by
      refine Clear.mapCore (s := (s.mapCore Core.increaseTick).lockScheduler)
        (htick.mapCore (.of_still rfl)) ⟨rfl, rfl, rfl, rfl, rfl, rfl, fun t => ?_, fun t => ?_⟩
      · obtain ⟨r, n, hb⟩ := Core.saveFrame_same
          (s.mapCore Core.increaseTick).lockScheduler.toCore cur t frame
        rw [hb]
      · obtain ⟨r, n, hb⟩ := Core.saveFrame_same
          (s.mapCore Core.increaseTick).lockScheduler.toCore cur t frame
        rw [hb]
    obtain ⟨L₁, hL₁, h₁⟩ := hsave.iterate hloop
    obtain ⟨L₂, hL₂, h₂⟩ := h₁.checkSlice hslice
    exact .trans hL₁ (.trans hL₂ (h₂.unlockScheduler hunlock))

/-- Nor do any number of ticks. -/
theorem Clear.pitTicks {frames outs : List F} (h : Clear q L s)
    (hs : s.pitTicks fuel frames = .ok (outs, s')) : ∃ L', Clear q L' s' := by
  induction frames generalizing s L outs with
  | nil =>
    cases hs
    exact ⟨L, h⟩
  | cons f frames ih =>
    obtain ⟨⟨out, s₁⟩, hs₁, hs⟩ := bind_ok.mp hs
    obtain ⟨⟨outs', s₂⟩, hs₂, hs⟩ := bind_ok.mp hs
    cases hs
    obtain ⟨L', -, h'⟩ := h.pitTick hs₁
    exact ih h' hs₂

/-! ## Which exits are final -/

/-- The exit returns to no state from which ticks reach one with anything left of `q`. -/
def Final (fuel : Nat) (rdi : Word) (q : Q) (s : Sched P Q F) : Prop :=
  ∀ r s', s.exitSyscall fuel rdi = .ok (r, s') →
    ∀ n frames outs s'', s'.pitTicks n frames = .ok (outs, s'') → s''.Gone q

end Sched

/-- **The exits that are final**: status -1, by a thread that the switch does not queue again, with
the scheduler unlocked, no thread of the process ready, and `thread_size` zero beforehand. -/
structure Queued.Exits (rdi : Word) (a : Queued P Q F) : Prop where
  status : (rdi.truncate 32 : BitVec 32) = -1
  unlocked : a.taskSwitchCounter = 0
  threadSize : (a.process (a.thread a.cur).mProcess).threadSize = 0
  ready : ∀ t ∈ a.ready, (a.thread t).mProcess ≠ (a.thread a.cur).mProcess
  leaves : ¬ a.Requeues

/-- The list state that the purge leaves to `schedule()`: process blocks `p`, and nobody of `q`
waiting. -/
def Queued.dying (p : Q → ProcessBlock P Q) (q : Q) (a : Queued P Q F) : Queued P Q F :=
  { a with
    process := p
    waiting := a.waiting.filter fun t => (a.thread t).mProcess ≠ q }

namespace Sim

variable {s s' : Sched P Q F} {a : Queued P Q F} {q : Q} {t next : P} {fuel : Nat} {rdi : Word}

/-- The first loop of the purge empties the waiting queue of the threads of `q`. -/
theorem purgeWaiting (h : Sim s a) (hf : a.waiting.length ≤ fuel) :
    ∃ s', s.waitingQueue.iterate Sched.hook (Sched.purge fuel q) fuel s = .ok s' ∧
      Sim s' (a.dying a.process q) := by
  let keep : P → Bool := fun t => (a.thread t).mProcess ≠ q
  -- behind the iterator the threads of `q` are gone, in front of it nothing has changed
  let I : List P → Sched P Q F → Prop := fun rest x => ∃ front, a.waiting = front ++ rest ∧
    Sim x { a with waiting := front.filter keep ++ rest }
  have hlink : ∀ p rest x, I (p :: rest) x → x.hook p = rest.head? := by
    rintro p rest x ⟨front, -, hx⟩
    exact hx.waiting.linked.next_eq
  have hbody : ∀ p rest x, I (p :: rest) x → ∃ x', x.purge fuel q p = .ok x' ∧ I rest x' := by
    rintro p rest x ⟨front, hw, hx⟩
    have hproc : (x.thread p).mProcess = (a.thread p).mProcess := by rw [hx.core]
    unfold Sched.purge
    by_cases hq : (a.thread p).mProcess = q
    · rw [if_pos (hproc.trans hq)]
      have hlen : (front.filter keep ++ p :: rest).length ≤ fuel := by
        have := List.length_filter_le keep front
        rw [hw] at hf
        simp only [List.length_append] at hf ⊢
        omega
      obtain ⟨x', hx', hsim⟩ := hx.removeWaiting (t := p) hlen
      refine ⟨x', hx', front ++ [p], by rw [hw]; simp, ?_⟩
      have hnot : p ∉ front.filter keep :=
        fun hm => (List.nodup_append.mp hx.waiting.nodup).2.2 p hm p List.mem_cons_self rfl
      have herase : (front.filter keep ++ p :: rest).erase p =
          (front ++ [p]).filter keep ++ rest := by
        rw [List.erase_append_right _ hnot, List.erase_cons_head, List.filter_append]
        simp [keep, hq]
      rw [← herase]
      exact hsim
    · rw [if_neg fun e => hq (hproc.symm.trans e)]
      refine ⟨x, rfl, front ++ [p], by rw [hw]; simp, ?_⟩
      have hkeep : (front ++ [p]).filter keep ++ rest = front.filter keep ++ p :: rest := by
        rw [List.filter_append]
        simp [keep, hq]
      rw [hkeep]
      exact hx
  have hstart : I a.waiting s := ⟨[], rfl, h⟩
  obtain ⟨s', hs', front, hw, hsim⟩ := SingleDeque.forEach_rule hlink hbody a.waiting fuel s hf hstart
  rw [List.append_nil] at hw hsim
  refine ⟨s', ?_, ?_⟩
  · unfold SingleDeque.iterate
    rw [h.waiting.head]
    exact hs'
  · rw [← hw] at hsim
    exact hsim

/-- The second loop looks for ready threads in the waiting queue, where they are not. -/
theorem purgeReady (h : Sim s a) (hw : a.waiting.length ≤ fuel) (hf : a.ready.length ≤ fuel) :
    ∃ s', s.readyThreads.iterate Sched.hook (Sched.purge fuel q) fuel s = .ok s' ∧ Sim s' a := by
  let I : List P → Sched P Q F → Prop := fun rest x => ∃ front, a.ready = front ++ rest ∧ Sim x a
  have hlink : ∀ p rest x, I (p :: rest) x → x.hook p = rest.head? := by
    rintro p rest x ⟨front, hr, hx⟩
    exact (hr ▸ hx.ready.linked).next_eq
  have hbody : ∀ p rest x, I (p :: rest) x → ∃ x', x.purge fuel q p = .ok x' ∧ I rest x' := by
    rintro p rest x ⟨front, hr, hx⟩
    have hr' : a.ready = (front ++ [p]) ++ rest := by rw [hr]; simp
    have hnot : p ∉ a.waiting := fun hm => hx.apart hm (by rw [hr]; simp)
    unfold Sched.purge
    split
    · obtain ⟨x', hx', hsim⟩ := hx.removeWaiting (t := p) hw
      rw [List.erase_of_not_mem hnot] at hsim
      exact ⟨x', hx', _, hr', hsim⟩
    · exact ⟨x, rfl, _, hr', hx⟩
  obtain ⟨s', hs', -, -, hsim⟩ := SingleDeque.forEach_rule hlink hbody a.ready fuel s hf ⟨[], rfl, h⟩
  refine ⟨s', ?_, hsim⟩
  unfold SingleDeque.iterate
  rw [h.ready.head]
  exact hs'

/-- The purge, up to the switch that ends it. -/
theorem removeDeadProcessThreads (h : Sim s a) (hw : a.waiting.length ≤ fuel)
    (hr : a.ready.length ≤ fuel) :
    ∃ s', Sim s' (a.dying a.process (a.thread a.cur).mProcess) ∧
      s.removeDeadProcessThreads fuel = (fun x => (true, x)) <$> s'.schedule := by
  obtain ⟨s₁, hs₁, h₁⟩ := h.purgeWaiting (q := (a.thread a.cur).mProcess) hw
  obtain ⟨s₂, hs₂, h₂⟩ := h₁.purgeReady (q := (a.thread a.cur).mProcess)
    (Nat.le_trans (List.length_filter_le _ _) hw) hr
  refine ⟨s₂, h₂, ?_⟩
  have hproc : (s.thread a.cur).mProcess = (a.thread a.cur).mProcess := by rw [h.core]
  simp only [Sched.removeDeadProcessThreads, h.curr_eq, deref_some, ok_bind, hproc, hs₁, hs₂]
  rfl

omit [DecidableEq P] in
theorem modifyProcess (h : Sim s a) (q : Q) (f : ProcessBlock P Q → ProcessBlock P Q) :
    Sim (s.modifyProcess q f)
      { a with process := Function.update a.process q (f (a.process q)) } :=
  h.mapCore (fun c => { c with process := Function.update c.process q (f (c.process q)) }) h.live

/-- `exit(-1)` by way of the system call: the purge, the switch, and the thread list dropped. -/
theorem exitSyscall (h : Sim s a) (hw : a.waiting.length ≤ fuel) (hr : a.ready.length ≤ fuel)
    (hst : (rdi.truncate 32 : BitVec 32) = -1) :
    ∃ p s', Sim s' (a.dying p (a.thread a.cur).mProcess) ∧
      ((p (a.thread a.cur).mProcess).status = .zombie ∨
        (p (a.thread a.cur).mProcess).status = .dead) ∧
      (p (a.thread a.cur).mProcess).threadSize =
        (a.process (a.thread a.cur).mProcess).threadSize ∧
      s.exitSyscall fuel rdi = (fun x => ((-1 : BitVec 32).signExtend 64,
        x.removeAllThreads (a.thread a.cur).mProcess)) <$> s'.schedule := by
  have hproc : (s.thread a.cur).mProcess = (a.thread a.cur).mProcess := by rw [h.core]
  generalize hq : (a.thread a.cur).mProcess = q at hproc ⊢
  -- the writes to the block of the process, before the purge
  have hgo : ∀ f : ProcessBlock P Q → ProcessBlock P Q,
      ∃ p s', Sim s' (a.dying p q) ∧ p q = f { a.process q with
          threads := (a.process q).threads.clearAll } ∧
        ((s.removeAllThreads q).modifyProcess q f).removeDeadProcessThreads fuel =
          (fun x => (true, x)) <$> s'.schedule := by
    intro f
    have hclear := h.modifyProcess q fun b => { b with threads := b.threads.clearAll }
    obtain ⟨s', hsim, hs'⟩ := (hclear.modifyProcess q f).removeDeadProcessThreads hw hr
    refine ⟨_, s', hq ▸ hsim, ?_, hs'⟩
    dsimp only
    rw [Function.update_self, Function.update_self]
  unfold Sched.exitSyscall
  simp only [h.curr_eq, deref_some, ok_bind, hproc, hst, Sched.exit, if_true]
  cases hp : ((s.removeAllThreads q).process q).parent with
  | none =>
    obtain ⟨p, s', hsim, hpq, hs'⟩ := hgo fun b => { b with status := .dead, isZombie := true }
    refine ⟨p, s', hsim, .inr (by rw [hpq]), by rw [hpq], ?_⟩
    simp only [hs']
    cases s'.schedule <;> rfl
  | some parent =>
    obtain ⟨p, s', hsim, hpq, hs'⟩ := hgo fun b =>
      { b with status := .zombie, isZombie := true, exitStatus := -1 }
    refine ⟨p, s', hsim, .inl (by rw [hpq]), by rw [hpq], ?_⟩
    simp only [hs']
    cases s'.schedule <;> rfl

/-! ### The switch that ends the call -/

/-- Without a lock the head of the ready queue gets the processor, and idle if there is none. -/
theorem schedule_first (h : Sim s a) (hz : a.taskSwitchCounter = 0) :
    ∃ s', s.schedule = .ok s' ∧
      s'.toCore.still = (s.toCore.dispatch a.cur (a.ready.headD a.idleThread)).still := by
  have heven : s.readyThreads.Even := by
    unfold SingleDeque.Even
    rw [h.ready.head, h.ready.tail]
    cases a.ready <;> simp
  obtain ⟨s', hs', hst, -⟩ := Sched.switchNow_spec h.curr_eq heven
  have hfirst : s.first = a.ready.headD a.idleThread := by
    unfold Sched.first
    rw [h.ready.head, h.core]
    cases a.ready <;> rfl
  refine ⟨s', ?_, ?_⟩
  · rw [Sched.schedule_unlocked (by rw [h.core]; exact hz)]
    exact hs'
  · rw [← hfirst]
    exact hst

private theorem switchTask_links (h : Sim s a) (hreq : a.Requeues) (hs : s.switchTask next = .ok s') :
    s'.Links s'.readyThreads a.cur := by
  have hreq' : (s.thread a.cur).state = .running ∧ a.cur ≠ s.idleThread := by
    rw [h.core]
    exact hreq
  simp only [Sched.switchTask, h.curr_eq, deref_some, ok_bind, if_pos hreq', pure_eq_ok] at hs
  cases hs
  show Sched.Links _ a.cur (s.addReadyThreads a.cur)
  rw [Sched.addReadyThreads_of_current h.curr_eq]
  split
  · exact SingleDeque.pushTail_mem_walk h.ready a.cur
  · exact SingleDeque.pushTail_mem_walk h.ready a.cur

private theorem switchHead_links (h : Sim s a) (hreq : a.Requeues) (hs : s.switchHead = .ok s') :
    s'.Links s'.readyThreads a.cur := by
  obtain ⟨next, hhead, hs⟩ := Sched.switchHead_cases hs
  have hpop := (SingleDeque.popHead_fst s.hook s.readyThreads).trans hhead
  cases hr : a.ready with
  | nil =>
    rw [SingleDeque.popHead_nil (hr ▸ h.ready)] at hpop
    cases hpop
  | cons first rest =>
    obtain ⟨hpop', hsim⟩ := h.popReady hr
    obtain rfl : first = next := Option.some.inj (hpop'.symm.trans hpop)
    refine hsim.switchTask_links (a := { a with
      ready := rest, toCore := a.toCore.setState first .running }) ⟨?_, hreq.2⟩ hs
    show ((a.toCore.setState first .running).thread a.cur).state = .running
    rw [Core.setState_state]
    split
    · rfl
    · exact hreq.1

/-- **The switch queues a Running caller again**, wherever it was linked before. -/
theorem switchNow_links (h : Sim s a) (hreq : a.Requeues) (hs : s.switchNow = .ok s') :
    s'.Links s'.readyThreads a.cur := by
  rcases Sched.switchNow_cases hs with ⟨-, hs⟩ | ⟨-, ⟨-, cur, hcur, hs⟩ | ⟨-, hs⟩⟩
  · exact h.switchTask_links hreq hs
  · obtain rfl : a.cur = cur := Option.some.inj (h.curr_eq.symm.trans hcur)
    refine (h.mapCore (·.payQuantum a.cur) h.live).switchHead_links ⟨?_, hreq.2⟩ hs
    exact (a.toCore.payQuantum_state a.cur a.cur).trans hreq.1
  · exact h.switchHead_links hreq hs

end Sim

/-- Nobody is queued by a switch away from a thread that is neither Running nor about to be. -/
theorem Queued.switchNow_ready {a : Queued P Q F} (hreq : ¬ a.Requeues)
    (hhead : a.ready.head? ≠ some a.cur) : a.switchNow.ready = a.ready.tail := by
  cases hr : a.ready with
  | nil => rw [a.switchNow_nil hr, a.switchTask_ready, if_neg hreq, hr, List.tail_nil]
  | cons next rest =>
    have hne : a.cur ≠ next := by
      intro e
      rw [hr, List.head?_cons, e] at hhead
      exact hhead rfl
    have hreq' : ¬ (a.popped next rest).Requeues := by
      intro h
      rw [Queued.Requeues, a.popped_cur, a.popped_idleThread, a.popped_state, if_neg hne] at h
      exact hreq h
    rw [a.switchNow_cons next hr, Queued.switchTask_ready, if_neg hreq', a.popped_ready,
      List.tail_cons]

namespace Sched

variable {s : Sched P Q F} {a : Queued P Q F} {fuel : Nat} {rdi : Word}

/-- **What an exit with status -1 leaves**, with the scheduler unlocked. -/
structure Exited (s' : Sched P Q F) (a : Queued P Q F) : Prop where
  current : s'.currThread = some (a.ready.headD a.idleThread)
  idleThread : s'.idleThread = a.idleThread
  mProcess : ∀ t, (s'.thread t).mProcess = (a.thread t).mProcess
  status : (s'.process (a.thread a.cur).mProcess).status = .zombie ∨
    (s'.process (a.thread a.cur).mProcess).status = .dead
  threads : (s'.process (a.thread a.cur).mProcess).threads.empty = true
  threadSize : (s'.process (a.thread a.cur).mProcess).threadSize =
    (a.process (a.thread a.cur).mProcess).threadSize
  requeued : a.Requeues → s'.Links s'.readyThreads a.cur
  queues : ¬ a.Requeues → a.ready.head? ≠ some a.cur → ∃ b, Sim s' b ∧ b.ready = a.ready.tail ∧
    b.waiting = a.waiting.filter fun t => (a.thread t).mProcess ≠ (a.thread a.cur).mProcess

private theorem exitSyscall_exited (h : Sim s a) (hw : a.waiting.length ≤ fuel)
    (hr : a.ready.length ≤ fuel) (hst : (rdi.truncate 32 : BitVec 32) = -1)
    (hz : a.taskSwitchCounter = 0) :
    ∃ r s', s.exitSyscall fuel rdi = .ok (r, s') ∧ s'.Exited a := by
  obtain ⟨p, s₁, h₁, hstat, hsize, heq⟩ := h.exitSyscall hw hr hst
  obtain ⟨s₂, hs₂, hstill⟩ := h₁.schedule_first hz
  rw [hs₂] at heq
  refine ⟨_, _, heq, ?_⟩
  generalize hq : (a.thread a.cur).mProcess = q at *
  have hm := Core.SameMachine.of_still hstill
  have hproc : s₂.process = p := by
    rw [hm.process, Core.dispatch_process, h₁.core]
    rfl
  have hself : (s₂.removeAllThreads q).process q =
      { p q with threads := (p q).threads.clearAll } := by
    show Function.update s₂.process q _ q = _
    rw [Function.update_self, hproc]
  have hset : ¬ a.Requeues → (a.dying p q).Settled :=
    fun hreq hrun hne => absurd ⟨hrun, hne⟩ hreq
  refine ⟨?_, ?_, fun t => ?_, ?_, ?_, ?_, fun hreq => ?_, fun hreq hhead => ?_⟩
  · exact hm.currThread.trans (Core.dispatch_currThread _ _ _)
  · refine hm.idleThread.trans ((Core.dispatch_idleThread _ _ _).trans ?_)
    rw [h₁.core]
    rfl
  · refine (hm.mProcess t).trans ?_
    rw [Core.dispatch_thread, h₁.core]
    split
    · next e => rw [e]; rfl
    · rfl
  · rw [hq, hself]
    exact hstat
  · rw [hq, hself]
    rfl
  · rw [hq, hself]
    exact hsize
  · rw [schedule_unlocked (by rw [h₁.core]; exact hz)] at hs₂
    have hlinks := h₁.switchNow_links hreq hs₂
    exact hlinks
  · obtain ⟨s₃, hs₃, h₃⟩ := h₁.switchNow (hset hreq) hz
    cases hs₂.symm.trans hs₃
    refine ⟨_, h₃.modifyProcess q _, ?_, ?_⟩
    · exact Queued.switchNow_ready (a := a.dying p q) hreq hhead
    · rw [hq]
      exact (a.dying p q).switchNow_waiting

/-- An exit that is not final leaves something of its process right away. -/
theorem Final.exits (h : Sim s a) (hw : a.waiting.length ≤ fuel) (hr : a.ready.length ≤ fuel)
    (hfin : s.Final fuel rdi (a.thread a.cur).mProcess) : a.Exits rdi := by
  have hgone : ∀ r s', s.exitSyscall fuel rdi = .ok (r, s') → s'.Gone (a.thread a.cur).mProcess :=
    fun r s' hs => hfin r s' hs 0 [] [] s' rfl
  have hproc : (s.thread a.cur).mProcess = (a.thread a.cur).mProcess := by rw [h.core]
  have hst : (rdi.truncate 32 : BitVec 32) = -1 := by
    by_contra hst
    -- the call does nothing, and its caller is still the current thread
    have hs : s.exitSyscall fuel rdi = .ok ((rdi.truncate 32 : BitVec 32).signExtend 64,
        s.removeAllThreads (a.thread a.cur).mProcess) := by
      simp only [Sched.exitSyscall, h.curr_eq, deref_some, ok_bind, Sched.exit, if_neg hst, hproc]
      rfl
    exact (hgone _ _ hs).current a.cur h.curr_eq hproc
  have hz : a.taskSwitchCounter = 0 := by
    by_contra hz
    -- the switch is postponed, with the same result
    obtain ⟨p, s₁, h₁, -, -, heq⟩ := h.exitSyscall hw hr hst
    have hk : s₁.taskSwitchCounter ≠ 0 := by rw [h₁.core]; exact hz
    have hpost : s₁.schedule = .ok (s₁.mapCore (·.setPostponed true)) := if_pos hk
    rw [hpost] at heq
    refine (hgone _ _ heq).current a.cur h₁.curr_eq ?_
    show (s₁.thread a.cur).mProcess = _
    rw [h₁.core]
    rfl
  obtain ⟨r, s', hs, hx⟩ := exitSyscall_exited h hw hr hst hz
  have hg := hgone r s' hs
  have hreq : ¬ a.Requeues := fun hreq => hg.ready a.cur (hx.requeued hreq) (hx.mProcess a.cur)
  refine ⟨hst, hz, hx.threadSize.symm.trans hg.threadSize, fun t ht hq => ?_, hreq⟩
  cases hready : a.ready with
  | nil =>
    rw [hready] at ht
    cases ht
  | cons next rest =>
    have hcur : s'.currThread = some next := by rw [hx.current, hready, List.headD_cons]
    have hnext : (a.thread next).mProcess ≠ (a.thread a.cur).mProcess :=
      fun e => hg.current next hcur ((hx.mProcess next).trans e)
    have hhead : a.ready.head? ≠ some a.cur := by
      rw [hready, List.head?_cons]
      exact fun e => hnext (by rw [Option.some.inj e])
    obtain ⟨b, hb, hbready, -⟩ := hx.queues hreq hhead
    rw [hready, List.tail_cons] at hbready
    rw [hready] at ht
    rcases List.mem_cons.mp ht with rfl | ht
    · exact hnext hq
    · refine hg.ready t ⟨b.ready.length, ?_⟩ ((hx.mProcess t).trans hq)
      rw [hb.ready.linked.walk_eq (Nat.le_refl _), hbready]
      exact ht

omit [DecidableEq P] in
/-- The state after a good exit is clear of the process. -/
theorem Exited.clear {s' : Sched P Q F} (hx : s'.Exited a) (h : a.Exits rdi)
    (hidle : (a.thread a.idleThread).mProcess ≠ (a.thread a.cur).mProcess) :
    ∃ L, Clear (a.thread a.cur).mProcess L s' := by
  have hhead : a.ready.head? ≠ some a.cur := by
    intro e
    exact h.ready a.cur (List.mem_of_mem_head? e) rfl
  obtain ⟨b, hb, hready, hwaiting⟩ := hx.queues h.leaves hhead
  have hout : ∀ t, t ∈ b.ready ∨ t ∈ b.waiting →
      (a.thread t).mProcess ≠ (a.thread a.cur).mProcess := by
    rintro t (ht | ht)
    · rw [hready] at ht
      exact h.ready t (List.mem_of_mem_tail ht)
    · rw [hwaiting] at ht
      exact of_decide_eq_true (List.mem_filter.mp ht).2
  refine ⟨fun t => t ∈ b.ready ∨ t ∈ b.waiting, ?_, ?_, ?_, ?_, ?_, ?_, hx.status, hx.threads, ?_⟩
  · rintro x (hx' | hx') y hy
    · exact .inl (hb.ready.closed x hx' y hy)
    · exact .inr (hb.waiting.closed x hx' y hy)
  · exact fun x hx' => .inl (hb.ready.within x hx')
  · exact fun x hx' => .inr (hb.waiting.within x hx')
  · intro t ht
    rw [hx.mProcess]
    exact hout t ht
  · intro cur hcur
    rw [hx.current] at hcur
    cases hcur
    rw [hx.mProcess]
    cases hr : a.ready with
    | nil => exact hidle
    | cons next rest => exact h.ready next (by rw [hr]; exact List.mem_cons_self)
  · rw [hx.mProcess, hx.idleThread]
    exact hidle
  · rw [hx.threadSize]
    exact h.threadSize

/-- **When an exit is final.** The call returns from every state with well-formed queues. If it is
final then `Exits` held before it; and where idle is a thread of another process, `Exits` makes it
final, for every number of ticks after it. -/
theorem exit_final (h : Sim s a) (hw : a.waiting.length ≤ fuel) (hr : a.ready.length ≤ fuel) :
    (s.Final fuel rdi (a.thread a.cur).mProcess → a.Exits rdi) ∧
    ((a.thread a.idleThread).mProcess ≠ (a.thread a.cur).mProcess → a.Exits rdi →
      (∃ r s', s.exitSyscall fuel rdi = .ok (r, s')) ∧
        s.Final fuel rdi (a.thread a.cur).mProcess) := by
  refine ⟨fun hfin => hfin.exits h hw hr, fun hidle hex => ?_⟩
  obtain ⟨r, s', hs, hx⟩ := exitSyscall_exited h hw hr hex.status hex.unlocked
  refine ⟨⟨r, s', hs⟩, ?_⟩
  intro r' s₁ hs₁ n frames outs s₂ hs₂
  cases hs.symm.trans hs₁
  obtain ⟨L, hclear⟩ := hx.clear hex hidle
  obtain ⟨L', hclear'⟩ := hclear.pitTicks hs₂
  exact hclear'.gone

/-- Idle is thread `0`. Thread `1` was woken out of it and so is current without being Running;
thread `2`, of the same process, sleeps. -/
def wokenAndAsleep : Queued (Fin 3) (Fin 2) Unit where
  toCore := Core.setState 2 .sleep
    { ((boot (fun t : Fin 3 => .construct (t.val : Nat) () (if t = 0 then 0 else 1))
        (fun q : Fin 2 => .construct (BitVec.ofNat 64 (4096 * (q.val + 1))) true) 0).construct
        0).toCore with currThread := some 1 }
  waiting := [2]
  ready := []

/-- The same state in pointers. -/
def wokenAndAsleepSched : Sched (Fin 3) (Fin 2) Unit where
  toCore := wokenAndAsleep.toCore
  hook := fun _ => none
  waitingQueue := ⟨some 2, some 2⟩
  readyThreads := {}

private theorem wokenAndAsleep_sim : Sim wokenAndAsleepSched wokenAndAsleep :=
  ⟨rfl, Option.some_ne_none _, ⟨⟨rfl, rfl⟩, rfl⟩, SingleDeque.represents_nil _,
    List.disjoint_nil_right _⟩

private theorem wokenAndAsleep_exits : wokenAndAsleep.Exits (-1) :=
  ⟨by decide, rfl, rfl, nofun, fun h => absurd h.1 (by decide)⟩

theorem exit_final_wokenAndAsleep :
    (∃ r s', wokenAndAsleepSched.exitSyscall 1 (-1) = .ok (r, s')) ∧
      wokenAndAsleepSched.Final 1 (-1) 1 :=
  (exit_final wokenAndAsleep_sim (by decide) (by decide)).2 (by decide) wokenAndAsleep_exits

/-- **`exit(42)` ends nothing**: it returns with the caller current. -/
theorem exit_42_not_final : ¬ wokenAndAsleepSched.Final 1 42 1 := by
  intro h
  have hgone := h _ _ rfl 0 [] [] _ rfl
  exact hgone.current 1 rfl rfl

end Sched

end TwoKernel
