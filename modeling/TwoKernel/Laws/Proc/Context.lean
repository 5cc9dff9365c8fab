import TwoKernel.Laws.Proc.Dispatch
import TwoKernel.Lib.System
import TwoKernel.Proc.Process

/-!
# A saved frame belongs to the thread it is saved in

`curr_thread` is the scheduler's idea of who runs. Who really runs changes only
when an interrupt handler returns with another thread's registers in `*frame`,
and `pit_irq_handler` is the only one that writes `*frame`. `Cpu` keeps both: each
saved frame carries the thread it was interrupted in, and the owner of the frame
returned to last is the thread whose code the processor executes.

`yield`, `sleep`, `block`, `unblock` and the fault handler change `curr_thread` and
return to their caller. The thread that called goes on under another thread's
name, and the next tick saves its registers in that thread. `Stays` says when
such a call leaves `curr_thread` alone; along runs made of such calls and of ticks,
every thread is resumed from the frame it was last interrupted with
(`intact_of_run`).
-/

namespace TwoKernel

attribute [local instance] neZero_two

variable {P Q F : Type} [DecidableEq P] [DecidableEq Q]

/-- A processor under the scheduler, frames marked with the thread they were interrupted in. -/
structure Cpu (P Q F : Type) where
  /-- The frame the processor went on from. -/
  resumed : P × F
  /-- The registers each thread was last interrupted with. -/
  last : P → F
  sched : Sched P Q (P × F)

/-- What can happen to a processor: a PIT tick or a user fault interrupts the executing thread with
its registers, or that thread calls the scheduler. -/
inductive Event (P F : Type) where
  | tick (registers : F)
  | fault (registers : F)
  | yield
  | sleep (milli : Word)
  | block
  | unblock (task : P)

namespace Cpu

/-- The thread whose code the processor executes. -/
def exec (x : Cpu P Q F) : P := x.resumed.1

/-- One event. Only a tick can change what the processor executes. -/
def next (cs : P × F → Word) (fuel : Nat) (x : Cpu P Q F) : Event P F → Outcome (Cpu P Q F)
  | .tick r => do
    let out ← x.sched.pitTick fuel (x.exec, r)
    return ⟨out.1, Function.update x.last x.exec r, out.2⟩
  | .fault r => do
    let s ← x.sched.x86GpFaultHandler cs fuel (x.exec, r)
    return { x with sched := s }
  | .yield => do return { x with sched := ← x.sched.yield }
  | .sleep milli => do return { x with sched := ← x.sched.sleep milli }
  | .block => do return { x with sched := ← x.sched.block }
  | .unblock t => do return { x with sched := ← x.sched.unblock fuel t }

/-- **Context integrity.** The frame in each thread is its own and the one it was last interrupted
with, and so is the frame the processor went on from. -/
def Intact (x : Cpu P Q F) : Prop :=
  (∀ t, (x.sched.thread t).registers = (t, x.last t)) ∧ x.resumed.2 = x.last x.exec

/-- The runs from any scheduler at rest whose current thread is the one that executes, every thread
holding a frame of its own. -/
def runs (cs : P × F → Word) (fuel : Nat) : System (Cpu P Q F) (Event P F) :=
  .guarded (fun x => x.sched.AtRest ∧ x.sched.currThread = some x.exec ∧ x.Intact)
    (fun _ _ => True) (next cs fuel)

/-- The events after which `curr_thread` is what it was: the caller is the one to run next. A fault
makes two switches, so at most one thread may be ready, and the caller must be queued by the first
switch to be found by the second. -/
def Stays (x : Cpu P Q F) : Event P F → Prop
  | .tick _ => True
  | .fault _ => (x.exec = x.sched.idleThread ∨ (x.sched.thread x.exec).state = .running) ∧
      ∀ h, x.sched.readyThreads.head = some h → x.sched.hook h = none
  | .yield => ∀ h, x.sched.readyThreads.head = some h → h = x.exec
  | .sleep _ | .block => x.sched.first = x.exec
  | .unblock t => x.sched.Idling → t = x.sched.idleThread

end Cpu

/-! ## Frames through a dispatch -/

namespace Core

variable {c c' : Core P Q F} {cur next : P}

private theorem registers_of_dispatch (h : c'.still = (c.dispatch cur next).still) (t : P) :
    (c'.thread t).registers = (c.thread t).registers := by
  rw [registers_of_still h, dispatch_thread]
  split
  · next e => rw [e]
  · rfl

end Core

namespace SingleDeque

variable {hooks hooks' : Hooks P} {d d' : SingleDeque P} {fuel : Nat} {v : P}

/-- `remove` gives no node a successor that had none. -/
theorem remove_null_link {value : Option P} (h : d.remove fuel hooks value = .ok (hooks', d'))
    {x : P} (hx : hooks x = none) : hooks' x = none := by
  unfold remove at h
  split at h
  · cases h
    exact hx
  · cases h
    exact hx
  · next v hd hv =>
    split at h
    · obtain ⟨⟨_, _, _⟩, hr, h⟩ := bind_ok.mp h
      cases h
      unfold popTail at hr
      split at hr
      · cases hr
        exact hx
      · split at hr
        · cases hr
          exact hx
        · obtain ⟨_, -, hr⟩ := bind_ok.mp hr
          obtain ⟨nt, -, hr⟩ := bind_ok.mp hr
          cases hr
          show Function.update hooks nt none x = none
          rw [Function.update_apply]
          split
          · rfl
          · exact hx
    · split at h
      · cases h
        exact hx
      · obtain ⟨prev, hprev, h⟩ := bind_ok.mp h
        cases prev with
        | none =>
          cases h
          exact hx
        | some prev =>
          cases h
          have hlink := prevValue_links hprev
          have hne : x ≠ prev := by
            intro e
            rw [e, hlink] at hx
            cases hx
          rw [Function.update_of_ne hne]
          exact hx

end SingleDeque

/-! ## A tick -/

namespace Sched

variable {s s' : Sched P Q F} {cur t : P} {fuel : Nat}

/-- A tick saves one frame and returns to the frame of the thread that is current at its end. -/
theorem pitTick_registers {frame out : F} (hr : s.AtRest) (h : s.currThread = some cur)
    (hs : s.pitTick fuel frame = .ok (out, s')) :
    s'.AtRest ∧ (∃ now, s'.currThread = some now ∧ out = (s'.thread now).registers) ∧
      ∀ t, (s'.thread t).registers = if t = cur then frame else (s.thread t).registers := by
  have hsaved : ∀ t, ((s.toCore.increaseTick.saveFrame cur frame).thread t).registers =
      if t = cur then frame else (s.thread t).registers := by
    intro t
    rw [Core.saveFrame_thread]
    split <;> rfl
  obtain ⟨hrest, hreg, hout⟩ := pitTick_rule
    (I := fun c => ∀ t, (c.thread t).registers = if t = cur then frame else (s.thread t).registers)
    (fun _ _ hst hI t => (Core.registers_of_still hst t).trans (hI t))
    (fun c mid next hI t => (Core.registers_of_dispatch rfl t).trans (hI t)) hr h hsaved hs
  exact ⟨hrest, hout, hreg⟩

/-! ## A fault -/

/-- When at most one thread is ready, the caller is first in the queue after one switch, or it is
idle and nobody is. -/
theorem switchNow_first (h : s.currThread = some cur)
    (hcur : cur = s.idleThread ∨ (s.thread cur).state = .running)
    (hone : ∀ w, s.readyThreads.head = some w → s.hook w = none)
    (hs : s.switchNow = .ok s') : s'.first = cur := by
  -- both branches of the decision hand `switch_task` an empty queue
  have hgo : ∀ (b : Sched P Q F) (next : P), b.currThread = some cur →
      b.idleThread = s.idleThread → b.readyThreads = ⟨none, none⟩ →
      (cur = s.idleThread ∨ (b.thread cur).state = .running) → b.switchTask next = .ok s' →
      s'.first = cur := by
    intro b next hb hid hempty hrun hsw
    unfold switchTask at hsw
    rw [hb, deref_some, ok_bind] at hsw
    by_cases hc : cur = s.idleThread
    · rw [if_neg (fun hh => hh.2 (hc.trans hid.symm))] at hsw
      cases hsw
      show Option.getD b.readyThreads.head _ = cur
      rw [hempty, Option.getD_none, hc]
      exact (Core.dispatch_idleThread _ _ _).trans hid
    · rw [if_pos ⟨hrun.resolve_left hc, fun e => hc (e.trans hid)⟩] at hsw
      cases hsw
      have hready : (b.addReadyThreads cur).readyThreads.head = some cur := by
        rw [addReadyThreads_of_current hb]
        have hpush : (b.readyThreads.pushTail b.hook cur).2.head = some cur := by
          rw [hempty]
          rfl
        split <;> exact hpush
      show Option.getD (b.addReadyThreads cur).readyThreads.head _ = cur
      rw [hready, Option.getD_some]
  have hhead : ∀ b : Sched P Q F, b.currThread = some cur → b.idleThread = s.idleThread →
      b.readyThreads = s.readyThreads → b.hook = s.hook →
      (b.thread cur).state = (s.thread cur).state → b.switchHead = .ok s' → s'.first = cur := by
    intro b hb hid hready hhook hstate hsw
    obtain ⟨w, hw, hsw⟩ := switchHead_cases hsw
    rw [hready] at hw
    have hpop : b.readyThreads.popHead b.hook = (some w, ⟨none, none⟩) := by
      simp only [SingleDeque.popHead, hready, hhook, hw, hone w hw]
    rw [hpop] at hsw
    refine hgo { b with readyThreads := ⟨none, none⟩, toCore := b.toCore.setState w .running } w hb hid
      rfl (hcur.imp_right fun hrun => ?_) hsw
    show ((b.toCore.setState w .running).thread cur).state = _
    rw [Core.setState_state]
    split
    · rfl
    · exact hstate.trans hrun
  rcases switchNow_cases hs with ⟨hempty, hs⟩ | ⟨-, ⟨-, c, hc, hs⟩ | ⟨-, hs⟩⟩
  · have hnil : s.readyThreads = ⟨none, none⟩ := by
      simp only [SingleDeque.empty, Bool.and_eq_true, Option.isNone_iff_eq_none] at hempty
      cases hd : s.readyThreads with
      | mk head tail =>
        rw [hd] at hempty
        dsimp only at hempty
        rw [hempty.1, hempty.2]
    exact hgo s s.idleThread h rfl hnil hcur hs
  · refine hhead _ ?_ ?_ ?_ ?_ (s.toCore.payQuantum_state c cur) hs
    · exact h
    · rfl
    · rfl
    · rfl
  · exact hhead s h rfl rfl rfl rfl hs

/-- What the purge of a dead process leaves alone. -/
structure Purged (s s' : Sched P Q F) : Prop where
  core : s'.toCore = s.toCore
  ready : s'.readyThreads = s.readyThreads
  link : ∀ w, s.hook w = none → s'.hook w = none

omit [DecidableEq P] [DecidableEq Q] in
theorem Purged.trans {s₁ : Sched P Q F} (h : Purged s s₁) (h' : Purged s₁ s') : Purged s s' :=
  ⟨h'.core.trans h.core, h'.ready.trans h.ready, fun w hw => h'.link w (h.link w hw)⟩

private theorem purge_purged {proc : Q} (hs : s.purge fuel proc t = .ok s') : Purged s s' := by
  unfold purge at hs
  split at hs
  · obtain ⟨r, hr, hs⟩ := bind_ok.mp hs
    cases hs
    exact ⟨rfl, rfl, fun w hw => SingleDeque.remove_null_link hr hw⟩
  · cases hs
    exact ⟨rfl, rfl, fun _ hw => hw⟩

private theorem iterate_purged {proc : Q} {d : SingleDeque P} {n : Nat}
    (hs : d.iterate Sched.hook (purge n proc) fuel s = .ok s') : Purged s s' := by
  obtain ⟨-, h⟩ := SingleDeque.forEach_invariant (I := fun _ _ x => Purged s x)
    (fun _ _ _ _ hI hx => hI.trans (purge_purged hx)) fuel _ _ s s' hs
    ⟨rfl, rfl, fun _ hw => hw⟩
  exact h

/-- The purge, and the switch after it. -/
theorem removeDeadProcessThreads_ok {b : Bool} (h : s.taskSwitchCounter = 0)
    (hs : s.removeDeadProcessThreads fuel = .ok (b, s')) :
    ∃ s₁, Purged s s₁ ∧ s₁.switchNow = .ok s' := by
  obtain ⟨cur, -, hs⟩ := bind_ok.mp hs
  obtain ⟨s₁, h₁, hs⟩ := bind_ok.mp hs
  obtain ⟨s₂, h₂, hs⟩ := bind_ok.mp hs
  obtain ⟨s₃, h₃, hs⟩ := bind_ok.mp hs
  cases hs
  have hp := (iterate_purged h₁).trans (iterate_purged h₂)
  refine ⟨s₂, hp, ?_⟩
  rw [← schedule_unlocked]
  · exact h₃
  · rw [hp.core]
    exact h

/-- The two outcomes of `exit(-1)` differ in what they write to the process block. -/
theorem exit_ok {q : Q} (h : s.taskSwitchCounter = 0) (hs : s.exit fuel q (-1) = .ok s') :
    ∃ f s₁ s₂, Purged (s.modifyProcess q f) s₁ ∧ s₁.switchNow = .ok s₂ ∧
      s' = s₂.removeAllThreads q := by
  have hrest : ∀ f msg, (do
        let r ← (s.modifyProcess q f).removeDeadProcessThreads fuel
        if r.1 then return r.2.removeAllThreads q else .error (.panic msg)) = .ok s' →
      ∃ f s₁ s₂, Purged (s.modifyProcess q f) s₁ ∧ s₁.switchNow = .ok s₂ ∧
        s' = s₂.removeAllThreads q := by
    intro f msg hs
    obtain ⟨⟨b, s₂⟩, h₂, hs⟩ := bind_ok.mp hs
    obtain ⟨s₁, hpur, hsw⟩ := removeDeadProcessThreads_ok (s := s.modifyProcess q f) h h₂
    cases b with
    | true =>
      cases hs
      exact ⟨f, s₁, s₂, hpur, hsw, rfl⟩
    | false => cases hs
  unfold exit at hs
  rw [if_pos rfl] at hs
  cases hp : (s.process q).parent with
  | none =>
    simp only [hp] at hs
    exact hrest _ _ hs
  | some parent =>
    simp only [hp] at hs
    exact hrest _ _ hs

/-- A fault that a user process dies of: two switches, of which the second comes back to the
caller if it was queued by the first and nobody is in front of it. -/
theorem fault_stays {cs : F → Word} {frame : F} (hr : s.AtRest) (h : s.currThread = some cur)
    (hcur : cur = s.idleThread ∨ (s.thread cur).state = .running)
    (hone : ∀ w, s.readyThreads.head = some w → s.hook w = none)
    (hs : s.x86GpFaultHandler cs fuel frame = .ok s') :
    s'.AtRest ∧ s'.currThread = some cur ∧
      ∀ t, (s'.thread t).registers = (s.thread t).registers := by
  obtain ⟨i, hi⟩ := hr.lock
  have hcount : s.taskSwitchCounter = 0 := congrArg Core.Lock.taskSwitchCounter hi
  unfold x86GpFaultHandler at hs
  rw [h, deref_some, ok_bind] at hs
  dsimp only at hs
  split at hs
  · obtain ⟨s₃, hexit, hlast⟩ := bind_ok.mp hs
    obtain ⟨f, s₁, s₂, hp, hsw, rfl⟩ := exit_ok hcount hexit
    have hcur₁ : s₁.currThread = some cur := by rw [hp.core]; exact h
    have hidle₁ : s₁.idleThread = s.idleThread := by rw [hp.core]; rfl
    have hstate₁ : s₁.thread = s.thread := by rw [hp.core]; rfl
    have hlock₁ : s₁.toCore.lock = .unlocked i := by rw [hp.core]; exact hi
    have hev₁ : s₁.readyThreads.Even := by rw [hp.ready]; exact hr.even
    -- the first switch
    obtain ⟨s₂', hs₂', hst, hev₂⟩ := switchNow_spec hcur₁ hev₁
    cases hsw.symm.trans hs₂'
    have hfirst : s₂.first = cur := by
      refine switchNow_first hcur₁ ?_ ?_ hsw
      · rw [hidle₁, hstate₁]
        exact hcur
      · intro w hw
        rw [hp.ready] at hw
        exact hp.link w (hone w hw)
    have hlock₂ : s₂.toCore.lock = .unlocked i := (switchNow_lock hsw).trans hlock₁
    have hcur₂ : s₂.currThread = some s₁.first :=
      (Core.currThread_of_still hst).trans (Core.dispatch_currThread _ _ _)
    -- the second
    rw [schedule_unlocked (show (s₂.removeAllThreads _).taskSwitchCounter = 0 from
      congrArg Core.Lock.taskSwitchCounter hlock₂)] at hlast
    obtain ⟨s₄, hs₄, hst₄, hev₄⟩ := switchNow_spec
      (s := s₂.removeAllThreads (s.thread cur).mProcess) hcur₂ hev₂
    cases hlast.symm.trans hs₄
    have hcur₄ : s'.currThread = some cur := by
      refine ((Core.currThread_of_still hst₄).trans (Core.dispatch_currThread _ _ _)).trans ?_
      exact congrArg some hfirst
    refine ⟨⟨⟨i, (switchNow_lock hs₄).trans hlock₂⟩, ⟨cur, hcur₄⟩, hev₄⟩, hcur₄, fun t => ?_⟩
    refine ((Core.registers_of_dispatch hst₄ t).trans (Core.registers_of_dispatch hst t)).trans ?_
    rw [hstate₁]
  · cases hs

end Sched

/-! ## Runs -/

namespace Cpu

variable {cs : P × F → Word} {fuel : Nat} {x x' : Cpu P Q F}

/-- The invariant: context integrity, and the current thread is the one that executes. -/
structure Agrees (x : Cpu P Q F) : Prop where
  rest : x.sched.AtRest
  current : x.sched.currThread = some x.exec
  intact : x.Intact

omit [DecidableEq P] [DecidableEq Q] in
/-- A call that leaves the frames alone and the current thread where it was. -/
theorem Agrees.call {s : Sched P Q (P × F)} (h : x.Agrees) (hr : s.AtRest)
    (hcur : s.currThread = some x.exec)
    (hreg : ∀ t, (s.thread t).registers = (x.sched.thread t).registers) :
    Agrees { x with sched := s } :=
  ⟨hr, hcur, fun t => (hreg t).trans (h.intact.1 t), h.intact.2⟩

/-- A call that dispatches the executing thread again. -/
theorem Agrees.dispatch {s : Sched P Q (P × F)} {next : P} (h : x.Agrees) (hr : s.AtRest)
    (hnext : next = x.exec)
    (hst : s.toCore.still = (x.sched.toCore.dispatch x.exec next).still) :
    Agrees { x with sched := s } := by
  refine h.call hr ?_ (Core.registers_of_dispatch hst)
  rw [← hnext]
  exact (Core.currThread_of_still hst).trans (Core.dispatch_currThread _ _ _)

theorem Agrees.tick {r : F} (h : x.Agrees) (hs : x.next cs fuel (.tick r) = .ok x') :
    x'.Agrees := by
  obtain ⟨⟨out, s⟩, hrun, hs⟩ := bind_ok.mp hs
  cases hs
  obtain ⟨hr, ⟨now, hnow, hout⟩, hreg⟩ := Sched.pitTick_registers h.rest h.current hrun
  have hown : ∀ t, (s.thread t).registers = (t, Function.update x.last x.exec r t) := by
    intro t
    rw [hreg t]
    by_cases ht : t = x.exec
    · rw [if_pos ht, ht, Function.update_self]
    · rw [if_neg ht, Function.update_of_ne ht, h.intact.1 t]
  have hexec : out = (now, Function.update x.last x.exec r now) := hout.trans (hown now)
  refine ⟨hr, ?_, hown, ?_⟩
  · show s.currThread = some out.1
    rw [hexec]
    exact hnow
  · show out.2 = Function.update x.last x.exec r out.1
    rw [hexec]

theorem Agrees.next {e : Event P F} (h : x.Agrees) (hc : x.Stays e)
    (hs : x.next cs fuel e = .ok x') : x'.Agrees := by
  cases e with
  | tick r => exact h.tick hs
  | fault r =>
    obtain ⟨s, hrun, hs⟩ := bind_ok.mp hs
    cases hs
    obtain ⟨hr, hcur, hreg⟩ := Sched.fault_stays h.rest h.current hc.1 hc.2 hrun
    exact h.call hr hcur hreg
  | yield =>
    obtain ⟨s, hrun, hs⟩ := bind_ok.mp hs
    cases hs
    obtain ⟨hr, hst⟩ := Sched.yield_still h.rest h.current hrun
    refine h.dispatch hr ?_ hst
    cases hh : x.sched.readyThreads.head with
    | none => rfl
    | some w => exact hc w hh
  | sleep milli =>
    obtain ⟨s, hrun, hs⟩ := bind_ok.mp hs
    cases hs
    obtain ⟨hr, hst⟩ := Sched.sleep_still h.rest h.current hrun
    exact h.dispatch hr hc hst
  | block =>
    obtain ⟨s, hrun, hs⟩ := bind_ok.mp hs
    cases hs
    obtain ⟨hr, hst⟩ := Sched.block_still h.rest h.current hrun
    exact h.dispatch hr hc hst
  | unblock t =>
    obtain ⟨s, hrun, hs⟩ := bind_ok.mp hs
    cases hs
    obtain ⟨hr, hst⟩ := Sched.unblock_still h.rest h.current hrun
    by_cases hi : x.sched.Idling
    · rw [if_pos hi] at hst
      have hidle : x.sched.idleThread = x.exec := Option.some.inj (hi.2.symm.trans h.current)
      exact h.dispatch hr ((hc hi).trans hidle) hst
    · rw [if_neg hi] at hst
      exact h.call hr ((Core.currThread_of_still hst).trans h.current) (Core.registers_of_still hst)

/-- **Context integrity along runs that stay.** If every call and every fault leaves `curr_thread`
where it was, then whenever a tick saves a frame it saves it in the thread that was executing, and
every thread is resumed from the frame it was last interrupted with. -/
theorem intact_of_run (h : ((runs cs fuel).restrict Stays).Reachable x) :
    x.Intact ∧ x.sched.currThread = some x.exec := by
  have hinv : x.Agrees := by
    refine System.Reachable.invariant (I := Agrees) ?_ ?_ h
    · intro x hx
      exact ⟨hx.1, hx.2.1, hx.2.2⟩
    · intro x e x' hI hstep
      exact hI.next hstep.2 hstep.1.2
  exact ⟨hinv.intact, hinv.current⟩

/-- Idle executes and thread `1` is ready, both in one user process. -/
def idleAndReady : Cpu (Fin 2) Unit Nat where
  resumed := (0, 0)
  last _ := 0
  sched := ((Sched.boot (fun t : Fin 2 => .construct 0 (t, 0) ())
    (fun _ => .construct 0 true) 0).construct 0).addReadyThreads 1

private theorem idleAndReady_init : idleAndReady.sched.AtRest ∧
    idleAndReady.sched.currThread = some idleAndReady.exec ∧ idleAndReady.Intact := by
  refine ⟨⟨⟨false, rfl⟩, ⟨0, rfl⟩, rfl⟩, rfl, ?_, rfl⟩
  unfold idleAndReady
  decide

instance (x : Cpu P Q F) : (e : Event P F) → Decidable (x.Stays e)
  | .tick _ => .isTrue trivial
  | .fault _ => inferInstanceAs (Decidable ((_ ∨ _) ∧ ∀ h ∈ x.sched.readyThreads.head, _))
  | .yield => inferInstanceAs (Decidable (∀ h ∈ x.sched.readyThreads.head, h = x.exec))
  | .sleep _ | .block => inferInstanceAs (Decidable (_ = _))
  | .unblock _ => inferInstanceAs (Decidable (_ → _))

/-- Idle's slice ends, thread `1` faults with nobody ready and goes on, and its slice ends. -/
def thereAndBack : List (Event (Fin 2) Nat) :=
  [.tick 1, .tick 2, .tick 3, .tick 4, .tick 5, .tick 6, .tick 11, .fault 12, .tick 13, .tick 14,
    .tick 15, .tick 16, .tick 17, .tick 18]

/-- At the end of that run idle goes on from the frame of tick 6. -/
theorem intact_of_run_thereAndBack : ∃ x : Cpu (Fin 2) Unit Nat,
    ((runs (fun _ => 0x23) 2).restrict Stays).Reachable x ∧ x.resumed = (0, 6) ∧ x.last 1 = 18 ∧
    x.Intact ∧ x.sched.currThread = some x.exec := by
  have hrun : (thereAndBack.foldlM (System.attempt (fun x e => True ∧ Stays x e)
      (next (fun _ => 0x23) 2)) idleAndReady).map (fun x => (x.resumed, x.last 1)) =
      some ((0, 6), 18) := by decide +kernel
  obtain ⟨x, hx, hobs⟩ := Option.map_eq_some_iff.mp hrun
  simp only [Prod.mk.injEq] at hobs
  have hinit : ((runs (fun _ => 0x23) 2).restrict Stays).Reachable idleAndReady :=
    .init idleAndReady_init
  have hreach := hinit.foldlM (fun _ _ _ => System.attempt_restrict) _ hx
  exact ⟨x, hreach, hobs.1, hobs.2, intact_of_run hreach⟩

/-- **A frame is saved in the wrong thread.** Idle yields while thread `1` is ready, goes on
executing, and is interrupted: its registers are now the context of thread `1`. -/
theorem yield_then_tick_misplaces : ∃ x : Cpu (Fin 2) Unit Nat, (runs (fun _ => 0) 2).Reachable x ∧
    ¬ x.Intact := by
  have hrun : ([.yield, .tick 7].foldlM (System.attempt (fun _ _ => True)
      (next (fun _ => 0) 2)) idleAndReady).map (fun x => (x.sched.thread 1).registers) =
      some (0, 7) := by decide +kernel
  obtain ⟨x, hx, hobs⟩ := Option.map_eq_some_iff.mp hrun
  refine ⟨x, ?_, fun hi => ?_⟩
  · have hinit : (runs (fun _ => 0) 2).Reachable idleAndReady := .init idleAndReady_init
    exact hinit.foldlM (fun _ _ _ => System.attempt_eq_some) _ hx
  · have hown := congrArg Prod.fst ((hi.1 1).symm.trans hobs)
    exact absurd (show (1 : Fin 2) = 0 from hown) (by decide)

end Cpu

end TwoKernel
