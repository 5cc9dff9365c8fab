import Mathlib.Data.Fintype.Basic
import TwoKernel.Laws.Proc.Dispatch
import TwoKernel.Lib.System

/-!
# CR3 and the kernel stacks follow the current thread

`switch_task` loads the page map of the incoming thread only when its process
differs from the outgoing thread's, and loads nothing at all for idle. So while
idle is current, CR3 is still the last process's: the core has *drifted*. A switch
from there to another thread of idle's own process finds the two processes equal
and leaves CR3 as it is, and that thread runs in a foreign address space.

`Reloads` excludes this one step. Along every run whose steps all meet it, CR3,
`tss.rsp0` and the system call stack are those of the current thread
(`tracks_of_run`).
-/

namespace TwoKernel

attribute [local instance] neZero_two neZero_three

variable {P Q F : Type} [DecidableEq P] [DecidableEq Q]

namespace Core

/-- The page map of a thread's process. -/
def pageMap (t : P) (c : Core P Q F) : Word := (c.process (c.thread t).mProcess).pml4Pa

/-- CR3 and the two kernel stack pointers are those of `t`. -/
def Follows (t : P) (c : Core P Q F) : Prop :=
  c.cr3 = c.pageMap t ∧ c.tssRsp0 = (c.thread t).rsp0 ∧ c.syscallKernelRsp = (c.thread t).rsp0

/-- **The law.** Unless idle is current, the processor is set up for the current thread. -/
def Tracks (c : Core P Q F) : Prop :=
  ∀ cur, c.currThread = some cur → cur ≠ c.idleThread → c.Follows cur

/-- Idle is current in the address space of another process. -/
def Drifted (c : Core P Q F) : Prop :=
  c.currThread = some c.idleThread ∧ c.cr3 ≠ c.pageMap c.idleThread

/-- A thread of idle's process other than idle. -/
def Sibling (t : P) (c : Core P Q F) : Prop :=
  t ≠ c.idleThread ∧ (c.thread t).mProcess = (c.thread c.idleThread).mProcess

instance (c : Core P Q F) : Decidable c.Drifted := inferInstanceAs (Decidable (_ ∧ _))

instance (t : P) (c : Core P Q F) : Decidable (c.Sibling t) := inferInstanceAs (Decidable (_ ∧ _))

variable {c c' : Core P Q F} {cur next : P}

/-- Two cores that agree on everything the law reads. -/
structure SameMachine (c c' : Core P Q F) : Prop where
  currThread : c'.currThread = c.currThread
  idleThread : c'.idleThread = c.idleThread
  process : c'.process = c.process
  cr3 : c'.cr3 = c.cr3
  tssRsp0 : c'.tssRsp0 = c.tssRsp0
  syscallKernelRsp : c'.syscallKernelRsp = c.syscallKernelRsp
  rsp0 : ∀ t, (c'.thread t).rsp0 = (c.thread t).rsp0
  mProcess : ∀ t, (c'.thread t).mProcess = (c.thread t).mProcess

section SameMachine

omit [DecidableEq P] [DecidableEq Q]

theorem SameMachine.of_still (h : c'.still = c.still) : SameMachine c c' := by
  have hself : ∀ d : Core P Q F, SameMachine d.still d :=
    fun d => ⟨rfl, rfl, rfl, rfl, rfl, rfl, fun _ => rfl, fun _ => rfl⟩
  have := hself c'
  rw [h] at this
  exact ⟨this.1, this.2, this.3, this.4, this.5, this.6, this.7, this.8⟩

private theorem SameMachine.pageMap (h : SameMachine c c') (t : P) : c'.pageMap t = c.pageMap t := by
  unfold Core.pageMap
  rw [h.process, h.mProcess]

private theorem Tracks.congr (h : SameMachine c c') (ht : c.Tracks) : c'.Tracks := by
  intro cur hcur hidle
  rw [h.currThread] at hcur
  rw [h.idleThread] at hidle
  unfold Follows
  rw [h.cr3, h.tssRsp0, h.syscallKernelRsp, h.rsp0, h.pageMap]
  exact ht cur hcur hidle

private theorem drifted_congr (h : SameMachine c c') : c'.Drifted ↔ c.Drifted := by
  unfold Drifted
  rw [h.currThread, h.idleThread, h.cr3, h.pageMap]

private theorem sibling_congr (h : SameMachine c c') (t : P) : c'.Sibling t ↔ c.Sibling t := by
  unfold Sibling
  rw [h.idleThread, h.mProcess, h.mProcess]

end SameMachine

omit [DecidableEq Q] in
/-- The bookkeeping at the start of a tick sets nothing up. -/
theorem sameMachine_saveFrame (c : Core P Q F) (cur : P) (frame : F) :
    SameMachine c (c.increaseTick.saveFrame cur frame) := by
  refine ⟨rfl, rfl, rfl, rfl, rfl, rfl, fun t => ?_, fun t => ?_⟩
  · obtain ⟨r, n, h⟩ := c.increaseTick.saveFrame_same cur t frame
    rw [h]
    rfl
  · obtain ⟨r, n, h⟩ := c.increaseTick.saveFrame_same cur t frame
    rw [h]
    rfl

/-- A dispatch keeps the law, except from a drifted core to a sibling of idle. -/
theorem Tracks.dispatch (ht : c.Tracks) (hcur : c.currThread = some cur)
    (hn : c.Drifted → ¬ c.Sibling next) : (c.dispatch cur next).Tracks := by
  intro now hnow hidle
  rw [dispatch_currThread, Option.some.injEq] at hnow
  subst hnow
  rw [dispatch_idleThread] at hidle
  have hthread : (c.dispatch cur next).thread next =
      { c.thread next with execStartMs := c.getTimeMilliseconds } :=
    (dispatch_thread c next cur next).trans (if_pos rfl)
  unfold Follows pageMap
  rw [hthread, dispatch_process]
  unfold Core.dispatch
  rw [if_neg hidle]
  by_cases hproc : (c.thread next).mProcess ≠ (c.thread cur).mProcess
  · rw [if_pos hproc]
    exact ⟨rfl, rfl, rfl⟩
  · rw [if_neg hproc]
    rw [not_not] at hproc
    refine ⟨?_, rfl, rfl⟩
    show c.cr3 = (c.process (c.thread next).mProcess).pml4Pa
    -- CR3 stays, so it has to be right already: the law says so unless idle was current
    rw [hproc]
    by_cases hc : cur = c.idleThread
    · subst hc
      by_contra hbad
      exact hn ⟨hcur, hbad⟩ ⟨hidle, hproc⟩
    · exact (ht cur hcur hc).1

/-- A core that has not drifted does not drift by a dispatch to idle from idle, or to anyone
else. -/
theorem not_drifted_dispatch (hd : ¬ c.Drifted) (hcur : c.currThread = some c.idleThread) :
    ¬ (c.dispatch c.idleThread next).Drifted := by
  intro h
  have hidle : next = c.idleThread := by
    have := h.1
    rwa [dispatch_currThread, dispatch_idleThread, Option.some.injEq] at this
  refine hd ⟨hcur, fun hcr3 => h.2 ?_⟩
  have hthread : ((c.dispatch c.idleThread next).thread c.idleThread).mProcess =
      (c.thread c.idleThread).mProcess := by
    rw [dispatch_thread]
    split
    · next h => rw [h]
    · rfl
  unfold pageMap
  rw [dispatch_idleThread, hthread, dispatch_process]
  refine Eq.trans ?_ hcr3
  unfold Core.dispatch
  rw [if_pos hidle]
  rfl

private theorem sibling_dispatch {t : P} : (c.dispatch cur next).Sibling t ↔ c.Sibling t := by
  have hproc : ∀ u, ((c.dispatch cur next).thread u).mProcess = (c.thread u).mProcess := by
    intro u
    rw [dispatch_thread]
    split
    · next h => rw [h]
    · rfl
  unfold Sibling
  rw [hproc, dispatch_idleThread, hproc]

/-- Whoever takes the processor from idle next, the law is kept: the core has not drifted, or idle
has no sibling. -/
def Steady (c : Core P Q F) : Prop := c.Drifted → ∀ t, ¬ c.Sibling t

omit [DecidableEq P] [DecidableEq Q] in
theorem Steady.congr (h : SameMachine c c') (hs : c.Steady) : c'.Steady := by
  intro hd t hsib
  exact hs ((drifted_congr h).mp hd) t ((sibling_congr h t).mp hsib)

theorem Steady.dispatch (hs : c.Steady) (hcur : c.currThread = some c.idleThread) :
    (c.dispatch c.idleThread next).Steady := by
  intro hd t hsib
  have hbefore : c.Drifted := not_not.mp fun h => not_drifted_dispatch h hcur hd
  exact hs hbefore t (sibling_dispatch.mp hsib)

end Core

namespace Sched

/-- The runs from `Schedule(idle)`, over any heap, any calls in any order. -/
def runs (fuel : Nat) : System (Sched P Q F) (Call P F) :=
  .guarded (fun x => ∃ idle s, x = construct idle s) (fun _ _ => True) (fun s c => c.exec fuel s)

/-- The steps that do not hand the processor from idle to a sibling of idle. On a tick with nobody
ready, it is the first sleeper woken that gets the processor; otherwise the end of idle's slice
hands it to the head of the queue. Where the first one woken is idle itself, any later sleeper of
the same walk can still take the processor from it, so there idle must have no sibling. -/
def Elsewhere (fuel : Nat) (s : Sched P Q F) : Call P F → Prop
  | .add _ => True
  | .tick _ =>
    match s.readyThreads.head with
    | none => ∀ w, s.firstWoken fuel = some w →
        ¬ s.toCore.Sibling w ∧ (w = s.idleThread → ∀ t, ¬ s.toCore.Sibling t)
    | some h => s.toCore.increaseTick.SliceOver s.idleThread → ¬ s.toCore.Sibling h
  | .yield | .sleep _ | .block => ∀ h, s.readyThreads.head = some h → ¬ s.toCore.Sibling h
  | .unblock t => s.readyThreads.head = none → ¬ s.toCore.Sibling t

/-- The steps that keep the law: from a drifted core, only those that go elsewhere. -/
def Reloads (fuel : Nat) (s : Sched P Q F) (call : Call P F) : Prop :=
  s.toCore.Drifted → s.Elsewhere fuel call

variable {s s' : Sched P Q F} {cur : P} {fuel : Nat}

/-! ## The calls of the running thread -/

private theorem yield_tracks (hr : s.AtRest) (ht : s.toCore.Tracks) (hc : s.Reloads fuel .yield)
    (hs : s.yield = .ok s') : s'.toCore.Tracks := by
  obtain ⟨cur, hcur⟩ := hr.current
  obtain ⟨-, hst⟩ := yield_still hr hcur hs
  refine Core.Tracks.congr (.of_still hst) (ht.dispatch hcur fun hd => ?_)
  cases hh : s.readyThreads.head with
  | none =>
    intro hsib
    exact hsib.1 (Option.some.inj (hcur.symm.trans hd.1))
  | some h => exact hc hd h hh

private theorem dispatch_first_tracks (ht : s.toCore.Tracks) (hcur : s.currThread = some cur)
    (hc : s.toCore.Drifted → ∀ h, s.readyThreads.head = some h → ¬ s.toCore.Sibling h)
    (hst : s'.toCore.still = (s.toCore.dispatch cur s.first).still) : s'.toCore.Tracks := by
  refine Core.Tracks.congr (.of_still hst) (ht.dispatch hcur fun hd => ?_)
  unfold first
  cases hh : s.readyThreads.head with
  | none => exact fun hsib => hsib.1 rfl
  | some h => exact hc hd h hh

private theorem unblock_tracks {t : P} (hr : s.AtRest) (ht : s.toCore.Tracks)
    (hc : s.Reloads fuel (.unblock t)) (hs : s.unblock fuel t = .ok s') : s'.toCore.Tracks := by
  obtain ⟨cur, hcur⟩ := hr.current
  obtain ⟨-, hst⟩ := unblock_still hr hcur hs
  by_cases hi : s.Idling
  · rw [if_pos hi] at hst
    exact .congr (.of_still hst) (ht.dispatch hcur fun hd => hc hd hi.1)
  · rw [if_neg hi] at hst
    exact .congr (.of_still hst) ht

/-! ## A tick -/

/-- A visit keeps the law where whoever takes the processor from idle does. -/
theorem visit_tracks {t : P} (hcur : s.currThread = some cur) (he : s.readyThreads.Even)
    (ht : s.toCore.Tracks) (hd : s.toCore.Steady) (hs : s.visit fuel t = .ok s') :
    (∃ now, s'.currThread = some now) ∧ s'.readyThreads.Even ∧ s'.toCore.Tracks ∧
      s'.toCore.Steady := by
  obtain ⟨hev, hst | ⟨hi, hst⟩⟩ := visit_spec hcur he hs
  · exact ⟨⟨cur, (Core.currThread_of_still hst).trans hcur⟩, hev, ht.congr (.of_still hst),
      hd.congr (.of_still hst)⟩
  · exact ⟨⟨t, (Core.currThread_of_still hst).trans (Core.dispatch_currThread _ _ _)⟩, hev,
      .congr (.of_still hst) (ht.dispatch hi.2 fun h => hd h t),
      (hd.dispatch hi.2).congr (.of_still hst)⟩

private theorem visitAll_tracks (hcur : s.currThread = some cur) (he : s.readyThreads.Even)
    (ht : s.toCore.Tracks) (hd : s.toCore.Steady) (hs : s.visitAll fuel = .ok s') :
    (∃ now, s'.currThread = some now) ∧ s'.readyThreads.Even ∧ s'.toCore.Tracks ∧
      s'.toCore.Steady := by
  obtain ⟨-, h⟩ := SingleDeque.forEach_invariant
    (I := fun _ _ (x : Sched P Q F) => (∃ now, x.currThread = some now) ∧ x.readyThreads.Even ∧
      x.toCore.Tracks ∧ x.toCore.Steady)
    (fun _ _ x x' hI hx => by
      obtain ⟨⟨now, hnow⟩, hev, htr, hdr⟩ := hI
      exact visit_tracks hnow hev htr hdr hx)
    fuel _ _ s s' hs ⟨⟨cur, hcur⟩, he, ht, hd⟩
  exact h

private theorem endSlice_tracks (hcur : s.currThread = some cur) (he : s.readyThreads.Even)
    (ht : s.toCore.Tracks)
    (hc : s.toCore.SliceOver cur → s.toCore.Drifted →
      ∀ h, s.readyThreads.head = some h → ¬ s.toCore.Sibling h)
    (hs : s.endSlice = .ok s') :
    (∃ now, s'.currThread = some now) ∧ s'.readyThreads.Even ∧ s'.toCore.Tracks := by
  by_cases ho : s.toCore.SliceOver cur
  · obtain ⟨s₁, hs₁, hst, hev⟩ := endSlice_over hcur he ho
    cases hs₁.symm.trans hs
    exact ⟨⟨_, (Core.currThread_of_still hst).trans (Core.dispatch_currThread _ _ _)⟩, hev,
      dispatch_first_tracks ht hcur (hc ho) hst⟩
  · rw [endSlice_not_over hcur ho] at hs
    cases hs
    exact ⟨⟨cur, hcur⟩, he, ht⟩

/-- What the sleeper loop of a tick leaves to the slice test. -/
def Onward (s : Sched P Q F) : Prop :=
  (∃ now, s.currThread = some now ∧ (s.toCore.SliceOver now → s.toCore.Drifted →
    ∀ h, s.readyThreads.head = some h → ¬ s.toCore.Sibling h)) ∧
  s.readyThreads.Even ∧ s.toCore.Tracks

/-- The sleeper loop of a steady core. -/
theorem visitAll_steady (hcur : s.currThread = some cur) (he : s.readyThreads.Even)
    (ht : s.toCore.Tracks) (hd : s.toCore.Steady) (hs : s.visitAll fuel = .ok s') :
    s'.Onward := by
  obtain ⟨⟨now, hnow⟩, hev, htr, hdr⟩ := visitAll_tracks hcur he ht hd hs
  exact ⟨⟨now, hnow, fun _ hdrift h _ => hdr hdrift h⟩, hev, htr⟩

/-- The sleeper loop while idle has the processor to itself: the first sleeper woken takes it, or
idle keeps it. -/
theorem visitAll_idling (hi : s.Idling) (he : s.readyThreads.Even) (ht : s.toCore.Tracks)
    (hgo : ∀ w, s.firstWoken fuel = some w →
      ¬ s.toCore.Sibling w ∧ (w = s.idleThread → ∀ t, ¬ s.toCore.Sibling t))
    (hs : s.visitAll fuel = .ok s') : s'.Onward := by
  cases hw : s.firstWoken fuel with
  | none =>
    obtain ⟨hst, hready⟩ := forEach_none hw hs
    refine ⟨⟨_, (Core.currThread_of_still hst).trans hi.2, fun _ _ h hhead => ?_⟩, ?_,
      ht.congr (.of_still hst)⟩
    · rw [hready] at hhead
      cases hi.1.symm.trans hhead
    · rw [hready]
      exact he
  | some w =>
    obtain ⟨hsib, hnone⟩ := hgo w hw
    by_cases hwi : w = s.idleThread
    · exact visitAll_steady hi.2 he ht (fun _ => hnone hwi) hs
    · obtain ⟨hst, hev⟩ := visitAll_woken hi he hwi hw hs
      have hcur₁ := (Core.currThread_of_still hst).trans (Core.dispatch_currThread _ _ _)
      have hid₁ := (Core.idleThread_of_still hst).trans (Core.dispatch_idleThread _ _ _)
      refine ⟨⟨w, hcur₁, fun _ hd₁ => ?_⟩, hev,
        .congr (.of_still hst) (ht.dispatch hi.2 fun _ => hsib)⟩
      exact absurd (Option.some.inj (hcur₁.symm.trans (hd₁.1.trans (congrArg some hid₁)))) hwi

/-- The sleeper loop of a tick. -/
theorem visitAll_reloads {frame : F} {s₁ : Sched P Q F} (hr : s.AtRest)
    (hcur : s.currThread = some cur) (ht : s.toCore.Tracks) (hc : s.Reloads fuel (.tick frame))
    (hs : (s.charge cur frame).visitAll fuel = .ok s₁) : s₁.Onward := by
  have hm : Core.SameMachine s.toCore (s.charge cur frame).toCore :=
    Core.sameMachine_saveFrame s.toCore cur frame
  have ht₀ : (s.charge cur frame).toCore.Tracks := ht.congr hm
  by_cases hd : s.toCore.Drifted
  · have hidle : cur = s.idleThread := Option.some.inj (hcur.symm.trans hd.1)
    have hgo := hc hd
    unfold Elsewhere at hgo
    cases hh : s.readyThreads.head with
    | none =>
      rw [hh] at hgo
      have hwalk : (s.charge cur frame).firstWoken fuel = s.firstWoken fuel :=
        s.toCore.firstWoken_saveFrame cur frame
      refine visitAll_idling (s := s.charge cur frame) ⟨hh, hd.1⟩ hr.even ht₀ (fun w hw => ?_) hs
      obtain ⟨hsib, hnone⟩ := hgo w (hwalk.symm.trans hw)
      exact ⟨fun h => hsib ((Core.sibling_congr hm w).mp h),
        fun hwi t h => hnone hwi t ((Core.sibling_congr hm t).mp h)⟩
    | some h =>
      -- somebody is ready: the loop switches nobody, and the head of the queue stays
      rw [hh] at hgo
      have hb := forEach_busy (s := s.charge cur frame) (fun hi => by cases hh.symm.trans hi.1) hcur
        hr.even hs
      have hm₁ := Core.SameMachine.of_still hb.still
      refine ⟨⟨cur, (Core.currThread_of_still hb.still).trans hcur, fun ho _ h' hh' => ?_⟩, hb.even,
        ht₀.congr hm₁⟩
      cases (hb.head h hh).symm.trans hh'
      rw [Core.sibling_congr hm₁, Core.sibling_congr hm]
      refine hgo ?_
      rw [← hidle]
      have hbud := visitAll_budgets hs
      exact (Core.sliceOver_saveFrame _ cur frame).mp
        ((Core.sliceOver_of_still hb.still hbud cur).mp ho)
  · exact visitAll_steady (s := s.charge cur frame) hcur hr.even ht₀
      (fun h => absurd ((Core.drifted_congr hm).mp h) hd) hs

private theorem pitTick_tracks {frame out : F} (hr : s.AtRest) (ht : s.toCore.Tracks)
    (hc : s.Reloads fuel (.tick frame)) (hs : s.pitTick fuel frame = .ok (out, s')) :
    s'.AtRest ∧ s'.toCore.Tracks := by
  obtain ⟨cur, hcur⟩ := hr.current
  obtain ⟨s₂, -, hrun, -, -, rfl⟩ := pitTick_ok hr hcur hs
  obtain ⟨s₁, hloop, hend⟩ := bind_ok.mp hrun
  obtain ⟨⟨now, hnow, hgo⟩, hev, htr⟩ := visitAll_reloads hr hcur ht hc hloop
  obtain ⟨hcur₂, hev₂, htr₂⟩ := endSlice_tracks hnow hev htr hgo hend
  exact ⟨⟨⟨true, rfl⟩, hcur₂, hev₂⟩, htr₂⟩

/-! ## Runs -/

omit [DecidableEq Q] in
theorem construct_atRest (idle : P) (s : Sched P Q F) :
    (construct idle s).AtRest ∧ (construct idle s).toCore.Tracks := by
  refine ⟨⟨⟨s.interruptFlag, rfl⟩, ⟨idle, rfl⟩, rfl⟩, fun cur hcur hidle => ?_⟩
  exact absurd (Option.some.inj hcur).symm hidle

/-- One call keeps the law, when it reloads what it has to. -/
theorem exec_tracks {call : Call P F} (hr : s.AtRest) (ht : s.toCore.Tracks)
    (hc : s.Reloads fuel call) (hs : call.exec fuel s = .ok s') :
    s'.AtRest ∧ s'.toCore.Tracks := by
  obtain ⟨cur, hcur⟩ := hr.current
  cases call with
  | add t =>
    cases hs
    obtain ⟨hr', hst⟩ := add_still t hr hcur
    exact ⟨hr', ht.congr (.of_still hst)⟩
  | tick frame =>
    obtain ⟨⟨out, s₁⟩, hrun, rfl⟩ := map_ok.mp hs
    exact pitTick_tracks hr ht hc hrun
  | yield => exact ⟨(yield_still hr hcur hs).1, yield_tracks hr ht hc hs⟩
  | sleep milli =>
    obtain ⟨hr', hst⟩ := sleep_still hr hcur hs
    exact ⟨hr', dispatch_first_tracks ht hcur hc hst⟩
  | block =>
    obtain ⟨hr', hst⟩ := block_still hr hcur hs
    exact ⟨hr', dispatch_first_tracks ht hcur hc hst⟩
  | unblock t => exact ⟨(unblock_still hr hcur hs).1, unblock_tracks hr ht hc hs⟩

/-- **CR3 and the kernel stacks follow the current thread** in every state reached by a run whose
steps never hand the processor from idle, in a foreign address space, to another thread of idle's
process. -/
theorem tracks_of_run (h : ((runs fuel).restrict (Reloads fuel)).Reachable s) :
    s.toCore.Tracks := by
  have hinv : s.AtRest ∧ s.toCore.Tracks := by
    refine System.Reachable.invariant (I := fun s : Sched P Q F => s.AtRest ∧ s.toCore.Tracks)
      ?_ ?_ h
    · intro x hx
      obtain ⟨idle, s, rfl⟩ := hx
      exact construct_atRest idle s
    · intro x call x' hI hstep
      exact exec_tracks hI.1 hI.2 hstep.2 hstep.1.2
  exact hinv.2

/-- Idle and thread `2` of process `0`, thread `1` of process `1`, under a new scheduler. -/
def twoProcesses : Sched (Fin 3) (Fin 2) Unit :=
  (boot (fun t : Fin 3 => .construct (t.val : Nat) () (if t = 1 then 1 else 0))
    (fun q : Fin 2 => .construct (BitVec.ofNat 64 (4096 * (q.val + 1))) false) 0).construct 0

/-- Thread `1` runs and blocks, then thread `2` is handed over and idle's slice ends. -/
def strayRun : List (Call (Fin 3) Unit) :=
  .add 1 :: List.replicate 6 (.tick ()) ++ [.block, .add 2] ++ List.replicate 6 (.tick ())

/-- **CR3 does not follow.** At the end of that run thread `2` of process `0` is current in the
address space of process `1`. -/
theorem strayRun_not_tracks : ∃ s : Sched (Fin 3) (Fin 2) Unit, (runs 2).Reachable s ∧
    ¬ s.toCore.Tracks := by
  have hrun : (strayRun.foldlM (System.attempt (fun _ _ => True) fun s c => Call.exec 2 s c)
      twoProcesses).map (fun s => (s.currThread, s.idleThread, s.cr3, s.toCore.pageMap 2)) =
      some (some 2, 0, 8192, 4096) := by decide +kernel
  obtain ⟨s, hs, hobs⟩ := Option.map_eq_some_iff.mp hrun
  simp only [Prod.mk.injEq] at hobs
  obtain ⟨hcur, hidle, hcr3, hmap⟩ := hobs
  refine ⟨s, ?_, fun ht => ?_⟩
  · have hinit : (runs 2).Reachable twoProcesses := .init ⟨0, _, rfl⟩
    exact hinit.foldlM (fun _ _ _ => System.attempt_eq_some) _ hs
  · have hfollow := (ht 2 hcur (by rw [hidle]; decide)).1
    rw [hcr3, hmap] at hfollow
    exact absurd hfollow (by decide)

instance [Fintype P] (s : Sched P Q F) (call : Call P F) : Decidable (s.Elsewhere fuel call) :=
  match call with
  | .add _ => .isTrue trivial
  | .tick _ =>
    match h : s.readyThreads.head with
    | none => decidable_of_iff (∀ w, s.firstWoken fuel = some w →
        ¬ s.toCore.Sibling w ∧ (w = s.idleThread → ∀ t, ¬ s.toCore.Sibling t))
        (by unfold Elsewhere; rw [h])
    | some n => decidable_of_iff (s.toCore.increaseTick.SliceOver s.idleThread →
        ¬ s.toCore.Sibling n) (by unfold Elsewhere; rw [h])
  | .yield | .sleep _ | .block =>
    inferInstanceAs (Decidable (∀ h, s.readyThreads.head = some h → ¬ s.toCore.Sibling h))
  | .unblock t => inferInstanceAs (Decidable (s.readyThreads.head = none → ¬ s.toCore.Sibling t))

instance [Fintype P] (s : Sched P Q F) (call : Call P F) : Decidable (s.Reloads fuel call) :=
  inferInstanceAs (Decidable (_ → _))

/-- Thread `1` of the other process runs and sleeps, idle ticks on in its address space, and wakes
it again. -/
def homeRun : List (Call (Fin 3) Unit) :=
  .add 1 :: List.replicate 6 (.tick ()) ++ [.sleep 3] ++ List.replicate 3 (.tick ())

theorem tracks_of_run_homeRun : ∃ s : Sched (Fin 3) (Fin 2) Unit,
    ((runs 2).restrict (Reloads 2)).Reachable s ∧ s.currThread = some 1 ∧ s.idleThread = 0 ∧
      s.cr3 = 8192 ∧ s.toCore.Tracks := by
  have hrun : (homeRun.foldlM (System.attempt (fun s c => True ∧ Reloads 2 s c)
      fun s c => Call.exec 2 s c) twoProcesses).map (fun s => (s.currThread, s.idleThread, s.cr3)) =
      some (some 1, 0, 8192) := by decide +kernel
  obtain ⟨s, hs, hobs⟩ := Option.map_eq_some_iff.mp hrun
  simp only [Prod.mk.injEq] at hobs
  obtain ⟨hcur, hidle, hcr3⟩ := hobs
  have hinit : ((runs 2).restrict (Reloads 2)).Reachable twoProcesses := .init ⟨0, _, rfl⟩
  have hreach := hinit.foldlM (fun _ _ _ => System.attempt_restrict) _ hs
  exact ⟨s, hreach, hcur, hidle, hcr3, tracks_of_run hreach⟩

end Sched

end TwoKernel
