import TwoKernel.Laws.Proc.Follow
import TwoKernel.Laws.Proc.Partition
import TwoKernel.Laws.Proc.RoundRobin
import TwoKernel.Laws.Proc.Saved
import TwoKernel.Laws.Proc.Sleepers
import TwoKernel.Laws.Proc.WayOut

/-!
# A preempted thread goes on as it was

**The laws**, over every run of ticks, of threads that compute and of threads that are constructed, in
which no tick comes between `eoi(0)` and `iretq` (`unnested`).

* `preemption_transparent`: each thread has a processor of its own. What executes has the registers
  that the current thread has made, or is on the way out of a tick to them; every other thread has
  them in its block, and what it has on its stack is in memory. Every tick comes to `eoi(0)`,
  whoever executes and whatever the queues hold.
* `first_dispatch`: a new thread begins at its entry point with its argument, interrupts on, in the ring
  of its process; in the kernel on an empty stack with a return address of zero, aligned as at a call.
* `nested_tick_loses`: on the way out interrupts are on, and if a tick there switches, the thread that was
  to go on has the way out for its context. So the laws need their condition.

The argument has three parts. The stub saves and restores the registers exactly (`Asm`), and the way out
leads to the frame (`WayOut.Resumes`). The scheduler exchanges frames and keeps them otherwise
(`pitTick_saved`), and it sets `tss.rsp0` to the stack of the thread it returns to. The frame and all
that the handler pushes are on the stack of the interrupted thread, below what that thread uses
(`Asm.Pushed`).
-/

namespace TwoKernel

attribute [local instance] neZero_two

variable {P Q : Type} [DecidableEq P] [DecidableEq Q]

/-! ## The scheduler, with nobody asleep -/

section scheduler

variable {F : Type} {s s' : Sched P Q F} {a : Queued P Q F} {added : List P} {fuel : Nat}

/-- The invariant of a scheduler on which nobody sleeps. -/
structure Queued.Rotates (added : List P) (a : Queued P Q F) : Prop extends a.Placed added where
  nobody : a.waiting = []
  busy : a.cur ≠ a.idleThread → (a.thread a.cur).state = .running

namespace Queued

/-- The thread that `schedule()` switches to is running, unless it is idle. -/
theorem switchNow_busy (h : a.switchNow.cur ≠ a.idleThread) :
    (a.switchNow.thread a.switchNow.cur).state = .running := by
  cases hr : a.ready with
  | nil =>
    rw [switchNow_nil _ hr, switchTask_cur] at h
    exact absurd rfl h
  | cons next rest =>
    rw [switchNow_cons _ _ hr, switchTask_cur]
    by_cases hreq : (a.popped next rest).Requeues
    · rw [switchTask_thread hreq, if_pos rfl]
    · rw [switchTask_thread_next _ _ hreq]
      show ((a.popped next rest).thread next).state = .running
      rw [popped_state, if_pos rfl]

private theorem endSlice_busy (hb : a.cur ≠ a.idleThread → (a.thread a.cur).state = .running)
    (h : a.endSlice.cur ≠ a.endSlice.idleThread) :
    (a.endSlice.thread a.endSlice.cur).state = .running := by
  rw [endSlice_idleThread] at h
  by_cases hover : a.toCore.SliceOver a.cur
  · rcases endSlice_of_over hover with he | he
    · rw [he] at h ⊢
      exact switchNow_busy h
    · rw [he] at h ⊢
      exact switchNow_busy h
  · rw [endSlice_of_not_over hover] at h ⊢
    exact hb h

omit [DecidableEq Q] in
/-- The current thread is idle or was handed over. -/
theorem Placed.cur_known (h : a.Placed added) : a.cur = a.idleThread ∨ a.cur ∈ added := by
  by_cases hi : a.cur = a.idleThread
  · exact .inl hi
  · refine .inr (h.mem_added hi ?_)
    unfold places
    rw [if_pos rfl]
    omega

/-- A tick keeps the invariant. -/
theorem Rotates.pitTick (h : a.Rotates added) (frame : F) :
    (a.pitTick frame).Rotates added := by
  obtain ⟨i, hlock⟩ := h.unlocked
  have hcharge : a.tickNow frame = (a.charge frame).endSlice := by
    unfold tickNow
    rw [h.nobody]
    rfl
  have hbusy : (a.charge frame).cur ≠ (a.charge frame).idleThread →
      ((a.charge frame).thread (a.charge frame).cur).state = .running := by
    intro hne
    show ((a.charge frame).thread a.cur).state = .running
    rw [charge_thread_cur]
    exact h.busy hne
  have hdrops : ¬ (a.charge frame).Drops := fun hd => hd.2.2 (hbusy hd.2.1)
  rw [pitTick_eq frame hlock, hcharge]
  refine ⟨(h.toPlaced.charge frame).endSlice hdrops true, ?_, fun hne => endSlice_busy hbusy hne⟩
  show (a.charge frame).endSlice.waiting = []
  rw [endSlice_waiting]
  exact h.nobody

omit [DecidableEq Q] in
/-- A thread that is not known to the scheduler is constructed and handed over. -/
theorem Rotates.create {t : P} (h : a.Rotates added) (hnew : t ∉ added) (hidle : t ≠ a.idleThread)
    (hcur : t ≠ a.cur) (block : ThreadBlock Q F) :
    ((a.mapCore (·.modify t fun _ => block)).addReadyThreads t).Rotates (t :: added) := by
  have hblock : (a.mapCore (·.modify t fun _ => block)).Placed added :=
    ⟨h.unlocked, ⟨h.out.ready, h.out.waiting⟩, h.place, h.idle⟩
  refine ⟨hblock.addReadyThreads hnew hidle, ?_, fun hne => ?_⟩
  · rw [addReadyThreads_waiting]
    exact h.nobody
  · rw [addReadyThreads_cur, addReadyThreads_idleThread] at hne
    have hkept : ((a.mapCore (·.modify t fun _ => block)).addReadyThreads t).thread a.cur =
        a.thread a.cur := (addReadyThreads_thread_of_ne _ _ _ hcur.symm).trans
      (Core.modify_thread_of_ne a.toCore t a.cur (fun _ => block) hcur.symm)
    rw [addReadyThreads_cur]
    show (((a.mapCore (·.modify t fun _ => block)).addReadyThreads t).thread a.cur).state = .running
    rw [hkept]
    exact h.busy hne

end Queued

omit [DecidableEq P] [DecidableEq Q] in
theorem SingleDeque.Represents.even {hooks : Hooks P} {d : SingleDeque P} {l : List P}
    (h : d.Represents hooks l) : d.Even := by
  have hhead : d.head = l.head? := h.head
  unfold SingleDeque.Even
  rw [hhead, h.tail]
  cases l with
  | nil => rfl
  | cons x l => rw [List.head?_cons, List.getLast?_cons]; rfl

omit [DecidableEq Q] in
/-- Between calls. -/
theorem Sim.atRest (h : Sim s a) (hp : a.Placed added) : s.AtRest where
  lock := by
    rw [h.core]
    exact hp.unlocked
  current := ⟨a.cur, h.curr_eq⟩
  even := h.ready.even

/-- What the processor has of the current thread: the stack for interrupts from its program. -/
structure Core.Stacked (c : Core P Q F) (top : P → Word) (idle : P) : Prop where
  idleThread : c.idleThread = idle
  rsp0 : ∀ t, (c.thread t).rsp0 = top t
  tss : ∀ cur, c.currThread = some cur → cur ≠ idle → c.tssRsp0 = top cur

namespace Core

variable {c c' : Core P Q F} {top : P → Word} {idle : P}

omit [DecidableEq P] [DecidableEq Q] in
theorem Stacked.congr (h : c.Stacked top idle) (hc : SameMachine c c') : c'.Stacked top idle where
  idleThread := hc.idleThread.trans h.idleThread
  rsp0 t := (hc.rsp0 t).trans (h.rsp0 t)
  tss cur hcur hne := hc.tssRsp0.trans (h.tss cur (hc.currThread.symm.trans hcur) hne)

theorem Stacked.dispatch (h : c.Stacked top idle) (cur next : P) :
    (c.dispatch cur next).Stacked top idle where
  idleThread := (dispatch_idleThread _ _ _).trans h.idleThread
  rsp0 t := by
    rw [dispatch_thread]
    split
    · next ht => rw [ht, ← h.rsp0]
    · exact h.rsp0 t
  tss now hnow hne := by
    rw [dispatch_currThread] at hnow
    obtain rfl : next = now := Option.some.inj hnow
    rw [← h.idleThread] at hne
    unfold Core.dispatch
    rw [if_neg hne, ← h.rsp0]
    split <;> rfl

end Core

/-- **A tick** of a scheduler on which nobody sleeps: it returns, keeps the contexts but for the one
it saves, and leaves the context of the thread that is current then. -/
structure Sched.Ticked (s : Sched P Q F) (frame out : F) (s' : Sched P Q F) : Prop where
  current : ∃ now, s'.currThread = some now ∧ out = (s'.thread now).registers
  /-- `unlock_scheduler` has executed `sti`. -/
  opened : s'.interruptFlag = true
  saved : ∀ cur, s.currThread = some cur →
    ∀ t, (s'.thread t).registers = if t = cur then frame else (s.thread t).registers
  stacked : ∀ top, s.toCore.Stacked top s.idleThread → s'.toCore.Stacked top s.idleThread

private theorem Sched.pitTick_rotates (fuel : Nat) (h : Sim s a) (hr : a.Rotates added) (frame : F) :
    ∃ out s', s.pitTick fuel frame = .ok (out, s') ∧ s.Ticked frame out s' ∧
      Sim s' (a.pitTick frame) ∧ (a.pitTick frame).Rotates added := by
  obtain ⟨i, hlock⟩ := hr.unlocked
  have hmid := (hr.toPlaced.charge frame).visitAll
  have hset : ((a.charge frame).visitAll a.waiting).Settled :=
    fun _ _ => ⟨hmid.cur_not_ready, hmid.cur_not_waiting⟩
  have hfuel : a.waiting.length ≤ fuel := by
    rw [hr.nobody]
    exact Nat.zero_le fuel
  obtain ⟨s', hs', h'⟩ := h.pitTick hfuel hlock hset
  refine ⟨_, s', hs', ⟨?_, ?_, fun cur hcur t => ?_, fun top hst => ?_⟩, h', hr.pitTick frame⟩
  · obtain ⟨-, -, hnow⟩ := Sched.pitTick_rule (I := fun _ => True) (fun _ _ _ _ => trivial)
      (fun _ _ _ _ => trivial) (h.atRest hr.toPlaced) h.curr_eq trivial hs'
    exact hnow
  · rw [h'.core, Queued.pitTick_eq frame hlock]
    rfl
  · rcases Sched.pitTick_saved hs' with ⟨hnone, -⟩ | ⟨cur', now, hcur', -, -, hsaved⟩
    · rw [hcur] at hnone
      cases hnone
    · obtain rfl : cur = cur' := Option.some.inj (hcur.symm.trans hcur')
      have ht := congrFun hsaved t
      unfold Core.saved at ht
      rw [ht, Function.update_apply]
  · obtain ⟨-, hI, -⟩ := Sched.pitTick_rule (I := fun c => c.Stacked top s.idleThread)
      (fun c c' hc hI => hI.congr (.of_still hc)) (fun c cur next hI => hI.dispatch cur next)
      (h.atRest hr.toPlaced) h.curr_eq (hst.congr (Core.sameMachine_saveFrame _ _ _)) hs'
    exact hI

end scheduler

namespace Preempt

open ByteMem

/-! ## The machine -/

namespace Machine

variable {st : Stacks P} {w : WayOut} {m m' : Machine P Q} {cur t u : P} {fuel : Nat} {ret : Word}

/-- **Each thread has a processor of its own.** -/
structure Virtual (st : Stacks P) (w : WayOut) (m : Machine P Q) : Prop where
  running : ∀ cur, m.sched.currThread = some cur → m.Out w → m.cpu.irqFrame 0 = (m.own cur).frame
  /-- The way out of a tick ends, at what the current thread has made. -/
  current : ∃ cur cpu', m.sched.currThread = some cur ∧ w.Leads m.cpu cpu' ∧
    w.place cpu'.rip = none ∧ cpu'.irqFrame 0 = (m.own cur).frame
  saved : ∀ t, m.Knows t → m.sched.currThread ≠ some t →
    (m.sched.thread t).registers = (m.own t).frame
  stack : ∀ t, m.Knows t → Set.EqOn m.cpu.mem (m.own t).mem (st.live t (m.own t).frame)

/-- A thread that has not been on the processor is as it was constructed. -/
structure Fresh (st : Stacks P) (t : P) (x : Bool × Start Q) (o : Own) : Prop where
  frame : o.frame = x.2.registers x.1 (st.top t)
  slot : x.1 = false → load64 o.mem (st.top t - 8).toNat = 0

/-- What a thread has made, where the memory is `mem`. -/
structure Holds (st : Stacks P) (mem : Mem) (t : P) (o : Own) : Prop where
  stack : Set.EqOn mem o.mem (st.live t o.frame)
  fits : Fits st t o.frame.cs o.frame.rsp
  error : o.frame.error = 0

/-- The invariant of every run, off the way out of a tick. -/
structure Sound (st : Stacks P) (w : WayOut) (m : Machine P Q) : Prop where
  current : ∃ cur, m.sched.currThread = some cur ∧ m.cpu.irqFrame 0 = (m.own cur).frame
  saved : ∀ t, m.Knows t → m.sched.currThread ≠ some t →
    (m.sched.thread t).registers = (m.own t).frame
  holds : ∀ t, m.Knows t → Holds st m.cpu.mem t (m.own t)
  text : ∀ t, m.Knows t → w.place (m.own t).frame.rip = none
  ring : (m.own m.sched.idleThread).frame.cs &&& 3 = 0
  queues : ∃ a, Sim m.sched a ∧ a.Rotates m.added
  stacked : ∃ top, m.sched.toCore.Stacked top m.sched.idleThread ∧ ∀ t ∈ m.added, top t = st.top t
  tss : m.sched.currThread ≠ some m.sched.idleThread → m.cpu.tssRsp0 = m.sched.tssRsp0
  fresh : ∀ t x, m.fresh t = some x → t ∈ m.added ∧ Fresh st t x (m.own t)

section

omit [DecidableEq Q]

private theorem Sound.knows (h : m.Sound st w) (hcur : m.sched.currThread = some cur) : m.Knows cur := by
  obtain ⟨a, hsim, hr⟩ := h.queues
  obtain rfl : a.cur = cur := Option.some.inj (hsim.curr_eq.symm.trans hcur)
  refine hr.toPlaced.cur_known.imp (fun hi => ?_) id
  rw [hi, hsim.core]

/-- The stack that an interrupt of the current thread begins with is its own. -/
theorem Sound.interruptStack (h : m.Sound st w) (hcur : m.sched.currThread = some cur) :
    st.bottom cur + 4096 ≤ m.cpu.interruptStack.toNat ∧
      m.cpu.interruptStack.toNat ≤ (st.top cur).toNat ∧
      ((m.own cur).frame.cs &&& 3 = 0 → m.cpu.interruptStack = (m.own cur).frame.rsp) := by
  obtain ⟨cur', hcur', hframe⟩ := h.current
  obtain rfl : cur = cur' := Option.some.inj (hcur.symm.trans hcur')
  have hcs : m.cpu.cs = (m.own cur).frame.cs := congrArg Asm.IrqFrame.cs hframe
  have hrsp : m.cpu.reg .rsp = (m.own cur).frame.rsp := congrArg Asm.IrqFrame.rsp hframe
  have hknows := h.knows hcur
  unfold Asm.Cpu.interruptStack
  by_cases hring : m.cpu.cs &&& 3 = 0
  · rw [if_pos hring, hrsp]
    rw [hcs] at hring
    obtain ⟨hlo, hhi⟩ := (h.holds cur hknows).fits hring
    exact ⟨hlo, hhi, fun _ => rfl⟩
  · rw [if_neg hring]
    rw [hcs] at hring
    have hidle : cur ≠ m.sched.idleThread := by
      rintro rfl
      exact hring h.ring
    obtain ⟨top, hstacked, htop⟩ := h.stacked
    have htss : m.cpu.tssRsp0 = st.top cur := by
      rw [h.tss fun he => hidle (Option.some.inj (hcur.symm.trans he)), hstacked.tss cur hcur hidle]
      exact htop cur (hknows.resolve_left hidle)
    have hroom := st.room cur
    rw [htss]
    exact ⟨by omega, le_rfl, fun hzero => absurd hzero hring⟩

/-- What an interrupt of the current thread writes is on no part of a stack that is in use. -/
theorem Sound.disjoint_live (h : m.Sound st w) (hcur : m.sched.currThread = some cur)
    (ht : m.Knows t) : st.live t (m.own t).frame ⊆
      (Set.Ico (m.cpu.interruptStack.toNat - 4096) m.cpu.interruptStack.toNat)ᶜ := by
  obtain ⟨hlo, hhi, hsame⟩ := h.interruptStack hcur
  rintro x ⟨hring, hrsp, htop⟩ ⟨hx, hx'⟩
  by_cases heq : t = cur
  · subst heq
    rw [hsame hring] at hx'
    omega
  · obtain ⟨hfit, -⟩ := (h.holds t ht).fits hring
    rcases st.apart t cur heq with happart | happart
    · omega
    · omega

end

/-! ## The steps -/

omit [DecidableEq P] in
theorem toNat_top_sub : (st.top t - 8).toNat = (st.top t).toNat - 8 := by
  have hroom := st.room t
  exact BitVec.toNat_sub_of_le (x := st.top t) (y := 8) (by
    show 8 ≤ (st.top t).toNat
    omega)

omit [DecidableEq Q] in
theorem Boots.sound (h : m.Boots st w) : m.Sound st w := by
  obtain ⟨idle, s, hs⟩ := h.sched
  have hcur : m.sched.currThread = some m.sched.idleThread := by rw [hs]; rfl
  obtain ⟨a, hsim, hplaced⟩ := Roster.construct_sim idle s
  rw [← hs] at hsim
  have hself : a.cur = a.idleThread := by
    have hidle : m.sched.idleThread = a.idleThread := by rw [hsim.core]
    exact (Option.some.inj (hsim.curr_eq.symm.trans hcur)).trans hidle
  have hknows : ∀ t, m.Knows t → t = m.sched.idleThread := by
    rintro t (ht | ht)
    · exact ht
    · rw [h.added] at ht
      cases ht
  refine { current := ⟨_, hcur, by rw [h.own]⟩, saved := ?_, holds := ?_, text := ?_, ring := ?_,
           queues := ⟨a, hsim, ?_⟩,
           stacked := ⟨fun t => (m.sched.thread t).rsp0, ⟨rfl, fun _ => rfl, ?_⟩, ?_⟩,
           tss := fun hne => absurd hcur hne, fresh := ?_ }
  · intro t ht hne
    rw [hknows t ht] at hne
    exact absurd hcur hne
  · intro t ht
    rw [hknows t ht, h.own]
    exact ⟨fun _ _ => rfl, h.fits, rfl⟩
  · intro t ht
    rw [hknows t ht, h.own]
    exact h.out
  · rw [h.own]
    exact h.ring
  · rw [h.added]
    refine ⟨hplaced, List.eq_nil_of_length_eq_zero (Nat.le_zero.mp hplaced.waiting_length), ?_⟩
    exact fun hne => absurd hself hne
  · intro cur hcur' hne
    exact absurd (Option.some.inj (hcur'.symm.trans hcur)) hne
  · intro t ht
    rw [h.added] at ht
    cases ht
  · intro t x hx
    rw [h.fresh t] at hx
    cases hx

omit [DecidableEq Q] in
theorem Sound.run {cpu : Asm.Cpu} (h : m.Sound st w) (ha : m.Allowed st w (.run cpu)) :
    (m.run cpu).Sound st w := by
  obtain ⟨cur, hcur, -⟩ := h.current
  obtain ⟨-, htext, hcode⟩ := ha
  obtain ⟨hfits, hring, htss, hothers⟩ := hcode cur hcur
  have heq : m.run cpu = { m with
      cpu := cpu
      own := Function.update m.own cur ⟨cpu.irqFrame 0, cpu.mem⟩
      fresh := Function.update m.fresh cur none } := by
    unfold Machine.run
    rw [hcur]
  rw [heq]
  refine { current := ⟨cur, hcur, ?_⟩, saved := ?_, holds := ?_, text := ?_, ring := ?_,
           queues := h.queues, stacked := h.stacked, tss := fun hne => htss.trans (h.tss hne), fresh := ?_ }
  · dsimp only
    rw [Function.update_self]
  · intro t ht hne
    have htcur : t ≠ cur := fun he => hne (he ▸ hcur)
    dsimp only
    rw [Function.update_of_ne htcur]
    exact h.saved t ht hne
  · intro t ht
    dsimp only
    by_cases htcur : t = cur
    · rw [htcur, Function.update_self]
      exact ⟨fun _ _ => rfl, hfits, rfl⟩
    · rw [Function.update_of_ne htcur]
      have hold := h.holds t ht
      exact ⟨(hothers t ht htcur).trans hold.stack, hold.fits, hold.error⟩
  · intro t ht
    dsimp only
    by_cases htcur : t = cur
    · rw [htcur, Function.update_self]
      exact htext
    · rw [Function.update_of_ne htcur]
      exact h.text t ht
  · dsimp only
    by_cases hidle : m.sched.idleThread = cur
    · rw [hidle, Function.update_self]
      exact hring hidle.symm
    · rw [Function.update_of_ne hidle]
      exact h.ring
  · intro t x hx
    dsimp only at hx ⊢
    by_cases htcur : t = cur
    · rw [htcur, Function.update_self] at hx
      cases hx
    · rw [Function.update_of_ne htcur] at hx ⊢
      exact h.fresh t x hx

omit [DecidableEq P] in
/-- The constructor writes on the new stack only. -/
theorem memory_eqOn {isUser : Bool} {mem : Mem} {x : Set Nat}
    (hx : Disjoint x (Set.Ico (st.bottom t) (st.top t).toNat)) :
    Set.EqOn (Start.memory isUser (st.top t) mem) mem x := by
  have hroom := st.room t
  unfold Start.memory
  split
  · exact fun _ _ => rfl
  · refine store64_eqOn (hx.mono_right ?_)
    rw [toNat_top_sub]
    exact Set.Ico_subset_Ico (by omega) (by omega)

omit [DecidableEq P] [DecidableEq Q] in
theorem fresh_construct (isUser : Bool) (start : Start Q) (mem : Mem) : Fresh st t (isUser, start)
    ⟨start.registers isUser (st.top t), Start.memory isUser (st.top t) mem⟩ where
  frame := rfl
  slot huser := by
    dsimp only at huser
    unfold Start.memory
    rw [huser]
    exact load64_store64_self

omit [DecidableEq P] [DecidableEq Q] in
theorem holds_construct (isUser : Bool) (start : Start Q) (mem : Mem) : Holds st mem t
    ⟨start.registers isUser (st.top t), mem⟩ where
  stack _ _ := rfl
  fits hring := by
    have hroom := st.room t
    cases isUser with
    | true =>
      have huser : (0x20 ||| 3 : Word) &&& 3 = 0 := hring
      exact absurd huser (by decide)
    | false =>
      show st.bottom t + 4096 ≤ (st.top t - 8).toNat ∧ (st.top t - 8).toNat ≤ (st.top t).toNat
      rw [toNat_top_sub]
      omega
  error := rfl

section

omit [DecidableEq Q]

/-- The scheduler with a new thread. -/
theorem Sound.added (h : m.Sound st w) (ht : ¬ m.Knows t) (hcur : m.sched.currThread = some cur)
    (block : ThreadBlock Q Asm.IrqFrame) :
    ((m.sched.mapCore (·.modify t fun _ => block)).addReadyThreads t).toCore.still =
        (m.sched.toCore.modify t fun _ => block).still ∧
      ∃ a, Sim ((m.sched.mapCore (·.modify t fun _ => block)).addReadyThreads t) a ∧
        a.Rotates (t :: m.added) := by
  obtain ⟨a, hsim, hrotates⟩ := h.queues
  obtain ⟨hidle, hnew⟩ := not_or.mp ht
  have hcurt : t ≠ cur := fun he => ht (he ▸ h.knows hcur)
  obtain rfl : a.cur = cur := Option.some.inj (hsim.curr_eq.symm.trans hcur)
  have hidle' : t ≠ a.idleThread := by
    rwa [hsim.core] at hidle
  have hplaces : a.places t = 0 := by rw [hrotates.place t hidle', if_neg hnew]
  have hready : t ∉ a.ready := fun hm => by
    have hpos := List.count_pos_iff.mpr hm
    unfold Queued.places at hplaces
    omega
  have hwaiting : t ∉ a.waiting := by
    rw [hrotates.nobody]
    exact List.not_mem_nil
  have hmodified := hsim.mapCore (·.modify t fun _ => block) hsim.live
  exact ⟨Sched.addReadyThreads_still t hcur, _, hmodified.addReadyThreads hready hwaiting,
    hrotates.create hnew hidle' hcurt block⟩

theorem Sound.create {start : Start Q} (h : m.Sound st w) (ha : m.Allowed st w (.create t start)) :
    (m.create st t start).Sound st w := by
  obtain ⟨-, hentry, hnew⟩ := ha
  obtain ⟨cur, hcur, hframe⟩ := h.current
  obtain ⟨top, hstacked, htop⟩ := h.stacked
  have hne : ∀ u, m.Knows u → u ≠ t := fun u hu he => hnew (he ▸ hu)
  have hcurt : cur ≠ t := hne cur (h.knows hcur)
  unfold Machine.create
  dsimp only
  generalize (m.sched.process start.process).isUser = isUser
  generalize hb : ThreadBlock.construct (st.top t) (start.registers isUser (st.top t)) start.process =
    block
  obtain ⟨hstill, a, hsim, hrotates⟩ := h.added hnew hcur block
  have hsame := Core.SameMachine.of_still hstill
  have hregs : ∀ u, (((m.sched.mapCore (·.modify t fun _ => block)).addReadyThreads t).thread
      u).registers = if u = t then start.registers isUser (st.top t) else
        (m.sched.thread u).registers := by
    intro u
    refine (Core.registers_of_still hstill u).trans ?_
    rw [Core.modify_thread]
    split
    · rw [← hb]
      rfl
    · rfl
  have hcur' : ((m.sched.mapCore (·.modify t fun _ => block)).addReadyThreads t).currThread = some cur :=
    hsame.currThread.trans hcur
  have hidle' : ((m.sched.mapCore (·.modify t fun _ => block)).addReadyThreads t).idleThread =
      m.sched.idleThread := hsame.idleThread
  generalize (m.sched.mapCore (·.modify t fun _ => block)).addReadyThreads t = s' at *
  -- the threads that there were
  have hold : ∀ u, u ≠ t → Knows { m with sched := s', added := t :: m.added } u → m.Knows u := by
    rintro u hut (hu | hu)
    · exact .inl (hu.trans hidle')
    · exact .inr ((List.mem_cons.mp hu).resolve_left hut)
  refine { current := ⟨cur, hcur', ?_⟩, saved := ?_, holds := ?_, text := ?_, ring := ?_,
           queues := ⟨a, hsim, hrotates⟩,
           stacked := ⟨Function.update top t (st.top t), ⟨rfl, ?_, ?_⟩, ?_⟩, tss := ?_, fresh := ?_ }
  · dsimp only
    rw [Function.update_of_ne hcurt]
    exact hframe
  · intro u hu hunot
    dsimp only at hunot ⊢
    rw [hregs]
    by_cases hut : u = t
    · rw [hut, if_pos rfl, Function.update_self]
    · rw [if_neg hut, Function.update_of_ne hut]
      refine h.saved u (hold u hut hu) fun he => hunot ?_
      rw [hcur', ← he, hcur]
  · intro u hu
    dsimp only
    by_cases hut : u = t
    · rw [hut, Function.update_self]
      exact holds_construct isUser start _
    · rw [Function.update_of_ne hut]
      have hu' := h.holds u (hold u hut hu)
      refine ⟨(memory_eqOn ?_).trans hu'.stack, hu'.fits, hu'.error⟩
      rw [Set.disjoint_left]
      rintro x ⟨hring, hlo, hhi⟩ ⟨hlo', hhi'⟩
      obtain ⟨hfit, -⟩ := hu'.fits hring
      rcases st.apart u t hut with happart | happart <;> omega
  · intro u hu
    dsimp only
    by_cases hut : u = t
    · rw [hut, Function.update_self]
      exact hentry
    · rw [Function.update_of_ne hut]
      exact h.text u (hold u hut hu)
  · dsimp only
    rw [hidle', Function.update_of_ne (hne _ (.inl rfl))]
    exact h.ring
  · intro u
    rw [hsame.rsp0, Core.modify_thread]
    split
    · next hut =>
      rw [hut, Function.update_self, ← hb]
      rfl
    · next hut =>
      rw [Function.update_of_ne hut]
      exact hstacked.rsp0 u
  · intro u hu hidle
    obtain rfl : cur = u := Option.some.inj (hcur'.symm.trans hu)
    rw [hsame.tssRsp0, Function.update_of_ne hcurt]
    exact hstacked.tss cur hcur (hidle' ▸ hidle)
  · intro u hu
    by_cases hut : u = t
    · rw [hut, Function.update_self]
    · rw [Function.update_of_ne hut]
      exact htop u ((List.mem_cons.mp hu).resolve_left hut)
  · intro hidle
    dsimp only at hidle ⊢
    rw [hcur', hidle'] at hidle
    rw [hsame.tssRsp0]
    exact h.tss (hcur ▸ hidle)
  · intro u x hx
    dsimp only at hx ⊢
    by_cases hut : u = t
    · rw [hut, Function.update_self] at hx ⊢
      cases hx
      exact ⟨List.mem_cons_self, fresh_construct isUser start _⟩
    · rw [Function.update_of_ne hut] at hx ⊢
      obtain ⟨hmem, hfresh⟩ := h.fresh u x hx
      exact ⟨List.mem_cons_of_mem _ hmem, hfresh⟩

/-- The invariant of every run: on the way out of a tick, it is what holds once the processor is out. -/
def Settles (st : Stacks P) (w : WayOut) (m : Machine P Q) : Prop :=
  ∃ cpu', w.Resumes m.cpu cpu' ∧ Sound st w { m with cpu := cpu' }

theorem Settles.sound (h : m.Settles st w) (hout : m.Out w) : m.Sound st w := by
  obtain ⟨cpu', hresumes, hsound⟩ := h
  rw [hresumes.of_out hout] at hsound
  exact hsound

end

/-- **A tick comes to `eoi(0)`**, and the way out leads to what the next thread has. -/
theorem Sound.tick {clobber : Asm.Cpu → Asm.Cpu} (fuel : Nat) (ret : Word)
    (h : m.Sound st w) (hclobber : ∀ c, Clobbers w c (clobber c)) :
    ∃ m', m.tick w fuel ret clobber = .ok m' ∧ m'.Settles st w := by
  obtain ⟨cur, hcur, hframe⟩ := h.current
  obtain ⟨a, hsim, hrotates⟩ := h.queues
  obtain ⟨top, hstacked, htop⟩ := h.stacked
  obtain ⟨out, s', hs', hticked, hsim', hrotates'⟩ := Sched.pitTick_rotates fuel hsim hrotates
    (m.cpu.irqFrame 0)
  obtain ⟨now, hnow, hout⟩ := hticked.current
  have hstacked' := hticked.stacked top hstacked
  have hidle : s'.idleThread = m.sched.idleThread := hstacked'.idleThread
  have hknows : ∀ t, t = s'.idleThread ∨ t ∈ m.added → m.Knows t := by
    intro t ht
    rwa [hidle] at ht
  -- what is saved is what each thread has
  have hregs : ∀ t, m.Knows t → (s'.thread t).registers = (m.own t).frame := by
    intro t ht
    rw [hticked.saved cur hcur]
    split
    · next heq => rw [hframe, heq]
    · next hne => exact h.saved t ht fun he => hne (Option.some.inj (he.symm.trans hcur))
  have hnowKnown : m.Knows now := by
    obtain rfl : (a.pitTick (m.cpu.irqFrame 0)).cur = now :=
      Option.some.inj (hsim'.curr_eq.symm.trans hnow)
    refine hknows _ (hrotates'.toPlaced.cur_known.imp (fun he => ?_) id)
    rw [he, hsim'.core]
  have hleft : out.error = 0 := by
    rw [hout, hregs now hnowKnown]
    exact (h.holds now hnowKnown).error
  obtain ⟨hlo, -, -⟩ := h.interruptStack hcur
  obtain ⟨call, e, cpu', hcall, he, hresumes, hframe', htss', hmem'⟩ := reach_eoi ret s'.tssRsp0
    (Nat.le_trans (Nat.le_add_left _ _) hlo) hclobber hleft
  refine ⟨{ m with cpu := e, sched := s' }, ?_, cpu', hresumes, ?_⟩
  · unfold Machine.tick
    dsimp only
    rw [hs', ok_bind]
    dsimp only
    rw [hcall, ok_bind, hticked.opened, he, ok_bind]
    rfl
  · refine { current := ⟨now, hnow, ?_⟩, saved := ?_, holds := ?_, text := ?_, ring := ?_,
             queues := ⟨_, hsim', hrotates'⟩, stacked := ⟨top, ?_, htop⟩, tss := fun _ => htss',
             fresh := h.fresh }
    · rw [hframe', hout, hregs now hnowKnown]
    · exact fun t ht _ => hregs t (hknows t ht)
    · intro t ht
      have hold := h.holds t (hknows t ht)
      exact ⟨(hmem'.mono (h.disjoint_live hcur (hknows t ht))).trans hold.stack, hold.fits, hold.error⟩
    · exact fun t ht => h.text t (hknows t ht)
    · dsimp only
      rw [hidle]
      exact h.ring
    · dsimp only
      rw [hidle]
      exact hstacked'

omit [DecidableEq Q] in
/-- Where the way out leads is off it. -/
theorem Sound.out (h : m.Sound st w) : m.Out w := by
  obtain ⟨cur, hcur, hframe⟩ := h.current
  have hrip : m.cpu.rip = (m.own cur).frame.rip := congrArg Asm.IrqFrame.rip hframe
  unfold Out
  rw [hrip]
  exact h.text cur (h.knows hcur)

omit [DecidableEq Q] in
theorem Settles.leave (h : m.Settles st w) (hleave : m.leave w = .ok m') : m'.Settles st w := by
  obtain ⟨cpu', hresumes, hsound⟩ := h
  obtain ⟨d, hd, hm'⟩ := bind_ok.mp hleave
  cases hm'
  cases hk : w.place m.cpu.rip with
  | none =>
    unfold WayOut.step at hd
    rw [hk] at hd
    cases hd
  | some k =>
    obtain ⟨d', hd', hnext, -⟩ := hresumes.step hk hsound.out
    cases hd'.symm.trans hd
    exact ⟨cpu', hnext, hsound⟩

private theorem settles_of_reachable (h : (unnested st w fuel ret).Reachable m) : m.Settles st w := by
  refine h.invariant (fun m (hm : m.Boots st w) => ⟨m.cpu, .out hm.out, hm.sound⟩) ?_
  rintro m action m' hm ⟨⟨hallowed, hnext⟩, hwaits⟩
  cases action with
  | run cpu =>
    cases hnext
    have hsound := (hm.sound hallowed.1).run hallowed
    exact ⟨_, .out hsound.out, hsound⟩
  | tick clobber =>
    obtain ⟨m'', htick, hm''⟩ := (hm.sound hwaits).tick fuel ret hallowed.2
    cases htick.symm.trans hnext
    exact hm''
  | leave => exact hm.leave hnext
  | create t start =>
    cases hnext
    have hsound := (hm.sound hallowed.1).create hallowed
    exact ⟨_, .out hsound.out, hsound⟩

omit [DecidableEq Q] in
theorem Settles.virtual (h : m.Settles st w) : m.Virtual st w := by
  obtain ⟨cpu', hresumes, hsound⟩ := h
  obtain ⟨cur, hcur, hframe⟩ := hsound.current
  refine ⟨fun cur' hcur' hout => ?_, ⟨cur, cpu', hcur, hresumes.leads hsound.out, hsound.out, hframe⟩,
    hsound.saved, fun t ht => ?_⟩
  · obtain rfl : cur = cur' := Option.some.inj (hcur.symm.trans hcur')
    rw [← hresumes.of_out hout]
    exact hframe
  · rw [← hresumes.mem_eq]
    exact (hsound.holds t ht).stack

/-- The way out is taken without a tick. -/
theorem reachable_leads {cpu : Asm.Cpu} (h : (unnested st w fuel ret).Reachable m)
    (hleads : w.Leads m.cpu cpu) : (unnested st w fuel ret).Reachable { m with cpu := cpu } := by
  induction hleads with
  | refl => exact h
  | @tail c d hc hd ih =>
    refine ih.step (i := .leave) ⟨⟨trivial, ?_⟩, trivial⟩
    show Machine.leave w _ = _
    unfold Machine.leave
    dsimp only
    rw [hd]
    rfl

/-! ## The laws -/

/-- **Preemption is transparent.** In every run in which no tick comes between `eoi(0)` and `iretq`, each
thread has a processor of its own, and a tick gets to `eoi(0)` wherever interrupts are on. -/
theorem preemption_transparent (h : (unnested st w fuel ret).Reachable m) :
    m.Virtual st w ∧ ∀ clobber, m.Allowed st w (.tick clobber) → m.Out w →
      ∃ m', m.next st w fuel ret (.tick clobber) = .ok m' := by
  have hsettles := settles_of_reachable h
  refine ⟨hsettles.virtual, fun clobber hallowed hout => ?_⟩
  obtain ⟨m', htick, -⟩ := (hsettles.sound hout).tick fuel ret hallowed.2
  exact ⟨m', htick⟩

/-- Two stacks of four pages. -/
def twoStacks : Stacks (Fin 2) where
  bottom t := 0x10000 * (t.val + 1)
  top t := BitVec.ofNat 64 (0x10000 * (t.val + 1) + 0x4000)
  room := by decide
  aligned := by decide
  apart := by decide

/-- `kmain` as the idle thread, whose slice is over. -/
def booting : Machine (Fin 2) Unit where
  cpu := ⟨fun _ => 0x13000, 0x1000, 0x08, 0x202, 0x10, 0, 0, 0, fun _ => 0⟩
  sched := (Sched.boot (fun _ => (ThreadBlock.construct 0
    (Asm.Cpu.irqFrame 0 ⟨fun _ => 0, 0, 0, 0, 0, 0, 0, 0, fun _ => 0⟩) ()).updateScheduledTime 0)
    (fun _ => .construct 0 false) 0).construct 0
  added := []
  own _ := ⟨Asm.Cpu.irqFrame 0 ⟨fun _ => 0x13000, 0x1000, 0x08, 0x202, 0x10, 0, 0, 0, fun _ => 0⟩,
    fun _ => 0⟩
  fresh _ := none

/-- A thread for the terminal. -/
def terminal : Start Unit := ⟨(), 0x2000, 0⟩

/-- The functions only return, and the linker has put the code at 0x3000. -/
def straight : WayOut where
  back := Asm.Cpu.ret
  rip k := BitVec.ofNat 64 (0x3000 + k)
  distinct := by decide
  keeps _ := ⟨rfl, rfl, rfl⟩

private theorem reachable_terminal (ret : Word) :
    (unnested twoStacks straight 1 ret).Reachable (booting.create twoStacks 1 terminal) := by
  have hboots : booting.Boots twoStacks straight := by
    refine ⟨⟨0, _, rfl⟩, rfl, by decide, by decide, fun _ => ?_, rfl, fun _ => rfl⟩
    exact ⟨by decide, by decide⟩
  have hnew : ¬ booting.Knows 1 := by
    rintro (h | h)
    · cases h
    · cases h
  have hallowed : booting.Allowed twoStacks straight (.create 1 terminal) :=
    ⟨by decide, by decide, hnew⟩
  exact (System.Reachable.init hboots).step (i := .create 1 terminal) ⟨⟨hallowed, rfl⟩, trivial⟩

private theorem clobbers_id (c : Asm.Cpu) : Clobbers straight c (id c) where
  mem _ _ := rfl
  preserves e he _ := by
    refine ⟨?_, fun x hx => ?_⟩
    · show (Asm.Cpu.set .rsp _ _).reg .rsp = _
      rw [Asm.Cpu.set_self, he]
      rfl
    · show (Asm.Cpu.set .rsp _ _).reg x = _
      rw [Asm.Cpu.set_of_ne (ne_of_mem_of_not_mem hx (by decide)), he]
      rfl

/-- The terminal is constructed, and the next tick comes to `eoi(0)`. -/
theorem preemption_transparent_terminal : ∃ m : Machine (Fin 2) Unit, m.added = [1] ∧
    m.Virtual twoStacks straight ∧ ∃ m', m.next twoStacks straight 1 0 (.tick id) = .ok m' := by
  obtain ⟨hvirtual, htick⟩ := preemption_transparent (reachable_terminal 0)
  exact ⟨_, rfl, hvirtual, htick id ⟨by decide, clobbers_id⟩ (by decide)⟩

/-- **The first time on the processor.** While a thread is current that has not executed yet, and the way
out of the tick is taken, the processor is where the thread was constructed to begin. -/
theorem first_dispatch (h : (unnested st w fuel ret).Reachable m) (hout : m.Out w) {isUser : Bool}
    {start : Start Q} (hfresh : m.fresh t = some (isUser, start))
    (hnow : m.sched.currThread = some t) :
    m.cpu.rip = start.entry ∧ m.cpu.reg .rdi = start.args ∧ m.cpu.rflags = 0x202 ∧
      m.cpu.cs = (if isUser then 0x23 else 0x08) ∧ m.cpu.ss = (if isUser then 0x1B else 0x10) ∧
      (isUser = true → m.cpu.reg .rsp = st.top t) ∧
      (isUser = false → m.cpu.reg .rsp = st.top t - 8 ∧
        (m.cpu.reg .rsp + 8).toNat % 16 = 0 ∧ m.cpu.read (m.cpu.reg .rsp) = 0) := by
  have hsound := (settles_of_reachable h).sound hout
  obtain ⟨hmem, hframe, hslot⟩ := hsound.fresh t _ hfresh
  obtain ⟨cur, hcur, hcpu⟩ := hsound.current
  obtain rfl : cur = t := Option.some.inj (hcur.symm.trans hnow)
  have hregs : m.cpu.irqFrame 0 = start.registers isUser (st.top cur) := hcpu.trans hframe
  have hrsp : m.cpu.reg .rsp = if isUser then st.top cur else st.top cur - 8 :=
    congrArg Asm.IrqFrame.rsp hregs
  refine ⟨congrArg Asm.IrqFrame.rip hregs, congrArg Asm.IrqFrame.rdi hregs,
    congrArg Asm.IrqFrame.rflags hregs, congrArg Asm.IrqFrame.cs hregs, congrArg Asm.IrqFrame.ss hregs,
    fun huser => ?_, fun hkernel => ?_⟩
  · rw [hrsp, huser]
    rfl
  · have hlow : m.cpu.reg .rsp = st.top cur - 8 := by
      rw [hrsp, hkernel]
      rfl
    refine ⟨hlow, ?_, ?_⟩
    · rw [hlow, BitVec.sub_add_cancel]
      exact st.aligned cur
    · unfold Asm.Cpu.read
      rw [hlow, ← hslot hkernel]
      -- the slot is the part of the stack that is in use
      refine load64_congr ((hsound.holds cur (.inr hmem)).stack.mono ?_)
      rintro x ⟨hlo, hhi⟩
      have hroom := st.room cur
      rw [toNat_top_sub] at hhi
      have hring : (0x08 : Word) &&& 3 = 0 := by decide
      rw [hframe, hkernel]
      exact ⟨hring, hlo, by omega⟩

/-- The next tick gives the processor to the terminal, and the way out leads to its entry. -/
theorem first_dispatch_terminal : ∃ m' : Machine (Fin 2) Unit,
    (booting.create twoStacks 1 terminal).next twoStacks straight 1 0 (.tick id) = .ok m' ∧
      ∃ cpu, straight.Leads m'.cpu cpu ∧ cpu.rip = 0x2000 ∧ cpu.reg .rsp = 0x23FF8 := by
  have hreach := reachable_terminal 0
  have hout : (booting.create twoStacks 1 terminal).Out straight := by decide
  obtain ⟨m', htick, hsettles⟩ := ((settles_of_reachable hreach).sound hout).tick 1 0 clobbers_id
  have hnow : ((booting.create twoStacks 1 terminal).sched.pitTick 1
      ((booting.create twoStacks 1 terminal).cpu.irqFrame 0)).map (fun r => r.2.currThread) =
        .ok (some 1) := rfl
  have hreach' : (unnested twoStacks straight 1 0).Reachable m' :=
    hreach.step (i := .tick id) ⟨⟨⟨by decide, clobbers_id⟩, htick⟩, hout⟩
  obtain ⟨-, cpu, -, hleads, hoff, -⟩ := hsettles.virtual.current
  obtain ⟨r, hr, hrest⟩ := bind_ok.mp htick
  obtain ⟨call, -, hrest⟩ := bind_ok.mp hrest
  obtain ⟨e, -, hm'⟩ := bind_ok.mp hrest
  cases hm'
  rw [hr] at hnow
  have hfirst := first_dispatch (t := 1) (reachable_leads hreach' hleads) hoff rfl
    (Except.ok.inj hnow)
  exact ⟨_, htick, cpu, hleads, hfirst.1, (hfirst.2.2.2.2.2.2 rfl).1⟩

/-- **Why no tick may come there.** On the way out interrupts are on. If a tick comes and switches, what is
saved for the thread that was to go on is the way out, not what the thread has made. -/
theorem nested_tick_loses (h : (unnested st w fuel ret).Reachable m) (hin : ¬ m.Out w) :
    m.cpu.rflags.getLsbD 9 = true ∧ ∀ clobber cur, m.sched.currThread = some cur →
      m.next st w fuel ret (.tick clobber) = .ok m' → m'.sched.currThread ≠ some cur →
        (m'.sched.thread cur).registers = m.cpu.irqFrame 0 ∧ ¬ m'.Virtual st w := by
  obtain ⟨cpu', hresumes, hsound⟩ := settles_of_reachable h
  cases hresumes with
  | out ho => exact absurd ho hin
  | leaving hk _ _ hopen =>
  refine ⟨hopen, fun clobber cur hcur htick hswitch => ?_⟩
  obtain ⟨⟨out, s'⟩, hr, hrest⟩ := bind_ok.mp htick
  obtain ⟨call, -, hrest⟩ := bind_ok.mp hrest
  obtain ⟨e, -, hm'⟩ := bind_ok.mp hrest
  cases hm'
  have hregs : (s'.thread cur).registers = m.cpu.irqFrame 0 := by
    rcases Sched.pitTick_saved hr with ⟨hnone, -⟩ | ⟨cur', now, hcur', -, -, hsaved⟩
    · cases hcur.symm.trans hnone
    · obtain rfl : cur = cur' := Option.some.inj (hcur.symm.trans hcur')
      exact (congrFun hsaved cur).trans (Function.update_self ..)
  refine ⟨hregs, fun hvirtual => ?_⟩
  have hknows : Knows { m with cpu := e, sched := s' } cur := by
    obtain ⟨a, hsim, hrotates⟩ := hsound.queues
    obtain ⟨top, hstacked, -⟩ := hsound.stacked
    obtain ⟨_, _, hr', hticked, -⟩ := Sched.pitTick_rotates fuel hsim hrotates (m.cpu.irqFrame 0)
    cases hr'.symm.trans hr
    unfold Knows
    rw [show s'.idleThread = m.sched.idleThread from (hticked.stacked top hstacked).idleThread]
    exact hsound.knows hcur
  have heq : (s'.thread cur).registers = (m.own cur).frame := hvirtual.saved cur hknows hswitch
  -- the thread has never been on the way out
  have htext : w.place (m.own cur).frame.rip = none := hsound.text cur (hsound.knows hcur)
  have hrip : m.cpu.rip = (m.own cur).frame.rip :=
    congrArg Asm.IrqFrame.rip (hregs.symm.trans heq)
  rw [← hrip, hk] at htext
  cases htext

end Machine

end Preempt

end TwoKernel
