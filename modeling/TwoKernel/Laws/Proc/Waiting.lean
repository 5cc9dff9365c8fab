import TwoKernel.Laws.Proc.Partition
import TwoKernel.Laws.Proc.RoundRobin
import TwoKernel.Lib.Turns

/-!
# No ready thread starves

The scheduler serves its ready queue in turns (`Lib.Turns`), with the default quantum
of a hundred ticks. A turn ends early when the budget of the thread is spent, or when
the thread yields, sleeps or blocks; woken threads join at the end. While somebody is
ready nobody is let in ahead: `unblock` gives the processor away at once only over an
empty ready queue. Budgets can be set to anything and at any time (`Use.update`): they
end turns early, and never late.

**The law** (`no_starvation`): a thread at place `i` of the ready queue has the
processor before `100 * (i + 1)` ticks are over, whatever calls are made in between
and whatever budgets the threads have, and until then it keeps its place or moves up.

The law needs less than the partition law. A tick that loses the current thread keeps
everybody else in order, so here the threads that are lost are taken out of the list
of those handed over, and the invariant of fair runs is used for the rest. A `yield`
with nobody ready is excluded: it links the caller twice.
-/

namespace TwoKernel

attribute [local instance] neZero_three

variable {P Q F : Type} [DecidableEq P] [DecidableEq Q]

/-! ## The system -/

namespace Roster

/-- The calls that are looked at: a thread is handed over while there is fuel for it, the clock has
not come to its end, and somebody is ready when the current thread yields. -/
def Prompt (fuel : Nat) (x : Roster P Q F) : Call P F → Prop
  | .add _ => x.added.length < fuel
  | .tick _ => (x.sched.tick.toNat + 1) * 1000 < 2 ^ 64
  | .yield => x.sched.readyThreads.empty = false
  | _ => True

instance (fuel : Nat) (x : Roster P Q F) : (c : Call P F) → Decidable (x.Prompt fuel c)
  | .add _ => inferInstanceAs (Decidable (x.added.length < fuel))
  | .tick _ => inferInstanceAs (Decidable ((x.sched.tick.toNat + 1) * 1000 < 2 ^ 64))
  | .yield => inferInstanceAs (Decidable (x.sched.readyThreads.empty = false))
  | .sleep _ | .block | .unblock _ => inferInstanceAs (Decidable True)

/-- A call, or a new budget. -/
def use (fuel : Nat) (x : Roster P Q F) : Use P F → Outcome (Roster P Q F)
  | .call c => x.next fuel c
  | .update t ms => .ok ⟨x.added, x.sched.mapCore (·.modify t (·.updateScheduledTime ms))⟩

/-- Any thread may get any budget. -/
def MayUse (fuel : Nat) (x : Roster P Q F) : Use P F → Prop
  | .call c => x.Allowed fuel c ∧ x.Prompt fuel c
  | .update _ _ => True

instance (fuel : Nat) (x : Roster P Q F) : (u : Use P F) → Decidable (x.MayUse fuel u)
  | .call c => inferInstanceAs (Decidable (x.Allowed fuel c ∧ x.Prompt fuel c))
  | .update _ _ => inferInstanceAs (Decidable True)

/-- The runs from `Schedule(idle)` with such calls and budgets. -/
def timed (fuel : Nat) : System (Roster P Q F) (Use P F) :=
  .guarded (fun x => ∃ idle s, x = ⟨[], Sched.construct idle s⟩) (MayUse fuel) (use fuel)

end Roster

def Call.ticks : Call P F → Nat
  | .tick _ => 1
  | _ => 0

def Use.ticks : Use P F → Nat
  | .call c => c.ticks
  | .update _ _ => 0

/-! ## Turns of the scheduler -/

namespace Core

variable (c : Core P Q F) (t u : P)

omit [DecidableEq Q]

/-- Only `switch_task` begins a slice. -/
theorem modify_execStartMs (f : ThreadBlock Q F → ThreadBlock Q F)
    (hf : ∀ b, (f b).execStartMs = b.execStartMs) :
    ((c.modify t f).thread u).execStartMs = (c.thread u).execStartMs := by
  rw [modify_thread]
  split
  · next h => rw [h, hf]
  · rfl

private theorem setState_execStartMs (st : ThreadState) :
    ((c.setState t st).thread u).execStartMs = (c.thread u).execStartMs :=
  modify_execStartMs c t u _ fun _ => rfl

private theorem markReady_execStartMs :
    ((c.markReady t).thread u).execStartMs = (c.thread u).execStartMs :=
  (modify_execStartMs (c.setState t .ready) t u ThreadBlock.resetScheduledTime fun _ => rfl).trans
    (setState_execStartMs c t u .ready)

private theorem markWoken_execStartMs :
    ((c.markWoken t).thread u).execStartMs = (c.thread u).execStartMs :=
  modify_execStartMs c t u _ fun _ => rfl

private theorem countDown_execStartMs :
    ((c.countDown t).thread u).execStartMs = (c.thread u).execStartMs := by
  refine modify_execStartMs c t u _ fun b => ?_
  split
  · rfl
  · rfl

private theorem saveFrame_execStartMs (frame : F) :
    ((c.saveFrame t frame).thread u).execStartMs = (c.thread u).execStartMs :=
  modify_execStartMs c t u _ fun _ => rfl

end Core

namespace Queued

variable {a b : Queued P Q F} {t u next : P} {rest l : List P}

/-- The milliseconds of the slice so far. -/
def elapsed (a : Queued P Q F) : Nat := (a.toCore.delta a.cur).toNat

def turns (a : Queued P Q F) : Turns P := ⟨a.cur, a.elapsed, a.ready⟩

omit [DecidableEq P] [DecidableEq Q] in
/-- The slice is measured by the clock, the current thread and when its slice began. -/
theorem elapsed_congr (htick : b.tick = a.tick) (hcur : b.cur = a.cur)
    (hstart : (b.thread a.cur).execStartMs = (a.thread a.cur).execStartMs) :
    b.elapsed = a.elapsed := by
  unfold elapsed Core.delta Core.getTimeMilliseconds
  rw [htick, hcur, hstart]

omit [DecidableEq P] [DecidableEq Q] in
theorem elapsed_start (hstart : (a.thread a.cur).execStartMs = a.toCore.getTimeMilliseconds) :
    a.elapsed = 0 := by
  unfold elapsed Core.delta
  rw [hstart, BitVec.sub_self]
  rfl

omit [DecidableEq Q] in
/-- Handing a thread over does not begin a slice. -/
theorem addReadyThreads_execStartMs :
    ((a.addReadyThreads t).thread u).execStartMs = (a.thread u).execStartMs := by
  unfold addReadyThreads
  split
  · exact a.toCore.setState_execStartMs t u .ready
  · exact a.toCore.markReady_execStartMs t u

omit [DecidableEq Q] in
theorem addReadyThreads_turns : (a.addReadyThreads t).turns = ⟨a.cur, a.elapsed, a.ready ++ [t]⟩ := by
  unfold turns
  rw [addReadyThreads_cur, addReadyThreads_ready, elapsed_congr (a.addReadyThreads_tick t)
    (a.addReadyThreads_cur t) addReadyThreads_execStartMs]

/-- A switch begins a slice. -/
theorem switchTask_elapsed : (a.switchTask next).elapsed = 0 := by
  apply elapsed_start
  rw [switchTask_cur]
  unfold switchTask Core.getTimeMilliseconds
  dsimp only [mapCore]
  rw [Core.dispatch_thread, if_pos rfl, Core.dispatch_tick]
  rfl

/-- **`schedule()`** with somebody ready gives the first one its turn. -/
theorem switchNow_turns (h : a.ready = next :: rest) :
    ∃ l, a.switchNow.turns = ⟨next, 0, rest ++ l⟩ := by
  unfold turns
  rw [switchNow_cons a next h, switchTask_elapsed, switchTask_cur, switchTask_ready, popped_ready]
  split
  · exact ⟨_, rfl⟩
  · exact ⟨[], by rw [List.append_nil]⟩

private theorem switchNow_elapsed : a.switchNow.elapsed = 0 := by
  cases h : a.ready with
  | nil => rw [switchNow_nil a h, switchTask_elapsed]
  | cons next rest => rw [switchNow_cons a next h, switchTask_elapsed]

/-- A call that queues or parks the current thread, and then switches, gives the first one its turn. -/
theorem step_of_switchNow (hready : a.ready ≠ [] → ∃ l, b.ready = a.ready ++ l) {n : Nat} (hn : n ≤ 1) :
    Turns.Step 100 a.turns n b.switchNow.turns := by
  unfold turns
  cases hr : a.ready with
  | nil =>
    refine .free _ _ _ _ _ _ ?_
    rw [switchNow_elapsed]
    decide
  | cons next rest =>
    obtain ⟨l, hl⟩ := hready (by rw [hr]; exact List.cons_ne_nil _ _)
    rw [hr, List.cons_append] at hl
    obtain ⟨l', hl'⟩ := switchNow_turns hl
    unfold turns at hl'
    rw [hl', List.append_assoc]
    exact .turn _ _ _ _ _ _ hn

private theorem yieldNow_step : Turns.Step 100 a.turns 0 a.yieldNow.turns :=
  step_of_switchNow (fun _ => ⟨_, rfl⟩) (Nat.zero_le 1)

private theorem sleepNow_step (milli : Word) : Turns.Step 100 a.turns 0 (a.sleepNow milli).turns :=
  step_of_switchNow (a := a) (b := (a.mapCore (·.markSleep a.cur milli)).pushWaiting a.cur)
    (fun _ => ⟨[], (List.append_nil _).symm⟩) (Nat.zero_le 1)

private theorem blockNow_step : Turns.Step 100 a.turns 0 a.blockNow.turns :=
  step_of_switchNow (a := a) (b := (a.mapCore (·.setState a.cur .blocked)).pushWaiting a.cur)
    (fun _ => ⟨[], (List.append_nil _).symm⟩) (Nat.zero_le 1)

/-! ## Waking -/

omit [DecidableEq Q] in
theorem release_elapsed : (a.release t).elapsed = a.elapsed :=
  elapsed_congr rfl rfl (a.toCore.markWoken_execStartMs t a.cur)

/-- A woken thread joins at the end, unless idle has the processor and nobody is ready. -/
theorem wake_turns : (∃ l, (a.wake t).turns = ⟨a.cur, a.elapsed, a.ready ++ l⟩) ∨
    a.ready = [] ∧ (a.wake t).elapsed = 0 := by
  by_cases hi : a.Idling
  · rw [a.wake_idling t hi, switchTask_elapsed]
    exact .inr ⟨hi.1, rfl⟩
  · rw [a.wake_busy t hi]
    refine .inl ⟨[t], ?_⟩
    unfold turns
    rw [← release_elapsed (a := a) (t := t)]
    rfl

private theorem wake_step : Turns.Step 100 a.turns 0 (a.wake t).turns := by
  rcases wake_turns (a := a) (t := t) with ⟨l, hl⟩ | ⟨hr, hzero⟩
  · rw [hl]
    exact .join _ _ _ _
  · unfold turns
    rw [hr, hzero]
    exact .free _ _ _ _ _ _ (by decide)

omit [DecidableEq Q] in
theorem countDown_elapsed : (a.mapCore (·.countDown t)).elapsed = a.elapsed :=
  elapsed_congr rfl rfl (a.toCore.countDown_execStartMs t a.cur)

private theorem visit_turns : (∃ l, (a.visit t).turns = ⟨a.cur, a.elapsed, a.ready ++ l⟩) ∨
    a.ready = [] ∧ ((a.visit t).elapsed = 0) := by
  have hsame : ∃ l, a.turns = ⟨a.cur, a.elapsed, a.ready ++ l⟩ := ⟨[], by rw [List.append_nil]; rfl⟩
  have hdown : (a.mapCore (·.countDown t)).turns = a.turns := by
    unfold turns
    rw [countDown_elapsed]
    rfl
  unfold visit
  split
  · exact .inl hsame
  · split
    · have hwake := wake_turns (a := a.mapCore (·.countDown t)) (t := t)
      rw [countDown_elapsed] at hwake
      exact hwake
    · rw [hdown]
      exact .inl hsame

/-- The sleeper loop: threads join at the end, and if nobody was ready a slice may begin. -/
theorem visitAll_turns : (∃ l', (a.visitAll l).turns = ⟨a.cur, a.elapsed, a.ready ++ l'⟩) ∨
    a.ready = [] ∧ (a.visitAll l).elapsed = 0 := by
  induction l generalizing a with
  | nil => exact .inl ⟨[], by rw [List.append_nil]; rfl⟩
  | cons t l ih =>
    show (∃ l', ((a.visit t).visitAll l).turns = _) ∨ _ ∧ ((a.visit t).visitAll l).elapsed = 0
    rcases visit_turns (a := a) (t := t) with ⟨l₁, h₁⟩ | ⟨hr, h₁⟩
    · obtain ⟨hcur, hel, hready⟩ := Turns.mk.inj h₁
      rcases ih (a := a.visit t) with ⟨l₂, h₂⟩ | ⟨hr₂, h₂⟩
      · rw [hcur, hel, hready, List.append_assoc] at h₂
        exact .inl ⟨_, h₂⟩
      · rw [hready] at hr₂
        exact .inr ⟨(List.append_eq_nil_iff.mp hr₂).1, h₂⟩
    · -- a slice that begins in the loop has no ticks yet
      refine .inr ⟨hr, ?_⟩
      rcases ih (a := a.visit t) with ⟨l₂, h₂⟩ | ⟨-, h₂⟩
      · exact (Turns.mk.inj h₂).2.1.trans h₁
      · exact h₂

/-! ## A tick -/

omit [DecidableEq Q] in
theorem charge_elapsed (frame : F) (h : a.elapsed < 100) (ht : (a.tick.toNat + 1) * 1000 < 2 ^ 64) :
    (a.charge frame).elapsed = a.elapsed + 1 := by
  have hone : (a.tick + 1).toNat = a.tick.toNat + 1 := by
    have h1 : (1 : Word).toNat = 1 := rfl
    rw [BitVec.toNat_add, h1, Nat.mod_eq_of_lt (by omega)]
  have hnow : a.toCore.getTimeMilliseconds = a.tick := Core.getTimeMilliseconds_eq
    (Nat.lt_of_le_of_lt (Nat.mul_le_mul_right 1000 (Nat.le_succ _)) ht)
  have htick : (a.charge frame).tick = a.tick + 1 := rfl
  have hnext : (a.charge frame).toCore.getTimeMilliseconds = a.tick + 1 := by
    rw [Core.getTimeMilliseconds_eq, htick]
    rw [htick, hone]
    exact ht
  have hstart : ((a.charge frame).thread a.cur).execStartMs = (a.thread a.cur).execStartMs :=
    a.toCore.increaseTick.saveFrame_execStartMs a.cur a.cur frame
  have hcur : (a.charge frame).cur = a.cur := rfl
  unfold elapsed Core.delta at h ⊢
  rw [hnow] at h ⊢
  rw [hcur, hnext, hstart]
  bv_omega

/-- **A tick**: one more of the turn, or the next turn begins. -/
theorem tickNow_step (frame : F) (h : a.elapsed < 100) (ht : (a.tick.toNat + 1) * 1000 < 2 ^ 64) :
    Turns.Step 100 a.turns 1 (a.tickNow frame).turns := by
  have hcharge := charge_elapsed frame h ht
  have hmid := visitAll_turns (a := a.charge frame) (l := a.waiting)
  rw [hcharge] at hmid
  unfold tickNow
  generalize (a.charge frame).visitAll a.waiting = m at hmid
  have hready : a.ready ≠ [] → ∃ l, m.ready = a.ready ++ l := by
    intro hne
    obtain ⟨l, hl⟩ := hmid.resolve_right fun hr => hne hr.1
    exact ⟨l, (Turns.mk.inj hl).2.2⟩
  by_cases hover : m.toCore.SliceOver m.cur
  · rcases endSlice_of_over hover with he | he
    · rw [he]
      exact step_of_switchNow hready (Nat.le_refl 1)
    · rw [he]
      exact step_of_switchNow (b := m.mapCore (·.setQuantumPast true)) hready (Nat.le_refl 1)
  · rw [endSlice_of_not_over hover]
    -- the slice test does not let a turn take a hundred ticks
    have hne : m.elapsed ≠ 100 := fun he =>
      hover (.inr (BitVec.eq_of_toNat_eq he))
    rcases hmid with ⟨l, hl⟩ | ⟨hr, hzero⟩
    · have hel : m.elapsed = a.elapsed + 1 := (Turns.mk.inj hl).2.1
      rw [hl]
      exact .tick _ _ _ _ (by omega)
    · have hr : a.ready = [] := hr
      unfold turns
      rw [hr]
      exact .free _ _ _ _ _ _ (by omega)

/-- A tick that loses the current thread leaves the others in their places. -/
theorem Placed.endSlice_others {known : List P} (h : a.Placed known) (hd : a.Drops) (i : Bool) :
    (a.endSlice.withLock (.unlocked i)).Placed (known.filter (· ≠ a.cur)) := by
  have hout := h.out.endSlice
  refine ⟨⟨i, rfl⟩, ⟨hout.ready, hout.waiting⟩, fun t ht => ?_, fun hm => ?_⟩
  · have ht : t ≠ a.idleThread := by rwa [← endSlice_idleThread]
    have hp := endSlice_places t h.cur_not_ready ht
    rw [h.place t ht] at hp
    show a.endSlice.places t = _
    by_cases hc : a.cur = t
    · have hmem : t ∈ known := by
        rw [← hc]
        exact h.mem_added hd.2.1 (by simp [places])
      rw [if_pos ⟨hd, hc⟩, if_pos hmem] at hp
      rw [if_neg (by simp [hc])]
      omega
    · rw [if_neg fun hdc => hc hdc.2] at hp
      have hiff : t ∈ known.filter (· ≠ a.cur) ↔ t ∈ known := by
        simp [List.mem_filter, Ne.symm hc]
      simp only [hiff]
      exact hp
  · have hm : a.endSlice.idleThread ∈ known.filter (· ≠ a.cur) := hm
    rw [endSlice_idleThread] at hm
    exact h.idle (List.mem_filter.mp hm).1

end Queued

/-! ## Runs -/

namespace Roster

open Queued

variable {x x' : Roster P Q F} {a : Queued P Q F} {known : List P} {fuel : Nat} {c : Call P F}

/-- The invariant: the queues are those of `a`, in order for the threads `known`, which are those
handed over and not lost; and the slice of the current thread is not over. -/
structure Live (fuel : Nat) (x : Roster P Q F) (a : Queued P Q F) (known : List P) : Prop where
  sim : Sim x.sched a
  placed : a.Placed known
  handed : known ⊆ x.added
  count : known.length ≤ x.added.length
  fuel : x.added.length ≤ fuel
  within : a.elapsed < 100

/-- **One call** returns, keeps the invariant, and is a step of turns. -/
theorem Live.next (h : x.Live fuel a known) (hc : x.Allowed fuel c) (hp : x.Prompt fuel c) :
    ∃ x' a' known', x.next fuel c = .ok x' ∧ x'.Live fuel a' known' ∧
      Turns.Step 100 a.turns c.ticks a'.turns := by
  have hlen : a.waiting.length ≤ fuel :=
    Nat.le_trans (Nat.le_trans h.placed.waiting_length h.count) h.fuel
  have hc := hc.expects h.sim hlen h.handed
  obtain ⟨s', hs', h'⟩ := exec_after h.sim h.placed hlen hc
  -- what is left for each call
  have hnext : ∀ {known'}, (after a c).Placed known' → known' ⊆ c.added x.added →
      known'.length ≤ (c.added x.added).length → (c.added x.added).length ≤ fuel →
      Turns.Step 100 a.turns c.ticks (after a c).turns →
      ∃ x' a' known', x.next fuel c = .ok x' ∧ x'.Live fuel a' known' ∧
        Turns.Step 100 a.turns c.ticks a'.turns := by
    intro known' hplaced hsub hcount hfuel hstep
    refine ⟨⟨c.added x.added, s'⟩, after a c, known', ?_, ⟨h', hplaced, hsub, hcount, hfuel, ?_⟩, hstep⟩
    · simp only [Roster.next, hs', ok_bind, pure_eq_ok]
    · exact hstep.used_lt h.within
  cases c with
  | add t =>
    refine hnext (h.placed.addReadyThreads hc.1 hc.2) (List.cons_subset_cons t h.handed)
      (Nat.succ_le_succ h.count) hp ?_
    show Turns.Step 100 a.turns _ (a.addReadyThreads t).turns
    rw [addReadyThreads_turns]
    exact .join _ _ _ _
  | yield =>
    have hready : a.ready ≠ [] := by
      rw [Ne, ← h.sim.empty_iff]
      exact Bool.eq_false_iff.mp hp
    exact hnext (h.placed.yieldNow hc hready true) h.handed h.count h.fuel yieldNow_step
  | sleep milli =>
    exact hnext (h.placed.sleepNow hc milli true) h.handed h.count h.fuel (sleepNow_step milli)
  | block => exact hnext (h.placed.blockNow hc true) h.handed h.count h.fuel blockNow_step
  | unblock t => exact hnext (h.placed.wake hc true) h.handed h.count h.fuel wake_step
  | tick frame =>
    have hmid := (h.placed.charge frame).visitAll
    have htick : x.sched.tick = a.tick := by rw [h.sim.core]
    have hstep : Turns.Step 100 a.turns 1 (a.tickNow frame).turns :=
      tickNow_step frame h.within (htick ▸ hp)
    by_cases hd : ((a.charge frame).visitAll a.waiting).Drops
    · exact hnext (hmid.endSlice_others hd true) (fun t ht => h.handed (List.mem_filter.mp ht).1)
        (Nat.le_trans (List.length_filter_le _ _) h.count) h.fuel hstep
    · exact hnext (hmid.endSlice hd true) h.handed h.count h.fuel hstep

omit [DecidableEq Q] in
/-- A budget is not looked at before a tick. -/
theorem Live.update (h : x.Live fuel a known) (t : P) (ms : Word) :
    ∃ a', Live fuel ⟨x.added, x.sched.mapCore (·.modify t (·.updateScheduledTime ms))⟩ a' known ∧
      a'.turns = a.turns := by
  have hstart : ((a.toCore.modify t (·.updateScheduledTime ms)).thread a.cur).execStartMs =
      (a.thread a.cur).execStartMs := a.toCore.modify_execStartMs t a.cur _ fun _ => rfl
  have hturns : (a.mapCore (·.modify t (·.updateScheduledTime ms))).turns = a.turns := by
    unfold turns
    rw [elapsed_congr (a := a) (b := a.mapCore (·.modify t (·.updateScheduledTime ms))) rfl rfl hstart]
    rfl
  have hplaced : (a.mapCore (·.modify t (·.updateScheduledTime ms))).Placed known :=
    h.placed.moved h.placed.unlocked ⟨h.placed.out.ready, h.placed.out.waiting⟩ rfl
      fun _ _ => rfl
  refine ⟨_, ⟨h.sim.mapCore _ h.sim.live, hplaced, h.handed, h.count, h.fuel, ?_⟩, hturns⟩
  rw [show Queued.elapsed _ = a.elapsed from congrArg Turns.used hturns]
  exact h.within

/-- **One step** of a run returns, keeps the invariant, and is a step of turns. -/
theorem Live.use {u : Use P F} (h : x.Live fuel a known) (hu : x.MayUse fuel u) :
    ∃ x' a' known', x.use fuel u = .ok x' ∧ x'.Live fuel a' known' ∧
      Turns.Step 100 a.turns u.ticks a'.turns := by
  cases u with
  | call c => exact h.next hu.1 hu.2
  | update t ms =>
    obtain ⟨a', hlive, hturns⟩ := h.update t ms
    refine ⟨_, a', known, rfl, hlive, ?_⟩
    rw [hturns]
    have hnobody : a.turns = ⟨a.cur, a.elapsed, a.ready ++ []⟩ := by
      rw [List.append_nil]
      rfl
    nth_rewrite 2 [hnobody]
    exact .join _ _ _ _

private theorem live_of_timed (h : (timed fuel).Reachable x) : ∃ a known, x.Live fuel a known := by
  refine System.Reachable.invariant (I := fun x : Roster P Q F => ∃ a known, x.Live fuel a known)
    ?_ ?_ h
  · rintro x ⟨idle, s, rfl⟩
    obtain ⟨a, hsim, hplaced⟩ := construct_sim idle s
    have hcur : a.cur = idle := Option.some.inj (hsim.curr_eq.symm.trans rfl)
    have hzero : a.elapsed = 0 := by
      apply elapsed_start
      rw [hcur, ← hsim.core]
      show ((Core.enter idle (Core.setState idle .running _)).thread idle).execStartMs = _
      rw [Core.enter_thread, if_pos rfl]
      rfl
    exact ⟨a, [], hsim, hplaced, List.nil_subset _, Nat.le_refl _, Nat.zero_le _, by omega⟩
  · intro x u x' hx hstep
    obtain ⟨a, known, hx⟩ := hx
    obtain ⟨x'', a', known', hx'', hlive, -⟩ := hx.use hstep.1
    cases hstep.2.symm.trans hx''
    exact ⟨a', known', hlive⟩

/-- **No ready thread starves.** In every state of a run let `t` be at place `i` of the ready queue.
However the run goes on while `t` does not get the processor, fewer than `100 * (i + 1)` ticks go
by; `t` is ready all the time, at place `i` or ahead of it; and the next tick returns. -/
theorem no_starvation (h : (timed fuel).Reachable x) {r : List P} {t : P} {i n : Nat}
    (hr : x.sched.readyThreads.Represents x.sched.hook r) (hi : r[i]? = some t)
    (hrun : (timed fuel).Within Use.ticks (fun y => y.sched.currThread ≠ some t) x n x') :
    n < 100 * (i + 1) ∧
    (∃ r' j, x'.sched.readyThreads.Represents x'.sched.hook r' ∧ j ≤ i ∧ r'[j]? = some t) ∧
    ∀ frame, x'.Prompt fuel (.tick frame) → ∃ x'', x'.next fuel (.tick frame) = .ok x'' := by
  obtain ⟨a, known, hlive⟩ := live_of_timed h
  cases hr.unique hlive.sim.ready
  -- what is left to wait pays for the ticks of the run
  obtain ⟨k, hk, a', known', j, hlive', hj, hat, rfl⟩ := hrun.spend
    (fun y k => ∃ a known j, y.Live fuel a known ∧ j ≤ i ∧ a.ready[j]? = some t ∧
      k = a.turns.left 100 j)
    (fun y u y' k _ hleft hstep hcur => by
      obtain ⟨a, known, j, hlive, hj, hat, rfl⟩ := hleft
      obtain ⟨y'', a', known', hnext, hlive', hturn⟩ := hlive.use hstep.1
      cases hstep.2.symm.trans hnext
      rcases hturn.spend hlive.within hat with hnow | ⟨j', hj', hat', hle⟩
      · exact absurd (hlive'.sim.curr_eq.trans (congrArg some hnow)) hcur
      · exact ⟨_, hle, a', known', j', hlive', Nat.le_trans hj' hj, hat', rfl⟩)
    h ⟨a, known, i, hlive, Nat.le_refl i, hi, rfl⟩
  refine ⟨?_, ⟨a'.ready, j, hlive'.sim.ready, hj, hat⟩, fun frame hp => ?_⟩
  · have hwithin := hlive'.within
    unfold Turns.left turns at hk
    dsimp only at hk
    omega
  · obtain ⟨x'', -, -, hnext, -⟩ := hlive'.next (c := .tick frame) trivial hp
    exact ⟨x'', hnext⟩

/-- Idle's slice ends, and the next thread gets a longer one. -/
def longTurn : List (Use (Fin 3) Unit) :=
  List.replicate 6 (.call (.tick ())) ++ [.update 1 9] ++ List.replicate 7 (.call (.tick ()))

/-- A step of a run in which a thread waits. -/
def waitStep (t : Fin 3) (x : Roster (Fin 3) Unit Unit) (u : Use (Fin 3) Unit) :
    Option (Roster (Fin 3) Unit Unit) :=
  (System.attempt (MayUse 2) (use 2) x u).filter (·.sched.currThread ≠ some t)

private theorem waitStep_eq_some {t : Fin 3} {x x' : Roster (Fin 3) Unit Unit} {u : Use (Fin 3) Unit}
    (h : waitStep t x u = some x') : (timed 2).step x u x' ∧ x'.sched.currThread ≠ some t := by
  obtain ⟨hstep, hcur⟩ := Option.filter_eq_some_iff.mp h
  exact ⟨System.attempt_eq_some hstep, of_decide_eq_true hcur⟩

/-- The second of two ready threads waits for thirteen ticks in that run, and is still to come. -/
theorem no_starvation_longTurn : ∃ x x' : Roster (Fin 3) Unit Unit, (timed 2).Reachable x ∧
    x.sched.readyThreads.Represents x.sched.hook [1, 2] ∧
    (timed 2).Within Use.ticks (fun y => y.sched.currThread ≠ some 2) x 13 x' ∧
    x'.sched.currThread = some 1 ∧
    (∃ r j, x'.sched.readyThreads.Represents x'.sched.hook r ∧ j ≤ 1 ∧ r[j]? = some 2) ∧
    ∃ x'', x'.next 2 (.tick ()) = .ok x'' := by
  let one : Roster (Fin 3) Unit Unit := ⟨[1], trio.sched.addReadyThreads 1⟩
  let two : Roster (Fin 3) Unit Unit := ⟨[2, 1], one.sched.addReadyThreads 2⟩
  have htwo : (timed 2).Reachable two :=
    (((.init ⟨0, _, rfl⟩ : (timed 2).Reachable trio).step (i := .call (.add 1))
      ⟨⟨by decide, by decide⟩, rfl⟩ : (timed 2).Reachable one)).step (i := .call (.add 2))
      ⟨⟨by decide, by decide⟩, rfl⟩
  have hready : two.sched.readyThreads.Represents two.sched.hook [1, 2] :=
    SingleDeque.pushTail_represents (l := [1])
      (SingleDeque.pushTail_represents (SingleDeque.represents_nil _) List.not_mem_nil) (by decide)
  have hlong : (longTurn.foldlM (waitStep 2) two).map (fun x => (x.sched.currThread, x.sched.tick)) =
      some (some 1, 13) := by decide +kernel
  obtain ⟨x', hx', hobs⟩ := Option.map_eq_some_iff.mp hlong
  obtain ⟨hcur, htick⟩ := Prod.mk.inj hobs
  have hrun : (timed 2).Within Use.ticks (fun y => y.sched.currThread ≠ some 2) two 13 x' :=
    System.Within.foldlM (fun _ _ _ => waitStep_eq_some) longTurn .refl hx'
  obtain ⟨-, hwaits, hreturns⟩ := no_starvation htwo hready (i := 1) rfl hrun
  have hprompt : x'.Prompt 2 (.tick ()) := by
    show (x'.sched.tick.toNat + 1) * 1000 < 2 ^ 64
    rw [htick]
    decide
  exact ⟨two, x', htwo, hready, hrun, hcur, hwaits, hreturns () hprompt⟩

end Roster

end TwoKernel
