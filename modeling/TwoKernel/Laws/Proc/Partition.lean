import Mathlib.Data.List.Perm.Subperm
import TwoKernel.Laws.Proc.Places
import TwoKernel.Laws.Proc.Queued
import TwoKernel.Proc.Calls

/-!
# Every thread is in exactly one place

The partition law of the scheduler: over a run that hands threads over, ticks,
and calls the scheduler from the running thread, each thread handed over is
current, or linked once in one of the two queues, and idle is linked nowhere.

The source does not keep the law on every run. A thread that `unblock` or the
timer gives the processor while idle has it is never marked Running, so the
next end of its slice does not queue it again and it is gone. A `yield` with
nobody else ready queues the caller, pops it, and queues it once more while it
runs. `Fair` excludes exactly these two steps, and under it the law holds and
every call returns; the first step that is not fair breaks it.
-/

namespace TwoKernel

attribute [local instance] neZero_two neZero_three

variable {P Q F : Type} [DecidableEq P] [DecidableEq Q]

/-- A scheduler, and the threads handed to it so far. -/
structure Roster (P Q F : Type) where
  added : List P
  sched : Sched P Q F

namespace Roster

/-- **The partition law.** Both queues are chains that end at their tail, idle is in neither, and
each thread handed over is in one place. -/
def Partition (x : Roster P Q F) : Prop :=
  ∃ w r : List P, x.sched.waitingQueue.Represents x.sched.hook w ∧
    x.sched.readyThreads.Represents x.sched.hook r ∧
    x.sched.idleThread ∉ w ∧ x.sched.idleThread ∉ r ∧
    ∀ t ∈ x.added, (if x.sched.currThread = some t then 1 else 0) + r.count t + w.count t = 1

/-- What a caller may do: hand over a new thread, call from a running thread that is not idle, and
unblock a thread that waits. -/
def Allowed (fuel : Nat) (x : Roster P Q F) : Call P F → Prop
  | .add t => t ∉ x.added ∧ t ≠ x.sched.idleThread
  | .tick _ => True
  | .yield | .sleep _ | .block => x.sched.currThread ≠ some x.sched.idleThread
  | .unblock t => t ∈ x.sched.waitingThreads fuel

instance (fuel : Nat) (x : Roster P Q F) : (c : Call P F) → Decidable (x.Allowed fuel c)
  | .add t => inferInstanceAs (Decidable (t ∉ x.added ∧ t ≠ x.sched.idleThread))
  | .tick _ => inferInstanceAs (Decidable True)
  | .yield | .sleep _ | .block =>
    inferInstanceAs (Decidable (x.sched.currThread ≠ some x.sched.idleThread))
  | .unblock t => inferInstanceAs (Decidable (t ∈ x.sched.waitingThreads fuel))

def next (fuel : Nat) (x : Roster P Q F) (c : Call P F) : Outcome (Roster P Q F) := do
  let s ← c.exec fuel x.sched
  return ⟨c.added x.added, s⟩

/-- The runs from `Schedule(idle)`, over any heap. -/
def runs (fuel : Nat) : System (Roster P Q F) (Call P F) :=
  .guarded (fun x => ∃ idle s, x = ⟨[], Sched.construct idle s⟩) (Allowed fuel) (next fuel)

/-- A tick that does not end the slice of a current thread that is not Running. Idle's successor
is such a thread from the moment it is woken, with the whole of its budget. -/
def FairTick (fuel : Nat) (s : Sched P Q F) : Prop :=
  if s.currThread = some s.idleThread then
    s.readyThreads.empty = true → ∀ t ∈ s.toCore.firstDue (s.waitingThreads fuel),
      (s.thread t).scheduledTime ≠ 0
  else
    ∀ t ∈ s.currThread, (s.thread t).state ≠ .running → ¬ s.toCore.increaseTick.SliceOver t

/-- The steps that keep the law. -/
def Fair (fuel : Nat) (x : Roster P Q F) : Call P F → Prop
  | .yield => x.sched.readyThreads.empty = false
  | .tick _ => FairTick fuel x.sched
  | _ => True

instance (fuel : Nat) (s : Sched P Q F) : Decidable (FairTick fuel s) :=
  inferInstanceAs (Decidable (if s.currThread = some s.idleThread then
    s.readyThreads.empty = true → ∀ t ∈ s.toCore.firstDue (s.waitingThreads fuel),
      (s.thread t).scheduledTime ≠ 0
  else
    ∀ t ∈ s.currThread, (s.thread t).state ≠ .running → ¬ s.toCore.increaseTick.SliceOver t))

instance (fuel : Nat) (x : Roster P Q F) : (c : Call P F) → Decidable (x.Fair fuel c)
  | .yield => inferInstanceAs (Decidable (_ = _))
  | .tick _ => inferInstanceAs (Decidable (FairTick fuel x.sched))
  | .add _ | .sleep _ | .block | .unblock _ => .isTrue trivial

end Roster

/-! ## The law over lists -/

namespace Queued

variable {a b : Queued P Q F} {added : List P} {t u : P}

/-- The invariant of a fair run: nobody holds the lock, idle is out, and a thread is in one place
if it was handed over and in none otherwise. -/
structure Placed (added : List P) (a : Queued P Q F) : Prop where
  unlocked : ∃ i, a.toCore.lock = .unlocked i
  out : a.IdleOut
  place : ∀ t, t ≠ a.idleThread → a.places t = if t ∈ added then 1 else 0
  idle : a.idleThread ∉ added

namespace Placed

section

omit [DecidableEq Q]

private theorem places_le (h : a.Placed added) (ht : t ≠ a.idleThread) : a.places t ≤ 1 := by
  rw [h.place t ht]
  split <;> omega

theorem cur_not_ready (h : a.Placed added) : a.cur ∉ a.ready := by
  intro hm
  by_cases hi : a.cur = a.idleThread
  · exact h.out.ready (hi ▸ hm)
  · have hle := h.places_le hi
    have hpos : 0 < a.ready.count a.cur := List.count_pos_iff.mpr hm
    simp only [places, if_true] at hle
    omega

theorem cur_not_waiting (h : a.Placed added) : a.cur ∉ a.waiting := by
  intro hm
  by_cases hi : a.cur = a.idleThread
  · exact h.out.waiting (hi ▸ hm)
  · have hle := h.places_le hi
    have hpos : 0 < a.waiting.count a.cur := List.count_pos_iff.mpr hm
    simp only [places, if_true] at hle
    omega

private theorem waiting_ne_idle (h : a.Placed added) (hm : t ∈ a.waiting) : t ≠ a.idleThread :=
  fun e => h.out.waiting (e ▸ hm)

/-- A thread in some place was handed over. -/
theorem mem_added (h : a.Placed added) (ht : t ≠ a.idleThread) (hp : a.places t ≠ 0) : t ∈ added := by
  by_contra hn
  rw [h.place t ht, if_neg hn] at hp
  exact hp rfl

private theorem waiting_nodup (h : a.Placed added) : a.waiting.Nodup := by
  apply List.nodup_iff_count_le_one.mpr
  intro t
  by_cases ht : t ∈ a.waiting
  · have hle := h.places_le (h.waiting_ne_idle ht)
    unfold places at hle
    omega
  · rw [List.count_eq_zero_of_not_mem ht]
    omega

theorem waiting_length (h : a.Placed added) : a.waiting.length ≤ added.length := by
  apply List.Subperm.length_le
  apply List.Nodup.subperm h.waiting_nodup
  intro t ht
  apply h.mem_added (h.waiting_ne_idle ht)
  have hpos : 0 < a.waiting.count t := List.count_pos_iff.mpr ht
  unfold places
  omega

/-- A step that moves threads without changing a count keeps the invariant. -/
theorem moved (h : a.Placed added) (hlock : ∃ i, b.toCore.lock = .unlocked i) (hout : b.IdleOut)
    (hidle : b.idleThread = a.idleThread)
    (hpl : ∀ t, t ≠ a.idleThread → b.places t = a.places t) : b.Placed added := by
  refine ⟨hlock, hout, fun t ht => ?_, hidle ▸ h.idle⟩
  rw [hidle] at ht
  rw [hpl t ht, h.place t ht]

/-- The same for a call, which ends by unlocking. -/
theorem returned (h : a.Placed added) (i : Bool) (hout : b.IdleOut)
    (hidle : b.idleThread = a.idleThread)
    (hpl : ∀ t, t ≠ a.idleThread → b.places t = a.places t) :
    (b.withLock (.unlocked i)).Placed added :=
  h.moved (b := b.withLock (.unlocked i)) ⟨i, rfl⟩ ⟨hout.ready, hout.waiting⟩ hidle hpl

end

/-! ### The calls -/

omit [DecidableEq Q] in
theorem addReadyThreads (h : a.Placed added) (hu : u ∉ added) (hidle : u ≠ a.idleThread) :
    (a.addReadyThreads u).Placed (u :: added) := by
  refine ⟨by rw [addReadyThreads_lock]; exact h.unlocked, h.out.addReadyThreads u hidle, ?_, ?_⟩
  · intro t ht
    rw [addReadyThreads_idleThread] at ht
    rw [addReadyThreads_places, h.place t ht]
    by_cases hut : u = t
    · subst hut
      simp [hu]
    · have htu : t ≠ u := fun e => hut e.symm
      simp [hut, htu]
  · rw [addReadyThreads_idleThread, List.mem_cons, not_or]
    exact ⟨hidle.symm, h.idle⟩

/-- A yield keeps the invariant if somebody else is ready. -/
theorem yieldNow (h : a.Placed added) (hc : a.cur ≠ a.idleThread) (hr : a.ready ≠ []) (i : Bool) :
    (a.yieldNow.withLock (.unlocked i)).Placed added := by
  have hout : a.yieldNow.IdleOut :=
    (IdleOut.pushReady (a := a.mapCore (·.markReady a.cur)) a.cur ⟨h.out.ready, h.out.waiting⟩
      hc).switchNow
  apply h.returned i hout (switchNow_idleThread _)
  intro t ht
  refine (yieldNow_places t hc h.cur_not_ready ht).trans ?_
  simp [hr]

/-- Otherwise it puts the caller in two places. -/
theorem yieldNow_alone (h : a.Placed added) (hc : a.cur ≠ a.idleThread) (hr : a.ready = []) :
    a.yieldNow.places a.cur ≠ 1 := by
  have hpos : a.places a.cur = 1 := by
    rw [h.place _ hc, if_pos]
    apply h.mem_added hc
    simp [places]
  rw [yieldNow_places a.cur hc h.cur_not_ready hc, hpos]
  simp [hr]

theorem sleepNow (h : a.Placed added) (hc : a.cur ≠ a.idleThread) (milli : Word) (i : Bool) :
    ((a.sleepNow milli).withLock (.unlocked i)).Placed added := by
  have hout : (a.sleepNow milli).IdleOut :=
    (IdleOut.pushWaiting (a := a.mapCore (·.markSleep a.cur milli)) a.cur
      ⟨h.out.ready, h.out.waiting⟩ hc).switchNow
  apply h.returned i hout (switchNow_idleThread _)
  intro t ht
  exact sleepNow_places t h.cur_not_ready ht

theorem blockNow (h : a.Placed added) (hc : a.cur ≠ a.idleThread) (i : Bool) :
    (a.blockNow.withLock (.unlocked i)).Placed added := by
  have hout : a.blockNow.IdleOut :=
    (IdleOut.pushWaiting (a := a.mapCore (·.setState a.cur .blocked)) a.cur
      ⟨h.out.ready, h.out.waiting⟩ hc).switchNow
  apply h.returned i hout (switchNow_idleThread _)
  intro t ht
  exact blockNow_places t h.cur_not_ready ht

theorem wake (h : a.Placed added) (hu : u ∈ a.waiting) (i : Bool) :
    ((a.wake u).withLock (.unlocked i)).Placed added := by
  have hout := h.out.wake u (h.waiting_ne_idle hu)
  apply h.returned i hout (a.wake_idleThread u)
  intro t ht
  exact wake_places t u hu ht

/-! ### A tick -/

omit [DecidableEq Q] in
theorem charge (h : a.Placed added) (frame : F) : (a.charge frame).Placed added :=
  h.moved h.unlocked ⟨h.out.ready, h.out.waiting⟩ rfl fun _ _ => rfl

/-- The sleeper loop keeps the invariant on every run. -/
theorem visitAll (h : a.Placed added) : (a.visitAll a.waiting).Placed added := by
  apply h.moved
  · rw [visitAll_lock]
    exact h.unlocked
  · exact h.out.visitAll fun u hu => h.waiting_ne_idle hu
  · exact visitAll_idleThread a.waiting
  · intro t ht
    exact visitAll_places t h.waiting_nodup (fun _ hu => hu) ht

/-- The end of a slice keeps the invariant unless it drops the current thread. -/
theorem endSlice (h : a.Placed added) (hd : ¬ a.Drops) (i : Bool) :
    (a.endSlice.withLock (.unlocked i)).Placed added := by
  apply h.returned i h.out.endSlice endSlice_idleThread
  intro t ht
  have hp := endSlice_places t h.cur_not_ready ht
  simpa [hd] using hp

private theorem endSlice_drops (h : a.Placed added) (hd : a.Drops) :
    a.cur ∈ added ∧ a.endSlice.places a.cur ≠ 1 := by
  have hmem : a.cur ∈ added := h.mem_added hd.2.1 (by simp [places])
  refine ⟨hmem, ?_⟩
  have hp := endSlice_places a.cur h.cur_not_ready hd.2.1
  rw [if_pos ⟨hd, rfl⟩, h.place _ hd.2.1, if_pos hmem] at hp
  omega

/-- A thread that runs is dropped by a tick when it is not marked Running and its slice ends. -/
theorem drops_of_running (h : a.Placed added) (hc : a.currThread ≠ none)
    (hi : a.currThread ≠ some a.idleThread) (frame : F) :
    ((a.charge frame).visitAll a.waiting).Drops ↔
      (a.thread a.cur).state ≠ .running ∧ a.toCore.increaseTick.SliceOver a.cur := by
  have hcur := curr_eq hc
  have hne : a.cur ≠ a.idleThread := fun e => hi (by rw [hcur, e])
  have hbusy : ¬ (a.charge frame).Idling := fun hid => hi hid.2
  obtain ⟨hcur', hth⟩ := visitAll_busy (l := a.waiting) hbusy
  have hblock := (hth a.cur h.cur_not_waiting).trans (charge_thread_cur frame)
  have hcur'' : ((a.charge frame).visitAll a.waiting).cur = a.cur := cur_eq (hcur'.trans hcur)
  have hover : ((a.charge frame).visitAll a.waiting).toCore.SliceOver a.cur ↔
      a.toCore.increaseTick.SliceOver a.cur :=
    Core.sliceOver_congr (visitAll_tick a.waiting) (by rw [hblock]; rfl) (by rw [hblock]; rfl)
  unfold Drops
  rw [hcur'', hover, hblock, visitAll_idleThread]
  exact ⟨fun hd => ⟨hd.2.2, hd.1⟩, fun hd => ⟨hd.2, hne, hd.1⟩⟩

/-- A tick on idle drops a thread when it wakes one with an empty budget for an empty queue. -/
theorem drops_of_idle (h : a.Placed added) (hi : a.currThread = some a.idleThread) (frame : F) :
    ((a.charge frame).visitAll a.waiting).Drops ↔
      a.ready = [] ∧ ∃ d, a.toCore.firstDue a.waiting = some d ∧
        (a.thread d).scheduledTime = 0 := by
  have hcur : a.cur = a.idleThread := cur_eq hi
  by_cases hr : a.ready = []
  · have hid : (a.charge frame).Idling := ⟨hr, hi⟩
    obtain ⟨hnone, hsome⟩ := visitAll_idling hid h.waiting_nodup h.out.waiting
    have hdue : (a.charge frame).toCore.firstDue a.waiting = a.toCore.firstDue a.waiting := by
      apply Core.firstDue_congr
      intro t ht
      exact charge_thread_of_ne t frame (hcur ▸ h.waiting_ne_idle ht)
    rw [hdue] at hnone hsome
    cases hd : a.toCore.firstDue a.waiting with
    | none =>
      have hidle : ((a.charge frame).visitAll a.waiting).cur = a.idleThread := cur_eq (hnone hd)
      refine ⟨fun hdr => absurd ?_ hdr.2.1, ?_⟩
      · rw [hidle, visitAll_idleThread]
        rfl
      · rintro ⟨-, d, hd', -⟩
        cases hd'
    | some d =>
      obtain ⟨hcur', hblock⟩ := hsome d hd
      have hdw : d ∈ a.waiting := List.mem_of_find?_eq_some hd
      have hdne : d ≠ a.idleThread := h.waiting_ne_idle hdw
      have hcur'' : ((a.charge frame).visitAll a.waiting).cur = d := cur_eq hcur'
      rw [charge_thread_of_ne d frame (hcur ▸ hdne)] at hblock
      have hstart : (((a.charge frame).visitAll a.waiting).thread d).execStartMs =
          ((a.charge frame).visitAll a.waiting).toCore.getTimeMilliseconds := by
        rw [hblock]
        unfold Core.getTimeMilliseconds
        rw [visitAll_tick]
        rfl
      unfold Drops
      rw [hcur'', Core.sliceOver_start hstart, hblock, visitAll_idleThread]
      constructor
      · intro hdr
        exact ⟨hr, d, rfl, hdr.1⟩
      · rintro ⟨-, d', hd', hz⟩
        cases hd'
        exact ⟨hz, hdne, by simp [Core.woken]⟩
  · have hbusy : ¬ (a.charge frame).Idling := fun hid => hr hid.1
    have hidle : ((a.charge frame).visitAll a.waiting).cur = a.idleThread :=
      cur_eq ((visitAll_busy hbusy).1.trans hi)
    refine ⟨fun hdr => absurd ?_ hdr.2.1, fun hdr => absurd hdr.1 hr⟩
    rw [hidle, visitAll_idleThread]
    rfl

end Placed

end Queued

/-! ## The law over pointers -/

namespace Roster

open Queued

variable {x : Roster P Q F} {a : Queued P Q F} {fuel : Nat}

omit [DecidableEq P] [DecidableEq Q] in
theorem waitingThreads_eq {s : Sched P Q F} (h : Sim s a) (hf : a.waiting.length ≤ fuel) :
    s.waitingThreads fuel = a.waiting :=
  h.waiting.linked.walk_eq hf

omit [DecidableEq Q] in
/-- On related states the law is about the counts. -/
theorem partition_iff (h : Sim x.sched a) :
    x.Partition ↔ a.IdleOut ∧ ∀ t ∈ x.added, a.places t = 1 := by
  have hidle : x.sched.idleThread = a.idleThread := by rw [h.core]
  have hcount : ∀ t, (if x.sched.currThread = some t then 1 else 0) + a.ready.count t +
      a.waiting.count t = a.places t := by
    intro t
    unfold places
    simp only [h.curr_eq, Option.some_inj]
  constructor
  · rintro ⟨w, r, hw, hr, hiw, hir, hpl⟩
    cases hw.unique h.waiting
    cases hr.unique h.ready
    refine ⟨⟨hidle ▸ hir, hidle ▸ hiw⟩, fun t ht => ?_⟩
    rw [← hcount]
    exact hpl t ht
  · rintro ⟨hout, hpl⟩
    refine ⟨a.waiting, a.ready, h.waiting, h.ready, hidle ▸ hout.waiting, hidle ▸ hout.ready, ?_⟩
    intro t ht
    rw [hcount]
    exact hpl t ht

omit [DecidableEq Q] in
theorem partition_of_placed (h : Sim x.sched a) (hp : a.Placed x.added) : x.Partition := by
  refine (partition_iff h).mpr ⟨hp.out, fun t ht => ?_⟩
  rw [hp.place t fun e => hp.idle (e ▸ ht), if_pos ht]

/-- A tick is fair exactly when it drops nobody. -/
theorem fairTick_iff {s : Sched P Q F} {added : List P} (h : Sim s a) (hp : a.Placed added)
    (hf : a.waiting.length ≤ fuel) (frame : F) :
    FairTick fuel s ↔ ¬ ((a.charge frame).visitAll a.waiting).Drops := by
  have hcore := h.core
  unfold FairTick
  rw [waitingThreads_eq h hf, h.empty_iff, hcore]
  by_cases hi : a.currThread = some a.idleThread
  · rw [if_pos hi, hp.drops_of_idle hi]
    constructor
    · rintro hfair ⟨hr, d, hd, hz⟩
      exact hfair hr d hd hz
    · intro hn hr d hd hz
      exact hn ⟨hr, d, hd, hz⟩
  · rw [if_neg hi, hp.drops_of_running h.live hi, curr_eq h.live]
    constructor
    · rintro hfair ⟨hrun, ho⟩
      exact hfair a.cur rfl hrun ho
    · rintro hn t ⟨⟩ hrun ho
      exact hn ⟨hrun, ho⟩

/-- What `Allowed` says of the lists, if the threads in them are `known`. -/
def Expects (known : List P) (a : Queued P Q F) : Call P F → Prop
  | .add t => t ∉ known ∧ t ≠ a.idleThread
  | .tick _ => True
  | .yield | .sleep _ | .block => a.cur ≠ a.idleThread
  | .unblock t => t ∈ a.waiting

omit [DecidableEq P] [DecidableEq Q] in
/-- An allowed call is one that the lists expect. -/
theorem Allowed.expects {c : Call P F} {known : List P} (hc : x.Allowed fuel c) (h : Sim x.sched a)
    (hlen : a.waiting.length ≤ fuel) (hknown : known ⊆ x.added) : Expects known a c := by
  have hidle : x.sched.idleThread = a.idleThread := by rw [h.core]
  cases c with
  | add t => exact ⟨fun hm => hc.1 (hknown hm), hidle ▸ hc.2⟩
  | tick frame => trivial
  | yield | sleep | block => exact fun e => hc (by rw [h.curr_eq, e, hidle])
  | unblock t => exact (congrArg (t ∈ ·) (waitingThreads_eq h hlen)).mp hc

/-- What a call makes of the lists. -/
def after (a : Queued P Q F) : Call P F → Queued P Q F
  | .add t => a.addReadyThreads t
  | .yield => a.yieldNow.withLock (.unlocked true)
  | .sleep milli => (a.sleepNow milli).withLock (.unlocked true)
  | .block => a.blockNow.withLock (.unlocked true)
  | .unblock t => (a.wake t).withLock (.unlocked true)
  | .tick frame => (a.tickNow frame).withLock (.unlocked true)

/-- **One call** on a placed state returns, and its queues follow the lists. -/
theorem exec_after {c : Call P F} {s : Sched P Q F} {known : List P} (h : Sim s a)
    (hp : a.Placed known) (hlen : a.waiting.length ≤ fuel) (hc : Expects known a c) :
    ∃ s', c.exec fuel s = .ok s' ∧ Sim s' (after a c) := by
  obtain ⟨i, hlock⟩ := hp.unlocked
  have hz : a.taskSwitchCounter = 0 := congrArg (·.taskSwitchCounter) hlock
  cases c with
  | add t =>
    have hzero : a.places t = 0 := by rw [hp.place t hc.2, if_neg hc.1]
    unfold places at hzero
    refine ⟨_, rfl, h.addReadyThreads (fun hm => ?_) fun hm => ?_⟩
    all_goals
      have := List.count_pos_iff.mpr hm
      omega
  | yield =>
    have h' := h.yield hz hp.cur_not_ready hp.cur_not_waiting
    rw [yield_eq hlock] at h'
    exact h'
  | sleep milli =>
    have h' := h.sleep milli hz hp.cur_not_ready hp.cur_not_waiting
    rw [sleep_eq milli hlock] at h'
    exact h'
  | block =>
    have h' := h.block hz hp.cur_not_ready hp.cur_not_waiting
    rw [block_eq hlock] at h'
    exact h'
  | unblock t =>
    obtain ⟨s', hs', h'⟩ := h.unblock hlen (h.apart hc) fun _ =>
      congrArg (·.taskSwitchPostponed) hlock
    rw [unblock_eq t _ hlock fun _ => rfl, Core.Lock.unlocked_enter_leave] at h'
    exact ⟨s', hs', h'⟩
  | tick frame =>
    have hmid := (hp.charge frame).visitAll
    obtain ⟨s', hs', h'⟩ := h.pitTick hlen hlock fun _ _ => ⟨hmid.cur_not_ready, hmid.cur_not_waiting⟩
    rw [pitTick_eq frame hlock] at h'
    refine ⟨s', ?_, h'⟩
    simp only [Call.exec, hs']
    rfl

/-- What one allowed call does to a placed state: it returns, and the new state is placed if the
call was fair. If it was not, some thread is lost or linked twice. -/
theorem next_placed {c : Call P F} (h : Sim x.sched a) (hp : a.Placed x.added)
    (hf : x.added.length ≤ fuel) (hc : x.Allowed fuel c) :
    ∃ x' a', x.next fuel c = .ok x' ∧ x'.added = c.added x.added ∧ Sim x'.sched a' ∧
      (x.Fair fuel c → a'.Placed x'.added) ∧
      (¬ x.Fair fuel c → ∃ t ∈ x'.added, a'.places t ≠ 1) := by
  have hlen : a.waiting.length ≤ fuel := Nat.le_trans hp.waiting_length hf
  have hc := hc.expects h hlen (List.Subset.refl _)
  obtain ⟨s', hs', h'⟩ := exec_after h hp hlen hc
  refine ⟨⟨c.added x.added, s'⟩, after a c, ?_, rfl, h', ?_⟩
  · simp only [next, hs', ok_bind, pure_eq_ok]
  cases c with
  | add t => exact ⟨fun _ => hp.addReadyThreads hc.1 hc.2, fun hn => absurd trivial hn⟩
  | yield =>
    have hfair : x.Fair fuel .yield ↔ a.ready ≠ [] := by
      rw [Ne, ← h.empty_iff]
      exact Bool.eq_false_iff
    refine ⟨fun hfr => hp.yieldNow hc (hfair.mp hfr) true, fun hn => ⟨a.cur, ?_, ?_⟩⟩
    · exact hp.mem_added hc (by simp [places])
    · exact hp.yieldNow_alone hc (not_not.mp (hfair.not.mp hn))
  | sleep milli => exact ⟨fun _ => hp.sleepNow hc milli true, fun hn => absurd trivial hn⟩
  | block => exact ⟨fun _ => hp.blockNow hc true, fun hn => absurd trivial hn⟩
  | unblock t => exact ⟨fun _ => hp.wake hc true, fun hn => absurd trivial hn⟩
  | tick frame =>
    have hmid := (hp.charge frame).visitAll
    have hfair : x.Fair fuel (.tick frame) ↔ _ := fairTick_iff h hp hlen frame
    refine ⟨fun hfr => hmid.endSlice (hfair.mp hfr) true, fun hn => ?_⟩
    obtain ⟨hmem, hpl⟩ := hmid.endSlice_drops (not_not.mp (hfair.not.mp hn))
    exact ⟨_, hmem, hpl⟩

omit [DecidableEq Q] in
/-- The state `Schedule(idle)` leaves stands for two empty lists. -/
theorem construct_sim (idle : P) (s : Sched P Q F) :
    ∃ a, Sim (s.construct idle) a ∧ a.Placed [] := by
  let c : Core P Q F := (s.construct idle).toCore
  refine ⟨⟨c, [], []⟩, ⟨rfl, Option.some_ne_none idle,
    SingleDeque.represents_nil _, SingleDeque.represents_nil _, List.disjoint_nil_left _⟩, ?_⟩
  refine ⟨⟨s.interruptFlag, rfl⟩, ⟨by simp, by simp⟩, fun t ht => ?_, by simp⟩
  have hcur : Queued.cur ⟨c, [], []⟩ = idle := rfl
  simp only [places, hcur, if_neg (fun e : idle = t => ht e.symm)]
  simp

/-- The invariant of fair runs, over pointers. -/
theorem fair_invariant (h : ((runs fuel).restrict (Fair fuel)).Reachable x) :
    x.added.length ≤ fuel → ∃ a, Sim x.sched a ∧ a.Placed x.added := by
  refine System.Reachable.invariant (I := fun x : Roster P Q F =>
    x.added.length ≤ fuel → ∃ a, Sim x.sched a ∧ a.Placed x.added) ?_ ?_ h
  · rintro x ⟨idle, s, rfl⟩ -
    exact construct_sim idle s
  · rintro x c x' ih ⟨⟨hal, hstep⟩, hfair⟩ hf
    have hmono : x.added.length ≤ x'.added.length := by
      obtain ⟨s', -, hx'⟩ := bind_ok.mp hstep
      cases hx'
      cases c <;> simp [Call.added]
    obtain ⟨a, ha, hp⟩ := ih (Nat.le_trans hmono hf)
    obtain ⟨x'', a', hstep', -, ha', hpl, -⟩ := next_placed ha hp (Nat.le_trans hmono hf) hal
    cases hstep.symm.trans hstep'
    exact ⟨a', ha', hpl hfair⟩

/-- **The partition law holds on fair runs, and fairness is what it takes.** In every state a fair
run reaches, given fuel for as many threads as were handed over, the law holds; every call that is
allowed there returns; and after it the law holds again exactly if the call was fair. -/
theorem partition_of_fair_run (h : ((runs fuel).restrict (Fair fuel)).Reachable x)
    (hf : x.added.length ≤ fuel) :
    x.Partition ∧ ∀ c, x.Allowed fuel c →
      ∃ x', x.next fuel c = .ok x' ∧ (x'.Partition ↔ x.Fair fuel c) := by
  obtain ⟨a, ha, hp⟩ := fair_invariant h hf
  refine ⟨partition_of_placed ha hp, fun c hc => ?_⟩
  obtain ⟨x', a', hstep, -, ha', hgood, hbad⟩ := next_placed ha hp hf hc
  refine ⟨x', hstep, fun hpart => ?_, fun hfair => partition_of_placed ha' (hgood hfair)⟩
  by_contra hn
  obtain ⟨t, ht, hne⟩ := hbad hn
  exact hne (((partition_iff ha').mp hpart).2 t ht)

/-- Idle and two more threads, in one process, under a new scheduler. -/
def trio : Roster (Fin 3) Unit Unit :=
  ⟨[], (Sched.boot (fun _ => .construct 0 () ()) (fun _ => .construct 0 false) 0).construct 0⟩

/-- Two threads are handed over; idle's slice ends, one yields to the other, which sleeps; it is
woken while the first runs, and gets the processor when that slice ends. -/
def fairRun : List (Call (Fin 3) Unit) :=
  [.add 1, .add 2] ++ List.replicate 6 (.tick ()) ++ [.yield, .sleep 4] ++
    List.replicate 6 (.tick ())

/-- Both threads are in one place at the end of that run, and the call `block` of the running one
keeps it so. -/
theorem partition_of_fair_run_fairRun : ∃ x : Roster (Fin 3) Unit Unit,
    ((runs 2).restrict (Fair 2)).Reachable x ∧ x.added = [2, 1] ∧ x.sched.currThread = some 2 ∧
    x.sched.readyThreads.head = some 1 ∧ x.Partition ∧
    ∃ x', x.next 2 .block = .ok x' ∧ x'.Partition := by
  have hrun : (fairRun.foldlM (System.attempt (fun x c => x.Allowed 2 c ∧ x.Fair 2 c) (next 2))
      trio).map (fun x => (x.added, x.sched.currThread, x.sched.idleThread, x.sched.readyThreads.head)) =
      some ([2, 1], some 2, 0, some 1) := by decide +kernel
  obtain ⟨x, hx, hobs⟩ := Option.map_eq_some_iff.mp hrun
  simp only [Prod.mk.injEq] at hobs
  obtain ⟨hadded, hcur, hidle, hready⟩ := hobs
  have hinit : ((runs 2).restrict (Fair 2)).Reachable trio := .init ⟨0, _, rfl⟩
  have hreach := hinit.foldlM (fun _ _ _ => System.attempt_restrict) _ hx
  obtain ⟨hpart, hall⟩ := partition_of_fair_run hreach (by rw [hadded]; decide)
  have hblock : x.Allowed 2 .block := by
    show x.sched.currThread ≠ some x.sched.idleThread
    rw [hcur, hidle]
    decide
  obtain ⟨x', hx', hiff⟩ := hall .block hblock
  exact ⟨x, hreach, hadded, hcur, hready, hpart, x', hx', hiff.mpr trivial⟩

/-- Idle and one more thread. -/
def pair : Roster (Fin 2) Unit Unit :=
  ⟨[], (Sched.boot (fun _ => .construct 0 () ()) (fun _ => .construct 0 false) 0).construct 0⟩

/-- Thread `1` runs, blocks, and is unblocked while idle has the processor; it then uses up its
slice. -/
def wokenRun : List (Call (Fin 2) Unit) :=
  .add 1 :: List.replicate 6 (.tick ()) ++ [.block, .unblock 1] ++ List.replicate 6 (.tick ())

/-- **The partition law fails.** At the end of that run idle is current and both queues are empty:
thread `1` is nowhere. -/
theorem woken_thread_is_lost : ∃ x : Roster (Fin 2) Unit Unit, (runs 1).Reachable x ∧
    ¬ x.Partition := by
  have hrun : (wokenRun.foldlM (System.attempt (Allowed 1) (next 1)) pair).map
      (fun x => (x.added, x.sched.currThread, x.sched.readyThreads.head, x.sched.waitingQueue.head))
      = some ([1], some 0, none, none) := by decide +kernel
  obtain ⟨x, hx, hobs⟩ := Option.map_eq_some_iff.mp hrun
  simp only [Prod.mk.injEq] at hobs
  obtain ⟨hadded, hcur, hready, hwaiting⟩ := hobs
  refine ⟨x, ?_, ?_⟩
  · have hinit : (runs 1).Reachable pair := .init ⟨0, _, rfl⟩
    exact hinit.foldlM (fun _ _ _ => System.attempt_eq_some) _ hx
  · rintro ⟨w, r, hw, hr, -, -, hplace⟩
    have hw0 : w = [] := List.head?_eq_none_iff.mp (hw.head.symm.trans hwaiting)
    have hr0 : r = [] := List.head?_eq_none_iff.mp (hr.head.symm.trans hready)
    have hone := hplace 1 (by rw [hadded]; simp)
    rw [hcur, hw0, hr0] at hone
    simp at hone

end Roster

end TwoKernel
