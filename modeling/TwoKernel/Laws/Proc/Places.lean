import TwoKernel.Laws.Proc.Switch

/-!
# Counting where a thread is

`places t` counts the places a thread is in: one for being current, and one for
each link in either list. A switch changes the count of two threads only, the
outgoing and the incoming one, and the lemmas below follow that change through
everything a call does. A thread is lost when its count drops to zero and
linked twice when it rises to two; the two ways this happens are `Drops` and a
yield into an empty ready queue.
-/

namespace TwoKernel.Queued

variable {P Q F : Type} [DecidableEq P] [DecidableEq Q]
variable (a : Queued P Q F) (t u next : P)

/-- How many places `t` is in. -/
def places (t : P) : Nat :=
  (if a.cur = t then 1 else 0) + a.ready.count t + a.waiting.count t

section

omit [DecidableEq Q]

/-- The count reads the current thread and the lists, and nothing else. -/
theorem places_congr {a b : Queued P Q F} (hc : b.cur = a.cur) (hr : b.ready = a.ready)
    (hw : b.waiting = a.waiting) : b.places t = a.places t := by
  unfold places
  rw [hc, hr, hw]

/-- A push adds a place. -/
theorem pushReady_places : (a.pushReady u).places t = a.places t + if u = t then 1 else 0 := by
  show (if a.cur = t then 1 else 0) + (a.ready ++ [u]).count t + a.waiting.count t = _
  rw [List.count_append, List.count_singleton]
  simp only [places, beq_iff_eq]
  omega

private theorem pushWaiting_places :
    (a.pushWaiting u).places t = a.places t + if u = t then 1 else 0 := by
  show (if a.cur = t then 1 else 0) + a.ready.count t + (a.waiting ++ [u]).count t = _
  rw [List.count_append, List.count_singleton]
  simp only [places, beq_iff_eq]
  omega

/-- So does `add_ready_threads`. -/
theorem addReadyThreads_places :
    (a.addReadyThreads u).places t = a.places t + if u = t then 1 else 0 := by
  rw [← a.pushReady_places t u]
  exact places_congr t (a.addReadyThreads_cur u) (a.addReadyThreads_ready u)
    (a.addReadyThreads_waiting u)

end

/-- The incoming thread gains a place. The outgoing one keeps its place in the queue, or loses the
one it had. -/
theorem switchTask_places :
    (a.switchTask next).places t + (if a.Requeues then 0 else if a.cur = t then 1 else 0) =
      a.places t + if next = t then 1 else 0 := by
  unfold places
  rw [switchTask_cur, switchTask_waiting, switchTask_ready]
  by_cases h : a.Requeues
  · simp only [if_pos h, List.count_append, List.count_singleton, beq_iff_eq]
    omega
  · simp only [if_neg h]
    omega

/-- `schedule()` finds the outgoing thread Running: it was, or it is the thread just popped. -/
def Keeps : Prop :=
  a.cur ≠ a.idleThread ∧ ((a.thread a.cur).state = .running ∨ a.ready.head? = some a.cur)

instance : Decidable a.Keeps := inferInstanceAs (Decidable (_ ∧ _))

omit [DecidableEq Q] in
/-- A switch to the popped thread puts back the one that `Keeps` says. -/
theorem popped_requeues {rest : List P} (h : a.ready = next :: rest) :
    (a.popped next rest).Requeues ↔ a.Keeps := by
  unfold Requeues Keeps
  rw [popped_cur, popped_idleThread, popped_state, h, List.head?_cons, Option.some_inj]
  by_cases hc : a.cur = next
  · simp [hc]
  · simp only [if_neg hc, Ne.symm hc, or_false]
    exact and_comm

/-- With a thread in the ready queue, the switch decision moves the processor and nothing else,
unless it drops the outgoing thread. -/
theorem switchNow_places_cons {rest : List P} (h : a.ready = next :: rest) :
    a.switchNow.places t + (if a.Keeps then 0 else if a.cur = t then 1 else 0) = a.places t := by
  have hsw := (a.popped next rest).switchTask_places t next
  have hpop : (a.popped next rest).places t + (if next = t then 1 else 0) = a.places t := by
    unfold places
    rw [popped_cur, popped_ready, popped_waiting, h, List.count_cons]
    simp only [beq_iff_eq]
    omega
  simp only [popped_requeues a next h, popped_cur] at hsw
  rw [switchNow_cons a next h]
  omega

/-- With nobody there, idle comes in. -/
theorem switchNow_places (ht : t ≠ a.idleThread) :
    a.switchNow.places t + (if a.Keeps then 0 else if a.cur = t then 1 else 0) = a.places t := by
  cases h : a.ready with
  | nil =>
    have hk : a.Keeps ↔ a.Requeues := by
      unfold Keeps Requeues
      rw [h, List.head?_nil]
      simp [and_comm]
    have hsw := a.switchTask_places t a.idleThread
    rw [if_neg (Ne.symm ht)] at hsw
    simp only [switchNow_nil a h, hk]
    exact hsw
  | cons next rest => exact a.switchNow_places_cons t next h

/-! ## The calls of the running thread -/

variable {a}

omit [DecidableEq P] [DecidableEq Q] in
theorem head_ne_cur (h : a.cur ∉ a.ready) : a.ready.head? ≠ some a.cur :=
  fun e => h (List.mem_of_head? e)

/-- A yield into an empty ready queue links the caller a second time; any other yield moves it. -/
theorem yieldNow_places (hc : a.cur ≠ a.idleThread) (hr : a.cur ∉ a.ready) (ht : t ≠ a.idleThread) :
    a.yieldNow.places t = a.places t + if a.ready = [] ∧ a.cur = t then 1 else 0 := by
  let b := (a.mapCore (·.markReady a.cur)).pushReady a.cur
  have hstate : (b.thread a.cur).state = .ready := by
    show ((a.toCore.markReady a.cur).thread a.cur).state = _
    simp [Core.markReady, Core.setState, ThreadBlock.resetScheduledTime]
  have hkeeps : b.Keeps ↔ a.ready = [] := by
    have hhead : b.ready.head? = some a.cur ↔ a.ready = [] := by
      show (a.ready ++ [a.cur]).head? = _ ↔ _
      cases hrd : a.ready with
      | nil => simp
      | cons x l =>
        have hx : x ≠ a.cur := fun e => hr (by rw [hrd, e]; exact List.mem_cons_self)
        simp [hx]
    show a.cur ≠ a.idleThread ∧
      ((b.thread a.cur).state = .running ∨ b.ready.head? = some a.cur) ↔ _
    rw [hstate, hhead]
    simp [hc]
  have hsw := b.switchNow_places t ht
  have hb : b.places t = a.places t + if a.cur = t then 1 else 0 := a.pushReady_places t a.cur
  rw [hb, show b.cur = a.cur from rfl] at hsw
  show b.switchNow.places t = _
  by_cases hrd : a.ready = []
  · rw [if_pos (hkeeps.mpr hrd)] at hsw
    simp only [hrd, true_and]
    omega
  · rw [if_neg (hkeeps.not.mpr hrd)] at hsw
    simp only [hrd, false_and, if_false]
    omega

/-- A caller that marks itself not Running and links itself in the waiting queue only moves. -/
theorem park_places {c : Core P Q F} (hcur : c.currThread = a.currThread)
    (hidle : c.idleThread = a.idleThread) (hst : (c.thread a.cur).state ≠ .running)
    (hr : a.cur ∉ a.ready) (ht : t ≠ a.idleThread) :
    ((a.mapCore fun _ => c).pushWaiting a.cur).switchNow.places t = a.places t := by
  let b := (a.mapCore fun _ => c).pushWaiting a.cur
  have hbc : b.cur = a.cur := by
    show c.currThread.getD c.idleThread = _
    rw [hcur, hidle]
    rfl
  have hkeeps : ¬ b.Keeps := by
    rintro ⟨-, hrun | hhead⟩
    · rw [hbc] at hrun
      exact hst hrun
    · rw [hbc] at hhead
      exact head_ne_cur hr hhead
  have hsw := b.switchNow_places t (by rw [show b.idleThread = _ from hidle]; exact ht)
  have hb : b.places t = a.places t + if a.cur = t then 1 else 0 := by
    refine ((a.mapCore fun _ => c).pushWaiting_places t a.cur).trans ?_
    rw [show (a.mapCore fun _ => c).places t = a.places t from places_congr t hbc rfl rfl]
  rw [if_neg hkeeps, hb, hbc] at hsw
  show b.switchNow.places t = _
  omega

/-- A sleep moves the caller from one place to another. -/
theorem sleepNow_places {milli : Word} (hr : a.cur ∉ a.ready) (ht : t ≠ a.idleThread) :
    (a.sleepNow milli).places t = a.places t :=
  park_places t (c := a.toCore.markSleep a.cur milli) rfl rfl (by simp [Core.markSleep]) hr ht

/-- So does a block. -/
theorem blockNow_places (hr : a.cur ∉ a.ready) (ht : t ≠ a.idleThread) :
    a.blockNow.places t = a.places t :=
  park_places t (c := a.toCore.setState a.cur .blocked) rfl rfl (by simp [Core.setState]) hr ht

/-! ## Waking -/

omit [DecidableEq Q] in
/-- A release takes a place away. -/
theorem release_places (hu : u ∈ a.waiting) :
    (a.release u).places t + (if u = t then 1 else 0) = a.places t := by
  have hpos : 0 < a.waiting.count u := List.count_pos_iff.mpr hu
  show (if a.cur = t then 1 else 0) + a.ready.count t + (a.waiting.erase u).count t + _ = _
  rw [List.count_erase]
  unfold places
  by_cases hut : u = t
  · subst hut
    simp only [beq_self_eq_true, if_true]
    omega
  · simp only [beq_iff_eq, if_neg hut]
    omega

/-- A woken thread only moves: out of the waiting queue, into the ready queue or onto the
processor, which idle had. -/
theorem wake_places (hu : u ∈ a.waiting) (ht : t ≠ a.idleThread) :
    (a.wake u).places t = a.places t := by
  have hrel := release_places t u hu
  unfold wake
  split
  · next hc =>
    have hidle : (a.release u).cur = a.idleThread := cur_eq hc.2
    have hreq : ¬ (a.release u).Requeues := fun h => h.2 hidle
    have hsw := (a.release u).switchTask_places t u
    rw [if_neg hreq, hidle, if_neg (Ne.symm ht)] at hsw
    omega
  · rw [pushReady_places]
    exact hrel

private theorem visit_places (hu : u ∈ a.waiting) (ht : t ≠ a.idleThread) :
    (a.visit u).places t = a.places t := by
  unfold visit
  split
  · rfl
  · split
    · exact wake_places t u (a := a.mapCore (·.countDown u)) hu ht
    · rfl

/-- The sleeper loop over a part of the waiting queue moves threads and does not lose any. -/
theorem visitAll_places {l : List P} (hnd : l.Nodup) (hl : ∀ u ∈ l, u ∈ a.waiting)
    (ht : t ≠ a.idleThread) : (a.visitAll l).places t = a.places t := by
  induction l generalizing a with
  | nil => rfl
  | cons u l ih =>
    have hu : u ∈ a.waiting := hl u List.mem_cons_self
    obtain ⟨hul, hnd⟩ := List.nodup_cons.mp hnd
    have hrest : ∀ v ∈ l, v ∈ (a.visit u).waiting := by
      intro v hv
      have hvw : v ∈ a.waiting := hl v (List.mem_cons_of_mem _ hv)
      rcases a.visit_waiting u with e | e
      · rwa [e]
      · rw [e]
        exact (List.mem_erase_of_ne fun e : v = u => hul (e ▸ hv)).mpr hvw
    show ((a.visit u).visitAll l).places t = _
    rw [ih hnd hrest (by rwa [visit_idleThread]), visit_places t u hu ht]

@[simp] theorem visitAll_idleThread (l : List P) : (a.visitAll l).idleThread = a.idleThread := by
  induction l generalizing a with
  | nil => rfl
  | cons u l ih =>
    show ((a.visit u).visitAll l).idleThread = _
    rw [ih, visit_idleThread]

@[simp] theorem visitAll_tick (l : List P) : (a.visitAll l).tick = a.tick := by
  induction l generalizing a with
  | nil => rfl
  | cons u l ih =>
    show ((a.visit u).visitAll l).tick = _
    rw [ih, visit_tick]

@[simp] theorem visitAll_lock (l : List P) : (a.visitAll l).toCore.lock = a.toCore.lock := by
  induction l generalizing a with
  | nil => rfl
  | cons u l ih =>
    show ((a.visit u).visitAll l).toCore.lock = _
    rw [ih, visit_lock]

/-! ## Before the sleeper loop -/

omit [DecidableEq Q] in
theorem charge_thread_of_ne (frame : F) (h : t ≠ a.cur) :
    (a.charge frame).thread t = a.thread t :=
  a.toCore.increaseTick.saveFrame_thread_of_ne a.cur t frame h

omit [DecidableEq Q] in
theorem charge_thread_cur (frame : F) : (a.charge frame).thread a.cur =
    { a.thread a.cur with
      registers := frame, totalRuntimeMs := (a.thread a.cur).totalRuntimeMs + 1 } :=
  a.toCore.increaseTick.saveFrame_thread_self a.cur frame

/-! ## The end of a slice -/

/-- The slice of a current thread that is not Running ends: the switch does not queue it again. -/
def Drops (a : Queued P Q F) : Prop :=
  a.toCore.SliceOver a.cur ∧ a.cur ≠ a.idleThread ∧ (a.thread a.cur).state ≠ .running

instance : Decidable a.Drops := inferInstanceAs (Decidable (_ ∧ _))

/-- A slice that is over ends with a switch. -/
theorem endSlice_of_over (h : a.toCore.SliceOver a.cur) :
    a.endSlice = a.switchNow ∨ a.endSlice = (a.mapCore (·.setQuantumPast true)).switchNow := by
  unfold endSlice
  by_cases hb : (a.thread a.cur).scheduledTime ≤ a.toCore.delta a.cur
  · exact Or.inl (if_pos hb)
  · rw [if_neg hb]
    exact Or.inr (if_pos (h.resolve_left hb))

/-- One that is not goes on. -/
theorem endSlice_of_not_over (h : ¬ a.toCore.SliceOver a.cur) : a.endSlice = a := by
  unfold endSlice
  rw [if_neg fun hb => h (Or.inl hb)]
  exact if_neg fun hq => h (Or.inr hq)

/-- The end of a slice takes a place from the thread it drops, and from nobody else. -/
theorem endSlice_places (hr : a.cur ∉ a.ready) (ht : t ≠ a.idleThread) :
    a.endSlice.places t + (if a.Drops ∧ a.cur = t then 1 else 0) = a.places t := by
  by_cases ho : a.toCore.SliceOver a.cur
  · -- the quantum flag is not read by the count
    have hsw : a.endSlice.places t + (if a.Keeps then 0 else if a.cur = t then 1 else 0) =
        a.places t := by
      rcases endSlice_of_over ho with e | e
      · rw [e]
        exact a.switchNow_places t ht
      · rw [e]
        exact (a.mapCore (·.setQuantumPast true)).switchNow_places t ht
    have hhead := head_ne_cur hr
    by_cases hk : a.Keeps
    · have hd : ¬ a.Drops := fun hd => hd.2.2 (hk.2.resolve_right hhead)
      simp only [if_pos hk, hd, false_and, if_false] at hsw ⊢
      exact hsw
    · by_cases hi : a.cur = a.idleThread
      · have hct : a.cur ≠ t := fun e => ht (e ▸ hi)
        simp only [if_neg hk, hct, and_false, if_false] at hsw ⊢
        exact hsw
      · have hd : a.Drops := ⟨ho, hi, fun hrun => hk ⟨hi, Or.inl hrun⟩⟩
        simp only [if_neg hk, hd, true_and] at hsw ⊢
        exact hsw
  · have hd : ¬ a.Drops := fun hd => ho hd.1
    rw [endSlice_of_not_over ho]
    simp [hd]

/-! ## Idle is linked nowhere -/

/-- The idle thread is in neither list. -/
structure IdleOut (a : Queued P Q F) : Prop where
  ready : a.idleThread ∉ a.ready
  waiting : a.idleThread ∉ a.waiting

namespace IdleOut

omit [DecidableEq P] [DecidableEq Q] in
theorem pushReady (h : a.IdleOut) (hu : u ≠ a.idleThread) : (a.pushReady u).IdleOut := by
  refine ⟨fun hm => ?_, h.waiting⟩
  rcases List.mem_append.mp hm with hm | hm
  · exact h.ready hm
  · exact hu (List.mem_singleton.mp hm).symm

omit [DecidableEq P] [DecidableEq Q] in
theorem pushWaiting (h : a.IdleOut) (hu : u ≠ a.idleThread) : (a.pushWaiting u).IdleOut := by
  refine ⟨h.ready, fun hm => ?_⟩
  rcases List.mem_append.mp hm with hm | hm
  · exact h.waiting hm
  · exact hu (List.mem_singleton.mp hm).symm

omit [DecidableEq Q] in
theorem addReadyThreads (h : a.IdleOut) (hu : u ≠ a.idleThread) :
    (a.addReadyThreads u).IdleOut := by
  have hp := h.pushReady u hu
  constructor
  · rw [addReadyThreads_ready, addReadyThreads_idleThread]
    exact hp.ready
  · rw [addReadyThreads_waiting, addReadyThreads_idleThread]
    exact hp.waiting

private theorem switchTask (h : a.IdleOut) : (a.switchTask next).IdleOut := by
  constructor
  · rw [switchTask_ready, switchTask_idleThread]
    split
    · next hr => exact (h.pushReady a.cur hr.2).ready
    · exact h.ready
  · rw [switchTask_waiting, switchTask_idleThread]
    exact h.waiting

/-- A switch does not queue idle. -/
theorem switchNow (h : a.IdleOut) : a.switchNow.IdleOut := by
  cases hrd : a.ready with
  | nil =>
    rw [switchNow_nil a hrd]
    exact h.switchTask a.idleThread
  | cons next rest =>
    rw [switchNow_cons a next hrd]
    apply switchTask
    constructor
    · rw [popped_ready, popped_idleThread]
      intro hm
      exact h.ready (hrd ▸ List.mem_cons_of_mem _ hm)
    · rw [popped_waiting, popped_idleThread]
      exact h.waiting

/-- Nor does waking another thread. -/
theorem wake (h : a.IdleOut) (hu : u ≠ a.idleThread) : (a.wake u).IdleOut := by
  have hrel : (a.release u).IdleOut := ⟨h.ready, fun hm => h.waiting (List.mem_of_mem_erase hm)⟩
  by_cases hi : a.Idling
  · rw [a.wake_idling u hi]
    exact hrel.switchTask u
  · rw [a.wake_busy u hi]
    exact hrel.pushReady u hu

theorem visit (h : a.IdleOut) (hu : u ≠ a.idleThread) : (a.visit u).IdleOut := by
  cases hd : a.toCore.due u with
  | true =>
    rw [a.visit_due u hd]
    exact wake (a := a.mapCore (·.countDown u)) u ⟨h.ready, h.waiting⟩ hu
  | false =>
    rcases a.visit_not_due u hd with e | e
    · rwa [e]
    · rw [e]
      exact ⟨h.ready, h.waiting⟩

/-- Nor does the walk of a tick. -/
theorem visitAll {l : List P} (h : a.IdleOut) (hl : ∀ u ∈ l, u ≠ a.idleThread) :
    (a.visitAll l).IdleOut := by
  induction l generalizing a with
  | nil => exact h
  | cons u l ih =>
    apply ih (h.visit u (hl u List.mem_cons_self))
    intro v hv
    rw [visit_idleThread]
    exact hl v (List.mem_cons_of_mem _ hv)

/-- Nor does the end of a slice. -/
theorem endSlice (h : a.IdleOut) : a.endSlice.IdleOut := by
  by_cases ho : a.toCore.SliceOver a.cur
  · rcases endSlice_of_over ho with e | e
    · rw [e]
      exact h.switchNow
    · rw [e]
      exact switchNow (a := a.mapCore (·.setQuantumPast true)) ⟨h.ready, h.waiting⟩
  · rwa [endSlice_of_not_over ho]

end IdleOut

@[simp] theorem endSlice_idleThread : a.endSlice.idleThread = a.idleThread := by
  by_cases ho : a.toCore.SliceOver a.cur
  · rcases endSlice_of_over ho with e | e
    · rw [e, switchNow_idleThread]
    · rw [e, switchNow_idleThread]
      rfl
  · rw [endSlice_of_not_over ho]

end TwoKernel.Queued
