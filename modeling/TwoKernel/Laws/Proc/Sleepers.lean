import TwoKernel.Laws.Proc.Places
import TwoKernel.Laws.Proc.Queued
import TwoKernel.Laws.Proc.Rotation
import TwoKernel.Laws.Proc.RoundRobin

/-!
# Sleep timers

A tick visits every thread of the waiting queue, counts the sleepers down and
wakes those that come to zero, out of the queue it walks. So a sleeper with
`sleep_time` s leaves on tick `max 1 s`, whoever else waits beside it, and the
rest of the queue keeps its order.

Where a woken thread goes depends on the processor. Beside a running thread it is
pushed at the tail of the ready queue. From idle alone, the first one gets the
processor at once, and then the slice test of the same tick is about it: a thread
with no budget left is switched away from again, and, not being Running, it is
put nowhere. `pitTicks_timed` says that this is the only way to be woken and be
lost, as long as idle itself does not wait.
-/

namespace TwoKernel

attribute [local instance] neZero_two

variable {P Q F : Type} [DecidableEq P] [DecidableEq Q]
variable {s : Sched P Q F} {a : Queued P Q F} {t v : P} {frame : F}

/-- What a tick makes of the block of a waiting thread that it does not wake. -/
def ThreadBlock.sleepOn (b : ThreadBlock Q F) : ThreadBlock Q F :=
  if b.state = .blocked then b else { b with sleepTime := b.sleepTime - 1 }

namespace Queued

/-! ## The sleeper loop, thread by thread -/

/-- A visit writes the block of the visited thread only. -/
theorem visit_thread_of_ne (hne : v ≠ t) : (a.visit t).thread v = a.thread v := by
  by_cases hi : a.Idling
  · cases hd : a.toCore.due t with
    | false =>
      rcases a.visit_not_due t hd with e | e
      · rw [e]
      · rw [e]
        exact a.toCore.countDown_thread_of_ne t v hne
    | true =>
      have hi' : (a.mapCore (·.countDown t)).Idling := hi
      have hreq : ¬ ((a.mapCore (·.countDown t)).release t).Requeues :=
        fun hr => hr.2 (cur_eq hi.2)
      rw [a.visit_due t hd, wake_idling _ t hi', switchTask_thread_stays _ t v hreq hne]
      exact (Core.markWoken_thread_of_ne _ t v hne).trans
        (a.toCore.countDown_thread_of_ne t v hne)
  · exact (visit_busy hi).2.2 v hne

private theorem visit_due_of_ne (hne : v ≠ t) : (a.visit t).toCore.due v = a.toCore.due v := by
  unfold Core.due
  rw [visit_thread_of_ne hne]

private theorem visit_thread_not_due (hd : a.toCore.due t = false) :
    (a.visit t).thread t = (a.thread t).sleepOn := by
  simp only [Core.due, decide_eq_false_iff_not, not_and] at hd
  unfold visit ThreadBlock.sleepOn
  by_cases hb : (a.thread t).state = .blocked
  · rw [if_pos hb, if_pos hb]
  · have hlate := hd hb
    have hpos : 0 < (a.thread t).sleepTime := by bv_omega
    have hlate' : ¬ ((a.mapCore (·.countDown t)).thread t).sleepTime = 0 :=
      fun hz => hlate ((a.toCore.countDown_sleepTime t).mp hz)
    rw [if_neg hb, if_neg hb, if_neg hlate']
    show ((a.toCore.countDown t).thread t) = _
    simp only [Core.countDown, Core.modify_thread_self, if_pos hpos]

private theorem visit_waiting_eq :
    (a.visit t).waiting = if a.toCore.due t then a.waiting.erase t else a.waiting := by
  cases hd : a.toCore.due t with
  | true =>
    rw [a.visit_due t hd]
    exact wake_waiting _ t
  | false =>
    rcases a.visit_not_due t hd with e | e <;> rw [e] <;> rfl

private theorem visitAll_thread_of_not_mem {l : List P} (hv : v ∉ l) :
    (a.visitAll l).thread v = a.thread v := by
  induction l generalizing a with
  | nil => rfl
  | cons u l ih =>
    rw [List.mem_cons, not_or] at hv
    exact (ih hv.2).trans (visit_thread_of_ne hv.1)

private theorem visitAll_thread_not_due {l : List P} (hnd : l.Nodup) (hv : v ∈ l)
    (hd : a.toCore.due v = false) : (a.visitAll l).thread v = (a.thread v).sleepOn := by
  induction l generalizing a with
  | nil => cases hv
  | cons u l ih =>
    obtain ⟨hul, hnd⟩ := List.nodup_cons.mp hnd
    cases hv with
    | head => exact (visitAll_thread_of_not_mem hul).trans (visit_thread_not_due hd)
    | tail _ hv =>
      have hne : v ≠ u := fun e => hul (e ▸ hv)
      have := ih (a := a.visit u) hnd hv ((visit_due_of_ne hne).trans hd)
      rwa [visit_thread_of_ne hne] at this

/-- A list is filtered by the same threads before and after a visit to a thread outside it. -/
theorem filter_due_visit {l : List P} {u : P} (f : Bool → Bool) (hu : u ∉ l) :
    (l.filter fun t => f ((a.visit u).toCore.due t)) = l.filter fun t => f (a.toCore.due t) := by
  refine List.filter_congr fun t ht => ?_
  rw [visit_due_of_ne fun e : t = u => hu (e ▸ ht)]

/-- The loop takes the due threads out and leaves the others in order. The threads already visited
and not woken are `front`. -/
theorem visitAll_waiting {front l : List P} (hnd : (front ++ l).Nodup) (hw : a.waiting = front ++ l) :
    (a.visitAll l).waiting = front ++ l.filter fun t => !a.toCore.due t := by
  induction l generalizing a front with
  | nil => exact hw
  | cons u l ih =>
    have hul : u ∉ l := (List.nodup_cons.mp (List.nodup_append.mp hnd).2.1).1
    have huf : u ∉ front := fun hm =>
      (List.nodup_append.mp hnd).2.2 u hm u List.mem_cons_self rfl
    have hrest := filter_due_visit (a := a) (fun b => !b) hul
    cases hd : a.toCore.due u with
    | true =>
      have hwait : (a.visit u).waiting = front ++ l := by
        rw [visit_waiting_eq, if_pos hd, hw, List.erase_append_right _ huf, List.erase_cons_head]
      have hnd' : (front ++ l).Nodup := hnd.sublist (by simp)
      rw [List.filter_cons_of_neg (by simp [hd]), ← hrest]
      exact ih hnd' hwait
    | false =>
      have hwait : (a.visit u).waiting = front ++ [u] ++ l := by
        rw [visit_waiting_eq, if_neg (by simp [hd]), hw]
        simp
      have hnd' : (front ++ [u] ++ l).Nodup := by simpa using hnd
      rw [List.filter_cons_of_pos (by simp [hd]), ← hrest, List.append_cons]
      exact ih hnd' hwait

/-- Beside a running thread, the due threads go to the end of the ready queue. -/
theorem visitAll_ready_busy {l : List P} (hnd : l.Nodup) (hi : ¬ a.Idling) :
    (a.visitAll l).ready = a.ready ++ l.filter fun t => a.toCore.due t := by
  induction l generalizing a with
  | nil => simp [visitAll]
  | cons u l ih =>
    obtain ⟨hul, hnd⟩ := List.nodup_cons.mp hnd
    have hrest := filter_due_visit (a := a) (fun b => b) hul
    have hnext := ih hnd (visit_busy (t := u) hi).2.1
    rw [hrest] at hnext
    refine hnext.trans ?_
    cases hd : a.toCore.due u with
    | true =>
      rw [List.filter_cons_of_pos (by simp [hd]), a.visit_due u hd,
        wake_busy _ u (show ¬ (a.mapCore (·.countDown u)).Idling from hi)]
      exact (List.append_cons a.ready u _).symm
    | false =>
      rw [List.filter_cons_of_neg (by simp [hd])]
      rcases a.visit_not_due u hd with e | e
      · rw [e]
      · rw [e]
        rfl

/-- From idle alone, the first due thread gets the processor and the others are queued. -/
theorem visitAll_ready_idling {l : List P} (hnd : l.Nodup) (hi : a.Idling)
    (hidle : a.idleThread ∉ l) :
    (a.visitAll l).ready = (l.filter fun t => a.toCore.due t).tail := by
  induction l generalizing a with
  | nil => exact hi.1
  | cons u l ih =>
    obtain ⟨hul, hnd⟩ := List.nodup_cons.mp hnd
    rw [List.mem_cons, not_or] at hidle
    have hrest := filter_due_visit (a := a) (fun b => b) hul
    cases hd : a.toCore.due u with
    | true =>
      have hcur := (visit_idling_due hi hd).1
      have hbusy : ¬ (a.visit u).Idling := by
        intro hi'
        have he := hcur.symm.trans hi'.2
        rw [visit_idleThread, Option.some_inj] at he
        exact hidle.1 he.symm
      have hempty : (a.visit u).ready = [] := by
        have hi' : (a.mapCore (·.countDown u)).Idling := hi
        have hreq : ¬ ((a.mapCore (·.countDown u)).release u).Requeues :=
          fun hr => hr.2 (cur_eq hi.2)
        rw [a.visit_due u hd, wake_idling _ u hi', switchTask_ready, if_neg hreq]
        exact hi.1
      have hnext := visitAll_ready_busy hnd hbusy
      rw [hrest, hempty, List.nil_append] at hnext
      rw [List.filter_cons_of_pos (by simp [hd]), List.tail_cons]
      exact hnext
    | false =>
      have hstep : (a.visit u).Idling ∧ (a.visit u).idleThread = a.idleThread := by
        rcases a.visit_not_due u hd with e | e <;> rw [e] <;> exact ⟨hi, rfl⟩
      have hnext := ih hnd hstep.1 (by rw [hstep.2]; exact hidle.2)
      rw [hrest] at hnext
      rw [List.filter_cons_of_neg (by simp [hd])]
      exact hnext

/-! ## The end of the slice -/

/-- The slice test leaves the waiting queue, and the blocks of all but the outgoing and the incoming
thread. -/
theorem endSlice_waiting : a.endSlice.waiting = a.waiting := by
  by_cases ho : a.toCore.SliceOver a.cur
  · rcases endSlice_of_over ho with e | e
    · rw [e, switchNow_waiting]
    · rw [e, switchNow_waiting]
      rfl
  · rw [endSlice_of_not_over ho]

private theorem switchNow_thread_of_ne (hc : t ≠ a.cur) (hi : t ≠ a.idleThread) (hr : t ∉ a.ready) :
    a.switchNow.thread t = a.thread t := by
  cases h : a.ready with
  | nil => rw [switchNow_nil a h, switchTask_thread_of_ne a _ t hc hi]
  | cons next rest =>
    have hn : t ≠ next := fun e => hr (by simp [h, e])
    rw [switchNow_cons a next h, switchTask_thread_of_ne _ _ t (by rwa [popped_cur]) hn,
      popped_thread_of_ne hn hc]

private theorem endSlice_thread_of_ne (hc : t ≠ a.cur) (hi : t ≠ a.idleThread) (hr : t ∉ a.ready) :
    a.endSlice.thread t = a.thread t := by
  by_cases ho : a.toCore.SliceOver a.cur
  · rcases endSlice_of_over ho with e | e
    · rw [e, switchNow_thread_of_ne hc hi hr]
    · rw [e]
      exact switchNow_thread_of_ne (a := a.mapCore (·.setQuantumPast true)) hc hi hr
  · rw [endSlice_of_not_over ho]

/-- A switch leaves a ready thread ready, or makes it current. -/
theorem switchNow_lands (ht : t ∈ a.ready) : a.switchNow.cur = t ∨ t ∈ a.switchNow.ready := by
  cases h : a.ready with
  | nil => simp [h] at ht
  | cons next rest =>
    rw [switchNow_cons a next h, switchTask_cur, switchTask_ready, popped_ready]
    rw [h] at ht
    cases ht with
    | head => exact .inl rfl
    | tail _ ht =>
      refine .inr ?_
      split
      · exact List.mem_append_left _ ht
      · exact ht

private theorem endSlice_lands (ht : t ∈ a.ready) : a.endSlice.cur = t ∨ t ∈ a.endSlice.ready := by
  by_cases ho : a.toCore.SliceOver a.cur
  · rcases endSlice_of_over ho with e | e
    · rw [e]
      exact switchNow_lands ht
    · rw [e]
      exact switchNow_lands (a := a.mapCore (·.setQuantumPast true)) ht
  · rw [endSlice_of_not_over ho]
    exact .inr ht

private theorem switchNow_cur_not_mem (hc : a.cur ∉ a.ready) (hnd : a.ready.Nodup) :
    a.switchNow.cur ∉ a.switchNow.ready := by
  cases h : a.ready with
  | nil =>
    rw [switchNow_nil a h, switchTask_cur, switchTask_ready, h]
    split
    case isTrue hreq => simpa using Ne.symm hreq.2
    case isFalse => simp
  | cons next rest =>
    rw [h] at hc hnd
    rw [switchNow_cons a next h, switchTask_cur, switchTask_ready, popped_ready, popped_cur]
    have hnext : next ∉ rest := (List.nodup_cons.mp hnd).1
    split
    · intro hm
      rcases List.mem_append.mp hm with hm | hm
      · exact hnext hm
      · exact hc (List.mem_singleton.mp hm ▸ List.mem_cons_self)
    · exact hnext

private theorem endSlice_cur_not_mem (hc : a.cur ∉ a.ready) (hnd : a.ready.Nodup) :
    a.endSlice.cur ∉ a.endSlice.ready := by
  by_cases ho : a.toCore.SliceOver a.cur
  · rcases endSlice_of_over ho with e | e
    · rw [e]
      exact switchNow_cur_not_mem hc hnd
    · rw [e]
      exact switchNow_cur_not_mem (a := a.mapCore (·.setQuantumPast true)) hc hnd
  · rw [endSlice_of_not_over ho]
    exact hc

/-- Who is current after the slice test: the same thread, idle, or one that was ready. -/
theorem endSlice_cur :
    a.endSlice.cur = a.cur ∨ a.endSlice.cur = a.idleThread ∨ a.endSlice.cur ∈ a.ready := by
  have hnow : ∀ b : Queued P Q F, b.switchNow.cur = b.idleThread ∨ b.switchNow.cur ∈ b.ready := by
    intro b
    rw [cur_eq b.switchNow_currThread]
    cases h : b.ready with
    | nil => exact .inl rfl
    | cons next rest => exact .inr List.mem_cons_self
  by_cases ho : a.toCore.SliceOver a.cur
  · rcases endSlice_of_over ho with e | e
    · rw [e]
      exact .inr (hnow a)
    · rw [e]
      exact .inr (hnow (a.mapCore (·.setQuantumPast true)))
  · rw [endSlice_of_not_over ho]
    exact .inl rfl

/-! ## One tick -/

/-- Between ticks: nobody holds the lock, the current thread is in no queue, and idle does not
wait. -/
structure Ticking (a : Queued P Q F) : Prop where
  unlocked : ∃ i, a.toCore.lock = .unlocked i
  live : a.currThread ≠ none
  ready : a.cur ∉ a.ready
  waiting : a.cur ∉ a.waiting
  idle : a.idleThread ∉ a.waiting
  readyNodup : a.ready.Nodup
  waitingNodup : a.waiting.Nodup
  apart : a.waiting.Disjoint a.ready

/-- The threads the next tick wakes, in order. -/
def dueThreads (a : Queued P Q F) : List P := a.waiting.filter fun t => a.toCore.due t

/-- Idle alone has the processor, and the first thread that the next tick wakes has no budget. -/
def Loses (a : Queued P Q F) : Prop :=
  a.Idling ∧ ∃ d, a.dueThreads.head? = some d ∧ (a.thread d).scheduledTime = 0

omit [DecidableEq Q] in
theorem charge_due (frame : F) : (a.charge frame).toCore.due t = a.toCore.due t := by
  unfold Core.due
  by_cases hc : t = a.cur
  · rw [hc, charge_thread_cur]
  · rw [charge_thread_of_ne t frame hc]

/-- The state after the sleeper loop of a tick. -/
def looped (frame : F) (a : Queued P Q F) : Queued P Q F := (a.charge frame).visitAll a.waiting

section tick

variable (frame : F) (h : a.Ticking)

include h

private theorem looped_waiting :
    (a.looped frame).waiting = a.waiting.filter fun t => !a.toCore.due t := by
  have hloop := visitAll_waiting (a := a.charge frame)
    (show ([] ++ a.waiting).Nodup from h.waitingNodup) rfl
  simp only [charge_due] at hloop
  exact hloop

private theorem looped_busy (hi : ¬ a.Idling) :
    (a.looped frame).cur = a.cur ∧ (a.looped frame).ready = a.ready ++ a.dueThreads := by
  have hi' : ¬ (a.charge frame).Idling := hi
  constructor
  · exact cur_eq ((visitAll_busy hi').1.trans (curr_eq h.live))
  · have hloop := visitAll_ready_busy h.waitingNodup hi'
    simp only [charge_due] at hloop
    exact hloop

private theorem looped_idling (hi : a.Idling) :
    (a.looped frame).cur = a.dueThreads.headD a.idleThread ∧
      (a.looped frame).ready = a.dueThreads.tail := by
  have hi' : (a.charge frame).Idling := hi
  have hfirst : (a.charge frame).toCore.firstDue a.waiting = a.dueThreads.head? := by
    unfold Core.firstDue dueThreads
    simp only [charge_due, List.head?_filter]
  obtain ⟨hnone, hsome⟩ := visitAll_idling hi' h.waitingNodup h.idle
  rw [hfirst] at hnone hsome
  constructor
  · cases hd : a.dueThreads with
    | nil => exact cur_eq (hnone (by simp [hd]))
    | cons d ds => exact cur_eq (hsome d (by simp [hd])).1
  · have hloop := visitAll_ready_idling h.waitingNodup hi' h.idle
    simp only [charge_due] at hloop
    exact hloop

omit [DecidableEq P] [DecidableEq Q] in
theorem dueThreads_nodup : a.dueThreads.Nodup := h.waitingNodup.filter _

omit h [DecidableEq P] [DecidableEq Q] in
theorem mem_dueThreads : t ∈ a.dueThreads ↔ t ∈ a.waiting ∧ a.toCore.due t = true :=
  List.mem_filter

/-- Nobody whom the loop leaves waiting is current or ready after it. -/
theorem looped_apart (ht : t ∈ a.waiting) (hd : a.toCore.due t = false) :
    t ≠ (a.looped frame).cur ∧ t ∉ (a.looped frame).ready := by
  have hnot : t ∉ a.dueThreads := fun hm => by simp [(mem_dueThreads.mp hm).2] at hd
  by_cases hi : a.Idling
  · obtain ⟨hcur, hready⟩ := looped_idling frame h hi
    rw [hcur, hready]
    refine ⟨fun e => ?_, fun hm => hnot (List.mem_of_mem_tail hm)⟩
    cases hds : a.dueThreads with
    | nil =>
      rw [hds, List.headD_nil] at e
      exact h.idle (e ▸ ht)
    | cons d ds =>
      rw [hds, List.headD_cons] at e
      exact hnot (by simp [hds, e])
  · obtain ⟨hcur, hready⟩ := looped_busy frame h hi
    rw [hcur, hready]
    refine ⟨fun e => h.waiting (e ▸ ht), fun hm => ?_⟩
    rcases List.mem_append.mp hm with hm | hm
    · exact h.apart ht hm
    · exact hnot hm

private theorem looped_ready_nodup : (a.looped frame).ready.Nodup := by
  by_cases hi : a.Idling
  · rw [(looped_idling frame h hi).2]
    exact (dueThreads_nodup h).tail
  · rw [(looped_busy frame h hi).2]
    exact h.readyNodup.append (dueThreads_nodup h)
      fun x hx hx' => h.apart (mem_dueThreads.mp hx').1 hx

private theorem looped_cur_not_mem : (a.looped frame).cur ∉ (a.looped frame).ready := by
  by_cases hi : a.Idling
  · obtain ⟨hcur, hready⟩ := looped_idling frame h hi
    rw [hcur, hready]
    have hnd := dueThreads_nodup h
    cases hds : a.dueThreads with
    | nil => simp
    | cons d ds =>
      rw [hds] at hnd
      exact (List.nodup_cons.mp hnd).1
  · obtain ⟨hcur, hready⟩ := looped_busy frame h hi
    rw [hcur, hready]
    intro hm
    rcases List.mem_append.mp hm with hm | hm
    · exact h.ready hm
    · exact h.waiting (mem_dueThreads.mp hm).1

private theorem looped_settled : (a.looped frame).Settled := by
  intro _ _
  refine ⟨looped_cur_not_mem frame h, fun hm => ?_⟩
  rw [looped_waiting frame h] at hm
  obtain ⟨hw, hd⟩ := List.mem_filter.mp hm
  exact (looped_apart frame h hw (by simpa using hd)).1 rfl

omit h in
theorem looped_idleThread : (a.looped frame).idleThread = a.idleThread :=
  visitAll_idleThread a.waiting

/-- A tick is the loop, the slice test, and the lock as it was. -/
theorem pitTick_looped : a.pitTick frame = (a.looped frame).endSlice.withLock (.unlocked true) := by
  obtain ⟨i, hi⟩ := h.unlocked
  rw [pitTick_eq frame hi]
  rfl

private theorem pitTick_waiting :
    (a.pitTick frame).waiting = a.waiting.filter fun t => !a.toCore.due t := by
  rw [pitTick_looped frame h]
  exact endSlice_waiting.trans (looped_waiting frame h)

private theorem pitTick_thread (ht : t ∈ a.waiting) (hd : a.toCore.due t = false) :
    (a.pitTick frame).thread t = (a.thread t).sleepOn := by
  obtain ⟨hcur, hready⟩ := looped_apart frame h ht hd
  have hidle : t ≠ (a.looped frame).idleThread := by
    rw [looped_idleThread]
    exact fun e => h.idle (e ▸ ht)
  rw [pitTick_looped frame h]
  refine (endSlice_thread_of_ne hcur hidle hready).trans ?_
  have hd' : (a.charge frame).toCore.due t = false := (charge_due frame).trans hd
  refine (visitAll_thread_not_due h.waitingNodup ht hd').trans ?_
  rw [charge_thread_of_ne t frame fun e => h.waiting (e ▸ ht)]

theorem Ticking.pitTick (hlive : (a.pitTick frame).currThread ≠ none)
    (hnd : (a.pitTick frame).ready.Nodup)
    (hap : (a.pitTick frame).waiting.Disjoint (a.pitTick frame).ready) :
    (a.pitTick frame).Ticking := by
  have hwait : ∀ t ∈ (a.pitTick frame).waiting, t ∈ a.waiting ∧ a.toCore.due t = false := by
    intro t ht
    rw [pitTick_waiting frame h] at ht
    simpa using List.mem_filter.mp ht
  have hidle : (a.pitTick frame).idleThread = a.idleThread := by
    rw [pitTick_looped frame h]
    exact endSlice_idleThread.trans (looped_idleThread frame)
  have hcur : (a.pitTick frame).cur = (a.looped frame).endSlice.cur := by
    rw [pitTick_looped frame h]
    rfl
  have hready : (a.pitTick frame).ready = (a.looped frame).endSlice.ready := by
    rw [pitTick_looped frame h]
    rfl
  refine ⟨⟨true, by rw [pitTick_looped frame h]; rfl⟩, hlive, ?_, ?_, ?_, hnd, ?_, hap⟩
  · rw [hcur, hready]
    exact endSlice_cur_not_mem (looped_cur_not_mem frame h) (looped_ready_nodup frame h)
  · intro hm
    obtain ⟨hw, hd⟩ := hwait _ hm
    obtain ⟨hne, hnot⟩ := looped_apart frame h hw hd
    rw [hcur] at hne hnot hw
    rcases endSlice_cur (a := a.looped frame) with e | e | e
    · exact hne e
    · rw [e, looped_idleThread] at hw
      exact h.idle hw
    · exact hnot e
  · rw [hidle]
    exact fun hm => h.idle (hwait _ hm).1
  · rw [pitTick_waiting frame h]
    exact h.waitingNodup.filter _

/-- The first due thread, when idle alone has the processor: its slice starts with the tick that
wakes it. -/
theorem looped_first {d : P} {ds : List P} (hi : a.Idling) (hds : a.dueThreads = d :: ds) :
    (a.looped frame).thread d =
      Core.woken (a.looped frame).toCore.getTimeMilliseconds (a.thread d) := by
  have hd := mem_dueThreads.mp (show d ∈ a.dueThreads by simp [hds])
  have hfirst : (a.charge frame).toCore.firstDue a.waiting = some d := by
    unfold Core.firstDue
    simp only [charge_due, ← List.head?_filter]
    exact congrArg List.head? hds
  have hnow : (a.looped frame).toCore.getTimeMilliseconds =
      (a.charge frame).toCore.getTimeMilliseconds := by
    unfold Core.getTimeMilliseconds
    rw [show (a.looped frame).tick = (a.charge frame).tick from visitAll_tick _]
  rw [hnow, ← charge_thread_of_ne d frame fun e => h.waiting (e ▸ hd.1)]
  exact ((visitAll_idling (show (a.charge frame).Idling from hi) h.waitingNodup h.idle).2 d
    hfirst).2

/-- With an empty budget it is switched away from in the same tick, and is nowhere. -/
theorem endSlice_loses {d : P} {ds : List P} (hi : a.Idling) (hds : a.dueThreads = d :: ds)
    (ho : (a.looped frame).toCore.SliceOver d) :
    (a.looped frame).endSlice.cur ≠ d ∧ d ∉ (a.looped frame).endSlice.ready := by
  have hd := mem_dueThreads.mp (show d ∈ a.dueThreads by simp [hds])
  have hcur : (a.looped frame).cur = d := by
    rw [(looped_idling frame h hi).1, hds]
    rfl
  have hidle : d ≠ (a.looped frame).idleThread := by
    rw [looped_idleThread]
    exact fun e => h.idle (e ▸ hd.1)
  have hdrops : (a.looped frame).Drops := by
    refine ⟨hcur ▸ ho, hcur ▸ hidle, ?_⟩
    rw [hcur, looped_first frame h hi hds]
    exact nofun
  have hone : (a.looped frame).places d = 1 := by
    have hr : d ∉ (a.looped frame).ready := hcur ▸ looped_cur_not_mem frame h
    have hw : d ∉ (a.looped frame).waiting := by
      rw [looped_waiting frame h]
      simp [hd.2]
    unfold places
    rw [if_pos hcur, List.count_eq_zero_of_not_mem hr, List.count_eq_zero_of_not_mem hw]
  have hgone := endSlice_places d (looped_cur_not_mem frame h) hidle
  rw [if_pos ⟨hdrops, hcur⟩, hone] at hgone
  unfold places at hgone
  constructor
  · intro e
    rw [if_pos e] at hgone
    omega
  · intro hm
    have := List.count_pos_iff.mpr hm
    omega

/-- A woken thread ends the tick current or ready, unless it got the processor from idle with no
budget. -/
theorem pitTick_lands_iff :
    (∀ t ∈ a.dueThreads, (a.pitTick frame).cur = t ∨ t ∈ (a.pitTick frame).ready) ↔ ¬ a.Loses := by
  rw [pitTick_looped frame h]
  show (∀ t ∈ a.dueThreads, (a.looped frame).endSlice.cur = t ∨
    t ∈ (a.looped frame).endSlice.ready) ↔ _
  by_cases hi : a.Idling
  · obtain ⟨hcur, hready⟩ := looped_idling frame h hi
    cases hds : a.dueThreads with
    | nil => simp [Loses, hds]
    | cons d ds =>
      rw [hds] at hcur hready
      have hblock := looped_first frame h hi hds
      have hlost : a.Loses ↔ (a.looped frame).toCore.SliceOver d := by
        rw [Core.sliceOver_start (by rw [hblock]; rfl), hblock, Loses, and_iff_right hi, hds]
        simp [Core.woken]
      rw [hlost]
      by_cases ho : (a.looped frame).toCore.SliceOver d
      · obtain ⟨hc, hr⟩ := endSlice_loses frame h hi hds ho
        exact ⟨fun hall => absurd (hall d List.mem_cons_self) (not_or.mpr ⟨hc, hr⟩),
          fun hno => absurd ho hno⟩
      · rw [endSlice_of_not_over (by rwa [hcur]), hcur, hready]
        refine ⟨fun _ => ho, fun _ t ht => ?_⟩
        cases ht with
        | head => exact .inl rfl
        | tail _ ht => exact .inr ht
  · have hready := (looped_busy frame h hi).2
    constructor
    · exact fun _ hl => hi hl.1
    · intro _ t ht
      refine endSlice_lands ?_
      rw [hready]
      exact List.mem_append_right _ ht

end tick

/-! ## Any number of ticks -/

/-- The tick on which a sleeper is due. -/
def wakesOn (t : P) (a : Queued P Q F) : Nat := max 1 (a.thread t).sleepTime.toNat

/-- A run of ticks, each with the frame it interrupts. -/
def ticks (frames : List F) (a : Queued P Q F) : Queued P Q F :=
  frames.foldl (fun a f => a.pitTick f) a

private theorem ticks_take_succ (f : F) (fs : List F) (n : Nat) :
    a.ticks ((f :: fs).take (n + 1)) = (a.pitTick f).ticks (fs.take n) := rfl

/-- **What `k` ticks leave of the waiting queue**: the queue in its order without the sleepers that
were due, the others `k` ticks nearer to waking, and blocked threads as they were. -/
structure Timed (k : Nat) (a b : Queued P Q F) : Prop where
  waiting : b.waiting =
    a.waiting.filter fun t => (a.thread t).state = .blocked ∨ k < a.wakesOn t
  blocked : ∀ t ∈ b.waiting, (a.thread t).state = .blocked → b.thread t = a.thread t
  sleeping : ∀ t ∈ b.waiting, (a.thread t).state ≠ .blocked →
    (b.thread t).state = (a.thread t).state ∧
    (b.thread t).sleepTime.toNat = (a.thread t).sleepTime.toNat - k

/-- Every sleeper is current or ready at the end of the tick on which it is due. -/
def Lands (frames : List F) (a : Queued P Q F) : Prop :=
  ∀ t ∈ a.waiting, (a.thread t).state ≠ .blocked → a.wakesOn t ≤ frames.length →
    (a.ticks (frames.take (a.wakesOn t))).cur = t ∨
      t ∈ (a.ticks (frames.take (a.wakesOn t))).ready

omit [DecidableEq P] [DecidableEq Q] in
theorem due_iff : a.toCore.due t = true ↔ (a.thread t).state ≠ .blocked ∧ a.wakesOn t = 1 := by
  have hle : (a.thread t).sleepTime ≤ 1 ↔ (a.thread t).sleepTime.toNat ≤ 1 := Iff.rfl
  simp only [Core.due, decide_eq_true_eq, wakesOn, hle]
  refine and_congr_right fun _ => ?_
  omega

omit [DecidableEq P] [DecidableEq Q] in
/-- A sleeper that is not due has one tick less to go. -/
theorem sleepOn_spec (hd : a.toCore.due t = false) (hb : (a.thread t).state ≠ .blocked) :
    (a.thread t).sleepOn.state = (a.thread t).state ∧
      (a.thread t).sleepOn.sleepTime.toNat + 1 = (a.thread t).sleepTime.toNat ∧
      2 ≤ (a.thread t).sleepTime.toNat := by
  have hlate : ¬ (a.thread t).sleepTime.toNat ≤ 1 := by
    simp only [Core.due, decide_eq_false_iff_not, not_and] at hd
    exact hd hb
  have hsub : ((a.thread t).sleepTime - 1).toNat = (a.thread t).sleepTime.toNat - 1 := by
    have h1 : (1 : Word).toNat = 1 := rfl
    rw [BitVec.toNat_sub_of_le (show (1 : Word).toNat ≤ _ by omega), h1]
  unfold ThreadBlock.sleepOn
  rw [if_neg hb]
  refine ⟨rfl, ?_, by omega⟩
  dsimp only
  omega

section run

variable (f : F) (h : a.Ticking)

include h

private theorem pitTick_wakesOn (ht : t ∈ a.waiting) (hd : a.toCore.due t = false)
    (hb : (a.thread t).state ≠ .blocked) : a.wakesOn t = (a.pitTick f).wakesOn t + 1 := by
  obtain ⟨-, hs, hle⟩ := sleepOn_spec hd hb
  unfold wakesOn
  rw [pitTick_thread f h ht hd]
  omega

private theorem pitTick_blocked_iff (ht : t ∈ a.waiting) (hd : a.toCore.due t = false) :
    ((a.pitTick f).thread t).state = .blocked ↔ (a.thread t).state = .blocked := by
  rw [pitTick_thread f h ht hd]
  unfold ThreadBlock.sleepOn
  split <;> rfl

/-- One tick before `k` others. -/
theorem Timed.cons {k : Nat} {b : Queued P Q F} (hk : Timed k (a.pitTick f) b) :
    Timed (k + 1) a b := by
  -- who still waits after the tick, waited before it and was not due
  have hback : ∀ t ∈ b.waiting, t ∈ a.waiting ∧ a.toCore.due t = false := by
    intro t ht
    rw [hk.waiting, pitTick_waiting f h] at ht
    simpa using List.mem_filter.mp (List.mem_of_mem_filter ht)
  constructor
  · rw [hk.waiting, pitTick_waiting f h, List.filter_filter]
    refine List.filter_congr fun t ht => ?_
    cases hd : a.toCore.due t with
    | true =>
      obtain ⟨hb, hone⟩ := due_iff.mp hd
      simp [hb, hone]
    | false =>
      have hiff : ((a.pitTick f).thread t).state = .blocked ∨ k < (a.pitTick f).wakesOn t ↔
          (a.thread t).state = .blocked ∨ k + 1 < a.wakesOn t := by
        rw [pitTick_blocked_iff f h ht hd]
        by_cases hb : (a.thread t).state = .blocked
        · simp [hb]
        · rw [pitTick_wakesOn f h ht hd hb]
          simp [hb]
      simp [hiff]
  · intro t ht hb
    obtain ⟨hw, hd⟩ := hback t ht
    rw [hk.blocked t ht ((pitTick_blocked_iff f h hw hd).mpr hb), pitTick_thread f h hw hd]
    exact if_pos hb
  · intro t ht hb
    obtain ⟨hw, hd⟩ := hback t ht
    obtain ⟨hstate, hsleep, -⟩ := sleepOn_spec hd hb
    obtain ⟨hstate', hsleep'⟩ := hk.sleeping t ht fun e => hb ((pitTick_blocked_iff f h hw hd).mp e)
    rw [pitTick_thread f h hw hd] at hstate' hsleep'
    refine ⟨hstate'.trans hstate, ?_⟩
    omega

private theorem lands_cons {fs : List F} : a.Lands (f :: fs) ↔
    (∀ t ∈ a.dueThreads, (a.pitTick f).cur = t ∨ t ∈ (a.pitTick f).ready) ∧
      (a.pitTick f).Lands fs := by
  constructor
  · intro hl
    constructor
    · intro t ht
      obtain ⟨hw, hd⟩ := mem_dueThreads.mp ht
      obtain ⟨hb, hone⟩ := due_iff.mp hd
      have := hl t hw hb (by rw [hone]; simp)
      rwa [hone] at this
    · intro t ht hb hle
      rw [pitTick_waiting f h] at ht
      obtain ⟨hw, hd⟩ := List.mem_filter.mp ht
      have hd : a.toCore.due t = false := by simpa using hd
      have hb' : (a.thread t).state ≠ .blocked := fun e =>
        hb ((pitTick_blocked_iff f h hw hd).mpr e)
      have hon := pitTick_wakesOn f h hw hd hb'
      have := hl t hw hb' (by rw [hon]; simpa using hle)
      rwa [hon, ticks_take_succ] at this
  · intro ⟨hdue, hl⟩ t hw hb hle
    cases hd : a.toCore.due t with
    | true =>
      rw [(due_iff.mp hd).2]
      exact hdue t (mem_dueThreads.mpr ⟨hw, hd⟩)
    | false =>
      have hon := pitTick_wakesOn f h hw hd hb
      have hmem : t ∈ (a.pitTick f).waiting := by
        rw [pitTick_waiting f h]
        exact List.mem_filter.mpr ⟨hw, by simp [hd]⟩
      rw [hon, ticks_take_succ]
      rw [hon, List.length_cons] at hle
      have hb' : ((a.pitTick f).thread t).state ≠ .blocked := fun e =>
        hb ((pitTick_blocked_iff f h hw hd).mp e)
      exact hl t hmem hb' (Nat.le_of_succ_le_succ hle)

end run

end Queued

namespace Sched

/-- **Sleep timers.** Ticks from an unlocked scheduler, with the current thread in no queue and
idle not waiting. They return, and they leave the waiting queue `Timed`, whatever waits in it. Every
sleeper is current or ready at the end of its own tick exactly if no tick finds idle alone with a
first due sleeper that has no budget. -/
theorem pitTicks_timed {fuel : Nat} {i : Bool} (frames : List F) (h : Sim s a)
    (hlock : a.toCore.lock = .unlocked i) (hr : a.cur ∉ a.ready) (hw : a.cur ∉ a.waiting)
    (hidle : a.idleThread ∉ a.waiting) (hf : a.waiting.length ≤ fuel) :
    ∃ outs s', s.pitTicks fuel frames = .ok (outs, s') ∧ Sim s' (a.ticks frames) ∧
      a.Timed frames.length (a.ticks frames) ∧
      (a.Lands frames ↔ ∀ j < frames.length, ¬ (a.ticks (frames.take j)).Loses) := by
  induction frames generalizing s a i with
  | nil =>
    refine ⟨[], s, rfl, h, ⟨?_, fun _ _ _ => rfl, fun _ _ _ => ⟨rfl, rfl⟩⟩, ?_⟩
    · refine (List.filter_eq_self.mpr fun t _ => ?_).symm
      exact decide_eq_true (.inr (Nat.lt_of_lt_of_le Nat.one_pos (Nat.le_max_left ..)))
    · refine ⟨fun _ j hj => absurd hj (Nat.not_lt_zero j), fun _ t _ _ hle => ?_⟩
      simp [Queued.wakesOn] at hle
  | cons f fs ih =>
    have ht : a.Ticking :=
      ⟨⟨i, hlock⟩, h.live, hr, hw, hidle, h.ready.nodup, h.waiting.nodup, h.apart⟩
    obtain ⟨s₁, hs₁, h₁⟩ := h.pitTick hf hlock (Queued.looped_settled f ht)
    have ht₁ := ht.pitTick f h₁.live h₁.ready.nodup h₁.apart
    obtain ⟨j, hj⟩ := ht₁.unlocked
    have hlen : (a.pitTick f).waiting.length ≤ fuel := by
      rw [Queued.pitTick_waiting f ht]
      exact Nat.le_trans (List.length_filter_le _ _) hf
    obtain ⟨outs, s', hs', hsim, htimed, hlands⟩ :=
      ih h₁ hj ht₁.ready ht₁.waiting ht₁.idle hlen
    refine ⟨(a.pitTick f).frame :: outs, s', ?_, hsim, htimed.cons f ht, ?_⟩
    · simp only [pitTicks, hs₁, ok_bind, hs', pure_eq_ok]
    · rw [Queued.lands_cons f ht, Queued.pitTick_lands_iff f ht, hlands, List.length_cons,
        Nat.forall_lt_succ_left]
      exact Iff.rfl

/-- Idle is thread `0` and current. Thread `1` has `budget` and sleeps for one more tick. -/
def napping (budget : Word) : Queued (Fin 2) Unit Unit where
  toCore := ((boot (fun t : Fin 2 => { ThreadBlock.construct 0 () () with
      state := if t = 1 then .sleep else .ready
      sleepTime := if t = 1 then 1 else 0
      scheduledTime := budget }) (fun _ => .construct 0 false) 0).construct 0).toCore
  waiting := [1]
  ready := []

/-- The same state in pointers. -/
def nappingSched (budget : Word) : Sched (Fin 2) Unit Unit where
  toCore := (napping budget).toCore
  hook := fun _ => none
  waitingQueue := ⟨some 1, some 1⟩
  readyThreads := {}

private theorem napping_sim (budget : Word) : Sim (nappingSched budget) (napping budget) :=
  ⟨rfl, Option.some_ne_none _, ⟨⟨rfl, rfl⟩, rfl⟩, SingleDeque.represents_nil _,
    List.disjoint_nil_right _⟩

/-- With a budget, the thread is current after its tick. -/
theorem pitTicks_timed_napping : ∃ outs s', (nappingSched 6).pitTicks 1 [()] = .ok (outs, s') ∧
    (napping 6).Lands [()] := by
  obtain ⟨outs, s', hs', -, -, hiff⟩ := pitTicks_timed (i := false) [()] (napping_sim 6) rfl
    (by decide) (by decide) (by decide) (Nat.le_refl 1)
  refine ⟨outs, s', hs', hiff.mpr fun j hj hl => ?_⟩
  obtain rfl : j = 0 := Nat.lt_one_iff.mp hj
  obtain ⟨-, d, hd, hz⟩ := hl
  obtain rfl : (1 : Fin 2) = d := Option.some.inj hd
  exact absurd hz (by decide)

/-- Without one, it is neither current nor in a queue. -/
theorem pitTicks_loses_napping : ∃ outs s', (nappingSched 0).pitTicks 1 [()] = .ok (outs, s') ∧
    s'.currThread = some 0 ∧ s'.readyThreads.Represents s'.hook [] ∧
    s'.waitingQueue.Represents s'.hook [] :=
  ⟨_, _, rfl, rfl, SingleDeque.represents_nil _, SingleDeque.represents_nil _⟩

end Sched

end TwoKernel
