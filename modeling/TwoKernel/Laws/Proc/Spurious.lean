import TwoKernel.Laws.Proc.Places
import TwoKernel.Laws.Proc.Queued
import TwoKernel.Laws.Proc.Rotation

/-!
# Spurious wake-ups

`unblock(t)` takes `t` out of the waiting queue if it is there, and then links it
into the ready queue (or gives it an idle processor) in any case. A thread that
was not waiting has its only link written once more: a thread in the middle of
the ready queue becomes the last one and whoever stood behind it is gone, the
last one is linked to itself, and the current one is queued beside running.

`unblock_undisturbed_iff` says when nothing of this happens. What decides is
where `t` is, and whether a switch is owed although nobody holds the lock: the
unlock at the end then makes that switch, and a switch can undo the damage, since
it pops the first thread and may push the outgoing one behind the last.
-/

namespace TwoKernel

open TwoKernel.Core

attribute [local instance] neZero_three

variable {P Q F : Type} [DecidableEq P] [DecidableEq Q]
variable {s s' : Sched P Q F} {a b : Queued P Q F} {t : P}

namespace Queued

/-- Every thread that was in exactly one place still is, and `t` is in one place at most. -/
def Undisturbed (t : P) (a b : Queued P Q F) : Prop :=
  (∀ p, a.places p = 1 → b.places p = 1) ∧ b.places t ≤ 1

/-- No thread but idle is in two places, and `t`, if it is not idle, is in one. -/
structure WellPlaced (t : P) (a : Queued P Q F) : Prop where
  live : a.currThread ≠ none
  once : ∀ p, p ≠ a.idleThread → a.places p ≤ 1
  here : t ≠ a.idleThread → a.places t = 1

namespace WellPlaced

omit [DecidableEq Q]

private theorem idling_iff (h : a.WellPlaced t) : a.Idling ↔ a.ready = [] ∧ a.cur = a.idleThread := by
  unfold Idling
  rw [curr_eq h.live, Option.some_inj]

/-- A current thread other than idle is in no queue. -/
theorem unlinked (h : a.WellPlaced t) (hne : a.cur ≠ a.idleThread) :
    a.cur ∉ a.ready ∧ a.cur ∉ a.waiting := by
  have hle := h.once a.cur hne
  unfold places at hle
  rw [if_pos rfl] at hle
  constructor
  · intro hm
    have := List.count_pos_iff.mpr hm
    omega
  · intro hm
    have := List.count_pos_iff.mpr hm
    omega

theorem settled (h : a.WellPlaced t) : a.Settled := fun _ hne => h.unlinked hne

end WellPlaced

section

omit [DecidableEq Q]

private theorem places_unlinked (hr : t ∉ a.ready) (hw : t ∉ a.waiting) :
    a.places t = if a.cur = t then 1 else 0 := by
  unfold places
  rw [List.count_eq_zero_of_not_mem hr, List.count_eq_zero_of_not_mem hw]
  rfl

/-- A thread in no queue that is not idle is the current one. -/
theorem WellPlaced.cur_eq (h : a.WellPlaced t) (hr : t ∉ a.ready) (hw : t ∉ a.waiting)
    (hne : t ≠ a.idleThread) : a.cur = t := by
  have hone := h.here hne
  rw [places_unlinked hr hw] at hone
  split at hone
  case isTrue hc => exact hc
  case isFalse => cases hone

private theorem release_places_of_not_mem (hw : t ∉ a.waiting) (p : P) :
    (a.release t).places p = a.places p := by
  have hwait : (a.release t).waiting = a.waiting := List.erase_of_not_mem hw
  exact places_congr p rfl rfl hwait

private theorem undisturbed_of_same (hsame : ∀ p, b.places p = a.places p) (hle : a.places t ≤ 1) :
    a.Undisturbed t b := by
  constructor
  · intro p hp
    rw [hsame, hp]
  · rwa [hsame]

/-- One more link of `t` is harmless only if `t` was nowhere. -/
theorem undisturbed_added_iff (hadd : ∀ p, b.places p = a.places p + if t = p then 1 else 0) :
    a.Undisturbed t b ↔ a.places t = 0 := by
  have ht := hadd t
  rw [if_pos rfl] at ht
  constructor
  · intro hund
    have := hund.2
    omega
  · intro hzero
    constructor
    · intro p hp
      have hne : t ≠ p := by
        intro e
        rw [← e] at hp
        omega
      rw [hadd, if_neg hne, hp]
    · omega

end

/-! ## A thread that is in no queue -/

section unlinked

variable (h : a.WellPlaced t) (hr : t ∉ a.ready) (hw : t ∉ a.waiting)

private theorem wake_places_busy (hw : t ∉ a.waiting) (hi : ¬ a.Idling) (p : P) :
    (a.wake t).places p = a.places p + if t = p then 1 else 0 := by
  rw [wake_busy a t hi, pushReady_places, release_places_of_not_mem hw]

omit [DecidableEq Q] in
include hr hw in
theorem places_unlinked_le : a.places t ≤ 1 := by
  rw [places_unlinked hr hw]
  split <;> omega

include h hr hw

omit [DecidableEq Q] in
/-- While idle has the processor and nobody is ready, idle is the only thread in no queue. -/
theorem eq_idle_of_idling (hi : a.Idling) : t = a.idleThread := by
  by_contra hne
  exact hne ((h.cur_eq hr hw hne).symm.trans (h.idling_iff.mp hi).2)

/-- Waking idle while it idles changes nobody's place. -/
theorem wake_places_idling (hi : a.Idling) (p : P) : (a.wake t).places p = a.places p := by
  have hidle := eq_idle_of_idling h hr hw hi
  have hcur : (a.release t).cur = t := (h.idling_iff.mp hi).2.trans hidle.symm
  have hout : ¬ (a.release t).Requeues := fun hreq => hreq.2 (hcur.trans hidle)
  have hsum := (a.release t).switchTask_places p t
  rw [if_neg hout, release_places_of_not_mem hw, hcur] at hsum
  rw [wake_idling a t hi]
  omega

private theorem wake_undisturbed_iff :
    a.Undisturbed t (a.wake t) ↔ t = a.idleThread ∧ (a.cur = a.idleThread → a.ready = []) := by
  by_cases hi : a.Idling
  · have hsame := wake_places_idling h hr hw hi
    have hund := undisturbed_of_same hsame (places_unlinked_le hr hw)
    exact ⟨fun _ => ⟨eq_idle_of_idling h hr hw hi, fun _ => hi.1⟩, fun _ => hund⟩
  · rw [undisturbed_added_iff (wake_places_busy hw hi), places_unlinked hr hw, ite_eq_right_iff]
    constructor
    · intro hcur
      have hidle : t = a.idleThread := by
        by_contra hne
        cases hcur (h.cur_eq hr hw hne)
      exact ⟨hidle, fun hc => absurd (hcur (hc.trans hidle.symm)) Nat.one_ne_zero⟩
    · intro ⟨hidle, hempty⟩ hc
      have hc' := hc.trans hidle
      exact absurd (h.idling_iff.mpr ⟨hempty hc', hc'⟩) hi

private theorem WellPlaced.settled_wake : (a.wake t).Settled := by
  by_cases hi : a.Idling
  · intro _ hne
    rw [wake_idleThread] at hne
    rw [wake_idling a t hi, switchTask_cur] at hne
    exact absurd (eq_idle_of_idling h hr hw hi) hne
  · rw [wake_busy a t hi]
    intro hrun hne
    obtain ⟨hcr, hcw⟩ := h.unlinked hne
    have hct : a.cur ≠ t := by
      intro e
      have hready : ((a.toCore.markWoken t).thread a.cur).state = .ready := by
        rw [e]
        simp [Core.markWoken]
      cases hready.symm.trans hrun
    constructor
    · intro hm
      rcases List.mem_append.mp hm with hm | hm
      · exact hcr hm
      · exact hct (List.mem_singleton.mp hm)
    · exact fun hm => hcw (List.mem_of_mem_erase hm)

omit hr hw in
/-- With `t` pushed, the switch finds the outgoing thread Running if it was and is not `t`, or if
it is popped itself. -/
theorem wake_keeps_iff (hi : ¬ a.Idling) : (a.wake t).Keeps ↔
    a.cur ≠ a.idleThread ∧ (a.cur ≠ t ∧ (a.thread a.cur).state = .running ∨
      a.cur = t ∧ a.ready = []) := by
  rw [wake_busy a t hi]
  unfold Keeps
  show a.cur ≠ a.idleThread ∧ (((a.toCore.markWoken t).thread a.cur).state = .running ∨
    (a.ready ++ [t]).head? = some a.cur) ↔ _
  refine and_congr_right fun hne => ?_
  have hhead : (a.ready ++ [t]).head? = some a.cur ↔ a.cur = t ∧ a.ready = [] := by
    cases hr : a.ready with
    | nil => simp [eq_comm]
    | cons x l =>
      have hx : x ≠ a.cur := fun e => (h.unlinked hne).1 (by simp [hr, e])
      simp [hx]
  rw [hhead]
  by_cases hc : a.cur = t
  · rw [hc]
    simp [Core.markWoken]
  · rw [Core.markWoken_thread_of_ne _ t a.cur hc]
    simp [hc]

/-- Idle, alone on the processor, is woken: it is current as before. -/
theorem wake_switch_idling (hi : a.Idling) : a.Undisturbed t (a.wake t).switchNow := by
  have hcur : (a.wake t).cur = a.idleThread := by
    rw [wake_idling a t hi, switchTask_cur, eq_idle_of_idling h hr hw hi]
  have hempty : (a.wake t).ready = [] := by
    have hout : ¬ (a.release t).Requeues := fun hreq => hreq.2 (h.idling_iff.mp hi).2
    rw [wake_idling a t hi, switchTask_ready, if_neg hout]
    exact hi.1
  refine undisturbed_of_same (fun p => ?_) (places_unlinked_le hr hw)
  have hout : ¬ (a.wake t).Requeues := fun hreq => hreq.2 (by rw [hcur, wake_idleThread])
  have hsum := (a.wake t).switchTask_places p (a.wake t).idleThread
  rw [if_neg hout, hcur, wake_places_idling h hr hw hi, wake_idleThread] at hsum
  rw [switchNow_nil _ hempty, wake_idleThread]
  omega

omit h hr in
/-- What the wake and the switch after it add and take away. -/
theorem wake_switch_places (hi : ¬ a.Idling) (p : P) : (a.wake t).switchNow.places p +
    (if (a.wake t).Keeps then 0 else if a.cur = p then 1 else 0) =
      a.places p + if t = p then 1 else 0 := by
  obtain ⟨x, l, hxl⟩ : ∃ x l, (a.wake t).ready = x :: l := by
    rw [wake_busy a t hi]
    exact List.exists_cons_of_ne_nil (by simp [pushReady])
  have hcur : (a.wake t).cur = a.cur := by
    rw [wake_busy a t hi]
    rfl
  rw [← wake_places_busy hw hi, ← hcur]
  exact (a.wake t).switchNow_places_cons p x hxl

/-- The current thread is woken. -/
theorem wake_switch_current (hi : ¬ a.Idling) (hc : a.cur = t) :
    a.Undisturbed t (a.wake t).switchNow ↔ t = a.idleThread ∨ a.ready ≠ [] := by
  have hkeeps := wake_keeps_iff h hi
  have hsw := wake_switch_places hw hi
  by_cases hk : (a.wake t).Keeps
  · -- `t` is popped itself: it is put back behind nobody and runs on
    have hne : t ≠ a.idleThread := hc ▸ (hkeeps.mp hk).1
    have hempty : a.ready = [] :=
      ((hkeeps.mp hk).2.resolve_left fun hrun => hrun.1 hc).2
    simp only [if_pos hk, Nat.add_zero] at hsw
    rw [undisturbed_added_iff hsw, h.here hne]
    simp [hne, hempty]
  · -- `t` is Ready by now: the switch takes it off the processor and leaves it queued
    have hsame : ∀ p, (a.wake t).switchNow.places p = a.places p := by
      intro p
      have hp := hsw p
      rw [if_neg hk, hc] at hp
      omega
    refine iff_of_true (undisturbed_of_same hsame (places_unlinked_le hr hw)) ?_
    by_contra hno
    rw [not_or, not_not] at hno
    exact hk (hkeeps.mpr ⟨hc ▸ hno.1, .inr ⟨hc, hno.2⟩⟩)

/-- Idle is woken while another thread is current. -/
theorem wake_switch_other (hi : ¬ a.Idling) (hne : a.cur ≠ a.idleThread) (hc : a.cur ≠ t) :
    a.Undisturbed t (a.wake t).switchNow ↔ (a.thread a.cur).state = .running := by
  have hkeeps := wake_keeps_iff h hi
  have hsw := wake_switch_places hw hi
  by_cases hrun : (a.thread a.cur).state = .running
  · have hk : (a.wake t).Keeps := hkeeps.mpr ⟨hne, .inl ⟨hc, hrun⟩⟩
    have hzero : a.places t = 0 := by rw [places_unlinked hr hw, if_neg hc]
    simp only [if_pos hk, Nat.add_zero] at hsw
    exact iff_of_true ((undisturbed_added_iff hsw).mpr hzero) hrun
  · -- an outgoing thread that is not Running is lost
    have hk : ¬ (a.wake t).Keeps := fun hk =>
      (hkeeps.mp hk).2.elim (fun h => hrun h.2) fun h => hc h.1
    obtain ⟨hcr, hcw⟩ := h.unlinked hne
    have hone : a.places a.cur = 1 := by rw [places_unlinked hcr hcw, if_pos rfl]
    have hlost := hsw a.cur
    rw [if_neg hk, if_pos rfl, if_neg (Ne.symm hc), hone] at hlost
    refine iff_of_false (fun hund => ?_) hrun
    have hkept := hund.1 a.cur hone
    omega

private theorem wake_switch_undisturbed_iff :
    a.Undisturbed t (a.wake t).switchNow ↔
      t = a.idleThread ∧ (a.cur = a.idleThread ∨ a.Requeues) ∨
      t = a.cur ∧ t ≠ a.idleThread ∧ a.ready ≠ [] := by
  by_cases hi : a.Idling
  · have hidle := eq_idle_of_idling h hr hw hi
    exact iff_of_true (wake_switch_idling h hr hw hi) (.inl ⟨hidle, .inl (h.idling_iff.mp hi).2⟩)
  by_cases hc : a.cur = t
  · rw [wake_switch_current h hr hw hi hc]
    by_cases hidle : t = a.idleThread
    · exact iff_of_true (.inl hidle) (.inl ⟨hidle, .inl (hc.trans hidle)⟩)
    · simp [hidle, hc]
  · have hidle : t = a.idleThread := by
      by_contra hne
      exact hc (h.cur_eq hr hw hne)
    have hne : a.cur ≠ a.idleThread := fun e => hc (e.trans hidle.symm)
    rw [wake_switch_other h hr hw hi hne hc]
    constructor
    · intro hrun
      exact .inl ⟨hidle, .inr ⟨hrun, hne⟩⟩
    · intro hcond
      rcases hcond with ⟨-, hcur | hreq⟩ | ⟨htc, -⟩
      · exact absurd hcur hne
      · exact hreq.1
      · exact absurd htc.symm hc

end unlinked

/-! ## A thread in the ready queue -/

/-- The list state after `t`, with somebody behind it in the ready queue, was pushed once more. -/
def cut (t : P) (front : List P) (a : Queued P Q F) : Queued P Q F :=
  { a with ready := front ++ [t], toCore := a.toCore.markWoken t }

section linked

variable {front behind : List P} (h : a.WellPlaced t) (hnd : a.ready.Nodup)
  (hap : a.waiting.Disjoint a.ready) (hr : a.ready = front ++ t :: behind)

omit [DecidableEq Q] in
include hr in
theorem cut_places (p : P) : (a.cut t front).places p + behind.count p = a.places p := by
  show (if a.cur = p then 1 else 0) + (front ++ [t]).count p + a.waiting.count p + _ = _
  unfold places
  have hcount : (front ++ t :: behind).count p = (front ++ [t]).count p + behind.count p := by
    rw [← List.count_append]
    simp
  rw [hr, hcount]
  omega

omit [DecidableEq Q] in
include hap in
/-- Where idle is, if it is in the ready queue. -/
theorem places_of_ready (hm : t ∈ a.ready) (hnd : a.ready.Nodup) :
    a.places t = (if a.cur = t then 1 else 0) + 1 := by
  unfold places
  rw [List.count_eq_one_of_mem hnd hm, List.count_eq_zero_of_not_mem fun hw => hap hw hm]

include h hnd hap hr

omit [DecidableEq Q] in
/-- Cutting the queue behind `t` is harmless only if idle alone stood there, and idle has the
processor. -/
theorem undisturbed_cut_iff (hne : behind ≠ [])
    (hle : ∀ p, b.places p ≤ (a.cut t front).places p)
    (hkeep : a.cur = a.idleThread →
      ∀ p, p ≠ a.idleThread → b.places p = (a.cut t front).places p) :
    a.Undisturbed t b ↔ behind = [a.idleThread] ∧ a.cur = a.idleThread := by
  have hcut := cut_places hr
  constructor
  · intro hund
    -- whoever stood behind `t` has no place left in the ready queue
    have hbehind : ∀ p ∈ behind, p = a.idleThread ∧ a.cur = a.idleThread := by
      intro p hp
      have hm : p ∈ a.ready := by
        rw [hr]
        simp [hp]
      have hcount : 0 < behind.count p := List.count_pos_iff.mpr hp
      have hplaces := places_of_ready hap hm hnd
      have hlost : a.places p ≠ 1 := by
        intro hone
        have := hund.1 p hone
        have := hcut p
        have := hle p
        omega
      have hcur : a.cur = p := by
        by_contra hc
        rw [if_neg hc] at hplaces
        omega
      have hidle : p = a.idleThread := by
        by_contra hpi
        have := h.once p hpi
        rw [if_pos hcur] at hplaces
        omega
      exact ⟨hidle, hcur.trans hidle⟩
    obtain ⟨x, l, rfl⟩ := List.exists_cons_of_ne_nil hne
    have hx := hbehind x List.mem_cons_self
    refine ⟨?_, hx.2⟩
    cases l with
    | nil => rw [hx.1]
    | cons y l =>
      have hy := (hbehind y (by simp)).1
      rw [hr, hx.1, hy] at hnd
      have hdup := (List.nodup_cons.mp (List.nodup_append.mp hnd).2.1).2
      exact absurd List.mem_cons_self (List.nodup_cons.mp hdup).1
  · intro ⟨hbeh, hcur⟩
    have hidle : a.places a.idleThread = 2 := by
      rw [places_of_ready hap (by simp [hr, hbeh]) hnd, if_pos hcur]
    have hother : ∀ p, p ≠ a.idleThread → b.places p = a.places p := by
      intro p hp
      have hcount : behind.count p = 0 := List.count_eq_zero_of_not_mem (by simp [hbeh, hp])
      rw [hkeep hcur p hp, ← hcut p, hcount]
      rfl
    have ht : t ≠ a.idleThread := by
      intro e
      rw [hr, hbeh, e] at hnd
      exact (List.nodup_cons.mp (List.nodup_append.mp hnd).2.1).1 List.mem_cons_self
    constructor
    · intro p hp
      have hpi : p ≠ a.idleThread := by
        intro e
        rw [e, hidle] at hp
        cases hp
      rw [hother p hpi, hp]
    · exact Nat.le_of_eq ((hother t ht).trans (h.here ht))

omit h hnd hap hr in
theorem cut_switch_places (front : List P) (p : P) :
    (a.cut t front).switchNow.places p +
      (if (a.cut t front).Keeps then 0 else if a.cur = p then 1 else 0) =
    (a.cut t front).places p := by
  obtain ⟨x, l, hxl⟩ : ∃ x l, (a.cut t front).ready = x :: l :=
    List.exists_cons_of_ne_nil (by simp [cut])
  exact (a.cut t front).switchNow_places_cons p x hxl

omit [DecidableEq Q] in
theorem cut_undisturbed_iff (hne : behind ≠ []) :
    a.Undisturbed t (a.cut t front) ↔ behind = [a.idleThread] ∧ a.cur = a.idleThread :=
  undisturbed_cut_iff h hnd hap hr hne (fun _ => Nat.le_refl _) fun _ _ _ => rfl

private theorem cut_switch_undisturbed_iff (hne : behind ≠ []) :
    a.Undisturbed t (a.cut t front).switchNow ↔
      behind = [a.idleThread] ∧ a.cur = a.idleThread := by
  refine undisturbed_cut_iff h hnd hap hr hne (fun p => ?_) fun hcur p hp => ?_
  · have := a.cut_switch_places (t := t) front p
    omega
  · have hsum := a.cut_switch_places (t := t) front p
    rw [if_neg (show ¬ a.cur = p from fun e => hp (e.symm.trans hcur)), ite_self] at hsum
    exact hsum

end linked

omit [DecidableEq Q] in
/-- After a thread of the ready queue was marked, the switch finds the outgoing one Running exactly if
it was. -/
theorem WellPlaced.markWoken_keeps_iff (hp : a.WellPlaced t) (hm : t ∈ a.ready) :
    (a.mapCore (·.markWoken t)).Keeps ↔ a.Requeues := by
  unfold Keeps Requeues
  show a.cur ≠ a.idleThread ∧ (((a.toCore.markWoken t).thread a.cur).state = .running ∨
    a.ready.head? = some a.cur) ↔ _
  rw [and_comm]
  refine and_congr_left fun hne => ?_
  have hout := (hp.unlinked hne).1
  rw [Core.markWoken_thread_of_ne _ t a.cur fun e => hout (e ▸ hm)]
  exact or_iff_left (head_ne_cur hout)

end Queued

/-! ## The pointer state after the wake-up -/

/-- The queues stand for lists in which nobody is disturbed. -/
def Sched.Undisturbed (t : P) (a : Queued P Q F) (s : Sched P Q F) : Prop :=
  ∃ b, Sim s b ∧ a.Undisturbed t b

namespace Sim

omit [DecidableEq Q]

private theorem places_eq (h : Sim s a) (h' : Sim s b) (p : P) : a.places p = b.places p := by
  have hcore : a.toCore = b.toCore := h.core.symm.trans h'.core
  have hcur : a.cur = b.cur := by
    unfold Queued.cur
    rw [hcore]
  exact Queued.places_congr p hcur (h.ready.unique h'.ready) (h.waiting.unique h'.waiting)

theorem undisturbed_iff (h : Sim s b) : s.Undisturbed t a ↔ a.Undisturbed t b := by
  constructor
  · intro ⟨b', h', hund⟩
    refine ⟨fun p hp => ?_, ?_⟩
    · rw [h.places_eq h']
      exact hund.1 p hp
    · rw [h.places_eq h']
      exact hund.2
  · intro hund
    exact ⟨b, h, hund⟩

omit [DecidableEq P] in
/-- A queue whose last node links to itself is no list. -/
theorem not_loop (hloop : s.hook t = some t) (htail : s.readyThreads.tail = some t) :
    ¬ Sim s b := by
  intro h
  have := h.ready.tail_link htail
  rw [hloop] at this
  cases this

end Sim

namespace Sched

omit [DecidableEq Q] in
theorem undisturbed_withLock (k : Lock) : (s.withLock k).Undisturbed t a ↔ s.Undisturbed t a := by
  constructor
  · intro ⟨b, h, hund⟩
    exact ⟨_, h.mapCore (·.withLock s.toCore.lock) h.live, hund⟩
  · intro ⟨b, h, hund⟩
    exact ⟨_, h.mapCore (·.withLock k) h.live, hund⟩

/-- What a push of the last node of the ready queue leaves behind. -/
def looped (t : P) (s : Sched P Q F) : Sched P Q F :=
  { s.mapCore (·.markWoken t) with hook := Function.update s.hook t (some t) }

variable {fuel : Nat} {front behind : List P}

private theorem wake_linked (h : Sim s a) (hf : a.waiting.length ≤ fuel) (hw : t ∉ a.waiting)
    (hm : t ∈ a.ready) : s.wake fuel t = .ok ((s.mapCore (·.markWoken t)).pushReady t) := by
  have hrm : s.removeWaiting fuel t = .ok s := by
    simp only [removeWaiting, SingleDeque.remove_of_not_mem h.waiting hf hw, ok_bind, pure_eq_ok]
  have hbusy : ¬ (s.readyThreads.empty = true ∧ s.currThread = some s.idleThread) := by
    rw [h.empty_iff]
    exact fun hc => List.ne_nil_of_mem hm hc.1
  simp only [wake, hrm, ok_bind]
  exact if_neg hbusy

private theorem wake_cut (h : Sim s a) (hf : a.waiting.length ≤ fuel) (hw : t ∉ a.waiting)
    (hr : a.ready = front ++ t :: behind) (hne : behind ≠ []) :
    ∃ s', s.wake fuel t = .ok s' ∧ Sim s' (a.cut t front) := by
  refine ⟨_, wake_linked h hf hw (by simp [hr]),
    congrArg (·.markWoken t) h.core, h.live, ?_, ?_, ?_⟩
  · refine h.waiting.frame fun x hx => ?_
    exact SingleDeque.pushTail_frame h.ready (h.apart hx) fun e => hw (e ▸ hx)
  · exact SingleDeque.pushTail_cuts (hr ▸ h.ready) hne
  · intro x hx hx'
    refine h.apart hx ?_
    rw [hr]
    rcases List.mem_append.mp hx' with hx' | hx'
    · exact List.mem_append_left _ hx'
    · exact List.mem_append_right _ (List.mem_singleton.mp hx' ▸ List.mem_cons_self)

private theorem wake_looped (h : Sim s a) (hf : a.waiting.length ≤ fuel) (hw : t ∉ a.waiting)
    (hr : a.ready = front ++ [t]) : s.wake fuel t = .ok (s.looped t) := by
  have htail : s.readyThreads.tail = some t := by
    rw [h.ready.tail, hr]
    exact List.getLast?_concat
  rw [wake_linked h hf hw (by simp [hr])]
  unfold pushReady looped
  rw [show (s.mapCore (·.markWoken t)).readyThreads.pushTail (s.mapCore (·.markWoken t)).hook t = _
    from SingleDeque.pushTail_tail htail]
  rfl

/-! ## The switch that is owed -/

/-- The quantum `schedule()` takes off the outgoing thread's budget, if one has passed. -/
def paid (cur : P) (c : Core P Q F) : Core P Q F :=
  if c.timeQuantumPast then c.payQuantum cur else c

/-- The state `schedule()` hands to `switch_task` once it has popped `next`. -/
def popped (cur next : P) (s : Sched P Q F) : Sched P Q F :=
  { s with
    readyThreads := (s.readyThreads.popHead s.hook).2
    toCore := (paid cur s.toCore).setState next .running }

private theorem switchNow_popped {cur next : P} (hcur : s.currThread = some cur)
    (hhead : s.readyThreads.head = some next) :
    s.switchNow = (s.popped cur next).switchTask next := by
  have hne : ¬ s.readyThreads.empty = true := by simp [SingleDeque.empty, hhead]
  unfold popped paid
  by_cases hq : s.timeQuantumPast = true
  · rw [switchNow_past hne hq, hcur, deref_some, ok_bind, if_pos hq]
    exact switchHead_eq (s := s.mapCore (·.payQuantum cur)) hhead
  · rw [switchNow_within hne hq, if_neg hq]
    exact switchHead_eq hhead

/-- The switch puts the outgoing thread behind the last one, and so overwrites whatever link the
last one had. -/
theorem switchTask_update_tail {cur : P} (next : P) (o : Option P)
    (hcur : s.currThread = some cur) (htail : s.readyThreads.tail = some t) (hne : cur ≠ t)
    (hreq : (s.thread cur).state = .running ∧ cur ≠ s.idleThread) :
    switchTask next { s with hook := Function.update s.hook t o } = s.switchTask next := by
  have hpush : ∀ f : Core P Q F → Core P Q F,
      pushReady cur { s.mapCore f with hook := Function.update s.hook t o } =
        (s.mapCore f).pushReady cur := by
    intro f
    unfold pushReady
    rw [show SingleDeque.pushTail (Function.update s.hook t o) (s.mapCore f).readyThreads cur =
      (s.mapCore f).readyThreads.pushTail s.hook cur from
        SingleDeque.pushTail_update_tail htail hne]
    rfl
  have hadd : addReadyThreads cur { s with hook := Function.update s.hook t o } =
      s.addReadyThreads cur := by
    rw [addReadyThreads_of_current (s := { s with hook := Function.update s.hook t o }) hcur,
      addReadyThreads_of_current hcur]
    split
    · exact hpush fun c => (c.setState cur .ready).setQuantumPast false
    · exact hpush (·.markReady cur)
  simp only [switchTask, hcur, deref_some, ok_bind, if_pos hreq, hadd]

/-- With somebody queued, the switch leaves the head of the queue. -/
theorem switchTask_head {cur y : P} (next : P) (hcur : s.currThread = some cur)
    (htail : s.readyThreads.tail = some y) :
    ∃ s', s.switchTask next = .ok s' ∧ s'.currThread = some next ∧
      s'.readyThreads.head = s.readyThreads.head := by
  have hpush : (s.readyThreads.pushTail s.hook cur).2.head = s.readyThreads.head := by
    simp only [SingleDeque.pushTail, htail]
  refine ⟨_, by simp only [switchTask, hcur, deref_some, ok_bind, pure_eq_ok]; rfl,
    Core.dispatch_currThread .., ?_⟩
  split
  · rw [addReadyThreads_of_current hcur]
    split <;> exact hpush
  · rfl

/-- A switch that drops the outgoing thread writes no link. -/
theorem switchTask_drops {cur : P} (next : P) (hcur : s.currThread = some cur)
    (hreq : ¬ ((s.thread cur).state = .running ∧ cur ≠ s.idleThread)) :
    ∃ s', s.switchTask next = .ok s' ∧ s'.hook = s.hook ∧ s'.readyThreads = s.readyThreads := by
  refine ⟨_, by simp only [switchTask, hcur, deref_some, ok_bind, pure_eq_ok]; rfl, ?_⟩
  rw [if_neg hreq]
  exact ⟨rfl, rfl⟩

end Sched

omit [DecidableEq Q] in
theorem Sim.popped {next : P} {rest : List P} (h : Sim s a) (hr : a.ready = next :: rest) :
    Sim (s.popped a.cur next) (a.popped next rest) := by
  have hflag : s.timeQuantumPast = a.timeQuantumPast := by rw [h.core]
  unfold Sched.popped Sched.paid Queued.popped
  rw [hflag]
  split
  · exact ((h.mapCore (·.payQuantum a.cur) h.live).popReady hr).2
  · exact (h.popReady hr).2

namespace Sched

omit [DecidableEq Q] in
/-- The first of two or more threads is popped as if the loop at the end were not there. -/
theorem looped_popped {cur x : P} (hx : s.readyThreads.head = some x) (hne : x ≠ t) :
    (s.looped t).popped cur x = { (s.mapCore (·.markWoken t)).popped cur x with
      hook := Function.update s.hook t (some t) } := by
  have hpop : s.readyThreads.popHead (Function.update s.hook t (some t)) =
      s.readyThreads.popHead s.hook := by
    simp only [SingleDeque.popHead, hx, Function.update_of_ne hne]
  unfold popped
  rw [show (s.looped t).readyThreads.popHead (s.looped t).hook = _ from hpop]
  rfl

variable {front : List P}

/-- A loop of one thread: the switch makes it current and leaves it at the head of the queue. -/
theorem looped_alone (h : Sim s a) (hr : a.ready = [t]) :
    ∃ s', (s.looped t).switchNow = .ok s' ∧ ¬ s'.Undisturbed t a := by
  have hhead : s.readyThreads.head = some t := by
    rw [h.ready.head, hr]
    rfl
  have htail : s.readyThreads.tail = some t := by
    rw [h.ready.tail, hr]
    rfl
  have hcurr : ((s.looped t).popped a.cur t).currThread = some a.cur := by
    show (paid a.cur (s.toCore.markWoken t)).currThread = _
    unfold paid
    split <;> exact h.curr_eq
  have hqueue : ((s.looped t).popped a.cur t).readyThreads = s.readyThreads := by
    show (s.readyThreads.popHead (Function.update s.hook t (some t))).2 = _
    simp only [SingleDeque.popHead, hhead, Function.update_self]
    rw [← hhead]
  obtain ⟨s', hs', hcur', hhead'⟩ := switchTask_head t hcurr (hqueue ▸ htail)
  rw [switchNow_popped (s := s.looped t) h.curr_eq hhead]
  refine ⟨s', hs', fun hquiet => ?_⟩
  obtain ⟨b, hb, hund⟩ := hquiet
  have hcur : b.cur = t := Queued.cur_eq (hb.core ▸ hcur')
  have hmem : t ∈ b.ready := by
    refine List.mem_of_mem_head? ?_
    rw [← hb.ready.head, hhead', hqueue, hhead]
    rfl
  have hle := hund.2
  have hpos := List.count_pos_iff.mpr hmem
  unfold Queued.places at hle
  rw [if_pos hcur] at hle
  omega

/-- A loop behind other threads: the switch closes it if it has somebody to push. -/
theorem looped_behind {x : P} (h : Sim s a) (hp : a.WellPlaced t) (hz : a.taskSwitchCounter = 0)
    (hr : a.ready = x :: front ++ [t]) :
    ∃ s', (s.looped t).switchNow = .ok s' ∧ (s'.Undisturbed t a ↔ a.Requeues) := by
  have hm : t ∈ a.ready := by simp [hr]
  have hxt : x ≠ t := by
    intro e
    have hnd := h.ready.nodup
    rw [hr, e] at hnd
    exact (List.nodup_cons.mp hnd).1 (by simp)
  have hhead : s.readyThreads.head = some x := by
    rw [h.ready.head, hr]
    rfl
  let c := a.mapCore (·.markWoken t)
  have hc : Sim (s.mapCore (·.markWoken t)) c := h.mapCore _ h.live
  have hpop : Sim ((s.mapCore (·.markWoken t)).popped a.cur x) (c.popped x (front ++ [t])) :=
    hc.popped hr
  have htail : ((s.mapCore (·.markWoken t)).popped a.cur x).readyThreads.tail = some t := by
    rw [hpop.ready.tail]
    exact List.getLast?_concat
  have hcurr : ((s.mapCore (·.markWoken t)).popped a.cur x).currThread = some a.cur :=
    hpop.curr_eq.trans (congrArg some (c.popped_cur x (front ++ [t])))
  have hkeeps : c.Keeps ↔ a.Requeues := hp.markWoken_keeps_iff hm
  have hreq : (((s.mapCore (·.markWoken t)).popped a.cur x).thread a.cur).state = .running ∧
      a.cur ≠ ((s.mapCore (·.markWoken t)).popped a.cur x).idleThread ↔ a.Requeues := by
    rw [← hkeeps, ← c.popped_requeues x hr, hpop.core]
    unfold Queued.Requeues
    rw [Queued.popped_cur]
    exact Iff.rfl
  rw [switchNow_popped (s := s.looped t) h.curr_eq hhead, looped_popped hhead hxt]
  by_cases hrun : a.Requeues
  · have hcur : a.cur ≠ t := fun e => (hp.unlinked hrun.2).1 (e ▸ hm)
    have hset : c.Settled := fun _ hne => hp.unlinked hne
    obtain ⟨s', hs', hsim⟩ := hc.switchNow hset hz
    have hzero : (s.mapCore (·.markWoken t)).taskSwitchCounter = 0 := by
      rw [hc.core]
      exact hz
    rw [schedule_unlocked hzero, switchNow_popped hc.curr_eq hhead] at hs'
    have hclose := switchTask_update_tail x (some t) hcurr htail hcur
      (hreq.mpr hrun)
    refine ⟨s', hclose.trans hs', ?_⟩
    have hsame : ∀ p, c.switchNow.places p = a.places p := by
      intro p
      have := c.switchNow_places_cons p x hr
      rw [if_pos (hkeeps.mpr hrun)] at this
      exact this
    have hone : a.places t ≤ 1 := by
      have := Queued.places_of_ready h.apart hm h.ready.nodup
      rw [if_neg hcur] at this
      omega
    rw [hsim.undisturbed_iff]
    exact ⟨fun _ => hrun, fun _ => Queued.undisturbed_of_same hsame hone⟩
  · obtain ⟨s', hs', hhook, hqueue⟩ := switchTask_drops x
      (s := { (s.mapCore (·.markWoken t)).popped a.cur x with
        hook := Function.update s.hook t (some t) }) hcurr (hreq.not.mpr hrun)
    refine ⟨s', hs', ?_⟩
    have hloop : s'.hook t = some t := by
      rw [hhook]
      exact Function.update_self ..
    have hlast : s'.readyThreads.tail = some t := by
      rw [hqueue]
      exact htail
    constructor
    · intro ⟨b, hb, _⟩
      exact absurd hb (Sim.not_loop hloop hlast)
    · intro hreq
      exact absurd hreq hrun

end Sched

/-! ## When a wake-up does no harm -/

namespace Queued

/-- The wake-ups of `t` that do no harm when no switch is owed: `t` is idle, in no queue, and not
current beside a ready thread; or idle is current, and the only thread behind `t` in the queue. -/
def SpareWake (t : P) (a : Queued P Q F) : Prop :=
  (t = a.idleThread ∧ t ∉ a.ready ∧ (a.cur = a.idleThread → a.ready = [])) ∨
  ((∃ front, a.ready = front ++ [t, a.idleThread]) ∧ a.cur = a.idleThread)

/-- The wake-ups of `t` whose harm the switch that is owed undoes, or that do none. -/
def SpareWakeOwed (t : P) (a : Queued P Q F) : Prop :=
  (t = a.idleThread ∧ t ∉ a.ready ∧ (a.cur = a.idleThread ∨ a.Requeues)) ∨
  (t = a.cur ∧ t ∉ a.ready ∧ t ≠ a.idleThread ∧ a.ready ≠ []) ∨
  ((∃ front, a.ready = front ++ [t, a.idleThread]) ∧ a.cur = a.idleThread) ∨
  ((∃ front, front ≠ [] ∧ a.ready = front ++ [t]) ∧ a.Requeues)

/-- A switch is owed and nobody holds the lock. -/
def Owes (a : Queued P Q F) : Prop := a.taskSwitchCounter = 0 ∧ a.taskSwitchPostponed = true

instance : Decidable a.Owes := inferInstanceAs (Decidable (_ ∧ _))

omit [DecidableEq P] [DecidableEq Q] in
/-- A duplicate-free list splits at a member in one way. -/
theorem split_unique {front behind front' behind' : List P}
    (hnd : (front ++ t :: behind).Nodup) :
    front ++ t :: behind = front' ++ t :: behind' ↔ front = front' ∧ behind = behind' := by
  have hfront : t ∉ front := fun hm =>
    (List.nodup_append.mp hnd).2.2 t hm t List.mem_cons_self rfl
  have hbehind : t ∉ behind := (List.nodup_cons.mp (List.nodup_append.mp hnd).2.1).1
  rw [List.append_cons_inj_of_notMem hfront hbehind]
  simp

omit [DecidableEq P] [DecidableEq Q] in
/-- Whether a member of a duplicate-free list is the last but one, in front of `u`. -/
theorem second_last_iff {l front behind : List P} {u : P} (hnd : l.Nodup)
    (hl : l = front ++ t :: behind) : (∃ front', l = front' ++ [t, u]) ↔ behind = [u] := by
  subst hl
  simp only [split_unique hnd, exists_and_right, exists_eq', true_and]

end Queued

namespace Sched

variable {fuel : Nat}

private theorem wake_undisturbed_iff (h : Sim s a) (hp : a.WellPlaced t) (hf : a.waiting.length ≤ fuel)
    (hw : t ∉ a.waiting) :
    ∃ s', s.wake fuel t = .ok s' ∧ (s'.Undisturbed t a ↔ a.SpareWake t) := by
  unfold Queued.SpareWake
  by_cases hm : t ∈ a.ready
  · obtain ⟨front, behind, hr⟩ := List.append_of_mem hm
    rw [Queued.second_last_iff h.ready.nodup hr]
    by_cases hb : behind = []
    · subst hb
      have htail : s.readyThreads.tail = some t := by
        rw [h.ready.tail, hr]
        exact List.getLast?_concat
      refine ⟨_, wake_looped h hf hw hr, ?_⟩
      constructor
      · intro ⟨b, hb, _⟩
        exact absurd hb (Sim.not_loop (Function.update_self ..) htail)
      · simp [hm]
    · obtain ⟨s', hs', hsim⟩ := wake_cut h hf hw hr hb
      refine ⟨s', hs', ?_⟩
      rw [hsim.undisturbed_iff, Queued.cut_undisturbed_iff hp h.ready.nodup h.apart hr hb]
      simp [hm]
  · obtain ⟨s', hs', hsim⟩ := h.wake hf hm
    refine ⟨s', hs', ?_⟩
    have hno : ¬ ∃ front, a.ready = front ++ [t, a.idleThread] := by
      intro ⟨front, hr⟩
      exact hm (by simp [hr])
    rw [hsim.undisturbed_iff, Queued.wake_undisturbed_iff hp hm hw]
    simp only [hm, not_false_eq_true, true_and, hno, false_and, or_false]

private theorem wake_switch_undisturbed_iff (h : Sim s a) (hp : a.WellPlaced t)
    (hf : a.waiting.length ≤ fuel)
    (hw : t ∉ a.waiting) (hz : a.taskSwitchCounter = 0) :
    ∃ s', (s.wake fuel t >>= switchNow) = .ok s' ∧ (s'.Undisturbed t a ↔ a.SpareWakeOwed t) := by
  -- a switch from a list state
  have hswitch : ∀ {s₁ : Sched P Q F} {b : Queued P Q F}, Sim s₁ b → b.Settled →
      b.taskSwitchCounter = 0 → ∃ s', s₁.switchNow = .ok s' ∧ Sim s' b.switchNow := by
    intro s₁ b hb hset hz
    obtain ⟨s', hs', hsim⟩ := hb.switchNow hset hz
    rw [schedule_unlocked (by rw [hb.core]; exact hz)] at hs'
    exact ⟨s', hs', hsim⟩
  unfold Queued.SpareWakeOwed
  by_cases hm : t ∈ a.ready
  · obtain ⟨front, behind, hr⟩ := List.append_of_mem hm
    have hnd := h.ready.nodup
    rw [hr] at hnd
    have hlast : (∃ front', front' ≠ [] ∧ a.ready = front' ++ [t]) ↔
        front ≠ [] ∧ behind = [] := by
      simp only [hr, Queued.split_unique hnd]
      constructor
      · intro ⟨front', hne, he, hb⟩
        exact ⟨he ▸ hne, hb⟩
      · intro ⟨hne, hb⟩
        exact ⟨front, hne, rfl, hb⟩
    rw [Queued.second_last_iff h.ready.nodup hr, hlast]
    by_cases hb : behind = []
    · subst hb
      rw [wake_looped h hf hw hr, ok_bind]
      cases front with
      | nil =>
        obtain ⟨s', hs', hnot⟩ := looped_alone h hr
        exact ⟨s', hs', by simp [hm, hnot]⟩
      | cons x front =>
        obtain ⟨s', hs', hiff⟩ := looped_behind h hp hz hr
        exact ⟨s', hs', by simp [hm, hiff]⟩
    · obtain ⟨s₁, hs₁, h₁⟩ := wake_cut h hf hw hr hb
      have hset : (a.cut t front).Settled := by
        intro _ hne
        obtain ⟨hcr, hcw⟩ := hp.unlinked hne
        rw [hr] at hcr
        refine ⟨fun hm' => hcr ?_, hcw⟩
        rcases List.mem_append.mp hm' with hm' | hm'
        · exact List.mem_append_left _ hm'
        · exact List.mem_append_right _ (List.mem_singleton.mp hm' ▸ List.mem_cons_self)
      obtain ⟨s', hs', hsim⟩ := hswitch h₁ hset hz
      refine ⟨s', by rw [hs₁, ok_bind, hs'], ?_⟩
      rw [hsim.undisturbed_iff, Queued.cut_switch_undisturbed_iff hp h.ready.nodup h.apart hr hb]
      simp [hm, hb]
  · obtain ⟨s₁, hs₁, h₁⟩ := h.wake hf hm
    have hz₁ : (a.wake t).taskSwitchCounter = 0 :=
      (congrArg (·.taskSwitchCounter) (a.wake_lock t)).trans hz
    obtain ⟨s', hs', hsim⟩ := hswitch h₁ (hp.settled_wake hm hw) hz₁
    refine ⟨s', by rw [hs₁, ok_bind, hs'], ?_⟩
    rw [hsim.undisturbed_iff, Queued.wake_switch_undisturbed_iff hp hm hw]
    have hno : ¬ ∃ front, a.ready = front ++ [t, a.idleThread] := by
      intro ⟨front, hr⟩
      exact hm (by simp [hr])
    have hno' : ¬ ∃ front, front ≠ [] ∧ a.ready = front ++ [t] := by
      intro ⟨front, _, hr⟩
      exact hm (by simp [hr])
    simp only [hm, not_false_eq_true, true_and, hno, hno', false_and, or_false]

/-- **When a spurious wake-up is harmless.** No thread but idle is in two places, and `t`, if it
is not idle, is in one; `t` is not waiting. Then `unblock(t)` returns, and it leaves two lists in
which every thread that was in one place still is, and `t` in no more than one, exactly under the
condition. -/
theorem unblock_undisturbed_iff (h : Sim s a) (hone : ∀ p, p ≠ a.idleThread → a.places p ≤ 1)
    (ht : t ≠ a.idleThread → a.places t = 1) (hw : t ∉ a.waiting)
    (hf : a.waiting.length ≤ fuel) :
    ∃ s', s.unblock fuel t = .ok s' ∧
      (s'.Undisturbed t a ↔ if a.Owes then a.SpareWakeOwed t else a.SpareWake t) := by
  have hp : a.WellPlaced t := ⟨h.live, hone, ht⟩
  by_cases ho : a.Owes
  · obtain ⟨s₁, hs₁, hiff⟩ := wake_switch_undisturbed_iff h hp hf hw ho.1
    have hlock : s.toCore.lock.taskSwitchCounter = 0 ∧
        s.toCore.lock.taskSwitchPostponed = true := by
      rw [h.core]
      exact ho
    have heq := unblock_owed (s := s) s.toCore.lock t fuel hlock
    rw [withLock_lock, hs₁] at heq
    refine ⟨_, heq, ?_⟩
    rw [if_pos ho, ← hiff]
    exact undisturbed_withLock _
  · obtain ⟨s₁, hs₁, hiff⟩ := wake_undisturbed_iff h hp hf hw
    have hlock : s.toCore.lock.taskSwitchCounter = 0 →
        s.toCore.lock.taskSwitchPostponed = false := by
      rw [h.core]
      intro hz
      exact Bool.eq_false_iff.mpr fun hpost => ho ⟨hz, hpost⟩
    have heq := unblock_withLock (s := s) s.toCore.lock t fuel hlock
    rw [withLock_lock, hs₁] at heq
    refine ⟨_, heq, ?_⟩
    rw [if_neg ho, ← hiff]
    exact undisturbed_withLock _

/-- Idle is woken beside a running thread. -/
theorem unblock_undisturbed_iff_idle :
    ∃ s', (onCpu (some 2)).unblock 0 0 = .ok s' ∧ s'.Undisturbed 0 (TwoKernel.onCpu [2]) := by
  obtain ⟨s', hs', hiff⟩ :=
    unblock_undisturbed_iff (t := 0) onCpu_pair (by decide) (by decide) (by decide)
      (show ([] : List (Fin 3)).length ≤ 0 from Nat.le_refl 0)
  exact ⟨s', hs', hiff.mpr (.inl (by decide))⟩

/-- A thread that is ready already is linked to itself. -/
theorem unblock_ready_loops : (∀ p, p ≠ 0 → (TwoKernel.onCpu [2]).places p = 1) ∧
    ∃ s', (onCpu (some 2)).unblock 0 2 = .ok s' ∧ s'.readyThreads.head = some 2 ∧
      s'.hook 2 = some 2 ∧ ¬ ∃ l, s'.readyThreads.Represents s'.hook l := by
  refine ⟨by decide, _, rfl, rfl, rfl, ?_⟩
  intro ⟨l, hl⟩
  exact nomatch hl.tail_link (v := (2 : Fin 3)) rfl

end Sched

end TwoKernel
