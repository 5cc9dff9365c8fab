import TwoKernel.Laws.Proc.Rotation
import TwoKernel.Laws.Proc.Unlocked

/-!
# Postponed switches

`schedule()` under the scheduler lock sets a flag, and the `unlock_scheduler()`
that takes the two counters back to zero serves it. A nest of locks is a sequence
of calls that begins with `lock_scheduler()` and is back at depth zero with its
last call, not before. `lockCalls_nested` says what a nest amounts to: nothing
before the last call, and then one switch decision if one was asked for.

The counters have eight bits. A 256th lock would make them read zero, so a nest
is at most 255 deep. Nothing is assumed about the queues.
-/

namespace TwoKernel

/-- The three calls that the lock members are for. -/
inductive LockCall where
  | lock | unlock | schedule
  deriving DecidableEq

/-- Calls that lead from depth `n` back to zero, and get there with the last of them only. -/
inductive Nested : Nat → List LockCall → Prop
  | last : Nested 1 [.unlock]
  | lock {n : Nat} {l : List LockCall} :
      0 < n → n < 255 → Nested (n + 1) l → Nested n (.lock :: l)
  | unlock {n : Nat} {l : List LockCall} : Nested n l → Nested (n + 1) (.unlock :: l)
  | schedule {n : Nat} {l : List LockCall} : Nested n l → Nested n (.schedule :: l)

theorem Nested.pos {n : Nat} {l : List LockCall} (h : Nested n l) : 0 < n := by
  induction h with
  | last => exact Nat.one_pos
  | lock hpos => exact hpos
  | unlock => exact Nat.succ_pos _
  | schedule _ ih => exact ih

namespace Core.Lock

/-- The lock members at depth `n`, a switch being owed or not. -/
def held (n : Nat) (owed : Bool) : Lock := ⟨BitVec.ofNat 8 n, BitVec.ofNat 8 n, owed, false⟩

variable {n : Nat} (owed : Bool)

private theorem unlocked_enter (i : Bool) : (unlocked i).enter = held 1 false := by
  simp [unlocked, enter, held]

private theorem held_enter : (held n owed).enter = held (n + 1) owed := by
  simp only [held, enter, BitVec.ofNat_add]
  rfl

/-- Up to depth 255 the counters do not read zero. -/
theorem ofNat_depth_ne (hpos : 0 < n) (hle : n ≤ 255) : BitVec.ofNat 8 n ≠ 0 := by
  intro h
  have hnat : n % 2 ^ 8 = 0 := (BitVec.toNat_ofNat n 8).symm.trans (congrArg BitVec.toNat h)
  omega

private theorem ofNat_depth_pred : BitVec.ofNat 8 (n + 1) - 1 = BitVec.ofNat 8 n := by
  rw [BitVec.ofNat_add]
  exact BitVec.add_sub_cancel _ _

/-- An unlock that is not the last one. -/
theorem held_leave (hpos : 0 < n) (hle : n ≤ 255) : (held (n + 1) owed).leave = held n owed := by
  simp only [held, leave, ofNat_depth_pred, if_neg (ofNat_depth_ne hpos hle)]

end Core.Lock

namespace Sched

open TwoKernel.Core

variable {P Q F : Type} [DecidableEq P] [DecidableEq Q] {s : Sched P Q F}

def lockCall (s : Sched P Q F) : LockCall → Outcome (Sched P Q F)
  | .lock => .ok s.lockScheduler
  | .unlock => s.unlockScheduler
  | .schedule => s.schedule

def lockCalls (l : List LockCall) (s : Sched P Q F) : Outcome (Sched P Q F) := l.foldlM lockCall s

private theorem lockCalls_cons (c : LockCall) (l : List LockCall) :
    lockCalls (c :: l) s = (s.lockCall c >>= lockCalls l) := List.foldlM_cons ..

/-! ## One call inside a nest -/

/-- What a call other than the last unlock does to the lock members. -/
theorem lockCall_lock (n : Nat) (owed : Bool) :
    (s.withLock (.held n owed)).lockCall .lock = .ok (s.withLock (.held (n + 1) owed)) := by
  rw [← Lock.held_enter]
  rfl

private theorem lockCall_unlock {n : Nat} (owed : Bool) (hpos : 0 < n) (hle : n ≤ 255) :
    (s.withLock (.held (n + 1) owed)).lockCall .unlock = .ok (s.withLock (.held n owed)) := by
  have hdeep : ¬ ((Lock.held (n + 1) owed).taskSwitchCounter - 1 = 0 ∧
      (Lock.held (n + 1) owed).taskSwitchPostponed = true) := by
    simp only [Lock.held, Lock.ofNat_depth_pred]
    exact fun h => Lock.ofNat_depth_ne hpos hle h.1
  rw [← Lock.held_leave owed hpos hle]
  exact unlock_idle s _ hdeep

private theorem lockCall_schedule {n : Nat} (owed : Bool) (hpos : 0 < n) (hle : n ≤ 255) :
    (s.withLock (.held n owed)).lockCall .schedule = .ok (s.withLock (.held n true)) :=
  schedule_withLock s _ (Lock.ofNat_depth_ne hpos hle)

/-- The last unlock makes the decision that is owed. -/
theorem lockCall_last (owed : Bool) :
    (s.withLock (.held 1 owed)).lockCall .unlock =
      withLock (.unlocked true) <$> (if owed then s.switchNow else .ok s) := by
  cases owed with
  | true =>
    exact unlock_switch s (.held 1 true) ⟨rfl, rfl⟩
  | false =>
    have hnone : ¬ ((Lock.held 1 false).taskSwitchCounter - 1 = 0 ∧
        (Lock.held 1 false).taskSwitchPostponed = true) := fun h => nomatch h.2
    exact unlock_idle s _ hnone

/-! ## A whole nest -/

/-- A run that has not come to its last call is at its start or past the first call. -/
theorem proper_prefix_cons {c : LockCall} {p l : List LockCall} (hp : p <+: c :: l)
    (hne : p ≠ c :: l) : p = [] ∨ ∃ p', p = c :: p' ∧ p' <+: l ∧ p' ≠ l := by
  match List.prefix_cons_iff.mp hp with
  | .inl hnil => exact .inl hnil
  | .inr ⟨p', hcons, htail⟩ => exact .inr ⟨p', hcons, htail, fun h => hne (h ▸ hcons)⟩

/-- From depth `n` on, the remaining calls of a nest make one decision if one is owed already or
asked for on the way. -/
theorem lockCalls_held {n : Nat} {l : List LockCall} (h : Nested n l) (hle : n ≤ 255)
    (owed : Bool) :
    lockCalls l (s.withLock (.held n owed)) = withLock (.unlocked true) <$>
      (if owed = true ∨ .schedule ∈ l then s.switchNow else .ok s) := by
  induction h generalizing owed with
  | last =>
    have hmem : LockCall.schedule ∉ [LockCall.unlock] := by simp
    simp only [lockCalls, List.foldlM_cons, List.foldlM_nil, bind_pure, lockCall_last, hmem,
      or_false]
  | lock _ hlt _ ih =>
    rw [lockCalls_cons, lockCall_lock, ok_bind, ih hlt]
    simp
  | unlock hl ih =>
    rw [lockCalls_cons, lockCall_unlock owed hl.pos (by omega), ok_bind, ih (by omega)]
    simp
  | schedule hl ih =>
    rw [lockCalls_cons, lockCall_schedule owed hl.pos hle, ok_bind, ih hle]
    simp

/-- Short of its last call, a nest touches the lock members alone. -/
theorem lockCalls_held_inside {n : Nat} {l : List LockCall} (h : Nested n l) (hle : n ≤ 255)
    (owed : Bool) {p : List LockCall} (hp : p <+: l) (hne : p ≠ l) :
    ∃ k, lockCalls p (s.withLock (.held n owed)) = .ok (s.withLock k) := by
  induction h generalizing owed p with
  | last =>
    match proper_prefix_cons hp hne with
    | .inl hnil => exact ⟨.held _ owed, by rw [hnil]; rfl⟩
    | .inr ⟨p, _, hp, hne⟩ => exact absurd (List.prefix_nil.mp hp) hne
  | lock _ hlt _ ih =>
    match proper_prefix_cons hp hne with
    | .inl hnil => exact ⟨.held _ owed, by rw [hnil]; rfl⟩
    | .inr ⟨p, hcons, hp, hne⟩ =>
      rw [hcons, lockCalls_cons, lockCall_lock, ok_bind]
      exact ih hlt owed hp hne
  | unlock hl ih =>
    match proper_prefix_cons hp hne with
    | .inl hnil => exact ⟨.held _ owed, by rw [hnil]; rfl⟩
    | .inr ⟨p, hcons, hp, hne⟩ =>
      rw [hcons, lockCalls_cons, lockCall_unlock owed hl.pos (by omega), ok_bind]
      exact ih (by omega) owed hp hne
  | schedule hl ih =>
    match proper_prefix_cons hp hne with
    | .inl hnil => exact ⟨.held _ owed, by rw [hnil]; rfl⟩
    | .inr ⟨p, hcons, hp, hne⟩ =>
      rw [hcons, lockCalls_cons, lockCall_schedule owed hl.pos hle, ok_bind]
      exact ih hle true hp hne

/-- **A postponed switch is neither lost nor repeated.** From an unlocked scheduler that owes no
switch, a nest of locks changes nothing but the lock members before its last unlock. That unlock
makes one switch decision if a switch was asked for, and none otherwise, and leaves both counters
at zero and no switch owed. -/
theorem lockCalls_nested {i : Bool} {calls : List LockCall} (h : s.toCore.lock = .unlocked i)
    (hc : Nested 1 calls) :
    (∀ p, p <+: .lock :: calls → p ≠ .lock :: calls →
      ∃ k, lockCalls p s = .ok (s.withLock k)) ∧
    lockCalls (.lock :: calls) s = withLock (.unlocked true) <$>
      (if .schedule ∈ calls then s.switchNow else .ok s) := by
  have hl : s.lockCall .lock = .ok (s.withLock (.held 1 false)) := by
    rw [← Lock.unlocked_enter i, ← h]
    rfl
  constructor
  · intro p hp hne
    match proper_prefix_cons hp hne with
    | .inl hnil => exact ⟨s.toCore.lock, hnil ▸ rfl⟩
    | .inr ⟨p, hcons, hp, hne⟩ =>
      rw [hcons, lockCalls_cons, hl, ok_bind]
      exact lockCalls_held_inside hc (by omega) false hp hne
  · rw [lockCalls_cons, hl, ok_bind, lockCalls_held hc (by omega) false]
    simp

/-- Two locks, and a request under each of them. -/
theorem lockCalls_nested_twice :
    lockCalls [.lock, .schedule, .lock, .schedule, .unlock, .unlock] (onCpu (some 2)) =
      withLock (.unlocked true) <$> (onCpu (some 2)).switchNow :=
  (lockCalls_nested (i := false) rfl (.schedule (.lock (by omega) (by omega)
    (.schedule (.unlock .last))))).2

end Sched

end TwoKernel
