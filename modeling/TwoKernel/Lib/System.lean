import Mathlib.Logic.Basic

/-!
# Labelled transition systems

A `System` is a set of initial states and a step relation whose steps carry a
label. `restrict` keeps the steps that meet a condition on their source state
and label; that is how a statement about all runs of a certain kind is made.

`guarded` builds a system out of a computed step that can fail and a condition
on when it may be taken. Such a system can be run on a list of labels
(`attempt`), and what a run computes is reachable.
-/

namespace TwoKernel

structure System (σ ι : Type) where
  init : σ → Prop
  step : σ → ι → σ → Prop

namespace System

variable {σ ι : Type} {M : System σ ι} {s : σ}

/-- The states some run ends in. -/
inductive Reachable (M : System σ ι) : σ → Prop
  | init {s : σ} : M.init s → M.Reachable s
  | step {s s' : σ} {i : ι} : M.Reachable s → M.step s i s' → M.Reachable s'

/-- The same system, taking a step only where `C` allows it. -/
def restrict (M : System σ ι) (C : σ → ι → Prop) : System σ ι where
  init := M.init
  step s i s' := M.step s i s' ∧ C s i

/-- **Invariant rule.** What holds initially and is kept by each step holds in every run. -/
theorem Reachable.invariant {I : σ → Prop} (hinit : ∀ s, M.init s → I s)
    (hstep : ∀ s i s', I s → M.step s i s' → I s') (h : M.Reachable s) : I s := by
  induction h with
  | init h => exact hinit _ h
  | step _ hs ih => exact hstep _ _ _ ih hs

section guarded

variable {ε : Type} {init : σ → Prop} {allowed : σ → ι → Prop} {next : σ → ι → Except ε σ}

/-- A step is one that is allowed and that the computation returns from. -/
def guarded (init : σ → Prop) (allowed : σ → ι → Prop) (next : σ → ι → Except ε σ) :
    System σ ι where
  init := init
  step s i s' := allowed s i ∧ next s i = .ok s'

/-- Take a step if it is allowed and returns. -/
def attempt (allowed : σ → ι → Prop) [∀ s i, Decidable (allowed s i)] (next : σ → ι → Except ε σ)
    (s : σ) (i : ι) : Option σ :=
  if allowed s i then (next s i).toOption else none

theorem attempt_eq_some [∀ s i, Decidable (allowed s i)] {s' : σ} {i : ι}
    (h : attempt allowed next s i = some s') : allowed s i ∧ next s i = .ok s' := by
  unfold attempt at h
  split at h
  · next ha =>
    cases hn : next s i with
    | error e => simp [hn, Except.toOption] at h
    | ok r =>
      simp only [hn, Except.toOption, Option.some.injEq] at h
      exact ⟨ha, congrArg _ h⟩
  · cases h

/-- An attempt under a further condition is a step of the restricted system. -/
theorem attempt_restrict {C : σ → ι → Prop} [∀ s i, Decidable (allowed s i ∧ C s i)] {s' : σ}
    {i : ι} (h : attempt (fun s i => allowed s i ∧ C s i) next s i = some s') :
    ((guarded init allowed next).restrict C).step s i s' := by
  obtain ⟨⟨ha, hC⟩, hn⟩ := attempt_eq_some h
  exact ⟨⟨ha, hn⟩, hC⟩

/-- A computed run whose steps are steps of the system stays reachable. -/
theorem Reachable.foldlM {f : σ → ι → Option σ} (hf : ∀ s i s', f s i = some s' → M.step s i s')
    (l : List ι) : ∀ {s s' : σ}, M.Reachable s → l.foldlM f s = some s' → M.Reachable s' := by
  induction l with
  | nil =>
    intro s s' h hr
    cases hr
    exact h
  | cons i l ih =>
    intro s s' h hr
    rw [List.foldlM_cons] at hr
    cases hs : f s i with
    | none => simp [hs] at hr
    | some s₁ =>
      rw [hs] at hr
      exact ih (h.step (hf s i s₁ hs)) hr

end guarded

end System

end TwoKernel
