import Mathlib.Algebra.Ring.Nat
import TwoKernel.Lib.System

/-!
# A queue that is served in turns

One is served at a time, for less than `quantum` ticks, and the others wait in a
queue. Who waits first is served next, and who comes joins at the end. What ends a
turn before its time is left open, and so is everything while nobody waits.

**The law** (`Turns.Step.spend`): who waits at place `i` is not overtaken, and has
`quantum` ticks to wait for each that is ahead and what is left of the present turn.
`System.Within` is a run with its ticks counted, and `Within.spend` turns such a price
per step into a bound on the whole run.
-/

namespace TwoKernel

/-! ## Runs with a price -/

namespace System

variable {σ ι : Type} {M : System σ ι} {ticks : ι → Nat} {C : σ → Prop} {s s' : σ} {n k : Nat}

/-- A run of `M` that takes `n` ticks and after each of whose steps `C` holds. -/
inductive Within (M : System σ ι) (ticks : ι → Nat) (C : σ → Prop) (s : σ) : Nat → σ → Prop
  | refl : Within M ticks C s 0 s
  | step {n : Nat} {s' s'' : σ} {i : ι} :
    Within M ticks C s n s' → M.step s' i s'' → C s'' → Within M ticks C s (n + ticks i) s''

theorem Within.reachable (h : M.Within ticks C s n s') (hs : M.Reachable s) : M.Reachable s' := by
  induction h with
  | refl => exact hs
  | step _ hstep _ ih => exact ih.step hstep

/-- A computed run goes on, if its steps are steps of the system. -/
theorem Within.foldlM {f : σ → ι → Option σ}
    (hf : ∀ s i s', f s i = some s' → M.step s i s' ∧ C s') (l : List ι) :
    ∀ {n : Nat} {s' s'' : σ}, M.Within ticks C s n s' → l.foldlM f s' = some s'' →
      M.Within ticks C s (n + (l.map ticks).sum) s'' := by
  induction l with
  | nil =>
    intro n s' s'' h hl
    cases hl
    exact h
  | cons i l ih =>
    intro n s' s'' h hl
    rw [List.foldlM_cons, Option.bind_eq_bind, Option.bind_eq_some_iff] at hl
    obtain ⟨mid, hmid, hl⟩ := hl
    obtain ⟨hstep, hC⟩ := hf _ _ _ hmid
    rw [List.map_cons, List.sum_cons, ← Nat.add_assoc]
    exact ih (h.step hstep hC) hl

/-- **Spending rule.** If each step pays its ticks out of what is left, so does the run. -/
theorem Within.spend (left : σ → Nat → Prop)
    (hpay : ∀ s i s' k, M.Reachable s → left s k → M.step s i s' → C s' →
      ∃ k', k' + ticks i ≤ k ∧ left s' k')
    (h : M.Within ticks C s n s') (hs : M.Reachable s) (hk : left s k) :
    ∃ k', k' + n ≤ k ∧ left s' k' := by
  induction h with
  | refl => exact ⟨k, Nat.le_refl _, hk⟩
  | step hrun hstep hC ih =>
    obtain ⟨k', hle, hk'⟩ := ih
    obtain ⟨k'', hle', hk''⟩ := hpay _ _ _ k' (hrun.reachable hs) hk' hstep hC
    exact ⟨k'', by omega, hk''⟩

end System

/-! ## Turns -/

/-- Who is served and for how many ticks, and who waits, in order. -/
structure Turns (P : Type) where
  now : P
  used : Nat
  queue : List P

namespace Turns

variable {P : Type} {quantum n i : Nat} {x y : Turns P} {t : P}

/-- What can happen in `n` ticks, none or one. -/
inductive Step (quantum : Nat) : Turns P → Nat → Turns P → Prop
  /-- Somebody joins. -/
  | join (c : P) (u : Nat) (q l : List P) : Step quantum ⟨c, u, q⟩ 0 ⟨c, u, q ++ l⟩
  /-- A tick within the turn. -/
  | tick (c : P) (u : Nat) (q l : List P) : u + 1 < quantum →
    Step quantum ⟨c, u, q⟩ 1 ⟨c, u + 1, q ++ l⟩
  /-- The first one's turn begins. -/
  | turn (c p : P) (u n : Nat) (q l : List P) : n ≤ 1 →
    Step quantum ⟨c, u, p :: q⟩ n ⟨p, 0, q ++ l⟩
  /-- Nobody waits. -/
  | free (c c' : P) (u u' n : Nat) (q : List P) : u' < quantum →
    Step quantum ⟨c, u, []⟩ n ⟨c', u', q⟩

/-- A turn does not take longer than it may. -/
theorem Step.used_lt (h : Step quantum x n y) (hx : x.used < quantum) : y.used < quantum := by
  cases h with
  | join c u q l => exact hx
  | tick c u q l hu => exact hu
  | turn c p u n q l _ => exact Nat.zero_lt_of_lt hx
  | free c c' u u' n q hu => exact hu

/-- What is left to wait at place `i`. -/
def left (quantum i : Nat) (x : Turns P) : Nat := quantum * i + (quantum - x.used)

private theorem getElem?_append {q l : List P} (h : q[i]? = some t) : (q ++ l)[i]? = some t := by
  rw [List.getElem?_append_left (List.getElem?_eq_some_iff.mp h).1]
  exact h

/-- **Nobody is overtaken.** In a step who waits at place `i` comes to be served, or waits at `i`
still or one place ahead, and the ticks of the step are off what is left to wait. -/
theorem Step.spend (h : Step quantum x n y) (hx : x.used < quantum) (ht : x.queue[i]? = some t) :
    y.now = t ∨ ∃ j, j ≤ i ∧ y.queue[j]? = some t ∧ left quantum j y + n ≤ left quantum i x := by
  unfold left
  cases h with
  | join c u q l => exact .inr ⟨i, Nat.le_refl _, getElem?_append ht, Nat.le_refl _⟩
  | tick c u q l hu =>
    refine .inr ⟨i, Nat.le_refl _, getElem?_append ht, ?_⟩
    dsimp only
    omega
  | turn c p u n q l hn =>
    cases i with
    | zero => exact .inl (Option.some.inj ht)
    | succ i =>
      refine .inr ⟨i, Nat.le_succ i, getElem?_append ht, ?_⟩
      dsimp only at hx ⊢
      rw [Nat.mul_succ]
      omega
  | free c c' u u' n q hu => cases ht

end Turns

end TwoKernel
