import Mathlib.Data.List.Basic

/-!
# Well-nested sequences

A sequence of openings and closings of sections is well nested if every closing closes
the section that was opened last. `openAfter` computes the sections that are open after
such a sequence, the innermost first, and fails where the nesting is broken; a section
that is not `reentrant` may also not be opened inside itself.

`foldlM_nested` is the induction rule: a condition on the open sections and a state
that each opening and each closing keeps holds after every part of the sequence.
`WellNested.exists_close` finds the closing that belongs to an opening.
-/

namespace TwoKernel

/-- An opening or a closing of a section. -/
inductive Bracket (β : Type) where
  | enter (b : β)
  | leave (b : β)
  deriving DecidableEq

namespace Bracket

variable {β : Type} [DecidableEq β] {reentrant : β → Bool} {st st' k k' : List β} {b : β}
  {op : Bracket β} {ops ops' : List (Bracket β)}

/-- The open sections after one more opening or closing. -/
def push (reentrant : β → Bool) (st : List β) : Bracket β → Option (List β)
  | .enter b => if reentrant b = true ∨ b ∉ st then some (b :: st) else none
  | .leave b =>
    match st with
    | [] => none
    | c :: st => if c = b then some st else none

def openAfter (reentrant : β → Bool) (st : List β) (ops : List (Bracket β)) : Option (List β) :=
  ops.foldlM (push reentrant) st

def WellNested (reentrant : β → Bool) (ops : List (Bracket β)) : Prop :=
  openAfter reentrant [] ops = some []

instance (ops : List (Bracket β)) : Decidable (WellNested reentrant ops) :=
  inferInstanceAs (Decidable (_ = _))

theorem push_enter (h : push reentrant st (.enter b) = some st') :
    st' = b :: st ∧ (reentrant b = true ∨ b ∉ st) := by
  by_cases hb : reentrant b = true ∨ b ∉ st
  · rw [push, if_pos hb] at h
    exact ⟨(Option.some.inj h).symm, hb⟩
  · rw [push, if_neg hb] at h
    cases h

theorem push_leave (h : push reentrant st (.leave b) = some st') : st = b :: st' := by
  cases st with
  | nil => cases h
  | cons c st₁ =>
    have h : (if c = b then some st₁ else none) = some st' := h
    by_cases hc : c = b
    · rw [if_pos hc] at h
      rw [hc, Option.some.inj h]
    · rw [if_neg hc] at h
      cases h

@[simp] theorem push_leave_self : push reentrant (b :: st) (.leave b) = some st := if_pos rfl

@[simp] theorem openAfter_nil : openAfter reentrant st [] = some st := rfl

private theorem openAfter_cons :
    openAfter reentrant st (op :: ops) = (push reentrant st op).bind (openAfter reentrant · ops) :=
  List.foldlM_cons

private theorem openAfter_append : openAfter reentrant st (ops ++ ops') =
    (openAfter reentrant st ops).bind (openAfter reentrant · ops') :=
  List.foldlM_append

/-- What is open half way. -/
theorem openAfter_split (h : openAfter reentrant st (ops ++ ops') = some st') :
    ∃ st₁, openAfter reentrant st ops = some st₁ ∧ openAfter reentrant st₁ ops' = some st' := by
  rw [openAfter_append] at h
  exact Option.bind_eq_some_iff.mp h

private theorem openAfter_uncons (h : openAfter reentrant st (op :: ops) = some st') :
    ∃ st₁, push reentrant st op = some st₁ ∧ openAfter reentrant st₁ ops = some st' := by
  rw [openAfter_cons] at h
  exact Option.bind_eq_some_iff.mp h

/-- A sequence that can do without the sections below does not touch them. -/
theorem openAfter_above (hk : openAfter reentrant k ops = some k')
    (h : openAfter reentrant (k ++ st) ops = some st') : st' = k' ++ st := by
  induction ops generalizing k with
  | nil =>
    cases hk
    exact (Option.some.inj h).symm
  | cons op ops ih =>
    obtain ⟨k₁, hk₁, hk⟩ := openAfter_uncons hk
    obtain ⟨st₁, hst₁, h⟩ := openAfter_uncons h
    have hsame : st₁ = k₁ ++ st := by
      cases op with
      | enter b =>
        rw [(push_enter hk₁).1, (push_enter hst₁).1]
        rfl
      | leave b =>
        rw [push_leave hk₁] at hst₁
        exact (List.cons.inj (push_leave hst₁)).2.symm
    rw [hsame] at h
    exact ih hk h

/-- A section is closed before those around it: the part up to its closing is well nested. The
induction carries the sections `k` that were opened inside it, by the part `inside` that was passed
already. -/
theorem exists_close {inside : List (Bracket β)} (hk : openAfter reentrant [] inside = some k)
    (h : openAfter reentrant (k ++ b :: st) ops = some st') (hlen : st'.length ≤ st.length) :
    ∃ body after, ops = body ++ .leave b :: after ∧ WellNested reentrant (inside ++ body) := by
  induction ops generalizing k inside with
  | nil =>
    cases h
    rw [List.length_append, List.length_cons] at hlen
    omega
  | cons op ops ih =>
    obtain ⟨st₁, hst₁, h⟩ := openAfter_uncons h
    -- one more step inside, unless it closes the section itself
    have hinside : ∀ k₁, push reentrant k op = some k₁ → st₁ = k₁ ++ b :: st →
        ∃ body after, op :: ops = body ++ .leave b :: after ∧
          WellNested reentrant (inside ++ body) := by
      intro k₁ hk₁ hsame
      have hnext : openAfter reentrant [] (inside ++ [op]) = some k₁ := by
        rw [openAfter_append, hk, Option.bind_some, openAfter_cons, hk₁, Option.bind_some,
          openAfter_nil]
      rw [hsame] at h
      obtain ⟨body, after, hops, hbody⟩ := ih hnext h
      refine ⟨op :: body, after, ?_, ?_⟩
      · rw [hops]
        rfl
      · rwa [List.append_assoc] at hbody
    cases op with
    | enter c =>
      obtain ⟨hst₁, hc⟩ := push_enter hst₁
      have hck : reentrant c = true ∨ c ∉ k := hc.imp_right fun hn hm =>
        hn (List.mem_append_left _ hm)
      exact hinside (c :: k) (if_pos hck) hst₁
    | leave c =>
      have hpop := push_leave hst₁
      cases k with
      | nil =>
        obtain ⟨rfl, -⟩ := List.cons.inj hpop
        refine ⟨[], ops, rfl, ?_⟩
        rwa [List.append_nil]
      | cons d k =>
        obtain ⟨rfl, hst⟩ := List.cons.inj hpop
        exact hinside k push_leave_self hst.symm

/-- **Every opening has its closing.** -/
theorem WellNested.exists_close (h : WellNested reentrant (ops ++ .enter b :: ops')) :
    ∃ body after, ops' = body ++ .leave b :: after ∧ WellNested reentrant body := by
  obtain ⟨st, -, h⟩ := openAfter_split h
  obtain ⟨st₁, hst₁, h⟩ := openAfter_uncons h
  rw [(push_enter hst₁).1] at h
  have hnil : openAfter reentrant [] [] = some [] := rfl
  exact Bracket.exists_close hnil h (Nat.zero_le _)

/-- What is open around a section, before it and after it, and below all that is opened in it. -/
theorem WellNested.around {body after : List (Bracket β)}
    (h : WellNested reentrant (ops ++ .enter b :: (body ++ .leave b :: after)))
    (hbody : WellNested reentrant body) :
    ∃ st, openAfter reentrant [] ops = some st ∧ (reentrant b = true ∨ b ∉ st) ∧
      openAfter reentrant [] (ops ++ .enter b :: (body ++ [.leave b])) = some st ∧
      ∀ part, part <+: body →
        ∃ k, openAfter reentrant [] (ops ++ .enter b :: part) = some (k ++ b :: st) := by
  obtain ⟨st, hst, h⟩ := openAfter_split h
  obtain ⟨st₁, hopen, h⟩ := openAfter_uncons h
  obtain ⟨rfl, hb⟩ := push_enter hopen
  obtain ⟨st₂, hst₂, -⟩ := openAfter_split h
  obtain rfl : st₂ = b :: st := openAfter_above (k := []) hbody hst₂
  refine ⟨st, hst, hb, ?_, ?_⟩
  · rw [openAfter_append, hst, Option.bind_some, openAfter_cons, hopen, Option.bind_some,
      openAfter_append, hst₂, Option.bind_some, openAfter_cons, push_leave_self]
    rfl
  · rintro part ⟨rest, rfl⟩
    obtain ⟨k, hk, -⟩ := openAfter_split hbody
    obtain ⟨st₃, hst₃, -⟩ := openAfter_split hst₂
    obtain rfl : st₃ = k ++ b :: st := openAfter_above (k := []) hk hst₃
    refine ⟨k, ?_⟩
    rw [openAfter_append, hst, Option.bind_some, openAfter_cons, hopen, Option.bind_some, hst₃]

/-- **Induction over a well-nested sequence.** -/
theorem foldlM_nested {σ ε : Type} {step : σ → Bracket β → Except ε σ} {I : List β → σ → Prop}
    (hstep : ∀ st op st' s, I st s → push reentrant st op = some st' →
      ∃ s', step s op = .ok s' ∧ I st' s') {s : σ} (hs : I st s)
    (h : openAfter reentrant st ops = some st') :
    ∃ s', ops.foldlM step s = .ok s' ∧ I st' s' := by
  induction ops generalizing st s with
  | nil =>
    cases h
    exact ⟨s, rfl, hs⟩
  | cons op ops ih =>
    obtain ⟨st₁, hst₁, h⟩ := openAfter_uncons h
    obtain ⟨s₁, hs₁, hI⟩ := hstep st op st₁ s hs hst₁
    obtain ⟨s', hs', hI'⟩ := ih hI h
    refine ⟨s', ?_, hI'⟩
    rw [List.foldlM_cons, hs₁]
    exact hs'

end Bracket

end TwoKernel
