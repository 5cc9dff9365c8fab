import TwoKernel.Laws.Std.SingleDeque
import TwoKernel.Lib.System

/-!
# Any number of deques over one hook

The deques of a kernel share the hook of their nodes: a thread moves from one
queue to another, with whatever link it had. `Deques` is a family of them over
one heap of links, each beside the list it should be. A call works on one of
them; the only rule is that a node which is pushed is linked in none.

`deques_refine` is that the code keeps to the lists. A call ends with what it
returns when it does so for all sufficient fuel.
-/

namespace TwoKernel

open Chain SingleDeque

variable {P ι : Type} [DecidableEq P] [DecidableEq ι] {hooks hooks' : Hooks P} {d d' : SingleDeque P}
  {l : List P} {fuel : Nat} {v : P}

inductive DequeCall (P : Type) where
  | pushHead (value : P)
  | pushTail (value : P)
  | popHead
  | popTail
  | remove (value : Option P)
  | clearAll

namespace DequeCall

/-- The code of a call: what it returns, and the links and the deque after it. -/
def exec (fuel : Nat) (hooks : Hooks P) (d : SingleDeque P) :
    DequeCall P → Outcome (Option P × Hooks P × SingleDeque P)
  | .pushHead value => .ok (none, d.pushHead hooks value)
  | .pushTail value => .ok (none, d.pushTail hooks value)
  | .popHead => .ok ((d.popHead hooks).1, hooks, (d.popHead hooks).2)
  | .popTail => d.popTail fuel hooks
  | .remove value => do
    let r ← d.remove fuel hooks value
    return (none, r)
  | .clearAll => .ok (none, hooks, d.clearAll)

/-- What a call does to the list. -/
def act : DequeCall P → List P → List P
  | .pushHead value, l => value :: l
  | .pushTail value, l => l ++ [value]
  | .popHead, l => l.tail
  | .popTail, l => l.dropLast
  | .remove none, l => l
  | .remove (some value), l => l.erase value
  | .clearAll, _ => []

/-- What a call returns, read off the list. -/
def answer : DequeCall P → List P → Option P
  | .popHead, l => l.head?
  | .popTail, l => l.getLast?
  | _, _ => none

/-- The node a call links. -/
def pushed : DequeCall P → Option P
  | .pushHead value => some value
  | .pushTail value => some value
  | _ => none

/-- **A call is its action on the list**, and leaves the links of nodes outside the list alone. -/
theorem exec_spec (c : DequeCall P) (h : Represents hooks d l) (hf : l.length ≤ fuel)
    (hpush : ∀ v, c.pushed = some v → v ∉ l) :
    ∃ hooks' d', c.exec fuel hooks d = .ok (c.answer l, hooks', d') ∧
      Represents hooks' d' (c.act l) ∧ ∀ x ∉ l, c.pushed ≠ some x → hooks' x = hooks x := by
  cases c with
  | pushHead v =>
    refine ⟨_, _, rfl, pushHead_represents h (hpush v rfl), ?_⟩
    intro x _ hxv
    exact pushHead_frame fun e => hxv (congrArg some e.symm)
  | pushTail v =>
    refine ⟨_, _, rfl, pushTail_represents h (hpush v rfl), ?_⟩
    intro x hx hxv
    exact pushTail_frame h hx fun e => hxv (congrArg some e.symm)
  | popHead =>
    cases l with
    | nil => exact ⟨hooks, d, by rw [exec, popHead_nil h]; rfl, h, fun _ _ _ => rfl⟩
    | cons v l =>
      obtain ⟨hv, hl⟩ := popHead_cons h
      exact ⟨hooks, _, by rw [exec, hv]; rfl, hl, fun _ _ _ => rfl⟩
  | popTail =>
    rcases List.eq_nil_or_concat' l with rfl | ⟨k, t, rfl⟩
    · exact ⟨hooks, d, popTail_nil h, h, fun _ _ _ => rfl⟩
    · rw [List.length_append] at hf
      obtain ⟨hooks', d', hrun, hrep, hframe⟩ := popTail_concat fuel h (Nat.le_of_add_right_le hf)
      refine ⟨hooks', d', ?_, ?_, ?_⟩
      · rw [exec, hrun, answer, List.getLast?_concat]
      · rw [act, List.dropLast_concat]
        exact hrep
      · intro x hx _
        exact hframe x fun hk => hx (List.mem_append_left _ hk)
  | remove value =>
    cases value with
    | none => exact ⟨hooks, d, rfl, h, fun _ _ _ => rfl⟩
    | some v =>
      by_cases hv : v ∈ l
      · obtain ⟨hooks', d', hrun, hrep, hframe⟩ := remove_of_mem h hf hv
        exact ⟨hooks', d', by rw [exec, hrun]; rfl, hrep, fun x hx _ => hframe x hx⟩
      · refine ⟨hooks, d, by rw [exec, remove_of_not_mem h hf hv]; rfl, ?_, fun _ _ _ => rfl⟩
        rw [act, List.erase_of_not_mem hv]
        exact h
  | clearAll => exact ⟨hooks, _, rfl, represents_nil hooks, fun _ _ _ => rfl⟩

/-- What is on the list after a call was there before, or was pushed. -/
theorem mem_act {c : DequeCall P} {x : P} (h : x ∈ c.act l) : x ∈ l ∨ c.pushed = some x := by
  cases c with
  | pushHead v =>
    rcases List.mem_cons.mp h with rfl | h
    · exact .inr rfl
    · exact .inl h
  | pushTail v =>
    rcases List.mem_append.mp h with h | h
    · exact .inl h
    · rw [List.mem_singleton.mp h]
      exact .inr rfl
  | popHead => exact .inl (List.mem_of_mem_tail h)
  | popTail => exact .inl (List.dropLast_subset l h)
  | remove value =>
    cases value with
    | none => exact .inl h
    | some v => exact .inl (List.mem_of_mem_erase h)
  | clearAll => exact absurd h List.not_mem_nil

end DequeCall

omit [DecidableEq P] in
/-- `size` counts the list. -/
theorem SingleDeque.Represents.size (h : Represents hooks d l) (hf : l.length ≤ fuel) :
    d.size fuel hooks = .ok l.length := by
  -- about to visit `rest`, the loop has counted the others
  let I (rest : List P) (n : Nat) : Prop := Linked hooks rest.head? rest ∧ n + rest.length = l.length
  have hlink : ∀ p rest n, I (p :: rest) n → hooks p = rest.head? := fun _ _ _ hI => hI.1.2.head
  have hbody : ∀ p rest n, I (p :: rest) n → ∃ n', (.ok (n + 1) : Outcome Nat) = .ok n' ∧ I rest n' := by
    intro p rest n hI
    have hlinked := hI.1.2
    have hlen := hI.2
    rw [List.length_cons] at hlen
    refine ⟨n + 1, rfl, ?_, by omega⟩
    rw [← hlinked.head]
    exact hlinked
  obtain ⟨n, hrun, hn⟩ := forEach_rule hlink hbody l fuel 0 hf ⟨h.head ▸ h.linked, Nat.zero_add _⟩
  have hn : n = l.length := hn.2
  unfold SingleDeque.size iterate
  rw [h.head, hrun, hn]

omit [DecidableEq P] in
/-- The last node has no successor. -/
theorem SingleDeque.Represents.next_tail (h : Represents hooks d l) (ht : d.tail = some v) :
    hooks v = none := by
  rw [h.tail] at ht
  obtain ⟨k, rfl⟩ := List.getLast?_eq_some_iff.mp ht
  exact h.linked.next_eq

/-- Deques over one hook, and the list that each should be. -/
structure Deques (P ι : Type) where
  hooks : Hooks P
  deque : ι → SingleDeque P
  list : ι → List P

namespace Deques

variable {x x' : Deques P ι} {i j : ι} {c : DequeCall P}

/-- A node that is pushed is linked in no deque. -/
def Allowed (x : Deques P ι) (c : DequeCall P) : Prop := ∀ v, c.pushed = some v → ∀ j, v ∉ x.list j

/-- A call on one of the deques, on both sides. -/
def Step (x : Deques P ι) (i : ι) (c : DequeCall P) (x' : Deques P ι) : Prop :=
  ∃ r hooks' d', (∃ n, ∀ fuel, n ≤ fuel → c.exec fuel x.hooks (x.deque i) = .ok (r, hooks', d')) ∧
    x' = ⟨hooks', Function.update x.deque i d', Function.update x.list i (c.act (x.list i))⟩

/-- The runs from empty deques, whatever links the nodes have. -/
def runs (P ι : Type) [DecidableEq P] [DecidableEq ι] : System (Deques P ι) (ι × DequeCall P) where
  init x := ∀ i, x.deque i = ⟨none, none⟩ ∧ x.list i = []
  step x ic x' := x.Allowed ic.2 ∧ x.Step ic.1 ic.2 x'

/-- Every deque is its list, and no node is in two. -/
structure Sound (x : Deques P ι) : Prop where
  represents : ∀ i, Represents x.hooks (x.deque i) (x.list i)
  disjoint : ∀ i j, i ≠ j → List.Disjoint (x.list i) (x.list j)

omit [DecidableEq ι] in
/-- A call on one deque, with the others as they were. -/
theorem Sound.exec (h : x.Sound) (hc : x.Allowed c) (hf : (x.list i).length ≤ fuel) :
    ∃ hooks' d', c.exec fuel x.hooks (x.deque i) = .ok (c.answer (x.list i), hooks', d') ∧
      Represents hooks' d' (c.act (x.list i)) ∧
      ∀ j, j ≠ i → Represents hooks' (x.deque j) (x.list j) := by
  obtain ⟨hooks', d', hrun, hrep, hframe⟩ :=
    c.exec_spec (h.represents i) hf fun v hv => hc v hv i
  refine ⟨hooks', d', hrun, hrep, ?_⟩
  intro j hj
  apply (h.represents j).frame
  intro v hv
  exact hframe v (fun hi => h.disjoint j i hj hv hi) fun hpush => hc v hpush j hv

theorem Sound.step (h : x.Sound) (hc : x.Allowed c) (hs : x.Step i c x') : x'.Sound := by
  obtain ⟨r, hooks', d', ⟨n, hrun⟩, rfl⟩ := hs
  have hrun := hrun (max n (x.list i).length) (Nat.le_max_left _ _)
  obtain ⟨hooks₁, d₁, hrun₁, hrep, hothers⟩ :=
    h.exec (i := i) (c := c) hc (Nat.le_max_right n (x.list i).length)
  cases hrun.symm.trans hrun₁
  constructor
  · intro j
    by_cases hj : j = i
    · subst hj
      simpa using hrep
    · simpa [hj] using hothers j hj
  · -- a node of two lists would have been in both before, or pushed while linked
    have hact : ∀ j, j ≠ i → List.Disjoint (c.act (x.list i)) (x.list j) := by
      intro j hj v hv hvj
      rcases DequeCall.mem_act hv with hv | hv
      · exact h.disjoint i j hj.symm hv hvj
      · exact hc v hv j hvj
    intro j k hjk
    by_cases hj : j = i
    · subst hj
      simpa [hjk.symm] using hact k hjk.symm
    · by_cases hk : k = i
      · subst hk
        have hflip : List.Disjoint (x.list j) (c.act (x.list k)) := fun _ hv hv' => hact j hj hv' hv
        simpa [hj] using hflip
      · simpa [hj, hk] using h.disjoint j k hjk

theorem sound (h : (runs P ι).Reachable x) : x.Sound := by
  refine System.Reachable.invariant (I := fun x : Deques P ι => x.Sound) ?_ ?_ h
  · intro x hx
    constructor
    · intro i
      rw [(hx i).1, (hx i).2]
      exact represents_nil _
    · intro i j _
      rw [(hx i).2]
      exact List.disjoint_nil_left _
  · intro x ic x' hx hstep
    exact hx.step hstep.1 hstep.2

/-- **The deques refine lists.** In every state of a run: the chain of each deque is its list, which
has no node twice, is empty exactly if the deque says so, and ends at `tail`, whose link is null; `size`
is its length. Every call on a deque returns, with the answer the list gives, acts on its list and
leaves the others; and `remove` of null or of a node that is not in the deque changes nothing. -/
theorem deques_refine (h : (runs P ι).Reachable x) :
    (∀ i, Linked x.hooks (x.deque i).head (x.list i) ∧ (x.list i).Nodup ∧
      ((x.deque i).empty = true ↔ x.list i = []) ∧ (x.deque i).tail = (x.list i).getLast? ∧
      (∀ t, (x.deque i).tail = some t → x.hooks t = none) ∧
      ∀ fuel, (x.list i).length ≤ fuel → (x.deque i).size fuel x.hooks = .ok (x.list i).length) ∧
    (∀ i c, x.Allowed c → ∀ fuel, (x.list i).length ≤ fuel → ∃ hooks' d',
      c.exec fuel x.hooks (x.deque i) = .ok (c.answer (x.list i), hooks', d') ∧
      Represents hooks' d' (c.act (x.list i)) ∧
      ∀ j, j ≠ i → Represents hooks' (x.deque j) (x.list j)) ∧
    (∀ i v, (∀ w, v = some w → w ∉ x.list i) → ∀ fuel, (x.list i).length ≤ fuel →
      (x.deque i).remove fuel x.hooks v = .ok (x.hooks, x.deque i)) := by
  have hx := sound h
  refine ⟨?_, fun i c hc fuel hf => hx.exec hc hf, ?_⟩
  · intro i
    have hi := hx.represents i
    exact ⟨hi.linked, hi.nodup, hi.empty_iff, hi.tail, fun t ht => hi.next_tail ht,
      fun fuel hf => hi.size hf⟩
  · intro i v hv fuel hf
    cases v with
    | none => exact remove_null
    | some w => exact remove_of_not_mem (hx.represents i) hf (hv w rfl)

/-- Two deques of numbers, whose links are stale: every node links to itself. -/
def stale : Deques Nat Bool := ⟨some, fun _ => ⟨none, none⟩, fun _ => []⟩

theorem deques_refine_stale : ∃ x : Deques Nat Bool, x.list false = [1] ∧ x.list true = [2] ∧
    (x.deque false).remove 1 x.hooks (some 2) = .ok (x.hooks, x.deque false) := by
  have hinit : (runs Nat Bool).Reachable stale := .init fun _ => ⟨rfl, rfl⟩
  have hone := hinit.step (i := (false, .pushTail 1)) ⟨by
    intro v _ j
    exact List.not_mem_nil, none, _, _, ⟨0, fun _ _ => rfl⟩, rfl⟩
  have htwo := hone.step (i := (true, .pushTail 2)) ⟨by
    intro v hv j
    cases hv
    cases j <;> decide, none, _, _, ⟨0, fun _ _ => rfl⟩, rfl⟩
  refine ⟨_, rfl, rfl, (deques_refine htwo).2.2 false (some 2) ?_ 1 (Nat.le_refl 1)⟩
  intro w hw
  cases hw
  decide

end Deques

end TwoKernel
