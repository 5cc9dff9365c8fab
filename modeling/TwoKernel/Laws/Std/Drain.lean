import TwoKernel.Laws.Std.SingleDeque

/-!
# Loops that remove what they visit

`pit_irq_handler` and `remove_dead_process_threads` walk a queue with a range-for and, in the
body, take the visited thread out of the very queue they walk; the first then pushes it onto
another queue, through the same hook. The push writes the link the iterator came for. What
saves the loop is that `Iterator` has read that link before the body ran, and that neither a
`remove` nor a `push_tail` writes the links of the nodes the loop has yet to reach.

`drain_correct` covers every list, every choice of the nodes to remove and every choice of those
to push again, and with it every place a removed node can have: the head, the tail, next to
another one, all of them.
-/

namespace TwoKernel.SingleDeque

variable {P : Type} [DecidableEq P]
variable {hooks : Hooks P} {d d' : SingleDeque P} {l l' : List P} {fuel : Nat} {v : P}
  {pred moves : P → Bool}

/-- The state of such a loop: the links, the deque it walks, the other deque, and the nodes visited
so far. -/
structure Drain (P : Type) where
  hooks : Hooks P
  deque : SingleDeque P
  other : SingleDeque P
  visited : List P := []

namespace Drain

/-- The body: `v` is removed if `pred` holds, and then pushed onto the other deque if `moves` does. -/
def visit (fuel : Nat) (pred moves : P → Bool) (v : P) (s : Drain P) : Outcome (Drain P) :=
  let s := { s with visited := s.visited ++ [v] }
  if pred v then do
    let r ← s.deque.remove fuel s.hooks (some v)
    if moves v then
      let r' := s.other.pushTail r.1 v
      return { s with hooks := r'.1, deque := r.2, other := r'.2 }
    else return { s with hooks := r.1, deque := r.2 }
  else .ok s

/-- The nodes that end up in the other deque. -/
def moved (pred moves : P → Bool) (l : List P) : List P := l.filter fun v => pred v && moves v

/-- The nodes that stay. -/
def kept (pred : P → Bool) (l : List P) : List P := l.filter fun v => !pred v

/-- Two deques over one hook, and the lists they hold. -/
structure Holds (s : Drain P) (l l' : List P) : Prop where
  deque : Represents s.hooks s.deque l
  other : Represents s.hooks s.other l'
  apart : l.Disjoint l'

omit [DecidableEq P] in
theorem kept_subset (l : List P) : kept pred l ⊆ l := List.filter_subset_self l

omit [DecidableEq P] in
theorem Holds.log {s : Drain P} (h : s.Holds l l') (visited : List P) :
    ({ s with visited := visited } : Drain P).Holds l l' :=
  ⟨h.deque, h.other, h.apart⟩

/-- A node is taken out of one list. -/
theorem Holds.remove {s : Drain P} (h : s.Holds l l') (hf : l.length ≤ fuel) (hv : v ∈ l) :
    ∃ r, s.deque.remove fuel s.hooks (some v) = .ok r ∧
      ({ s with hooks := r.1, deque := r.2 } : Drain P).Holds (l.erase v) l' := by
  obtain ⟨hooks', d', hr, hrep, hframe⟩ := remove_of_mem h.deque hf hv
  refine ⟨(hooks', d'), hr, hrep, ?_, ?_⟩
  · exact h.other.frame fun x hx => hframe x fun hm => h.apart hm hx
  · exact fun x hx hx' => h.apart (List.mem_of_mem_erase hx) hx'

/-- A node of neither list is pushed onto the other one. -/
theorem Holds.push {s : Drain P} (h : s.Holds l l') (hv : v ∉ l) (hv' : v ∉ l') :
    ({ s with hooks := (s.other.pushTail s.hooks v).1,
              other := (s.other.pushTail s.hooks v).2 } : Drain P).Holds l (l' ++ [v]) where
  deque := h.deque.frame fun x hx =>
    pushTail_frame h.other (fun hx' => h.apart hx hx') fun e => hv (e ▸ hx)
  other := pushTail_represents h.other hv'
  apart := by
    intro x hx hx'
    rcases List.mem_append.mp hx' with hx' | hx'
    · exact h.apart hx hx'
    · exact hv (List.mem_singleton.mp hx' ▸ hx)

/-- **One turn of the loop.** `done` is what it has passed, and `v` where it is. -/
theorem Holds.visit {s : Drain P} {done rest : List P} (h : s.Holds (kept pred done ++ v :: rest)
      (l' ++ moved pred moves done)) (hf : (done ++ v :: rest).length ≤ fuel)
    (hv : v ∉ kept pred done) :
    ∃ s', s.visit fuel pred moves v = .ok s' ∧ s'.visited = s.visited ++ [v] ∧
      s'.Holds (kept pred (done ++ [v]) ++ rest) (l' ++ moved pred moves (done ++ [v])) := by
  have hkept : kept pred (done ++ [v]) = kept pred done ++ if pred v then [] else [v] := by
    cases hp : pred v <;> simp [kept, hp]
  have hmoved : moved pred moves (done ++ [v]) =
      moved pred moves done ++ if pred v && moves v then [v] else [] := by
    cases hp : pred v && moves v <;> simp [moved, hp]
  have hlen : (kept pred done ++ v :: rest).length ≤ fuel := by
    have hle : (kept pred done).length ≤ done.length := List.length_filter_le _ _
    simp only [List.length_append] at hf ⊢
    omega
  have herase : (kept pred done ++ v :: rest).erase v = kept pred done ++ rest := by
    rw [List.erase_append_right _ hv, List.erase_cons_head]
  rw [hkept, hmoved]
  cases hp : pred v with
  | false =>
    refine ⟨{ s with visited := s.visited ++ [v] }, ?_, rfl, ?_⟩
    · simp only [Drain.visit, hp]
      rfl
    · simpa using h.log (s.visited ++ [v])
  | true =>
    obtain ⟨r, hr, hout⟩ := h.remove hlen (List.mem_append_right _ List.mem_cons_self)
    have hnd := h.deque.nodup
    rw [herase] at hout
    cases hm : moves v with
    | false =>
      refine ⟨{ s with hooks := r.1, deque := r.2, visited := s.visited ++ [v] }, ?_, rfl, ?_⟩
      · simp only [Drain.visit, hp, hm, if_true, hr, ok_bind]
        rfl
      · simpa using hout.log (s.visited ++ [v])
    | true =>
      have hnot : v ∉ kept pred done ++ rest := by
        rw [← herase]
        exact hnd.not_mem_erase
      have hin := hout.push hnot fun hx => h.apart (List.mem_append_right _ List.mem_cons_self) hx
      refine ⟨⟨(s.other.pushTail r.1 v).1, r.2, (s.other.pushTail r.1 v).2, s.visited ++ [v]⟩, ?_, rfl, ?_⟩
      · simp only [Drain.visit, hp, hm, if_true, hr, ok_bind]
        rfl
      · simpa using hin.log (s.visited ++ [v])

end Drain

/-- **A range-for may remove what it visits.** Of two deques over one hook that share no node, the
loop walks one: it returns; it visits every node once, in order; the deque holds the nodes for which
`pred` fails, and the other one its own followed by those that were pushed, in order. -/
theorem drain_correct (h : Represents hooks d l) (h' : Represents hooks d' l')
    (hapart : l.Disjoint l') (hf : l.length ≤ fuel) (pred moves : P → Bool) :
    ∃ s, d.iterate Drain.hooks (Drain.visit fuel pred moves) fuel ⟨hooks, d, d', []⟩ = .ok s ∧
      s.visited = l ∧
      Represents s.hooks s.deque (l.filter fun v => !pred v) ∧
      Represents s.hooks s.other (l' ++ l.filter fun v => pred v && moves v) := by
  -- `done` is the part of `l` that the loop has passed
  let I : List P → Drain P → Prop := fun rest s => ∃ done, l = done ++ rest ∧ s.visited = done ∧
    s.Holds (Drain.kept pred done ++ rest) (l' ++ Drain.moved pred moves done)
  have hlink : ∀ p rest s, I (p :: rest) s → s.hooks p = rest.head? := by
    rintro p rest s ⟨done, -, -, hs⟩
    exact hs.deque.linked.next_eq
  have hbody : ∀ p rest s, I (p :: rest) s →
      ∃ s', Drain.visit fuel pred moves p s = .ok s' ∧ I rest s' := by
    rintro p rest s ⟨done, rfl, hvisited, hs⟩
    have hp : p ∉ Drain.kept pred done := by
      intro hm
      exact (List.nodup_append.mp h.nodup).2.2 p (Drain.kept_subset _ hm) p List.mem_cons_self rfl
    obtain ⟨s', hs', hlog, hnext⟩ := hs.visit hf hp
    refine ⟨s', hs', done ++ [p], ?_, ?_, hnext⟩
    · rw [List.append_assoc]
      rfl
    · rw [hlog, hvisited]
  have hstart : I l ⟨hooks, d, d', []⟩ := by
    refine ⟨[], rfl, rfl, h, ?_, ?_⟩
    · simpa [Drain.moved] using h'
    · simpa [Drain.moved, Drain.kept] using hapart
  obtain ⟨s, hs, done, hdone, hvisited, hend⟩ := forEach_rule hlink hbody l fuel _ hf hstart
  rw [List.append_nil] at hdone hend
  subst hdone
  refine ⟨s, ?_, hvisited, hend.deque, hend.other⟩
  unfold iterate
  rw [h.head]
  exact hs

/-- The queue `1, 2, 3`, and beside it the queue `4`. -/
def oneTwoThree : Hooks Nat := fun v => if v = 1 then some 2 else if v = 2 then some 3 else none

theorem drain_correct_odd : ∃ s : Drain Nat,
    (⟨some 1, some 3⟩ : SingleDeque Nat).iterate Drain.hooks
      (Drain.visit 3 (fun v => v % 2 = 1) fun _ => true) 3
        ⟨oneTwoThree, ⟨some 1, some 3⟩, ⟨some 4, some 4⟩, []⟩ = .ok s ∧
    s.visited = [1, 2, 3] ∧ Represents s.hooks s.deque [2] ∧ Represents s.hooks s.other [4, 1, 3] := by
  have h : Represents oneTwoThree ⟨some 1, some 3⟩ [1, 2, 3] := ⟨⟨rfl, rfl, rfl, rfl⟩, rfl⟩
  have h' : Represents oneTwoThree ⟨some 4, some 4⟩ [4] := ⟨⟨rfl, rfl⟩, rfl⟩
  have hapart : [1, 2, 3].Disjoint [4] := by simp
  exact drain_correct h h' hapart (Nat.le_refl 3) _ _

end TwoKernel.SingleDeque
