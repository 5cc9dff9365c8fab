import TwoKernel.Lib.Chain
import TwoKernel.Std.SingleDeque

/-!
# A deque represents a list

`Represents hooks d l`: the chain from `d.head` is `l` and `d.tail` is its last
node. Each operation of `kstd::SingleDeque` then acts on `l` as the list
operation it is named after, and writes the links of its own nodes only. The
second half is what lets two deques share one hook: an operation on one leaves
every list disjoint from it represented as it was (`Represents.frame`).

Pushing needs the node to be linked nowhere in the deque. That is the caller's
promise in the source; the scheduler laws have to earn it.
-/

namespace TwoKernel.SingleDeque

open Chain

variable {P : Type} [DecidableEq P]
variable {hooks hooks' : Hooks P} {d : SingleDeque P} {l l' : List P} {v : P}

/-- The chain from `head` is `l`, and `tail` is its last node. -/
structure Represents (hooks : Hooks P) (d : SingleDeque P) (l : List P) : Prop where
  linked : Linked hooks d.head l
  tail : d.tail = l.getLast?

section

omit [DecidableEq P]

/-- A deque represents one list. -/
theorem Represents.unique (h : Represents hooks d l) (h' : Represents hooks d l') : l = l' :=
  h.linked.unique h'.linked

theorem Represents.nodup (h : Represents hooks d l) : l.Nodup := h.linked.nodup

theorem Represents.head (h : Represents hooks d l) : d.head = l.head? := h.linked.head

/-- A deque is represented as before in any heap that agrees with the old one on its nodes. -/
theorem Represents.frame (h : Represents hooks d l) (hag : ∀ x ∈ l, hooks' x = hooks x) :
    Represents hooks' d l :=
  ⟨h.linked.congr hag, h.tail⟩

theorem represents_nil (hooks : Hooks P) : Represents hooks ⟨none, none⟩ [] := ⟨rfl, rfl⟩

theorem Represents.empty_iff (h : Represents hooks d l) : d.empty = true ↔ l = [] := by
  rw [empty, Bool.and_eq_true, h.head, h.tail]
  cases l <;> simp

end

/-! ## Pushing -/

/-- `push_head` puts a new node first. -/
theorem pushHead_represents (h : Represents hooks d l) (hv : v ∉ l) :
    Represents (d.pushHead hooks v).1 (d.pushHead hooks v).2 (v :: l) := by
  cases l with
  | nil =>
    have hd : d.head = none := h.linked
    simp only [pushHead, hd]
    exact ⟨⟨rfl, by simp⟩, rfl⟩
  | cons w l =>
    have hd : d.head = some w := h.linked.1
    simp only [pushHead, hd]
    refine ⟨?_, ?_⟩
    · have := h.linked.cons_update hv
      rwa [hd] at this
    · show d.tail = _
      rw [h.tail, List.getLast?_cons_cons]

theorem pushHead_frame {x : P} (hxv : x ≠ v) : (d.pushHead hooks v).1 x = hooks x := by
  unfold pushHead
  split <;> exact Function.update_of_ne hxv _ _

/-- `push_tail` puts a new node last. -/
theorem pushTail_represents (h : Represents hooks d l) (hv : v ∉ l) :
    Represents (d.pushTail hooks v).1 (d.pushTail hooks v).2 (l ++ [v]) := by
  rcases List.eq_nil_or_concat' l with rfl | ⟨k, t, rfl⟩
  · have ht : d.tail = none := h.tail
    simp only [pushTail, ht]
    exact ⟨⟨rfl, by simp⟩, rfl⟩
  · have ht : d.tail = some t := by rw [h.tail]; simp
    simp only [pushTail, ht]
    refine ⟨?_, by simp⟩
    have := h.linked.snoc hv
    simpa using this

/-- `push_tail` writes the links of the pushed node and of the old tail. -/
theorem pushTail_frame {x : P} (h : Represents hooks d l) (hx : x ∉ l) (hxv : x ≠ v) :
    (d.pushTail hooks v).1 x = hooks x := by
  rcases List.eq_nil_or_concat' l with rfl | ⟨k, t, rfl⟩
  · have ht : d.tail = none := h.tail
    simp only [pushTail, ht]
    exact Function.update_of_ne hxv _ _
  · have ht : d.tail = some t := by rw [h.tail]; simp
    have hxt : x ≠ t := fun e => hx (by simp [e])
    simp only [pushTail, ht]
    rw [Function.update_of_ne hxt, Function.update_of_ne hxv]

/-! ## Pushing a node that is linked already

The push clears the link of the node before it writes the link of the old tail. A node in the
middle becomes the last one and what followed it is cut off; the last node is linked to itself. -/

omit [DecidableEq P] in
/-- The last node links to nothing. -/
theorem Represents.tail_link (h : Represents hooks d l) (ht : d.tail = some v) :
    hooks v = none := by
  obtain ⟨k, rfl⟩ := List.getLast?_eq_some_iff.mp (h.tail.symm.trans ht)
  exact h.linked.next_eq

/-- Pushing a node that is there cuts off all behind it. -/
theorem pushTail_cuts {l₁ l₂ : List P} (h : Represents hooks d (l₁ ++ v :: l₂)) (hne : l₂ ≠ []) :
    Represents (d.pushTail hooks v).1 (d.pushTail hooks v).2 (l₁ ++ [v]) := by
  obtain ⟨k, t, rfl⟩ := (List.eq_nil_or_concat' l₂).resolve_left hne
  have ht : d.tail = some t := by
    rw [h.tail, show l₁ ++ v :: (k ++ [t]) = (l₁ ++ v :: k) ++ [t] by simp]
    exact List.getLast?_concat
  have hnd := List.nodup_append.mp h.nodup
  have htv : v ≠ t := fun e => (List.nodup_cons.mp hnd.2.1).1 (by simp [e])
  simp only [pushTail, ht]
  refine ⟨h.linked.replace_suffix (fun x hx => ?_) ?_, by simp⟩
  · have hxt : x ≠ t := hnd.2.2 x hx t (by simp)
    have hxv : x ≠ v := hnd.2.2 x hx v List.mem_cons_self
    rw [Function.update_of_ne hxt, Function.update_of_ne hxv]
  · rw [Function.update_of_ne htv, Function.update_self]
    rfl

/-- Pushing the tail again makes a loop. -/
theorem pushTail_tail (ht : d.tail = some v) :
    d.pushTail hooks v = (Function.update hooks v (some v), d) := by
  simp only [pushTail, ht, Function.update_idem]
  rw [← ht]

/-- A push overwrites the link of the tail, whatever it was. -/
theorem pushTail_update_tail {w : P} {o : Option P} (ht : d.tail = some v) (hw : w ≠ v) :
    d.pushTail (Function.update hooks v o) w = d.pushTail hooks w := by
  simp only [pushTail, ht, Function.update_comm hw.symm, Function.update_idem]

/-! ## Popping -/

section

omit [DecidableEq P]

/-- `pop_head` returns the head, whatever the queue looks like. -/
theorem popHead_fst (hooks : Hooks P) (d : SingleDeque P) : (d.popHead hooks).1 = d.head := by
  unfold popHead
  split
  · next hd => exact hd.symm
  · next v hd =>
    split
    · exact hd.symm
    · exact hd.symm

theorem popHead_nil (h : Represents hooks d []) : d.popHead hooks = (none, d) := by
  have hd : d.head = none := h.linked
  simp only [popHead, hd]

/-- `pop_head` takes the first node. -/
theorem popHead_cons (h : Represents hooks d (v :: l)) :
    (d.popHead hooks).1 = some v ∧ Represents hooks (d.popHead hooks).2 l := by
  have hd : d.head = some v := h.linked.1
  cases l with
  | nil =>
    have hn : hooks v = none := h.linked.2
    simp only [popHead, hd, hn]
    exact ⟨trivial, represents_nil hooks⟩
  | cons w l =>
    have hn : hooks v = some w := h.linked.2.1
    simp only [popHead, hd, hn]
    refine ⟨trivial, ⟨rfl, h.linked.2.2⟩, ?_⟩
    show d.tail = _
    rw [h.tail, List.getLast?_cons_cons]

/-- Only one node of a chain links to `v`: the nodes in front of that one link to others. -/
theorem Linked.next_ne {a b v : P} {p : Option P} {k k₂ : List P}
    (h : Linked hooks p (b :: (k ++ a :: v :: k₂))) : ∃ c, hooks b = some c ∧ c ≠ v := by
  have hnd := h.nodup
  have hne : hooks b ≠ some v := by
    intro hbv
    have hpred : b = a := Linked.eq_pred (show Linked hooks _ ((b :: k) ++ a :: v :: k₂) from h)
      (by simp) hbv
    simp [hpred] at hnd
  have hhead := h.2.head
  cases k with
  | nil => exact ⟨a, hhead, fun e => hne (e ▸ hhead)⟩
  | cons c k => exact ⟨c, hhead, fun e => hne (e ▸ hhead)⟩

/-- A walk that goes on until the next node is `v`, and ends there with `r` of the node it is at, ends
at the node in front of `v`; by induction on the nodes in front of that. -/
theorem walk_before {β : Type} {w : Nat → P → β} {r : P → β} {a : P} {p : Option P}
    {k k₂ : List P} (hstop : ∀ f x, hooks x = some v → w (f + 1) x = r x)
    (hgo : ∀ f x c, hooks x = some c → c ≠ v → w (f + 1) x = w f c)
    (hl : Linked hooks p (k ++ a :: v :: k₂)) :
    ∀ fuel, k.length < fuel → ∀ x, p = some x → w fuel x = r a := by
  induction k generalizing p with
  | nil =>
    intro fuel hf x hx
    obtain ⟨f, rfl⟩ : ∃ f, fuel = f + 1 := ⟨fuel - 1, by omega⟩
    obtain ⟨rfl, ha, -⟩ := hl
    obtain rfl : a = x := by simpa using hx
    exact hstop f a ha
  | cons b k ih =>
    intro fuel hf x hx
    rw [List.length_cons] at hf
    obtain ⟨f, rfl⟩ : ∃ f, fuel = f + 1 := ⟨fuel - 1, by omega⟩
    obtain ⟨c, hc, hcv⟩ := Linked.next_ne hl
    obtain ⟨rfl, hb⟩ := hl
    obtain rfl : b = x := by simpa using hx
    rw [hgo f b c hc hcv]
    exact ih hb f (by omega) c hc

end

/-- The walk of `pop_tail` finds the node before the last one. -/
theorem newTail_eq {a t : P} {p : Option P} {k : List P} (hl : Linked hooks p (k ++ [a, t])) :
    ∀ (fuel : Nat), k.length < fuel → ∀ x, p = some x → newTail hooks t fuel x = .ok a := by
  refine walk_before (w := newTail hooks t) (r := Except.ok) ?_ ?_ hl
  · intro f x hx
    simp only [newTail, hx, if_true]
  · intro f x c hx hc
    simp only [newTail, hx, if_neg hc]

theorem popTail_nil {fuel : Nat} (h : Represents hooks d []) :
    d.popTail fuel hooks = .ok (none, hooks, d) := by
  have ht : d.tail = none := h.tail
  simp only [popTail, ht]

/-- `pop_tail` takes the last node off, given fuel for the walk to the node before it. -/
theorem popTail_concat (fuel : Nat) {t : P} (h : Represents hooks d (l ++ [t]))
    (hf : l.length ≤ fuel) :
    ∃ hooks' d', d.popTail fuel hooks = .ok (some t, hooks', d') ∧ Represents hooks' d' l ∧
      ∀ x ∉ l, hooks' x = hooks x := by
  have ht : d.tail = some t := by rw [h.tail]; simp
  rcases List.eq_nil_or_concat' l with rfl | ⟨k, a, rfl⟩
  · have hd : d.head = some t := h.linked.1
    refine ⟨hooks, ⟨none, none⟩, ?_, represents_nil hooks, fun _ _ => rfl⟩
    simp only [popTail, ht, hd, if_true]
  · have hl : Linked hooks d.head (k ++ [a, t]) := by simpa using h.linked
    obtain ⟨x, hx⟩ : ∃ x, d.head = some x := by
      have := hl.head
      cases k with
      | nil => exact ⟨a, this⟩
      | cons c k => exact ⟨c, this⟩
    have hxt : d.head ≠ some t := by
      intro e
      have hnd := hl.nodup
      cases k with
      | nil =>
        have hat : a = t := Option.some.inj (hl.1.symm.trans e)
        simp [hat] at hnd
      | cons c k =>
        have hct : c = t := Option.some.inj (hl.1.symm.trans e)
        simp [hct] at hnd
    refine ⟨Function.update hooks a none, { d with tail := some a }, ?_, ⟨?_, by simp⟩, ?_⟩
    · have hnt := newTail_eq hl fuel (by simp at hf; omega) x hx
      rw [hx] at hxt
      simp only [popTail, ht, hx, if_neg hxt, deref_some, ok_bind, hnt, pure_eq_ok]
    · simpa using hl.cut_last
    · intro y hy
      exact Function.update_of_ne (fun e : y = a => hy (by simp [e])) _ _

/-! ## Removing -/

/-- The walk of `remove` over a chain that does not hold `v` meets the end. -/
theorem prevValue_none {p : Option P} (hl : Linked hooks p l) (hv : v ∉ l) :
    ∀ (fuel : Nat), l.length ≤ fuel → ∀ x, p = some x → prevValue hooks v fuel x = .ok none := by
  induction l generalizing p with
  | nil =>
    intro fuel _ x hx
    exact absurd (hl.symm.trans hx) (by simp)
  | cons b l ih =>
    intro fuel hf x hx
    obtain ⟨f, rfl⟩ : ∃ f, fuel = f + 1 := ⟨fuel - 1, by simp at hf; omega⟩
    obtain ⟨rfl, hb⟩ := hl
    obtain rfl : b = x := by simpa using hx
    cases l with
    | nil =>
      have hn : hooks b = none := hb
      simp only [prevValue, hn]
    | cons c l =>
      have hc : hooks b = some c := hb.1
      have hcv : c ≠ v := fun e => hv (by simp [e])
      simp only [prevValue, hc, if_neg hcv]
      exact ih hb (fun h => hv (List.mem_cons_of_mem _ h)) f (by simp at hf ⊢; omega) c hc

/-- The walk of `remove` stops at the node in front of `v`. -/
theorem prevValue_some {a : P} {k₁ k₂ : List P} {p : Option P}
    (hl : Linked hooks p (k₁ ++ a :: v :: k₂)) :
    ∀ (fuel : Nat), k₁.length < fuel → ∀ x, p = some x →
      prevValue hooks v fuel x = .ok (some a) := by
  refine walk_before (w := prevValue hooks v) (r := fun a => Except.ok (some a)) ?_ ?_ hl
  · intro f x hx
    simp only [prevValue, hx, if_true]
  · intro f x c hx hc
    simp only [prevValue, hx, if_neg hc]

/-- `remove` of a node that is not in this deque changes nothing, wherever else it is linked. -/
theorem remove_of_not_mem {fuel : Nat} (h : Represents hooks d l) (hf : l.length ≤ fuel)
    (hv : v ∉ l) : d.remove fuel hooks (some v) = .ok (hooks, d) := by
  cases l with
  | nil =>
    have hd : d.head = none := h.linked
    simp only [remove, hd]
  | cons w l =>
    have hd : d.head = some w := h.linked.1
    have hwv : w ≠ v := fun e => hv (by simp [e])
    have ht : d.tail ≠ some v := by
      rw [h.tail]
      intro e
      exact hv (List.mem_of_getLast? e)
    have hp := prevValue_none h.linked hv fuel hf w hd
    simp only [remove, hd, if_neg ht, if_neg hwv, hp, ok_bind, pure_eq_ok]

@[simp] theorem remove_null {fuel : Nat} : d.remove fuel hooks none = .ok (hooks, d) := rfl

/-- **`remove` erases its node.** The three cases of the source are the three places of `v`: last,
first, or between two others. -/
theorem remove_of_mem {fuel : Nat} (h : Represents hooks d l) (hf : l.length ≤ fuel) (hv : v ∈ l) :
    ∃ hooks' d', d.remove fuel hooks (some v) = .ok (hooks', d') ∧
      Represents hooks' d' (l.erase v) ∧ ∀ x ∉ l, hooks' x = hooks x := by
  obtain ⟨k₁, k₂, rfl⟩ := List.append_of_mem hv
  have hnd := h.nodup
  have hk₁ : v ∉ k₁ := fun hm => (List.nodup_append.mp hnd).2.2 v hm v (by simp) rfl
  have herase : (k₁ ++ v :: k₂).erase v = k₁ ++ k₂ := by
    rw [List.erase_append_right _ hk₁, List.erase_cons_head]
  rw [herase]
  obtain ⟨x, hx⟩ : ∃ x, d.head = some x := by
    have := h.head
    cases k₁ with
    | nil => exact ⟨v, this⟩
    | cons c k => exact ⟨c, this⟩
  by_cases hk₂ : k₂ = []
  · subst hk₂
    have ht : d.tail = some v := by rw [h.tail]; simp
    obtain ⟨hooks', d', hpop, hrep, hfr⟩ := popTail_concat fuel h (by simp at hf; omega)
    refine ⟨hooks', d', ?_, by simpa using hrep, fun y hy => hfr y fun hm => hy (by simp [hm])⟩
    simp only [remove, hx, ht, if_true, hpop, ok_bind, pure_eq_ok]
  · have ht : d.tail ≠ some v := by
      rw [h.tail]
      intro e
      have hlast : k₂.getLast? = some v := by
        obtain ⟨c, k, rfl⟩ := List.exists_cons_of_ne_nil hk₂
        simpa [List.getLast?_append] using e
      have hvk : v ∈ k₂ := List.mem_of_getLast? hlast
      exact (List.nodup_cons.mp (List.nodup_append.mp hnd).2.1).1 hvk
    cases k₁ with
    | nil =>
      have hxv : x = v := Option.some.inj (hx.symm.trans h.linked.1)
      subst hxv
      obtain ⟨hp₁, hp₂⟩ := popHead_cons h
      refine ⟨hooks, (d.popHead hooks).2, ?_, hp₂, fun _ _ => rfl⟩
      simp only [remove, hx, if_neg ht]
      rfl
    | cons c k =>
      have hxc : x = c := Option.some.inj (hx.symm.trans h.linked.1)
      subst hxc
      have hxv : x ≠ v := fun e => hk₁ (by simp [e])
      -- name the node in front of `v`
      obtain ⟨k', a, hka⟩ : ∃ k' a, x :: k = k' ++ [a] := by
        rcases List.eq_nil_or_concat' (x :: k) with e | ⟨k', a, e⟩
        · cases e
        · exact ⟨k', a, e⟩
      have hl : Linked hooks d.head (k' ++ a :: v :: k₂) := by
        have := h.linked
        rw [hka] at this
        simpa using this
      have hp := prevValue_some hl fuel
        (by rw [hka] at hf; simp at hf; omega) x hx
      refine ⟨Function.update hooks a (hooks v), d, ?_, ⟨?_, ?_⟩, ?_⟩
      · simp only [remove, hx, if_neg ht, if_neg hxv, hp, ok_bind, pure_eq_ok]
      · rw [hka]
        simpa using hl.splice
      · rw [h.tail]
        obtain ⟨c, k₃, rfl⟩ := List.exists_cons_of_ne_nil hk₂
        rw [List.getLast?_append, List.getLast?_append, List.getLast?_cons_cons]
      · intro y hy
        refine Function.update_of_ne (fun e : y = a => hy ?_) _ _
        rw [hka]
        simp [e]

/-! ## Iterating -/

omit [DecidableEq P] in
/-- **The rule for a range-for loop.** `I rest s` holds when the loop is about to visit `rest` in
state `s`. It must fix the link the iterator reads on arriving at a node, and the body must carry
it from one node to the next; what the body does to nodes already passed is its own affair. -/
theorem forEach_rule {σ : Type} {links : σ → Hooks P} {body : P → σ → Outcome σ}
    {I : List P → σ → Prop}
    (hlink : ∀ p rest s, I (p :: rest) s → links s p = rest.head?)
    (hbody : ∀ p rest s, I (p :: rest) s → ∃ s', body p s = .ok s' ∧ I rest s') :
    ∀ (rest : List P) (fuel : Nat) (s : σ), rest.length ≤ fuel → I rest s →
      ∃ s', forEach links body fuel rest.head? (rest.head?.bind (links s)) s = .ok s' ∧ I [] s' := by
  intro rest
  induction rest with
  | nil =>
    intro fuel s _ hI
    exact ⟨s, by cases fuel <;> rfl, hI⟩
  | cons p rest ih =>
    intro fuel s hf hI
    obtain ⟨f, rfl⟩ : ∃ f, fuel = f + 1 := ⟨fuel - 1, by simp at hf; omega⟩
    obtain ⟨s₁, hs₁, hI₁⟩ := hbody p rest s hI
    obtain ⟨s', hs', hI'⟩ := ih f s₁ (by simp at hf; omega) hI₁
    refine ⟨s', ?_, hI'⟩
    have hnext : links s p = rest.head? := hlink p rest s hI
    simp only [List.head?_cons, Option.bind_some, forEach, hs₁, ok_bind, hnext]
    exact hs'

/-! ## Any links at all

What the operations do to links that need not form lists. -/

section links

/-- The node found before `v` links to it. -/
theorem prevValue_links {fuel : Nat} {p prev : P} (h : prevValue hooks v fuel p = .ok (some prev)) :
    hooks prev = some v := by
  induction fuel generalizing p with
  | zero => cases h
  | succ fuel ih =>
    unfold prevValue at h
    cases hp : hooks p with
    | none =>
      rw [hp] at h
      cases h
    | some n =>
      simp only [hp] at h
      split at h
      · next hn =>
        cases h
        rw [hp, hn]
      · exact ih h

/-- A set of nodes that no link leaves. -/
def Closed (W : P → Prop) (hooks : Hooks P) : Prop := ∀ x, W x → ∀ y, hooks x = some y → W y

/-- A deque that starts in a set, if anywhere. -/
def Within (W : P → Prop) (d : SingleDeque P) : Prop := ∀ x, d.head = some x → W x

variable {W : P → Prop}

theorem Closed.update (h : Closed W hooks) {a : P} {o : Option P}
    (ho : W a → ∀ y, o = some y → W y) : Closed W (Function.update hooks a o) := by
  intro x hx y hy
  by_cases hxa : x = a
  · subst hxa
    rw [Function.update_self] at hy
    exact ho hx y hy
  · rw [Function.update_of_ne hxa] at hy
    exact h x hx y hy

theorem Closed.pushTail (h : Closed W hooks) (hv : W v) : Closed W (d.pushTail hooks v).1 := by
  have hnone : Closed W (Function.update hooks v none) := h.update fun _ y hy => by cases hy
  unfold SingleDeque.pushTail
  dsimp only
  split
  · exact hnone
  · exact hnone.update fun _ y hy => by
      cases hy
      exact hv

theorem Within.pushTail (h : Within W d) (hv : W v) : Within W (d.pushTail hooks v).2 := by
  unfold SingleDeque.pushTail
  dsimp only
  split
  · intro x hx
    cases hx
    exact hv
  · exact h

section

omit [DecidableEq P]

theorem Within.popHead (h : Within W d) (hc : Closed W hooks) : Within W (d.popHead hooks).2 := by
  unfold SingleDeque.popHead
  split
  · exact h
  · next v hv =>
    split
    · intro x hx
      cases hx
    · next n hn =>
      intro x hx
      cases hx
      exact hc v (h v hv) n hn

/-- A walk from inside a closed set stays there. -/
theorem Closed.walk (h : Closed W hooks) {n : Nat} {o : Option P} {t : P}
    (ho : ∀ x, o = some x → W x) (ht : t ∈ Chain.walk hooks n o) : W t := by
  induction n generalizing o with
  | zero => cases o <;> cases ht
  | succ n ih =>
    cases o with
    | none => cases ht
    | some v =>
      rcases List.mem_cons.mp ht with rfl | ht
      · exact ho t rfl
      · exact ih (fun x hx => h v (ho v rfl) x hx) ht

theorem Represents.closed (h : Represents hooks d l) : Closed (· ∈ l) hooks := by
  intro x hx y hy
  obtain ⟨l₁, l₂, rfl⟩ := List.append_of_mem hx
  have hhead : l₂.head? = some y := h.linked.next_eq.symm.trans hy
  exact List.mem_append_right _ (List.mem_cons_of_mem _ (List.mem_of_mem_head? hhead))

theorem Represents.within (h : Represents hooks d l) : Within (· ∈ l) d := by
  intro x hx
  exact List.mem_of_mem_head? (h.head.symm.trans hx)

end

/-- A pushed thread is linked afterwards, also one that was in the list already: the push then
cuts the list off behind it. -/
theorem pushTail_mem_walk (h : Represents hooks d l) (v : P) :
    ∃ n, v ∈ Chain.walk (d.pushTail hooks v).1 n (d.pushTail hooks v).2.head := by
  by_cases hv : v ∈ l
  · obtain ⟨l₁, l₂, rfl⟩ := List.append_of_mem hv
    have hnd := List.nodup_append.mp h.nodup
    have htail : ∃ t, d.tail = some t ∧ t ∉ l₁ := by
      refine ⟨(v :: l₂).getLast (List.cons_ne_nil _ _), ?_, fun hm => ?_⟩
      · rw [h.tail, List.getLast?_append_of_ne_nil _ (List.cons_ne_nil _ _)]
        exact List.getLast?_eq_some_getLast _
      · exact hnd.2.2 _ hm _ (List.getLast_mem _) rfl
    obtain ⟨t, ht, hnot⟩ := htail
    refine ⟨l₁.length + 1, ?_⟩
    simp only [pushTail, ht]
    refine h.linked.mem_walk fun x hx => ?_
    have hxt : x ≠ t := fun e => hnot (e ▸ hx)
    have hxv : x ≠ v := hnd.2.2 x hx v List.mem_cons_self
    rw [Function.update_of_ne hxt, Function.update_of_ne hxv]
  · have hrep := pushTail_represents h hv
    refine ⟨(l ++ [v]).length, ?_⟩
    rw [hrep.linked.walk_eq (Nat.le_refl _)]
    exact List.mem_append_right _ List.mem_cons_self

/-- Unlinking a node stays inside any set that links do not leave. -/
theorem remove_closed {fuel : Nat} {d' : SingleDeque P} (hc : Closed W hooks) (hd : Within W d)
    (h : d.remove fuel hooks (some v) = .ok (hooks', d')) : Closed W hooks' ∧ Within W d' := by
  unfold remove at h
  split at h
  · cases h
    exact ⟨hc, hd⟩
  · cases h
    exact ⟨hc, hd⟩
  · split at h
    · obtain ⟨⟨_, _, _⟩, hr, h⟩ := bind_ok.mp h
      cases h
      unfold popTail at hr
      split at hr
      · cases hr
        exact ⟨hc, hd⟩
      · split at hr
        · cases hr
          exact ⟨hc, fun x hx => by cases hx⟩
        · obtain ⟨_, -, hr⟩ := bind_ok.mp hr
          obtain ⟨nt, -, hr⟩ := bind_ok.mp hr
          cases hr
          exact ⟨hc.update (fun _ y hy => by cases hy), hd⟩
    · split at h
      · cases h
        exact ⟨hc, hd.popHead hc⟩
      · obtain ⟨prev, hprev, h⟩ := bind_ok.mp h
        cases prev with
        | none =>
          cases h
          exact ⟨hc, hd⟩
        | some prev =>
          cases h
          have hlink := prevValue_links hprev
          exact ⟨hc.update (fun hp => hc _ (hc prev hp _ hlink)), hd⟩

end links

section loops

variable {σ τ : Type} {links : σ → Hooks P} {body : P → σ → Outcome σ}

omit [DecidableEq P] in
/-- **The rule for a loop that returned**, over any links at all. `I ptr next s` holds when the
iterator is at `ptr` with `next` read, and the body carries it to the next node. -/
theorem forEach_invariant {I : Option P → Option P → σ → Prop}
    (hbody : ∀ p next s s', I (some p) next s → body p s = .ok s' →
      I next (next.bind (links s')) s') :
    ∀ (fuel : Nat) (ptr next : Option P) (s s' : σ),
      forEach links body fuel ptr next s = .ok s' → I ptr next s → ∃ next', I none next' s' := by
  intro fuel
  induction fuel with
  | zero =>
    intro ptr next s s' h hI
    cases ptr with
    | none =>
      cases h
      exact ⟨next, hI⟩
    | some p => cases h
  | succ fuel ih =>
    intro ptr next s s' h hI
    cases ptr with
    | none =>
      cases h
      exact ⟨next, hI⟩
    | some p =>
      obtain ⟨s₁, hs₁, hrest⟩ := bind_ok.mp h
      exact ih next _ s₁ s' hrest (hbody p next s s₁ hI hs₁)

omit [DecidableEq P] in
/-- A loop over `τ` follows a loop over `σ` when the bodies and the links do. -/
theorem forEach_map {links' : τ → Hooks P} {body' : P → τ → Outcome τ} {g : σ → τ}
    (hlinks : ∀ s, links' (g s) = links s) (hbody : ∀ p s, body' p (g s) = g <$> body p s) :
    ∀ (fuel : Nat) (ptr next : Option P) (s : σ),
      forEach links' body' fuel ptr next (g s) = g <$> forEach links body fuel ptr next s := by
  intro fuel
  induction fuel with
  | zero =>
    intro ptr next s
    cases ptr <;> rfl
  | succ fuel ih =>
    intro ptr next s
    cases ptr with
    | none => rfl
    | some p =>
      simp only [forEach, hbody]
      cases body p s with
      | error e => rfl
      | ok s₁ =>
        show forEach links' body' fuel next (next.bind (links' (g s₁))) (g s₁) = _
        rw [hlinks, ih]
        rfl

end loops

end TwoKernel.SingleDeque
