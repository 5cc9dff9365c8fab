import Mathlib.Logic.Basic

/-!
# Computations with a log

`Logged ω ε α` is a computation that returns an `α` or fails with an `ε`, beside
the list of the `ω`s it has recorded by then. A model with a log is written with
`tell` where something is to be recorded; forgetting the log (`result`) commutes
with the monad's operations, so it gives back the model without one.

A computation may record things of several kinds; `relabel` says which kind its log
becomes a part of, and `observe` picks one kind out again.

`Leaves P x` says that whatever `x` returns stands in the relation `P` to what it
has recorded. `Records P x` says that everything it has recorded satisfies `P`, whether
it returns or not. `Yields P x a` says that `x` does return, namely `a`, and that everything
it has recorded satisfies `P`. A sequence is followed with `Leaves.bind`, `Records.bind`
and `Yields.bind`.
-/

namespace TwoKernel

structure Logged (ω ε α : Type) where
  log : List ω
  result : Except ε α

namespace Logged

variable {ω ω' ε α β : Type} {x : Logged ω ε α} {f : α → Logged ω ε β}

instance : Monad (Logged ω ε) where
  pure a := ⟨[], .ok a⟩
  bind x f :=
    match x.result with
    | .ok a => ⟨x.log ++ (f a).log, (f a).result⟩
    | .error e => ⟨x.log, .error e⟩

/-- Record one thing. -/
def tell (w : ω) : Logged ω ε Unit := ⟨[w], .ok ()⟩

/-- Record a list of things. -/
def tells (l : List ω) : Logged ω ε Unit := ⟨l, .ok ()⟩

/-- A computation that records nothing. -/
def lift (x : Except ε α) : Logged ω ε α := ⟨[], x⟩

/-- The same computation, with its log as part of a larger one. -/
def relabel (g : ω → ω') (x : Logged ω ε α) : Logged ω' ε α := ⟨x.log.map g, x.result⟩

/-- The same computation, with a part of its log. -/
def observe (g : ω → Option ω') (x : Logged ω ε α) : Logged ω' ε α := ⟨x.log.filterMap g, x.result⟩

@[simp] theorem result_pure (a : α) : (pure a : Logged ω ε α).result = .ok a := rfl

@[simp] theorem result_lift (x : Except ε α) : (lift x : Logged ω ε α).result = x := rfl

@[simp] theorem result_tells (l : List ω) : (tells l : Logged ω ε Unit).result = .ok () := rfl

@[simp] theorem result_relabel (g : ω → ω') (x : Logged ω ε α) : (x.relabel g).result = x.result := rfl

/-- The result of a sequence does not depend on the logs. -/
@[simp] theorem result_bind (x : Logged ω ε α) (f : α → Logged ω ε β) :
    (x >>= f).result = x.result >>= fun a => (f a).result := by
  show (match x.result with
    | .ok a => (⟨x.log ++ (f a).log, (f a).result⟩ : Logged ω ε β)
    | .error e => ⟨x.log, .error e⟩).result = _
  cases x.result <;> rfl

@[simp] theorem tells_bind_tells (l l' : List ω) (x : Logged ω ε α) :
    (tells l >>= fun _ => tells l' >>= fun _ => x) = (tells (l ++ l') >>= fun _ => x) := by
  show (⟨l ++ (l' ++ x.log), x.result⟩ : Logged ω ε α) = ⟨(l ++ l') ++ x.log, x.result⟩
  rw [List.append_assoc]

@[simp] theorem tells_bind_bind (l : List ω) (x : Logged ω ε α) (f : α → Logged ω ε β) :
    ((tells l >>= fun _ => x) >>= f) = (tells l >>= fun _ => x >>= f) := by
  obtain ⟨log, result⟩ := x
  cases result with
  | ok a =>
    show (⟨(l ++ log) ++ (f a).log, (f a).result⟩ : Logged ω ε β) =
      ⟨l ++ (log ++ (f a).log), (f a).result⟩
    rw [List.append_assoc]
  | error e => rfl

/-- The log of a sequence is one log after the other. -/
theorem log_bind {a : α} (h : x.result = .ok a) : (x >>= f).log = x.log ++ (f a).log := by
  show (match x.result with
    | .ok a => (⟨x.log ++ (f a).log, (f a).result⟩ : Logged ω ε β)
    | .error e => ⟨x.log, .error e⟩).log = _
  rw [h]

/-- A sequence that returns has returned from both halves. -/
theorem result_bind_ok {b : β} (h : (x >>= f).result = .ok b) :
    ∃ a, x.result = .ok a ∧ (f a).result = .ok b ∧ (x >>= f).log = x.log ++ (f a).log := by
  rw [result_bind] at h
  cases hres : x.result with
  | error e =>
    rw [hres] at h
    cases h
  | ok a =>
    rw [hres] at h
    exact ⟨a, rfl, h, log_bind hres⟩

/-- What is returned stands in a relation to what was recorded. -/
structure Leaves (P : List ω → α → Prop) (x : Logged ω ε α) : Prop where
  of_ok : ∀ a, x.result = .ok a → P x.log a

namespace Leaves

/-- A pure value leaves an empty log. -/
theorem pure {P : List ω → α → Prop} {a : α} (h : P [] a) :
    Leaves P (Pure.pure a : Logged ω ε α) := by
  constructor
  intro b hb
  cases hb
  exact h

theorem lift {P : List ω → α → Prop} {x : Except ε α} (h : ∀ a, x = .ok a → P [] a) :
    Leaves P (Logged.lift x : Logged ω ε α) := ⟨h⟩

theorem error {P : List ω → α → Prop} {e : ε} :
    Leaves P (Logged.lift (.error e) : Logged ω ε α) := by
  apply lift
  intro a ha
  cases ha

/-- **Sequencing.** The second half is followed from what the first has recorded and returned. -/
theorem bind {P : List ω → α → Prop} {Q : List ω → β → Prop} (hx : Leaves P x)
    (hf : ∀ l a, P l a → Leaves (fun l' b => Q (l ++ l') b) (f a)) : Leaves Q (x >>= f) := by
  constructor
  intro b hb
  obtain ⟨a, hres, hb, hlog⟩ := result_bind_ok hb
  rw [hlog]
  exact (hf x.log a (hx.of_ok a hres)).of_ok b hb

/-- What is left may be weakened. -/
theorem mono {P Q : List ω → α → Prop} (h : Leaves P x) (hpq : ∀ l a, P l a → Q l a) :
    Leaves Q x := ⟨fun a ha => hpq _ _ (h.of_ok a ha)⟩

theorem tells {P : List ω → Unit → Prop} {l : List ω} (h : P l ()) :
    Leaves P (Logged.tells l : Logged ω ε Unit) := ⟨fun _ _ => h⟩

/-- What is picked out of a larger log is what was recorded. -/
theorem relabel {P : List ω → α → Prop} {g : ω → ω'} {k : ω' → Option ω}
    (hk : ∀ w, k (g w) = some w) (h : Leaves P x) :
    Leaves (fun l a => P (l.filterMap k) a) (x.relabel g) := by
  constructor
  intro a ha
  have hlog : (x.log.map g).filterMap k = x.log := by
    rw [List.filterMap_map, show k ∘ g = some from funext hk, List.filterMap_some]
  show P ((x.log.map g).filterMap k) a
  rw [hlog]
  exact h.of_ok a ha

end Leaves

/-- Everything that was recorded satisfies `P`. -/
def Records (P : ω → Prop) (x : Logged ω ε α) : Prop := ∀ w ∈ x.log, P w

namespace Records

variable {P : ω → Prop}

theorem pure (a : α) : Records P (Pure.pure a : Logged ω ε α) :=
  fun _ hw => absurd hw List.not_mem_nil

/-- What is told must have the property. -/
theorem tells {l : List ω} (h : ∀ w ∈ l, P w) : Records P (Logged.tells l : Logged ω ε Unit) := h

theorem relabel {g : ω' → ω} (h : ∀ w, P (g w)) (x : Logged ω' ε α) : Records P (x.relabel g) := by
  intro w hw
  obtain ⟨v, -, rfl⟩ := List.mem_map.mp hw
  exact h v

/-- **Sequencing.** The second half counts if the first returns. -/
theorem bind (hx : Records P x) (hf : ∀ a, x.result = .ok a → Records P (f a)) :
    Records P (x >>= f) := by
  intro w hw
  cases hres : x.result with
  | error e =>
    have hlog : (x >>= f).log = x.log := by
      show (match x.result with
        | .ok a => (⟨x.log ++ (f a).log, (f a).result⟩ : Logged ω ε β)
        | .error e => ⟨x.log, .error e⟩).log = _
      rw [hres]
    rw [hlog] at hw
    exact hx w hw
  | ok a =>
    rw [log_bind hres] at hw
    rcases List.mem_append.mp hw with hw | hw
    · exact hx w hw
    · exact hf a hres w hw

end Records

/-- `a` is returned, and everything that was recorded satisfies `P`. -/
structure Yields (P : ω → Prop) (x : Logged ω ε α) (a : α) : Prop where
  result : x.result = .ok a
  recorded : ∀ w ∈ x.log, P w

namespace Yields

variable {P : ω → Prop} {a : α} {b : β} {w : ω}

theorem pure (a : α) : Yields P (Pure.pure a : Logged ω ε α) a :=
  ⟨rfl, fun _ hw => absurd hw List.not_mem_nil⟩

theorem tell (h : P w) : Yields P (Logged.tell w : Logged ω ε Unit) () := by
  refine ⟨rfl, fun w' hw' => ?_⟩
  rw [List.mem_singleton.mp hw']
  exact h

theorem tells {l : List ω} (h : ∀ w ∈ l, P w) : Yields P (Logged.tells l : Logged ω ε Unit) () :=
  ⟨rfl, h⟩

/-- **Sequencing.** -/
theorem bind (hx : Yields P x a) (hf : Yields P (f a) b) : Yields P (x >>= f) b := by
  constructor
  · rw [result_bind, hx.result]
    exact hf.result
  · intro w hw
    rw [log_bind hx.result] at hw
    rcases List.mem_append.mp hw with hw | hw
    · exact hx.recorded w hw
    · exact hf.recorded w hw

end Yields

end Logged

end TwoKernel
