import Mathlib.Algebra.GroupWithZero.Nat
import Mathlib.Logic.Function.Basic

/-!
# Machine words and faults

The kernel is freestanding C++ for x86-64: every counter, address and page
table entry is a fixed-width unsigned word, and arithmetic wraps. `Word` and
`Byte` are those widths.

A function of the kernel can also fail to return a value at all. `Fault` names
the ways: it reads through a null pointer, it touches an address where nothing
is mapped, it loops for ever, or it stops the machine. A loop of the source is a
recursion on fuel; running out of fuel is `Fault.diverges`, so a statement that a
call returns is a statement that some fuel is enough.
-/

namespace TwoKernel

/-- `std::uint64_t`, `std::size_t`, and every pointer turned into an integer. -/
abbrev Word := BitVec 64

/-- `std::uint8_t`. -/
abbrev Byte := BitVec 8

/-- For the numerals of `Fin 2`, a local instance where there are any. -/
theorem neZero_two : NeZero 2 := ⟨by decide⟩

/-- For the numerals of `Fin 3`, a local instance where there are any. -/
theorem neZero_three : NeZero 3 := ⟨by decide⟩

/-- How a call can end without returning. -/
inductive Fault where
  | nullDeref
  /-- A load or a store at an address where nothing is mapped. -/
  | pageFault (address : Word)
  | diverges
  /-- `Util::klog_panic`: print the message, mask interrupts, halt. -/
  | panic (message : String)
  /-- `cli; hlt` outside a panic. -/
  | halted
  deriving DecidableEq, Repr

/-- The result of a call: a value, or the way it failed to return one. -/
abbrev Outcome (α : Type) := Except Fault α

/-- Read through a pointer that may be null. -/
def deref {α : Type} : Option α → Outcome α
  | some a => .ok a
  | none => .error .nullDeref

@[simp] theorem deref_some {α : Type} (a : α) : deref (some a) = .ok a := rfl

theorem deref_ok {α : Type} {p : Option α} {a : α} (h : deref p = .ok a) : p = some a := by
  cases p with
  | none => cases h
  | some b => exact congrArg some (Except.ok.inj h)

@[simp] theorem ok_bind {α β : Type} (a : α) (f : α → Outcome β) :
    (Except.ok a >>= f) = f a := rfl

@[simp] theorem error_bind {α β : Type} (e : Fault) (f : α → Outcome β) :
    ((Except.error e : Outcome α) >>= f) = .error e := rfl

@[simp] theorem pure_eq_ok {α : Type} (a : α) : (pure a : Outcome α) = .ok a := rfl

/-- A sequence returns exactly when its first half does and its second half does after it. -/
theorem bind_ok {α β : Type} {x : Outcome α} {f : α → Outcome β} {b : β} :
    (x >>= f) = .ok b ↔ ∃ a, x = .ok a ∧ f a = .ok b := by
  cases x with
  | ok a => simp
  | error e => simp

theorem map_ok {α β : Type} {x : Outcome α} {f : α → β} {b : β} :
    (f <$> x) = .ok b ↔ ∃ a, x = .ok a ∧ f a = b := by
  cases x with
  | ok a => simp [Functor.map, Except.map]
  | error e => simp [Functor.map, Except.map]

theorem map_error {α β : Type} {x : Outcome α} {f : α → β} {e : Fault} :
    (f <$> x) = .error e ↔ x = .error e := by
  cases x with
  | ok a => simp [Functor.map, Except.map]
  | error e => simp [Functor.map, Except.map]

/-- The call returns a value that satisfies `Q`, or stops the machine with a message, which it does
only if `short`. -/
def Outcome.Returns {α : Type} (short : Prop) (x : Outcome α) (Q : α → Prop) : Prop :=
  (∃ a, x = .ok a ∧ Q a) ∨ short ∧ ∃ message, x = .error (.panic message)

namespace Outcome.Returns

variable {α β : Type} {short short' : Prop} {x : Outcome α} {f : α → Outcome β} {a : α}
  {Q Q' : α → Prop} {R : β → Prop}

theorem ok (h : Q a) : Returns short (.ok a) Q := .inl ⟨a, rfl, h⟩

/-- A sequence returns if its parts do. -/
theorem bind (h : Returns short x Q) (hf : ∀ a, Q a → Returns short (f a) R) :
    Returns short (x >>= f) R := by
  rcases h with ⟨a, rfl, ha⟩ | ⟨hs, m, rfl⟩
  · exact hf a ha
  · exact .inr ⟨hs, m, rfl⟩

theorem mono (h : Returns short x Q) (hs : short → short') (hQ : ∀ a, Q a → Q' a) :
    Returns short' x Q' := by
  rcases h with ⟨a, rfl, ha⟩ | ⟨hshort, m, rfl⟩
  · exact .inl ⟨a, rfl, hQ a ha⟩
  · exact .inr ⟨hs hshort, m, rfl⟩

/-- What is known of the value a call returned holds beside the call. -/
theorem with_eq (h : Returns short x Q) : Returns short x fun a => x = .ok a ∧ Q a := by
  rcases h with ⟨a, hx, ha⟩ | hfail
  · exact .inl ⟨a, hx, hx, ha⟩
  · exact .inr hfail

/-- A call that did return. -/
theorem of_ok (h : Returns short x Q) (hx : x = .ok a) : Q a := by
  rcases h with ⟨b, hb, hQ⟩ | ⟨-, m, hm⟩
  · cases hx.symm.trans hb
    exact hQ
  · cases hx.symm.trans hm

/-- A call that is not short of anything returns. -/
theorem exists_ok (h : Returns short x Q) (hs : ¬ short) : ∃ a, x = .ok a ∧ Q a :=
  h.resolve_right fun hr => hs hr.1

end Outcome.Returns

end TwoKernel
