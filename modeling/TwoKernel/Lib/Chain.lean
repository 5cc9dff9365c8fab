import Mathlib.Logic.Function.Basic
import Mathlib.Data.List.Nodup

/-!
# Chains through a link map

A node is an element of an arbitrary type `P`; a link map `next : P → Option P`
gives each node its successor, `none` being the null pointer. `Linked next p l`
says that following `next` from the pointer `p` visits exactly the nodes of
`l`, in order, and then meets null.

Two facts carry the library. The list of a chain is determined by the link map
(`Linked.unique`), and a chain that ends is duplicate-free (`Linked.nodup`): a
repeated node would have two different rests. So acyclicity never has to be
assumed beside `Linked`; it follows.

The edits are the four a singly linked structure makes: extend at the end, cut
the last node, splice a middle node out, and write a link that the chain does
not read.
-/

namespace Chain

variable {P : Type*}

/-- Following `next` from `p` visits exactly `l` and then null. -/
def Linked (next : P → Option P) : Option P → List P → Prop
  | p, [] => p = none
  | p, v :: l => p = some v ∧ Linked next (next v) l

variable {next next' : P → Option P} {p : Option P} {v : P} {l l' : List P}

@[simp] theorem linked_nil : Linked next p [] ↔ p = none := Iff.rfl

/-- A chain starts at the head of its list. -/
theorem Linked.head (h : Linked next p l) : p = l.head? := by
  cases l with
  | nil => exact h
  | cons v l => exact h.1

/-- The nodes met in `n` steps from `p`. -/
def walk (next : P → Option P) : Nat → Option P → List P
  | _, none => []
  | 0, some _ => []
  | n + 1, some v => v :: walk next n (next v)

/-- On a chain that ends, a walk as long as the chain lists it. -/
theorem Linked.walk_eq (h : Linked next p l) {n : Nat} (hn : l.length ≤ n) : walk next n p = l := by
  induction l generalizing p n with
  | nil =>
    rw [show p = none from h]
    cases n <;> rfl
  | cons v l ih =>
    obtain ⟨rfl, hl⟩ := h
    cases n with
    | zero => exact absurd hn (by simp)
    | succ n => exact congrArg (v :: ·) (ih hl (by simpa using hn))

/-- The list of a chain is determined by the link map. -/
theorem Linked.unique (h : Linked next p l) (h' : Linked next p l') : l = l' := by
  induction l generalizing p l' with
  | nil =>
    cases l' with
    | nil => rfl
    | cons w l' => exact absurd (h.symm.trans h'.1) (by simp)
  | cons v l ih =>
    cases l' with
    | nil => exact absurd (h.1.symm.trans h') (by simp)
    | cons w l' =>
      obtain ⟨hv, hl⟩ := h
      obtain ⟨hw, hl'⟩ := h'
      have hvw : v = w := Option.some.inj (hv.symm.trans hw)
      subst hvw
      rw [ih hl hl']

/-- A walk meets every node of a chain whose links are intact in front of it. -/
theorem Linked.mem_walk {l₁ l₂ : List P} (h : Linked next p (l₁ ++ v :: l₂))
    (hag : ∀ x ∈ l₁, next' x = next x) : v ∈ walk next' (l₁.length + 1) p := by
  induction l₁ generalizing p with
  | nil =>
    rw [h.1]
    exact List.mem_cons_self
  | cons w l₁ ih =>
    rw [h.1]
    refine List.mem_cons_of_mem w ?_
    rw [hag w List.mem_cons_self]
    exact ih h.2 fun x hx => hag x (List.mem_cons_of_mem _ hx)

/-- A chain reads only the links of its own nodes. -/
theorem Linked.congr (h : Linked next p l) (hag : ∀ x ∈ l, next' x = next x) :
    Linked next' p l := by
  induction l generalizing p with
  | nil => exact h
  | cons v l ih =>
    refine ⟨h.1, ?_⟩
    rw [hag v List.mem_cons_self]
    exact ih h.2 fun x hx => hag x (List.mem_cons_of_mem _ hx)

/-- Every node of a chain starts a chain of its own: the rest of the list. -/
theorem Linked.suffix {l₁ l₂ : List P} (h : Linked next p (l₁ ++ v :: l₂)) :
    Linked next (some v) (v :: l₂) := by
  induction l₁ generalizing p with
  | nil => exact ⟨rfl, h.2⟩
  | cons w l₁ ih => exact ih h.2

/-- **A chain that ends is duplicate-free.** A node met twice would start two chains of
different lengths. -/
theorem Linked.nodup (h : Linked next p l) : l.Nodup := by
  induction l generalizing p with
  | nil => exact List.nodup_nil
  | cons v l ih =>
    refine List.nodup_cons.mpr ⟨fun hv => ?_, ih h.2⟩
    obtain ⟨l₁, l₂, rfl⟩ := List.append_of_mem hv
    have hlong : Linked next (some v) (v :: (l₁ ++ v :: l₂)) := ⟨rfl, h.2⟩
    have hlen := congrArg List.length (hlong.unique h.2.suffix)
    simp only [List.length_cons, List.length_append] at hlen
    omega

/-- Replacing the rest of a chain behind a prefix that reads the same links. -/
theorem Linked.replace_suffix {l₁ l₂ l₃ : List P} (h : Linked next p (l₁ ++ v :: l₂))
    (hag : ∀ x ∈ l₁, next' x = next x) (hv : Linked next' (next' v) l₃) :
    Linked next' p (l₁ ++ v :: l₃) := by
  induction l₁ generalizing p with
  | nil => exact ⟨h.1, hv⟩
  | cons w l₁ ih =>
    refine ⟨h.1, ?_⟩
    rw [hag w List.mem_cons_self]
    exact ih h.2 fun x hx => hag x (List.mem_cons_of_mem _ hx)

/-- The link of a node in a chain points at the node after it. -/
theorem Linked.next_eq {l₁ l₂ : List P} (h : Linked next p (l₁ ++ v :: l₂)) :
    next v = l₂.head? :=
  h.suffix.2.head

/-- In a chain only the node before `v` links to `v`. -/
theorem Linked.eq_pred {a b : P} {l₁ l₂ : List P} (h : Linked next p (l₁ ++ a :: v :: l₂))
    (hb : b ∈ l₁ ++ a :: v :: l₂) (hn : next b = some v) : b = a := by
  obtain ⟨k₁, k₂, hk⟩ := List.append_of_mem hb
  have hb' : Linked next p (k₁ ++ b :: k₂) := hk ▸ h
  have hk₂ : k₂.head? = some v := hb'.next_eq.symm.trans hn
  obtain ⟨k₃, rfl⟩ : ∃ k₃, k₂ = v :: k₃ := by
    cases k₂ with
    | nil => cases hk₂
    | cons w k₃ => exact ⟨k₃, by rw [Option.some.inj hk₂]⟩
  -- both splits put the rest of the chain behind `v`, so the prefixes agree
  have hrest : v :: l₂ = v :: k₃ := by
    have h₁ : Linked next (some v) (v :: l₂) := by
      have : Linked next p ((l₁ ++ [a]) ++ v :: l₂) := by simpa using h
      exact this.suffix
    have h₂ : Linked next (some v) (v :: k₃) := by
      have : Linked next p ((k₁ ++ [b]) ++ v :: k₃) := by simpa using hb'
      exact this.suffix
    exact h₁.unique h₂
  rw [← hrest] at hk
  have hsplit : (l₁ ++ [a]) ++ v :: l₂ = (k₁ ++ [b]) ++ v :: l₂ := by simpa using hk
  have := List.append_cancel_right hsplit
  exact (List.append_inj' this rfl).2 |> fun e => (List.singleton_inj.mp e).symm

section Edits

variable [DecidableEq P]

/-- A link the chain does not read may be written freely. -/
theorem Linked.update_of_not_mem {w : P} {q : Option P} (h : Linked next p l) (hw : w ∉ l) :
    Linked (Function.update next w q) p l :=
  h.congr fun x hx => Function.update_of_ne (fun e : x = w => hw (e ▸ hx)) _ _

/-- Prepending: the new node links to the old start. -/
theorem Linked.cons_update (h : Linked next p l) (hv : v ∉ l) :
    Linked (Function.update next v p) (some v) (v :: l) := by
  refine ⟨rfl, ?_⟩
  rw [Function.update_self]
  exact h.update_of_not_mem hv

/-- Appending: the new node links to null and the old last node links to it. -/
theorem Linked.snoc {t : P} (h : Linked next p (l ++ [t])) (hv : v ∉ l ++ [t]) :
    Linked (Function.update (Function.update next v none) t (some v)) p (l ++ [t, v]) := by
  have hvt : v ≠ t := fun e => hv (by simp [e])
  have hnd := h.nodup
  have htl : t ∉ l := by
    intro ht
    exact (List.nodup_append.mp hnd).2.2 t ht t (by simp) rfl
  refine h.replace_suffix (fun x hx => ?_) ?_
  · have hxt : x ≠ t := fun e => htl (e ▸ hx)
    have hxv : x ≠ v := fun e => hv (by simp [e ▸ hx])
    rw [Function.update_of_ne hxt, Function.update_of_ne hxv]
  · rw [Function.update_self]
    refine ⟨rfl, ?_⟩
    rw [Function.update_of_ne hvt, Function.update_self]
    rfl

/-- Cutting the last node: the one before it links to null. -/
theorem Linked.cut_last {a t : P} (h : Linked next p (l ++ [a, t])) :
    Linked (Function.update next a none) p (l ++ [a]) := by
  have hal : a ∉ l := by
    intro ha
    exact (List.nodup_append.mp h.nodup).2.2 a ha a (by simp) rfl
  refine h.replace_suffix (fun x hx => ?_) ?_
  · exact Function.update_of_ne (fun e : x = a => hal (e ▸ hx)) _ _
  · rw [Function.update_self]
    rfl

/-- Splicing a node out: the one before it takes over its link. -/
theorem Linked.splice {a : P} {l₁ l₂ : List P} (h : Linked next p (l₁ ++ a :: v :: l₂)) :
    Linked (Function.update next a (next v)) p (l₁ ++ a :: l₂) := by
  have hnd := h.nodup
  have hal : a ∉ l₁ := by
    intro ha
    exact (List.nodup_append.mp hnd).2.2 a ha a (by simp) rfl
  have hal₂ : a ∉ l₂ := by
    intro ha
    have := (List.nodup_append.mp hnd).2.1
    simp [ha] at this
  refine h.replace_suffix (fun x hx => ?_) ?_
  · exact Function.update_of_ne (fun e : x = a => hal (e ▸ hx)) _ _
  · rw [Function.update_self]
    have hv : Linked next p ((l₁ ++ [a]) ++ v :: l₂) := by simpa using h
    exact hv.suffix.2.update_of_not_mem hal₂

end Edits

end Chain
