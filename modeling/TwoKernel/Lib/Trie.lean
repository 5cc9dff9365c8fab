import Mathlib.Data.List.Infix
import Mathlib.Data.Set.Basic

/-!
# Trees of linked nodes

Trees kept as nodes in a store: `next n i` is the node that slot `i` of node `n`
links to, and `descend` follows a path of slots from a root. Several trees may
lie in one store and share nodes below some of their slots, so a statement
names the *places* it is about, pairs of a root and a path.

A `Forest` over a set of places: no node is at two of them, and no node at one
of them is free. Then a link written into one slot moves only the places below
that slot (`descend_eq`), and a fresh node linked into an empty slot appears at
one place and disturbs no other (`graft`).
-/

namespace Trie

variable {N ι : Type} {next next' : N → ι → Option N} {r r' n m : N} {p q : List ι} {i : ι}

/-- The node at the end of a path. -/
def descend (next : N → ι → Option N) (r : N) : List ι → Option N
  | [] => some r
  | i :: p => (next r i).bind fun n => descend next n p

private theorem descend_append (p q : List ι) :
    descend next r (p ++ q) = (descend next r p).bind fun n => descend next n q := by
  induction p generalizing r with
  | nil => rfl
  | cons i p ih =>
    show (next r i).bind _ = ((next r i).bind _).bind _
    cases next r i with
    | none => rfl
    | some n => exact ih

theorem descend_concat (p : List ι) (i : ι) :
    descend next r (p ++ [i]) = (descend next r p).bind fun n => next n i := by
  rw [descend_append]
  cases descend next r p with
  | none => rfl
  | some n =>
    show (next n i).bind some = next n i
    cases next n i <;> rfl

/-- A descent reads the slots on its path only. -/
theorem descend_congr
    (h : ∀ q i, q ++ [i] <+: p → ∀ n, descend next r q = some n → next' n i = next n i) :
    descend next' r p = descend next r p := by
  induction p using List.reverseRecOn with
  | nil => rfl
  | append_singleton p i ih =>
    have hp : descend next' r p = descend next r p :=
      ih fun q j hq => h q j (hq.trans (List.prefix_append p [i]))
    rw [descend_concat, descend_concat, hp]
    cases hn : descend next r p with
    | none => rfl
    | some n => exact h p i List.prefix_rfl n hn

/-- A set of places that holds every place on the way to one of its own, in which no node is at two
places, and none of whose nodes is free. -/
structure Forest (next : N → ι → Option N) (places : Set (N × List ι)) (free : Set N) : Prop where
  closed : ∀ {r p i}, (r, p ++ [i]) ∈ places → (r, p) ∈ places
  sole : ∀ {r p r' p' n}, (r, p) ∈ places → (r', p') ∈ places → descend next r p = some n →
    descend next r' p' = some n → r = r' ∧ p = p'
  used : ∀ {r p n}, (r, p) ∈ places → descend next r p = some n → n ∉ free

namespace Forest

variable {places places' : Set (N × List ι)} {free free' : Set N}

private theorem closed_append (h : Forest next places free) :
    ∀ {q : List ι}, (r, p ++ q) ∈ places → (r, p) ∈ places := by
  intro q
  induction q using List.reverseRecOn with
  | nil =>
    intro hp
    rwa [List.append_nil] at hp
  | append_singleton q i ih =>
    intro hp
    rw [← List.append_assoc] at hp
    exact ih (h.closed hp)

theorem closed_prefix (h : Forest next places free) (hp : (r, p) ∈ places) (hq : q <+: p) :
    (r, q) ∈ places := by
  obtain ⟨t, rfl⟩ := hq
  exact h.closed_append hp

/-- Links that agree off the free nodes, except in slot `i` of the node at `(r, q)`, lead to the
same nodes everywhere but below that slot. -/
theorem descend_eq (h : Forest next places free) (hq : (r, q) ∈ places)
    (hn : descend next r q = some n)
    (hagree : ∀ a j, a ∉ free → (a = n → j ≠ i) → next' a j = next a j)
    (hp : (r', p) ∈ places) (hnot : r' = r → ¬ q ++ [i] <+: p) :
    descend next' r' p = descend next r' p := by
  apply descend_congr
  intro t j ht a ha
  have htp : (r', t) ∈ places := h.closed (h.closed_prefix hp ht)
  refine hagree a j (h.used htp ha) ?_
  rintro rfl rfl
  obtain ⟨hr, rfl⟩ := h.sole htp hq ha hn
  exact hnot hr ht

/-- Nothing is below an empty slot. -/
theorem descend_below_none (hn : descend next r q = some n) (hi : next n i = none) (p : List ι) :
    descend next r (q ++ [i] ++ p) = none := by
  rw [descend_append, descend_concat, hn]
  show ((next n i).bind _) = none
  rw [hi]
  rfl

/-- A forest only depends on where its places lead. -/
theorem congr (h : Forest next places free) (hfree : free' ⊆ free)
    (heq : ∀ r p, (r, p) ∈ places → descend next' r p = descend next r p) :
    Forest next' places free' where
  closed := h.closed
  sole hp hp' hn hn' := by
    rw [heq _ _ hp] at hn
    rw [heq _ _ hp'] at hn'
    exact h.sole hp hp' hn hn'
  used hp hn := by
    rw [heq _ _ hp] at hn
    exact fun hf => h.used hp hn (hfree hf)

/-- **Grafting.** A free node `m` with no links of its own, linked into an empty slot of the forest:
it is at the place of that slot, every other place leads where it led, and the forest stands. -/
theorem graft (h : Forest next places free) (hq : (r, q ++ [i]) ∈ places)
    (hn : descend next r q = some n) (hi : next n i = none) (hm : m ∈ free)
    (hagree : ∀ a j, a ∉ free → (a = n → j ≠ i) → next' a j = next a j)
    (hnew : next' n i = some m) (hempty : ∀ j, next' m j = none)
    (hfree : free' ⊆ free \ {m}) :
    descend next' r (q ++ [i]) = some m ∧
      (∀ r' p, (r', p) ∈ places → (r', p) ≠ (r, q ++ [i]) →
        descend next' r' p = descend next r' p) ∧
      Forest next' places free' := by
  have hroot : descend next' r q = some n := by
    rw [h.descend_eq (h.closed hq) hn hagree (h.closed hq), hn]
    intro _ hpre
    have hlen := hpre.length_le
    rw [List.length_append, List.length_singleton] at hlen
    omega
  have hat : descend next' r (q ++ [i]) = some m := by
    rw [descend_concat, hroot]
    exact hnew
  have hrest : ∀ r' p, (r', p) ∈ places → (r', p) ≠ (r, q ++ [i]) →
      descend next' r' p = descend next r' p := by
    intro r' p hp hne
    by_cases hbelow : r' = r ∧ q ++ [i] <+: p
    · -- below the slot there was nothing, and the new node has no links
      obtain ⟨rfl, t, rfl⟩ := hbelow
      cases t with
      | nil => exact absurd (by rw [List.append_nil]) hne
      | cons j t =>
        rw [descend_below_none hn hi, descend_append, hat]
        show (next' m j).bind _ = none
        rw [hempty]
        rfl
    · exact h.descend_eq (h.closed hq) hn hagree hp fun hr hpre => hbelow ⟨hr, hpre⟩
  refine ⟨hat, hrest, h.closed, ?_, ?_⟩
  · intro r₁ p₁ r₂ p₂ a h₁ h₂ ha₁ ha₂
    by_cases e₁ : (r₁, p₁) = (r, q ++ [i])
    · by_cases e₂ : (r₂, p₂) = (r, q ++ [i])
      · cases e₁
        cases e₂
        exact ⟨rfl, rfl⟩
      · -- the new node was free, so it is not at another place
        cases e₁
        rw [hat] at ha₁
        cases ha₁
        rw [hrest _ _ h₂ e₂] at ha₂
        exact absurd hm (h.used h₂ ha₂)
    · by_cases e₂ : (r₂, p₂) = (r, q ++ [i])
      · cases e₂
        rw [hat] at ha₂
        cases ha₂
        rw [hrest _ _ h₁ e₁] at ha₁
        exact absurd hm (h.used h₁ ha₁)
      · rw [hrest _ _ h₁ e₁] at ha₁
        rw [hrest _ _ h₂ e₂] at ha₂
        exact h.sole h₁ h₂ ha₁ ha₂
  · intro r₁ p₁ a h₁ ha hf
    obtain ⟨hf, hne⟩ := hfree hf
    by_cases e₁ : (r₁, p₁) = (r, q ++ [i])
    · cases e₁
      rw [hat] at ha
      cases ha
      exact hne rfl
    · rw [hrest _ _ h₁ e₁] at ha
      exact h.used h₁ ha hf

end Forest

end Trie
