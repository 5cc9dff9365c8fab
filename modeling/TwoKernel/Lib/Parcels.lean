import Mathlib.Data.Set.Card
import Mathlib.Data.Set.Finite.Lattice
import Mathlib.Data.Set.Finite.List
import Mathlib.Order.CompletePartialOrder

/-!
# Parcels

A list of sets no two of which meet, and a set `M` dealt out of them. `M` has at
least as many elements as there are parcels inside it, exactly as many when every
parcel it touches is a single element.
-/

namespace Parcels

variable {ι α : Type*} {f : ι → Set α} {M : Set α} {l : List ι}

/-- Parcels that do not meet. -/
def Apart (f : ι → Set α) (l : List ι) : Prop := l.Pairwise fun i j => Disjoint (f i) (f j)

/-- What parcels cover is finite if each of them is. -/
theorem finite_of_cover (hfin : ∀ i ∈ l, (f i).Finite) (hcover : ∀ x ∈ M, ∃ i ∈ l, x ∈ f i) :
    M.Finite := by
  refine (Set.Finite.biUnion (List.finite_toSet l) hfin).subset ?_
  intro x hx
  obtain ⟨i, hi, hxi⟩ := hcover x hx
  exact Set.mem_biUnion hi hxi

variable [DecidablePred fun i => f i ⊆ M]

/-- What a parcel gives to `M`, and whether it is inside. -/
theorem share {i : ι} (hfin : (f i).Finite) (hne : (f i).Nonempty) :
    (if f i ⊆ M then 1 else 0) ≤ (M ∩ f i).ncard ∧
      ((M ∩ f i).ncard = (if f i ⊆ M then 1 else 0) ↔
        ((∃ x ∈ f i, x ∈ M) → (f i).ncard = 1)) := by
  have hfinM : (M ∩ f i).Finite := hfin.subset Set.inter_subset_right
  by_cases hsub : f i ⊆ M
  · have hinter : M ∩ f i = f i := Set.inter_eq_right.mpr hsub
    rw [if_pos hsub, hinter]
    refine ⟨(Set.ncard_pos hfin).mpr hne, fun h _ => h, fun h => h ?_⟩
    obtain ⟨x, hx⟩ := hne
    exact ⟨x, hx, hsub hx⟩
  · rw [if_neg hsub]
    refine ⟨Nat.zero_le _, fun h => ?_, fun h => ?_⟩
    · rintro ⟨x, hx, hxM⟩
      exact absurd (Set.ncard_eq_zero hfinM |>.mp h) (Set.nonempty_iff_ne_empty.mp ⟨x, hxM, hx⟩)
    · -- a single element in `M` would put the parcel inside
      rw [Set.ncard_eq_zero hfinM, Set.eq_empty_iff_forall_notMem]
      rintro x ⟨hxM, hx⟩
      obtain ⟨y, hy⟩ := Set.ncard_eq_one.mp (h ⟨x, hx, hxM⟩)
      apply hsub
      rw [hy] at hx ⊢
      rw [← Set.mem_singleton_iff.mp hx]
      exact Set.singleton_subset_iff.mpr hxM

omit [DecidablePred fun i => f i ⊆ M] in
/-- **Dealing out.** `M` has as many elements as there are parcels inside it exactly if every parcel
that it meets is a single element. -/
theorem ncard_eq_length_filter_iff (l : List ι) : ∀ (M : Set α) [DecidablePred fun i => f i ⊆ M],
    (∀ i ∈ l, (f i).Finite) → (∀ i ∈ l, (f i).Nonempty) → Apart f l →
    (∀ x ∈ M, ∃ i ∈ l, x ∈ f i) →
    (l.filter fun i => f i ⊆ M).length ≤ M.ncard ∧
      (M.ncard = (l.filter fun i => f i ⊆ M).length ↔
        ∀ i ∈ l, (∃ x ∈ f i, x ∈ M) → (f i).ncard = 1) := by
  classical
  induction l with
  | nil =>
    intro M _ _ _ _ hcover
    have hempty : M.ncard = 0 := by
      rw [Set.ncard_eq_zero (finite_of_cover (f := f) (l := []) (by simp) hcover),
        Set.eq_empty_iff_forall_notMem]
      intro x hx
      obtain ⟨i, hi, -⟩ := hcover x hx
      cases hi
    simp [hempty]
  | cons i l ih =>
    intro M _ hfin hne hd hcover
    obtain ⟨hi, hl⟩ := List.pairwise_cons.mp hd
    have hfini := hfin i List.mem_cons_self
    have hfinl : ∀ j ∈ l, (f j).Finite := fun j hj => hfin j (List.mem_cons_of_mem _ hj)
    have hrest : ∀ x ∈ M \ f i, ∃ j ∈ l, x ∈ f j := by
      rintro x ⟨hxM, hxi⟩
      obtain ⟨j, hj, hxj⟩ := hcover x hxM
      rcases List.mem_cons.mp hj with rfl | hj
      · exact absurd hxj hxi
      · exact ⟨j, hj, hxj⟩
    -- what is outside the first parcel is dealt out of the others
    have hmeet : ∀ j ∈ l, ∀ x ∈ f j, x ∈ M ↔ x ∈ M \ f i := fun j hj x hx =>
      ⟨fun hxM => ⟨hxM, Set.disjoint_right.mp (hi j hj) hx⟩, fun h => h.1⟩
    have hin : ∀ j ∈ l, (f j ⊆ M ↔ f j ⊆ M \ f i) := fun j hj =>
      forall₂_congr fun x hx => hmeet j hj x hx
    have hfilter : (l.filter fun j => f j ⊆ M) = l.filter fun j => f j ⊆ M \ f i :=
      List.filter_congr fun j hj => decide_eq_decide.mpr (hin j hj)
    obtain ⟨hle, hiff⟩ := ih (M \ f i) hfinl (fun j hj => hne j (List.mem_cons_of_mem _ hj)) hl hrest
    obtain ⟨hle₁, hiff₁⟩ := share (M := M) hfini (hne i List.mem_cons_self)
    have hcard : M.ncard = (M ∩ f i).ncard + (M \ f i).ncard :=
      (Set.ncard_inter_add_ncard_sdiff_eq_ncard M (f i) (finite_of_cover hfin hcover)).symm
    have hlen : ((i :: l).filter fun j => f j ⊆ M).length =
        (if f i ⊆ M then 1 else 0) + (l.filter fun j => f j ⊆ M \ f i).length := by
      rw [List.filter_cons, ← hfilter]
      by_cases hsub : f i ⊆ M
      · simp only [hsub, decide_true, if_true, List.length_cons]
        omega
      · simp only [hsub, decide_false, Bool.false_eq_true, if_false]
        omega
    have hall : (∀ j ∈ i :: l, (∃ x ∈ f j, x ∈ M) → (f j).ncard = 1) ↔
        ((∃ x ∈ f i, x ∈ M) → (f i).ncard = 1) ∧
          ∀ j ∈ l, (∃ x ∈ f j, x ∈ M \ f i) → (f j).ncard = 1 := by
      rw [List.forall_mem_cons]
      refine and_congr_right fun _ => forall₂_congr fun j hj => imp_congr_left ?_
      exact exists_congr fun x => and_congr_right fun hx => hmeet j hj x hx
    rw [hcard, hlen, hall, ← hiff, ← hiff₁]
    omega

end Parcels
