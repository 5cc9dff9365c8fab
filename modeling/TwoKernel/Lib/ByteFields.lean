import TwoKernel.Lib.ByteMem

/-!
# Fields of packed structures, and arrays of words

Stores of two and four bytes, for structures that are written member by member, and of a list of
words. As with `store64`, a load of what was stored returns it and a store elsewhere is invisible to
it.
-/

namespace ByteMem

variable {m : Mem} {a b n x : Nat} {w : BitVec 16} {d : BitVec 32} {v : BitVec 64} {s : Set Nat}

/-- Write the `n` bytes of a number from `a` on. -/
def storeLE (m : Mem) (a n x : Nat) : Mem := blit m a n fun i => BitVec.ofNat 8 (x / 256 ^ i)

def store16 (m : Mem) (a : Nat) (v : BitVec 16) : Mem := storeLE m a 2 v.toNat

def store32 (m : Mem) (a : Nat) (v : BitVec 32) : Mem := storeLE m a 4 v.toNat

private theorem readLE_storeLE_self : readLE (storeLE m a n x) a n = x % 256 ^ n := by
  apply readLE_digits
  intro i hi
  unfold storeLE blit
  rw [if_pos (by omega), Nat.add_sub_cancel_left]

/-- A store leaves everything outside its bytes. -/
theorem storeLE_eqOn (h : Disjoint s (Set.Ico a (a + n))) : Set.EqOn (storeLE m a n x) m s := by
  intro y hy
  unfold storeLE blit
  exact if_neg fun hin => Set.disjoint_left.mp h hy hin

/-- Two ranges that do not meet. -/
theorem disjoint_Ico {k : Nat} (h : b + k ≤ a ∨ a + n ≤ b) :
    Disjoint (Set.Ico b (b + k)) (Set.Ico a (a + n)) := by
  rw [Set.disjoint_left]
  intro y hy hy'
  obtain ⟨hlo, hhi⟩ := hy
  obtain ⟨hlo', hhi'⟩ := hy'
  omega

/-- What was stored is loaded. -/
theorem load16_store16_self : load16 (store16 m a w) a = w := by
  have hlt : w.toNat < 256 ^ 2 := w.isLt
  unfold load16 store16
  rw [readLE_storeLE_self, Nat.mod_eq_of_lt hlt, BitVec.ofNat_toNat, BitVec.setWidth_eq]

theorem load32_store32_self : load32 (store32 m a d) a = d := by
  have hlt : d.toNat < 256 ^ 4 := d.isLt
  unfold load32 store32
  rw [readLE_storeLE_self, Nat.mod_eq_of_lt hlt, BitVec.ofNat_toNat, BitVec.setWidth_eq]

/-- A store elsewhere is not seen. -/
theorem load16_store16_of_ne (h : b + 2 ≤ a ∨ a + 2 ≤ b) : load16 (store16 m a w) b = load16 m b :=
  load16_congr (storeLE_eqOn (disjoint_Ico h))

theorem load16_store32_of_ne (h : b + 2 ≤ a ∨ a + 4 ≤ b) : load16 (store32 m a d) b = load16 m b :=
  load16_congr (storeLE_eqOn (disjoint_Ico h))

theorem load32_store16_of_ne (h : b + 4 ≤ a ∨ a + 2 ≤ b) : load32 (store16 m a w) b = load32 m b :=
  load32_congr (storeLE_eqOn (disjoint_Ico h))

theorem load16_store64_of_ne (h : b + 2 ≤ a ∨ a + 8 ≤ b) : load16 (store64 m a v) b = load16 m b :=
  load16_congr (store64_eqOn (disjoint_Ico h))

/-- A table pointer: a limit of two bytes, and a base. -/
def storePointer (m : Mem) (a : Nat) (limit : BitVec 16) (base : BitVec 64) : Mem :=
  store64 (store16 m a limit) (a + 2) base

theorem load16_storePointer {limit : BitVec 16} : load16 (storePointer m a limit v) a = limit := by
  unfold storePointer
  rw [load16_store64_of_ne (by omega)]
  exact load16_store16_self

theorem storePointer_eqOn {limit : BitVec 16} (h : Disjoint s (Set.Ico a (a + 10))) :
    Set.EqOn (storePointer m a limit v) m s := by
  have hbase : Disjoint s (Set.Ico (a + 2) (a + 2 + 8)) :=
    h.mono_right (Set.Ico_subset_Ico (by omega) (by omega))
  have hlimit : Disjoint s (Set.Ico a (a + 2)) :=
    h.mono_right (Set.Ico_subset_Ico (by omega) (by omega))
  exact (store64_eqOn hbase).trans (storeLE_eqOn hlimit)

/-- Write the words of a list from `a` on. -/
def storeWords (m : Mem) (a : Nat) : List (BitVec 64) → Mem
  | [] => m
  | v :: l => storeWords (store64 m a v) (a + 8) l

private theorem load64_storeWords_of_ne {l : List (BitVec 64)} (h : b + 8 ≤ a ∨ a + 8 * l.length ≤ b) :
    load64 (storeWords m a l) b = load64 m b := by
  induction l generalizing m a with
  | nil => rfl
  | cons v l ih =>
    rw [List.length_cons] at h
    rw [storeWords, ih (by omega)]
    exact load64_store64_of_ne (by omega)

theorem storeWords_eqOn {l : List (BitVec 64)} (h : Disjoint s (Set.Ico a (a + 8 * l.length))) :
    Set.EqOn (storeWords m a l) m s := by
  induction l generalizing m a with
  | nil => exact fun _ _ => rfl
  | cons v l ih =>
    rw [List.length_cons] at h
    have hrest : Disjoint s (Set.Ico (a + 8) (a + 8 + 8 * l.length)) :=
      h.mono_right (Set.Ico_subset_Ico (by omega) (by omega))
    have hfirst : Disjoint s (Set.Ico a (a + 8)) :=
      h.mono_right (Set.Ico_subset_Ico (by omega) (by omega))
    exact (ih hrest).trans (store64_eqOn hfirst)

/-- Words stored in a row are loaded one by one. -/
theorem load64_storeWords {l : List (BitVec 64)} {i : Nat} (h : l[i]? = some v) :
    load64 (storeWords m a l) (a + 8 * i) = v := by
  induction l generalizing m a i with
  | nil => cases h
  | cons w l ih =>
    cases i with
    | zero =>
      cases h
      rw [storeWords, load64_storeWords_of_ne (by omega)]
      exact load64_store64_self
    | succ i =>
      have hrest := ih (m := store64 m a w) (a := a + 8) h
      rw [storeWords, show a + 8 * (i + 1) = a + 8 + 8 * i by omega]
      exact hrest

end ByteMem
