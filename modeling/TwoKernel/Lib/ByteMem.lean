import Mathlib.Data.Nat.ModEq
import Mathlib.Data.Set.BooleanAlgebra
import Mathlib.Data.Set.Function
import Mathlib.Order.BourbakiWitt
import Mathlib.Order.CompletePartialOrder
import Mathlib.Order.Interval.Set.Basic

/-!
# Byte-addressed memory

A memory is a function from addresses to bytes. Wider reads are little-endian:
`readLE` collects the value of `n` bytes, and `load16`, `load32`, `load64` are
its readings at the machine's widths. `store64` writes eight bytes, `fill` and
`blit` write a range.

Two kinds of lemma carry every use. Reading back what was written returns it,
and a read depends only on the bytes it covers (`load64_congr`), so a write
elsewhere is invisible to it.
-/

namespace ByteMem

/-- A byte-addressed memory. -/
abbrev Mem := Nat → BitVec 8

variable {m m' : Mem} {a b n : Nat} {v : BitVec 64} {c : BitVec 8}

/-- The value of the `n` bytes from `a` on, the first one least significant. -/
def readLE (m : Mem) (a : Nat) : Nat → Nat
  | 0 => 0
  | n + 1 => (m a).toNat + 256 * readLE m (a + 1) n

def load16 (m : Mem) (a : Nat) : BitVec 16 := BitVec.ofNat 16 (readLE m a 2)

def load32 (m : Mem) (a : Nat) : BitVec 32 := BitVec.ofNat 32 (readLE m a 4)

def load64 (m : Mem) (a : Nat) : BitVec 64 := BitVec.ofNat 64 (readLE m a 8)

def store64 (m : Mem) (a : Nat) (v : BitVec 64) : Mem := fun x =>
  if a ≤ x ∧ x < a + 8 then BitVec.ofNat 8 (v.toNat / 256 ^ (x - a)) else m x

/-- Write `c` to the `n` bytes from `a` on. -/
def fill (m : Mem) (a n : Nat) (c : BitVec 8) : Mem := fun x =>
  if a ≤ x ∧ x < a + n then c else m x

/-- Write the first `n` bytes of `src` from `a` on. -/
def blit (m : Mem) (a n : Nat) (src : Nat → BitVec 8) : Mem := fun x =>
  if a ≤ x ∧ x < a + n then src (x - a) else m x

/-! ## Reads -/

private theorem readLE_congr (h : ∀ i, i < n → m' (a + i) = m (a + i)) :
    readLE m' a n = readLE m a n := by
  induction n generalizing a with
  | zero => rfl
  | succ n ih =>
    have h0 : m' a = m a := h 0 (by omega)
    have hrest : ∀ i, i < n → m' (a + 1 + i) = m (a + 1 + i) := by
      intro i hi
      rw [Nat.add_assoc, Nat.add_comm 1 i]
      exact h (i + 1) (by omega)
    rw [readLE, readLE, h0, ih hrest]

/-- Bytes that are the base 256 digits of a number read back as that number. -/
theorem readLE_digits {x : Nat} (h : ∀ i, i < n → m (a + i) = BitVec.ofNat 8 (x / 256 ^ i)) :
    readLE m a n = x % 256 ^ n := by
  induction n generalizing a x with
  | zero => simp [readLE, Nat.mod_one]
  | succ n ih =>
    have h0 : m a = BitVec.ofNat 8 x := by simpa using h 0 (by omega)
    have hrest : ∀ i, i < n → m (a + 1 + i) = BitVec.ofNat 8 (x / 256 / 256 ^ i) := by
      intro i hi
      have hd := h (i + 1) (by omega)
      rw [show a + (i + 1) = a + 1 + i by omega, Nat.pow_succ', ← Nat.div_div_eq_div_mul] at hd
      exact hd
    rw [readLE, h0, ih hrest, Nat.pow_succ', Nat.mod_mul, BitVec.toNat_ofNat]

private theorem readLE_lt : readLE m a n < 256 ^ n := by
  induction n generalizing a with
  | zero => exact Nat.one_pos
  | succ n ih =>
    have hbyte := (m a).isLt
    have hrest := ih (a := a + 1)
    rw [readLE, Nat.pow_succ']
    omega

/-- The bytes that were read are the base 256 digits. -/
theorem ofNat_readLE_div (i : Nat) (hi : i < n) :
    BitVec.ofNat 8 (readLE m a n / 256 ^ i) = m (a + i) := by
  induction n generalizing a i with
  | zero => omega
  | succ n ih =>
    have hbyte := (m a).isLt
    cases i with
    | zero =>
      apply BitVec.eq_of_toNat_eq
      rw [BitVec.toNat_ofNat, readLE, Nat.pow_zero, Nat.div_one]
      show _ = (m a).toNat
      omega
    | succ i =>
      have hdiv : readLE m a (n + 1) / 256 = readLE m (a + 1) n := by
        rw [readLE]
        omega
      rw [Nat.pow_succ', ← Nat.div_div_eq_div_mul, hdiv, ih i (by omega)]
      congr 1
      omega

theorem load16_congr (h : Set.EqOn m' m (Set.Ico a (a + 2))) : load16 m' a = load16 m a := by
  unfold load16
  rw [readLE_congr]
  intro i hi
  exact h ⟨by omega, by omega⟩

theorem load32_congr (h : Set.EqOn m' m (Set.Ico a (a + 4))) : load32 m' a = load32 m a := by
  unfold load32
  rw [readLE_congr]
  intro i hi
  exact h ⟨by omega, by omega⟩

/-- A load depends on the eight bytes it covers. -/
theorem load64_congr (h : Set.EqOn m' m (Set.Ico a (a + 8))) : load64 m' a = load64 m a := by
  unfold load64
  rw [readLE_congr]
  intro i hi
  exact h ⟨by omega, by omega⟩

/-! ## Stores -/

theorem store64_eqOn {s : Set Nat} (h : Disjoint s (Set.Ico a (a + 8))) :
    Set.EqOn (store64 m a v) m s := by
  intro x hx
  have hnot : ¬ (a ≤ x ∧ x < a + 8) := fun hin => Set.disjoint_left.mp h hx hin
  exact if_neg hnot

@[simp] theorem load64_store64_self : load64 (store64 m a v) a = v := by
  have hdigits : ∀ i, i < 8 → store64 m a v (a + i) = BitVec.ofNat 8 (v.toNat / 256 ^ i) := by
    intro i hi
    have hin : a ≤ a + i ∧ a + i < a + 8 := ⟨by omega, by omega⟩
    rw [store64, if_pos hin, Nat.add_sub_cancel_left]
  unfold load64
  rw [readLE_digits hdigits, show 256 ^ 8 = 2 ^ 64 from rfl, Nat.mod_eq_of_lt v.isLt,
    BitVec.ofNat_toNat, BitVec.setWidth_eq]

/-- Storing what is there changes nothing. -/
theorem store64_load64 : store64 m a (load64 m a) = m := by
  funext x
  unfold store64
  by_cases hx : a ≤ x ∧ x < a + 8
  · have hlt : readLE m a 8 < 2 ^ 64 := readLE_lt
    rw [if_pos hx, load64, BitVec.toNat_ofNat, Nat.mod_eq_of_lt hlt, ofNat_readLE_div _ (by omega)]
    congr 1
    omega
  · exact if_neg hx

theorem load64_store64_of_ne (h : b + 8 ≤ a ∨ a + 8 ≤ b) :
    load64 (store64 m a v) b = load64 m b := by
  apply load64_congr
  apply store64_eqOn
  rw [Set.disjoint_left]
  rintro x ⟨hx, hx'⟩ ⟨hy, hy'⟩
  omega

theorem fill_eqOn {s : Set Nat} (h : Disjoint s (Set.Ico a (a + n))) :
    Set.EqOn (fill m a n c) m s := by
  intro x hx
  have hnot : ¬ (a ≤ x ∧ x < a + n) := fun hin => Set.disjoint_left.mp h hx hin
  exact if_neg hnot

/-- A copy depends on the bytes it copies. -/
theorem blit_congr {src src' : Nat → BitVec 8} (h : ∀ i, i < n → src' i = src i) :
    blit m a n src' = blit m a n src := by
  funext x
  unfold blit
  split
  · exact h (x - a) (by omega)
  · rfl

/-- A word inside a zeroed range is zero. -/
theorem load64_fill_zero (h : a ≤ b) (h' : b + 8 ≤ a + n) : load64 (fill m a n 0) b = 0 := by
  have hdigits : ∀ i, i < 8 → fill m a n 0 (b + i) = BitVec.ofNat 8 (0 / 256 ^ i) := by
    intro i hi
    have hin : a ≤ b + i ∧ b + i < a + n := ⟨by omega, by omega⟩
    rw [fill, if_pos hin, Nat.zero_div]
    rfl
  unfold load64
  rw [readLE_digits hdigits]
  rfl

theorem load64_zero (a : Nat) : load64 (fun _ => 0) a = 0 := by
  have hfill : (fun _ => 0 : Mem) = fill (fun _ => 0) a 8 0 := by
    funext x
    exact (ite_self _).symm
  rw [hfill]
  exact load64_fill_zero le_rfl le_rfl

-- Past this point a read or a write is known by the lemmas above.
attribute [irreducible] load16 load32 load64 store64

end ByteMem
