import Mathlib.Data.Nat.Bitwise
import TwoKernel.Memory.Vmm

/-!
# Addresses and entries as numbers

The kernel takes addresses and table entries apart with masks and shifts. Each
lemma here says what one of those expressions is as a number: a quotient, a
remainder, or a part of an entry that an `or` put there.
-/

namespace TwoKernel

/-- A mask of `k` ones from bit `n` on keeps that digit of a number. -/
theorem and_shifted_mask (x k n : Nat) :
    x &&& ((2 ^ k - 1) <<< n) = x / 2 ^ n % 2 ^ k * 2 ^ n := by
  rw [← Nat.shiftLeft_eq, ← Nat.shiftRight_eq_div_pow]
  apply Nat.eq_of_testBit_eq
  intro i
  simp only [Nat.testBit_and, Nat.testBit_shiftLeft, Nat.testBit_two_pow_sub_one,
    Nat.testBit_mod_two_pow, Nat.testBit_shiftRight]
  by_cases h : n ≤ i
  · simp only [h, decide_true, Bool.true_and, Nat.add_sub_cancel' h]
    exact Bool.and_comm _ _
  · simp [h]

namespace Vmm

variable {e pa flags va v w : Word} {i : Nat}

/-- The mask takes the page number out of an entry. -/
theorem and_paddrMask_toNat : (e &&& paddrMask).toNat = e.toNat / 4096 % 2 ^ 36 * 4096 := by
  rw [BitVec.toNat_and, show paddrMask.toNat = (2 ^ 36 - 1) <<< 12 by decide, and_shifted_mask]
  rfl

theorem frameOf_eq : frameOf e = e.toNat / 4096 % 2 ^ 36 := by
  unfold frameOf
  rw [and_paddrMask_toNat, Nat.mul_div_cancel _ (by decide)]

theorem frameOf_lt : frameOf e < 2 ^ 36 := by
  rw [frameOf_eq]
  exact Nat.mod_lt _ (Nat.two_pow_pos 36)

/-! ## Rounding -/

section rounding

variable {p : Word} {k : Nat} (hp : p.toNat = 2 ^ k)
include hp

/-- The mask of a power of two is what it leaves: everything from bit `k` on. -/
theorem not_sub_one_toNat : (~~~(p - 1)).toNat = (2 ^ (64 - k) - 1) <<< k := by
  have hlt : 2 ^ k < 2 ^ 64 := hp ▸ p.isLt
  have hk : k < 64 := (Nat.pow_lt_pow_iff_right (by decide)).mp hlt
  have hpos := Nat.two_pow_pos k
  have hone : (1 : Word) ≤ p := by
    rw [BitVec.le_def, hp]
    exact hpos
  have hmul : 2 ^ (64 - k) * 2 ^ k = 2 ^ 64 := by rw [← Nat.pow_add, Nat.sub_add_cancel hk.le]
  rw [BitVec.toNat_not, BitVec.toNat_sub_of_le hone, hp, Nat.shiftLeft_eq, Nat.sub_mul, hmul]
  show 2 ^ 64 - 1 - (2 ^ k - 1) = _
  omega

/-- `align_down` rounds to a multiple of a power of two. -/
theorem alignDown_toNat_of_two_pow : (alignDown v p).toNat = v.toNat / p.toNat * p.toNat := by
  have hlt : 2 ^ k < 2 ^ 64 := hp ▸ p.isLt
  have hk : k < 64 := (Nat.pow_lt_pow_iff_right (by decide)).mp hlt
  have hquot : v.toNat / 2 ^ k < 2 ^ (64 - k) := by
    rw [Nat.div_lt_iff_lt_mul (Nat.two_pow_pos k), ← Nat.pow_add, Nat.sub_add_cancel hk.le]
    exact v.isLt
  unfold alignDown
  rw [BitVec.toNat_and, not_sub_one_toNat hp, and_shifted_mask, Nat.mod_eq_of_lt hquot, hp]

/-- `align_down` is exact. -/
theorem alignDown_isGreatest :
    IsGreatest {n | p.toNat ∣ n ∧ n ≤ v.toNat} (alignDown v p).toNat := by
  rw [alignDown_toNat_of_two_pow hp]
  refine ⟨⟨Nat.dvd_mul_left _ _, Nat.div_mul_le_self _ _⟩, ?_⟩
  intro n hn
  obtain ⟨⟨q, rfl⟩, hle⟩ := hn
  have hpos : 0 < p.toNat := hp ▸ Nat.two_pow_pos k
  rw [Nat.mul_comm]
  exact Nat.mul_le_mul_right _ ((Nat.le_div_iff_mul_le hpos).mpr (Nat.mul_comm _ q ▸ hle))

/-- `align_up` is exact where its sum does not wrap. -/
theorem alignUp_isLeast (hwrap : v.toNat + p.toNat - 1 < 2 ^ 64) :
    IsLeast {n | p.toNat ∣ n ∧ v.toNat ≤ n} (alignUp v p).toNat := by
  have hpos : 0 < p.toNat := hp ▸ Nat.two_pow_pos k
  have hone : (1 : Word) ≤ p := BitVec.le_def.mpr hpos
  have hsum : (v + (p - 1)).toNat = v.toNat + (p.toNat - 1) := by
    rw [BitVec.toNat_add, BitVec.toNat_sub_of_le hone, Nat.mod_eq_of_lt]
    · rfl
    · show v.toNat + (p.toNat - 1) < _
      omega
  -- it is the greatest multiple of `p` below `v + p`
  have hdown : IsGreatest {n | p.toNat ∣ n ∧ n ≤ (v + (p - 1)).toNat} (alignUp v p).toNat :=
    alignDown_isGreatest hp
  obtain ⟨⟨hdvd, hle⟩, hmax⟩ := hdown
  rw [hsum] at hle hmax
  refine ⟨⟨hdvd, ?_⟩, ?_⟩
  · by_contra hlt
    have hnext : (alignUp v p).toNat + p.toNat ≤ (alignUp v p).toNat :=
      hmax ⟨Nat.dvd_add_self_right.mpr hdvd, by omega⟩
    omega
  · intro n hn
    obtain ⟨hn, hvn⟩ := hn
    by_contra hlt
    -- two multiples of `p` less than `p` apart
    have hgap := Nat.le_of_dvd (by omega) (Nat.dvd_sub hdvd hn)
    omega

end rounding

theorem alignDown_toNat : (alignDown v pageSize).toNat = v.toNat / 4096 * 4096 :=
  alignDown_toNat_of_two_pow (k := 12) rfl

/-- `align_up` may wrap. -/
theorem alignUp_toNat_mod :
    (alignUp v pageSize).toNat = (v.toNat + 4095) % 2 ^ 64 / 4096 * 4096 :=
  alignDown_toNat (v := v + (pageSize - 1))

/-- It rounds up where it does not. -/
theorem alignUp_toNat (h : v.toNat + 4095 < 2 ^ 64) :
    (alignUp v pageSize).toNat = (v.toNat + 4095) / 4096 * 4096 := by
  rw [alignUp_toNat_mod, Nat.mod_eq_of_lt h]

/-! ## Indices -/

/-- The shifts of the four levels. -/
def Level (shift : Nat) : Prop := shift = 39 ∨ shift = 30 ∨ shift = 21 ∨ shift = 12

/-- An index is nine bits of the address. -/
theorem index_eq {shift : Nat} (h : Level shift) :
    index shift va = va.toNat / 2 ^ shift % 512 := by
  have hmask : ((0x1ff : Word) <<< shift).toNat = (2 ^ 9 - 1) <<< shift := by
    rcases h with rfl | rfl | rfl | rfl <;> decide
  unfold index
  rw [BitVec.toNat_ushiftRight, BitVec.toNat_and, hmask, and_shifted_mask,
    Nat.shiftRight_eq_div_pow, Nat.mul_div_cancel _ (Nat.two_pow_pos _)]
  rfl

theorem index_lt {shift : Nat} (h : Level shift) : index shift va < 512 := by
  rw [index_eq h]
  exact Nat.mod_lt _ (by decide)

/-- The index of `va` at a level, as a slot of a table. -/
def slot {shift : Nat} (h : Level shift) (va : Word) : Fin 512 := ⟨index shift va, index_lt h⟩

theorem level39 : Level 39 := .inl rfl

theorem level30 : Level 30 := .inr (.inl rfl)

theorem level21 : Level 21 := .inr (.inr (.inl rfl))

theorem level12 : Level 12 := .inr (.inr (.inr rfl))

/-- The slots that lead from the root to the page table of `va`. -/
def tablePath (va : Word) : List (Fin 512) := [slot level39 va, slot level30 va, slot level21 va]

/-- The 48-bit page number of `va`. -/
def pageNumber (va : Word) : Nat := va.toNat / 4096 % 2 ^ 36

/-- Two addresses have the same four indices exactly when they have the same page number. -/
theorem path_eq_iff : tablePath v = tablePath w ∧ slot level12 v = slot level12 w ↔
    pageNumber v = pageNumber w := by
  simp only [tablePath, slot, List.cons.injEq, Fin.mk.injEq, and_true, index_eq level39,
    index_eq level30, index_eq level21, index_eq level12, pageNumber]
  omega

/-- All addresses of a page have the same indices. -/
theorem index_alignDown {shift : Nat} (h : Level shift) :
    index shift (alignDown v pageSize) = index shift v := by
  rw [index_eq h, index_eq h, alignDown_toNat]
  rcases h with rfl | rfl | rfl | rfl <;> omega

/-! ## Entries -/

/-- A page address is not changed by the address mask. -/
theorem and_paddrMask_of_aligned (ha : pa.toNat % 4096 = 0) (hlt : pa.toNat < 2 ^ 48) :
    pa &&& paddrMask = pa := by
  apply BitVec.eq_of_toNat_eq
  rw [and_paddrMask_toNat]
  omega

section parts

variable (ha : pa.toNat % 4096 = 0) (hlt : pa.toNat < 2 ^ 48)
include ha hlt

/-- The address of an entry made of a page address and flags. -/
theorem or_and_paddrMask (hf : flags &&& paddrMask = 0) : (pa ||| flags) &&& paddrMask = pa := by
  rw [BitVec.and_or_distrib_right, hf, and_paddrMask_of_aligned ha hlt]
  exact BitVec.or_zero

/-- The flags of an entry made of a page address and flags. -/
theorem or_and_not_paddrMask (hf : flags &&& paddrMask = 0) :
    (pa ||| flags) &&& ~~~paddrMask = flags := by
  have hpa : pa &&& ~~~paddrMask = 0 := by
    rw [← and_paddrMask_of_aligned ha hlt, BitVec.and_assoc, BitVec.and_not_self]
    exact BitVec.and_zero
  have hflags : flags &&& ~~~paddrMask = flags := by
    calc flags &&& ~~~paddrMask = (flags &&& paddrMask) ||| (flags &&& ~~~paddrMask) := by
          rw [hf]
          exact BitVec.zero_or.symm
      _ = flags := by
          rw [← BitVec.and_or_distrib_left, BitVec.or_not_self, BitVec.and_allOnes]
  rw [BitVec.and_or_distrib_right, hpa, hflags]
  exact BitVec.zero_or

theorem present_or : Present (pa ||| flags) ↔ Present flags := by
  have hpa : pa &&& present = 0 := by
    rw [← and_paddrMask_of_aligned ha hlt, BitVec.and_assoc,
      show paddrMask &&& present = 0 by decide]
    exact BitVec.and_zero
  have hor : (pa ||| flags) &&& present = flags &&& present := by
    rw [BitVec.and_or_distrib_right, hpa]
    exact BitVec.zero_or
  unfold Present
  rw [hor]

end parts

/-- The page of an address is what `or` with an offset leaves. -/
theorem or_offMask_toNat : ((e &&& paddrMask) ||| (v &&& offMask)).toNat =
    frameOf e * 4096 + v.toNat % 4096 := by
  have hoff : (v &&& offMask).toNat = v.toNat % 4096 := by
    rw [BitVec.toNat_and, show offMask.toNat = 2 ^ 12 - 1 by decide,
      Nat.and_two_pow_sub_one_eq_mod]
  have hlt : v.toNat % 4096 < 2 ^ 12 := Nat.mod_lt _ (by decide)
  have hor := Nat.two_pow_add_eq_or_of_lt hlt (e.toNat / 4096 % 2 ^ 36)
  rw [BitVec.toNat_or, and_paddrMask_toNat, hoff, frameOf_eq, Nat.mul_comm, ← hor]

end Vmm

end TwoKernel
