import TwoKernel.Libc.String

/-!
# Laws of the functions on bytes

What the loops of `LibC` do to the memory as a whole. `Moved` is the invariant of
both directions of a copy: some of the bytes, those from `lo` to `hi`, are there as
they originally were at the source, and the rest of the memory is as it was. A turn
of a loop extends the interval at one end, provided that the byte it reads has not
been overwritten (`Moved.extend`); the direction of the loop makes sure of that.

`memset` is `fill`, and `memove` is `blit` from the original memory, whatever the
two ranges have in common (`memove_correct`); so is `memcpy` for ranges that are
apart. In these forms the loader uses them (`Laws.Exe.Resident`).
-/

namespace TwoKernel

open ByteMem

namespace LibC

variable {m m' : Mem} {dest src n p : Word} {d s k lo hi lo' hi' : Nat}

/-- In a range that does not wrap, `p[i]` is `i` bytes from `p`. -/
theorem at_eq (hp : p.toNat + n.toNat ≤ 2 ^ 64) (hk : k < n.toNat) : at_ p k = p.toNat + k := by
  unfold at_
  rw [BitVec.toNat_add, BitVec.toNat_ofNat, Nat.mod_eq_of_lt (by omega), Nat.mod_eq_of_lt (by omega)]

/-! ## Copies -/

/-- Of the bytes from `s` on, those from `lo` to `hi` have been copied to `d`, as they were in `m`. -/
structure Moved (m m' : Mem) (d s lo hi : Nat) : Prop where
  copied : ∀ i, lo ≤ i → i < hi → m' (d + i) = m (s + i)
  frame : ∀ a, (∀ i, lo ≤ i → i < hi → a ≠ d + i) → m' a = m a

private theorem Moved.refl (m : Mem) (d s k : Nat) : Moved m m d s k k :=
  ⟨fun _ hlo hhi => absurd (Nat.lt_of_le_of_lt hlo hhi) (Nat.lt_irrefl k), fun _ _ => rfl⟩

/-- One more byte, read where nothing has been written yet. -/
theorem Moved.extend (h : Moved m m' d s lo hi) (hread : ∀ i, lo ≤ i → i < hi → s + k ≠ d + i)
    (hjoin : ∀ i, lo' ≤ i ∧ i < hi' ↔ lo ≤ i ∧ i < hi ∨ i = k) :
    Moved m (Function.update m' (d + k) (m' (s + k))) d s lo' hi' := by
  constructor
  · intro i hlo hhi
    by_cases hi : i = k
    · rw [hi, Function.update_self]
      exact h.frame (s + k) hread
    · obtain ⟨hlo, hhi⟩ := ((hjoin i).mp ⟨hlo, hhi⟩).resolve_right hi
      rw [Function.update_of_ne (by omega)]
      exact h.copied i hlo hhi
  · intro a ha
    obtain ⟨hk, hk'⟩ := (hjoin k).mpr (.inr rfl)
    rw [Function.update_of_ne (ha k hk hk')]
    apply h.frame
    intro i hlo hhi
    obtain ⟨hlo, hhi⟩ := (hjoin i).mpr (.inl ⟨hlo, hhi⟩)
    exact ha i hlo hhi

private theorem Moved.eq_blit (h : Moved m m' d s 0 k) : m' = blit m d k fun i => m (s + i) := by
  funext a
  unfold blit
  split
  · next ha =>
    obtain ⟨i, rfl⟩ := Nat.exists_eq_add_of_le ha.1
    rw [h.copied i (Nat.zero_le i) (by omega), Nat.add_sub_cancel_left]
  · exact h.frame a fun i _ hi => by omega

section range

variable (hdest : dest.toNat + n.toNat ≤ 2 ^ 64) (hsrc : src.toNat + n.toNat ≤ 2 ^ 64)
include hdest hsrc

private theorem copyByte_eq (hk : k < n.toNat) :
    copyByte dest src k m = Function.update m (dest.toNat + k) (m (src.toNat + k)) := by
  unfold copyByte assign
  rw [at_eq hdest hk, at_eq hsrc hk]

/-- Counting up is right if no byte is read after it was written. -/
theorem copyUp_moved (hup : ∀ i k, i < k → k < n.toNat → src.toNat + k ≠ dest.toNat + i) :
    ∀ k, k ≤ n.toNat →
      Moved m (k.fold (fun i _ m => copyByte dest src i m) m) dest.toNat src.toNat 0 k := by
  intro k
  induction k with
  | zero => exact fun _ => Moved.refl m _ _ 0
  | succ k ih =>
    intro hk
    rw [Nat.fold_succ, copyByte_eq hdest hsrc hk]
    refine (ih (by omega)).extend (fun i _ hi => hup i k hi hk) ?_
    intro i
    omega

/-- `memcpy` copies between ranges that are apart. -/
theorem memcpy_eq_blit
    (h : Disjoint (Set.Ico dest.toNat (dest.toNat + n.toNat)) (Set.Ico src.toNat (src.toNat + n.toNat))) :
    (memcpy dest src n m).2 = blit m dest.toNat n.toNat fun i => m (src.toNat + i) := by
  refine (copyUp_moved hdest hsrc ?_ _ le_rfl).eq_blit
  intro i k hi hk heq
  have hdst : dest.toNat + i ∈ Set.Ico dest.toNat (dest.toNat + n.toNat) := ⟨by omega, by omega⟩
  exact Set.disjoint_left.mp h hdst ⟨by omega, by omega⟩

/-- Counting down is right if the source starts first. -/
theorem copyDown_moved (hlt : src.toNat < dest.toNat) :
    ∀ k m', k ≤ n.toNat → Moved m m' dest.toNat src.toNat k n.toNat →
      Moved m (k.foldRev (fun i _ m => copyByte dest src i m) m') dest.toNat src.toNat 0 n.toNat := by
  intro k
  induction k with
  | zero => exact fun m' _ h => h
  | succ k ih =>
    intro m' hk h
    rw [Nat.foldRev_succ, copyByte_eq hdest hsrc hk]
    refine ih _ (by omega) (h.extend (fun i hi _ => by omega) ?_)
    intro i
    omega

/-- In every case `memove` has copied what was there. -/
theorem memove_moved : Moved m (memove dest src n m).2 dest.toNat src.toNat 0 n.toNat := by
  unfold memove
  split
  · next hlt =>
    have hlt := BitVec.lt_def.mp hlt
    exact copyUp_moved hdest hsrc (fun i k hi _ => by omega) _ le_rfl
  · split
    · next hlt =>
      exact copyDown_moved hdest hsrc (BitVec.lt_def.mp hlt) _ m le_rfl (Moved.refl m _ _ _)
    · next hge hle =>
      have heq : src.toNat = dest.toNat :=
        Nat.le_antisymm (Nat.le_of_not_lt (mt BitVec.lt_def.mpr hge))
          (Nat.le_of_not_lt (mt BitVec.lt_def.mpr hle))
      exact ⟨fun i _ _ => by rw [heq], fun _ _ => rfl⟩

/-- **`memove` moves.** After it the destination holds what the source held before, byte for byte,
however the two ranges overlap, and no other byte has changed. It returns the destination. -/
theorem memove_correct (m : Mem) :
    (∀ i, i < n.toNat → (memove dest src n m).2 (dest.toNat + i) = m (src.toNat + i)) ∧
    (∀ a, a ∉ Set.Ico dest.toNat (dest.toNat + n.toNat) → (memove dest src n m).2 a = m a) ∧
    (memove dest src n m).1 = dest := by
  have h := memove_moved (m := m) hdest hsrc
  refine ⟨fun i hi => h.copied i (Nat.zero_le i) hi, ?_, ?_⟩
  · intro a ha
    refine h.frame a ?_
    intro i _ hi heq
    exact ha ⟨by omega, by omega⟩
  · unfold memove
    split
    · rfl
    · split <;> rfl

end range

theorem memove_overlapping :
    (memove 0x1002 0x1000 3 fun a => BitVec.ofNat 8 a).2 0x1002 = 0x00 ∧
    (memove 0x1002 0x1000 3 fun a => BitVec.ofNat 8 a).2 0x1004 = 0x02 := by
  have hrange : (0x1002 : Word).toNat + (3 : Word).toNat ≤ 2 ^ 64 := by decide
  have hmoved := (memove_correct hrange (by decide : (0x1000 : Word).toNat + (3 : Word).toNat ≤ 2 ^ 64)
    fun a => BitVec.ofNat 8 a).1
  exact ⟨hmoved 0 (by decide), hmoved 2 (by decide)⟩

/-! ## The others -/

private theorem memset_fold (c : Byte) (hp : p.toNat + n.toNat ≤ 2 ^ 64) :
    ∀ k, k ≤ n.toNat → k.fold (fun i _ m => assign p i c m) m = fill m p.toNat k c := by
  intro k
  induction k with
  | zero =>
    intro _
    funext a
    exact (if_neg (by omega)).symm
  | succ k ih =>
    intro hk
    rw [Nat.fold_succ, ih (by omega)]
    funext a
    unfold assign fill
    rw [at_eq hp hk]
    by_cases ha : a = p.toNat + k
    · rw [ha, Function.update_self, if_pos (by omega)]
    · rw [Function.update_of_ne ha]
      by_cases hin : p.toNat ≤ a ∧ a < p.toNat + k
      · rw [if_pos hin, if_pos (by omega)]
      · rw [if_neg hin, if_neg (by omega)]

/-- `memset` fills. -/
theorem memset_eq_fill (c : BitVec 32) (hp : p.toNat + n.toNat ≤ 2 ^ 64) :
    (memset p c n m).2 = fill m p.toNat n.toNat (c.setWidth 8) :=
  memset_fold (c.setWidth 8) hp n.toNat le_rfl

end LibC

end TwoKernel
