import TwoKernel.Lib.ByteMem

/-!
# Words on a stack

A stack that grows down in a byte-addressed memory, in words of eight bytes.
`word m a i` is the word `i` from `a` on; `WordsAt m a l` says that the words from
`a` on are those of the list `l`, so that `a` is a stack pointer and `l` begins with
what was pushed last.

Addresses are words and wrap around. Two words of one stack still never meet, as
long as it is shorter than the address space: what is stored at some distance below
`a` leaves the words from `a` on alone if they end before that address comes again
(`WordsAt.store`). A push is the case of a distance of eight bytes (`WordsAt.push`).
-/

namespace WordStack

open ByteMem

variable {m : Mem} {a b v : BitVec 64} {l : List (BitVec 64)} {d i : Nat}

/-- The word `i` of those from `a` on. -/
def word (m : Mem) (a : BitVec 64) (i : Nat) : BitVec 64 := load64 m (a + BitVec.ofNat 64 (8 * i)).toNat

/-- The words from `a` on. -/
def WordsAt (m : Mem) : BitVec 64 → List (BitVec 64) → Prop
  | _, [] => True
  | a, v :: l => load64 m a.toNat = v ∧ WordsAt m (a + 8) l

theorem word_zero : word m a 0 = load64 m a.toNat := by
  unfold word
  rw [Nat.mul_zero, BitVec.add_zero]

theorem word_add {k : Nat} : word m (a + BitVec.ofNat 64 (8 * k)) i = word m a (k + i) := by
  unfold word
  rw [BitVec.add_assoc, ← BitVec.ofNat_add, ← Nat.mul_add]

theorem word_succ : word m a (i + 1) = word m (a + 8) i := by
  rw [Nat.add_comm]
  exact (word_add (k := 1)).symm

theorem WordsAt.word (h : WordsAt m a l) (hi : l[i]? = some v) : WordStack.word m a i = v := by
  induction l generalizing a i with
  | nil => cases hi
  | cons w l ih =>
    cases i with
    | zero => exact word_zero.trans (h.1.trans (Option.some.inj hi))
    | succ i => exact word_succ.trans (ih h.2 hi)

/-- Two words that far apart do not meet. -/
theorem load64_store64_apart (hab : a = b + BitVec.ofNat 64 d) (hd : 8 ≤ d) (hd' : d + 8 ≤ 2 ^ 64) :
    load64 (store64 m b.toNat v) a.toNat = load64 m a.toNat := by
  have hb := b.isLt
  have haddr : a.toNat = (b.toNat + d) % 2 ^ 64 := by
    rw [hab, BitVec.toNat_add, BitVec.toNat_ofNat, Nat.mod_eq_of_lt (a := d) (by omega)]
  apply load64_store64_of_ne
  omega

/-- A store below a stack that does not come round to it. -/
theorem WordsAt.store (h : WordsAt m a l) (hab : a = b + BitVec.ofNat 64 d) (hd : 8 ≤ d)
    (hl : d + 8 * l.length ≤ 2 ^ 64) : WordsAt (store64 m b.toNat v) a l := by
  induction l generalizing a d with
  | nil => trivial
  | cons w l ih =>
    rw [List.length_cons] at hl
    refine ⟨(load64_store64_apart hab hd (by omega)).trans h.1, ?_⟩
    refine ih (d := d + 8) h.2 ?_ (by omega) (by omega)
    rw [hab, BitVec.add_assoc, BitVec.ofNat_add]
    rfl

/-- **A push.** -/
theorem WordsAt.push (h : WordsAt m a l) (hl : 8 + 8 * l.length ≤ 2 ^ 64) :
    WordsAt (store64 m (a - 8).toNat v) (a - 8) (v :: l) := by
  have hup : a - 8 + 8 = a := BitVec.sub_add_cancel a 8
  refine ⟨load64_store64_self, ?_⟩
  rw [hup]
  exact h.store (d := 8) hup.symm le_rfl hl

/-- The words behind the one that is stored. -/
theorem word_store64_of_pos (hpos : 0 < i) (hi : 8 * (i + 1) ≤ 2 ^ 64) :
    word (store64 m a.toNat v) a i = word m a i :=
  load64_store64_apart (d := 8 * i) rfl (by omega) (by omega)

/-- A word that is stored is on top. -/
theorem word_store64_zero : word (store64 m a.toNat v) a 0 = v := by
  rw [word_zero, load64_store64_self]

end WordStack
