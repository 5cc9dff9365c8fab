import Mathlib.Data.Nat.Digits.Lemmas

/-!
# Numerals

The text of a number in a base: its digits, the most significant one first, without
leading zeros, and a single zero for the number zero. Texts are lists of bytes in
ASCII, with small letters for the digits from ten on, so bases go up to 36.

`parse` reads a text back. It is defined apart from `numeral`, digit by digit from
the left, and rejects an empty text and bytes that are no digits of the base
(`parse_numeral`). `decimal` and `parseInt` are the same for integers, with a sign
in front of the negative ones; `IsDecimal` says without either of them what the
canonical numeral of an integer looks like.
-/

namespace Numerals

/-- A text of bytes. -/
abbrev Text := List (BitVec 8)

variable {b d n : Nat} {c : BitVec 8}

/-- The byte of a digit. -/
def digitByte (d : Nat) : BitVec 8 := BitVec.ofNat 8 (if d < 10 then 48 + d else 87 + d)

/-- The digit of a byte, in base `b`. -/
def digit? (b : Nat) (c : BitVec 8) : Option Nat := (List.range b).find? fun d => digitByte d = c

/-- The numeral of `n` in base `b`. -/
def numeral (b n : Nat) : Text :=
  if n = 0 then [digitByte 0] else ((Nat.digits b n).map digitByte).reverse

/-- The number that a text is read as, in base `b`. -/
def parse (b : Nat) (t : Text) : Option Nat :=
  if t = [] then none else t.foldlM (fun n c => (digit? b c).map (b * n + ·)) 0

theorem digitByte_toNat (hd : d < 36) : (digitByte d).toNat = if d < 10 then 48 + d else 87 + d := by
  unfold digitByte
  rw [BitVec.toNat_ofNat]
  split <;> omega

private theorem digitByte_inj {d' : Nat} (hd : d < 36) (hd' : d' < 36) (h : digitByte d = digitByte d') :
    d = d' := by
  have hnat := congrArg BitVec.toNat h
  rw [digitByte_toNat hd, digitByte_toNat hd'] at hnat
  split at hnat <;> split at hnat <;> omega

private theorem digit?_digitByte (hb : b ≤ 36) (hd : d < b) : digit? b (digitByte d) = some d := by
  unfold digit?
  rw [List.find?_range_eq_some]
  refine ⟨decide_eq_true rfl, List.mem_range.mpr hd, ?_⟩
  intro j hj
  have hne : digitByte j ≠ digitByte d := fun h =>
    absurd (digitByte_inj (by omega) (by omega) h) (Nat.ne_of_lt hj)
  simp [hne]

/-! ## Numerals of natural numbers -/

private theorem numeral_ne_nil (b n : Nat) : numeral b n ≠ [] := by
  unfold numeral
  split
  · exact List.cons_ne_nil _ _
  · next hn =>
    rw [Ne, List.reverse_eq_nil_iff, List.map_eq_nil_iff]
    exact Nat.digits_ne_nil_iff_ne_zero.mpr hn

/-- A numeral consists of digits of its base. -/
theorem exists_digit_of_mem_numeral (hb : 1 < b) (hc : c ∈ numeral b n) : ∃ d < b, c = digitByte d := by
  unfold numeral at hc
  split at hc
  · exact ⟨0, by omega, List.mem_singleton.mp hc⟩
  · obtain ⟨d, hd, rfl⟩ := List.mem_map.mp (List.mem_reverse.mp hc)
    exact ⟨d, Nat.digits_lt_base hb hd, rfl⟩

/-- A numeral has no leading zero. -/
theorem numeral_head?_ne_zero (hb : 1 < b) (hb' : b ≤ 36) (hn : n ≠ 0) :
    (numeral b n).head? ≠ some (digitByte 0) := by
  have hne := Nat.digits_ne_nil_iff_ne_zero (b := b).mpr hn
  unfold numeral
  rw [if_neg hn, List.head?_reverse, List.getLast?_map, List.getLast?_eq_getLast_of_ne_nil hne]
  intro h
  have hlast := Nat.digits_lt_base hb (List.getLast_mem hne)
  exact Nat.getLast_digit_ne_zero b hn
    (digitByte_inj (by omega) (by omega) (Option.some.inj h))

private theorem foldlM_digits (hb : b ≤ 36) (l : List Nat) (hl : ∀ d ∈ l, d < b) :
    (l.map digitByte).reverse.foldlM (fun n c => (digit? b c).map (b * n + ·)) 0 =
      some (Nat.ofDigits b l) := by
  induction l with
  | nil => rfl
  | cons d l ih =>
    obtain ⟨hd, hl⟩ := List.forall_mem_cons.mp hl
    rw [List.map_cons, List.reverse_cons, List.foldlM_append, ih hl]
    simp [digit?_digitByte hb hd, Nat.ofDigits_cons, Nat.add_comm]

/-- **A numeral is read back.** -/
theorem parse_numeral (hb : 1 < b) (hb' : b ≤ 36) (n : Nat) : parse b (numeral b n) = some n := by
  unfold parse
  rw [if_neg (numeral_ne_nil b n)]
  unfold numeral
  split
  · next hn =>
    rw [hn]
    exact foldlM_digits hb' [0] (by simpa using by omega)
  · rw [foldlM_digits hb' _ (fun d hd => Nat.digits_lt_base hb hd), Nat.ofDigits_digits]

/-! ## Integers -/

/-- The sign of a negative number. -/
def minus : BitVec 8 := 45

/-- The decimal numeral of an integer. -/
def decimal (z : Int) : Text := (if z < 0 then [minus] else []) ++ numeral 10 z.natAbs

/-- The integer that a text is read as, in base ten. -/
def parseInt (t : Text) : Option Int :=
  if t.head? = some minus then (parse 10 t.tail).map fun n : Nat => -(n : Int)
  else (parse 10 t).map Int.ofNat

/-- A numeral does not start with a sign. -/
theorem numeral_head?_ne_minus (n : Nat) : (numeral 10 n).head? ≠ some minus := by
  intro h
  obtain ⟨d, hd, hc⟩ := exists_digit_of_mem_numeral (by decide) (List.mem_of_mem_head? h)
  have hnat := congrArg BitVec.toNat hc
  rw [digitByte_toNat (by omega), if_pos hd] at hnat
  have hminus : minus.toNat = 45 := rfl
  omega

/-- **A decimal numeral is read back.** -/
theorem parseInt_decimal (z : Int) : parseInt (decimal z) = some z := by
  have hparse : parse 10 (numeral 10 z.natAbs) = some z.natAbs :=
    parse_numeral (by decide) (by decide) _
  unfold parseInt decimal
  by_cases hz : z < 0
  · rw [if_pos hz, List.singleton_append, List.head?_cons, if_pos rfl, List.tail_cons, hparse,
      Option.map_some]
    congr 1
    omega
  · rw [if_neg hz, List.nil_append, if_neg (numeral_head?_ne_minus _), hparse, Option.map_some]
    congr 1
    show ((z.natAbs : Nat) : Int) = z
    omega

/-- The text is the canonical decimal numeral of the integer: a sign in front of a negative one and
nowhere else, then at least one digit and no leading zeros; and it is read as that integer. -/
structure IsDecimal (z : Int) (t : Text) : Prop where
  sign : t.head? = some minus ↔ z < 0
  digits : ∃ body, t = (if z < 0 then [minus] else []) ++ body ∧ body ≠ [] ∧
    (∀ c ∈ body, ∃ d < 10, c = digitByte d) ∧ (body.head? = some (digitByte 0) → z = 0 ∧ body.length = 1)
  parses : parseInt t = some z

theorem isDecimal_decimal (z : Int) : IsDecimal z (decimal z) where
  sign := by
    unfold decimal
    by_cases hz : z < 0
    · simp [hz]
    · simpa [hz] using numeral_head?_ne_minus z.natAbs
  digits := by
    refine ⟨_, rfl, numeral_ne_nil 10 _, fun c hc => exists_digit_of_mem_numeral (by decide) hc, ?_⟩
    intro hhead
    have hz : z = 0 := by
      by_contra hz
      exact numeral_head?_ne_zero (by decide) (by decide) (Int.natAbs_ne_zero.mpr hz) hhead
    rw [hz]
    exact ⟨rfl, rfl⟩
  parses := parseInt_decimal z

end Numerals
