import TwoKernel.Lib.Numerals
import TwoKernel.Util.KernelLogger

/-!
# The digit loops of the formatter

`vsnprintf` has five loops that take a number apart, for two bases, two widths and
two kinds of comparison. They are one loop with the step as a parameter, and `Radix`
says what the step has to do: it tells zero from the rest, and gives the remainder
and the quotient by the base. The signed step does so only for numbers that are not
negative, so `Radix` is relative to a set of values that the step stays in.

Whatever the step, the loop stores the digits from the least significant one on, and
what is emitted afterwards is the numeral (`Radix.number_yields`). The buffers are
large enough because the largest numbers have no more digits than they have elements.
-/

namespace TwoKernel

open Numerals

namespace Logger

variable {w b size fuel i : Nat} {val : BitVec w} {ok : BitVec w → Prop} {more : BitVec w → Bool}
  {digit : BitVec w → Byte} {next : BitVec w → BitVec w} {tmp : Nat → Byte} {s : Printer}
  {P : Event → Prop}

/-- A step that takes numbers of a set apart in base `b`. -/
structure Radix (b : Nat) (ok : BitVec w → Prop) (more : BitVec w → Bool) (digit : BitVec w → Byte)
    (next : BitVec w → BitVec w) : Prop where
  base : 1 < b
  more_iff : ∀ val, ok val → (more val = true ↔ val.toNat ≠ 0)
  digit_eq : ∀ val, ok val → digit val = digitByte (val.toNat % b)
  next_toNat : ∀ val, ok val → (next val).toNat = val.toNat / b
  stays : ∀ val, ok val → ok (next val)

/-- The elements of a buffer before `i`. -/
def stored (i : Nat) (tmp : Nat → Byte) : List Byte := (List.range i).map tmp

private theorem stored_succ (i : Nat) (tmp : Nat → Byte) :
    stored (i + 1) tmp = stored i tmp ++ [tmp i] := by
  unfold stored
  rw [List.range_succ, List.map_append, List.map_singleton]

private theorem stored_update (i : Nat) (tmp : Nat → Byte) (c : Byte) :
    stored (i + 1) (Function.update tmp i c) = stored i tmp ++ [c] := by
  have hbefore : stored i (Function.update tmp i c) = stored i tmp := by
    unfold stored
    apply List.map_congr_left
    intro j hj
    exact Function.update_of_ne (Nat.ne_of_lt (List.mem_range.mp hj)) _ _
  rw [stored_succ, hbefore, Function.update_self]

/-- What is stored is emitted backwards. -/
theorem emit_eq (i : Nat) (tmp : Nat → Byte) (s : Printer) :
    emit i tmp s = { s with out := s.out ++ (stored i tmp).reverse } := by
  induction i generalizing s with
  | zero =>
    show s = { s with out := s.out ++ [] }
    rw [List.append_nil]
  | succ i ih =>
    unfold emit
    rw [ih, stored_succ, List.reverse_append]
    show { s with out := (s.out ++ [tmp i]) ++ _ } = { s with out := s.out ++ ([tmp i] ++ _) }
    rw [List.append_assoc]

/-- A loop ends with the digits of `n` stored behind what was there, the least significant one
first. -/
def StoresDigits (P : Event → Prop) (b n i : Nat) (tmp : Nat → Byte) (x : Run (Nat × (Nat → Byte))) :
    Prop :=
  ∃ tmp', Logged.Yields P x (i + (Nat.digits b n).length, tmp') ∧
    stored (i + (Nat.digits b n).length) tmp' = stored i tmp ++ (Nat.digits b n).map digitByte

/-- **The loop stores the digits.** -/
theorem Radix.digitLoop_stores (h : Radix b ok more digit next) (hval : ok val)
    (hfuel : (Nat.digits b val.toNat).length < fuel)
    (hsize : i + (Nat.digits b val.toNat).length ≤ size) (hP : ∀ j, j < size → P (.tmp size j)) :
    StoresDigits P b val.toNat i tmp (digitLoop more digit next size fuel i tmp val) := by
  induction fuel generalizing i tmp val with
  | zero => omega
  | succ fuel ih =>
    unfold digitLoop
    by_cases hzero : val.toNat = 0
    · have hmore : ¬ more val = true := fun hm => (h.more_iff val hval).mp hm hzero
      rw [if_neg hmore, hzero]
      unfold StoresDigits
      rw [Nat.digits_zero]
      exact ⟨tmp, .pure _, (List.append_nil _).symm⟩
    · have hdigits : Nat.digits b val.toNat = val.toNat % b :: Nat.digits b (next val).toNat := by
        rw [h.next_toNat val hval]
        exact Nat.digits_eq_cons_digits_div h.base hzero
      rw [hdigits, List.length_cons] at hfuel hsize
      have hrest : StoresDigits P b (next val).toNat (i + 1) (Function.update tmp i (digit val))
          (digitLoop more digit next size fuel (i + 1) (Function.update tmp i (digit val))
            (next val)) := ih (h.stays val hval) (by omega) (by omega)
      obtain ⟨tmp', hrest, hstored⟩ := hrest
      rw [stored_update, h.digit_eq val hval] at hstored
      unfold StoresDigits
      rw [if_pos ((h.more_iff val hval).mpr hzero), hdigits, List.length_cons, ← Nat.add_assoc,
        Nat.add_right_comm, List.map_cons, List.append_cons]
      exact ⟨tmp', (Logged.Yields.tell (hP i (by omega))).bind hrest, hstored⟩

/-- **A number is printed as its numeral.** -/
theorem Radix.number_yields (h : Radix b ok more digit next) (hval : ok val)
    (hlt : val.toNat < b ^ size) (hsize : 0 < size) (hfuel : size < fuel)
    (hP : ∀ j, j < size → P (.tmp size j)) :
    Logged.Yields P (number more digit next size fuel val s)
      { s with out := s.out ++ numeral b val.toNat } := by
  have hlen := (Nat.digits_length_le_iff h.base val.toNat).mpr hlt
  unfold number
  by_cases hzero : val = 0
  · have hnat : val.toNat = 0 := by simp [hzero]
    rw [if_pos hzero, hnat]
    exact (Logged.Yields.tell (hP 0 hsize)).bind (.pure _)
  · have hnat : val.toNat ≠ 0 := fun h0 => hzero (BitVec.eq_of_toNat_eq (by simpa using h0))
    have hloop : StoresDigits P b val.toNat 0 (fun _ => 0)
        (digitLoop more digit next size fuel 0 (fun _ => 0) val) :=
      h.digitLoop_stores hval (by omega) (by omega) hP
    obtain ⟨tmp', hloop, hstored⟩ := hloop
    rw [if_neg hzero]
    refine hloop.bind ?_
    rw [emit_eq, hstored]
    unfold numeral
    rw [if_neg hnat]
    exact .pure _

/-! ## The steps -/

private theorem positive_iff (val : BitVec w) : positive val = true ↔ val.toNat ≠ 0 := by
  simp [positive, BitVec.lt_def, Nat.pos_iff_ne_zero]

private theorem radix_dec (hten : (10 : BitVec w).toNat = 10) :
    Radix 10 (fun _ : BitVec w => True) positive decDigit (· / 10) where
  base := by decide
  more_iff val _ := positive_iff val
  digit_eq val _ := by
    apply BitVec.eq_of_toNat_eq
    have hlt : val.toNat % 10 < 10 := Nat.mod_lt _ (by decide)
    unfold decDigit
    rw [digitByte_toNat (by omega), if_pos hlt, BitVec.toNat_add, BitVec.toNat_setWidth,
      BitVec.toNat_umod, hten]
    show (48 + _) % 256 = _
    omega
  next_toNat val _ := by rw [BitVec.toNat_udiv, hten]
  stays _ _ := trivial

private theorem radix_hex (hmask : (0xF : BitVec w).toNat = 15) :
    Radix 16 (fun _ : BitVec w => True) positive hexDigit (· >>> 4) where
  base := by decide
  more_iff val _ := positive_iff val
  digit_eq val _ := by
    have hlt : val.toNat % 16 < 16 := Nat.mod_lt _ (by decide)
    have hnibble : ((val &&& 0xF).setWidth 8).toNat = val.toNat % 16 := by
      rw [BitVec.toNat_setWidth, BitVec.toNat_and, hmask,
        show 15 = 2 ^ 4 - 1 from rfl, Nat.and_two_pow_sub_one_eq_mod]
      omega
    apply BitVec.eq_of_toNat_eq
    rw [digitByte_toNat (by omega)]
    unfold hexDigit
    dsimp only
    by_cases hdec : val.toNat % 16 < 10
    · rw [if_pos hdec, if_pos (BitVec.lt_def.mpr (hnibble ▸ hdec)), BitVec.toNat_add, hnibble]
      show (48 + _) % 256 = _
      omega
    · rw [if_neg hdec, if_neg (fun h => hdec (hnibble ▸ BitVec.lt_def.mp h)), BitVec.toNat_sub,
        BitVec.toNat_add, hnibble]
      show (256 - 10 + (97 + _) % 256) % 256 = _
      omega
  next_toNat val _ := by rw [BitVec.toNat_ushiftRight, Nat.shiftRight_eq_div_pow]
  stays _ _ := trivial

/-- The step of `%d`, on numbers that are not negative. -/
theorem radix_signed : Radix 10 (fun val : BitVec 32 => val.toNat < 2 ^ 31)
    (fun val => (0 : BitVec 32).slt val) (fun val => ch '0' + (val.srem 10).setWidth 8)
    (fun val => val.sdiv 10) where
  base := by decide
  more_iff val hval := by
    have hint : val.toInt = val.toNat := BitVec.toInt_eq_toNat_of_lt (by omega)
    rw [BitVec.slt_iff_toInt_lt, hint]
    show (0 : Int) < _ ↔ _
    omega
  digit_eq val hval := by
    have hmsb : val.msb = false := BitVec.msb_eq_false_iff_two_mul_lt.mpr (by omega)
    have hrem : val.srem 10 = val % 10 := by
      rw [BitVec.srem_eq, hmsb]
      rfl
    show ch '0' + (val.srem 10).setWidth 8 = _
    rw [hrem]
    exact (radix_dec rfl).digit_eq val trivial
  next_toNat val hval := by
    have hmsb : val.msb = false := BitVec.msb_eq_false_iff_two_mul_lt.mpr (by omega)
    show (val.sdiv 10).toNat = _
    rw [BitVec.sdiv_eq, hmsb]
    exact (radix_dec rfl).next_toNat val trivial
  stays val hval := by
    have hmsb : val.msb = false := BitVec.msb_eq_false_iff_two_mul_lt.mpr (by omega)
    show (val.sdiv 10).toNat < _
    rw [BitVec.sdiv_eq, hmsb]
    have hnext := (radix_dec (w := 32) rfl).next_toNat val trivial
    show (val / 10).toNat < _
    omega

/-! ## The conversions of numbers -/

section conversions

variable {va : Nat → Word} (hfuel : 20 < fuel) (hP : ∀ size j, j < size → P (.tmp size j))
include hfuel hP

theorem convU_yields : Logged.Yields P (convU va fuel s)
    { s.took with out := s.out ++ numeral 10 ((va s.args).setWidth 32).toNat } :=
  (radix_dec rfl).number_yields trivial (Nat.lt_of_lt_of_le (BitVec.isLt _) (by decide)) (by decide)
    hfuel (hP 20)

theorem convX_yields : Logged.Yields P (convX va fuel s)
    { s.took with out := s.out ++ numeral 16 ((va s.args).setWidth 32).toNat } :=
  (radix_hex rfl).number_yields trivial (Nat.lt_of_lt_of_le (BitVec.isLt _) (by decide)) (by decide)
    (by omega) (hP 16)

theorem convLlu_yields : Logged.Yields P (convLlu va fuel s)
    { s.took with out := s.out ++ numeral 10 (va s.args).toNat } :=
  (radix_dec rfl).number_yields trivial (Nat.lt_of_lt_of_le (BitVec.isLt _) (by decide)) (by decide)
    hfuel (hP 20)

theorem convLlx_yields : Logged.Yields P (convLlx va fuel s)
    { s.took with out := s.out ++ numeral 16 (va s.args).toNat } :=
  (radix_hex rfl).number_yields trivial (Nat.lt_of_lt_of_le (BitVec.isLt _) (by decide)) (by decide)
    (by omega) (hP 16)

private theorem numberD_yields {val : BitVec 32} (hval : val.toNat < 2 ^ 31) :
    Logged.Yields P (numberD fuel val s) { s with out := s.out ++ numeral 10 val.toNat } :=
  radix_signed.number_yields hval (Nat.lt_of_lt_of_le (BitVec.isLt _) (by decide)) (by decide)
    hfuel (hP 20)

end conversions

/-- The least number is its own negative, and not positive: its loop ends at once. -/
theorem numberD_intMin (hfuel : 20 < fuel) :
    Logged.Yields P (numberD fuel (-BitVec.intMin 32) s) s := by
  obtain ⟨fuel, rfl⟩ := Nat.exists_eq_add_of_lt hfuel
  exact .pure s

private theorem negate_yields {val : BitVec 32} (hover : val = BitVec.intMin 32 → P .overflow) :
    Logged.Yields P (negate val) (-val) := by
  unfold negate
  by_cases hmin : val = BitVec.intMin 32
  · rw [if_pos hmin]
    exact (Logged.Yields.tell (hover hmin)).bind (.pure _)
  · rw [if_neg hmin]
    exact .pure _

/-- The negative of a negative number is its absolute value, but for the least one. -/
theorem neg_toNat {val : BitVec 32} (hneg : val.toInt < 0) (hmin : val ≠ BitVec.intMin 32) :
    (-val).toNat = val.toInt.natAbs ∧ (-val).toNat < 2 ^ 31 := by
  have hlt := (-val).isLt
  have hint : (-val).toInt = -val.toInt := BitVec.toInt_neg_of_ne_intMin hmin
  rw [BitVec.toInt_eq_toNat_cond] at hint
  split at hint <;> omega

/-- What `%d` prints. -/
def intText (val : BitVec 32) : Text :=
  if val = BitVec.intMin 32 then [minus] else decimal val.toInt

theorem convD_yields {va : Nat → Word} (hfuel : 20 < fuel)
    (hP : ∀ size j, j < size → P (.tmp size j))
    (hover : (va s.args).setWidth 32 = BitVec.intMin 32 → P .overflow) :
    Logged.Yields P (convD va fuel s)
      { s.took with out := s.out ++ intText ((va s.args).setWidth 32) } := by
  unfold convD
  dsimp only
  generalize (va s.args).setWidth 32 = val at hover ⊢
  unfold intText
  by_cases hneg : val.slt 0 = true
  · have hint : val.toInt < 0 := BitVec.slt_iff_toInt_lt.mp hneg
    rw [if_pos hneg]
    refine (negate_yields hover).bind ?_
    by_cases hmin : val = BitVec.intMin 32
    · rw [if_pos hmin, hmin]
      exact numberD_intMin hfuel
    · obtain ⟨habs, hlt⟩ := neg_toNat hint hmin
      have hnum : Logged.Yields P (numberD fuel (-val) (s.took.put (ch '-')))
          { s.took with out := s.out ++ [ch '-'] ++ numeral 10 (-val).toNat } :=
        numberD_yields hfuel hP hlt
      rw [habs, List.append_assoc] at hnum
      unfold decimal
      rw [if_neg hmin, if_pos hint]
      exact hnum
  · have hint : ¬ val.toInt < 0 := fun h => hneg (BitVec.slt_iff_toInt_lt.mpr h)
    have hmin : val ≠ BitVec.intMin 32 := by
      rintro rfl
      exact hneg rfl
    have hlt := val.isLt
    have hcond := BitVec.toInt_eq_toNat_cond val
    have habs : val.toNat = val.toInt.natAbs ∧ val.toNat < 2 ^ 31 := by
      split at hcond <;> omega
    have hnum := numberD_yields (s := s.took) hfuel hP habs.2
    rw [habs.1] at hnum
    unfold decimal
    rw [if_neg hneg, if_neg hmin, if_neg hint]
    exact hnum

end Logger

end TwoKernel
