import TwoKernel.Laws.Util.Printing

/-!
# What `vsnprintf` guarantees

Three readings of what a whole call does.

* It stays inside its format exactly if that does not end in `%ll`
  (`format_inside_iff`).
* On formats of ordinary characters, `%%`, strings and unsigned numbers it prints what
  these say, in full (`unsigned_printed`). The length that it returns is an `int`, so
  from two gigabytes on it is not that of the text.
* `%d` prints the canonical numeral of every number but the least one
  (`signed_iff`), whose negation overflows and which is printed as a sign only.
-/

namespace TwoKernel

open ByteMem Numerals

namespace Logger

variable {mem : Mem} {va : Nat → Word} {fmt : Nat} {l : List Byte}

/-! ## The format -/

/-- **The formatter stays inside its format**, for every format and arguments that match it, exactly if
the format does not end in an incomplete `%ll`. The call returns then. -/
theorem format_inside_iff (hfmt : StringAt mem fmt l) (hmatch : Matching mem va 0 (directives l)) :
    (∃ fuel r, (vsnprintf mem va fuel fmt).result = .ok r ∧
      ∀ x, .format x ∈ (vsnprintf mem va fuel fmt).log → fmt ≤ x ∧ x ≤ fmt + l.length) ↔
    .cut ∉ directives l := by
  have hspell := spell_directives l
  have hwf := wellFormed_directives hfmt.noNul
  constructor
  · intro h hcut
    obtain ⟨fuel, r, hres, hinside⟩ := h
    obtain ⟨s, hscan, -, hlog⟩ := Logged.result_bind_ok hres
    have hpast := scan_reads_past (s := ⟨fmt, [], 0⟩) hwf hcut (hspell.symm ▸ hfmt.bytes) hscan
    rw [hspell] at hpast
    have hle : fmt + l.length + 1 ≤ fmt + l.length :=
      (hinside _ (hlog ▸ List.mem_append_left _ hpast)).2
    omega
  · intro hcut
    obtain ⟨t, hrender⟩ := hmatch.renders
    obtain ⟨fuel, hres, hlog⟩ := vsnprintf_yields (hspell.symm ▸ hfmt.bytes) hwf hcut hrender
    rw [hspell] at hlog
    exact ⟨fuel, _, hres, fun x hx => hlog _ hx⟩

/-- A memory that starts with a text. -/
def textMem (t : List Byte) : Mem := fun a => t.getD a 0

theorem format_inside_percent :
    ∃ fuel r, (vsnprintf (textMem [ch 'a', ch '%']) (fun _ => 0) fuel 0).result = .ok r ∧
      ∀ x, .format x ∈ (vsnprintf (textMem [ch 'a', ch '%']) (fun _ => 0) fuel 0).log →
        0 ≤ x ∧ x ≤ 0 + 2 := by
  have hfmt : StringAt (textMem [ch 'a', ch '%']) 0 [ch 'a', ch '%'] :=
    ⟨⟨rfl, rfl, rfl, trivial⟩, by decide⟩
  have hmatch : Matching (textMem [ch 'a', ch '%']) (fun _ => 0) 0 (directives [ch 'a', ch '%']) :=
    ⟨fun h => absurd h (by decide), fun h => absurd h (by decide), trivial⟩
  exact (format_inside_iff hfmt hmatch).mpr (by decide)

/-- The format `%ll`, and another string behind it. -/
def cutMem : Mem := textMem [ch '%', ch 'l', ch 'l', 0, ch 'X']

/-- **A format that ends in `%ll` is left.** The call reads on behind its NUL, and prints what it finds
there. -/
theorem format_left :
    StringAt cutMem 0 [ch '%', ch 'l', ch 'l'] ∧
    Matching cutMem (fun _ => 0) 0 (directives [ch '%', ch 'l', ch 'l']) ∧
    (vsnprintf cutMem (fun _ => 0) 3 0).result = .ok ([ch 'X', 0], 1) ∧
    .format 4 ∈ (vsnprintf cutMem (fun _ => 0) 3 0).log := by
  refine ⟨⟨⟨rfl, rfl, rfl, rfl, trivial⟩, by decide⟩, ⟨fun h => absurd h (by decide), trivial⟩, ?_, ?_⟩
  · decide +kernel
  · decide +kernel

/-! ## Unsigned numbers -/

/-- A part of a format without signed numbers, with its argument. -/
inductive Piece where
  | char (c : Byte) (ordinary : c ≠ 0 ∧ c ≠ ch '%' ∧ c ≠ ch '\n')
  | newline
  | percent
  /-- A string, or a null pointer. -/
  | s (text : Option (List Byte))
  | u (val : BitVec 32)
  | x (val : BitVec 32)
  | llu (val : BitVec 64)
  | llx (val : BitVec 64)

namespace Piece

/-- How the part is written in a format. -/
def format : Piece → List Byte
  | .char c _ => [c]
  | .newline => [ch '\n']
  | .percent => [ch '%', ch '%']
  | .s _ => [ch '%', ch 's']
  | .u _ => [ch '%', ch 'u']
  | .x _ => [ch '%', ch 'x']
  | .llu _ => [ch '%', ch 'l', ch 'l', ch 'u']
  | .llx _ => [ch '%', ch 'l', ch 'l', ch 'x']

/-- What is to be printed for it. -/
def text : Piece → List Byte
  | .char c _ => [c]
  | .newline => [ch '\r', ch '\n']
  | .percent => [ch '%']
  | .s text => text.getD []
  | .u val => numeral 10 val.toNat
  | .x val => numeral 16 val.toNat
  | .llu val => numeral 10 val.toNat
  | .llx val => numeral 16 val.toNat

/-- A slot of the arguments holds the argument of the part. -/
def Passed (mem : Mem) (arg : Word) : Piece → Prop
  | .s none => arg = 0
  | .s (some text) => arg ≠ 0 ∧ StringAt mem arg.toNat text
  | .u val => arg.setWidth 32 = val
  | .x val => arg.setWidth 32 = val
  | .llu val => arg = val
  | .llx val => arg = val
  | _ => True

def directive : Piece → Directive
  | .char c _ => .char c
  | .newline => .char (ch '\n')
  | .percent => .percent
  | .s _ => .conv .str
  | .u _ => .conv .uint
  | .x _ => .conv .hex
  | .llu _ => .conv .longUint
  | .llx _ => .conv .longHex

private theorem directive_bytes (p : Piece) : p.directive.bytes = p.format := by cases p <;> rfl

private theorem directive_fits (p : Piece) (rest : List Byte) : p.directive.Fits rest := by
  cases p with
  | char c h => exact ⟨h.1, h.2.1⟩
  | newline => exact ⟨by decide, by decide⟩
  | _ => trivial

private theorem directive_ne_cut (p : Piece) : p.directive ≠ .cut := by
  cases p <;> exact Directive.noConfusion

theorem Passed.prints {mem : Mem} {arg : Word} {p : Piece} (h : p.Passed mem arg) :
    p.directive.Prints mem arg p.text := by
  cases p with
  | char c ordinary => exact (if_neg ordinary.2.2).symm
  | newline => rfl
  | percent => rfl
  | s text =>
    cases text with
    | none => exact .inl ⟨h, rfl⟩
    | some text => exact .inr h
  | u val => exact congrArg (fun v => numeral 10 v.toNat) h.symm
  | x val => exact congrArg (fun v => numeral 16 v.toNat) h.symm
  | llu val => exact congrArg (fun v => numeral 10 v.toNat) h.symm
  | llx val => exact congrArg (fun v => numeral 16 v.toNat) h.symm

end Piece

/-- The arguments of a sequence of parts are passed one after the other, the first in slot `n`. -/
def ArgsPassed (mem : Mem) (va : Nat → Word) : Nat → List Piece → Prop
  | _, [] => True
  | n, p :: ps => p.Passed mem (va n) ∧ ArgsPassed mem va (n + p.directive.arity) ps

variable {ps : List Piece} {n : Nat}

private theorem spell_pieces (ps : List Piece) :
    spell (ps.map Piece.directive) = ps.flatMap Piece.format := by
  induction ps with
  | nil => rfl
  | cons p ps ih => rw [List.map_cons, spell_cons, ih, p.directive_bytes, List.flatMap_cons]

private theorem wellFormed_pieces (ps : List Piece) : WellFormed (ps.map Piece.directive) := by
  induction ps with
  | nil => trivial
  | cons p ps ih => exact ⟨p.directive_fits _, ih⟩

private theorem cut_notMem_pieces (ps : List Piece) : .cut ∉ ps.map Piece.directive := by
  intro h
  obtain ⟨p, -, hp⟩ := List.mem_map.mp h
  exact p.directive_ne_cut hp

private theorem ArgsPassed.renders (h : ArgsPassed mem va n ps) :
    Renders mem va n (ps.map Piece.directive) (ps.flatMap Piece.text) := by
  induction ps generalizing n with
  | nil => exact .nil n
  | cons p ps ih => exact .cons h.1.prints (ih h.2)

/-- A whole call on a sequence of parts. -/
theorem vsnprintf_pieces (hfmt : BytesAt mem fmt (ps.flatMap Piece.format ++ [0]))
    (hargs : ArgsPassed mem va 0 ps) :
    ∃ fuel, Logged.Yields (Inside fmt (fmt + (ps.flatMap Piece.format).length))
      (vsnprintf mem va fuel fmt)
      (ps.flatMap Piece.text ++ [0], BitVec.ofNat 32 (ps.flatMap Piece.text).length) := by
  have hcall := vsnprintf_yields (spell_pieces ps ▸ hfmt) (wellFormed_pieces ps)
    (cut_notMem_pieces ps) hargs.renders
  rw [spell_pieces] at hcall
  exact hcall

/-- A length that is returned as an `int` is right below two gigabytes. -/
theorem toInt_ofNat_eq_iff (n : Nat) : (BitVec.ofNat 32 n).toInt = n ↔ n < 2 ^ 31 := by
  have hcond := BitVec.toInt_eq_toNat_cond (BitVec.ofNat 32 n)
  rw [BitVec.toNat_ofNat] at hcond
  constructor
  · intro h
    have hlt := BitVec.toInt_lt (x := BitVec.ofNat 32 n)
    omega
  · intro h
    split at hcond <;> omega

/-- **The formatter is correct on unsigned formats.** For every format of ordinary characters, newlines,
`%%`, strings and unsigned numbers, and all arguments, the call returns; it stores the texts of the
parts one after the other, and NUL, and nothing outside its digit buffers. What it returns is the
length exactly if that is below two gigabytes. -/
theorem unsigned_printed (hfmt : BytesAt mem fmt (ps.flatMap Piece.format ++ [0]))
    (hargs : ArgsPassed mem va 0 ps) :
    ∃ fuel length, (vsnprintf mem va fuel fmt).result = .ok (ps.flatMap Piece.text ++ [0], length) ∧
      (∀ size i, .tmp size i ∈ (vsnprintf mem va fuel fmt).log → i < size) ∧
      (length.toInt = (ps.flatMap Piece.text).length ↔ (ps.flatMap Piece.text).length < 2 ^ 31) := by
  obtain ⟨fuel, hres, hlog⟩ := vsnprintf_pieces hfmt hargs
  exact ⟨fuel, _, hres, fun size i h => hlog _ h, toInt_ofNat_eq_iff _⟩

theorem unsigned_printed_hex : ∃ fuel length,
    (vsnprintf (textMem [ch '%', ch 'x']) (fun _ => 0xff) fuel 0).result =
      .ok ([ch 'f', ch 'f', 0], length) ∧ length.toInt = 2 := by
  have hfmt : BytesAt (textMem [ch '%', ch 'x']) 0 ([Piece.x 0xff].flatMap Piece.format ++ [0]) :=
    ⟨rfl, rfl, rfl, trivial⟩
  have hargs : ArgsPassed (textMem [ch '%', ch 'x']) (fun _ => 0xff) 0 [Piece.x 0xff] :=
    ⟨rfl, trivial⟩
  obtain ⟨fuel, length, hres, -, hlength⟩ := unsigned_printed hfmt hargs
  have htext : [Piece.x 0xff].flatMap Piece.text = [ch 'f', ch 'f'] := by
    simp [Piece.text, numeral, digitByte, ch]
  rw [htext] at hres hlength
  exact ⟨fuel, length, hres, hlength.mpr (by decide)⟩

/-- A format of `n` letters. -/
def letters (n : Nat) : Mem := fun x => if x < n then ch 'a' else 0

private theorem letters_format :
    ∀ k a, a + k = n → BytesAt (letters n) a (List.replicate k (ch 'a') ++ [0]) := by
  intro k
  induction k with
  | zero => exact fun a ha => ⟨if_neg (by omega), trivial⟩
  | succ k ih => exact fun a ha => ⟨if_pos (by omega), ih (a + 1) (by omega)⟩

/-- The letters are printed, and their number is returned as an `int`. -/
theorem letters_printed (n : Nat) : ∃ fuel, (vsnprintf (letters n) (fun _ => 0) fuel 0).result =
    .ok (List.replicate n (ch 'a') ++ [0], BitVec.ofNat 32 n) := by
  have hchar : ch 'a' ≠ 0 ∧ ch 'a' ≠ ch '%' ∧ ch 'a' ≠ ch '\n' := by decide
  have hfmt : BytesAt (letters n) 0
      ((List.replicate n (Piece.char (ch 'a') hchar)).flatMap Piece.format ++ [0]) := by
    rw [List.flatMap_replicate]
    exact List.flatten_replicate_singleton.symm ▸ letters_format n 0 (Nat.zero_add n)
  have htext : (List.replicate n (Piece.char (ch 'a') hchar)).flatMap Piece.text =
      List.replicate n (ch 'a') := by
    rw [List.flatMap_replicate]
    exact List.flatten_replicate_singleton
  have hargs : ∀ k slot, ArgsPassed (letters n) (fun _ => 0) slot
      (List.replicate k (Piece.char (ch 'a') hchar)) := by
    intro k
    induction k with
    | zero => exact fun _ => trivial
    | succ k ih => exact fun slot => ⟨trivial, ih _⟩
  obtain ⟨fuel, hcall⟩ := vsnprintf_pieces hfmt (hargs n 0)
  have hres := hcall.result
  rw [htext, List.length_replicate] at hres
  exact ⟨fuel, hres⟩

/-- **The length of two gigabytes is returned as a negative number.** -/
theorem length_negative : BytesAt (letters (2 ^ 31)) 0 (List.replicate (2 ^ 31) (ch 'a') ++ [0]) ∧
    ∃ fuel length, (vsnprintf (letters (2 ^ 31)) (fun _ => 0) fuel 0).result =
        .ok (List.replicate (2 ^ 31) (ch 'a') ++ [0], length) ∧ length.toInt = -2 ^ 31 := by
  obtain ⟨fuel, hres⟩ := letters_printed (2 ^ 31)
  exact ⟨letters_format _ _ (Nat.zero_add _), fuel, _, hres, rfl⟩

/-! ## Signed numbers -/

/-- **`%d` prints numerals.** Wherever in a format it stands, what is printed for it is the canonical
decimal numeral of its argument, and is read back as that; and the negation does not overflow. So it
is for every number but the least. -/
theorem signed_iff (mem : Mem) (va : Nat → Word) (s : Printer) :
    (∃ fuel t, (conversion mem va fuel (ch 'd') s).result =
        .ok { s with out := s.out ++ t, args := s.args + 1 } ∧
      IsDecimal ((va s.args).setWidth 32).toInt t ∧
      parseInt t = some ((va s.args).setWidth 32).toInt ∧
      .overflow ∉ (conversion mem va fuel (ch 'd') s).log) ↔
    (va s.args).setWidth 32 ≠ BitVec.intMin 32 := by
  have hconv : ∀ fuel, conversion mem va fuel (ch 'd') s = convD va fuel s := fun _ => rfl
  constructor
  · intro h hmin
    obtain ⟨fuel, t, -, -, -, hlog⟩ := h
    rw [hconv] at hlog
    -- the negation comes before anything that could fail
    refine hlog ?_
    have hneg : ((va s.args).setWidth 32).slt 0 = true := by
      rw [hmin]
      decide
    unfold convD
    dsimp only
    rw [if_pos hneg]
    unfold negate
    rw [if_pos hmin]
    exact List.mem_cons_self
  · intro hmin
    have hcall : Logged.Yields (· ≠ Event.overflow) (convD va 21 s)
        { s.took with out := s.out ++ intText ((va s.args).setWidth 32) } :=
      convD_yields (by decide) (fun _ _ _ => Event.noConfusion) fun h => absurd h hmin
    have htext : intText ((va s.args).setWidth 32) = decimal ((va s.args).setWidth 32).toInt :=
      if_neg hmin
    rw [htext] at hcall
    exact ⟨21, _, hcall.result, isDecimal_decimal _, parseInt_decimal _,
      fun h => hcall.recorded _ h rfl⟩

theorem signed_minus_one : ∃ fuel t,
    (conversion (textMem []) (fun _ => 0xffffffff) fuel (ch 'd') ⟨0, [], 0⟩).result =
      .ok ⟨0, t, 1⟩ ∧ parseInt t = some (-1) := by
  obtain ⟨fuel, t, hres, -, hparse, -⟩ :=
    (signed_iff (textMem []) (fun _ => 0xffffffff) ⟨0, [], 0⟩).mpr (by decide)
  exact ⟨fuel, t, hres, hparse⟩

/-- **The least number is printed as a sign.** Its negation overflows. -/
theorem signed_intMin :
    (vsnprintf (textMem [ch '%', ch 'd']) (fun _ => 0x80000000) 3 0).result = .ok ([ch '-', 0], 1) ∧
    .overflow ∈ (vsnprintf (textMem [ch '%', ch 'd']) (fun _ => 0x80000000) 3 0).log ∧
    parseInt [ch '-'] = none := by
  decide +kernel

end Logger

end TwoKernel
