import TwoKernel.Laws.Util.Digits

/-!
# The language of formats

What a format is for `vsnprintf`, apart from how it goes through one. A format is a
sequence of directives: characters that stand for themselves, conversions, and what
the `switch` makes of everything else that follows a `%`. `%l` that is not `%ll`
prints nothing, and so does `%ll` before another character than `x` and `u`. At the
end of the format a conversion may be incomplete: a lone `%` prints itself; `cut` is
the `%ll` after which the format ends.

`spell` is the format of a sequence of directives. Every text without NUL is spelled
by exactly the directives that `directives` finds in it (`spell_directives`,
`wellFormed_directives`). `Renders` says what a sequence prints from given arguments.
-/

namespace TwoKernel

open ByteMem Numerals

namespace Logger

/-- The conversions that take an argument. -/
inductive Conv where
  | str | int | uint | hex | longUint | longHex
  deriving DecidableEq

inductive Directive where
  /-- A character other than `%`. -/
  | char (c : Byte)
  | conv (k : Conv)
  /-- `%%`. -/
  | percent
  /-- `%` and a character that it knows nothing about. -/
  | other (c : Byte)
  /-- `%l`. -/
  | bare
  /-- `%ll` and a character that it knows nothing about. -/
  | longOther (c : Byte)
  /-- `%`, at the end. -/
  | lone
  /-- `%ll`, at the end. -/
  | cut
  deriving DecidableEq

def Conv.bytes : Conv → List Byte
  | .str => [ch '%', ch 's']
  | .int => [ch '%', ch 'd']
  | .uint => [ch '%', ch 'u']
  | .hex => [ch '%', ch 'x']
  | .longUint => [ch '%', ch 'l', ch 'l', ch 'u']
  | .longHex => [ch '%', ch 'l', ch 'l', ch 'x']

def Directive.bytes : Directive → List Byte
  | .char c => [c]
  | .conv k => k.bytes
  | .percent => [ch '%', ch '%']
  | .other c => [ch '%', c]
  | .bare => [ch '%', ch 'l']
  | .longOther c => [ch '%', ch 'l', ch 'l', c]
  | .lone => [ch '%']
  | .cut => [ch '%', ch 'l', ch 'l']

/-- The format of a sequence of directives. -/
def spell (ds : List Directive) : List Byte := ds.flatMap Directive.bytes

@[simp] theorem spell_cons (d : Directive) (ds : List Directive) :
    spell (d :: ds) = d.bytes ++ spell ds := rfl

/-- The directive is what is read where `rest` follows. -/
def Directive.Fits (rest : List Byte) : Directive → Prop
  | .char c => c ≠ 0 ∧ c ≠ ch '%'
  | .conv _ => True
  | .percent => True
  | .other c => c ≠ 0 ∧ c ≠ ch 's' ∧ c ≠ ch 'd' ∧ c ≠ ch 'u' ∧ c ≠ ch 'x' ∧ c ≠ ch 'l' ∧ c ≠ ch '%'
  | .bare => rest.head? ≠ some (ch 'l')
  | .longOther c => c ≠ 0 ∧ c ≠ ch 'x' ∧ c ≠ ch 'u'
  | .lone => rest = []
  | .cut => rest = []

/-- Every directive is what is read in its place. -/
def WellFormed : List Directive → Prop
  | [] => True
  | d :: ds => d.Fits (spell ds) ∧ WellFormed ds

/-! ## Reading a format -/

/-- The directive of `%` and a character other than `l`. -/
def shortDirective (c : Byte) : Directive :=
  if c = ch 's' then .conv .str
  else if c = ch 'd' then .conv .int
  else if c = ch 'u' then .conv .uint
  else if c = ch 'x' then .conv .hex
  else if c = ch '%' then .percent
  else .other c

/-- The directive of `%ll` and a character. -/
def longDirective (c : Byte) : Directive :=
  if c = ch 'x' then .conv .longHex
  else if c = ch 'u' then .conv .longUint
  else .longOther c

/-- The directive at the start of a format that starts with `c`, and what follows it. -/
def readDirective (c : Byte) (l : List Byte) : Directive × List Byte :=
  if c ≠ ch '%' then (.char c, l)
  else match l with
    | [] => (.lone, [])
    | d :: l =>
      if d ≠ ch 'l' then (shortDirective d, l)
      else match l with
        | [] => (.bare, [])
        | e :: l =>
          if e ≠ ch 'l' then (.bare, e :: l)
          else match l with
            | [] => (.cut, [])
            | f :: l => (longDirective f, l)

/-- The directives of a format of at most so many characters. -/
def directivesOf : Nat → List Byte → List Directive
  | 0, _ => []
  | _ + 1, [] => []
  | n + 1, c :: l => (readDirective c l).1 :: directivesOf n (readDirective c l).2

/-- The directives of a format. -/
def directives (l : List Byte) : List Directive := directivesOf l.length l

/-- What is read where `rest` follows, in a format without NUL. -/
structure Reads (d : Directive) (rest l : List Byte) : Prop where
  bytes : d.bytes ++ rest = l
  fits : 0 ∉ l → d.Fits rest

private theorem shortDirective_reads {c : Byte} (hc : c ≠ ch 'l') (rest : List Byte) :
    Reads (shortDirective c) rest (ch '%' :: c :: rest) := by
  unfold shortDirective
  split_ifs with hs hd hu hx hp
  · exact ⟨by rw [hs]; rfl, fun _ => trivial⟩
  · exact ⟨by rw [hd]; rfl, fun _ => trivial⟩
  · exact ⟨by rw [hu]; rfl, fun _ => trivial⟩
  · exact ⟨by rw [hx]; rfl, fun _ => trivial⟩
  · exact ⟨by rw [hp]; rfl, fun _ => trivial⟩
  · refine ⟨rfl, fun hnul => ⟨?_, hs, hd, hu, hx, hc, hp⟩⟩
    rintro rfl
    exact hnul (by simp)

private theorem longDirective_reads (c : Byte) (rest : List Byte) :
    Reads (longDirective c) rest (ch '%' :: ch 'l' :: ch 'l' :: c :: rest) := by
  unfold longDirective
  split_ifs with hx hu
  · exact ⟨by rw [hx]; rfl, fun _ => trivial⟩
  · exact ⟨by rw [hu]; rfl, fun _ => trivial⟩
  · refine ⟨rfl, fun hnul => ⟨?_, hx, hu⟩⟩
    rintro rfl
    exact hnul (by simp)

private theorem readDirective_reads (c : Byte) (l : List Byte) :
    Reads (readDirective c l).1 (readDirective c l).2 (c :: l) := by
  unfold readDirective
  by_cases hc : c = ch '%'
  · rw [if_neg (not_not_intro hc), hc]
    cases l with
    | nil => exact ⟨rfl, fun _ => rfl⟩
    | cons d l =>
      by_cases hd : d = ch 'l'
      · dsimp only
        rw [if_neg (not_not_intro hd), hd]
        cases l with
        | nil => exact ⟨rfl, fun _ => (Option.some_ne_none _).symm⟩
        | cons e l =>
          by_cases he : e = ch 'l'
          · dsimp only
            rw [if_neg (not_not_intro he), he]
            cases l with
            | nil => exact ⟨rfl, fun _ => rfl⟩
            | cons f l => exact longDirective_reads f l
          · dsimp only
            rw [if_pos he]
            exact ⟨rfl, fun _ h => he (Option.some.inj h)⟩
      · dsimp only
        rw [if_pos hd]
        exact shortDirective_reads hd l
  · rw [if_pos hc]
    refine ⟨rfl, fun hnul => ⟨?_, hc⟩⟩
    rintro rfl
    exact hnul List.mem_cons_self

theorem Directive.bytes_ne_nil (d : Directive) : d.bytes ≠ [] := by
  cases d with
  | conv k => cases k <;> exact List.cons_ne_nil _ _
  | _ => exact List.cons_ne_nil _ _

private theorem directivesOf_reads (n : Nat) (l : List Byte) (hn : l.length ≤ n) :
    spell (directivesOf n l) = l ∧ (0 ∉ l → WellFormed (directivesOf n l)) := by
  induction n generalizing l with
  | zero =>
    rw [List.length_eq_zero_iff.mp (Nat.le_zero.mp hn)]
    exact ⟨rfl, fun _ => trivial⟩
  | succ n ih =>
    cases l with
    | nil => exact ⟨rfl, fun _ => trivial⟩
    | cons c l =>
      obtain ⟨hbytes, hfits⟩ := readDirective_reads c l
      have hpos := List.length_pos_iff.mpr (readDirective c l).1.bytes_ne_nil
      have hlen := congrArg List.length hbytes
      rw [List.length_append] at hlen
      rw [List.length_cons] at hlen hn
      obtain ⟨hspell, hwf⟩ := ih (readDirective c l).2 (by omega)
      unfold directivesOf
      rw [spell_cons, hspell]
      refine ⟨hbytes, fun hnul => ⟨hspell.symm ▸ hfits hnul, hwf fun h => hnul ?_⟩⟩
      rw [← hbytes]
      exact List.mem_append_right _ h

/-- A format is its directives, spelled out. -/
theorem spell_directives (l : List Byte) : spell (directives l) = l :=
  (directivesOf_reads l.length l le_rfl).1

/-- They are well formed. -/
theorem wellFormed_directives {l : List Byte} (h : 0 ∉ l) : WellFormed (directives l) :=
  (directivesOf_reads l.length l le_rfl).2 h

/-! ## Strings in memory -/

/-- The bytes at an address. -/
def BytesAt (mem : Mem) : Nat → List Byte → Prop
  | _, [] => True
  | a, c :: l => mem a = c ∧ BytesAt mem (a + 1) l

/-- The string at an address: its characters, and NUL. -/
structure StringAt (mem : Mem) (a : Nat) (l : List Byte) : Prop where
  bytes : BytesAt mem a (l ++ [0])
  noNul : 0 ∉ l

variable {mem : Mem} {a : Nat} {l l' : List Byte}

/-- Bytes in a row are in memory part by part. -/
theorem bytesAt_append : BytesAt mem a (l ++ l') ↔ BytesAt mem a l ∧ BytesAt mem (a + l.length) l' := by
  induction l generalizing a with
  | nil => exact ⟨fun h => ⟨trivial, h⟩, fun h => h.2⟩
  | cons c l ih =>
    rw [List.cons_append, BytesAt, BytesAt, ih, List.length_cons, and_assoc, Nat.add_right_comm,
      Nat.add_assoc]

/-! ## What is printed -/

/-- What a conversion prints, from a slot of the arguments. -/
def Conv.Prints (mem : Mem) (arg : Word) : Conv → List Byte → Prop
  | .str, t => arg = 0 ∧ t = [] ∨ arg ≠ 0 ∧ StringAt mem arg.toNat t
  | .int, t => t = intText (arg.setWidth 32)
  | .uint, t => t = numeral 10 (arg.setWidth 32).toNat
  | .hex, t => t = numeral 16 (arg.setWidth 32).toNat
  | .longUint, t => t = numeral 10 arg.toNat
  | .longHex, t => t = numeral 16 arg.toNat

/-- What a directive prints. -/
def Directive.Prints (mem : Mem) (arg : Word) : Directive → List Byte → Prop
  | .char c, t => t = if c = ch '\n' then [ch '\r', c] else [c]
  | .conv k, t => k.Prints mem arg t
  | .percent, t => t = [ch '%']
  | .other c, t => t = [ch '%', c]
  | .bare, t => t = []
  | .longOther _, t => t = []
  | .lone, t => t = [ch '%']
  | .cut, t => t = []

/-- How many arguments a directive takes. -/
def Directive.arity : Directive → Nat
  | .conv _ => 1
  | _ => 0

/-- What a sequence of directives prints, if `n` arguments have been taken before. -/
inductive Renders (mem : Mem) (va : Nat → Word) : Nat → List Directive → List Byte → Prop
  | nil (n : Nat) : Renders mem va n [] []
  | cons {n : Nat} {d : Directive} {ds : List Directive} {t t' : List Byte}
      (hd : d.Prints mem (va n) t) (hds : Renders mem va (n + d.arity) ds t') :
      Renders mem va n (d :: ds) (t ++ t')

/-- The arguments match the directives: a pointer that is printed as a string is null or points to a
string. The other conversions take any value. -/
def Matching (mem : Mem) (va : Nat → Word) : Nat → List Directive → Prop
  | _, [] => True
  | n, d :: ds => (d = .conv .str → va n = 0 ∨ ∃ t, StringAt mem (va n).toNat t) ∧
    Matching mem va (n + d.arity) ds

/-- Matching arguments are printed. -/
theorem Matching.renders {va : Nat → Word} {n : Nat} {ds : List Directive} (h : Matching mem va n ds) :
    ∃ t, Renders mem va n ds t := by
  induction ds generalizing n with
  | nil => exact ⟨[], .nil n⟩
  | cons d ds ih =>
    obtain ⟨hstr, hrest⟩ := h
    obtain ⟨t', ht'⟩ := ih hrest
    have hd : ∃ t, d.Prints mem (va n) t := by
      cases d with
      | conv k =>
        cases k with
        | str =>
          by_cases hnull : va n = 0
          · exact ⟨[], .inl ⟨hnull, rfl⟩⟩
          · obtain ⟨t, ht⟩ := (hstr rfl).resolve_left hnull
            exact ⟨t, .inr ⟨hnull, ht⟩⟩
        | _ => exact ⟨_, rfl⟩
      | _ => exact ⟨_, rfl⟩
    obtain ⟨t, ht⟩ := hd
    exact ⟨t ++ t', .cons ht ht'⟩

end Logger

end TwoKernel
