import Mathlib.Data.List.GetD
import Mathlib.Logic.Function.Basic

/-!
# A character terminal, from outside

`View` is what can be seen of a terminal, and where its cursor is. `Emulator` is a terminal of which
nothing else is known. Its laws are what the documentation of terminals says about a printable
character and three control characters: a character is put where the cursor is, which then moves on;
a backspace moves the cursor back and erases nothing; a carriage return moves it to the first column;
and a line feed moves it down, to a blank row if there is none, and then rows may leave at the top.

Terminals differ in the last column, and in the column after a line feed. So the laws say
nothing of a character in the last column, nor of a line feed in any column but the first.

`Typed` is a row with a text in it and the cursor at its end. The three laws of a line editor are
that a text that fits is shown as it is (`print_typed`), that a backspace, a space and a backspace take
the last character of it away (`print_erase`), and that a carriage return and a line feed begin a row
(`print_newline`).
-/

namespace TwoKernel

structure View where
  above : List (Nat → Char)
  row : Nat → Char
  below : List (Nat → Char)
  column : Nat

namespace View

/-- The cells of a row with a text at its beginning. -/
def cells (text : List Char) (i : Nat) : Char := text.getD i ' '

/-- A character is put where the cursor is. -/
def write (v : View) (c : Char) : View :=
  { v with row := Function.update v.row v.column c, column := v.column + 1 }

/-- The cursor has gone down a row from the first column of `v`. -/
structure Feeds (v v' : View) : Prop where
  above : v'.above <:+ v.above ++ [v.row]
  rows : v.below = v'.row :: v'.below ∨ v.below = [] ∧ v'.row = cells [] ∧ v'.below = []
  column : v'.column = 0

variable {text : List Char} {c : Char}

private theorem cells_concat : Function.update (cells text) text.length c = cells (text ++ [c]) := by
  funext i
  unfold cells
  rcases Nat.lt_trichotomy i text.length with hi | rfl | hi
  · rw [Function.update_of_ne (Nat.ne_of_lt hi), List.getD_append _ _ _ _ hi]
  · rw [Function.update_self, List.getD_append_right _ _ _ _ (Nat.le_refl _), Nat.sub_self]
    rfl
  · have hout : ∀ l : List Char, l.length ≤ i → l.getD i ' ' = ' ' := fun l hl =>
      List.getD_eq_default _ _ hl
    rw [Function.update_of_ne (Nat.ne_of_gt hi), hout _ (Nat.le_of_lt hi), hout]
    rw [List.length_append, List.length_singleton]
    exact hi

private theorem cells_erase : Function.update (cells (text ++ [c])) text.length ' ' = cells text := by
  rw [← cells_concat, Function.update_idem]
  funext i
  by_cases hi : i = text.length
  · rw [hi, Function.update_self]
    exact (List.getD_eq_default _ _ (Nat.le_refl _)).symm
  · rw [Function.update_of_ne hi]

end View

/-- A character that is shown. -/
def Printable (c : Char) : Prop := ' ' ≤ c ∧ c ≤ '~'

instance (c : Char) : Decidable (Printable c) := inferInstanceAs (Decidable (_ ∧ _))

/-- A terminal of so many columns, with states of any kind. -/
structure Emulator (columns : Nat) (σ : Type) where
  put : σ → Char → σ
  view : σ → View
  printable : ∀ s c, Printable c → (view s).column + 1 < columns → view (put s c) = (view s).write c
  backspace : ∀ s, (view s).column ≠ 0 →
    view (put s '\x08') = { view s with column := (view s).column - 1 }
  carriageReturn : ∀ s, view (put s '\r') = { view s with column := 0 }
  lineFeed : ∀ s, (view s).column = 0 → (view s).Feeds (view (put s '\n'))

namespace Emulator

open View

variable {columns : Nat} {σ : Type} (T : Emulator columns σ) {history : List (Nat → Char)}
  {text text' : List Char} {c : Char} {s : σ}

def print (text : List Char) (s : σ) : σ := text.foldl T.put s

/-- A text in the row of the cursor, with the cursor at its end. The rows above are the last ones of
`history`, and those below are blank. -/
structure Typed (history : List (Nat → Char)) (text : List Char) (s : σ) : Prop where
  row : (T.view s).row = cells text
  column : (T.view s).column = text.length
  above : (T.view s).above <:+ history
  below : ∀ r ∈ (T.view s).below, r = cells []

theorem print_append : T.print (text ++ text') s = T.print text' (T.print text s) :=
  List.foldl_append

variable {T}

theorem Typed.put (h : T.Typed history text s) (hc : Printable c) (hfit : text.length + 1 < columns) :
    T.Typed history (text ++ [c]) (T.put s c) := by
  have hview : T.view (T.put s c) = (T.view s).write c := by
    apply T.printable s c hc
    rw [h.column]
    exact hfit
  refine ⟨?_, ?_, ?_, ?_⟩
  · rw [hview]
    show Function.update (T.view s).row (T.view s).column c = _
    rw [h.row, h.column, cells_concat]
  · rw [hview, List.length_append]
    exact congrArg (· + 1) h.column
  · rw [hview]
    exact h.above
  · rw [hview]
    exact h.below

/-- **A text that fits is shown as it is.** -/
theorem print_typed (h : T.Typed history text s) (hprintable : ∀ c ∈ text', Printable c)
    (hfit : text.length + text'.length < columns) :
    T.Typed history (text ++ text') (T.print text' s) := by
  induction text' generalizing text s with
  | nil =>
    rw [List.append_nil]
    exact h
  | cons c text' ih =>
    rw [List.length_cons] at hfit
    have hput : T.Typed history (text ++ [c]) (T.put s c) :=
      h.put (hprintable c List.mem_cons_self) (by omega)
    have hrest : T.Typed history (text ++ [c] ++ text') (T.print text' (T.put s c)) := by
      refine ih hput (fun c hc => hprintable c (List.mem_cons_of_mem _ hc)) ?_
      rw [List.length_append, List.length_singleton]
      omega
    rw [List.append_assoc] at hrest
    exact hrest

/-- **Backspace, space, backspace** take the last character away. -/
theorem print_erase (h : T.Typed history (text ++ [c]) s) (hfit : text.length + 1 < columns) :
    T.Typed history text (T.print ['\x08', ' ', '\x08'] s) := by
  have hcolumn : (T.view s).column = text.length + 1 := by
    rw [h.column, List.length_append]
    rfl
  have hback : T.view (T.put s '\x08') = { T.view s with column := text.length } := by
    rw [T.backspace s (by omega), hcolumn]
    rfl
  have hblank : T.view (T.put (T.put s '\x08') ' ') =
      { T.view s with row := cells text, column := text.length + 1 } := by
    have hroom : (T.view (T.put s '\x08')).column + 1 < columns := by
      rw [hback]
      exact hfit
    rw [T.printable _ ' ' (by decide) hroom, hback]
    unfold View.write
    dsimp only
    rw [h.row, cells_erase]
  have hagain : T.view (T.print ['\x08', ' ', '\x08'] s) =
      { T.view s with row := cells text, column := text.length } := by
    show T.view (T.put (T.put (T.put s '\x08') ' ') '\x08') = _
    rw [T.backspace, hblank]
    · rfl
    · rw [hblank]
      exact Nat.succ_ne_zero _
  refine ⟨?_, ?_, ?_, ?_⟩ <;> rw [hagain]
  · exact h.above
  · exact h.below

/-- **Carriage return, line feed** begin a row. -/
theorem print_newline (h : T.Typed history text s) :
    T.Typed (history ++ [cells text]) [] (T.print ['\r', '\n'] s) := by
  have hreturn := T.carriageReturn s
  have hfeeds := T.lineFeed (T.put s '\r') (by rw [hreturn])
  rw [hreturn] at hfeeds
  refine ⟨?_, hfeeds.column, ?_, ?_⟩
  · rcases hfeeds.rows with hrows | ⟨-, hrow, -⟩
    · exact h.below _ (hrows ▸ List.mem_cons_self)
    · exact hrow
  · have habove := hfeeds.above
    dsimp only at habove
    rw [h.row] at habove
    obtain ⟨before, hbefore⟩ := h.above
    rw [← hbefore, List.append_assoc]
    exact habove.trans (List.suffix_append _ _)
  · intro r hr
    rcases hfeeds.rows with hrows | ⟨-, -, hbelow⟩
    · exact h.below r (hrows ▸ List.mem_cons_of_mem _ hr)
    · have hr : r ∈ (T.view (T.put (T.put s '\r') '\n')).below := hr
      rw [hbelow] at hr
      cases hr

end Emulator

/-! ## A terminal -/

namespace View

/-- Down a row, of `rows` on the screen. -/
def feed (rows : Nat) (v : View) : View :=
  match v.below with
  | [] => ⟨(v.above ++ [v.row]).drop (v.above.length + 2 - rows), cells [], [], v.column⟩
  | r :: below => ⟨v.above ++ [v.row], r, below, v.column⟩

def put (rows columns : Nat) (v : View) (c : Char) : View :=
  if c = '\n' then v.feed rows
  else if c = '\r' then { v with column := 0 }
  else if c = '\x08' then { v with column := v.column - 1 }
  else if v.column + 1 < columns then v.write c
  else { (v.write c).feed rows with column := 0 }

private theorem put_printable {rows columns : Nat} {v : View} {c : Char} (hc : Printable c)
    (hroom : v.column + 1 < columns) : v.put rows columns c = v.write c := by
  have hcontrol : ∀ d : Char, d < ' ' → c ≠ d := by
    rintro d hd rfl
    exact absurd (Nat.lt_of_lt_of_le hd hc.1) (Nat.lt_irrefl _)
  unfold put
  rw [if_neg (hcontrol _ (by decide)), if_neg (hcontrol _ (by decide)), if_neg (hcontrol _ (by decide)),
    if_pos hroom]

private theorem feed_feeds {rows : Nat} {v : View} (h : v.column = 0) : v.Feeds (v.feed rows) := by
  unfold feed
  split
  · next hbelow => exact ⟨List.drop_suffix _ _, .inr ⟨hbelow, rfl, rfl⟩, h⟩
  · next r below hbelow => exact ⟨List.suffix_refl _, .inl hbelow, h⟩

end View

/-- A screen of `rows` that scrolls, and wraps in the last column. -/
def Emulator.scrolling (rows columns : Nat) : Emulator columns View where
  put := View.put rows columns
  view := id
  printable _ _ hc hroom := View.put_printable hc hroom
  backspace _ _ := rfl
  carriageReturn _ := rfl
  lineFeed _ h := View.feed_feeds h

end TwoKernel
