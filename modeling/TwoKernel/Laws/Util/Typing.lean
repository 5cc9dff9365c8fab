import TwoKernel.Laws.Util.Formatter
import TwoKernel.Laws.Util.Terminal
import TwoKernel.Lib.Display

/-!
# What is typed is what is shown

The whole way of a key: bytes arrive in the interrupt handler, which decodes them and
queues the presses; the thread of the terminal takes a press out of the queue and
writes an echo; the echo goes to a terminal. `Editor` is what all of it is for, a line
that is typed, corrected and entered. It knows nothing of queues, echoes and columns.

**The law** (`typed_shown`): however the interrupts and the steps of the thread fall,
the terminal shows the lines of the editor after the presses that were echoed so far.
These are the first of those the bytes say. The next is the one the thread has in hand,
and the rest is in the queue, in order.

So a `Backspace` never reaches the prompt or the row above, though its echo knows of
neither: the limit that `Input()` computes leaves a column free, and no row is ever
filled.

The terminal behind `flanterm_write` is not part of the source. It is any `Emulator` of
`Lib.Display`, that is, one of the documented behaviour, in the state that `welcome` leaves: a
prompt, with blank rows below. What is above stays as it is. `echo_klog` says that the echoes of
`Enter` and `Backspace` are what `vsnprintf` makes of the formats in the source.
-/

namespace TwoKernel.Terminal

open Ps2

/-! ## The editor -/

/-- The lines that were entered, and the one that is being typed. -/
structure Editor where
  entered : List (List Char) := []
  line : List Char := []

namespace Editor

def press (limit : Nat) (e : Editor) (key : ScanCode) : Editor :=
  if key = 0x1C ∨ key = 0x9C then ⟨e.entered ++ [e.line], []⟩
  else if key = 0x0E then { e with line := e.line.dropLast }
  else
    match keymap[key.toNat]? with
    | some c => if c ≠ '\x00' ∧ e.line.length < limit then { e with line := e.line ++ [c] } else e
    | none => e

/-- A line no longer than `limit`, after some presses. -/
def edit (limit : Nat) (keys : List ScanCode) : Editor := keys.foldl (press limit) {}

/-- How it is to look, under the rows `top`: a prompt before each line, and the cursor at the end of
the last. -/
def Shown {columns : Nat} {σ : Type} (T : Emulator columns σ) (top : List (Nat → Char)) (e : Editor) :
    σ → Prop :=
  T.Typed (top ++ e.entered.map fun line => View.cells (prompt.toList ++ line))
    (prompt.toList ++ e.line)

end Editor

/-- The press that the thread has in hand. -/
def Reader.pending : Reader → List ScanCode
  | .leave key | .echo key => [key]
  | _ => []

/-- The runs on a screen of so many columns. -/
def Console.on (columns : Word) : System Console Event :=
  .guarded (fun x => ∃ keyboard, keyboard.stateMachine = .none ∧ keyboard.data.isEmpty = true ∧
    keyboard.data.size = 0 ∧ x = { keyboard := keyboard, input := Input.new columns })
    Console.Allowed Console.next

variable {columns : Word} {input : Input} {e : Editor} {key : ScanCode} {x x' : Console}
  {event : Event} {typed : List ScanCode}

/-! ## One key -/

/-- The characters of the keys that have one. -/
theorem keymap_printable : ∀ c ∈ keymap, c ≠ '\x00' → Printable c := by
  have hall : keymap.all (fun c => decide (c ≠ '\x00' → Printable c)) = true := by decide
  exact fun c hc => of_decide_eq_true (List.all_eq_true.mp hall c hc)

private theorem prompt_printable : ∀ c ∈ prompt.toList, Printable c := by
  have hall : prompt.toList.all (fun c => decide (Printable c)) = true := by decide
  exact fun c hc => of_decide_eq_true (List.all_eq_true.mp hall c hc)

private theorem prompt_length : prompt.toList.length = 7 := rfl

/-- The bytes of a text. -/
def bytesOf (text : String) : List Byte := text.toList.map Logger.ch

/-- **The echoes are what `klog` writes**: `"\n%s"` with the prompt, and `"\b \b"`. -/
theorem echo_klog {mem : ByteMem.Mem} {va : Nat → Word} {fmt : Nat} :
    (Logger.BytesAt mem fmt (bytesOf "\n%s" ++ [0]) → va 0 ≠ 0 →
      Logger.StringAt mem (va 0).toNat (bytesOf prompt) → ∃ fuel,
        (Logger.vsnprintf mem va fuel fmt).result = .ok (bytesOf (input.echo 0x1C).1 ++ [0], 9)) ∧
    (Logger.BytesAt mem fmt (bytesOf "\x08 \x08" ++ [0]) → input.length ≠ 0 → ∃ fuel,
        (Logger.vsnprintf mem va fuel fmt).result = .ok (bytesOf (input.echo 0x0E).1 ++ [0], 3)) := by
  constructor
  · intro hfmt hva hprompt
    let pieces : List Logger.Piece := [.newline, .s (some (bytesOf prompt))]
    have hformat : Logger.BytesAt mem fmt (pieces.flatMap Logger.Piece.format ++ [0]) := hfmt
    have hargs : Logger.ArgsPassed mem va 0 pieces := ⟨trivial, ⟨hva, hprompt⟩, trivial⟩
    obtain ⟨fuel, hcall⟩ := Logger.vsnprintf_pieces hformat hargs
    have hecho : (input.echo 0x1C).1 = "\r\n" ++ prompt := by
      unfold Input.echo
      rw [if_pos (.inl rfl)]
    rw [hecho]
    exact ⟨fuel, hcall.result⟩
  · intro hfmt hlength
    have hback : Logger.ch '\x08' ≠ 0 ∧ Logger.ch '\x08' ≠ Logger.ch '%' ∧
        Logger.ch '\x08' ≠ Logger.ch '\n' := by decide
    have hspace : Logger.ch ' ' ≠ 0 ∧ Logger.ch ' ' ≠ Logger.ch '%' ∧
        Logger.ch ' ' ≠ Logger.ch '\n' := by decide
    let pieces : List Logger.Piece := [.char _ hback, .char _ hspace, .char _ hback]
    have hformat : Logger.BytesAt mem fmt (pieces.flatMap Logger.Piece.format ++ [0]) := hfmt
    have hargs : Logger.ArgsPassed mem va 0 pieces := ⟨trivial, trivial, trivial, trivial⟩
    obtain ⟨fuel, hcall⟩ := Logger.vsnprintf_pieces hformat hargs
    have hecho : (input.echo 0x0E).1 = "\x08 \x08" := by
      unfold Input.echo
      rw [if_neg (by decide), if_pos rfl, if_pos hlength]
    rw [hecho]
    exact ⟨fuel, hcall.result⟩

section keys

variable {n : Nat} {σ : Type} {T : Emulator n σ} {top : List (Nat → Char)} {s : σ}

/-- The thread's record of the line agrees with the editor, and the line fits the row. -/
structure Input.Follows (columns : Nat) (input : Input) (e : Editor) : Prop where
  length : input.length.toNat = e.line.length
  limit : input.limit.toNat + 8 ≤ columns
  fits : e.line.length ≤ input.limit.toNat

private theorem enter_shown (h : input.Follows n e) (hs : e.Shown T top s) :
    Editor.Shown T top ⟨e.entered ++ [e.line], []⟩ (T.print ("\r\n" ++ prompt).toList s) ∧
      Input.Follows n { input with length := 0 } ⟨e.entered ++ [e.line], []⟩ := by
  have hlimit := h.limit
  refine ⟨?_, rfl, hlimit, Nat.zero_le _⟩
  have htext : ("\r\n" ++ prompt).toList = ['\r', '\n'] ++ prompt.toList := rfl
  have hprompt := Emulator.print_typed (Emulator.print_newline hs) prompt_printable (by
    rw [List.length_nil, prompt_length]
    omega)
  rw [List.nil_append, List.append_assoc] at hprompt
  unfold Editor.Shown
  rw [htext, Emulator.print_append, List.map_append, List.append_nil]
  exact hprompt

private theorem backspace_shown {c : Char} {line : List Char} (h : input.Follows n e)
    (hline : e.line = line ++ [c]) (hs : e.Shown T top s) :
    Editor.Shown T top { e with line := line } (T.print "\x08 \x08".toList s) ∧
      Input.Follows n { input with length := input.length - 1 } { e with line := line } := by
  have hlen := h.length
  have hlimit := h.limit
  have hfits := h.fits
  rw [hline, List.length_append, List.length_singleton] at hlen hfits
  refine ⟨?_, ?_, hlimit, Nat.le_of_succ_le hfits⟩
  · have htext : "\x08 \x08".toList = ['\x08', ' ', '\x08'] := rfl
    unfold Editor.Shown at hs
    rw [hline, ← List.append_assoc] at hs
    rw [htext]
    refine Emulator.print_erase hs ?_
    rw [List.length_append, prompt_length]
    dsimp only
    omega
  · show (input.length - 1).toNat = line.length
    bv_omega

private theorem char_shown {c : Char} (h : input.Follows n e) (hc : Printable c)
    (hroom : e.line.length < input.limit.toNat) (hs : e.Shown T top s) :
    Editor.Shown T top { e with line := e.line ++ [c] } (T.print c.toString.toList s) ∧
      Input.Follows n { input with length := input.length + 1 } { e with line := e.line ++ [c] } := by
  have hlen := h.length
  have hlimit := h.limit
  have hmax := input.limit.isLt
  refine ⟨?_, ?_, hlimit, ?_⟩
  · have htext : c.toString.toList = [c] := by simp
    have hput := Emulator.Typed.put hs hc (by
      rw [List.length_append, prompt_length]
      omega)
    rw [List.append_assoc] at hput
    rw [htext]
    exact hput
  · show (input.length + 1).toNat = (e.line ++ [c]).length
    rw [List.length_append, List.length_singleton]
    bv_omega
  · show (e.line ++ [c]).length ≤ input.limit.toNat
    rw [List.length_append]
    exact hroom

/-- **An echo** makes the terminal show what the key does to the line. -/
theorem echo_shown (h : input.Follows n e) (hs : e.Shown T top s) (key : ScanCode) :
    (e.press input.limit.toNat key).Shown T top (T.print (input.echo key).1.toList s) ∧
      (input.echo key).2.Follows n (e.press input.limit.toNat key) ∧
      (input.echo key).2.limit = input.limit := by
  have hlen := h.length
  -- where nothing is shown, nothing happens to the line
  have hsame : e.Shown T top (T.print "".toList s) ∧ input.Follows n e ∧ input.limit = input.limit :=
    ⟨hs, h, rfl⟩
  unfold Input.echo Editor.press
  by_cases henter : key = 0x1C ∨ key = 0x9C
  · rw [if_pos henter, if_pos henter]
    obtain ⟨hpage, hfollows⟩ := enter_shown h hs
    exact ⟨hpage, hfollows, rfl⟩
  · rw [if_neg henter, if_neg henter]
    by_cases hback : key = 0x0E
    · rw [if_pos hback, if_pos hback]
      -- the thread knows only the length of the line, the editor only its characters
      rcases List.eq_nil_or_concat e.line with hnil | ⟨line, c, hline⟩
      · have hzero : ¬ input.length ≠ 0 := not_not.mpr (BitVec.eq_of_toNat_eq (by rw [hlen, hnil]; rfl))
        rw [if_neg hzero, hnil, List.dropLast_nil, ← hnil]
        exact hsame
      · rw [List.concat_eq_append] at hline
        have hpos : input.length ≠ 0 := by
          intro hz
          rw [hz, hline, List.length_append] at hlen
          cases hlen
        rw [if_pos hpos, hline, List.dropLast_concat]
        obtain ⟨hpage, hfollows⟩ := backspace_shown h hline hs
        exact ⟨hpage, hfollows, rfl⟩
    · rw [if_neg hback, if_neg hback]
      cases hmap : keymap[key.toNat]? with
      | none => exact hsame
      | some c =>
        have hroom : input.length < input.limit ↔ e.line.length < input.limit.toNat := by
          rw [BitVec.lt_def, hlen]
        simp only [hroom]
        by_cases hc : c ≠ '\x00' ∧ e.line.length < input.limit.toNat
        · rw [if_pos hc, if_pos hc]
          obtain ⟨hpage, hfollows⟩ :=
            char_shown h (keymap_printable c (List.mem_of_getElem? hmap) hc.1) hc.2 hs
          exact ⟨hpage, hfollows, rfl⟩
        · rw [if_neg hc, if_neg hc]
          exact hsame

end keys

private theorem Input.new_limit (h : 8 ≤ columns.toNat) :
    (Input.new columns).limit.toNat = columns.toNat - 8 := by
  unfold Input.new
  dsimp only
  split
  · bv_omega
  · bv_omega

/-! ## Runs -/

namespace Console

variable {σ : Type} {T : Emulator columns.toNat σ} {top : List (Nat → Char)} {s : σ}

/-- **The invariant.** The presses `typed` are those that were echoed, the terminal, from the state
`s` on, shows what they make, and the thread's record of the line agrees with it. -/
structure Shows (T : Emulator columns.toNat σ) (top : List (Nat → Char)) (s : σ) (x : Console)
    (typed : List ScanCode) : Prop where
  keys : x.keys = typed ++ x.reader.pending
  limit : x.input.limit = (Input.new columns).limit
  follows : x.input.Follows columns.toNat (.edit x.input.limit.toNat typed)
  screen : (Editor.edit x.input.limit.toNat typed).Shown T top (T.print x.screen.toList s)

/-- A step that echoes nothing. -/
theorem Shows.quiet (h : Shows T top s x typed)
    (hkeys : x'.keys = x.keys ∧ x'.reader.pending = x.reader.pending)
    (hinput : x'.input = x.input) (hscreen : x'.screen = x.screen) : Shows T top s x' typed where
  keys := by rw [hkeys.1, hkeys.2, h.keys]
  limit := by rw [hinput, h.limit]
  follows := by rw [hinput]; exact h.follows
  screen := by rw [hinput, hscreen]; exact h.screen

/-- The thread echoes the press it has in hand. -/
theorem Shows.echo (h : Shows T top s x typed) (hr : x.reader = .echo key)
    (hs : x.turn = .ok x') : Shows T top s x' (typed ++ [key]) := by
  unfold Console.turn at hs
  rw [hr] at hs
  cases hs
  obtain ⟨hshown, hfollows, hlimit⟩ := echo_shown h.follows h.screen key
  have hedit : Editor.edit x.input.limit.toNat (typed ++ [key]) =
      (Editor.edit x.input.limit.toNat typed).press x.input.limit.toNat key := by
    unfold Editor.edit
    rw [List.foldl_append]
    rfl
  refine ⟨?_, hlimit.trans h.limit, ?_, ?_⟩
  · show x.keys = typed ++ [key] ++ []
    rw [h.keys, hr, List.append_nil]
    rfl
  · dsimp only
    rw [hlimit, hedit]
    exact hfollows
  · dsimp only
    rw [hlimit, hedit, String.toList_append, Emulator.print_append]
    exact hshown

theorem Shows.turn (h : Shows T top s x typed) (hs : x.turn = .ok x') :
    ∃ typed', Shows T top s x' typed' := by
  cases hr : x.reader with
  | echo key => exact ⟨_, h.echo hr hs⟩
  | drop key =>
    -- `buf_read`: the press goes from the queue into the thread's hand
    unfold Console.turn at hs
    rw [hr] at hs
    obtain ⟨data, -, hs⟩ := bind_ok.mp hs
    cases hs
    have hkeys := h.keys
    rw [hr] at hkeys
    refine ⟨typed, ?_, h.limit, h.follows, h.screen⟩
    show x.keys ++ [key] = _
    rw [hkeys, List.append_assoc]
    rfl
  | test =>
    unfold Console.turn at hs
    rw [hr] at hs
    dsimp only at hs
    split at hs
    · cases hs
      exact ⟨typed, h.quiet ⟨rfl, by rw [hr]; rfl⟩ rfl rfl⟩
    · cases hs
      exact ⟨typed, h.quiet ⟨rfl, by rw [hr]; rfl⟩ rfl rfl⟩
  | entry | halted | take | leave =>
    unfold Console.turn at hs
    rw [hr] at hs
    cases hs
    exact ⟨typed, h.quiet ⟨rfl, by rw [hr]; rfl⟩ rfl rfl⟩

theorem shows (h8 : 8 ≤ columns.toNat) (hstart : T.Typed top prompt.toList s)
    (h : (on columns).Reachable x) : ∃ typed, Shows T top s x typed := by
  refine h.invariant (I := fun x => ∃ typed, Shows T top s x typed) ?_ ?_
  · rintro x ⟨keyboard, -, -, -, rfl⟩
    have hlimit := Input.new_limit h8
    have hempty : Editor.Shown T top {} s := by
      unfold Editor.Shown
      rw [List.map_nil, List.append_nil, List.append_nil]
      exact hstart
    refine ⟨[], rfl, rfl, ⟨?_, ?_, Nat.zero_le _⟩, hempty⟩
    · unfold Input.new
      rfl
    · show (Input.new columns).limit.toNat + 8 ≤ _
      omega
  · rintro x event x' ⟨typed, hx⟩ ⟨-, hs⟩
    cases event with
    | turn => exact hx.turn hs
    | irq byte =>
      obtain ⟨keyboard, -, hs⟩ := bind_ok.mp hs
      cases hs
      exact ⟨typed, hx.quiet ⟨rfl, rfl⟩ rfl rfl⟩

private theorem runs_of_on (h : (on columns).Reachable x) : runs.Reachable x := by
  induction h with
  | init h =>
    obtain ⟨keyboard, hstate, hempty, hsize, rfl⟩ := h
    exact .init ⟨keyboard, columns, hstate, hempty, hsize, rfl⟩
  | step _ hs ih => exact ih.step hs

/-- **What is typed is what is shown.** Let a terminal with room for it show a prompt. In every state
that any interleaving of interrupts and steps of the thread leads to, the presses that the bytes say are
those that were echoed, the one in hand, and those in the queue, in this order; the terminal shows
the lines that the echoed presses make; and the last column of the row is free. -/
theorem typed_shown (T : Emulator columns.toNat σ) (hstart : T.Typed top prompt.toList s)
    (h8 : 8 ≤ columns.toNat) (h : (on columns).Reachable x) :
    ∃ typed queued, decode .none x.bytes = typed ++ x.reader.pending ++ queued ∧
      x.keyboard.data.Holds queued ∧
      (Editor.edit (columns.toNat - 8) typed).Shown T top (T.print x.screen.toList s) ∧
      (prompt.toList ++ (Editor.edit (columns.toNat - 8) typed).line).length < columns.toNat := by
  obtain ⟨typed, hx⟩ := shows h8 hstart h
  obtain ⟨queued, hsound⟩ := sound (runs_of_on h)
  have hdecoded := hsound.decoded []
  have hlimit : x.input.limit.toNat = columns.toNat - 8 := by rw [hx.limit, Input.new_limit h8]
  have hscreen := hx.screen
  have hfits := hx.follows.fits
  rw [hlimit] at hscreen hfits
  refine ⟨typed, queued, ?_, hsound.holds, hscreen, ?_⟩
  · rw [List.append_nil] at hdecoded
    rw [hdecoded, hx.keys]
    cases x.keyboard.stateMachine <;> simp [decode]
  · rw [List.length_append, prompt_length]
    omega

/-- Under a row of the picture, a prompt in the upper of two rows that are left. -/
def underPicture : View := ⟨[View.cells "picture".toList], View.cells prompt.toList, [View.cells []], 7⟩

/-- The keys `A`, `B`, `Backspace` and `Enter` come in, and the thread goes on for `n` steps after
each. -/
def typeKeys (n : Nat) : List Event :=
  [0x1E, 0x30, 0x0E, 0x1C].flatMap fun byte => .irq byte :: List.replicate n .turn

instance (x : Console) : (event : Event) → Decidable (x.Allowed event)
  | .irq _ => inferInstanceAs (Decidable (x.interrupts = true))
  | .turn => inferInstanceAs (Decidable True)

/-- On a screen of three rows that scrolls, six steps of the thread show each of the keys. -/
theorem typed_shown_keys : ∃ x, (on 80).Reachable x ∧ x.bytes = [0x1E, 0x30, 0x0E, 0x1C] ∧
    x.screen = "ab\x08 \x08\r\nTwoOs> " ∧
    ∃ typed queued, decode .none x.bytes = typed ++ x.reader.pending ++ queued ∧
      x.keyboard.data.Holds queued ∧
      (Editor.edit 72 typed).Shown (.scrolling 3 80) underPicture.above
        ((Emulator.scrolling 3 80).print x.screen.toList underPicture) := by
  have hfresh : (on 80).Reachable fresh := .init ⟨_, rfl, rfl, rfl, rfl⟩
  have hrun : ((typeKeys 6).foldlM (System.attempt Allowed next) fresh).map
      (fun x => (x.bytes, x.screen)) =
        some ([0x1E, 0x30, 0x0E, 0x1C], "ab\x08 \x08\r\nTwoOs> ") := by
    decide +kernel
  obtain ⟨x, hx, hobs⟩ := Option.map_eq_some_iff.mp hrun
  obtain ⟨hbytes, hscreen⟩ := Prod.mk.inj hobs
  have hreach : (on 80).Reachable x :=
    hfresh.foldlM (fun _ _ _ => System.attempt_eq_some) _ hx
  let T : Emulator (80 : Word).toNat View := .scrolling 3 80
  have hstart : T.Typed underPicture.above prompt.toList underPicture :=
    ⟨rfl, rfl, List.suffix_refl _, fun r hr => List.mem_singleton.mp hr⟩
  obtain ⟨typed, queued, hdecode, hholds, hshown, -⟩ := typed_shown T hstart (by decide) hreach
  exact ⟨x, hreach, hbytes, hscreen, typed, queued, hdecode, hholds, hshown⟩

end Console

end TwoKernel.Terminal
