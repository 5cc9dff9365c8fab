import TwoKernel.Drivers.Ps2
import TwoKernel.Laws.Std.RingBuffer

/-!
# The keyboard driver undoes the scan code encoding

A keyboard in scan code set 1 sends one byte for a press, the same byte with the
top bit for a release, and `0xE0` before either for an extended key. `decode` is
what such bytes say, and the driver with its buffer and its reader is `decode` run
one byte at a time (`run_decodes`), whenever the reader takes its turns. That
`decode` undoes the encoding is then a fact about two functions on lists
(`decode_bytes`), and that replies of the controller do not matter, wherever they
come in, is another (`decode_filter`).

The releases of three keys are sent as the bytes `0xE0`, `0xFA` and `0xFE`, which
the driver takes for the prefix and for replies. A `KeyEvent` is not one of these.
-/

namespace TwoKernel

open Ps2

/-- A key goes down or up. -/
structure KeyEvent where
  extended : Bool
  pressed : Bool
  code : Byte
  positive : code ≠ 0
  seven : code < 0x80
  clear : pressed = false → code ≠ 0x60 ∧ code ≠ 0x7A ∧ code ≠ 0x7E

namespace KeyEvent

/-- The byte of the key itself. -/
def byte (e : KeyEvent) : Byte := if e.pressed then e.code else 0x80 ||| e.code

def bytes (e : KeyEvent) : List Byte := if e.extended then [0xE0, e.byte] else [e.byte]

/-- The code a reader should get for the key. -/
def scanCode (e : KeyEvent) : ScanCode := if e.extended then 0x80 ||| e.code else e.code

end KeyEvent

def presses (events : List KeyEvent) : List ScanCode :=
  (events.filter KeyEvent.pressed).map KeyEvent.scanCode

/-- A reply of the controller. -/
def Ps2.isReply (byte : Byte) : Bool := byte = ack ∨ byte = resend

/-- The code of a byte after the prefix or without it. -/
def Ps2.State.code : State → Byte → ScanCode
  | .none => Arch.ps2SingleByte
  | .e0 => Arch.ps2ExtendCodes

/-- The presses that a stream of bytes says. -/
def decode : State → List Byte → List ScanCode
  | _, [] => []
  | st, b :: bs =>
    if isReply b then decode st bs
    else if b = 0xE0 then decode .e0 bs
    else if Arch.ps2IsRelease b then decode .none bs
    else st.code b :: decode .none bs

/-! ## What the bytes say -/

private theorem decode_filter (st : State) (bs : List Byte) :
    decode st (bs.filter fun b => !isReply b) = decode st bs := by
  induction bs generalizing st with
  | nil => rfl
  | cons b bs ih =>
    cases hb : isReply b with
    | true => simp only [List.filter_cons, hb, decode, Bool.not_true, Bool.false_eq_true, if_false,
        if_true, ih]
    | false => simp only [List.filter_cons, hb, decode, Bool.not_false, if_true,
        Bool.false_eq_true, if_false, ih]

private theorem decode_prefix (st : State) (bs cs : List Byte) :
    decode st bs <+: decode st (bs ++ cs) := by
  induction bs generalizing st with
  | nil => exact List.nil_prefix
  | cons b bs ih =>
    simp only [List.cons_append, decode]
    split
    · exact ih _
    · split
      · exact ih _
      · split
        · exact ih _
        · exact List.cons_prefix_cons.mpr ⟨rfl, ih _⟩

/-- A byte without the top bit is a press, and its own code. -/
theorem low_byte : ∀ c : Byte, c < 0x80 → Arch.ps2IsRelease c = false ∧
    Arch.ps2SingleByte c = c ∧ Arch.ps2ExtendCodes c = 0x80 ||| c := by
  decide +kernel

/-- A byte with the top bit is a release; three of them are something else to the driver. -/
theorem high_byte : ∀ c : Byte, c < 0x80 → Arch.ps2IsRelease (0x80 ||| c) = true ∧
    (0x80 ||| c = 0xE0 → c = 0x60) ∧ (0x80 ||| c = Ps2.ack → c = 0x7A) ∧
    (0x80 ||| c = resend → c = 0x7E) := by
  decide +kernel

/-- The bytes the driver does not take for keys have the top bit. -/
theorem release_of_reply : ∀ b : Byte, isReply b = true ∨ b = 0xE0 → Arch.ps2IsRelease b = true := by
  decide +kernel

namespace KeyEvent

variable (e : KeyEvent)

private theorem release_byte : Arch.ps2IsRelease e.byte = !e.pressed := by
  unfold byte
  cases e.pressed with
  | true => exact (low_byte e.code e.seven).1
  | false => exact (high_byte e.code e.seven).1

private theorem byte_clear : isReply e.byte = false ∧ e.byte ≠ 0xE0 := by
  cases hp : e.pressed with
  | true =>
    have hlow : Arch.ps2IsRelease e.byte = false := by rw [release_byte, hp]; rfl
    constructor
    · exact Bool.eq_false_iff.mpr fun h => by rw [release_of_reply _ (.inl h)] at hlow; cases hlow
    · intro h
      rw [release_of_reply _ (.inr h)] at hlow
      cases hlow
  | false =>
    obtain ⟨-, hmark, hack, hresend⟩ := high_byte e.code e.seven
    obtain ⟨h60, h7a, h7e⟩ := e.clear hp
    have hbyte : e.byte = 0x80 ||| e.code := by
      unfold byte
      rw [hp]
      rfl
    rw [hbyte]
    constructor
    · exact decide_eq_false fun h => h.elim (fun h => h7a (hack h)) fun h => h7e (hresend h)
    · exact fun h => h60 (hmark h)

/-- One key, without the prefix or after it. -/
theorem decode_byte (st : State) (bs : List Byte) :
    decode st (e.byte :: bs) =
      if e.pressed then st.code e.code :: decode .none bs else decode .none bs := by
  obtain ⟨hreply, hmark⟩ := e.byte_clear
  simp only [decode, hreply, if_neg hmark, release_byte, Bool.false_eq_true, if_false]
  cases hp : e.pressed with
  | true => simp [byte, hp]
  | false => rfl

private theorem decode_bytes (bs : List Byte) :
    decode .none (e.bytes ++ bs) =
      if e.pressed then e.scanCode :: decode .none bs else decode .none bs := by
  obtain ⟨-, hsingle, hextend⟩ := low_byte e.code e.seven
  unfold bytes scanCode
  cases e.extended with
  | true =>
    have hmark : decode .none (0xE0 :: e.byte :: bs) = decode .e0 (e.byte :: bs) := rfl
    simp only [if_true, List.cons_append, List.nil_append, hmark, decode_byte, State.code, hextend]
  | false =>
    simp only [Bool.false_eq_true, if_false, List.cons_append, List.nil_append, decode_byte,
      State.code, hsingle]

end KeyEvent

/-- **Decoding undoes encoding.** -/
theorem decode_events (events : List KeyEvent) :
    decode .none (events.flatMap KeyEvent.bytes) = presses events := by
  induction events with
  | nil => rfl
  | cons e events ih =>
    rw [List.flatMap_cons, e.decode_bytes, ih]
    unfold presses
    cases hp : e.pressed with
    | true => rw [List.filter_cons_of_pos hp]; rfl
    | false => rw [List.filter_cons_of_neg (by simp [hp])]; rfl

/-! ## What the driver does -/

namespace Ps2Keyboard

variable {k : Ps2Keyboard} {l : List ScanCode}

private theorem onResend_keeps : k.onResend.data = k.data ∧ k.onResend.stateMachine = k.stateMachine := by
  unfold onResend
  dsimp only
  split <;> exact ⟨rfl, rfl⟩

private theorem onRecieve_reply {byte : Byte} (h : isReply byte = true) :
    ∃ k', k.onRecieve byte = .ok k' ∧ k'.data = k.data ∧ k'.stateMachine = k.stateMachine := by
  unfold onRecieve
  by_cases hack : byte = Ps2.ack
  · exact ⟨_, if_pos hack, rfl, rfl⟩
  · have hresend : byte = resend := (of_decide_eq_true h).resolve_left hack
    rw [if_neg hack]
    exact ⟨_, if_pos hresend, onResend_keeps⟩

/-- A byte that is a key. -/
theorem onRecieve_key {byte : Byte} (hreply : isReply byte = false) (hmark : byte ≠ 0xE0) :
    k.onRecieve byte =
      if Arch.ps2IsRelease byte then .ok { k with stateMachine := .none }
      else do
        let data ← k.data.bufWrite (k.stateMachine.code byte)
        return { k with stateMachine := .none, data := data } := by
  have hnot := of_decide_eq_false hreply
  rw [not_or] at hnot
  unfold onRecieve
  rw [if_neg hnot.1, if_neg hnot.2, if_neg hmark]
  obtain ⟨_, _, _, _, st, _⟩ := k
  cases st <;> rfl

/-- A byte of the stream, with room for a press: what is buffered and what the rest of the stream
says are together what they were. -/
theorem onRecieve_decodes (byte : Byte) (hl : k.data.Holds l)
    (hroom : Arch.ps2IsRelease byte = false → ¬ k.data.isFull = true) :
    ∃ k' l', k.onRecieve byte = .ok k' ∧ k'.data.Holds l' ∧
      ∀ bs, l' ++ decode k'.stateMachine bs = l ++ decode k.stateMachine (byte :: bs) := by
  cases hreply : isReply byte with
  | true =>
    obtain ⟨k', hk', hdata, hstate⟩ := onRecieve_reply (k := k) hreply
    refine ⟨k', l, hk', hdata ▸ hl, fun bs => ?_⟩
    simp only [decode, hreply, hstate, if_true]
  | false =>
    by_cases hmark : byte = 0xE0
    · refine ⟨{ k with stateMachine := .e0 }, l, by rw [hmark]; rfl, hl, fun bs => ?_⟩
      simp only [decode, hreply, if_pos hmark, Bool.false_eq_true, if_false]
    · rw [onRecieve_key hreply hmark]
      cases hrel : Arch.ps2IsRelease byte with
      | true =>
        refine ⟨_, l, if_pos rfl, hl, fun bs => ?_⟩
        simp only [decode, hreply, hrel, if_neg hmark, Bool.false_eq_true, if_false, if_true]
      | false =>
        obtain ⟨d, hd, hl'⟩ := hl.bufWrite (x := k.stateMachine.code byte) (hroom hrel)
        refine ⟨{ k with stateMachine := .none, data := d }, _, ?_, hl', fun bs => ?_⟩
        · simp only [Bool.false_eq_true, if_false, hd, ok_bind, pure_eq_ok]
        · simp only [decode, hreply, hrel, if_neg hmark, Bool.false_eq_true, if_false,
            List.append_assoc, List.singleton_append]

/-- A turn of the reader takes the first key, if there is one. -/
theorem readKey_takes (hl : k.data.Holds l) :
    ∃ key k', k.readKey = .ok (key, k') ∧ k'.stateMachine = k.stateMachine ∧
      ∃ l', k'.data.Holds l' ∧ key.toList ++ l' = l := by
  unfold readKey
  cases l with
  | nil => exact ⟨none, k, if_pos (hl.isEmpty_iff.mpr rfl), rfl, [], hl, rfl⟩
  | cons x l =>
    obtain ⟨d, hd, hl'⟩ := hl.bufRead
    have hne : ¬ k.data.isEmpty = true := fun he => nomatch hl.isEmpty_iff.mp he
    refine ⟨some x, { k with data := d }, ?_, rfl, l, hl', rfl⟩
    rw [if_neg hne, hd, ok_bind, hl.getRead]
    rfl

end Ps2Keyboard

/-- The bytes among the actions. -/
def received : List KeyAction → List Byte
  | [] => []
  | .recieve byte :: rest => byte :: received rest
  | .read :: rest => received rest

namespace Ps2Keyboard

variable {k : Ps2Keyboard} {l : List ScanCode}

/-- The buffer is not full where a press arrives. -/
def RoomAtPresses (k : Ps2Keyboard) (actions : List KeyAction) : Prop :=
  ∀ before byte after, actions = before ++ .recieve byte :: after →
    Arch.ps2IsRelease byte = false → ∀ keys k', k.run before = .ok (keys, k') →
    ¬ k'.data.isFull = true

theorem RoomAtPresses.tail {k' : Ps2Keyboard} {action : KeyAction} {rest : List KeyAction}
    {first : List ScanCode} (h : RoomAtPresses k (action :: rest))
    (hrun : ∀ before, k.run (action :: before) =
      (fun r => (first ++ r.1, r.2)) <$> k'.run before) : RoomAtPresses k' rest := by
  intro before byte after hrest hpress keys k'' hk''
  refine h (action :: before) byte after (by rw [hrest]; rfl) hpress (first ++ keys) k'' ?_
  rw [hrun, hk'']
  rfl

/-- **The driver is the decoder**, and its buffer a queue in between: what the reader has got and
what is left in the buffer are the presses that the bytes say. -/
theorem run_decodes (hl : k.data.Holds l) {actions : List KeyAction}
    (hroom : RoomAtPresses k actions) :
    ∃ keys k' left, k.run actions = .ok (keys, k') ∧ k'.data.Holds left ∧
      keys ++ left = l ++ decode k.stateMachine (received actions) := by
  induction actions generalizing k l with
  | nil => exact ⟨[], k, l, rfl, hl, by simp [received, decode]⟩
  | cons action rest ih =>
    cases action with
    | recieve byte =>
      obtain ⟨k₁, l₁, hk₁, hl₁, hsame⟩ := onRecieve_decodes byte hl fun hpress =>
        hroom [] byte rest rfl hpress [] k rfl
      have hrun : ∀ before, k.run (.recieve byte :: before) =
          (fun r => (([] : List ScanCode) ++ r.1, r.2)) <$> k₁.run before := by
        intro before
        simp only [run, hk₁, ok_bind, List.nil_append]
        exact (id_map _).symm
      obtain ⟨keys, k', left, hk', hleft, hkeys⟩ := ih hl₁ (hroom.tail hrun)
      refine ⟨keys, k', left, ?_, hleft, hkeys.trans (hsame _)⟩
      rw [hrun, hk']
      rfl
    | read =>
      obtain ⟨key, k₁, hk₁, hstate, l₁, hl₁, hkey⟩ := readKey_takes hl
      have hrun : ∀ before, k.run (.read :: before) =
          (fun r => (key.toList ++ r.1, r.2)) <$> k₁.run before := by
        intro before
        simp only [run, hk₁, ok_bind]
        cases k₁.run before <;> rfl
      obtain ⟨keys, k', left, hk', hleft, hkeys⟩ := ih hl₁ (hroom.tail hrun)
      refine ⟨key.toList ++ keys, k', left, ?_, hleft, ?_⟩
      · rw [hrun, hk']
        rfl
      · rw [List.append_assoc, hkeys, ← List.append_assoc, hkey, hstate]
        rfl

private theorem received_append (before after : List KeyAction) :
    received (before ++ after) = received before ++ received after := by
  induction before with
  | nil => rfl
  | cons action before ih =>
    cases action with
    | recieve byte => exact congrArg (byte :: ·) ih
    | read => exact ih

/-- **The driver undoes the scan code encoding.** A keyboard outside a prefix, with an empty buffer,
gets the bytes of any key events, with replies of the controller anywhere among them and a reader
that takes its turns so that no press meets a full buffer. The keys read and then buffered are the
presses, in order; and at any moment before, they are the first of them. -/
theorem run_events {events : List KeyEvent} {actions : List KeyAction}
    (hstate : k.stateMachine = .none) (hempty : k.data.Holds [])
    (hbytes : ((received actions).filter fun b => !isReply b) = events.flatMap KeyEvent.bytes)
    (hroom : RoomAtPresses k actions) :
    (∃ keys k' left, k.run actions = .ok (keys, k') ∧ k'.data.Holds left ∧
      keys ++ left = presses events) ∧
    ∀ before, before <+: actions → ∃ keys k' left, k.run before = .ok (keys, k') ∧
      k'.data.Holds left ∧ keys ++ left <+: presses events := by
  have hall : decode k.stateMachine (received actions) = presses events := by
    rw [← decode_filter, hbytes, hstate, decode_events]
  constructor
  · obtain ⟨keys, k', left, hk', hleft, hkeys⟩ := run_decodes hempty hroom
    exact ⟨keys, k', left, hk', hleft, hkeys.trans hall⟩
  · intro before ⟨after, hafter⟩
    have hroom' : RoomAtPresses k before := by
      intro p byte rest hp
      exact hroom p byte (rest ++ after) (by rw [← hafter, hp]; simp)
    obtain ⟨keys, k', left, hk', hleft, hkeys⟩ := run_decodes hempty hroom'
    refine ⟨keys, k', left, hk', hleft, ?_⟩
    rw [hkeys, ← hall, ← hafter, received_append]
    exact decode_prefix _ _ _

/-- A keyboard that nothing has happened to. -/
def fresh : Ps2Keyboard := ⟨0, 0, ⟨fun _ => 0, 0, 0, 0⟩, .ack, .none, []⟩

private theorem fresh_holds : fresh.data.Holds [] := ⟨by decide, rfl, rfl, nofun⟩

/-- The cursor key up, pressed. -/
def upPressed : KeyEvent := ⟨true, true, 0x48, by decide, by decide, nofun⟩

/-- A `RESEND` between the prefix and the key, and a reader that comes twice. -/
theorem run_events_up : ∃ keys k' left,
    fresh.run [.read, .recieve 0xE0, .recieve 0xFE, .recieve 0x48, .read] = .ok (keys, k') ∧
      k'.data.Holds left ∧ keys ++ left = [0xC8] := by
  have hroom : RoomAtPresses fresh
      [.read, .recieve 0xE0, .recieve 0xFE, .recieve 0x48, .read] := by
    intro before byte after h hpress keys k' hk'
    match before with
    | [] => cases h
    | [_] =>
      cases h
      cases hpress
    | [_, _] =>
      cases h
      cases hpress
    | [_, _, _] =>
      cases h
      cases hk'
      decide
    | [_, _, _, _] => cases h
    | _ :: _ :: _ :: _ :: _ :: _ => simp at h
  exact (run_events rfl fresh_holds (show _ = [upPressed].flatMap KeyEvent.bytes from rfl) hroom).1

end Ps2Keyboard

end TwoKernel
