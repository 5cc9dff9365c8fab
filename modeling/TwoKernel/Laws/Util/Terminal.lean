import TwoKernel.Laws.Drivers.Ps2
import TwoKernel.Util.Terminal

/-!
# Can the keyboard stop the kernel?

Both ends of the keyboard's buffer panic: `buf_read` on an empty one, `buf_write` on a full one.

**The reader never does.** It has seen a key under `cli`, and there is no interrupt and no other
reader before it takes the key out (`Sound.turn`).

**The interrupt handler does**, as soon as a press arrives with 254 keys unread. Nothing keeps the
reader from being that late: `panics_iff` says that this is the only way, and `panics_254` goes it.
-/

namespace TwoKernel.Terminal

open Ps2

/-- Interrupts are on at these places of `read_and_echo`. -/
def Reader.unmasked : Reader → Bool
  | .entry | .halted | .echo _ => true
  | .test | .take | .drop _ | .leave _ => false

/-- What the reader knows about the queue in the buffer. -/
def Reader.Knows (l : List ScanCode) : Reader → Prop
  | .take => l ≠ []
  | .drop key => l.head? = some key
  | _ => True

private theorem Reader.knows_of_unmasked {r : Reader} (h : r.unmasked = true) (l : List ScanCode) :
    r.Knows l := by
  cases r with
  | entry | halted | echo => exact trivial
  | test | take | drop | leave => cases h

namespace Console

variable {x x' : Console} {l : List ScanCode} {byte : Byte} {e : Fault} {event : Event}

/-- **The invariant.** `l` is the queue in the buffer: what the bytes say so far and the reader has
not taken. -/
structure Sound (x : Console) (l : List ScanCode) : Prop where
  holds : x.keyboard.data.Holds l
  masked : x.interrupts = x.reader.unmasked
  knows : x.reader.Knows l
  decoded : ∀ bs, decode .none (x.bytes ++ bs) = x.keys ++ l ++ decode x.keyboard.stateMachine bs

theorem Sound.unread (h : x.Sound l) :
    (decode .none x.bytes).length = x.keys.length + l.length := by
  have hall := h.decoded []
  rw [List.append_nil] at hall
  rw [hall, ← List.length_append]
  cases x.keyboard.stateMachine <;> simp [decode]

/-- The reader's steps all return. -/
theorem Sound.turn (h : x.Sound l) : ∃ x' l', x.turn = .ok x' ∧ x'.Sound l' := by
  have hknows := h.knows
  unfold Console.turn
  cases hr : x.reader with
  | entry => exact ⟨_, l, rfl, h.holds, rfl, trivial, h.decoded⟩
  | test =>
    by_cases hempty : x.keyboard.data.isEmpty = true
    · exact ⟨_, l, if_pos hempty, h.holds, rfl, trivial, h.decoded⟩
    · refine ⟨_, l, if_neg hempty, h.holds, ?_, ?_, h.decoded⟩
      · rw [h.masked, hr]
        rfl
      · exact fun hnil => hempty (h.holds.isEmpty_iff.mpr hnil)
  | halted => exact ⟨_, l, rfl, h.holds, rfl, trivial, h.decoded⟩
  | take =>
    rw [hr] at hknows
    obtain ⟨key, rest, rfl⟩ := List.exists_cons_of_ne_nil hknows
    refine ⟨_, _, rfl, h.holds, ?_, ?_, h.decoded⟩
    · rw [h.masked, hr]
      rfl
    · exact congrArg some h.holds.getRead.symm
  | drop key =>
    rw [hr] at hknows
    obtain ⟨rest, rfl⟩ := List.head?_eq_some_iff.mp hknows
    obtain ⟨data, hdata, hrest⟩ := h.holds.bufRead
    dsimp only
    rw [hdata, ok_bind]
    refine ⟨_, rest, rfl, hrest, ?_, trivial, ?_⟩
    · rw [h.masked, hr]
      rfl
    · intro bs
      rw [h.decoded, List.append_assoc x.keys [key]]
      rfl
  | leave key => exact ⟨_, l, rfl, h.holds, rfl, trivial, h.decoded⟩
  | echo key =>
    refine ⟨_, l, rfl, h.holds, ?_, trivial, h.decoded⟩
    rw [h.masked, hr]
    rfl

/-- A byte that is not a press, or meets a buffer with room, is taken. -/
theorem Sound.irq (h : x.Sound l) (hallowed : x.interrupts = true)
    (hroom : Arch.ps2IsRelease byte = false → ¬ x.keyboard.data.isFull = true) :
    ∃ k l', x.next (.irq byte) = .ok { x with keyboard := k, bytes := x.bytes ++ [byte] } ∧
      ({ x with keyboard := k, bytes := x.bytes ++ [byte] } : Console).Sound l' := by
  obtain ⟨k, l', hk, hl', hsame⟩ := Ps2Keyboard.onRecieve_decodes byte h.holds hroom
  have hon : x.reader.unmasked = true := h.masked.symm.trans hallowed
  refine ⟨k, l', ?_, hl', h.masked, ?_, ?_⟩
  · rw [next, hk, ok_bind]
    rfl
  · exact Reader.knows_of_unmasked hon l'
  · intro bs
    rw [List.append_assoc, h.decoded, List.append_assoc, List.append_assoc, hsame]
    rfl

/-- A press that meets a full buffer stops the machine. -/
theorem irq_full (hpress : Arch.ps2IsRelease byte = false) (hfull : x.keyboard.data.isFull = true) :
    x.next (.irq byte) = .error (.panic "buffer is full and can't add data") := by
  have hreply : isReply byte = false := by
    rw [Bool.eq_false_iff]
    intro h
    rw [release_of_reply _ (.inl h)] at hpress
    cases hpress
  have hmark : byte ≠ 0xE0 := by
    intro h
    rw [release_of_reply _ (.inr h)] at hpress
    cases hpress
  have hwrite : x.keyboard.data.bufWrite (x.keyboard.stateMachine.code byte) =
      .error (.panic "buffer is full and can't add data") := if_pos hfull
  rw [next, Ps2Keyboard.onRecieve_key hreply hmark, hpress, hwrite]
  rfl

theorem Sound.step (h : x.Sound l) (hs : runs.step x event x') : ∃ l', x'.Sound l' := by
  obtain ⟨hallowed, hs⟩ := hs
  cases event with
  | turn =>
    obtain ⟨x₁, l', hx₁, hl'⟩ := h.turn
    cases hs.symm.trans hx₁
    exact ⟨l', hl'⟩
  | irq byte =>
    have hroom : Arch.ps2IsRelease byte = false → ¬ x.keyboard.data.isFull = true := by
      intro hpress hfull
      rw [irq_full hpress hfull] at hs
      cases hs
    obtain ⟨k, l', hk, hl'⟩ := h.irq hallowed hroom
    cases hs.symm.trans hk
    exact ⟨l', hl'⟩

theorem sound (hx : runs.Reachable x) : ∃ l, x.Sound l := by
  refine hx.invariant (I := fun x => ∃ l, x.Sound l) ?_ ?_
  · rintro x ⟨keyboard, columns, hstate, hempty, hsize, rfl⟩
    refine ⟨[], RingBuffer.holds_nil hempty hsize, rfl, trivial, ?_⟩
    intro bs
    rw [hstate]
    rfl
  · rintro x event x' ⟨l, hl⟩ hs
    exact hl.step hs

/-- **When the keyboard stops the kernel.** Whatever bytes arrived and however the reader's steps
fell between them, the next step fails only on a press that arrives with 254 keys unread, and then
it fails in `buf_write`. -/
theorem panics_iff (hx : runs.Reachable x) (hallowed : x.Allowed event) (e : Fault) :
    x.next event = .error e ↔
      e = .panic "buffer is full and can't add data" ∧ ∃ byte, event = .irq byte ∧
        Arch.ps2IsRelease byte = false ∧ (decode .none x.bytes).length = x.keys.length + 254 := by
  obtain ⟨l, hl⟩ := sound hx
  have hfull : x.keyboard.data.isFull = true ↔
      (decode .none x.bytes).length = x.keys.length + 254 := by
    rw [hl.holds.isFull_iff, hl.unread]
    omega
  cases event with
  | turn =>
    obtain ⟨x', -, hx', -⟩ := hl.turn
    have hx' : x.next .turn = .ok x' := hx'
    simp [hx']
  | irq byte =>
    by_cases hpanic : Arch.ps2IsRelease byte = false ∧ x.keyboard.data.isFull = true
    · rw [irq_full hpanic.1 hpanic.2]
      constructor
      · intro he
        exact ⟨(Except.error.inj he).symm, byte, rfl, hpanic.1, hfull.mp hpanic.2⟩
      · rintro ⟨rfl, -⟩
        rfl
    · obtain ⟨k, -, hk, -⟩ := hl.irq hallowed fun hpress hf => hpanic ⟨hpress, hf⟩
      rw [hk]
      constructor
      · intro he
        cases he
      · rintro ⟨-, b, hb, hpress, hunread⟩
        cases hb
        exact absurd ⟨hpress, hfull.mpr hunread⟩ hpanic

/-- A console that nothing has happened to, on a screen of 80 columns. -/
def fresh : Console := { keyboard := Ps2Keyboard.fresh, input := Input.new 80 }

private theorem fresh_reachable : runs.Reachable fresh := .init ⟨_, 80, rfl, rfl, rfl, rfl⟩

/-- Every byte is a press. -/
theorem decode_presses (n : Nat) : (decode .none (List.replicate n 0x1E)).length = n := by
  induction n with
  | zero => rfl
  | succ n ih =>
    have hcons : decode .none (List.replicate (n + 1) 0x1E) =
        0x1E :: decode .none (List.replicate n 0x1E) := rfl
    rw [hcons, List.length_cons, ih]

private theorem Sound.length_presses {n : Nat} (h : x.Sound l) (hkeys : x.keys = [])
    (hbytes : x.bytes = List.replicate n 0x1E) : l.length = n := by
  have hunread := h.unread
  rw [hbytes, decode_presses, hkeys, List.length_nil] at hunread
  omega

/-- Presses while the reader does not run. -/
theorem presses_reachable (n : Nat) (hn : n ≤ 254) : ∃ x, runs.Reachable x ∧ x.interrupts = true ∧
    x.keys = [] ∧ x.bytes = List.replicate n 0x1E := by
  induction n with
  | zero => exact ⟨fresh, fresh_reachable, rfl, rfl, rfl⟩
  | succ n ih =>
    obtain ⟨x, hx, hon, hkeys, hbytes⟩ := ih (Nat.le_of_succ_le hn)
    obtain ⟨l, hl⟩ := sound hx
    have hroom : ¬ x.keyboard.data.isFull = true := by
      rw [hl.holds.isFull_iff, hl.length_presses hkeys hbytes]
      omega
    obtain ⟨k, -, hk, -⟩ := hl.irq hon fun _ => hroom
    have hstep : runs.step x (.irq 0x1E) _ := ⟨hon, hk⟩
    refine ⟨_, hx.step hstep, hon, hkeys, ?_⟩
    show x.bytes ++ [0x1E] = _
    rw [hbytes, List.replicate_succ']

/-- With 253 keys unread a press is taken; with 254 a press fails, and the release of the key does
not. -/
theorem panics_iff_presses :
    (∃ x, runs.Reachable x ∧ x.bytes = List.replicate 253 0x1E ∧
      ¬ ∃ e, x.next (.irq 0x1E) = .error e) ∧
    ∃ x, runs.Reachable x ∧ x.bytes = List.replicate 254 0x1E ∧
      x.next (.irq 0x1E) = .error (.panic "buffer is full and can't add data") ∧
      ¬ ∃ e, x.next (.irq 0x9E) = .error e := by
  obtain ⟨x, hx, hon, hkeys, hbytes⟩ := presses_reachable 253 (by omega)
  obtain ⟨y, hy, hony, hkeysy, hbytesy⟩ := presses_reachable 254 (Nat.le_refl _)
  have hpress : ∀ {z : Console}, z.interrupts = true → z.Allowed (.irq 0x1E) := id
  have hrelease : y.Allowed (.irq 0x9E) := hony
  refine ⟨⟨x, hx, hbytes, ?_⟩, y, hy, hbytesy, ?_, ?_⟩
  · rintro ⟨e, he⟩
    obtain ⟨-, _, -, -, hunread⟩ := (panics_iff hx (hpress hon) e).mp he
    rw [hbytes, decode_presses, hkeys, List.length_nil] at hunread
    omega
  · refine (panics_iff hy (hpress hony) _).mpr ⟨rfl, 0x1E, rfl, rfl, ?_⟩
    rw [hbytesy, decode_presses, hkeysy, List.length_nil]
  · rintro ⟨e, he⟩
    obtain ⟨-, byte, hbyte, hdown, -⟩ := (panics_iff hy hrelease e).mp he
    cases hbyte
    exact absurd hdown (by decide)

/-- **255 presses stop the kernel.** The reader is not scheduled while a key is held down. -/
theorem panics_254 : ∃ x, runs.Reachable x ∧ x.interrupts = true ∧ x.keys = [] ∧
    x.bytes = List.replicate 254 0x1E ∧
    x.next (.irq 0x1E) = .error (.panic "buffer is full and can't add data") := by
  obtain ⟨x, hx, hon, hkeys, hbytes⟩ := presses_reachable 254 (Nat.le_refl _)
  obtain ⟨l, hl⟩ := sound hx
  refine ⟨x, hx, hon, hkeys, hbytes, irq_full rfl ?_⟩
  rw [hl.holds.isFull_iff, hl.length_presses hkeys hbytes]

end Console

end TwoKernel.Terminal
