import Mathlib.Data.List.Infix
import TwoKernel.Arch.Irq
import TwoKernel.Laws.Drivers.Ps2
import TwoKernel.Laws.Proc.Saved
import TwoKernel.Proc.Calls

/-!
# Interrupts are reported one at a time

**The laws**, over every run from `kmain` and for any scheduler state that other code makes.

* `in_service`: what the controllers have in service is what the executing handler has still to
  report. Nothing that was interrupted and no saved context of a thread owes an `eoi`, so the
  unspecific command that `eoi` writes ends the right interrupt, and a thread that is resumed
  never leaves a line blocked.
* `tick_atomic`: `unlock_scheduler` opens interrupts in the middle of `isr_timer`, but until its
  `eoi(0)` none arrives. What the handler returns to is what `pit_irq_handler` as one step
  returns.
* No interrupt gets through before `pic_remap`, and after it only the vectors of the timer and of
  the keyboard and the spurious one (`Disciplined.vectors`). None is taken for an exception.
* `masked_after_calls`: the masks are what the last call on each line says.

The argument for the timer is one of priorities: line 0 in service holds back every line of the
master, whatever the flag is. For the keyboard it is the interrupt gate.
-/

namespace TwoKernel.Irq

open Pic8259

-- the threads of the sample states and the lines of the chips are numerals
attribute [local instance] neZero_two Pic8259.neZero_eight

/-! ## The boot -/

/-- `exception_load`, up to its `sti`. -/
def setup : List Op :=
  picRemap ++ (List.range 16).flatMap (fun i => irqMask (BitVec.ofNat 8 i)) ++ [.cli]

/-- What `kmain` does to the controllers with interrupts on. -/
def late : List Op := timerInit ++ keyboardInit

private theorem boot_eq : boot = setup ++ .sti :: late := by
  unfold boot exceptionLoad setup late idtrAsmLoad
  simp only [List.append_assoc, List.cons_append, List.nil_append]

def run (ops : List Op) (s : Ports) : Ports := ops.foldl (fun s op => op.exec s) s

/-- The controllers after `exception_load`. -/
def masterSet : Settings := ⟨0xFF, 0x20, 4, false, .ready⟩

def slaveSet : Settings := ⟨0xFF, 0x28, 2, false, .ready⟩

/-- The same but for what the hardware moves. -/
structure Ports.Alike (s t : Ports) : Prop where
  master : s.pics.master.toSettings = t.pics.master.toSettings
  slave : s.pics.slave.toSettings = t.pics.slave.toSettings
  value : s.value = t.value

/-- Masks and initialization words, and no end of interrupt. -/
def Op.programs : Op → Bool
  | .outb port value => port = masterData ∨ port = slaveData ∨ value.getLsbD 4 = true
  | .inb port | .orOut port _ | .andOut port _ => port = masterData ∨ port = slaveData
  | .cli => true
  | .sti => false

private theorem programs_of_mem_setup : ∀ op ∈ setup, op.programs = true := by decide

section ports

variable {p q : Pair} {s t : Ports} {port : BitVec 16} {value : Byte} {op : Op}

private theorem outb_master_toSettings (h : p.master.toSettings = q.master.toSettings) :
    (p.outb port value).master.toSettings = (q.outb port value).master.toSettings := by
  unfold Pair.outb
  split_ifs
  · exact Chip.command_toSettings.trans ((congrArg _ h).trans Chip.command_toSettings.symm)
  · exact congrArg (Settings.data value) h
  · exact h
  · exact h
  · exact h

private theorem outb_slave_toSettings (h : p.slave.toSettings = q.slave.toSettings) :
    (p.outb port value).slave.toSettings = (q.outb port value).slave.toSettings := by
  unfold Pair.outb
  split_ifs
  · exact h
  · exact h
  · exact Chip.command_toSettings.trans ((congrArg _ h).trans Chip.command_toSettings.symm)
  · exact congrArg (Settings.data value) h
  · exact h

private theorem outb_isr (h : port = masterData ∨ port = slaveData ∨ value.getLsbD 4 = true) :
    (p.outb port value).master.isr = p.master.isr ∧
      (p.outb port value).slave.isr = p.slave.isr := by
  unfold Pair.outb
  rcases h with rfl | rfl | h
  · exact ⟨rfl, rfl⟩
  · exact ⟨rfl, rfl⟩
  · split_ifs
    · exact ⟨Chip.command_isr h, rfl⟩
    · exact ⟨rfl, rfl⟩
    · exact ⟨rfl, Chip.command_isr h⟩
    · exact ⟨rfl, rfl⟩
    · exact ⟨rfl, rfl⟩

theorem Ports.Alike.exec (h : s.Alike t) (hop : op.programs = true) :
    (op.exec s).Alike (op.exec t) := by
  cases op with
  | outb port value =>
    exact ⟨outb_master_toSettings h.master, outb_slave_toSettings h.slave, h.value⟩
  | inb port =>
    refine ⟨h.master, h.slave, ?_⟩
    rcases of_decide_eq_true hop with rfl | rfl
    · exact congrArg Settings.imr h.master
    · exact congrArg Settings.imr h.slave
  | orOut port bits =>
    refine ⟨?_, ?_, congrArg (· ||| bits) h.value⟩
    · dsimp only [Op.exec]
      rw [h.value]
      exact outb_master_toSettings h.master
    · dsimp only [Op.exec]
      rw [h.value]
      exact outb_slave_toSettings h.slave
  | andOut port bits =>
    refine ⟨?_, ?_, congrArg (· &&& ~~~bits) h.value⟩
    · dsimp only [Op.exec]
      rw [h.value]
      exact outb_master_toSettings h.master
    · dsimp only [Op.exec]
      rw [h.value]
      exact outb_slave_toSettings h.slave
  | cli => exact ⟨h.master, h.slave, h.value⟩
  | sti => exact ⟨h.master, h.slave, h.value⟩

theorem Ports.Alike.run {ops : List Op} (hops : ∀ op ∈ ops, op.programs = true) (h : s.Alike t) :
    (Irq.run ops s).Alike (Irq.run ops t) := by
  induction ops generalizing s t with
  | nil => exact h
  | cons op ops ih =>
    exact ih (fun op hop => hops op (List.mem_cons_of_mem _ hop)) (h.exec (hops op List.mem_cons_self))

private theorem exec_isr (h : op.programs = true) : (op.exec s).pics.master.isr = s.pics.master.isr ∧
    (op.exec s).pics.slave.isr = s.pics.slave.isr := by
  cases op with
  | outb port value => exact outb_isr (of_decide_eq_true h)
  | inb port => exact ⟨rfl, rfl⟩
  | orOut port bits => exact outb_isr ((of_decide_eq_true h).imp_right .inl)
  | andOut port bits => exact outb_isr ((of_decide_eq_true h).imp_right .inl)
  | cli => exact ⟨rfl, rfl⟩
  | sti => exact ⟨rfl, rfl⟩

private theorem exec_interrupts (h : op.programs = true) (hs : s.interrupts = false) :
    (op.exec s).interrupts = false := by
  cases op with
  | sti => cases h
  | cli => rfl
  | _ => exact hs

/-- **The setup programs the controllers**, whatever it finds. -/
theorem run_setup (p : Pair) (interrupts : Bool) :
    (run setup ⟨p, 0, interrupts⟩).pics.master.toSettings = masterSet ∧
      (run setup ⟨p, 0, interrupts⟩).pics.slave.toSettings = slaveSet := by
  let remapped : Ports :=
    ⟨⟨⟨⟨0, 0x20, 4, false, .ready⟩, 0, 0⟩, ⟨⟨0, 0x28, 2, false, .ready⟩, 0, 0⟩⟩, 0, false⟩
  have hremap : (run picRemap ⟨p, 0, interrupts⟩).Alike remapped := ⟨rfl, rfl, rfl⟩
  have hmask : (run (setup.drop 8) (run picRemap ⟨p, 0, interrupts⟩)).Alike
      (run (setup.drop 8) remapped) := hremap.run (by decide)
  have hsplit : run setup ⟨p, 0, interrupts⟩ =
      run (setup.drop 8) (run picRemap ⟨p, 0, interrupts⟩) := List.foldl_append
  rw [hsplit]
  exact ⟨hmask.master.trans (by decide), hmask.slave.trans (by decide)⟩

end ports

/-- A statement that unmasks one of the first two lines reads the masks, or writes what it read. -/
theorem late_cases {op : Op} {ops : List Op} (h : op :: ops <:+ late) : op = .inb masterData ∨
    op :: ops ≠ late ∧ ∃ bits : Byte, ~~~bits &&& 0xFC = 0xFC ∧ op = .andOut masterData bits := by
  have hall : ∀ l ∈ late.tails, ∀ op ops, l = op :: ops → op = .inb masterData ∨
      op :: ops ≠ late ∧ (op = .andOut masterData 1 ∨ op = .andOut masterData 2) := by
    intro l hl op ops hcons
    have htails : late.tails = [late, late.drop 1, late.drop 2, late.drop 3, []] := by decide
    rw [htails] at hl
    simp only [List.mem_cons, List.not_mem_nil, or_false] at hl
    rcases hl with rfl | rfl | rfl | rfl | rfl
    · exact .inl (List.cons.inj hcons).1.symm
    · exact .inr ⟨by rw [← hcons]; decide, .inl (List.cons.inj hcons).1.symm⟩
    · exact .inl (List.cons.inj hcons).1.symm
    · exact .inr ⟨by rw [← hcons]; decide, .inr (List.cons.inj hcons).1.symm⟩
    · cases hcons
  rcases hall _ ((List.mem_tails _ _).mpr h) op ops rfl with hin | ⟨hne, hout | hout⟩
  · exact .inl hin
  · exact .inr ⟨hne, 1, by decide, hout⟩
  · exact .inr ⟨hne, 2, by decide, hout⟩

/-! ## Masks -/

/-- A call of `irq_mask` or `irq_unmask`, for a line at which the shift is defined. -/
structure MaskCall where
  masks : Bool
  line : Fin 40

namespace MaskCall

def irqLine (c : MaskCall) : Byte := BitVec.ofNat 8 c.line

def ops (c : MaskCall) : List Op := if c.masks then irqMask c.irqLine else irqUnmask c.irqLine

private theorem toNat_irqLine (c : MaskCall) : c.irqLine.toNat = c.line := by
  unfold irqLine
  rw [BitVec.toNat_ofNat]
  omega

end MaskCall

/-- Whether a line is masked. -/
def masked (p : Pair) (n : Fin 16) : Bool :=
  if n.val < 8 then p.master.imr.getLsbD n else p.slave.imr.getLsbD (n - 8)

/-- Both controllers take masks. -/
structure Ready (p : Pair) : Prop where
  master : p.master.phase = .ready
  slave : p.slave.phase = .ready

private theorem getLsbD_lineBits {irqLine : Byte} (hline : irqLine.toNat < 32) {k : Nat} (hk : k < 8) :
    (lineBits irqLine).getLsbD k = decide (irqLine.toNat = k) := by
  have hshift : lineBits irqLine = (BitVec.twoPow 32 (irqLine.toNat % 32)).setWidth 8 := rfl
  rw [hshift, Nat.mod_eq_of_lt hline, BitVec.getLsbD_setWidth, BitVec.getLsbD_twoPow,
    Bool.eq_iff_iff]
  simp only [Bool.and_eq_true, decide_eq_true_eq]
  omega

/-- What a call leaves of the byte it read. -/
def MaskCall.write (c : MaskCall) (value : Byte) : Byte :=
  if c.masks then value ||| lineBits (wiredTo c.irqLine).2
  else value &&& ~~~lineBits (wiredTo c.irqLine).2

/-- The count of the shift is one at which it is defined. -/
theorem MaskCall.wired_lt (c : MaskCall) : (wiredTo c.irqLine).2.toNat < 32 := by
  have hnat := c.toNat_irqLine
  have hline := c.line.isLt
  unfold wiredTo
  split
  · next hlow =>
    have hlow : c.irqLine.toNat < 8 := hlow
    exact Nat.lt_trans hlow (by decide)
  · next hlow =>
    have hsub : (c.irqLine - 8).toNat = c.irqLine.toNat - 8 :=
      BitVec.toNat_sub_of_le (x := c.irqLine) (y := 8) (Nat.le_of_not_lt hlow)
    show (c.irqLine - 8).toNat < 32
    omega

private theorem MaskCall.getLsbD_write (c : MaskCall) (value : Byte) {k : Nat} (hk : k < 8) :
    (c.write value).getLsbD k =
      if (wiredTo c.irqLine).2.toNat = k then c.masks else value.getLsbD k := by
  unfold write
  split
  · next hmask =>
    rw [BitVec.getLsbD_or, getLsbD_lineBits c.wired_lt hk, hmask]
    split_ifs with h
    · rw [decide_eq_true h, Bool.or_true]
    · rw [decide_eq_false h, Bool.or_false]
  · next hmask =>
    rw [BitVec.getLsbD_and, BitVec.getLsbD_not, getLsbD_lineBits c.wired_lt hk, decide_eq_true hk]
    split_ifs with h
    · rw [decide_eq_true h, Bool.true_and, Bool.not_true, Bool.and_false, Bool.eq_false_iff.mpr hmask]
    · rw [decide_eq_false h, Bool.true_and, Bool.not_false, Bool.and_true]

private theorem MaskCall.run_pics (c : MaskCall) (s : Ports) : (run c.ops s).pics =
    s.pics.outb (wiredTo c.irqLine).1 (c.write (s.pics.inb (wiredTo c.irqLine).1)) := by
  unfold ops write
  split <;> rfl

/-- One call moves its line, and no other. -/
theorem MaskCall.run_masked (c : MaskCall) {s : Ports} (h : Ready s.pics) :
    Ready (run c.ops s).pics ∧ ∀ n : Fin 16, masked (run c.ops s).pics n =
      if c.line = n.val then c.masks else masked s.pics n := by
  rw [c.run_pics s]
  have hnat := c.toNat_irqLine
  by_cases hlow : c.irqLine < 8
  · have hwired : wiredTo c.irqLine = (masterData, c.irqLine) := if_pos hlow
    have hline : c.irqLine.toNat < 8 := hlow
    have himr : (s.pics.outb masterData (c.write (s.pics.inb masterData))).master.toSettings =
        { s.pics.master.toSettings with imr := c.write s.pics.master.imr } :=
      Settings.data_of_ready h.master
    rw [hwired]
    refine ⟨⟨(congrArg Settings.phase himr).trans h.master, h.slave⟩, fun n => ?_⟩
    unfold masked
    by_cases hn : n.val < 8
    · rw [if_pos hn, if_pos hn]
      refine (congrArg (fun x : Settings => x.imr.getLsbD n) himr).trans ?_
      rw [c.getLsbD_write _ hn, hwired, ← hnat]
    · rw [if_neg hn, if_neg hn, if_neg (by omega)]
      rfl
  · have hwired : wiredTo c.irqLine = (slaveData, c.irqLine - 8) := if_neg hlow
    have hline : 8 ≤ c.irqLine.toNat := Nat.le_of_not_lt hlow
    have hsub : (c.irqLine - 8).toNat = c.irqLine.toNat - 8 :=
      BitVec.toNat_sub_of_le (x := c.irqLine) (y := 8) hline
    have himr : (s.pics.outb slaveData (c.write (s.pics.inb slaveData))).slave.toSettings =
        { s.pics.slave.toSettings with imr := c.write s.pics.slave.imr } :=
      Settings.data_of_ready h.slave
    rw [hwired]
    refine ⟨⟨h.master, (congrArg Settings.phase himr).trans h.slave⟩, fun n => ?_⟩
    unfold masked
    by_cases hn : n.val < 8
    · rw [if_pos hn, if_pos hn, if_neg (by omega)]
      rfl
    · rw [if_neg hn, if_neg hn]
      refine (congrArg (fun x : Settings => x.imr.getLsbD (n - 8)) himr).trans ?_
      rw [c.getLsbD_write _ (by omega), hwired]
      dsimp only
      rw [hsub, ← hnat]
      congr 1
      exact propext ⟨fun _ => by omega, fun _ => by omega⟩

/-- The last call on a line. -/
def lastCall (calls : List MaskCall) (n : Fin 16) : Option MaskCall :=
  calls.reverse.find? fun c => c.line.val = n.val

private theorem lastCall_concat (calls : List MaskCall) (c : MaskCall) (n : Fin 16) :
    lastCall (calls ++ [c]) n = if c.line.val = n.val then some c else lastCall calls n := by
  unfold lastCall
  rw [List.reverse_concat, List.find?_cons]
  split_ifs with hc
  · rw [decide_eq_true hc]
  · rw [decide_eq_false hc]

private theorem run_masked (calls : List MaskCall) {s : Ports} (h : Ready s.pics) :
    Ready (run (calls.flatMap MaskCall.ops) s).pics ∧
      ∀ n, masked (run (calls.flatMap MaskCall.ops) s).pics n =
        ((lastCall calls n).map MaskCall.masks).getD (masked s.pics n) := by
  induction calls using List.reverseRecOn with
  | nil => exact ⟨h, fun _ => rfl⟩
  | append_singleton calls c ih =>
    have hrun : run ((calls ++ [c]).flatMap MaskCall.ops) s =
        run c.ops (run (calls.flatMap MaskCall.ops) s) := by
      unfold run
      rw [List.flatMap_append, List.foldl_append, List.flatMap_singleton]
    obtain ⟨hready, hmasked⟩ := c.run_masked ih.1
    rw [hrun]
    refine ⟨hready, fun n => ?_⟩
    rw [hmasked n, ih.2 n, lastCall_concat]
    split_ifs <;> rfl

/-- **A line is masked if the last call on it was `irq_mask`**, whatever was called for other lines
and for the lines from 16 to 39, which do not exist. Beyond those the shift is undefined. -/
theorem masked_after_calls (calls : List MaskCall) {s : Ports} (h : Ready s.pics) (n : Fin 16) :
    masked (run (calls.flatMap MaskCall.ops) s).pics n =
      ((lastCall calls n).map MaskCall.masks).getD (masked s.pics n) :=
  (run_masked calls h).2 n

theorem masked_after_calls_remapped :
    masked (run ([⟨true, 3⟩, ⟨true, 9⟩, ⟨false, 3⟩, ⟨true, 21⟩].flatMap MaskCall.ops)
      ⟨⟨⟨masterSet, 0, 0⟩, ⟨slaveSet, 0, 0⟩⟩, 0, false⟩).pics 3 = false :=
  masked_after_calls _ ⟨rfl, rfl⟩ 3

/-! ## What code owes -/

/-- The line that some code has still to report. -/
def Code.owes : Code → Option (Fin 8)
  | .isrTimer | .copyFrame => some 0
  | .isrKeyboard => some 1
  | .eoi line (_ :: _) => some line
  | .main _ _ | .eoi _ [] | .leave | .exception _ => none

def Activation.owes (a : Activation) : Option (Fin 8) := a.code.owes

/-- What is in service when this is owed. -/
def inService : Option (Fin 8) → Byte
  | none => 0
  | some n => bit n

/-- What the executing code owes. -/
def Context.owes (context : Context) : Option (Fin 8) := context.head?.bind Activation.owes

/-- No line but the first two is open. -/
def Narrow (imr : Byte) : Prop := imr &&& 0xFC = 0xFC

/-- Code as it can be met once interrupts are on. -/
def Activation.Sound (a : Activation) : Prop :=
  match a.code with
  | .main ops value => ops <:+ late ∧ (ops = [] ∨ ops = late ∨ Narrow value)
  | .isrTimer | .isrKeyboard => a.interrupts = false
  | .copyFrame | .leave => True
  | .eoi line ops => ops = [] ∨
      ops = [.outb masterCmd 0x20] ∧ (line = 0 ∨ line = 1 ∧ a.interrupts = false)
  | .exception _ => False

/-- Code that may be interrupted and resumed. -/
structure Activation.Settled (a : Activation) : Prop where
  sound : a.Sound
  owes : a.owes = none

def Context.Settled (context : Context) : Prop := ∀ a ∈ context, a.Settled

private theorem Starts.settled {context : Context} (h : Starts context) : context.Settled := by
  obtain ⟨interrupts, rfl⟩ := h
  intro a ha
  cases List.mem_singleton.mp ha
  exact ⟨⟨List.nil_suffix, .inl rfl⟩, rfl⟩

/-- With interrupts on, only the timer's handler owes something. -/
theorem Activation.Sound.owes_of_interrupts {a : Activation} (h : a.Sound)
    (hint : a.interrupts = true) : a.owes = none ∨ a.owes = some 0 := by
  obtain ⟨code, interrupts⟩ := a
  cases hint
  cases code with
  | main ops value => exact .inl rfl
  | isrTimer => cases h
  | copyFrame => exact .inr rfl
  | isrKeyboard => cases h
  | leave => exact .inl rfl
  | exception vector => exact .inl rfl
  | eoi line ops =>
    rcases h with rfl | ⟨rfl, rfl | ⟨-, hfalse⟩⟩
    · exact .inl rfl
    · exact .inr rfl
    · cases hfalse

private theorem enter_spurious (interrupts : Bool) : enter 0x27 interrupts = ⟨.leave, false⟩ := rfl

/-- The handler of a line owes that line. -/
theorem enter_line {n : Fin 8} (h : n = 0 ∨ n = 1) (interrupts : Bool) :
    (enter (0x20 + BitVec.ofNat 8 n) interrupts).Sound ∧
      (enter (0x20 + BitVec.ofNat 8 n) interrupts).owes = some n ∧
      (enter (0x20 + BitVec.ofNat 8 n) interrupts).code ≠ .copyFrame := by
  rcases h with rfl | rfl
  · exact ⟨rfl, rfl, Code.noConfusion⟩
  · exact ⟨rfl, rfl, Code.noConfusion⟩

/-! ## The invariant -/

/-- The controllers past the setup. -/
structure Programmed (p : Pair) : Prop where
  base : p.master.base = 0x20
  ready : p.master.phase = .ready
  auto : p.master.autoEoi = false
  narrow : Narrow p.master.imr
  slave : p.slave.toSettings = slaveSet

namespace Programmed

variable {p : Pair} {n : Fin 8}

private theorem congr {q : Pair} (h : Programmed p) (hm : q.master.toSettings = p.master.toSettings)
    (hs : q.slave.toSettings = p.slave.toSettings) : Programmed q where
  base := (congrArg Settings.base hm).trans h.base
  ready := (congrArg Settings.phase hm).trans h.ready
  auto := (congrArg Settings.autoEoi hm).trans h.auto
  narrow := by
    have himr : q.master.imr = p.master.imr := congrArg Settings.imr hm
    rw [himr]
    exact h.narrow
  slave := hs.trans h.slave

/-- Only the first two lines get through. -/
theorem line_of_next (h : Programmed p) {r : Byte} (hn : p.master.next r = some n) :
    n = 0 ∨ n = 1 := by
  have hopen := Chip.getLsbD_imr_of_next hn
  have hall : ∀ k : Fin 8, (0xFC : Byte).getLsbD k = true ∨ k = 0 ∨ k = 1 := by decide
  refine (hall n).resolve_left fun hbit => ?_
  have hmasked : (p.master.imr &&& 0xFC).getLsbD n = true := by
    rw [h.narrow]
    exact hbit
  rw [BitVec.getLsbD_and, hopen] at hmasked
  cases hmasked

/-- An acknowledge: the spurious vector, or one of two lines that is then in service. -/
theorem acknowledge (h : Programmed p) (hisr : p.master.isr = 0) :
    p.acknowledge = (0x27, p) ∨ ∃ n : Fin 8, (n = 0 ∨ n = 1) ∧
      p.acknowledge = (0x20 + BitVec.ofNat 8 n, { p with master := p.master.serve n }) ∧
      (p.master.serve n).isr = bit n := by
  unfold Pair.acknowledge
  split
  · rw [h.base]
    exact .inl rfl
  · next n hn =>
    have hline := h.line_of_next hn
    have htwo : n ≠ 2 := by
      rcases hline with rfl | rfl <;> decide
    rw [if_neg htwo, h.base]
    exact .inr ⟨n, hline, rfl, Chip.serve_isr h.auto hisr⟩

/-- Masks that open no further line. -/
theorem outb_masterData (h : Programmed p) {value : Byte} (hv : Narrow value) :
    Programmed (p.outb masterData value) := by
  have hmaster : (p.outb masterData value).master.toSettings =
      { p.master.toSettings with imr := value } := Settings.data_of_ready h.ready
  exact ⟨(congrArg Settings.base hmaster).trans h.base, (congrArg Settings.phase hmaster).trans h.ready,
    (congrArg Settings.autoEoi hmaster).trans h.auto,
    (congrArg (fun x : Settings => x.imr &&& 0xFC) hmaster).trans hv, h.slave⟩

/-- The end of the interrupt that is in service. -/
theorem outb_eoi (h : Programmed p) (hisr : p.master.isr = bit n) :
    Programmed (p.outb masterCmd 0x20) ∧ (p.outb masterCmd 0x20).master.isr = 0 :=
  ⟨h.congr Chip.command_toSettings rfl, Chip.command_eoi_isr hisr⟩

/-- Behind the timer no interrupt gets through. -/
theorem int_of_serving_zero (h : p.master.isr = bit 0) : p.int = false := by
  unfold Pair.int
  rw [Chip.next_of_serving_zero h]
  rfl

end Programmed

namespace Machine

variable {P Q : Type} [DecidableEq P] [DecidableEq Q] {m m' : Machine P Q}

/-- The state past the setup. -/
structure Orderly (m : Machine P Q) : Prop where
  programmed : Programmed m.pics
  serving : m.pics.master.isr = inService m.cpu.owes
  slave : m.pics.slave.isr = 0
  sound : ∀ a ∈ m.cpu.head?, a.Sound
  below : Context.Settled m.cpu.tail
  saved : ∀ t, Context.Settled (m.sched.toCore.saved t)
  noticed : m.noticed = true → m.cpu.owes = none
  copies : ∀ a ∈ m.cpu.head?, a.code = .copyFrame → ∃ now,
    m.sched.currThread = some now ∧ m.ticked = some (m.sched.toCore.saved now, m.sched)

/-- The state before that: `ops` of the setup are left, and they will program the controllers. -/
structure Booting (m : Machine P Q) (ops : List Op) (value : Byte) : Prop where
  left : ops <:+ setup
  cpu : m.cpu = [⟨.main (ops ++ .sti :: late) value, false⟩]
  master : m.pics.master.isr = 0
  slave : m.pics.slave.isr = 0
  quiet : m.noticed = false
  saved : ∀ t, Context.Settled (m.sched.toCore.saved t)
  leads : (run ops ⟨m.pics, value, false⟩).pics.master.toSettings = masterSet ∧
    (run ops ⟨m.pics, value, false⟩).pics.slave.toSettings = slaveSet

/-! ## The steps -/

namespace Orderly

variable {a : Activation} {frame : Context} {fuel : Nat} {data : Byte}

section

omit [DecidableEq P] [DecidableEq Q]

/-- The executing code goes on to `a`, over the same controllers and threads. -/
theorem goto (h : m.Orderly) (hsound : a.Sound) (hbelow : Context.Settled frame)
    (howes : a.owes = m.cpu.owes) (hcopy : a.code ≠ .copyFrame)
    (hquiet : m.noticed = false) : { m with cpu := a :: frame }.Orderly where
  programmed := h.programmed
  serving := h.serving.trans (congrArg inService howes.symm)
  slave := h.slave
  sound b hb := by
    cases hb
    exact hsound
  below := hbelow
  saved := h.saved
  noticed hn := by
    have hn : m.noticed = true := hn
    rw [hquiet] at hn
    cases hn
  copies b hb hcode := by
    cases hb
    exact absurd hcode hcopy

/-- The interrupted code, or a thread, goes on. -/
theorem resume (h : m.Orderly) (howes : m.cpu.owes = none) (hframe : Context.Settled frame) :
    { m with cpu := frame, noticed := false }.Orderly where
  programmed := h.programmed
  serving := by
    have hnone : frame.owes = none := by
      cases frame with
      | nil => rfl
      | cons a frame => exact (hframe a List.mem_cons_self).owes
    rw [hnone, ← howes]
    exact h.serving
  slave := h.slave
  sound b hb := (hframe b (List.mem_of_mem_head? hb)).sound
  below b hb := hframe b (List.mem_of_mem_tail hb)
  saved := h.saved
  noticed hn := by cases hn
  copies b hb hcode := by
    have hsettled := (hframe b (List.mem_of_mem_head? hb)).owes
    unfold Activation.owes at hsettled
    rw [hcode] at hsettled
    cases hsettled

/-- A handler that owes nothing is left. -/
theorem resumeBelow (h : m.Orderly) (hquiet : m.noticed = false) (hc : m.cpu = a :: frame)
    (howes : a.owes = none) : { m with cpu := frame }.Orderly := by
  have hres : { m with cpu := frame, noticed := false }.Orderly :=
    h.resume (by rw [hc]; exact howes) fun b hb => h.below b (by rw [hc]; exact hb)
  rw [← hquiet] at hres
  exact hres

private theorem wire (h : m.Orderly) (line : Fin 16) (high : Bool) :
    { m with pics := m.pics.wire line high }.Orderly :=
  ⟨h.programmed.congr Pair.wire_master_toSettings Pair.wire_slave_toSettings,
    Pair.wire_master_isr.trans h.serving, Pair.wire_slave_isr.trans h.slave, h.sound, h.below, h.saved,
    h.noticed, h.copies⟩

/-- With the flag set and the output of the controllers up, nothing is owed. -/
theorem owes_of_int (h : m.Orderly) (hc : m.cpu = a :: frame) (hflag : a.interrupts = true)
    (hint : m.pics.int = true) : m.cpu.owes = none := by
  have hsound : a.Sound := h.sound a (by rw [hc]; rfl)
  have hserving := h.serving
  rw [hc] at hserving ⊢
  refine (hsound.owes_of_interrupts hflag).resolve_right fun howes => ?_
  have hzero : m.pics.master.isr = bit 0 := by
    rw [hserving]
    exact congrArg inService howes
  rw [Programmed.int_of_serving_zero hzero] at hint
  cases hint

private theorem acknowledge (h : m.Orderly) (hc : m.cpu = a :: frame) (hn : m.noticed = true) :
    { m with
      pics := m.pics.acknowledge.2
      noticed := false
      cpu := enter m.pics.acknowledge.1 a.interrupts :: a :: frame }.Orderly := by
  have howes := h.noticed hn
  have hisr : m.pics.master.isr = 0 := by
    rw [h.serving, howes]
    rfl
  have hbelow : Context.Settled (a :: frame) := by
    intro b hb
    rcases List.mem_cons.mp hb with rfl | hb
    · rw [hc] at howes
      exact ⟨h.sound b (by rw [hc]; rfl), howes⟩
    · exact h.below b (by rw [hc]; exact hb)
  have hquiet : { m with noticed := false }.Orderly :=
    ⟨h.programmed, h.serving, h.slave, h.sound, h.below, h.saved, fun _ => howes, h.copies⟩
  rcases h.programmed.acknowledge hisr with hack | ⟨n, hline, hack, hserve⟩
  · rw [hack]
    dsimp only
    rw [enter_spurious]
    exact hquiet.goto trivial hbelow howes.symm Code.noConfusion rfl
  · rw [hack]
    dsimp only
    obtain ⟨hsound, hline, hcopy⟩ := enter_line hline a.interrupts
    refine ⟨h.programmed.congr rfl rfl, ?_, h.slave, ?_, hbelow, h.saved, ?_, ?_⟩
    · exact hserve.trans (congrArg inService hline.symm)
    · intro b hb
      cases hb
      exact hsound
    · intro hfalse
      cases hfalse
    · intro b hb hcode
      cases hb
      exact absurd hcode hcopy

/-- A statement of the boot with interrupts on. -/
theorem main (h : m.Orderly) (hquiet : m.noticed = false) {op : Op} {ops : List Op} {value : Byte}
    {interrupts : Bool} (hc : m.cpu = ⟨.main (op :: ops) value, interrupts⟩ :: frame) :
    { m with
      pics := (op.exec ⟨m.pics, value, interrupts⟩).pics
      cpu := ⟨.main ops (op.exec ⟨m.pics, value, interrupts⟩).value,
        (op.exec ⟨m.pics, value, interrupts⟩).interrupts⟩ :: frame }.Orderly := by
  obtain ⟨hsuffix, hvalue⟩ : Activation.Sound ⟨.main (op :: ops) value, interrupts⟩ :=
    h.sound _ (by rw [hc]; rfl)
  have hrest : ops <:+ late := (List.suffix_cons op ops).trans hsuffix
  have hbelow : Context.Settled frame := fun b hb => h.below b (by rw [hc]; exact hb)
  have howes : m.cpu.owes = none := by
    rw [hc]
    rfl
  rcases late_cases hsuffix with rfl | ⟨hne, bits, hbits, rfl⟩
  · exact h.goto ⟨hrest, .inr (.inr h.programmed.narrow)⟩ hbelow howes.symm Code.noConfusion hquiet
  · have hnarrow : Narrow value := by
      rcases hvalue with hnil | hlate | hnarrow
      · cases hnil
      · exact absurd hlate hne
      · exact hnarrow
    have hwritten : Narrow (value &&& ~~~bits) := by
      unfold Narrow at hnarrow ⊢
      rw [BitVec.and_assoc, hbits, hnarrow]
    have hpics : { m with pics := m.pics.outb masterData (value &&& ~~~bits) }.Orderly :=
      ⟨h.programmed.outb_masterData hwritten, h.serving, h.slave, h.sound, h.below, h.saved,
        h.noticed, h.copies⟩
    exact hpics.goto ⟨hrest, .inr (.inr hwritten)⟩ hbelow howes.symm Code.noConfusion hquiet

end

/-- `isr_timer`, up to the end of `unlock_scheduler`. -/
theorem tick (h : m.Orderly) (hquiet : m.noticed = false) {interrupts : Bool}
    (hc : m.cpu = ⟨.isrTimer, interrupts⟩ :: frame) {r : Context × Sched P Q Context}
    (hr : (m.sched.mapCore fun c => { c with interruptFlag := interrupts }).pitTick fuel frame =
      .ok r) :
    { m with
      sched := r.2
      ticked := some r
      cpu := ⟨if m.sched.currThread.isSome then .copyFrame else .eoi 0 (eoi 0),
        r.2.interruptFlag⟩ :: frame }.Orderly := by
  have hbelow : Context.Settled frame := fun b hb => h.below b (by rw [hc]; exact hb)
  have hserving : m.pics.master.isr = bit 0 := by
    rw [h.serving, hc]
    rfl
  rcases Sched.pitTick_saved hr with ⟨hnone, -, hsaved⟩ | ⟨cur, now, hcur, hnow, hout, hsaved⟩
  · have hnone : m.sched.currThread = none := hnone
    rw [hnone]
    refine ⟨h.programmed, hserving, h.slave, ?_, hbelow, ?_, ?_, ?_⟩
    · intro b hb
      cases hb
      exact .inr ⟨rfl, .inl rfl⟩
    · intro t
      dsimp only
      rw [hsaved]
      exact h.saved t
    · intro hn
      have hn : m.noticed = true := hn
      rw [hquiet] at hn
      cases hn
    · intro b hb hcode
      cases hb
      cases hcode
  · have hcur : m.sched.currThread = some cur := hcur
    rw [hcur]
    refine ⟨h.programmed, hserving, h.slave, ?_, hbelow, ?_, ?_, ?_⟩
    · intro b hb
      cases hb
      trivial
    · intro t
      dsimp only
      rw [hsaved]
      by_cases ht : t = cur
      · rw [ht, Function.update_self]
        exact hbelow
      · rw [Function.update_of_ne ht]
        exact h.saved t
    · intro hn
      have hn : m.noticed = true := hn
      rw [hquiet] at hn
      cases hn
    · intro b _ _
      refine ⟨now, hnow, ?_⟩
      dsimp only
      rw [← hout]

omit [DecidableEq P] [DecidableEq Q] in
/-- The statement of an `eoi`. -/
theorem report (h : m.Orderly) (hquiet : m.noticed = false) {line : Fin 8} {op : Op} {ops : List Op}
    {interrupts : Bool} (hc : m.cpu = ⟨.eoi line (op :: ops), interrupts⟩ :: frame) :
    { m with
      pics := (op.exec ⟨m.pics, 0, interrupts⟩).pics
      cpu := ⟨.eoi line ops, (op.exec ⟨m.pics, 0, interrupts⟩).interrupts⟩ :: frame }.Orderly := by
  have hsound : Activation.Sound ⟨.eoi line (op :: ops), interrupts⟩ := h.sound _ (by rw [hc]; rfl)
  have hbelow : Context.Settled frame := fun b hb => h.below b (by rw [hc]; exact hb)
  have hserving : m.pics.master.isr = bit line := by
    rw [h.serving, hc]
    rfl
  rcases hsound with hnil | ⟨hops, -⟩
  · cases hnil
  · cases hops
    obtain ⟨hprog, hisr⟩ := h.programmed.outb_eoi hserving
    refine ⟨hprog, hisr, h.slave, ?_, hbelow, h.saved, ?_, ?_⟩
    · intro b hb
      cases hb
      exact .inl rfl
    · intro hn
      have hn : m.noticed = true := hn
      rw [hquiet] at hn
      cases hn
    · intro b hb hcode
      cases hb
      cases hcode

theorem go (h : m.Orderly) (hquiet : m.noticed = false) (hgo : m.go fuel data = some m') :
    m'.Orderly := by
  unfold Machine.go at hgo
  split at hgo
  · cases hgo
  · cases hgo
  · next op ops value interrupts frame hc =>
    cases hgo
    exact h.main hquiet hc
  · next interrupts frame hc =>
    split at hgo
    · cases hgo
    · next r hr =>
      cases hgo
      exact h.tick hquiet hc hr
  · next interrupts frame hc =>
    split at hgo
    · cases hgo
    · next cur hcur =>
      cases hgo
      refine h.goto (.inr ⟨rfl, .inl rfl⟩) (h.saved cur) ?_ Code.noConfusion hquiet
      rw [hc]
      rfl
  · next interrupts frame hc =>
    split at hgo
    · cases hgo
    · next k hk =>
      cases hgo
      have hflag : Activation.Sound ⟨.isrKeyboard, interrupts⟩ := h.sound _ (by rw [hc]; rfl)
      have hkey : { m with keyboard := k }.Orderly :=
        ⟨h.programmed, h.serving, h.slave, h.sound, h.below, h.saved, h.noticed, h.copies⟩
      refine hkey.goto (.inr ⟨rfl, .inr ⟨rfl, hflag⟩⟩) (fun b hb => h.below b (by rw [hc]; exact hb)) ?_
        Code.noConfusion hquiet
      dsimp only
      rw [hc]
      rfl
  · next line op ops interrupts frame hc =>
    cases hgo
    exact h.report hquiet hc
  · next line interrupts frame hc =>
    split_ifs at hgo
    cases hgo
    exact h.resumeBelow hquiet hc rfl
  · next interrupts frame hc =>
    split_ifs at hgo
    cases hgo
    exact h.resumeBelow hquiet hc rfl
  · cases hgo

end Orderly

omit [DecidableEq P] [DecidableEq Q] in
theorem owes_of_elsewhere (h : m.elsewhere = true) : m.cpu.owes = none := by
  unfold elsewhere at h
  split at h
  · next hc =>
    rw [hc]
    rfl
  · cases h

theorem Orderly.step (h : m.Orderly) {fuel : Nat} {i : Action P Q} (hallowed : m.Allowed i)
    (hnext : m.next fuel i = some m') : m'.Orderly := by
  cases i with
  | wire line high =>
    cases hnext
    exact h.wire line high
  | notice =>
    dsimp only [next] at hnext
    split at hnext
    · cases hnext
    · next a frame hc =>
      split_ifs at hnext with hint
      cases hnext
      exact ⟨h.programmed, h.serving, h.slave, h.sound, h.below, h.saved,
        fun _ => h.owes_of_int hc hint.1 hint.2, h.copies⟩
  | acknowledge =>
    dsimp only [next] at hnext
    split at hnext
    · cases hnext
    · next a frame hc =>
      split_ifs at hnext with hn
      cases hnext
      exact h.acknowledge hc hn
  | go data =>
    dsimp only [next] at hnext
    split_ifs at hnext with hn
    exact h.go (Bool.eq_false_iff.mpr hn) hnext
  | setInterrupts flag =>
    dsimp only [next] at hnext
    split at hnext
    · next value interrupts frame hc =>
      split_ifs at hnext with hn
      cases hnext
      have hsound : Activation.Sound ⟨.main [] value, interrupts⟩ := h.sound _ (by rw [hc]; rfl)
      refine h.goto hsound (fun b hb => h.below b (by rw [hc]; exact hb)) ?_ Code.noConfusion
        (Bool.eq_false_iff.mpr hn)
      rw [hc]
      rfl
    · cases hnext
  | other sched =>
    dsimp only [next] at hnext
    split_ifs at hnext with hn
    cases hnext
    obtain ⟨-, he⟩ := not_or.mp hn
    have howes := owes_of_elsewhere (Decidable.not_not.mp he)
    refine ⟨h.programmed, h.serving, h.slave, h.sound, h.below, ?_, h.noticed, ?_⟩
    · intro t
      rcases hallowed t with hsame | hstarts
      · have hkept : sched.toCore.saved t = m.sched.toCore.saved t := hsame
        dsimp only
        rw [hkept]
        exact h.saved t
      · exact hstarts.settled
    · intro b hb hcode
      have howes : m.cpu.head?.bind Activation.owes = none := howes
      have hb : m.cpu.head? = some b := hb
      rw [hb] at howes
      have hnone : b.code.owes = none := howes
      rw [hcode] at hnone
      cases hnone
  | resume t =>
    dsimp only [next] at hnext
    split_ifs at hnext with hn
    cases hnext
    obtain ⟨hn, he⟩ := not_or.mp hn
    have hres : { m with cpu := m.sched.toCore.saved t, noticed := false }.Orderly :=
      h.resume (owes_of_elsewhere (Decidable.not_not.mp he)) (h.saved t)
    rw [← Bool.eq_false_iff.mpr hn] at hres
    exact hres

/-- The setup goes on, and its last statement ends it. -/
theorem Booting.step {ops : List Op} {value : Byte} (h : m.Booting ops value) {fuel : Nat}
    {i : Action P Q} (hnext : m.next fuel i = some m') :
    m'.Orderly ∨ ∃ ops' value', m'.Booting ops' value' := by
  obtain ⟨pics, noticed, sched, keyboard, cpu, ticked⟩ := m
  obtain ⟨hleft, hcpu, hmaster, hslave, hquiet, hsaved, hleads⟩ := h
  cases hcpu
  cases hquiet
  have hops : ∀ op ∈ ops, op.programs = true := fun op hop =>
    programs_of_mem_setup op (hleft.subset hop)
  cases i with
  | wire line high =>
    cases hnext
    have halike : Ports.Alike ⟨pics.wire line high, value, false⟩ ⟨pics, value, false⟩ :=
      ⟨Pair.wire_master_toSettings, Pair.wire_slave_toSettings, rfl⟩
    have hrun := halike.run hops
    exact .inr ⟨ops, value, hleft, rfl, Pair.wire_master_isr.trans hmaster,
      Pair.wire_slave_isr.trans hslave, rfl, hsaved, hrun.master.trans hleads.1,
      hrun.slave.trans hleads.2⟩
  | notice => cases hnext
  | acknowledge => cases hnext
  | setInterrupts flag =>
    cases ops <;> cases hnext
  | other sched =>
    cases ops <;> cases hnext
  | resume t =>
    cases ops <;> cases hnext
  | go data =>
    cases ops with
    | nil =>
      cases hnext
      refine .inl ⟨?_, hmaster, hslave, ?_, ?_, hsaved, ?_, ?_⟩
      · obtain ⟨hm, hs⟩ := hleads
        have hm : pics.master.toSettings = masterSet := hm
        refine ⟨congrArg Settings.base hm, congrArg Settings.phase hm, congrArg Settings.autoEoi hm, ?_,
          hs⟩
        exact congrArg (fun x : Settings => x.imr &&& 0xFC) hm
      · intro b hb
        cases hb
        exact ⟨List.suffix_rfl, .inr (.inl rfl)⟩
      · intro b hb
        cases hb
      · intro hn
        cases hn
      · intro b hb hcode
        cases hb
        cases hcode
    | cons op ops =>
      cases hnext
      have hop := hops op List.mem_cons_self
      obtain ⟨hm, hs⟩ := exec_isr hop (s := ⟨pics, value, false⟩)
      have hoff := exec_interrupts hop (s := ⟨pics, value, false⟩) rfl
      have hleads : (run ops (op.exec ⟨pics, value, false⟩)).pics.master.toSettings = masterSet ∧
          (run ops (op.exec ⟨pics, value, false⟩)).pics.slave.toSettings = slaveSet := hleads
      generalize op.exec ⟨pics, value, false⟩ = r at hm hs hoff hleads ⊢
      obtain ⟨p, v, flag⟩ := r
      cases hoff
      exact .inr ⟨ops, v, (List.suffix_cons op ops).trans hleft, rfl, hm.trans hmaster, hs.trans hslave,
        rfl, hsaved, hleads⟩

private theorem orderly {fuel : Nat} (h : (runs P Q fuel).Reachable m) :
    m.Orderly ∨ ∃ ops value, m.Booting ops value := by
  refine h.invariant (I := fun m => m.Orderly ∨ ∃ ops value, m.Booting ops value) ?_ ?_
  · intro m hm
    refine .inr ⟨setup, 0, List.suffix_rfl, ?_, hm.master, hm.slave, hm.quiet,
      fun t => (hm.threads t).settled, run_setup m.pics false⟩
    rw [hm.cpu, boot_eq]
  · rintro m i m' (hm | ⟨ops, value, hm⟩) ⟨hallowed, hnext⟩
    · exact .inl (hm.step hallowed hnext)
    · exact hm.step hnext

/-! ## The laws -/

/-- What holds of interrupts in every state. -/
structure Disciplined (m : Machine P Q) : Prop where
  /-- In service is what the executing handler has still to report, and nothing else. -/
  serving : m.pics.master.isr = inService m.cpu.owes
  slave : m.pics.slave.isr = 0
  below : ∀ a ∈ m.cpu.tail, a.owes = none
  saved : ∀ t, ∀ a ∈ (m.sched.thread t).registers, a.owes = none
  /-- An interrupt that is coming is the timer's, the keyboard's or the spurious one. -/
  vectors : m.noticed = true → Narrow m.pics.master.imr ∧
    (m.pics.acknowledge.1 = 0x20 ∨ m.pics.acknowledge.1 = 0x21 ∨ m.pics.acknowledge.1 = 0x27)

/-- **Interrupts are reported one at a time.** -/
theorem in_service {fuel : Nat} (h : (runs P Q fuel).Reachable m) : m.Disciplined := by
  rcases orderly h with ho | ⟨ops, value, hb⟩
  · refine ⟨ho.serving, ho.slave, fun a ha => (ho.below a ha).owes,
      fun t a ha => (ho.saved t a ha).owes, fun hn => ⟨ho.programmed.narrow, ?_⟩⟩
    have hisr : m.pics.master.isr = 0 := by
      rw [ho.serving, ho.noticed hn]
      rfl
    rcases ho.programmed.acknowledge hisr with hack | ⟨n, rfl | rfl, hack, -⟩
    · rw [hack]
      exact .inr (.inr rfl)
    · rw [hack]
      exact .inl rfl
    · rw [hack]
      exact .inr (.inl rfl)
  · refine ⟨?_, hb.slave, ?_, fun t a ha => (hb.saved t a ha).owes, ?_⟩
    · rw [hb.cpu]
      exact hb.master
    · intro a ha
      rw [hb.cpu] at ha
      cases ha
    · intro hn
      rw [hb.quiet] at hn
      cases hn

/-- A kernel that finds the controllers as firmware leaves them. -/
def freshKernel : Machine (Fin 2) Unit where
  pics := ⟨⟨⟨0xB8, 0x08, 4, false, .ready⟩, 0, 0⟩, ⟨⟨0x8E, 0x70, 2, false, .ready⟩, 0, 0⟩⟩
  noticed := false
  sched := (Sched.boot (fun _ => .construct 0 [⟨.main [] 0, true⟩] ())
    (fun _ => .construct 0 false) 0).construct 0
  keyboard := .fresh
  cpu := [⟨.main boot 0, false⟩]
  ticked := none

/-- The boot, and the first tick up to the point where it has opened interrupts. -/
def firstTick : List (Action (Fin 2) Unit) :=
  List.replicate 46 (.go 0) ++ [.wire 0 true, .notice, .acknowledge, .wire 1 true, .go 0]

/-- A step that changes the scheduler only through the timer. -/
def tickOn (m : Machine (Fin 2) Unit) : Action (Fin 2) Unit → Option (Machine (Fin 2) Unit)
  | .other _ => none
  | i => m.next 0 i

private theorem tickOn_step {m m' : Machine (Fin 2) Unit} {i : Action (Fin 2) Unit}
    (h : tickOn m i = some m') : (runs (Fin 2) Unit 0).step m i m' := by
  cases i with
  | other sched => cases h
  | _ => exact ⟨trivial, h⟩

private theorem reachable_firstTick : ∃ m, (runs (Fin 2) Unit 0).Reachable m ∧
    m.cpu.head? = some ⟨.copyFrame, true⟩ ∧ m.pics.master.isr = 1 := by
  have hstart : (runs (Fin 2) Unit 0).Reachable freshKernel := .init
    ⟨rfl, rfl, rfl, rfl, fun t => ⟨true, by revert t; decide⟩⟩
  have hrun : (firstTick.foldlM tickOn freshKernel).map (fun m => (m.cpu.head?, m.pics.master.isr)) =
      some (some ⟨.copyFrame, true⟩, 1) := by
    decide +kernel
  obtain ⟨m, hm, hview⟩ := Option.map_eq_some_iff.mp hrun
  exact ⟨m, System.Reachable.foldlM (fun _ _ _ h => tickOn_step h) firstTick hstart hm,
    congrArg Prod.fst hview, congrArg Prod.snd hview⟩

theorem in_service_firstTick : ∃ m : Machine (Fin 2) Unit,
    m.cpu.head? = some ⟨.copyFrame, true⟩ ∧ m.pics.master.isr = 1 ∧ m.Disciplined := by
  obtain ⟨m, hm, hcpu, hisr⟩ := reachable_firstTick
  exact ⟨m, hcpu, hisr, in_service hm⟩

/-- **A tick is one step**, although it opens interrupts before it is over: until a handler has
reported its line no interrupt is noticed, and what the timer's handler returns to is what
`pit_irq_handler` as a whole has returned. -/
theorem tick_atomic {fuel : Nat} (h : (runs P Q fuel).Reachable m) :
    (∀ n, m.cpu.owes = some n →
      m.next fuel .notice = none ∧ m.next fuel .acknowledge = none) ∧
    ∀ interrupts frame, m.cpu = ⟨.copyFrame, interrupts⟩ :: frame →
      ∃ out, m.ticked = some (out, m.sched) ∧
        ∀ data, m.next fuel (.go data) = some { m with cpu := ⟨.eoi 0 (eoi 0), interrupts⟩ :: out } := by
  rcases orderly h with ho | ⟨ops, value, hb⟩
  · have hnot : ∀ n, m.cpu.owes = some n → m.noticed = false := by
      intro n hn
      refine Bool.eq_false_iff.mpr fun hnoticed => ?_
      rw [ho.noticed hnoticed] at hn
      cases hn
    refine ⟨fun n hn => ⟨?_, ?_⟩, ?_⟩
    · cases hc : m.cpu with
      | nil => simp only [next, hc]
      | cons a frame =>
        have hclosed : ¬ (a.interrupts = true ∧ m.pics.int = true) := by
          rintro ⟨hflag, hint⟩
          rw [ho.owes_of_int hc hflag hint] at hn
          cases hn
        simp only [next, hc, if_neg hclosed]
    · cases hc : m.cpu with
      | nil => simp only [next, hc]
      | cons a frame => simp only [next, hc, hnot n hn, Bool.false_eq_true, if_false]
    · intro interrupts frame hc
      obtain ⟨now, hnow, hticked⟩ := ho.copies ⟨.copyFrame, interrupts⟩ (by rw [hc]; rfl) rfl
      have hquiet : m.noticed = false := hnot 0 (by rw [hc]; rfl)
      refine ⟨_, hticked, fun data => ?_⟩
      simp only [next, go, hc, hquiet, hnow, Bool.false_eq_true, if_false]
      rfl
  · refine ⟨fun n hn => ?_, fun interrupts frame hc => ?_⟩
    · rw [hb.cpu] at hn
      cases hn
    · rw [hb.cpu] at hc
      cases hc

theorem tick_atomic_firstTick : ∃ m : Machine (Fin 2) Unit,
    m.cpu.head? = some ⟨.copyFrame, true⟩ ∧ m.next 0 .notice = none := by
  obtain ⟨m, hm, hcpu, -⟩ := reachable_firstTick
  have howes : m.cpu.owes = some 0 := by
    unfold Context.owes
    rw [hcpu]
    rfl
  exact ⟨m, hcpu, ((tick_atomic hm).1 0 howes).1⟩

end Machine

end TwoKernel.Irq
