import Mathlib.Data.List.Basic
import TwoKernel.Arch.Cpu
import TwoKernel.Laws.Memory.Address

/-!
# Saving and restoring registers

What a series of pushes leaves on the stack, and what a series of pops takes off
it, for any list of registers.

`Saved g l s` is the invariant of the way into a stub: the stack of `s` begins with
the words `l`, and every register but the stack pointer is as `g` has it. A push
keeps it and makes `l` longer (`Saved.push`); the other instructions before the call
change neither the memory nor the registers. On the way out `pops_reg` says which
word each register gets.

`Preserves` is what a called function has to keep.
-/

namespace TwoKernel

namespace Asm

namespace Cpu

open ByteMem WordStack

variable {callee : Cpu → Outcome Cpu} {code rest : List Instr} {s t : Cpu} {g : Reg → Word}
variable {l : List Word} {n : Nat}
variable {r : Reg} {rs : List Reg} {v w : Word}

/-! ## Registers and memory -/

@[simp] theorem set_self : (s.set r v).reg r = v := by
  unfold set
  exact Function.update_self ..

theorem set_of_ne {x : Reg} (h : x ≠ r) : (s.set r v).reg x = s.reg x := by
  unfold set
  exact Function.update_of_ne h ..

@[simp] theorem set_mem : (s.set r v).mem = s.mem := rfl

@[simp] theorem write_reg : (s.write v w).reg = s.reg := rfl

@[simp] theorem setZf_reg {b : Bool} : (s.setZf b).reg = s.reg := rfl

@[simp] theorem setZf_mem {b : Bool} : (s.setZf b).mem = s.mem := rfl

/-- `push` moves `rsp` down a word. -/
@[simp] theorem push_rsp : (s.push v).reg .rsp = s.reg .rsp - 8 := by
  unfold push
  rw [write_reg, set_self]

theorem push_of_ne (h : r ≠ .rsp) : (s.push v).reg r = s.reg r := set_of_ne h

/-- It writes at the new `rsp`. -/
@[simp] theorem push_mem : (s.push v).mem = store64 s.mem (s.reg .rsp - 8).toNat v := rfl

@[simp] theorem pop_mem : (s.pop r).mem = s.mem := rfl

/-- `pop` loads the word at `rsp`. -/
theorem pop_self : (s.pop r).reg r = load64 s.mem (s.reg .rsp).toNat := set_self

theorem pop_rsp (h : r ≠ .rsp) : (s.pop r).reg .rsp = s.reg .rsp + 8 :=
  (set_of_ne h.symm).trans set_self

theorem pop_of_ne {x : Reg} (h : x ≠ r) (hsp : x ≠ .rsp) : (s.pop r).reg x = s.reg x :=
  (set_of_ne h).trans (set_of_ne hsp)

/-- `iretq` changes no register but `rsp`. -/
theorem iretq_reg : s.iretq.reg = (s.set .rsp (s.read (s.reg .rsp + 24))).reg := rfl

theorem syscall_reg : s.syscall.reg = ((s.set .rcx s.rip).set .r11 s.rflags).reg := rfl

/-- `sysretq` changes no register. -/
theorem sysretq_reg : s.sysretq.reg = s.reg := rfl

/-! ## The way in -/

/-- The stack begins with `l`, and the other registers are those of `g`. -/
structure Saved (g : Reg → Word) (l : List Word) (s : Cpu) : Prop where
  words : WordsAt s.mem (s.reg .rsp) l
  kept : ∀ r, r ≠ .rsp → s.reg r = g r

namespace Saved

/-- An empty stack, wherever it is. -/
theorem empty (h : ∀ r, r ≠ .rsp → s.reg r = g r) : Saved g [] s := ⟨trivial, h⟩

/-- The last word that was pushed is the top one. -/
theorem push (h : Saved g l s) (hl : 8 + 8 * l.length ≤ 2 ^ 64) : Saved g (v :: l) (s.push v) where
  words := by
    rw [push_rsp, push_mem]
    exact h.words.push hl
  kept r hr := (push_of_ne hr).trans (h.kept r hr)

/-- Words pushed in order are saved in reverse order. -/
theorem pushAll (vs : List Word) (h : Saved g l s) (hl : 8 * (vs.length + l.length) ≤ 2 ^ 64) :
    Saved g (vs.reverse ++ l) (s.pushAll vs) := by
  induction vs generalizing s l with
  | nil => exact h
  | cons v vs ih =>
    rw [List.length_cons] at hl
    rw [List.reverse_cons, List.append_assoc]
    refine ih (h.push (by omega)) ?_
    show 8 * (vs.length + (l.length + 1)) ≤ 2 ^ 64
    omega

/-- Only the registers and the memory count. -/
theorem congr {s' : Cpu} (h : Saved g l s) (hreg : s'.reg = s.reg) (hmem : s'.mem = s.mem) :
    Saved g l s' where
  words := by
    rw [hreg, hmem]
    exact h.words
  kept := by
    rw [hreg]
    exact h.kept

/-- What an interrupt changes besides. -/
theorem segments {cs ss rflags : Word} (h : Saved g l s) :
    Saved g l { s with cs := cs, ss := ss, rflags := rflags } := h.congr rfl rfl

end Saved

/-! ## Pieces of a stub -/

/-- A piece that is gone through, and then the rest. -/
theorem run_through (h : through code n s = .ok t) :
    run callee (code ++ rest) n s = run callee rest 0 t := by
  fun_induction through code n s with
  | case1 s =>
    cases h
    rfl
  | case2 i code skip s ih => exact ih h
  | case3 o code s ih => exact ih h
  | case4 skip code s ih => exact ih h
  | case5 => cases h

theorem through_append (h : through code n s = .ok t) :
    through (code ++ rest) n s = through rest 0 t := by
  fun_induction through code n s with
  | case1 s =>
    cases h
    rfl
  | case2 i code skip s ih => exact ih h
  | case3 o code s ih => exact ih h
  | case4 skip code s ih => exact ih h
  | case5 => cases h

/-- To jump over instructions is to begin behind them. -/
theorem run_skip : run callee code n s = run callee (code.drop n) 0 s := by
  induction code generalizing n with
  | nil =>
    rw [List.drop_nil]
    rfl
  | cons i code ih =>
    cases n with
    | zero => rfl
    | succ n => exact ih

theorem ne_nil_of_run (h : run callee code n s = .ok t) : code ≠ [] := by
  rintro rfl
  cases h

private theorem exec_rip {o : Op} {rip : Word} :
    ({ s with rip := rip } : Cpu).exec o = { s.exec o with rip := rip } := by
  cases o <;> rfl

/-- **A stub does not look at `rip`.** -/
theorem run_rip {e : Fault} {rip : Word} : run (fun _ => .error e) code n { s with rip := rip } =
    run (fun _ => .error e) code n s := by
  induction code generalizing s n with
  | nil => rfl
  | cons i code ih =>
    cases n with
    | succ n => exact ih
    | zero =>
      cases i with
      | op o =>
        simp only [run]
        rw [exec_rip]
        exact ih
      | jz skip => exact ih
      | call ret => rfl
      | iretq => rfl
      | sysretq => rfl

/-- `push` of each of `rs`. -/
def pushes (rs : List Reg) (s : Cpu) : Cpu := rs.foldl (fun s r => s.push (s.reg r)) s

/-- A row of pushes is gone through. -/
theorem through_pushes : through (rs.map fun r => .op (.push r)) 0 s = .ok (s.pushes rs) := by
  induction rs generalizing s with
  | nil => rfl
  | cons r rs ih => exact ih

/-- A push changes none of the registers that are still to be pushed. -/
theorem pushes_eq (hrs : .rsp ∉ rs) : s.pushes rs = s.pushAll (rs.map s.reg) := by
  induction rs generalizing s with
  | nil => rfl
  | cons r rs ih =>
    rw [List.mem_cons, not_or] at hrs
    have hkept : rs.map (s.push (s.reg r)).reg = rs.map s.reg :=
      List.map_congr_left fun x hx => push_of_ne (ne_of_mem_of_not_mem hx hrs.2)
    have hih : (s.push (s.reg r)).pushes rs = _ := ih hrs.2
    rw [hkept] at hih
    exact hih

/-- **What was pushed last is the first on the stack.** -/
theorem Saved.pushes (rs : List Reg) (h : Saved g l s) (hrs : .rsp ∉ rs)
    (hl : 8 * (rs.length + l.length) ≤ 2 ^ 64) : Saved g (rs.reverse.map g ++ l) (s.pushes rs) := by
  have hkept : rs.map s.reg = rs.map g :=
    List.map_congr_left fun x hx => h.kept x (ne_of_mem_of_not_mem hx hrs)
  rw [pushes_eq hrs, hkept, List.map_reverse]
  exact h.pushAll (rs.map g) (by rwa [List.length_map])

/-! ## The way out -/

/-- `pop` of each of `rs`. -/
def pops (rs : List Reg) (s : Cpu) : Cpu := rs.foldl (fun s r => s.pop r) s

/-- A row of pops is gone through. -/
theorem through_pops : through (rs.map fun r => .op (.pop r)) 0 s = .ok (s.pops rs) := by
  induction rs generalizing s with
  | nil => rfl
  | cons r rs ih => exact ih

@[simp] theorem pops_mem : (s.pops rs).mem = s.mem := by
  induction rs generalizing s with
  | nil => rfl
  | cons r rs ih => exact ih.trans pop_mem

/-- It takes as many words off the stack. -/
theorem pops_rsp (hrs : .rsp ∉ rs) :
    (s.pops rs).reg .rsp = s.reg .rsp + BitVec.ofNat 64 (8 * rs.length) := by
  induction rs generalizing s with
  | nil => exact (BitVec.add_zero _).symm
  | cons r rs ih =>
    rw [List.mem_cons, not_or] at hrs
    have hih : (s.pops (r :: rs)).reg .rsp = (s.pop r).reg .rsp + BitVec.ofNat 64 (8 * rs.length) :=
      ih hrs.2
    rw [hih, pop_rsp (Ne.symm hrs.1), List.length_cons, Nat.mul_add, Nat.add_comm, BitVec.ofNat_add,
      BitVec.add_assoc]
    rfl

/-- It writes no other register. -/
theorem pops_of_notMem (hr : r ∉ rs) (hsp : r ≠ .rsp) : (s.pops rs).reg r = s.reg r := by
  induction rs generalizing s with
  | nil => rfl
  | cons x rs ih =>
    rw [List.mem_cons, not_or] at hr
    exact (ih hr.2).trans (pop_of_ne hr.1 hsp)

/-- **The register that is popped first gets the first word.** -/
theorem pops_reg (hrs : .rsp ∉ rs) (hn : rs.Nodup) (hr : r ∈ rs) :
    (s.pops rs).reg r = word s.mem (s.reg .rsp) (rs.idxOf r) := by
  induction rs generalizing s with
  | nil => exact absurd hr List.not_mem_nil
  | cons x rs ih =>
    rw [List.mem_cons, not_or] at hrs
    rw [List.nodup_cons] at hn
    by_cases hx : r = x
    · -- popped here, and not again
      subst hx
      rw [List.idxOf_cons_self, word_zero]
      exact (pops_of_notMem hn.1 (Ne.symm hrs.1)).trans pop_self
    · have hmem : r ∈ rs := (List.mem_cons.mp hr).resolve_left hx
      have hih := ih (s := s.pop x) hrs.2 hn.2 hmem
      rw [List.idxOf_cons_ne rs (Ne.symm hx), word_succ]
      rw [pop_rsp (Ne.symm hrs.1), pop_mem] at hih
      exact hih

/-! ## Rings and calls -/

/-- `swapgs`, if the selector that many bytes up the stack is not one of ring 0. -/
def swapgsAt (offset : Word) (s : Cpu) : Cpu :=
  if (s.exec (.testb 3 offset)).zf then s.exec (.testb 3 offset)
  else (s.exec (.testb 3 offset)).exec .swapgs

/-- The test for ring 3, and the `swapgs` that depends on it. -/
theorem through_swapgsAt {offset : Word} :
    through [.op (.testb 3 offset), .jz 1, .op .swapgs] 0 s = .ok (s.swapgsAt offset) := by
  unfold swapgsAt
  simp only [through]
  split <;> rfl

theorem run_swapgsAt {offset : Word} :
    run callee (.op (.testb 3 offset) :: .jz 1 :: .op .swapgs :: code) 0 s =
      run callee code 0 (s.swapgsAt offset) := run_through through_swapgsAt

@[simp] theorem swapgsAt_reg {offset : Word} : (s.swapgsAt offset).reg = s.reg := by
  unfold swapgsAt
  split <;> rfl

@[simp] theorem swapgsAt_mem {offset : Word} : (s.swapgsAt offset).mem = s.mem := by
  unfold swapgsAt
  split <;> rfl

/-- The registers a function keeps for its caller. -/
def calleeSaved : List Reg := [.rbx, .rbp, .r12, .r13, .r14, .r15]

/-- From `c` to `r` a function has run, and has taken its return address off the stack. -/
structure Preserves (c r : Cpu) : Prop where
  rsp : r.reg .rsp = c.reg .rsp + 8
  saved : ∀ x ∈ calleeSaved, r.reg x = c.reg x

theorem ret_mem : s.ret.mem = s.mem := rfl

theorem ret_preserves : Preserves s s.ret where
  rsp := set_self
  saved x hx := set_of_ne (ne_of_mem_of_not_mem hx (by decide))

end Cpu

/-- The return address, pushed on the aligned stack, is below what is there. -/
theorem wordsAt_aligned {m : ByteMem.Mem} {a v : Word} {l : List Word} (h : WordStack.WordsAt m a l)
    (hl : 8 * l.length + 24 ≤ 2 ^ 64) :
    WordStack.WordsAt (ByteMem.store64 m ((a &&& ~~~15) - 8).toNat v) a l := by
  have hdown : (a &&& ~~~15).toNat = a.toNat / 16 * 16 :=
    Vmm.alignDown_toNat_of_two_pow (v := a) (p := 16) (k := 4) rfl
  have hup : a = ((a &&& ~~~15) - 8) + BitVec.ofNat 64 (8 + a.toNat % 16) := by
    apply BitVec.eq_of_toNat_eq
    have ha := a.isLt
    rw [BitVec.toNat_add, BitVec.toNat_sub, hdown, BitVec.toNat_ofNat]
    have h8 : (8 : Word).toNat = 8 := rfl
    rw [h8]
    omega
  have hlow : a.toNat % 16 < 16 := Nat.mod_lt _ (by decide)
  exact h.store hup (by omega) (by omega)

end Asm

end TwoKernel
