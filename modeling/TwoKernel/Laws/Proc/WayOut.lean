import TwoKernel.Laws.Arch.Footprint
import TwoKernel.Proc.Preempt

/-!
# The way out of a tick

Behind `eoi(0)` the functions return and the stub executes one instruction after the other. **The law**
is that this comes to one processor, the one the interrupted or the next thread goes on with.

* `reach_eoi`: a tick comes to `eoi(0)`, and from there the way out leads to the frame that the
  scheduler has left.
* `Resumes.step`: each step on the way out keeps where it leads and comes nearer to it, with
  interrupts on.
* `Resumes.leads`: so the processor gets there.

`Resumes w c c'` is the invariant: at `c`, what is left of the stub executes to `c'`.
-/

namespace TwoKernel.Preempt

open ByteMem Asm Asm.Cpu

namespace WayOut

variable {w : WayOut} {c c' : Asm.Cpu} {k : Nat}

/-! ## Places -/

private theorem rip_of_place {rip : Word} (h : w.place rip = some k) :
    k < irqExit.length + 1 ∧ w.rip k = rip := by
  have hrip := List.find?_some h
  exact ⟨List.mem_range.mp (List.mem_of_find?_eq_some h), of_decide_eq_true hrip⟩

private theorem place_rip (hk : k < irqExit.length + 1) : w.place (w.rip k) = some k := by
  cases hj : w.place (w.rip k) with
  | none =>
    have hne := List.find?_eq_none.mp hj k (List.mem_range.mpr hk)
    exact absurd (decide_eq_true rfl) hne
  | some j =>
    obtain ⟨hlt, hrip⟩ := rip_of_place hj
    rw [w.distinct j hlt k hk hrip]

/-! ## Where it leads -/

/-- What is left of the way out, executed at once. -/
def finish (w : WayOut) : Nat → Asm.Cpu → Outcome Asm.Cpu
  | 0, c => Asm.Cpu.run (fun _ => .error .halted) irqExit 0 (w.back c)
  | k + 1, c => Asm.Cpu.run (fun _ => .error .halted) (irqExit.drop k) 0 c

/-- **What the processor comes to.** Off the way out that is what it is. -/
inductive Resumes (w : WayOut) : Asm.Cpu → Asm.Cpu → Prop where
  | out {c : Asm.Cpu} (h : w.place c.rip = none) : Resumes w c c
  | leaving {c c' : Asm.Cpu} {k : Nat} (h : w.place c.rip = some k) (hf : w.finish k c = .ok c')
      (hmem : c'.mem = c.mem) (hopen : c.rflags.getLsbD 9 = true) : Resumes w c c'

/-- Steps on the way out. -/
def Leads (w : WayOut) : Asm.Cpu → Asm.Cpu → Prop := Relation.ReflTransGen fun c c' => w.step c = .ok c'

theorem Resumes.of_out (h : w.Resumes c c') (ho : w.place c.rip = none) : c' = c := by
  cases h with
  | out => rfl
  | leaving hk => cases ho.symm.trans hk

theorem Resumes.mem_eq (h : w.Resumes c c') : c'.mem = c.mem := by
  cases h with
  | out => rfl
  | leaving _ _ hmem => exact hmem

private theorem setZf_interrupts {b : Bool} : (c.setZf b).rflags.getLsbD 9 = c.rflags.getLsbD 9 := by
  cases b <;> simp [setZf, zfMask]

/-- What the stub does on its way out, but for the last step. -/
theorem exec_of_irqExit {o : Op} (h : .op o ∈ irqExit) :
    (c.exec o).mem = c.mem ∧ (c.exec o).rflags.getLsbD 9 = c.rflags.getLsbD 9 := by
  simp only [irqExit, irqRestored, List.map_cons, List.map_nil, List.cons_append, List.nil_append,
    List.mem_cons, List.not_mem_nil, Instr.op.injEq, reduceCtorEq, or_false, false_or] at h
  rcases h with rfl | rfl | rfl | rfl | rfl | rfl | rfl | rfl | rfl | rfl | rfl | rfl | rfl | rfl |
    rfl | rfl | rfl | rfl | rfl | rfl
  all_goals first | exact ⟨rfl, rfl⟩ | exact ⟨rfl, setZf_interrupts⟩

/-- **A step on the way out** leads to the same. -/
theorem Resumes.step (h : w.Resumes c c') (hk : w.place c.rip = some k)
    (hout : w.place c'.rip = none) : ∃ d, w.step c = .ok d ∧ w.Resumes d c' ∧
      ∀ j, w.place d.rip = some j → k < j := by
  cases h with
  | out ho => cases ho.symm.trans hk
  | @leaving _ j hj hf hmem hopen =>
  obtain rfl : j = k := Option.some.inj (hj.symm.trans hk)
  -- a later place, from which the stub runs to the end
  have hlater : ∀ {d : Asm.Cpu} {i : Nat}, j ≤ i →
      Asm.Cpu.run (fun _ => .error .halted) (irqExit.drop i) 0 d = .ok c' → d.mem = c.mem →
      d.rflags.getLsbD 9 = c.rflags.getLsbD 9 →
        w.Resumes { d with rip := w.rip (i + 1) } c' ∧
          ∀ l, w.place ({ d with rip := w.rip (i + 1) } : Asm.Cpu).rip = some l → j < l := by
    intro d i hi hrun hdmem hdopen
    have hlt : i < irqExit.length := by
      by_contra hge
      exact ne_nil_of_run hrun (List.drop_eq_nil_of_le (Nat.not_lt.mp hge))
    have hplace : w.place (w.rip (i + 1)) = some (i + 1) := place_rip (Nat.succ_lt_succ hlt)
    refine ⟨.leaving hplace ?_ (hmem.trans hdmem.symm) (hdopen.trans hopen), fun l hl => ?_⟩
    · show Asm.Cpu.run _ (irqExit.drop i) 0 _ = _
      rw [run_rip, hrun]
    · obtain rfl : i + 1 = l := Option.some.inj (hplace.symm.trans hl)
      exact Nat.lt_succ_of_le hi
  unfold WayOut.step
  rw [hk]
  cases j with
  | zero => exact ⟨_, rfl, hlater le_rfl hf (w.keeps c).1 (w.keeps c).2.2⟩
  | succ k =>
    have hlt : k < irqExit.length := Nat.lt_of_succ_lt_succ (rip_of_place hk).1
    have hmemExit : irqExit[k] ∈ irqExit := List.getElem_mem hlt
    have hrun : Asm.Cpu.run (fun _ => .error .halted) (irqExit.drop k) 0 c = .ok c' := hf
    rw [List.drop_eq_getElem_cons hlt] at hrun
    simp only [List.getElem?_eq_getElem hlt]
    generalize irqExit[k] = i at hrun hmemExit
    cases i with
    | op o =>
      obtain ⟨hdmem, hdopen⟩ := exec_of_irqExit (c := c) hmemExit
      exact ⟨_, rfl, hlater le_rfl hrun hdmem hdopen⟩
    | jz skip =>
      have hjump : Asm.Cpu.run (fun _ => .error .halted)
          (irqExit.drop (k + 1 + if c.zf then skip else 0)) 0 c = .ok c' := by
        rw [← List.drop_drop, ← run_skip]
        exact hrun
      have hnext := hlater (Nat.le_add_right (k + 1) _) hjump rfl rfl
      rw [Nat.add_right_comm] at hnext
      exact ⟨_, rfl, hnext⟩
    | call ret => cases hrun
    | iretq =>
      cases hrun
      refine ⟨_, rfl, .out hout, fun l hl => ?_⟩
      cases hout.symm.trans hl
    | sysretq => exact absurd hmemExit (by decide)

/-- **The processor gets out.** -/
theorem Resumes.leads (h : w.Resumes c c') (hout : w.place c'.rip = none) : w.Leads c c' := by
  -- by the number of places that are left
  induction hn : irqExit.length + 1 - (w.place c.rip).getD (irqExit.length + 1) using Nat.strong_induction_on
    generalizing c with
  | _ n ih =>
  cases hk : w.place c.rip with
  | none =>
    rw [h.of_out hk]
    exact .refl
  | some k =>
    obtain ⟨d, hstep, hd, hlater⟩ := h.step hk hout
    refine .head hstep (ih _ ?_ hd rfl)
    have hlt := (rip_of_place hk).1
    rw [← hn, hk, Option.getD_some]
    cases hl : w.place d.rip with
    | none =>
      rw [Option.getD_none]
      omega
    | some l =>
      have hkl := hlater l hl
      rw [Option.getD_some]
      omega

end WayOut

/-! ## The interrupt, on a stack -/

variable {w : WayOut} {cpu : Asm.Cpu} {left : IrqFrame} {clobber : Asm.Cpu → Asm.Cpu}

/-- The processor where `isr_timer` is called. -/
def atTimer (ret : Word) (cpu : Asm.Cpu) : Asm.Cpu := (cpu.savedAll 32 0).atHandler ret 32

/-- The call of the handler, up to `eoi(0)`. -/
theorem timer_called (cpu : Asm.Cpu) (w : WayOut) (clobber : Asm.Cpu → Asm.Cpu) (left : IrqFrame)
    (ret rsp0 : Word) (b : Bool) : ∃ call, Asm.Cpu.through (irqEnter 32) 0 (cpu.deliver 32 0) = .ok call ∧
      archInterruptHandler (fun _ => none)
        (Machine.isrTimer w clobber (cpu.irqFrame 0) left rsp0 b) (fun c => .ok c.ret)
        (call.push ret) =
          .ok { (clobber (atTimer ret cpu)) with
            mem := storeWords (clobber (atTimer ret cpu)).mem ((atTimer ret cpu).reg .rdi).toNat
              left.words
            tssRsp0 := rsp0
            rflags := if b then (clobber (atTimer ret cpu)).rflags ||| 0x200
              else (clobber (atTimer ret cpu)).rflags &&& ~~~0x200
            rip := w.rip 0 } := by
  have hfinds : IrqFrame.at_ (atTimer ret cpu).mem ((atTimer ret cpu).reg .rdi) = cpu.irqFrame 0 :=
    atHandler_finds.trans (by rw [ite_self])
  have hline : (atTimer ret cpu).reg .rsi = (32 : BitVec 8).setWidth 64 := atHandler_rsi
  obtain ⟨call, hcall, hpush⟩ := through_irqEnter 32 0 cpu
  refine ⟨call, hcall, ?_⟩
  rw [show call.push ret = atTimer ret cpu from hpush ret]
  unfold archInterruptHandler
  rw [hline]
  show Machine.isrTimer w clobber (cpu.irqFrame 0) left rsp0 b (atTimer ret cpu) = _
  unfold Machine.isrTimer
  rw [hfinds]
  exact if_pos rfl

/-- **A tick comes to `eoi(0)`**, from where the way out leads to the frame that the scheduler has left. It
uses a part of the stack below where the interrupt began. -/
theorem reach_eoi (ret rsp0 : Word) (hroom : 4096 ≤ cpu.interruptStack.toNat)
    (hclobber : ∀ c, Machine.Clobbers w c (clobber c)) (hleft : left.error = 0) :
    ∃ call e cpu', Asm.Cpu.through (irqEnter 32) 0 (cpu.deliver 32 0) = .ok call ∧
      archInterruptHandler (fun _ => none)
        (Machine.isrTimer w clobber (cpu.irqFrame 0) left rsp0 true) (fun c => .ok c.ret)
        (call.push ret) = .ok e ∧
      w.Resumes e cpu' ∧ cpu'.irqFrame 0 = left ∧ cpu'.tssRsp0 = rsp0 ∧
      Set.EqOn cpu'.mem cpu.mem
        (Set.Ico (cpu.interruptStack.toNat - 4096) cpu.interruptStack.toNat)ᶜ := by
  have hpushed : Pushed _ _ cpu (atTimer ret cpu) := atHandler_pushed (by omega)
  have hrsp := hpushed.rsp
  have hrdi : ((atTimer ret cpu).reg .rdi).toNat = cpu.interruptStack.toNat / 16 * 16 - 168 :=
    atHandler_frame (by omega)
  have htop := cpu.interruptStack.isLt
  have hlen : left.words.length = 21 := rfl
  have hkept := hclobber (atTimer ret cpu)
  obtain ⟨call, hcall, he⟩ := timer_called cpu w clobber left ret rsp0 true
  generalize hedef : ({ (clobber (atTimer ret cpu)) with
    mem := storeWords (clobber (atTimer ret cpu)).mem ((atTimer ret cpu).reg .rdi).toNat left.words
    tssRsp0 := rsp0
    rflags := if true then (clobber (atTimer ret cpu)).rflags ||| 0x200
      else (clobber (atTimer ret cpu)).rflags &&& ~~~0x200
    rip := w.rip 0 } : Asm.Cpu) = e at he
  have hemem : e.mem = storeWords (clobber (atTimer ret cpu)).mem
      ((atTimer ret cpu).reg .rdi).toNat left.words := by rw [← hedef]
  obtain ⟨hbmem, hbtss, -⟩ := w.keeps e
  -- the frame is above the stack of the functions
  have hpreserves : Preserves (atTimer ret cpu) (w.back e) := by
    refine hkept.preserves e (by rw [← hedef]) ?_
    rw [hemem]
    refine storeWords_eqOn ?_
    rw [hrdi, hrsp, Set.disjoint_left]
    rintro x ⟨-, hx⟩ ⟨hlo, -⟩
    omega
  have hframe : IrqFrame.at_ (w.back e).mem ((atTimer ret cpu).reg .rdi) = left := by
    rw [hbmem, hemem]
    exact IrqFrame.at_of_wordsAt (wordsAt_storeWords (by
      rw [hrdi, hlen]
      omega))
  refine ⟨call, e, (w.back e).unwind.iretq, hcall, he, ?_, ?_, ?_, ?_⟩
  · refine .leaving (k := 0) ?_ run_irqExit (unwind_mem.trans hbmem) ?_
    · rw [← hedef]
      exact WayOut.place_rip (Nat.succ_pos _)
    · rw [← hedef]
      simp
  · have hresumes := unwind_resumes hpreserves hframe
    rwa [hleft] at hresumes
  · rw [unwind_tssRsp0, hbtss, ← hedef]
  · show Set.EqOn (w.back e).unwind.mem _ _
    rw [unwind_mem, hbmem, hemem]
    refine (storeWords_eqOn ?_).trans ((hkept.mem.mono ?_).trans (hpushed.mem.mono ?_))
    · rw [hrdi, Set.disjoint_left]
      rintro x hx ⟨hlo, hhi⟩
      exact hx ⟨by omega, by omega⟩
    · rw [hrsp]
      exact Set.compl_subset_compl.mpr (Set.Ico_subset_Ico (by omega) (by omega))
    · exact Set.compl_subset_compl.mpr (Set.Ico_subset_Ico (by omega) le_rfl)

end TwoKernel.Preempt
