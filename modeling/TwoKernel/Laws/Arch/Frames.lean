import TwoKernel.Arch.Entry
import TwoKernel.Arch.Stubs
import TwoKernel.Laws.Arch.Cpu

/-!
# The stubs save and restore

Each stub pushes the registers in one order, the structure in C++ lists its members
in another, and the stub pops them in a third. All three agree:

* what a handler finds in `*frame` is what was interrupted (`stub_exact`,
  `syscall_exact`), and
* what is in `*frame` when the handler returns is what is resumed, whichever of it
  the handler has written.

The handler is any function that keeps the registers of its caller. Between the
frame and the handler's own stack are the words for a backtrace, up to fifteen bytes
of alignment and the return address; none of them meets the frame.

The system call differs in two ways. The processor has already put the user's `rip`
and `rflags` in `rcx` and `r11`. And the stub keeps both, with the user's stack
pointer, in three words above the frame. It resumes from these, so that what a
handler leaves in the frame for `rcx` and `r11` is lost.

`iretq` and `sysretq` are taken to load what they find (`Arch.Cpu`). So what is resumed
is the frame as far as the processor accepts its selectors and addresses and keeps the
bits of its flags.

Without their operands, the instructions are those of `Entry`
(`irqStub_erased`, `syscallHanlder_erased`).
-/

namespace TwoKernel

namespace Asm

open ByteMem WordStack Cpu

variable {m : Mem} {a ret code : Word} {v : BitVec 8} {s t r : Cpu} {l : List Word} {handler : Callee}

/-! ## Interrupts -/

/-- The members, in order. -/
def IrqFrame.words (f : IrqFrame) : List Word :=
  [f.r15, f.r14, f.r13, f.r12, f.r11, f.r10, f.r9, f.r8, f.rbp, f.rsi, f.rdi, f.rdx, f.rcx, f.rbx, f.rax,
    f.error, f.rip, f.cs, f.rflags, f.rsp, f.ss]

theorem IrqFrame.at_of_wordsAt {f : IrqFrame} (h : WordsAt m a f.words) : IrqFrame.at_ m a = f := by
  apply IrqFrame.ext <;> exact h.word rfl

/-- What the processor has in the registers that a frame names. -/
def Cpu.irqFrame (error : Word) (s : Cpu) : IrqFrame where
  r15 := s.reg .r15
  r14 := s.reg .r14
  r13 := s.reg .r13
  r12 := s.reg .r12
  r11 := s.reg .r11
  r10 := s.reg .r10
  r9 := s.reg .r9
  r8 := s.reg .r8
  rbp := s.reg .rbp
  rsi := s.reg .rsi
  rdi := s.reg .rdi
  rdx := s.reg .rdx
  rcx := s.reg .rcx
  rbx := s.reg .rbx
  rax := s.reg .rax
  error := error
  rip := s.rip
  cs := s.cs
  rflags := s.rflags
  rsp := s.reg .rsp
  ss := s.ss

/-- The stub pushes a zero for the vectors for which the processor pushes nothing. -/
theorem pushes_zero_iff : (v ≠ 8 ∧ v ≠ 10 ∧ v ≠ 11 ∧ v ≠ 12 ∧ v ≠ 13 ∧ v ≠ 14 ∧ v ≠ 17 ∧ v ≠ 21 ∧
    v ≠ 29 ∧ v ≠ 30) ↔ v ∉ errorVectors := by
  simp [errorVectors]

/-- With an error code on the stack, whoever has pushed it. -/
def Cpu.framed (v : BitVec 8) (code : Word) (s : Cpu) : Cpu :=
  if v ∈ errorVectors then s.deliver v code else (s.deliver v code).push 0

theorem framed_saved : Saved s.reg
    [if v ∈ errorVectors then code else 0, s.rip, s.cs, s.rflags, s.reg .rsp, s.ss]
    (s.framed v code) := by
  have hempty {x : Word} : Saved s.reg [] (s.set .rsp x) := .empty fun _ hr => set_of_ne hr
  unfold framed deliver
  by_cases hv : v ∈ errorVectors
  · simp only [if_pos hv, List.cons_append, List.nil_append]
    exact (hempty.pushAll [s.ss, s.reg .rsp, s.rflags, s.cs, s.rip, code] (by simp)).segments
  · simp only [if_neg hv]
    exact (hempty.pushAll [s.ss, s.reg .rsp, s.rflags, s.cs, s.rip] (by simp)).segments.push (by simp)

/-- The processor where the handler begins, from where the registers are saved. -/
def Cpu.atHandler (ret : Word) (v : BitVec 8) (t : Cpu) : Cpu :=
  ([.mov .rsp .rdi, .pushAt (16 * 8), .push .rbp, .mov .rsp .rbp, .movImm (v.setWidth 32) .rsi,
    .and (~~~15) .rsp].foldl exec t).push ret

theorem atHandler_rdi : (t.atHandler ret v).reg .rdi = t.reg .rsp := by
  simp [atHandler, exec, push_of_ne, set_of_ne]

theorem atHandler_rsi : (t.atHandler ret v).reg .rsi = v.setWidth 64 := by
  simp [atHandler, exec, push_of_ne, set_of_ne]

theorem atHandler_rbp : (t.atHandler ret v).reg .rbp = t.reg .rsp - 8 - 8 := by
  simp [atHandler, exec, push_of_ne, set_of_ne]

/-- The handler's stack is below the frame. -/
theorem atHandler_words (h : WordsAt t.mem (t.reg .rsp) l) (hl : 8 * l.length + 40 ≤ 2 ^ 64) :
    WordsAt (t.atHandler ret v).mem (t.reg .rsp) l := by
  have hpushed := fun x y => (h.push (v := x) (by omega)).push (v := y) (by
    rw [List.length_cons]
    omega)
  have hcalled := fun x y => wordsAt_aligned (v := ret) (hpushed x y) (by
    simp only [List.length_cons]
    omega)
  simp only [WordsAt, BitVec.sub_add_cancel] at hcalled
  simp only [atHandler, exec, List.foldl_cons, List.foldl_nil, push_mem, setZf_mem, set_mem, setZf_reg,
    set_self, push_rsp, set_of_ne, ne_eq, reduceCtorEq, not_false_eq_true]
  exact (hcalled _ _).2.2

/-- From the handler's return to where the stack begins with the frame again. -/
def Cpu.atFrame (r : Cpu) : Cpu := (r.exec (.mov .rbp .rsp)).exec (.add 16 .rsp)

/-- From the handler's return to `iretq`. -/
def Cpu.unwind (r : Cpu) : Cpu := ((r.atFrame.pops irqRestored).swapgsAt 16).exec (.add 8 .rsp)

private theorem through_error :
    through (if v ∉ errorVectors then [.op (.pushImm 0)] else []) 0 (s.deliver v code) =
      .ok (s.framed v code) := by
  unfold framed
  by_cases hv : v ∈ errorVectors
  · rw [if_neg (not_not_intro hv), if_pos hv]
    rfl
  · rw [if_pos hv, if_neg hv]
    rfl

/-- **The way in.** With the call, the processor is where the handler begins. -/
theorem through_irqEnter (v : BitVec 8) (code : Word) (s : Cpu) :
    ∃ c, through (irqEnter v) 0 (s.deliver v code) = .ok c ∧ ∀ ret, c.push ret =
      ((((s.framed v code).swapgsAt 16).exec .cld).pushes irqSaved).atHandler ret v := by
  have hsplit : ∀ code : List Instr, [.op (.testb 3 16), .jz 1, .op .swapgs, .op .cld] ++ code =
      [.op (.testb 3 16), .jz 1, .op .swapgs] ++ .op .cld :: code := fun _ => rfl
  refine ⟨_, ?_, fun ret => rfl⟩
  unfold irqEnter
  rw [List.append_assoc, List.append_assoc, hsplit]
  simp only [pushes_zero_iff]
  rw [through_append through_error, through_append through_swapgsAt, through,
    through_append through_pushes]
  rfl

/-- **The way out.** -/
theorem run_irqExit : run handler irqExit 0 r = .ok r.unwind.iretq := by
  unfold irqExit
  simp only [List.cons_append, List.nil_append, run]
  rw [run_through through_pops, run_swapgsAt]
  rfl

/-- **The stub**, around the handler. -/
theorem run_irqStub : run handler (irqStub ret v) 0 (s.deliver v code) =
    handler (((((s.framed v code).swapgsAt 16).exec .cld).pushes irqSaved).atHandler ret v) >>=
      fun r => .ok r.unwind.iretq := by
  obtain ⟨c, hc, hcall⟩ := through_irqEnter v code s
  unfold irqStub
  rw [run_through hc, run, hcall]
  exact bind_congr fun r => run_irqExit

private theorem atFrame_rsp : r.atFrame.reg .rsp = r.reg .rbp + 16 := by
  simp [atFrame, exec]

theorem unwind_mem : r.unwind.mem = r.mem := by
  simp [unwind, atFrame, exec]

private theorem unwind_rsp : r.unwind.reg .rsp = r.reg .rbp + 16 + 128 := by
  have hadd : r.unwind.reg .rsp = (r.atFrame.pops irqRestored).reg .rsp + 8 := by
    simp only [unwind, exec, setZf_reg, set_self, swapgsAt_reg]
  rw [hadd, pops_rsp (by decide), atFrame_rsp, BitVec.add_assoc]
  rfl

private theorem unwind_reg {x : Reg} (hx : x ∈ irqRestored) :
    r.unwind.reg x = word r.mem (r.reg .rbp + 16) (irqRestored.idxOf x) := by
  have hsp : x ≠ .rsp := ne_of_mem_of_not_mem hx (by decide)
  have hadd : r.unwind.reg x = (r.atFrame.pops irqRestored).reg x := by
    simp only [unwind, exec, setZf_reg, set_of_ne hsp, swapgsAt_reg]
  rw [hadd, pops_reg (by decide) (by decide) hx, atFrame_rsp]
  rfl

/-- What is resumed is the frame. -/
theorem unwind_iretq :
    r.unwind.iretq.irqFrame (IrqFrame.at_ r.mem (r.reg .rbp + 16)).error =
      IrqFrame.at_ r.mem (r.reg .rbp + 16) := by
  have hreg {x : Reg} (hx : x ∈ irqRestored) :
      r.unwind.iretq.reg x = word r.mem (r.reg .rbp + 16) (irqRestored.idxOf x) :=
    (set_of_ne (ne_of_mem_of_not_mem hx (by decide))).trans (unwind_reg hx)
  have hread {d : Word} : r.unwind.read (r.unwind.reg .rsp + d) =
      load64 r.mem (r.reg .rbp + 16 + (128 + d)).toNat := by
    unfold Cpu.read
    rw [unwind_mem, unwind_rsp, BitVec.add_assoc]
  have hrsp : r.unwind.iretq.reg .rsp = r.unwind.read (r.unwind.reg .rsp + 24) := by
    rw [iretq_reg, set_self]
  have hrip : r.unwind.iretq.rip = r.unwind.read (r.unwind.reg .rsp + 0#64) := by
    rw [BitVec.add_zero]
    rfl
  apply IrqFrame.ext
  case error => rfl
  case rip => exact hrip.trans hread
  case cs => exact hread
  case rflags => exact hread
  case rsp => exact hrsp.trans hread
  case ss => exact hread
  all_goals
    dsimp only [Cpu.irqFrame, IrqFrame.at_]
    exact hreg (by decide)

/-- **An interrupt is an exact save and restore.** The handler, at `c`, finds the interrupted state in
`*frame`, and what it leaves there when it returns is the state that is resumed, by an `iretq` that
loads it unchecked. -/
theorem stub_exact (ret code : Word) (v : BitVec 8) (s : Cpu) :
    ∃ c : Cpu, IrqFrame.at_ c.mem (c.reg .rdi) = s.irqFrame (if v ∈ errorVectors then code else 0) ∧
      c.reg .rsi = v.setWidth 64 ∧
      ∀ handler : Callee,
        (∀ e, handler c = .error e → run handler (irqStub ret v) 0 (s.deliver v code) = .error e) ∧
        ∀ r, handler c = .ok r → Preserves c r →
          ∃ s', run handler (irqStub ret v) 0 (s.deliver v code) = .ok s' ∧
            s'.irqFrame (IrqFrame.at_ r.mem (c.reg .rdi)).error = IrqFrame.at_ r.mem (c.reg .rdi) := by
  set t := (((s.framed v code).swapgsAt 16).exec .cld).pushes irqSaved with ht
  have hsaved : Saved s.reg (s.irqFrame (if v ∈ errorVectors then code else 0)).words t := by
    have hframed : Saved s.reg _ (((s.framed v code).swapgsAt 16).exec .cld) :=
      framed_saved.congr swapgsAt_reg swapgsAt_mem
    exact hframed.pushes irqSaved (by decide) (by simp [irqSaved])
  refine ⟨t.atHandler ret v, ?_, atHandler_rsi, fun handler => ⟨fun e he => ?_, fun r hr hpres => ?_⟩⟩
  · rw [atHandler_rdi]
    exact IrqFrame.at_of_wordsAt (atHandler_words hsaved.words (by simp [IrqFrame.words]))
  · rw [run_irqStub, ← ht, he]
    rfl
  · refine ⟨r.unwind.iretq, ?_, ?_⟩
    · rw [run_irqStub, ← ht, hr]
      rfl
    · have hframe : r.reg .rbp + 16 = (t.atHandler ret v).reg .rdi := by
        rw [hpres.saved .rbp (by decide), atHandler_rbp, atHandler_rdi]
        bv_omega
      rw [← hframe]
      exact unwind_iretq

/-- A handler that writes `frame->rax` and returns: the interrupted code goes on with it. -/
theorem stub_exact_rax : ∃ s', run (fun c => .ok (c.write (c.reg .rdi + 112) 7).ret) (irqStub 0 32) 0
    (Cpu.deliver 32 0 ⟨fun _ => 5, 0, 0x23, 0x202, 0x1b, 0, 0, 0x9000, fun _ => 0⟩) = .ok s' ∧
      s'.reg .rax = 7 := by
  obtain ⟨c, -, -, h⟩ := stub_exact 0 0 32 ⟨fun _ => 5, 0, 0x23, 0x202, 0x1b, 0, 0, 0x9000, fun _ => 0⟩
  obtain ⟨s', hrun, hframe⟩ := (h fun c => .ok (c.write (c.reg .rdi + 112) 7).ret).2 _ rfl
    ⟨set_self, fun x hx => set_of_ne (ne_of_mem_of_not_mem hx (by decide))⟩
  exact ⟨s', hrun, (congrArg IrqFrame.rax hframe).trans load64_store64_self⟩

/-! ## System calls -/

/-- The members, in order. -/
def SyscallFrame.words (f : SyscallFrame) : List Word :=
  [f.rax, f.rbx, f.rcx, f.rdx, f.rdi, f.rsi, f.rbp, f.r8, f.r9, f.r10, f.r11, f.r12, f.r13, f.r14, f.r15]

/-- The frame, with the three words above it that the stub resumes from. -/
theorem SyscallFrame.at_of_wordsAt {f : SyscallFrame} (h : WordsAt m a (f.words ++ l)) :
    SyscallFrame.at_ m a = f := by
  apply SyscallFrame.ext <;> exact h.word rfl

/-- What the processor has in the registers that a frame names. -/
def Cpu.syscallFrame (s : Cpu) : SyscallFrame where
  rax := s.reg .rax
  rbx := s.reg .rbx
  rcx := s.reg .rcx
  rdx := s.reg .rdx
  rdi := s.reg .rdi
  rsi := s.reg .rsi
  rbp := s.reg .rbp
  r8 := s.reg .r8
  r9 := s.reg .r9
  r10 := s.reg .r10
  r11 := s.reg .r11
  r12 := s.reg .r12
  r13 := s.reg .r13
  r14 := s.reg .r14
  r15 := s.reg .r15

/-- What `syscall` leaves in the registers. -/
theorem syscall_frame :
    s.syscall.syscallFrame = { s.syscallFrame with rcx := s.rip, r11 := s.rflags } := by
  simp [Cpu.syscallFrame, syscall_reg, set_of_ne]

/-- On the kernel's stack, the user's stack pointer in `syscall_user_rsp`. -/
def Cpu.switched (s : Cpu) : Cpu := [.swapgs, .movToGs .rsp 8, .movFromGs 0 .rsp].foldl exec s

private theorem switched_saved :
    Saved s.reg [s.reg .rcx, s.reg .r11, s.reg .rsp]
      ((s.switched.exec (.pushGs 8)).pushes [.r11, .rcx]) := by
  have hempty : Saved s.reg [] s.switched := .empty fun _ hr => set_of_ne hr
  have hpushed : Saved s.reg [s.switched.read (s.switched.gsBase + 8)] (s.switched.exec (.pushGs 8)) :=
    hempty.push (by simp)
  -- nothing has been stored since
  have hslot : s.switched.read (s.switched.gsBase + 8) = s.reg .rsp := load64_store64_self
  rw [hslot] at hpushed
  exact hpushed.pushes [.r11, .rcx] (by decide) (by simp)

/-- The processor where `do_syscall_64` begins, from where the registers are saved. -/
def Cpu.atSyscall (ret : Word) (t : Cpu) : Cpu :=
  ([.cld, .mov .rsp .rdi, .push .rbp, .mov .rsp .rbp, .and (~~~15) .rsp].foldl exec t).push ret

private theorem atSyscall_rdi : (t.atSyscall ret).reg .rdi = t.reg .rsp := by
  simp [atSyscall, exec, push_of_ne, set_of_ne]

private theorem atSyscall_rbp : (t.atSyscall ret).reg .rbp = t.reg .rsp - 8 := by
  simp [atSyscall, exec, push_of_ne, set_of_ne]

private theorem atSyscall_words (h : WordsAt t.mem (t.reg .rsp) l) (hl : 8 * l.length + 32 ≤ 2 ^ 64) :
    WordsAt (t.atSyscall ret).mem (t.reg .rsp) l := by
  have hpushed := fun x => h.push (v := x) (by omega)
  have hcalled := fun x => wordsAt_aligned (v := ret) (hpushed x) (by
    rw [List.length_cons]
    omega)
  simp only [WordsAt, BitVec.sub_add_cancel] at hcalled
  simp only [atSyscall, exec, List.foldl_cons, List.foldl_nil, push_mem, setZf_mem, set_mem, setZf_reg,
    set_self, push_rsp, set_of_ne, ne_eq, reduceCtorEq, not_false_eq_true]
  exact (hcalled _).2

/-- The processor where `do_syscall_64` begins, from the user's `syscall`. -/
def Cpu.atDoSyscall64 (ret : Word) (s : Cpu) : Cpu :=
  (((s.syscall.switched.exec (.pushGs 8)).pushes [.r11, .rcx]).pushes syscallSaved).atSyscall ret

/-- From the return of `do_syscall_64` to `sysretq`. -/
def Cpu.unwindSyscall (r : Cpu) : Cpu :=
  let u := ((r.exec (.mov .rbp .rsp)).exec (.pop .rbp)).pops syscallRestored
  ((u.pops [.rcx, .r11]).exec .swapgs).pop .rsp

/-- **The stub**, around `do_syscall_64`. -/
theorem run_syscallHanlder : run handler (syscallHanlder ret) 0 s.syscall =
    handler (s.atDoSyscall64 ret) >>= fun r => .ok r.unwindSyscall.sysretq := by
  unfold syscallHanlder
  simp only [List.append_assoc, List.cons_append, List.nil_append]
  simp only [run]
  rw [run_through through_pushes]
  simp only [run]
  refine bind_congr fun r => ?_
  rw [run_through through_pops]
  rfl

/-- The user goes on after `s.syscall` with the registers of `f`. -/
structure Resumes (s : Cpu) (f : SyscallFrame) (s' : Cpu) : Prop where
  registers : s'.syscallFrame = { f with rcx := s.rip, r11 := s.rflags }
  rip : s'.rip = s.rip
  rflags : s'.rflags = s.rflags
  rsp : s'.reg .rsp = s.reg .rsp

/-- What is resumed is the frame, and the three words above it. -/
theorem unwindSyscall_resumes (hbp : r.reg .rbp + 8 = a) (hrip : word r.mem a 15 = s.rip)
    (hrflags : word r.mem a 16 = s.rflags) (hrsp : word r.mem a 17 = s.reg .rsp) :
    Resumes s (SyscallFrame.at_ r.mem a) r.unwindSyscall.sysretq := by
  subst hbp
  -- `u` is behind the frame
  set u := ((r.exec (.mov .rbp .rsp)).exec (.pop .rbp)).pops syscallRestored with hu
  have hframe : ((r.exec (.mov .rbp .rsp)).exec (.pop .rbp)).reg .rsp = r.reg .rbp + 8 := by
    simp [exec, pop_rsp]
  have humem : u.mem = r.mem := pops_mem
  have hursp : u.reg .rsp = r.reg .rbp + 8 + BitVec.ofNat 64 (8 * 15) := by
    rw [hu, pops_rsp (by decide), hframe]
    rfl
  have hword {i : Nat} : word u.mem (u.reg .rsp) i = word r.mem (r.reg .rbp + 8) (15 + i) := by
    rw [humem, hursp, word_add]
  have hlast {x : Reg} (hx : x ≠ .rsp) : r.unwindSyscall.sysretq.reg x = (u.pops [.rcx, .r11]).reg x :=
    pop_of_ne hx hx
  have hrcx : r.unwindSyscall.sysretq.reg .rcx = s.rip :=
    (hlast (by decide)).trans ((pops_reg (by decide) (by decide) (by decide)).trans (hword.trans hrip))
  have hr11 : r.unwindSyscall.sysretq.reg .r11 = s.rflags :=
    (hlast (by decide)).trans ((pops_reg (by decide) (by decide) (by decide)).trans (hword.trans hrflags))
  have hreg {x : Reg} (hx : x ∈ syscallRestored) (hx' : x ∉ [Reg.rcx, .r11]) :
      r.unwindSyscall.sysretq.reg x = word r.mem (r.reg .rbp + 8) (syscallRestored.idxOf x) := by
    have hsp : x ≠ .rsp := ne_of_mem_of_not_mem hx (by decide)
    rw [hlast hsp, pops_of_notMem hx' hsp, hu, pops_reg (by decide) (by decide) hx, hframe]
    rfl
  have hlastRsp : r.unwindSyscall.sysretq.reg .rsp = s.reg .rsp := by
    have hpops : (u.pops [.rcx, .r11]).reg .rsp = _ := pops_rsp (by decide)
    have hpop : r.unwindSyscall.sysretq.reg .rsp =
        load64 (u.pops [.rcx, .r11]).mem ((u.pops [.rcx, .r11]).reg .rsp).toNat := by
      rw [sysretq_reg, unwindSyscall, pop_self]
      rfl
    rw [hpop, hpops, pops_mem]
    exact hword.trans hrsp
  refine ⟨?_, hrcx, hr11, hlastRsp⟩
  generalize r.unwindSyscall.sysretq = s' at hrcx hr11 hreg
  apply SyscallFrame.ext
  case rcx => exact hrcx
  case r11 => exact hr11
  all_goals
    dsimp only [Cpu.syscallFrame, SyscallFrame.at_]
    exact hreg (by decide) (by decide)

/-- `*frame->ret() = …`. -/
theorem SyscallFrame.at_ret :
    SyscallFrame.at_ (store64 m a.toNat code) a = { SyscallFrame.at_ m a with rax := code } := by
  apply SyscallFrame.ext
  case rax => exact word_store64_zero
  all_goals exact word_store64_of_pos (by decide) (by decide)

private theorem doSyscall64_large {globalSyscall : Word → Option Callee}
    (h : maxSyscalls ≤ (SyscallFrame.at_ t.mem (t.reg .rdi)).num) :
    doSyscall64 globalSyscall t = .ok t.ret := if_pos h

private theorem doSyscall64_handler {globalSyscall : Word → Option Callee} {fn : Callee}
    (h : (SyscallFrame.at_ t.mem (t.reg .rdi)).num < maxSyscalls)
    (hfn : globalSyscall (SyscallFrame.at_ t.mem (t.reg .rdi)).num = some fn) (hr : fn t = .ok r) :
    doSyscall64 globalSyscall t = .ok (r.write (t.reg .rdi) (r.reg .rax)) := by
  unfold doSyscall64
  simp only [if_neg (BitVec.not_le.mpr h), hfn]
  show (fn t >>= _) = _
  rw [hr]
  rfl

private theorem atDoSyscall64_words : WordsAt (s.atDoSyscall64 ret).mem ((s.atDoSyscall64 ret).reg .rdi)
    (SyscallFrame.words { s.syscallFrame with rcx := s.rip, r11 := s.rflags } ++
      [s.rip, s.rflags, s.reg .rsp]) := by
  have hsaved : Saved s.syscall.reg
      (s.syscall.syscallFrame.words ++ [s.syscall.reg .rcx, s.syscall.reg .r11, s.syscall.reg .rsp])
      (((s.syscall.switched.exec (.pushGs 8)).pushes [.r11, .rcx]).pushes syscallSaved) :=
    switched_saved.pushes syscallSaved (by decide) (by simp [syscallSaved])
  have hrcx : s.syscall.reg .rcx = s.rip := congrArg SyscallFrame.rcx syscall_frame
  have hr11 : s.syscall.reg .r11 = s.rflags := congrArg SyscallFrame.r11 syscall_frame
  have hrsp : s.syscall.reg .rsp = s.reg .rsp := by simp [syscall_reg, set_of_ne]
  rw [hrcx, hr11, hrsp, syscall_frame] at hsaved
  unfold atDoSyscall64
  rw [atSyscall_rdi]
  exact atSyscall_words hsaved.words (by simp [SyscallFrame.words])

private theorem atDoSyscall64_frame :
    SyscallFrame.at_ (s.atDoSyscall64 ret).mem ((s.atDoSyscall64 ret).reg .rdi) =
      { s.syscallFrame with rcx := s.rip, r11 := s.rflags } :=
  SyscallFrame.at_of_wordsAt atDoSyscall64_words

/-- A function that keeps `rbp` and the three words above the frame returns to the user. -/
theorem run_resumes (hr : handler (s.atDoSyscall64 ret) = .ok r)
    (hbp : r.reg .rbp = (s.atDoSyscall64 ret).reg .rbp)
    (hkept : ∀ i, 15 ≤ i → i < 18 → word r.mem ((s.atDoSyscall64 ret).reg .rdi) i =
      word (s.atDoSyscall64 ret).mem ((s.atDoSyscall64 ret).reg .rdi) i) :
    ∃ s', run handler (syscallHanlder ret) 0 s.syscall = .ok s' ∧
      Resumes s (SyscallFrame.at_ r.mem ((s.atDoSyscall64 ret).reg .rdi)) s' := by
  refine ⟨r.unwindSyscall.sysretq, ?_, unwindSyscall_resumes ?_ ?_ ?_ ?_⟩
  · rw [run_syscallHanlder, hr]
    rfl
  · rw [hbp, atDoSyscall64, atSyscall_rbp, atSyscall_rdi]
    exact BitVec.sub_add_cancel _ _
  · exact (hkept 15 (by decide) (by decide)).trans (atDoSyscall64_words.word rfl)
  · exact (hkept 16 (by decide) (by decide)).trans (atDoSyscall64_words.word rfl)
  · exact (hkept 17 (by decide) (by decide)).trans (atDoSyscall64_words.word rfl)

/-- **A system call preserves the user's state.** `do_syscall_64`, at `c`, finds the user's registers in
`*frame`, `rcx` and `r11` as `syscall` leaves them. A number that is too large changes nothing. Otherwise
the user goes on with what the handler has left in `*frame`, and its result in `rax`; but where the
user goes on, with which flags and on which stack is not the handler's choice. `sysretq` loads `rip` and
the flags unchecked. -/
theorem syscall_exact (ret : Word) (globalSyscall : Word → Option Callee) (s : Cpu) :
    ∃ (c : Cpu) (f : SyscallFrame), SyscallFrame.at_ c.mem (c.reg .rdi) = f ∧
      (∀ handler e, handler c = .error e → run handler (syscallHanlder ret) 0 s.syscall = .error e) ∧
      f = { s.syscallFrame with rcx := s.rip, r11 := s.rflags } ∧
      (f.num = s.reg .rax ∧ f.arg0 = s.reg .rdi ∧ f.arg1 = s.reg .rsi ∧ f.arg2 = s.reg .rdx ∧
        f.arg3 = s.reg .r10 ∧ f.arg4 = s.reg .r8 ∧ f.arg5 = s.reg .r9) ∧
      (maxSyscalls ≤ s.reg .rax →
        ∃ s', run (doSyscall64 globalSyscall) (syscallHanlder ret) 0 s.syscall = .ok s' ∧
          Resumes s s.syscallFrame s') ∧
      (s.reg .rax < maxSyscalls → ∀ fn r, globalSyscall (s.reg .rax) = some fn →
        fn c = .ok r → Preserves c r →
        (∀ i, 15 ≤ i → i < 18 → word r.mem (c.reg .rdi) i = word c.mem (c.reg .rdi) i) →
        ∃ s', run (doSyscall64 globalSyscall) (syscallHanlder ret) 0 s.syscall = .ok s' ∧
          Resumes s { SyscallFrame.at_ r.mem (c.reg .rdi) with rax := r.reg .rax } s') := by
  have hnum : (SyscallFrame.at_ (s.atDoSyscall64 ret).mem ((s.atDoSyscall64 ret).reg .rdi)).num =
      s.reg .rax := congrArg SyscallFrame.num atDoSyscall64_frame
  refine ⟨s.atDoSyscall64 ret, _, atDoSyscall64_frame, fun handler e he => ?_, rfl,
    ⟨rfl, rfl, rfl, rfl, rfl, rfl, rfl⟩, fun hbig => ?_, fun hsmall fn r hfn hr hpres hkept => ?_⟩
  · rw [run_syscallHanlder, he]
    rfl
  · have hcall : doSyscall64 globalSyscall (s.atDoSyscall64 ret) = .ok (s.atDoSyscall64 ret).ret :=
      doSyscall64_large (hbig.trans_eq hnum.symm)
    obtain ⟨s', hrun, hres⟩ := run_resumes hcall (ret_preserves.saved .rbp (by decide)) fun _ _ _ => by
      rw [ret_mem]
    rw [ret_mem, atDoSyscall64_frame] at hres
    exact ⟨s', hrun, hres.registers, hres.rip, hres.rflags, hres.rsp⟩
  · rw [← hnum] at hsmall hfn
    have hcall := doSyscall64_handler hsmall hfn hr
    -- the result goes to the first word of the frame
    have hret : SyscallFrame.at_ (r.write ((s.atDoSyscall64 ret).reg .rdi) (r.reg .rax)).mem _ = _ :=
      SyscallFrame.at_ret
    obtain ⟨s', hrun, hres⟩ := run_resumes hcall (hpres.saved .rbp (by decide)) fun i hi hi' =>
      (word_store64_of_pos (by omega) (by omega)).trans (hkept i hi hi')
    rw [hret] at hres
    exact ⟨s', hrun, hres⟩

/-- `get_pid`, of process 7. -/
theorem syscall_exact_pid : ∃ s', run (doSyscall64 fun _ => some fun c => .ok (c.set .rax 7).ret)
    (syscallHanlder 0) 0
    (Cpu.syscall ⟨fun _ => 39, 0x400010, 0x23, 0x202, 0x1b, 0, 0x8000, 0x9000, fun _ => 0⟩) = .ok s' ∧
      s'.reg .rax = 7 ∧ s'.rip = 0x400010 := by
  obtain ⟨c, -, -, -, -, -, -, h⟩ := syscall_exact 0 (fun _ => some fun c => .ok (c.set .rax 7).ret)
    ⟨fun _ => 39, 0x400010, 0x23, 0x202, 0x1b, 0, 0x8000, 0x9000, fun _ => 0⟩
  have hkeeps : Preserves c (c.set .rax 7).ret := by
    refine ⟨set_self, fun x hx => ?_⟩
    have hsp : x ≠ .rsp := ne_of_mem_of_not_mem hx (by decide)
    have hax : x ≠ .rax := ne_of_mem_of_not_mem hx (by decide)
    exact (set_of_ne hsp).trans (set_of_ne hax)
  have hrax : (c.set .rax 7).ret.reg .rax = 7 := (set_of_ne (by decide)).trans set_self
  obtain ⟨s', hrun, hres⟩ := h (by decide) _ _ rfl rfl hkeeps fun _ _ _ => rfl
  exact ⟨s', hrun, (congrArg SyscallFrame.rax hres.registers).trans hrax, hres.rip⟩

/-! ## Without operands -/

/-- The instruction at position `i`, as `Entry` has it. -/
def Instr.erase (i : Nat) : Instr → Entry.Instr
  | .op (.testb mask offset) => if mask = 3 ∧ offset = 16 then .testCs else .plain
  | .op .swapgs => .swapgs
  | .op _ => .plain
  | .jz skip => .jz (i + 1 + skip)
  | .call _ => .call
  | .iretq => .iretq
  | .sysretq => .sysretq

/-- The instructions from position `i` on. -/
def erased : Nat → List Instr → List Entry.Instr
  | _, [] => []
  | i, x :: code => x.erase i :: erased (i + 1) code

theorem irqStub_erased (h : v ∉ errorVectors) : erased 0 (irqStub ret v) = Entry.stub := by
  unfold irqStub irqEnter
  rw [if_pos (pushes_zero_iff.mpr h)]
  rfl

theorem syscallHanlder_erased : erased 0 (syscallHanlder ret) = Entry.syscallHanlder := rfl

end Asm

end TwoKernel
