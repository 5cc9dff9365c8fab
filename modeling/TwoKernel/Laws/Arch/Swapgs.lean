import TwoKernel.Arch.Entry

/-!
# `swapgs` and the interrupt flag

Each stub exchanges the GS bases on the way in and on the way out, if it came from
ring 3 and if it goes there. `expected` is the base that code should find, wherever
it is. While interrupts are taken only where the base is that of the ring, every
frame that is saved can be resumed from any handler, and the base in use is the
expected one (`coherent_step`).

The stubs are entered with interrupts masked, and the system call keeps them so.
But `pit_irq_handler` unmasks them before it returns. From then on the interrupt
stub can be interrupted up to its `iretq`: also after its last `swapgs`, in ring 0
with the base of ring 3. The stub that is entered there sees the code segment of the
kernel and leaves the base alone.

* If no interrupt arrives in that window, the bases are right in every state
  (`parity_of_run`), and one that does puts the handler on the base of ring 3.
* `windowRun` takes one, and then a switch to a thread that runs in ring 3 with the
  base of the kernel.
-/

namespace TwoKernel

attribute [local instance] neZero_three

namespace Entry

/-- The other base. -/
def GsBase.other : GsBase → GsBase
  | .bspCpu => .user
  | .user => .bspCpu

namespace Context

/-- The base of the ring. -/
def base (c : Context) : GsBase := if c.isUser then .user else .bspCpu

/-- The base that is in use where `c` is. The interrupt stub has the one of the frame's ring up to
its first exchange and from its second on. -/
def expected : Context → GsBase
  | [] => .bspCpu
  | ⟨.user, _, _⟩ :: _ => .user
  | ⟨.stub pc, _, _⟩ :: below => if pc ≤ 3 ∨ 46 < pc then base below else .bspCpu
  | ⟨.syscall pc, _, _⟩ :: _ => if pc = 0 ∨ 46 < pc then .user else .bspCpu
  | _ :: _ => .bspCpu

/-- The base in use is the one of the ring, so that an interrupt finds it right. -/
def Settled (c : Context) : Prop := c.expected = c.base

/-- Between the last `swapgs` of the interrupt stub and its `iretq`, on the way to ring 3. -/
def inWindow : Context → Bool
  | ⟨.stub pc, _, _⟩ :: below => 46 < pc && isUser below
  | _ => false

private theorem inWindow_cases {c : Context} (h : c.inWindow = true) :
    ∃ pc f z below, c = ⟨.stub pc, f, z⟩ :: below ∧ 46 < pc ∧ isUser below = true := by
  unfold inWindow at h
  split at h
  next pc f z below =>
    rw [Bool.and_eq_true] at h
    exact ⟨pc, f, z, below, rfl, of_decide_eq_true h.1, h.2⟩
  next => cases h

/-- A C++ handler is executing. -/
def isHandler : Context → Bool
  | ⟨.handler _, _, _⟩ :: _ => true
  | ⟨.doSyscall64, _, _⟩ :: _ => true
  | _ => false

/-- A stack the machine can have. -/
inductive Sound : Context → Prop
  | user {f z : Bool} : Sound [⟨.user, f, z⟩]
  | kernel {f z : Bool} : Sound [⟨.kernel, f, z⟩]
  | stub {pc : Nat} {f z : Bool} {below : Context} (frame : Sound below) (settled : below.Settled)
      (masked : pc ≤ 3 → f = false) (tested : pc = 2 ∨ pc = 45 → z = !below.isUser)
      (taken : pc = 3 ∨ pc = 46 → below.isUser = true) : Sound (⟨.stub pc, f, z⟩ :: below)
  | handler {pc : Nat} {f z : Bool} {below : Context} (frame : Sound below)
      (settled : below.Settled) : Sound (⟨.handler pc, f, z⟩ :: below)
  | syscall {pc : Nat} {z f' z' : Bool} : Sound [⟨.syscall pc, false, z⟩, ⟨.user, f', z'⟩]
  | doSyscall64 {z f' z' : Bool} : Sound [⟨.doSyscall64, false, z⟩, ⟨.user, f', z'⟩]

variable {below : Context} {a : Activation}

/-- Two points of the interrupt stub on the same side of its exchanges. -/
theorem expected_stub_congr {pc pc' : Nat} {f z f' z' : Bool}
    (h : (pc' ≤ 3 ∨ 46 < pc') ↔ (pc ≤ 3 ∨ 46 < pc)) :
    expected (⟨.stub pc', f', z'⟩ :: below) = expected (⟨.stub pc, f, z⟩ :: below) := by
  show (if pc' ≤ 3 ∨ 46 < pc' then base below else GsBase.bspCpu) =
    if pc ≤ 3 ∨ 46 < pc then base below else GsBase.bspCpu
  simp only [h]

/-- A stub that came from ring 0 has the base of the kernel all along. -/
theorem expected_stub_kernel {pc : Nat} {f z : Bool} (h : below.isUser = false) :
    expected (⟨.stub pc, f, z⟩ :: below) = .bspCpu := by
  show (if pc ≤ 3 ∨ 46 < pc then base below else GsBase.bspCpu) = GsBase.bspCpu
  unfold base
  rw [h]
  split <;> rfl

/-- The flag of `testb $3` on a code segment. -/
theorem cs_and_three (c : Context) : decide (c.cs &&& 3 = 0) = !c.isUser := by
  unfold cs
  cases c.isUser <;> rfl

/-- Where an interrupt can arrive, the base is the one of the ring, but in the window. -/
theorem Sound.settled (h : Sound (a :: below)) (hflag : a.interruptFlag = true)
    (hwindow : inWindow (a :: below) = false) : Settled (a :: below) := by
  cases h with
  | user => rfl
  | kernel => rfl
  | handler => rfl
  | syscall => cases hflag
  | doSyscall64 => cases hflag
  | @stub pc f z _ _ _ hmasked _ _ =>
    have hlate : 3 < pc := by
      by_contra hle
      cases hflag.symm.trans (hmasked (Nat.le_of_not_lt hle))
    by_cases hpc : 46 < pc
    · cases huser : below.isUser with
      | true =>
        have hin : (decide (46 < pc) && isUser below) = false := hwindow
        rw [huser, decide_eq_true hpc] at hin
        cases hin
      | false => exact expected_stub_kernel huser
    · exact if_neg (by omega)

end Context

open Context

variable {T : Type} {below : Context} {a : Activation} {pc : Nat}

/-! ## The code of the stubs -/

/-- Where the instructions of the interrupt stub are. -/
def stubAt (pc : Nat) : Instr → Bool
  | .plain => pc = 0 || (4 ≤ pc && pc ≤ 25) || (27 ≤ pc && pc ≤ 43) || pc = 47
  | .testCs => pc = 1 || pc = 44
  | .jz target => (pc = 2 && target = 4) || (pc = 45 && target = 47)
  | .swapgs => pc = 3 || pc = 46
  | .call => pc = 26
  | .iretq => pc = 48
  | .sysretq => false

private theorem stub_at {i : Instr} (h : stub[pc]? = some i) : stubAt pc i = true := by
  have hall : ∀ pc < 49, ∀ i ∈ stub[pc]?.toList, stubAt pc i = true := by decide
  exact hall pc (List.getElem?_eq_some_iff.mp h).1 i (by rw [h]; exact List.mem_singleton_self i)

/-- Where the instructions of the system call stub are. -/
def syscallAt (pc : Nat) : Instr → Bool
  | .plain => (1 ≤ pc && pc ≤ 25) || (27 ≤ pc && pc ≤ 45) || pc = 47
  | .swapgs => pc = 0 || pc = 46
  | .call => pc = 26
  | .sysretq => pc = 48
  | _ => false

private theorem syscallHanlder_at {i : Instr} (h : syscallHanlder[pc]? = some i) :
    syscallAt pc i = true := by
  have hall : ∀ pc < 49, ∀ i ∈ syscallHanlder[pc]?.toList, syscallAt pc i = true := by decide
  exact hall pc (List.getElem?_eq_some_iff.mp h).1 i (by rw [h]; exact List.mem_singleton_self i)

/-! ## One step -/

namespace Machine

/-- The stack is one the machine can have, the bases are the expected ones, and every thread can be
resumed. -/
structure Coherent (m : Machine T) : Prop where
  sound : m.context.Sound
  gs : m.gs = m.context.expected
  kernelGs : m.kernelGs = m.gs.other
  saved : ∀ t, (m.registers t).Sound ∧ (m.registers t).Settled

variable {m m' : Machine T}

/-- The stack changes to one where the same base is expected. -/
theorem Coherent.move {c : Context} {n : BitVec 8} {t : Option T} (h : m.Coherent)
    (hsound : c.Sound) (hbase : c.expected = m.context.expected) :
    Coherent { m with context := c, disableCounter := n, currThread := t } :=
  ⟨hsound, h.gs.trans hbase.symm, h.kernelGs, h.saved⟩

/-- The bases are exchanged, and the stack changes to one where the other is expected. -/
theorem Coherent.swap {c : Context} (h : m.Coherent) (hsound : c.Sound)
    (hbase : c.expected = m.context.expected.other) :
    Coherent { m.swapgs with context := c } where
  sound := hsound
  gs := h.kernelGs.trans ((congrArg GsBase.other h.gs).trans hbase.symm)
  kernelGs := by
    show m.gs = m.kernelGs.other
    rw [h.kernelGs]
    cases m.gs <;> rfl
  saved := h.saved

/-- An instruction of the interrupt stub. -/
theorem Coherent.stub {f z : Bool} {i : Instr} (h : m.Coherent)
    (hc : m.context = ⟨.stub pc, f, z⟩ :: below) (hi : stub[pc]? = some i) :
    (m.instr .stub (.handler 0) pc ⟨.stub pc, f, z⟩ below i).Coherent := by
  have hat := stub_at hi
  have hsound := h.sound
  rw [hc] at hsound
  cases hsound with
  | stub hframe hsettled hmasked htested htaken =>
  cases i with
  | plain =>
    simp only [stubAt, Bool.or_eq_true, Bool.and_eq_true, decide_eq_true_eq] at hat
    apply h.move
    · exact .stub hframe hsettled (fun hle => hmasked (by omega)) (by omega) (by omega)
    · rw [hc]
      exact expected_stub_congr (by omega)
  | testCs =>
    simp only [stubAt, Bool.or_eq_true, decide_eq_true_eq] at hat
    apply h.move
    · exact .stub hframe hsettled (fun hle => hmasked (by omega)) (fun _ => cs_and_three below)
        (by omega)
    · rw [hc]
      exact expected_stub_congr (by omega)
  | jz target =>
    simp only [stubAt, Bool.or_eq_true, Bool.and_eq_true, decide_eq_true_eq] at hat
    cases huser : below.isUser with
    | true =>
      have hz : z = false := by rw [htested (by omega), huser, Bool.not_true]
      subst hz
      show Coherent { m with context := ⟨.stub (pc + 1), f, false⟩ :: below }
      apply h.move
      · exact .stub hframe hsettled (fun hle => hmasked (by omega)) (by omega) (fun _ => huser)
      · rw [hc]
        exact expected_stub_congr (by omega)
    | false =>
      have hz : z = true := by rw [htested (by omega), huser, Bool.not_false]
      subst hz
      show Coherent { m with context := ⟨.stub target, f, true⟩ :: below }
      apply h.move
      · exact .stub hframe hsettled (by omega) (by omega) (by omega)
      · rw [hc]
        exact (expected_stub_kernel huser).trans (expected_stub_kernel huser).symm
  | swapgs =>
    simp only [stubAt, Bool.or_eq_true, decide_eq_true_eq] at hat
    have hbase : base below = .user := by
      unfold base
      rw [htaken hat]
      rfl
    apply h.swap
    · exact .stub hframe hsettled (by omega) (by omega) (by omega)
    · rw [hc]
      show (if pc + 1 ≤ 3 ∨ 46 < pc + 1 then base below else GsBase.bspCpu) =
        (if pc ≤ 3 ∨ 46 < pc then base below else GsBase.bspCpu).other
      rcases hat with rfl | rfl
      · exact (congrArg GsBase.other hbase).symm
      · exact hbase
  | call =>
    simp only [stubAt, decide_eq_true_eq] at hat
    apply h.move
    · exact .handler hframe hsettled
    · rw [hc, hat]
      rfl
  | iretq =>
    simp only [stubAt, decide_eq_true_eq] at hat
    apply h.move hframe
    rw [hc, hat]
    exact hsettled
  | sysretq => cases hat

/-- An instruction of the system call stub. -/
theorem Coherent.syscall {f z : Bool} {i : Instr} (h : m.Coherent)
    (hc : m.context = ⟨.syscall pc, f, z⟩ :: below) (hi : syscallHanlder[pc]? = some i) :
    (m.instr .syscall .doSyscall64 pc ⟨.syscall pc, f, z⟩ below i).Coherent := by
  have hat := syscallHanlder_at hi
  have hsound := h.sound
  rw [hc] at hsound
  cases hsound with
  | @syscall _ _ f' z' =>
  cases i with
  | plain =>
    simp only [syscallAt, Bool.or_eq_true, Bool.and_eq_true, decide_eq_true_eq] at hat
    apply h.move
    · exact .syscall
    · rw [hc]
      show (if pc + 1 = 0 ∨ 46 < pc + 1 then GsBase.user else GsBase.bspCpu) =
        if pc = 0 ∨ 46 < pc then GsBase.user else GsBase.bspCpu
      have hside : (pc + 1 = 0 ∨ 46 < pc + 1) ↔ (pc = 0 ∨ 46 < pc) := by omega
      simp only [hside]
  | swapgs =>
    simp only [syscallAt, Bool.or_eq_true, decide_eq_true_eq] at hat
    apply h.swap
    · exact .syscall
    · rw [hc]
      rcases hat with rfl | rfl <;> rfl
  | call =>
    simp only [syscallAt, decide_eq_true_eq] at hat
    apply h.move
    · exact .doSyscall64
    · rw [hc, hat]
      rfl
  | sysretq =>
    simp only [syscallAt, decide_eq_true_eq] at hat
    apply h.move
    · exact .user
    · rw [hc, hat]
      rfl
  | testCs => cases hat
  | jz target => cases hat
  | iretq => cases hat

/-- Kernel threads change nothing but the flag and the scheduler's counter. -/
theorem Coherent.kernel {f z : Bool} {n : BitVec 8} (h : m.Coherent) (hc : m.context = a :: below)
    (hp : a.point = .kernel) :
    Coherent { m with context := ⟨.kernel, f, z⟩ :: below, disableCounter := n } := by
  obtain ⟨point, f', z'⟩ := a
  have hp : point = .kernel := hp
  subst hp
  have hsound := h.sound
  rw [hc] at hsound
  cases hsound with
  | kernel =>
    apply h.move
    · exact .kernel
    · rw [hc]
      rfl

/-- An interrupt that is not in the window finds the base of the ring, and its stub goes by the
ring. -/
theorem Coherent.timer (h : m.Coherent) (hc : m.context = a :: below)
    (hflag : a.interruptFlag = true) (hwindow : m.context.inWindow = false) :
    Coherent { m with context := ⟨.stub 0, gateType ≠ 0xE, false⟩ :: a :: below } := by
  have hsound := h.sound
  rw [hc] at hsound hwindow
  have hsettled := hsound.settled hflag hwindow
  apply h.move
  · exact .stub hsound hsettled (fun _ => rfl) (by omega) (by omega)
  · rw [hc]
    exact hsettled.symm

theorem Booted.coherent (h : m.Booted) : m.Coherent := by
  obtain ⟨hinit, ⟨f, z, hc⟩, hfresh⟩ := h
  have hgs : m.gs = .bspCpu := congrArg Machine.gs hinit
  have hkernel : m.kernelGs = .user := congrArg Machine.kernelGs hinit
  constructor
  · rw [hc]
    exact .kernel
  · rw [hc]
    exact hgs
  · rw [hgs]
    exact hkernel
  · intro t
    obtain ⟨isUser, ht⟩ := hfresh t
    rw [ht]
    cases isUser with
    | true => exact ⟨.user, rfl⟩
    | false => exact ⟨.kernel, rfl⟩

/-- The bases are right: handlers are on the kernel's, ring 3 is on its own. -/
structure Parity (m : Machine T) : Prop where
  handler : m.context.isHandler = true → m.gs = .bspCpu
  user : m.context.isUser = true → m.gs = .user ∧ m.kernelGs = .bspCpu

theorem Coherent.parity (h : m.Coherent) : m.Parity := by
  constructor
  · intro hin
    rw [h.gs]
    unfold isHandler at hin
    split at hin
    next hc => rw [hc]; rfl
    next hc => rw [hc]; rfl
    next => cases hin
  · intro hin
    have hgs : m.gs = .user := by
      rw [h.gs]
      unfold isUser at hin
      split at hin
      next hc => rw [hc]; rfl
      next => cases hin
    constructor
    · exact hgs
    · rw [h.kernelGs, hgs]
      rfl

variable [DecidableEq T]

/-- A statement of the timer's handler: whatever frame it leaves can be resumed. -/
theorem Coherent.handler {f z : Bool} {st : Stmt} (h : m.Coherent)
    (hc : m.context = ⟨.handler pc, f, z⟩ :: below)
    (hs : m.stmt pc ⟨.handler pc, f, z⟩ below st = some m') : m'.Coherent := by
  have hsound := h.sound
  rw [hc] at hsound
  cases hsound with
  | handler hframe hsettled =>
  have hexp : m.context.expected = .bspCpu := by
    rw [hc]
    rfl
  cases st with
  | work =>
    cases hs
    exact h.move (.handler hframe hsettled) hexp.symm
  | needThread otherwise =>
    cases hs
    exact h.move (.handler hframe hsettled) hexp.symm
  | lock =>
    cases hs
    exact h.move (.handler hframe hsettled) hexp.symm
  | unlock =>
    cases hs
    exact h.move (.handler hframe hsettled) hexp.symm
  | schedule =>
    cases hs
    exact h.move (.handler hframe hsettled) hexp.symm
  | save =>
    obtain ⟨t, -, rfl⟩ := Option.map_eq_some_iff.mp hs
    refine ⟨.handler hframe hsettled, h.gs.trans hexp, h.kernelGs, ?_⟩
    intro t'
    show Sound (Function.update m.registers t below t') ∧
      Settled (Function.update m.registers t below t')
    by_cases ht : t' = t
    · rw [ht, Function.update_self]
      exact ⟨hframe, hsettled⟩
    · rw [Function.update_of_ne ht]
      exact h.saved t'
  | load =>
    obtain ⟨t, -, rfl⟩ := Option.map_eq_some_iff.mp hs
    obtain ⟨hloaded, hresumable⟩ := h.saved t
    exact h.move (.handler hloaded hresumable) hexp.symm
  | ret =>
    cases hs
    exact h.move (.stub hframe hsettled (by omega) (by omega) (by omega)) hexp.symm

theorem Coherent.exec (h : m.Coherent) (hc : m.context = a :: below)
    (hs : m.exec a below = some m') : m'.Coherent := by
  obtain ⟨point, f, z⟩ := a
  cases point with
  | user =>
    cases hs
    exact h
  | kernel =>
    cases hs
    exact h
  | stub pc =>
    obtain ⟨i, hi, rfl⟩ := Option.map_eq_some_iff.mp hs
    exact h.stub hc hi
  | handler pc =>
    obtain ⟨st, -, hst⟩ := Option.bind_eq_some_iff.mp hs
    exact h.handler hc hst
  | syscall pc =>
    obtain ⟨i, hi, rfl⟩ := Option.map_eq_some_iff.mp hs
    exact h.syscall hc hi
  | doSyscall64 =>
    cases hs
    have hsound := h.sound
    rw [hc] at hsound
    cases hsound with
    | doSyscall64 =>
      apply h.move
      · exact .syscall
      · rw [hc]
        rfl

/-- **A step keeps the bases right**, unless it is an interrupt in the window. -/
theorem coherent_step {action : Action T} (h : m.Coherent)
    (hwindow : action = .timer → m.context.inWindow = false) (hs : m.step action = some m') :
    m'.Coherent := by
  unfold step at hs
  cases hc : m.context with
  | nil =>
    rw [hc] at hs
    cases hs
  | cons a below =>
    rw [hc] at hs
    have hs : m.act a below action = some m' := hs
    cases action with
    | timer =>
      obtain ⟨hflag, hs⟩ := Option.ite_none_right_eq_some.mp hs
      cases hs
      exact h.timer hc hflag (hwindow rfl)
    | exec => exact h.exec hc hs
    | syscall =>
      obtain ⟨hp, hs⟩ := Option.ite_none_right_eq_some.mp hs
      cases hs
      obtain ⟨point, f, z⟩ := a
      have hp : point = .user := hp
      subst hp
      have hsound := h.sound
      rw [hc] at hsound
      -- `SFMASK` has the bit of the interrupt flag
      have hmask : (f && !sfmask.getLsbD ifBit) = false := Bool.and_false f
      cases hsound with
      | user =>
        apply h.move
        · show Sound [⟨.syscall 0, f && !sfmask.getLsbD ifBit, false⟩, ⟨.user, f, z⟩]
          rw [hmask]
          exact .syscall
        · rw [hc]
          rfl
    | cli =>
      obtain ⟨hp, hs⟩ := Option.ite_none_right_eq_some.mp hs
      cases hs
      exact h.kernel hc hp
    | sti =>
      obtain ⟨hp, hs⟩ := Option.ite_none_right_eq_some.mp hs
      cases hs
      exact h.kernel hc hp
    | lock =>
      obtain ⟨hp, hs⟩ := Option.ite_none_right_eq_some.mp hs
      cases hs
      exact h.kernel hc hp
    | unlock =>
      obtain ⟨hp, hs⟩ := Option.ite_none_right_eq_some.mp hs
      cases hs
      exact h.kernel hc hp
    | switchTo t =>
      obtain ⟨-, hs⟩ := Option.ite_none_right_eq_some.mp hs
      cases hs
      exact h.move h.sound rfl

/-! ## Runs -/

private theorem exec_stub {f z : Bool} {c : Context} {i : Instr} (hi : Entry.stub[pc]? = some i) :
    step { m with context := ⟨.stub pc, f, z⟩ :: c } .exec =
      some (instr .stub (.handler 0) pc ⟨.stub pc, f, z⟩ c
        { m with context := ⟨.stub pc, f, z⟩ :: c } i) := by
  show Entry.stub[pc]?.map _ = _
  rw [hi]
  rfl

private theorem exec_plain {f z : Bool} {c : Context} (n : Nat)
    (hplain : ∀ k < n, Entry.stub[pc + k]? = some .plain) :
    (List.replicate n Action.exec).foldlM step { m with context := ⟨.stub pc, f, z⟩ :: c } =
      some { m with context := ⟨.stub (pc + n), f, z⟩ :: c } := by
  induction n generalizing pc with
  | zero => rfl
  | succ n ih =>
    have hhead : Entry.stub[pc]? = some .plain := hplain 0 (Nat.succ_pos n)
    rw [List.replicate_succ, List.foldlM_cons, exec_stub hhead]
    have hrest : ∀ k < n, Entry.stub[pc + 1 + k]? = some .plain := by
      intro k hk
      rw [Nat.add_assoc, Nat.add_comm 1 k]
      exact hplain (k + 1) (Nat.succ_lt_succ hk)
    rw [← Nat.succ_add_eq_add_succ]
    exact ih hrest

/-- The stub of an interrupt in ring 0 gets to the handler on the base it finds. -/
theorem exec_prologue {f z : Bool} {c : Context} (hring : c.isUser = false) :
    (List.replicate 26 Action.exec).foldlM step { m with context := ⟨.stub 0, f, z⟩ :: c } =
      some { m with context := ⟨.handler 0, f, true⟩ :: c } := by
  have hzero : decide (c.cs &&& 3 = 0) = true := by rw [cs_and_three, hring, Bool.not_false]
  have hpush : step { m with context := ⟨.stub 0, f, z⟩ :: c } .exec =
      some { m with context := ⟨.stub 1, f, z⟩ :: c } := rfl
  have htest : step { m with context := ⟨.stub 1, f, z⟩ :: c } .exec =
      some { m with context := ⟨.stub 2, f, true⟩ :: c } := by
    rw [exec_stub (i := .testCs) rfl]
    simp only [instr, goto, hzero]
  have hjump : step { m with context := ⟨.stub 2, f, true⟩ :: c } .exec =
      some { m with context := ⟨.stub 4, f, true⟩ :: c } := rfl
  have hcall : step { m with context := ⟨.stub 26, f, true⟩ :: c } .exec =
      some { m with context := ⟨.handler 0, f, true⟩ :: c } := rfl
  have hplain : (List.replicate 22 Action.exec).foldlM step
      { m with context := ⟨.stub 4, f, true⟩ :: c } =
        some { m with context := ⟨.stub 26, f, true⟩ :: c } := exec_plain 22 (by decide)
  have hparts : List.replicate 26 (Action.exec (T := T)) =
      .exec :: .exec :: .exec :: (List.replicate 22 .exec ++ [.exec]) := rfl
  rw [hparts, List.foldlM_cons, hpush, Option.bind_eq_bind, Option.bind_some, List.foldlM_cons,
    htest, Option.bind_eq_bind, Option.bind_some, List.foldlM_cons, hjump, Option.bind_eq_bind,
    Option.bind_some, List.foldlM_append, hplain, Option.bind_eq_bind, Option.bind_some,
    List.foldlM_cons, hcall]
  rfl

/-- The stub of an interrupt in the window gets to the handler, on the base of ring 3. -/
theorem Coherent.window {m₁ : Machine T} (h : m.Coherent) (hin : m.context.inWindow = true)
    (hs : m.step .timer = some m₁) :
    ∃ m₂, (List.replicate 26 Action.exec).foldlM step m₁ = some m₂ ∧ ¬ m₂.Parity := by
  obtain ⟨pc, f, z, below, hc, hpc, huser⟩ := inWindow_cases hin
  have hgs : m.gs = .user := by
    rw [h.gs, hc]
    show (if pc ≤ 3 ∨ 46 < pc then base below else GsBase.bspCpu) = GsBase.user
    rw [if_pos (.inr hpc), base, huser]
    rfl
  unfold step at hs
  rw [hc] at hs
  obtain ⟨-, hs⟩ := Option.ite_none_right_eq_some.mp hs
  cases hs
  refine ⟨_, exec_prologue rfl, ?_⟩
  intro hparity
  cases hgs.symm.trans (hparity.handler rfl)

/-- **`swapgs` parity.** In every run in which no timer interrupt arrives between the last `swapgs` of
the interrupt stub and its `iretq`, on the way to ring 3, handlers are on the base of `bsp_cpu`, and
ring 3 is on its own with the kernel's in `MSR_KERNEL_GS`. And an interrupt there, in any state of
such a run, is handled on the base of ring 3. -/
theorem parity_of_run (h : ((runs T).restrict fun m action =>
      action = .timer → m.context.inWindow = false).Reachable m) :
    m.Parity ∧ (m.context.inWindow = true → ∀ m₁, m.step .timer = some m₁ →
      ∃ m₂, (List.replicate 26 Action.exec).foldlM step m₁ = some m₂ ∧ ¬ m₂.Parity) := by
  have hcoherent : m.Coherent := by
    apply h.invariant
    · intro m hboot
      exact hboot.coherent
    · intro m action m' hm hstep
      exact coherent_step hm hstep.2 hstep.1
  constructor
  · exact hcoherent.parity
  · intro hin m₁ hs
    exact hcoherent.window hin hs

/-! ## A run through the window -/

/-- Three threads: the kernel's, which is executing, and two of ring 3. -/
def threeThreads : Machine (Fin 3) where
  gs := .bspCpu
  kernelGs := .user
  context := freshFrame false
  disableCounter := 0
  currThread := some 0
  registers t := freshFrame (t ≠ 0)

private theorem threeThreads_booted : threeThreads.Booted :=
  ⟨rfl, ⟨_, _, rfl⟩, fun _ => ⟨_, rfl⟩⟩

/-- A timer interrupt that switches to `t`, up to the last `swapgs` of its stub. -/
def switchRun (t : Fin 3) : List (Action (Fin 3)) :=
  .timer :: List.replicate 30 .exec ++ .switchTo t :: List.replicate 25 .exec

/-- A step that is not an interrupt in the window. -/
def sparedStep (m : Machine T) (action : Action T) : Option (Machine T) :=
  if action = .timer ∧ m.context.inWindow = true then none else m.step action

private theorem sparedStep_eq_some {action : Action T} (h : m.sparedStep action = some m') :
    ((runs T).restrict fun m action => action = .timer → m.context.inWindow = false).step
      m action m' := by
  unfold sparedStep at h
  split at h
  next => cases h
  next hnot =>
    constructor
    · exact h
    · intro htimer
      exact Bool.eq_false_iff.mpr fun hin => hnot ⟨htimer, hin⟩

/-- Two steps from there ring 3 is executing. -/
theorem parity_of_run_switch : ∃ m : Machine (Fin 3), m.context.isUser = true ∧
    m.gs = .user ∧ m.kernelGs = .bspCpu := by
  have hrun : Option.any (fun m => m.context.isUser)
      ((switchRun 1 ++ [Action.exec, .exec]).foldlM sparedStep threeThreads) = true := by
    decide +kernel
  obtain ⟨m, hm, huser⟩ := (Option.any_eq_true _ _).mp hrun
  have hreach := System.Reachable.foldlM (fun _ _ _ => sparedStep_eq_some) _
    (.init threeThreads_booted) hm
  exact ⟨m, huser, (parity_of_run hreach).1.user huser⟩

/-- **The bases go wrong.** A timer interrupt switches to the first thread of ring 3, and after the
last `swapgs` of its stub another arrives: its handler is on the base of ring 3. If that one switches
to the second thread, ring 3 executes on the base of `bsp_cpu`. -/
theorem swapgs_window_breaks :
    (∃ m, (runs (Fin 3)).Reachable m ∧ m.context.isHandler = true ∧ m.gs = .user) ∧
    ∃ m, (runs (Fin 3)).Reachable m ∧ m.context.isUser = true ∧ m.gs = .bspCpu := by
  have hreach : ∀ {l : List (Action (Fin 3))} {m : Machine (Fin 3)},
      l.foldlM step threeThreads = some m → (runs (Fin 3)).Reachable m := fun hm =>
    System.Reachable.foldlM (fun _ _ _ hs => hs) _ (.init threeThreads_booted) hm
  have hhandler : Option.any (fun m => m.context.isHandler && decide (m.gs = .user))
      ((switchRun 1 ++ Action.timer :: List.replicate 26 .exec).foldlM step threeThreads) =
        true := by decide +kernel
  have huser : Option.any (fun m => m.context.isUser && decide (m.gs = .bspCpu))
      ((switchRun 1 ++ switchRun 2 ++ [Action.exec, .exec]).foldlM step threeThreads) = true := by
    decide +kernel
  obtain ⟨m, hm, hin⟩ := (Option.any_eq_true _ _).mp hhandler
  obtain ⟨m', hm', hin'⟩ := (Option.any_eq_true _ _).mp huser
  rw [Bool.and_eq_true] at hin hin'
  exact ⟨⟨m, hreach hm, hin.1, of_decide_eq_true hin.2⟩,
    ⟨m', hreach hm', hin'.1, of_decide_eq_true hin'.2⟩⟩

end Machine

end Entry

end TwoKernel
