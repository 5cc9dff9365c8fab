import TwoKernel.Laws.Arch.Frames
import TwoKernel.Lib.ByteFields

/-!
# The memory an interrupt uses

`stub_exact` says what an interrupt does to the registers. Here is what it does to the memory: the
frame, the words for a backtrace and the return address take at most 215 bytes below the stack
pointer the processor begins with, and nothing else changes (`atHandler_pushed`). The handler
gets a stack that is aligned as the calling convention asks.

`Pushed a b s t` is the invariant of the way down: from `s` to `t` the stack pointer has come from
`a` to `b`, and the memory outside of these addresses is what it was.
-/

namespace TwoKernel

namespace Asm

open ByteMem WordStack Cpu

variable {a b : Nat} {s t : Cpu} {v ret code : Word} {vector : BitVec 8}

/-- The stack has come down from `a` to `b`, and only the memory between has changed. -/
structure Pushed (a b : Nat) (s t : Cpu) : Prop where
  rsp : (t.reg .rsp).toNat = b
  le : b ≤ a
  mem : Set.EqOn t.mem s.mem (Set.Ico b a)ᶜ

/-- Align down to 16 bytes. -/
theorem toNat_and_not_fifteen (w : Word) : (w &&& ~~~15).toNat = w.toNat / 16 * 16 :=
  Vmm.alignDown_toNat_of_two_pow (v := w) (p := 16) (k := 4) rfl

namespace Pushed

/-- Instructions that change neither. -/
theorem congr {t' : Cpu} (h : Pushed a b s t) (hrsp : t'.reg .rsp = t.reg .rsp) (hmem : t'.mem = t.mem) :
    Pushed a b s t' where
  rsp := by rw [hrsp, h.rsp]
  le := h.le
  mem := by
    rw [hmem]
    exact h.mem

theorem segments {cs ss rflags : Word} (h : Pushed a b s t) :
    Pushed a b s { t with cs := cs, ss := ss, rflags := rflags } := h.congr rfl rfl

theorem align {t' : Cpu} (h : Pushed a b s t) (hrsp : t'.reg .rsp = t.reg .rsp &&& ~~~15)
    (hmem : t'.mem = t.mem) : Pushed a (b / 16 * 16) s t' where
  rsp := by rw [hrsp, toNat_and_not_fifteen, h.rsp]
  le := (Nat.div_mul_le_self b 16).trans h.le
  mem := by
    rw [hmem]
    refine h.mem.mono (Set.compl_subset_compl.mpr ?_)
    exact Set.Ico_subset_Ico_left (Nat.div_mul_le_self b 16)

theorem push (h : Pushed a b s t) (hroom : 8 ≤ b) : Pushed a (b - 8) s (t.push v) := by
  have hrsp : (t.reg .rsp - 8).toNat = b - 8 := by
    rw [BitVec.toNat_sub_of_le (x := t.reg .rsp) (y := 8) (by
      show 8 ≤ (t.reg .rsp).toNat
      rw [h.rsp]
      exact hroom), h.rsp]
    rfl
  have hle := h.le
  refine ⟨by rw [push_rsp, hrsp], by omega, ?_⟩
  rw [push_mem, hrsp]
  refine (store64_eqOn ?_).trans (h.mem.mono ?_)
  · rw [Set.disjoint_left]
    rintro x hx ⟨hlo, hhi⟩
    exact hx ⟨hlo, by omega⟩
  · exact Set.compl_subset_compl.mpr (Set.Ico_subset_Ico_left (by omega))

private theorem pushAll (vs : List Word) (h : Pushed a b s t) (hroom : 8 * vs.length ≤ b) :
    Pushed a (b - 8 * vs.length) s (t.pushAll vs) := by
  induction vs generalizing t b with
  | nil => exact h
  | cons x vs ih =>
    rw [List.length_cons] at hroom ⊢
    have hrest := ih (h.push (v := x) (by omega)) (by omega)
    rwa [Nat.sub_sub, show 8 + 8 * vs.length = 8 * (vs.length + 1) by omega] at hrest

theorem pushes (rs : List Reg) (h : Pushed a b s t) (hrs : .rsp ∉ rs) (hroom : 8 * rs.length ≤ b) :
    Pushed a (b - 8 * rs.length) s (t.pushes rs) := by
  have hall := h.pushAll (rs.map t.reg) (by rwa [List.length_map])
  rw [List.length_map] at hall
  rwa [pushes_eq hrs]

end Pushed

/-- The stack that an interrupt begins with. -/
def Cpu.interruptStack (s : Cpu) : Word := if s.cs &&& 3 = 0 then s.reg .rsp else s.tssRsp0

/-- The six words up to the error code, whoever has pushed it. -/
theorem framed_pushed (hroom : 64 ≤ s.interruptStack.toNat) :
    Pushed s.interruptStack.toNat (s.interruptStack.toNat / 16 * 16 - 48) s (s.framed vector code) := by
  have hdown : 48 ≤ s.interruptStack.toNat / 16 * 16 := by omega
  have hset : Pushed s.interruptStack.toNat (s.interruptStack.toNat / 16 * 16) s
      (s.set .rsp (s.interruptStack &&& ~~~15)) := by
    refine ⟨?_, Nat.div_mul_le_self _ _, fun x _ => rfl⟩
    rw [set_self, toNat_and_not_fifteen]
  unfold framed deliver
  by_cases hv : vector ∈ errorVectors
  · simp only [if_pos hv, List.cons_append, List.nil_append]
    exact (hset.pushAll [s.ss, s.reg .rsp, s.rflags, s.cs, s.rip, code] hdown).segments
  · simp only [if_neg hv]
    have hfive := hset.pushAll [s.ss, s.reg .rsp, s.rflags, s.cs, s.rip] (by
      show 40 ≤ _
      omega)
    exact Nat.sub_sub _ 40 8 ▸ hfive.segments.push (by
      show 8 ≤ _ - 40
      omega)

/-- Where the registers are saved. -/
def Cpu.savedAll (vector : BitVec 8) (code : Word) (s : Cpu) : Cpu :=
  (((s.framed vector code).swapgsAt 16).exec .cld).pushes irqSaved

private theorem savedAll_pushed (hroom : 256 ≤ s.interruptStack.toNat) :
    Pushed s.interruptStack.toNat (s.interruptStack.toNat / 16 * 16 - 168) s (s.savedAll vector code) := by
  have hframed : Pushed _ _ s (((s.framed vector code).swapgsAt 16).exec .cld) :=
    (framed_pushed (by omega)).congr (congrFun swapgsAt_reg _) swapgsAt_mem
  exact Nat.sub_sub _ 48 120 ▸ hframed.pushes irqSaved (by decide) (by
    show 120 ≤ _
    omega)

/-- **The way to the handler** takes the frame, and 32 bytes below it. -/
theorem atHandler_pushed (hroom : 256 ≤ s.interruptStack.toNat) :
    Pushed s.interruptStack.toNat (s.interruptStack.toNat / 16 * 16 - 200) s
      ((s.savedAll vector code).atHandler ret vector) := by
  have hsaved : Pushed _ _ s (s.savedAll vector code) := savedAll_pushed hroom
  generalize s.savedAll vector code = t at hsaved ⊢
  have hframe : Pushed _ _ s (t.exec (.mov .rsp .rdi)) := hsaved.congr (set_of_ne (by decide)) rfl
  have htrace : Pushed _ _ s (((t.exec (.mov .rsp .rdi)).exec (.pushAt (16 * 8))).exec (.push .rbp)) :=
    (hframe.push (by omega)).push (by omega)
  unfold atHandler
  simp only [List.foldl_cons, List.foldl_nil]
  generalize ((t.exec (.mov .rsp .rdi)).exec (.pushAt (16 * 8))).exec (.push .rbp) = u at htrace ⊢
  have hbase : Pushed _ _ s (u.exec (.mov .rsp .rbp)) := htrace.congr (set_of_ne (by decide)) rfl
  have hargs : Pushed _ _ s ((u.exec (.mov .rsp .rbp)).exec (.movImm (vector.setWidth 32) .rsi)) :=
    hbase.congr (set_of_ne (by decide)) rfl
  generalize (u.exec (.mov .rsp .rbp)).exec (.movImm (vector.setWidth 32) .rsi) = w at hargs ⊢
  have hrsp : (w.exec (.and (~~~15) .rsp)).reg .rsp = w.reg .rsp &&& ~~~15 := by
    simp only [exec, setZf_reg, set_self]
  have hend : (s.interruptStack.toNat / 16 * 16 - 168 - 8 - 8) / 16 * 16 - 8 =
      s.interruptStack.toNat / 16 * 16 - 200 := by omega
  exact hend ▸ (hargs.align hrsp rfl).push (by omega)

/-- Where the frame is. -/
theorem atHandler_frame (hroom : 256 ≤ s.interruptStack.toNat) :
    (((s.savedAll vector code).atHandler ret vector).reg .rdi).toNat =
      s.interruptStack.toNat / 16 * 16 - 168 := by
  rw [atHandler_rdi, (savedAll_pushed hroom).rsp]

/-! ## What the handler finds and leaves -/

theorem atHandler_finds : IrqFrame.at_ ((s.savedAll vector code).atHandler ret vector).mem
    (((s.savedAll vector code).atHandler ret vector).reg .rdi) =
      s.irqFrame (if vector ∈ errorVectors then code else 0) := by
  have hframed : Saved s.reg _ (((s.framed vector code).swapgsAt 16).exec .cld) :=
    framed_saved.congr swapgsAt_reg swapgsAt_mem
  have hsaved : Saved s.reg (s.irqFrame (if vector ∈ errorVectors then code else 0)).words
      (s.savedAll vector code) := hframed.pushes irqSaved (by decide) (by simp [irqSaved])
  rw [atHandler_rdi]
  exact IrqFrame.at_of_wordsAt (atHandler_words hsaved.words (by simp [IrqFrame.words]))

/-- The processor goes on with the frame. -/
theorem unwind_resumes {r : Cpu} (h : Preserves ((s.savedAll vector code).atHandler ret vector) r)
    {f : IrqFrame} (hf : IrqFrame.at_ r.mem
      (((s.savedAll vector code).atHandler ret vector).reg .rdi) = f) :
    r.unwind.iretq.irqFrame f.error = f := by
  have hframe : r.reg .rbp + 16 = ((s.savedAll vector code).atHandler ret vector).reg .rdi := by
    rw [h.saved .rbp (by decide), atHandler_rbp, atHandler_rdi]
    bv_omega
  rw [← hf, ← hframe]
  exact unwind_iretq

private theorem pops_tssRsp0 (rs : List Reg) : (s.pops rs).tssRsp0 = s.tssRsp0 := by
  induction rs generalizing s with
  | nil => rfl
  | cons r rs ih => exact ih

private theorem swapgsAt_tssRsp0 {offset : Word} : (s.swapgsAt offset).tssRsp0 = s.tssRsp0 := by
  unfold swapgsAt
  split <;> rfl

theorem unwind_tssRsp0 : s.unwind.iretq.tssRsp0 = s.tssRsp0 := by
  show ((s.atFrame.pops irqRestored).swapgsAt 16).tssRsp0 = _
  rw [swapgsAt_tssRsp0, pops_tssRsp0]
  rfl

/-- The words of a list, as a stack. -/
theorem wordsAt_storeWords {m : Mem} {a : Word} {l : List Word} (h : a.toNat + 8 * l.length ≤ 2 ^ 64) :
    WordsAt (storeWords m a.toNat l) a l := by
  induction l generalizing m a with
  | nil => trivial
  | cons v l ih =>
    rw [List.length_cons] at h
    refine ⟨load64_storeWords (i := 0) rfl, ?_⟩
    by_cases hl : l = []
    · rw [hl]
      trivial
    · have hpos := List.length_pos_of_ne_nil hl
      have hup : (a + 8).toNat = a.toNat + 8 := by
        rw [BitVec.toNat_add]
        exact Nat.mod_eq_of_lt (by show a.toNat + 8 < _; omega)
      have hrest := ih (m := store64 m a.toNat v) (a := a + 8) (by omega)
      rwa [hup] at hrest

end Asm

end TwoKernel
