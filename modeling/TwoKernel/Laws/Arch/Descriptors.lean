import Mathlib.Tactic.IntervalCases
import TwoKernel.Arch.Descriptors

/-!
# The tables lead where the model goes

**The laws.**

* `boot_tables`: from any state in ring 0, `init_gdt_entries`, `refresh`, `idt_init` and
  `idtr_asm_load` return, with the segment registers on the kernel's descriptors, the task register
  on `tss` and the tables in memory (`Booted`).
* `deliver_through_tables`: as long as the tables are there, an interrupt or exception at any vector and
  from any ring does not fault, and is `Asm.Cpu.deliver` with the stub of its vector.
* `selectors_accepted`: over every run of interrupts, returns, system calls, switches and new
  threads, no selector is refused.

The frames that are pushed on the way are the ones of `Asm`; that the memory under the stack is there
is not looked at.
-/

namespace TwoKernel

open ByteMem X86

variable {l : Layout} {m m' : Mem} {irqStubs : Byte → Word} {a : Nat} {v : Byte}

/-! ## Descriptors -/

private theorem word_of_fields (w : Word) :
    (w >>> 32).setWidth 32 ++ (w >>> 16).setWidth 16 ++ w.setWidth 16 = w := by
  apply BitVec.eq_of_getLsbD_eq
  intro i hi
  simp only [BitVec.getLsbD_append, BitVec.getLsbD_setWidth, BitVec.getLsbD_ushiftRight]
  grind

/-- The descriptor of a task state segment says where it is, wherever that is. -/
theorem tssDescriptor_base (base : Word) :
    (TaskState.ofWords (Gdt.tssDescriptor base).1 (Gdt.tssDescriptor base).2).base = base := by
  have hlow : (base &&& 0xFFFF).setWidth 16 = base.setWidth 16 := by
    rw [BitVec.setWidth_and]
    exact BitVec.and_allOnes
  unfold TaskState.ofWords Gdt.tssDescriptor
  dsimp only
  rw [hlow]
  apply BitVec.eq_of_getLsbD_eq
  intro i hi
  simp only [BitVec.getLsbD_append, BitVec.getLsbD_setWidth, BitVec.getLsbD_ushiftRight,
    BitVec.getLsbD_extractLsb']
  grind

/-- The bits of the first word that do not depend on the base. -/
theorem getLsbD_tssDescriptor (base : Word) {i : Nat} (h : i < 16 ∨ 40 ≤ i ∧ i < 56) :
    (Gdt.tssDescriptor base).1.getLsbD i = (0x0000890000000067 : Word).getLsbD i := by
  unfold Gdt.tssDescriptor
  simp only [BitVec.getLsbD_append]
  rcases h with h | ⟨hlo, hhi⟩
  · rw [if_pos h]
    interval_cases i <;> rfl
  · rw [if_neg (by omega), if_neg (by omega), if_neg (by omega)]
    interval_cases i <;> rfl

private theorem tssDescriptor_ofWords (base : Word) :
    TaskState.ofWords (Gdt.tssDescriptor base).1 (Gdt.tssDescriptor base).2 =
      ⟨base, 103, 9, false, true⟩ := by
  have hlimit : (Gdt.tssDescriptor base).1.extractLsb' 48 4 ++
      (Gdt.tssDescriptor base).1.extractLsb' 0 16 = (103 : BitVec 20) := by
    apply BitVec.eq_of_getLsbD_eq
    intro i hi
    simp only [BitVec.getLsbD_append, BitVec.getLsbD_extractLsb']
    split_ifs with h
    · rw [getLsbD_tssDescriptor base (by omega)]
      interval_cases i <;> rfl
    · rw [getLsbD_tssDescriptor base (by omega)]
      interval_cases i <;> rfl
  have htype : (Gdt.tssDescriptor base).1.extractLsb' 40 4 = (9 : BitVec 4) := by
    apply BitVec.eq_of_getLsbD_eq
    intro i hi
    rw [BitVec.getLsbD_extractLsb', getLsbD_tssDescriptor base (by omega)]
    interval_cases i <;> rfl
  have hbase : (Gdt.tssDescriptor base).2.setWidth 32 ++ (Gdt.tssDescriptor base).1.extractLsb' 56 8 ++
      (Gdt.tssDescriptor base).1.extractLsb' 16 24 = base := tssDescriptor_base base
  unfold TaskState.ofWords
  rw [hlimit, htype, getLsbD_tssDescriptor base (by omega), getLsbD_tssDescriptor base (by omega),
    hbase]
  rfl

/-! ## Gates -/

/-- The gate of a handler in ring 0, of one of the two types. -/
def gate (handler : Word) (trap : Bool) : Gate :=
  ⟨handler, 0x08, 0, if trap then 0xF else 0xE, false, 0, true⟩

/-- The type of a gate, as `set_idt_entries` takes it. -/
def gateType (trap : Bool) : Byte := if trap then 0xF else 0xE

/-- **What `set_idt_entries` writes is what the processor reads.** -/
theorem read_setEntry (handler : Word) (trap : Bool) :
    Gate.read (Idt.setEntry a handler 0 0 (gateType trap) m) a = gate handler trap := by
  have hflags : load16 (Idt.setEntry a handler 0 0 (gateType trap) m) (a + 4) =
      Idt.istFlags 0 0 (gateType trap) := load16_store16_self
  have hselector : load16 (Idt.setEntry a handler 0 0 (gateType trap) m) (a + 2) = 0x08 := by
    unfold Idt.setEntry
    rw [load16_store16_of_ne (by omega), load16_store16_self]
    rfl
  have hhigh : load32 (Idt.setEntry a handler 0 0 (gateType trap) m) (a + 8) =
      (handler >>> 32).setWidth 32 := by
    unfold Idt.setEntry
    rw [load32_store16_of_ne (by omega), load32_store16_of_ne (by omega), load32_store32_self]
  have hmid : load16 (Idt.setEntry a handler 0 0 (gateType trap) m) (a + 6) =
      (handler >>> 16).setWidth 16 := by
    unfold Idt.setEntry
    rw [load16_store16_of_ne (by omega), load16_store16_of_ne (by omega),
      load16_store32_of_ne (by omega), load16_store16_self]
  have hlow : load16 (Idt.setEntry a handler 0 0 (gateType trap) m) a = handler.setWidth 16 := by
    unfold Idt.setEntry
    rw [load16_store16_of_ne (by omega), load16_store16_of_ne (by omega),
      load16_store32_of_ne (by omega), load16_store16_of_ne (by omega), load16_store16_self]
  unfold Gate.read
  rw [hflags, hselector, hhigh, hmid, hlow, word_of_fields]
  cases trap <;> rfl

/-- An entry is sixteen bytes, and the last four are never written. -/
theorem setEntry_eqOn {handler : Word} {ist dpl type : Byte} {s : Set Nat}
    (h : Disjoint s (Set.Ico a (a + 16))) : Set.EqOn (Idt.setEntry a handler ist dpl type m) m s := by
  have hsub : ∀ k n, k + n ≤ 16 → Disjoint s (Set.Ico (a + k) (a + k + n)) := by
    intro k n hk
    exact h.mono_right (Set.Ico_subset_Ico (by omega) (by omega))
  have hzero : Disjoint s (Set.Ico a (a + 2)) := hsub 0 2 (by omega)
  intro y hy
  unfold Idt.setEntry
  exact (storeLE_eqOn (hsub 4 2 (by omega)) hy).trans ((storeLE_eqOn (hsub 2 2 (by omega)) hy).trans
    ((storeLE_eqOn (hsub 8 4 (by omega)) hy).trans ((storeLE_eqOn (hsub 6 2 (by omega)) hy).trans
      (storeLE_eqOn hzero hy))))

private theorem read_congr (h : Set.EqOn m' m (Set.Ico a (a + 16))) : Gate.read m' a = Gate.read m a := by
  have h16 : ∀ k, k + 2 ≤ 16 → load16 m' (a + k) = load16 m (a + k) := fun k hk =>
    load16_congr (h.mono (Set.Ico_subset_Ico (by omega) (by omega)))
  have h32 : load32 m' (a + 8) = load32 m (a + 8) :=
    load32_congr (h.mono (Set.Ico_subset_Ico (by omega) (by omega)))
  have h0 : load16 m' a = load16 m a := h16 0 (by omega)
  unfold Gate.read
  rw [h32, h0, h16 2 (by omega), h16 4 (by omega), h16 6 (by omega)]

/-- The entry of a vector. -/
def Layout.entry (l : Layout) (v : Byte) : Nat := l.idtTable.toNat + 16 * v.toNat

private theorem Layout.entry_disjoint {u : Byte} (h : u ≠ v) :
    Disjoint (Set.Ico (l.entry u) (l.entry u + 16)) (Set.Ico (l.entry v) (l.entry v + 16)) := by
  have hne : u.toNat ≠ v.toNat := fun heq => h (BitVec.eq_of_toNat_eq heq)
  unfold Layout.entry
  exact disjoint_Ico (by omega)

/-- Writing one entry, seen from all. -/
theorem read_setIdtEntries (u : Byte) (trap : Bool) :
    Gate.read (l.setIdtEntries v (irqStubs v) 0 0 (gateType trap) m) (l.entry u) =
      if u = v then gate (irqStubs v) trap else Gate.read m (l.entry u) := by
  split_ifs with h
  · rw [h]
    exact read_setEntry (irqStubs v) trap
  · exact read_congr (setEntry_eqOn (Layout.entry_disjoint h))

private theorem setIdtEntries_eqOn {handler : Word} {ist dpl type : Byte} {s : Set Nat}
    (h : Disjoint s (Set.Ico l.idtTable.toNat (l.idtTable.toNat + 4096))) :
    Set.EqOn (l.setIdtEntries v handler ist dpl type m) m s := by
  have hv := v.isLt
  exact setEntry_eqOn (h.mono_right (Set.Ico_subset_Ico (by omega) (by omega)))

/-! ## `idt_init` -/

/-- The bytes of the IDT. -/
def Layout.idt (l : Layout) : Set Nat := Set.Ico l.idtTable.toNat (l.idtTable.toNat + 4096)

private theorem eq_ofNat_iff {n : Nat} (hn : n < 256) : v = BitVec.ofNat 8 n ↔ v.toNat = n := by
  constructor
  · rintro rfl
    rw [BitVec.toNat_ofNat]
    omega
  · rintro rfl
    rw [BitVec.ofNat_toNat, BitVec.setWidth_eq]

/-- The first loop of `idt_init`, up to some vector. -/
def firstLoop (l : Layout) (irqStubs : Byte → Word) (n : Nat) (m : Mem) : Mem :=
  (List.range n).foldl
    (fun m i => l.setIdtEntries (BitVec.ofNat 8 i) (irqStubs (BitVec.ofNat 8 i)) 0 0 0xE m) m

private theorem firstLoop_succ {n : Nat} : firstLoop l irqStubs (n + 1) m =
    l.setIdtEntries (BitVec.ofNat 8 n) (irqStubs (BitVec.ofNat 8 n)) 0 0 0xE
      (firstLoop l irqStubs n m) := by
  unfold firstLoop
  rw [List.range_succ, List.foldl_append]
  rfl

private theorem read_firstLoop {n : Nat} (hn : n ≤ 256) (u : Byte) :
    Gate.read (firstLoop l irqStubs n m) (l.entry u) =
      if u.toNat < n then gate (irqStubs u) false else Gate.read m (l.entry u) := by
  induction n with
  | zero => rfl
  | succ n ih =>
    rw [firstLoop_succ]
    refine (read_setIdtEntries u false).trans ?_
    rw [ih (by omega)]
    by_cases hu : u.toNat = n
    · rw [if_pos ((eq_ofNat_iff (by omega)).mpr hu), if_pos (by omega),
        ← (eq_ofNat_iff (by omega)).mpr hu]
    · rw [if_neg (fun h => hu ((eq_ofNat_iff (by omega)).mp h))]
      by_cases hlt : u.toNat < n
      · rw [if_pos hlt, if_pos (by omega)]
      · rw [if_neg hlt, if_neg (by omega)]

private theorem firstLoop_eqOn (n : Nat) {s : Set Nat} (h : Disjoint s l.idt) :
    Set.EqOn (firstLoop l irqStubs n m) m s := by
  induction n with
  | zero => exact Set.eqOn_refl _ _
  | succ n ih =>
    rw [firstLoop_succ]
    exact (setIdtEntries_eqOn h).trans ih

/-- The second loop of `idt_init`, from the vector `k` on. -/
structure Installed (l : Layout) (irqStubs : Byte → Word) (k : Nat) (hanlders : List (Option Idt.Exception))
    (x y : Mem × IrqHandlers) : Prop where
  gates : ∀ u : Byte, Gate.read y.1 (l.entry u) =
    if k ≤ u.toNat ∧ u.toNat < k + hanlders.length then gate (irqStubs u) true
    else Gate.read x.1 (l.entry u)
  handlers : ∀ u : Byte, y.2 u =
    (if k ≤ u.toNat then hanlders[u.toNat - k]?.join else none).or (x.2 u)
  elsewhere : ∀ s, Disjoint s l.idt → Set.EqOn y.1 x.1 s

private theorem initException_ok (l : Layout) (irqStubs : Byte → Word) {k : Nat} (hk : k < 32)
    (h : Option Idt.Exception) (x : Mem × IrqHandlers) :
    ∃ y, l.initException irqStubs x (h, k) = .ok y ∧ Installed l irqStubs k [h] x y := by
  have hgates : ∀ u : Byte, Gate.read (l.setIdtEntries (BitVec.ofNat 8 k) (irqStubs (BitVec.ofNat 8 k)) 0 0
      0xF x.1) (l.entry u) = if k ≤ u.toNat ∧ u.toNat < k + [h].length then gate (irqStubs u) true
        else Gate.read x.1 (l.entry u) := by
    intro u
    refine (read_setIdtEntries u true).trans ?_
    rw [List.length_singleton]
    by_cases hu : u.toNat = k
    · rw [if_pos ((eq_ofNat_iff (by omega)).mpr hu), if_pos (by omega),
        ← (eq_ofNat_iff (by omega)).mpr hu]
    · rw [if_neg (fun h => hu ((eq_ofNat_iff (by omega)).mp h)), if_neg (by omega)]
  have helse : ∀ s, Disjoint s l.idt → Set.EqOn (l.setIdtEntries (BitVec.ofNat 8 k)
      (irqStubs (BitVec.ofNat 8 k)) 0 0 0xF x.1) x.1 s := fun s hs => setIdtEntries_eqOn hs
  unfold Layout.initException
  cases h with
  | none =>
    refine ⟨_, rfl, hgates, fun u => ?_, helse⟩
    have hnone : (if k ≤ u.toNat then ([none] : List (Option Idt.Exception))[u.toNat - k]?.join
        else none) = none := by
      split_ifs
      · cases u.toNat - k <;> rfl
      · rfl
    rw [hnone]
    rfl
  | some e =>
    have hsmall : ¬ (32 : Byte) ≤ BitVec.ofNat 8 k := by
      rw [BitVec.le_def, BitVec.toNat_ofNat]
      show ¬ 32 ≤ k % 2 ^ 8
      omega
    have hreg : registerExceptionHandler (BitVec.ofNat 8 k) (some e) x.2 =
        .ok (Function.update x.2 (BitVec.ofNat 8 k) (some e)) := if_neg hsmall
    simp only [hreg, Option.isSome_some, if_true, ok_bind, pure_eq_ok]
    refine ⟨_, rfl, hgates, fun u => ?_, helse⟩
    by_cases hu : u.toNat = k
    · have hku := (eq_ofNat_iff (by omega)).mpr hu
      dsimp only
      rw [hku, Function.update_self, ← hku, hu, if_pos (Nat.le_refl k), Nat.sub_self]
      rfl
    · dsimp only
      rw [Function.update_of_ne (fun h => hu ((eq_ofNat_iff (by omega)).mp h))]
      split_ifs with hle
      · have hpos : u.toNat - k = (u.toNat - k - 1) + 1 := by omega
        rw [hpos]
        rfl
      · rfl

private theorem installed_ok (l : Layout) (irqStubs : Byte → Word) {k : Nat}
    (hanlders : List (Option Idt.Exception)) (hk : k + hanlders.length ≤ 32) (x : Mem × IrqHandlers) :
    ∃ y, (hanlders.zipIdx k).foldlM (l.initException irqStubs) x = .ok y ∧
      Installed l irqStubs k hanlders x y := by
  induction hanlders generalizing k x with
  | nil =>
    refine ⟨x, rfl, fun u => ?_, fun u => ?_, fun s _ => Set.eqOn_refl _ _⟩
    · rw [List.length_nil, if_neg (by omega)]
    · split_ifs <;> rfl
  | cons h rest ih =>
    rw [List.length_cons] at hk
    obtain ⟨y, hy, hfirst⟩ := initException_ok l irqStubs (k := k) (by omega) h x
    obtain ⟨z, hz, hrest⟩ := ih (k := k + 1) (by omega) y
    refine ⟨z, ?_, fun u => ?_, fun u => ?_, fun s hs => (hrest.elsewhere s hs).trans
      (hfirst.elsewhere s hs)⟩
    · rw [List.zipIdx_cons, List.foldlM_cons, hy]
      exact hz
    · rw [hrest.gates u, hfirst.gates u, List.length_singleton, List.length_cons]
      split_ifs <;> first | rfl | omega
    · rw [hrest.handlers u, hfirst.handlers u]
      by_cases hu : k ≤ u.toNat
      · by_cases heq : u.toNat = k
        · rw [if_neg (by omega), if_pos hu, if_pos hu, heq, Nat.sub_self]
          rfl
        · have hpos : u.toNat - k = (u.toNat - (k + 1)) + 1 := by omega
          rw [if_pos (by omega), if_pos hu, if_pos hu, hpos]
          rfl
      · rw [if_neg (by omega), if_neg hu, if_neg hu]
        rfl

/-- **`idt_init` returns**, with trap gates for the exceptions, interrupt gates for the other vectors and
the handlers that there are. -/
theorem idtInit_ok (l : Layout) (irqStubs : Byte → Word) (m : Mem) :
    ∃ m', l.idtInit irqStubs (m, fun _ => none) =
        .ok (m', fun u => Idt.x86ExceptionHanlders[u.toNat]?.join) ∧
      (∀ u : Byte, Gate.read m' (l.entry u) = gate (irqStubs u) (u < 32)) ∧
      ∀ s, Disjoint s l.idt → Set.EqOn m' m s := by
  obtain ⟨⟨m', handlers⟩, hy, hin⟩ := installed_ok l irqStubs (k := 0)
    Idt.x86ExceptionHanlders (by decide) (firstLoop l irqStubs 256 m, fun _ => none)
  have hhandlers : handlers = fun u => Idt.x86ExceptionHanlders[u.toNat]?.join := by
    funext u
    have hu := hin.handlers u
    rw [if_pos (Nat.zero_le _), Nat.sub_zero, Option.or_none] at hu
    exact hu
  refine ⟨m', ?_, fun u => ?_, fun s hs => ?_⟩
  · rw [← hhandlers]
    exact hy
  · have hu := u.isLt
    have hlength : Idt.x86ExceptionHanlders.length = 32 := rfl
    have hfirst : Gate.read (firstLoop l irqStubs 256 m) (l.entry u) = gate (irqStubs u) false :=
      (read_firstLoop (Nat.le_refl 256) u).trans (if_pos hu)
    have hgates := hin.gates u
    dsimp only at hgates
    rw [hlength, hfirst] at hgates
    refine hgates.trans ?_
    by_cases hlt : u < 32
    · have hnat : u.toNat < 32 := hlt
      rw [if_pos (by omega), decide_eq_true hlt]
    · have hnat : ¬ u.toNat < 32 := hlt
      rw [if_neg (by omega), decide_eq_false hlt]
  · have hsecond := hin.elsewhere s hs
    dsimp only at hsecond
    exact hsecond.trans (firstLoop_eqOn 256 hs)

/-! ## Interrupts through the tables -/

/-- The segments are in memory. -/
structure GdtAt (l : Layout) (m : Mem) : Prop where
  kernelCode : load64 m (l.gdtEntries.toNat + 8) = Gdt.kernelCode <<< 32
  kernelData : load64 m (l.gdtEntries.toNat + 16) = Gdt.kernelData <<< 32
  userData : load64 m (l.gdtEntries.toNat + 24) = Gdt.userData <<< 32
  userCode : load64 m (l.gdtEntries.toNat + 32) = Gdt.userCode <<< 32

/-- The tables are in memory. -/
structure Booted (l : Layout) (irqStubs : Byte → Word) (m : Mem) : Prop extends GdtAt l m where
  gates : ∀ u : Byte, Gate.read m (l.entry u) = gate (irqStubs u) (u < 32)

/-- The register of the GDT is set. -/
structure OnGdt (l : Layout) (t : Tables) : Prop where
  base : t.gdtBase = l.gdtEntries
  limit : t.gdtLimit = 55

private theorem Layout.onGdt (l : Layout) : OnGdt l l.tables := ⟨rfl, rfl⟩

theorem OnGdt.segment {t : Tables} (h : OnGdt l t) {selector : BitVec 16}
    (hti : selector.getLsbD 2 = false) (hne : Tables.index selector ≠ 0)
    (hlimit : 8 * Tables.index selector + 7 ≤ 55) : t.segment m selector =
      some (.ofWord (load64 m (l.gdtEntries.toNat + 8 * Tables.index selector))) := by
  unfold Tables.segment
  rw [h.base, h.limit]
  exact if_pos ⟨hti, hne, hlimit⟩

namespace GdtAt

variable {t : Tables} (h : GdtAt l m) (ht : OnGdt l t)

include h

/-- The first five entries count. -/
theorem congr (hm : Set.EqOn m' m (Set.Ico l.gdtEntries.toNat (l.gdtEntries.toNat + 40))) :
    GdtAt l m' := by
  have hload : ∀ k, k + 8 ≤ 40 →
      load64 m' (l.gdtEntries.toNat + k) = load64 m (l.gdtEntries.toNat + k) := fun k hk =>
    load64_congr (hm.mono (Set.Ico_subset_Ico (by omega) (by omega)))
  exact ⟨(hload 8 (by omega)).trans h.kernelCode, (hload 16 (by omega)).trans h.kernelData,
    (hload 24 (by omega)).trans h.userData, (hload 32 (by omega)).trans h.userCode⟩

include ht

private theorem segment_kernelCode : t.segment m 0x08 = some ⟨0b1011, true, 0, true, true, false⟩ := by
  refine (ht.segment (by decide) (by decide) (by decide)).trans ?_
  show some (Segment.ofWord (load64 m (l.gdtEntries.toNat + 8))) = _
  rw [h.kernelCode]
  rfl

private theorem segment_kernelData : t.segment m 0x10 = some ⟨0b0011, true, 0, true, true, false⟩ := by
  refine (ht.segment (by decide) (by decide) (by decide)).trans ?_
  show some (Segment.ofWord (load64 m (l.gdtEntries.toNat + 16))) = _
  rw [h.kernelData]
  rfl

private theorem segment_userData : t.segment m 0x1B = some ⟨0b0011, true, 3, true, true, false⟩ := by
  refine (ht.segment (by decide) (by decide) (by decide)).trans ?_
  show some (Segment.ofWord (load64 m (l.gdtEntries.toNat + 24))) = _
  rw [h.userData]
  rfl

private theorem segment_userCode : t.segment m 0x23 = some ⟨0b1011, true, 3, true, true, false⟩ := by
  refine (ht.segment (by decide) (by decide) (by decide)).trans ?_
  show some (Segment.ofWord (load64 m (l.gdtEntries.toNat + 32))) = _
  rw [h.userCode]
  rfl

end GdtAt

/-- What the processor reads the GDT as: code and data of 64 bits for ring 0 and ring 3, and the task
state segment of `tss`, which is in use. -/
structure Segments (l : Layout) (t : Tables) (m : Mem) : Prop where
  kernelCode : t.segment m 0x08 = some ⟨0b1011, true, 0, true, true, false⟩
  kernelData : t.segment m 0x10 = some ⟨0b0011, true, 0, true, true, false⟩
  userData : t.segment m 0x1B = some ⟨0b0011, true, 3, true, true, false⟩
  userCode : t.segment m 0x23 = some ⟨0b1011, true, 3, true, true, false⟩
  taskState : TaskState.ofWords (load64 m (t.gdtBase.toNat + 8 * Tables.index 0x28))
    (load64 m (t.gdtBase.toNat + 8 * Tables.index 0x28 + 8)) = ⟨l.tss, 103, 0b1011, false, true⟩

theorem GdtAt.segments (h : GdtAt l m)
    (hlow : load64 m (l.gdtEntries.toNat + 40) = (Gdt.tssDescriptor l.tss).1 ||| TaskState.busy)
    (hhigh : load64 m (l.gdtEntries.toNat + 48) = (Gdt.tssDescriptor l.tss).2) :
    Segments l l.tables m := by
  refine ⟨h.segment_kernelCode l.onGdt, h.segment_kernelData l.onGdt, h.segment_userData l.onGdt,
    h.segment_userCode l.onGdt, ?_⟩
  show TaskState.ofWords (load64 m (l.gdtEntries.toNat + 40)) (load64 m (l.gdtEntries.toNat + 48)) = _
  have hbusy : (9 : BitVec 4) ||| 2 = 0b1011 := by decide
  rw [hlow, hhigh, TaskState.ofWords_busy, tssDescriptor_ofWords]
  dsimp only
  rw [hbusy]

namespace Booted

variable (h : Booted l irqStubs m)

include h

/-- **The way of an interrupt**, from any ring. -/
theorem enter (hcanonical : ∀ u, Canonical (irqStubs u)) (cpl : BitVec 2) (rsp : Word) :
    l.tables.enter m cpl rsp v = some
      { rip := irqStubs v
        cs := 0x08
        top := if 0 < cpl then load64 m (l.tss.toNat + 4) else rsp
        switched := 0 < cpl
        clearsIf := ¬ v < 32 } := by
  have hv := v.isLt
  have hlimit : 16 * v.toNat + 15 ≤ l.tables.idtLimit.toNat := by
    show 16 * v.toNat + 15 ≤ 4095
    omega
  have husable : (gate (irqStubs v) (v < 32)).usable = true := by
    unfold Gate.usable gate
    rw [decide_eq_true (hcanonical v)]
    cases decide (v < 32) <;> rfl
  have hgate : Gate.read m (l.tables.idtBase.toNat + 16 * v.toNat) = gate (irqStubs v) (v < 32) :=
    h.gates v
  have hcode : l.tables.segment m (gate (irqStubs v) (v < 32)).selector =
      some ⟨0b1011, true, 0, true, true, false⟩ := h.toGdtAt.segment_kernelCode l.onGdt
  have hring : (0 : BitVec 2) ≤ cpl := BitVec.le_def.mpr (Nat.zero_le _)
  have hstack : l.tables.stack m 0 0 (0 < cpl) rsp =
      some (if 0 < cpl then load64 m (l.tss.toNat + 4) else rsp) := by
    unfold Tables.stack
    rw [if_neg (by decide)]
    by_cases hc : 0 < cpl
    · rw [if_pos (decide_eq_true hc), if_pos hc]
      rfl
    · rw [if_neg (by rw [decide_eq_false hc]; decide), if_neg hc]
  have htype : decide ((gate (irqStubs v) (v < 32)).type = 0xE) = decide (¬ v < 32) := by
    by_cases hlt : v < 32
    · rw [decide_eq_true hlt, decide_eq_false (not_not.mpr hlt)]
      rfl
    · rw [decide_eq_false hlt, decide_eq_true hlt]
      rfl
  unfold Tables.enter
  rw [if_pos hlimit]
  dsimp only
  rw [hgate, if_pos husable, hcode, Option.bind_some, if_pos ⟨rfl, hring⟩, htype]
  have hinner : (if Segment.conforming ⟨0b1011, true, 0, true, true, false⟩ then cpl else 0) =
      (0 : BitVec 2) := rfl
  rw [hinner]
  have hist : (gate (irqStubs v) (v < 32)).ist = 0 := rfl
  have hcs : (gate (irqStubs v) (v < 32)).selector &&& ~~~3 ||| BitVec.setWidth 16 (0 : BitVec 2) = 0x08 := by
    show (0x08 : BitVec 16) &&& ~~~3 ||| BitVec.setWidth 16 (0 : BitVec 2) = 0x08
    decide
  rw [hist, hstack, hcs]
  rfl

end Booted

private theorem setWidth_two_pos {w : Word} : 0 < w.setWidth 2 ↔ w &&& 3 ≠ 0 := by
  have hnat : (w.setWidth 2).toNat = (w &&& 3).toNat := by
    rw [BitVec.toNat_setWidth, BitVec.toNat_and]
    exact (Nat.and_two_pow_sub_one_eq_mod w.toNat 2).symm
  rw [BitVec.lt_def, hnat, Ne, ← BitVec.toNat_inj]
  exact Nat.pos_iff_ne_zero

/-- `init_gdt_entries`, word by word. -/
theorem load64_initGdtEntries {i : Nat} {w : Word} (h : (Gdt.entries l.tss)[i]? = some w) :
    load64 (l.initGdtEntries m) (l.gdtEntries.toNat + 8 * i) = w := load64_storeWords h

/-- One way to link the kernel. -/
def Layout.linked : Layout where
  idtTable := 0xFFFFFFFF80100000
  gdtEntries := 0xFFFFFFFF80102000
  tss := 0xFFFFFFFF80103000
  idt_fits := by decide
  gdt_fits := by decide
  tss_fits := by decide
  apart := by decide

/-- The two tables can be in one memory. -/
theorem Layout.exists_booted (l : Layout) (irqStubs : Byte → Word) : ∃ m, Booted l irqStubs m := by
  obtain ⟨m', -, hgates, helse⟩ := idtInit_ok l irqStubs (l.initGdtEntries fun _ => 0)
  have hgdt : GdtAt l (l.initGdtEntries fun _ => 0) :=
    ⟨load64_initGdtEntries (i := 1) rfl, load64_initGdtEntries (i := 2) rfl,
      load64_initGdtEntries (i := 3) rfl, load64_initGdtEntries (i := 4) rfl⟩
  have hapart := l.apart
  have hentries : Disjoint (Set.Ico l.gdtEntries.toNat (l.gdtEntries.toNat + 40)) l.idt :=
    disjoint_Ico (n := 4096) (k := 40) (by omega)
  exact ⟨m', hgdt.congr (helse _ hentries), hgates⟩

/-- **Interrupts go through the tables to their stubs**: with the tables in memory, the processor
delivers every vector from every ring, and what it does is `deliver`. -/
theorem deliver_through_tables (s : Asm.Cpu) (h : Booted l irqStubs s.mem)
    (hcanonical : ∀ u, Canonical (irqStubs u)) (hrsp0 : s.tssRsp0 = load64 s.mem (l.tss.toNat + 4))
    (vector : Byte) (error : Word) : deliverThrough l.tables vector error s =
      some { s.deliver vector error with rip := irqStubs vector } := by
  -- the ring of the interrupted code, as each side asks for it
  have hswitch : ∀ {α : Type} (x y : α),
      (if 0 < s.cs.setWidth 2 then x else y) = if s.cs &&& 3 = 0 then y else x := by
    intro α x y
    by_cases hring : s.cs &&& 3 = 0
    · rw [if_pos hring, if_neg fun hpos => setWidth_two_pos.mp hpos hring]
    · rw [if_neg hring, if_pos (setWidth_two_pos.mpr hring)]
  have hflags : (if ¬ vector < 32 then 0x34300 else 0x34100 : Word) =
      if vector < 32 then 0x34100 else 0x34300 := ite_not _ _ _
  unfold deliverThrough Asm.Cpu.deliver
  rw [h.enter hcanonical, Option.map_some, ← hrsp0]
  simp only [decide_eq_true_eq]
  rw [hswitch, hswitch, hflags]
  rfl

/-- The timer interrupts a program. -/
theorem deliver_through_tables_timer : ∃ s : Asm.Cpu, Booted Layout.linked (fun _ => 0x1000) s.mem ∧
    s.cs = 0x23 ∧ deliverThrough Layout.linked.tables 0x20 0 s =
      some { s.deliver 0x20 0 with rip := 0x1000 } := by
  obtain ⟨m', hbooted⟩ := Layout.linked.exists_booted fun _ => 0x1000
  let s : Asm.Cpu :=
    ⟨fun _ => 0, 0, 0x23, 0, 0x1B, 0, 0, load64 m' (Layout.linked.tss.toNat + 4), m'⟩
  exact ⟨s, hbooted, rfl, deliver_through_tables s hbooted (fun _ => by decide) rfl 0x20 0⟩

/-! ## The boot -/

namespace Sys

variable {s : Sys}

/-- What `gdt_flush` is called with: a table pointer to the entries, and a stack that does not meet
them. -/
structure Flushes (l : Layout) (s : Sys) : Prop where
  ring : s.cpl = 0
  limit : load16 s.cpu.mem (s.cpu.reg .rdi).toNat = 55
  base : load64 s.cpu.mem ((s.cpu.reg .rdi).toNat + 2) = l.gdtEntries
  gdt : GdtAt l s.cpu.mem
  low : load64 s.cpu.mem (l.gdtEntries.toNat + 40) = (Gdt.tssDescriptor l.tss).1
  high : load64 s.cpu.mem (l.gdtEntries.toNat + 48) = (Gdt.tssDescriptor l.tss).2
  room : 16 ≤ (s.cpu.reg .rsp).toNat
  apart : (s.cpu.reg .rsp).toNat + 8 ≤ l.gdtEntries.toNat ∨
    l.gdtEntries.toNat + 56 ≤ (s.cpu.reg .rsp).toNat - 16

/-- What `gdt_flush` leaves. -/
structure Flushed (l : Layout) (s s' : Sys) : Prop where
  tables : s'.tables = { s.tables with
    gdtBase := l.gdtEntries, gdtLimit := 55, tssBase := l.tss, tssLimit := 103 }
  cs : s'.cpu.cs = 0x08
  ss : s'.cpu.ss = 0x10
  data : s'.ds = 0x10 ∧ s'.es = 0x10 ∧ s'.fs = 0x10 ∧ s'.gs = 0x10
  rip : s'.cpu.rip = load64 s.cpu.mem (s.cpu.reg .rsp).toNat
  rsp : s'.cpu.reg .rsp = s.cpu.reg .rsp + 8
  busy : load64 s'.cpu.mem (l.gdtEntries.toNat + 40) =
    (Gdt.tssDescriptor l.tss).1 ||| TaskState.busy
  mem : ∀ x : Set Nat, Disjoint x (Set.Ico (l.gdtEntries.toNat + 40) (l.gdtEntries.toNat + 48)) →
    Disjoint x (Set.Ico ((s.cpu.reg .rsp).toNat - 16) (s.cpu.reg .rsp).toNat) →
    Set.EqOn s'.cpu.mem s.cpu.mem x

section gdtFlush

variable (h : s.Flushes l)

include h

private theorem Flushes.lgdt : s.lgdt (s.cpu.reg .rdi).toNat =
    { s with tables := { s.tables with gdtBase := l.gdtEntries, gdtLimit := 55 } } := by
  unfold Sys.lgdt
  rw [h.limit, h.base]

/-- The descriptor of the task state segment is in use. -/
theorem Flushes.ltr : { s with tables := { s.tables with gdtBase := l.gdtEntries, gdtLimit := 55 } }.ltr
    0x28 = some { s with
      tables := { s.tables with
        gdtBase := l.gdtEntries, gdtLimit := 55, tssBase := l.tss, tssLimit := 103 }
      cpu.mem := store64 s.cpu.mem (l.gdtEntries.toNat + 40)
        ((Gdt.tssDescriptor l.tss).1 ||| TaskState.busy) } := by
  have hindex : 8 * Tables.index 0x28 = 40 := by decide
  unfold Sys.ltr Tables.ltr
  dsimp only
  rw [if_pos ⟨by decide, by decide, by decide⟩, hindex, h.low, h.high, tssDescriptor_ofWords]
  rfl

private theorem Flushes.gdt_busy (w : Word) :
    GdtAt l (store64 s.cpu.mem (l.gdtEntries.toNat + 40) w) := by
  refine h.gdt.congr (store64_eqOn ?_)
  exact disjoint_Ico (a := l.gdtEntries.toNat + 40) (n := 8) (b := l.gdtEntries.toNat) (k := 40)
    (.inl (by omega))

end gdtFlush

private theorem loadData_ok (h : GdtAt l s.cpu.mem) (ht : OnGdt l s.tables) (hring : s.cpl = 0) :
    s.loadData 0x10 = some { s with ds := 0x10, es := 0x10, fs := 0x10, gs := 0x10 } := by
  have hloads : s.tables.loadsData s.cpu.mem s.cpl 0x10 = true := by
    unfold Tables.loadsData
    rw [h.segment_kernelData ht, hring]
    decide
  exact if_pos hloads

private theorem loadStack_ok (h : GdtAt l s.cpu.mem) (ht : OnGdt l s.tables) (hring : s.cpl = 0) :
    s.loadStack 0x10 = some { s with cpu.ss := 0x10 } := by
  have hloads : s.tables.loadsStack s.cpu.mem s.cpl 0x10 = true := by
    unfold Tables.loadsStack
    rw [h.segment_kernelData ht, hring]
    decide
  exact if_pos hloads

private theorem retfq_ok (h : GdtAt l s.cpu.mem) (ht : OnGdt l s.tables) (hring : s.cpl = 0)
    (hcs : s.cpu.read (s.cpu.reg .rsp + 8) = 0x08) :
    s.retfq = some { s with cpu := { s.cpu.set .rsp (s.cpu.reg .rsp + 16) with
      rip := s.cpu.read (s.cpu.reg .rsp), cs := 0x08 } } := by
  have hloads : s.tables.loadsCode s.cpu.mem s.cpl 0x08 = true ∧
      (0x08 : BitVec 16).setWidth 2 = s.cpl := by
    unfold Tables.loadsCode
    rw [h.segment_kernelCode ht, hring]
    decide
  unfold retfq
  dsimp only
  rw [hcs]
  exact if_pos hloads

/-- The stack of `gdt_flush` before its `retfq`. -/
def atRetfq (reloadCs : Word) (c : Asm.Cpu) : Asm.Cpu := ((c.push 0x08).set .rax reloadCs).push reloadCs

section atRetfq

variable {c : Asm.Cpu} {reloadCs : Word}

private theorem atRetfq_rsp : (atRetfq reloadCs c).reg .rsp = c.reg .rsp - 8 - 8 := rfl

private theorem atRetfq_mem (hroom : 16 ≤ (c.reg .rsp).toNat) : (atRetfq reloadCs c).mem =
    store64 (store64 c.mem ((c.reg .rsp).toNat - 8) 0x08) ((c.reg .rsp).toNat - 16) reloadCs := by
  have hfirst : (c.reg .rsp - 8).toNat = (c.reg .rsp).toNat - 8 :=
    BitVec.toNat_sub_of_le (x := c.reg .rsp) (y := 8) (by
      show 8 ≤ (c.reg .rsp).toNat
      omega)
  have hsecond : (c.reg .rsp - 8 - 8).toNat = (c.reg .rsp).toNat - 16 := by
    rw [BitVec.toNat_sub_of_le (x := c.reg .rsp - 8) (y := 8) (by
      show 8 ≤ (c.reg .rsp - 8).toNat
      omega), hfirst]
    show (c.reg .rsp).toNat - 8 - 8 = _
    omega
  rw [← hfirst, ← hsecond]
  rfl

private theorem atRetfq_eqOn (hroom : 16 ≤ (c.reg .rsp).toNat) {x : Set Nat}
    (hx : Disjoint x (Set.Ico ((c.reg .rsp).toNat - 16) (c.reg .rsp).toNat)) :
    Set.EqOn (atRetfq reloadCs c).mem c.mem x := by
  rw [atRetfq_mem hroom]
  have hsub : ∀ k, k ≤ 8 → Disjoint x (Set.Ico ((c.reg .rsp).toNat - 16 + k)
      ((c.reg .rsp).toNat - 16 + k + 8)) := fun k hk =>
    hx.mono_right (Set.Ico_subset_Ico (by omega) (by omega))
  have hup : (c.reg .rsp).toNat - 16 + 8 = (c.reg .rsp).toNat - 8 := by omega
  have hfirst := hsub 8 (by omega)
  rw [hup] at hfirst
  exact (store64_eqOn (hsub 0 (by omega))).trans (store64_eqOn hfirst)

/-- The words that `retfq` pops. -/
theorem atRetfq_read (hroom : 16 ≤ (c.reg .rsp).toNat) :
    (atRetfq reloadCs c).read ((atRetfq reloadCs c).reg .rsp + 8) = 0x08 := by
  have haddr : ((atRetfq reloadCs c).reg .rsp + 8).toNat = (c.reg .rsp).toNat - 8 := by
    rw [atRetfq_rsp, BitVec.sub_add_cancel]
    exact BitVec.toNat_sub_of_le (x := c.reg .rsp) (y := 8) (by
      show 8 ≤ (c.reg .rsp).toNat
      omega)
  unfold Asm.Cpu.read
  rw [haddr, atRetfq_mem hroom, load64_store64_of_ne (by omega)]
  exact load64_store64_self

end atRetfq

/-- **`gdt_flush` returns** on the kernel's own segments. -/
theorem gdtFlush_ok (h : s.Flushes l) (reloadCs : Word) :
    ∃ s', s.gdtFlush reloadCs = some s' ∧ s.Flushed l s' := by
  let busy := store64 s.cpu.mem (l.gdtEntries.toNat + 40)
    ((Gdt.tssDescriptor l.tss).1 ||| TaskState.busy)
  let tables : Tables :=
    { s.tables with gdtBase := l.gdtEntries, gdtLimit := 55, tssBase := l.tss, tssLimit := 103 }
  let found : Sys := ⟨{ s.cpu with mem := busy }, tables, s.ds, s.es, s.fs, s.gs⟩
  let loaded : Sys := ⟨{ s.cpu with mem := busy, ss := 0x10 }, tables, 0x10, 0x10, 0x10, 0x10⟩
  let pushed : Sys := { loaded with cpu := atRetfq reloadCs loaded.cpu }
  have hroom : 16 ≤ (loaded.cpu.reg .rsp).toNat := h.room
  have hon : OnGdt l tables := ⟨rfl, rfl⟩
  have hgdt : GdtAt l busy := h.gdt_busy _
  have hpushed : GdtAt l pushed.cpu.mem := by
    refine hgdt.congr (atRetfq_eqOn hroom ?_)
    have hapart := h.apart
    have hrsp : loaded.cpu.reg .rsp = s.cpu.reg .rsp := rfl
    rw [hrsp, Set.disjoint_left]
    rintro y ⟨hlo, hhi⟩ ⟨hlo', hhi'⟩
    omega
  have hdata : found.loadData 0x10 = some { found with ds := 0x10, es := 0x10, fs := 0x10, gs := 0x10 } :=
    loadData_ok hgdt hon h.ring
  have hstack : { found with ds := 0x10, es := 0x10, fs := 0x10, gs := 0x10 }.loadStack 0x10 =
      some loaded := loadStack_ok hgdt hon h.ring
  have hflush : s.gdtFlush reloadCs = (pushed.retfq >>= fun s =>
      pure { s with cpu := { s.cpu.ret with rip := s.cpu.read (s.cpu.reg .rsp) } }) := by
    unfold gdtFlush
    rw [h.lgdt]
    dsimp only
    rw [h.ltr]
    show (found.loadData 0x10 >>= _) = _
    rw [hdata]
    show (Sys.loadStack 0x10 _ >>= _) = _
    rw [hstack]
    rfl
  have hretfq := retfq_ok (s := pushed) hpushed hon h.ring (atRetfq_read hroom)
  rw [hretfq, Option.bind_eq_bind, Option.bind_some] at hflush
  have hback : pushed.cpu.reg .rsp + 16 = s.cpu.reg .rsp := by
    show s.cpu.reg .rsp - 8 - 8 + 16 = s.cpu.reg .rsp
    rw [BitVec.sub_sub]
    exact BitVec.sub_add_cancel _ _
  have hmem : ∀ x : Set Nat,
      Disjoint x (Set.Ico (l.gdtEntries.toNat + 40) (l.gdtEntries.toNat + 48)) →
      Disjoint x (Set.Ico ((s.cpu.reg .rsp).toNat - 16) (s.cpu.reg .rsp).toNat) →
      Set.EqOn pushed.cpu.mem s.cpu.mem x := fun x hgap hstack =>
    (atRetfq_eqOn hroom hstack).trans (store64_eqOn hgap)
  have hbusy : load64 pushed.cpu.mem (l.gdtEntries.toNat + 40) =
      (Gdt.tssDescriptor l.tss).1 ||| TaskState.busy := by
    refine (load64_congr (atRetfq_eqOn hroom ?_)).trans load64_store64_self
    have hapart := h.apart
    have hrsp : loaded.cpu.reg .rsp = s.cpu.reg .rsp := rfl
    rw [hrsp, Set.disjoint_left]
    rintro y ⟨hlo, hhi⟩ ⟨hlo', hhi'⟩
    omega
  refine ⟨_, hflush, rfl, rfl, rfl, ⟨rfl, rfl, rfl, rfl⟩, ?_, ?_, hbusy, hmem⟩
  · show load64 pushed.cpu.mem (pushed.cpu.reg .rsp + 16).toNat = _
    rw [hback]
    have hapart := h.apart
    apply load64_congr (hmem _ ?_ ?_)
    · exact disjoint_Ico (n := 8) (k := 8) (by omega)
    · rw [Set.disjoint_left]
      rintro y ⟨hlo, -⟩ ⟨-, hhi⟩
      omega
  · show pushed.cpu.reg .rsp + 16 + 8 = _
    rw [hback]

/-- The memory that the boot uses besides: a stack and two table pointers, away from the tables. -/
structure Scratch (l : Layout) (gdtr idtr rsp : Word) : Prop where
  room : 24 ≤ rsp.toNat
  stack : rsp.toNat ≤ l.gdtEntries.toNat ∨ l.gdtEntries.toNat + 56 ≤ rsp.toNat - 24
  gdtr_gdt : gdtr.toNat + 10 ≤ l.gdtEntries.toNat ∨ l.gdtEntries.toNat + 56 ≤ gdtr.toNat
  gdtr_stack : gdtr.toNat + 10 ≤ rsp.toNat - 24 ∨ rsp.toNat ≤ gdtr.toNat
  idtr_gdt : idtr.toNat + 10 ≤ l.gdtEntries.toNat ∨ l.gdtEntries.toNat + 56 ≤ idtr.toNat
  idtr_idt : idtr.toNat + 10 ≤ l.idtTable.toNat ∨ l.idtTable.toNat + 4096 ≤ idtr.toNat

/-- The processor at the first instruction of `gdt_flush`. -/
def atFlush (l : Layout) (gdtr ret : Word) (s : Sys) : Sys :=
  let mem := storePointer (l.initGdtEntries s.cpu.mem) gdtr.toNat 55 l.gdtEntries
  { s with cpu := (({ s.cpu with mem := mem } : Asm.Cpu).set .rdi gdtr).push ret }

private theorem atFlush_flushes {gdtr idtr ret : Word} (hs : Scratch l gdtr idtr (s.cpu.reg .rsp))
    (hring : s.cpl = 0) : (s.atFlush l gdtr ret).Flushes l := by
  obtain ⟨hroom, hstack, hgdtr, happart, -, -⟩ := hs
  have hrsp : (s.cpu.reg .rsp - 8).toNat = (s.cpu.reg .rsp).toNat - 8 :=
    BitVec.toNat_sub_of_le (x := s.cpu.reg .rsp) (y := 8) (by
      show 8 ≤ (s.cpu.reg .rsp).toNat
      omega)
  have hmem : (s.atFlush l gdtr ret).cpu.mem = store64 (storePointer (l.initGdtEntries s.cpu.mem)
      gdtr.toNat 55 l.gdtEntries) ((s.cpu.reg .rsp).toNat - 8) ret := by
    rw [← hrsp]
    rfl
  have hgdt : Set.EqOn (s.atFlush l gdtr ret).cpu.mem (l.initGdtEntries s.cpu.mem)
      (Set.Ico l.gdtEntries.toNat (l.gdtEntries.toNat + 56)) := by
    rw [hmem]
    refine (store64_eqOn ?_).trans (storePointer_eqOn ?_)
    · exact disjoint_Ico (by omega)
    · exact disjoint_Ico (by omega)
  have hword : ∀ {i : Nat} {w : Word}, i < 7 → (Gdt.entries l.tss)[i]? = some w →
      load64 (s.atFlush l gdtr ret).cpu.mem (l.gdtEntries.toNat + 8 * i) = w := by
    intro i w hi hw
    refine (load64_congr (hgdt.mono (Set.Ico_subset_Ico ?_ ?_))).trans (load64_initGdtEntries hw)
    · omega
    · omega
  refine ⟨hring, ?_, ?_, ⟨hword (i := 1) (by omega) rfl, hword (i := 2) (by omega) rfl,
    hword (i := 3) (by omega) rfl, hword (i := 4) (by omega) rfl⟩, hword (i := 5) (by omega) rfl,
    hword (i := 6) (by omega) rfl, ?_, ?_⟩
  · show load16 (s.atFlush l gdtr ret).cpu.mem gdtr.toNat = 55
    rw [hmem, load16_store64_of_ne (by omega)]
    exact load16_storePointer
  · show load64 (s.atFlush l gdtr ret).cpu.mem (gdtr.toNat + 2) = l.gdtEntries
    rw [hmem, load64_store64_of_ne (by omega)]
    exact load64_store64_self
  · show 16 ≤ (s.cpu.reg .rsp - 8).toNat
    omega
  · show (s.cpu.reg .rsp - 8).toNat + 8 ≤ _ ∨ _ ≤ (s.cpu.reg .rsp - 8).toNat - 16
    omega

/-- What the boot leaves. -/
structure OnTables (l : Layout) (irqStubs : Byte → Word) (ret : Word) (s s' : Sys) : Prop where
  tables : s'.tables = l.tables
  segments : Segments l s'.tables s'.cpu.mem
  booted : Booted l irqStubs s'.cpu.mem
  cs : s'.cpu.cs = 0x08
  ss : s'.cpu.ss = 0x10
  data : s'.ds = 0x10 ∧ s'.es = 0x10 ∧ s'.fs = 0x10 ∧ s'.gs = 0x10
  rip : s'.cpu.rip = ret
  rsp : s'.cpu.reg .rsp = s.cpu.reg .rsp

/-- **The boot sets up the tables.** -/
theorem boot_tables {gdtr idtr : Word} (hs : Scratch l gdtr idtr (s.cpu.reg .rsp)) (hring : s.cpl = 0)
    (irqStubs : Byte → Word) (ret reloadCs : Word) :
    ∃ s', s.boot l irqStubs gdtr idtr ret reloadCs =
        some (s', fun u => Idt.x86ExceptionHanlders[u.toNat]?.join) ∧
      s.OnTables l irqStubs ret s' := by
  have hflushes : (s.atFlush l gdtr ret).Flushes l := atFlush_flushes hs hring
  obtain ⟨f, hf, hflushed⟩ := gdtFlush_ok hflushes reloadCs
  obtain ⟨m', hidt, hgates, helse⟩ := idtInit_ok l irqStubs f.cpu.mem
  obtain ⟨hroom, hstack, hgdtr, hgs, hidtrGdt, hidtrIdt⟩ := hs
  have hapart := l.apart
  have hrsp : (s.cpu.reg .rsp - 8).toNat = (s.cpu.reg .rsp).toNat - 8 :=
    BitVec.toNat_sub_of_le (x := s.cpu.reg .rsp) (y := 8) (by
      show 8 ≤ (s.cpu.reg .rsp).toNat
      omega)
  -- `gdt_flush` has pushed below its return address, away from every word of the table
  have hpushed : ∀ {a n}, l.gdtEntries.toNat ≤ a → a + n ≤ l.gdtEntries.toNat + 56 →
      Disjoint (Set.Ico a (a + n)) (Set.Ico (((s.atFlush l gdtr ret).cpu.reg .rsp).toNat - 16)
        ((s.atFlush l gdtr ret).cpu.reg .rsp).toNat) := by
    intro a n ha hn
    show Disjoint _ (Set.Ico ((s.cpu.reg .rsp - 8).toNat - 16) (s.cpu.reg .rsp - 8).toNat)
    rw [Set.disjoint_left]
    rintro y ⟨hlo, hhi⟩ ⟨hlo', hhi'⟩
    omega
  have hgdt : GdtAt l f.cpu.mem := hflushes.gdt.congr
    (hflushed.mem _ (disjoint_Ico (n := 8) (k := 40) (by omega)) (hpushed (by omega) (by omega)))
  have hhigh : load64 f.cpu.mem (l.gdtEntries.toNat + 48) = (Gdt.tssDescriptor l.tss).2 :=
    (load64_congr (hflushed.mem _ (disjoint_Ico (n := 8) (k := 8) (by omega))
      (hpushed (by omega) (by omega)))).trans hflushes.high
  -- and nothing after it writes there
  let m := storePointer m' idtr.toNat 4095 l.idtTable
  have hlater : Set.EqOn m f.cpu.mem (Set.Ico l.gdtEntries.toNat (l.gdtEntries.toNat + 56)) :=
    (storePointer_eqOn (disjoint_Ico (by omega))).trans
      (helse _ (disjoint_Ico (n := 4096) (k := 56) (by omega)))
  have hword : ∀ k, k + 8 ≤ 56 →
      load64 m (l.gdtEntries.toNat + k) = load64 f.cpu.mem (l.gdtEntries.toNat + k) := fun k hk =>
    load64_congr (hlater.mono (Set.Ico_subset_Ico (by omega) (by omega)))
  have hgdt' : GdtAt l m := hgdt.congr (hlater.mono (Set.Ico_subset_Ico le_rfl (by omega)))
  have htables : ({ f with cpu.mem := m' }.idtrAsmLoad l idtr).tables = l.tables := by
    unfold idtrAsmLoad lidt
    dsimp only
    have hbase : load64 (storePointer m' idtr.toNat 4095 l.idtTable) (idtr.toNat + 2) = l.idtTable :=
      load64_store64_self
    rw [load16_storePointer, hflushed.tables, hbase]
    rfl
  refine ⟨{ f with cpu.mem := m' }.idtrAsmLoad l idtr, ?_, htables, ?_, ⟨hgdt', ?_⟩, hflushed.cs,
    hflushed.ss, hflushed.data, ?_, ?_⟩
  · unfold Sys.boot
    show ((s.atFlush l gdtr ret).gdtFlush reloadCs >>= _) = _
    rw [hf, Option.bind_eq_bind, Option.bind_some, hidt]
    rfl
  · rw [htables]
    exact hgdt'.segments ((hword 40 (by omega)).trans hflushed.busy) ((hword 48 (by omega)).trans hhigh)
  · intro v
    refine (read_congr (storePointer_eqOn ?_)).trans (hgates v)
    have hv := v.isLt
    refine Set.disjoint_of_subset_left (Set.Ico_subset_Ico ?_ ?_) (disjoint_Ico hidtrIdt.symm)
    · exact Nat.le_add_right _ _
    · show l.idtTable.toNat + 16 * v.toNat + 16 ≤ _
      omega
  · refine hflushed.rip.trans ?_
    exact load64_store64_self
  · refine hflushed.rsp.trans ?_
    exact BitVec.sub_add_cancel _ _

/-- From a state with nothing in memory, and a stack under the tables. -/
theorem boot_tables_linked : ∃ s s' : Sys, Scratch Layout.linked 0x3000 0x3010 (s.cpu.reg .rsp) ∧
    s.boot Layout.linked (fun _ => 0x1000) 0x3000 0x3010 0x2000 0x2800 =
      some (s', fun u => Idt.x86ExceptionHanlders[u.toNat]?.join) ∧
    s.OnTables Layout.linked (fun _ => 0x1000) 0x2000 s' := by
  let s : Sys :=
    ⟨⟨fun _ => 0x8000, 0, 0x28, 2, 0x30, 0, 0, 0, fun _ => 0⟩, Layout.linked.tables, 0, 0, 0, 0⟩
  have hs : Scratch Layout.linked 0x3000 0x3010 (s.cpu.reg .rsp) := by
    refine ⟨?_, ?_, ?_, ?_, ?_, ?_⟩ <;> decide
  have hring : s.cpl = 0 := by decide
  obtain ⟨s', hboot⟩ := boot_tables hs hring (fun _ => 0x1000) 0x2000 0x2800
  exact ⟨s, s', hs, hboot⟩

end Sys

/-! ## Selectors -/

namespace Selectors

/-- The pairs that occur: the kernel's, that of a handler that was entered from ring 3, where the
processor has no stack segment, and the user's. -/
inductive Known : Selectors → Prop
  | kernel : Known ⟨0x08, 0x10⟩
  | switched : Known ⟨0x08, 0⟩
  | user : Known ⟨0x23, 0x1B⟩

private theorem known_construct (isUser : Bool) : Known (construct isUser) := by
  cases isUser with
  | false => exact .kernel
  | true => exact .user

private theorem known_syscall : Known syscall := .kernel

private theorem known_sysretq {sysret : BitVec 16 → Selectors} (h : ForcesRing sysret) :
    Known (sysretq sysret) := by
  have hpair : sysretq sysret = ⟨0x23, 0x1B⟩ := (h _).trans (by decide)
  rw [hpair]
  exact .user

/-- The frame of an interrupt. -/
theorem Known.interrupt {x : Selectors} (h : Known x) :
    Known ⟨0x08, if decide (0 < x.cs.setWidth 2) then 0 else x.ss⟩ := by
  cases h with
  | kernel => exact .kernel
  | switched => exact .switched
  | user => exact .switched

theorem Known.returns {x : Selectors} (h : Known x) (hm : GdtAt l m) :
    l.tables.returns m 0 x.cs x.ss = true := by
  unfold Tables.returns Tables.loadsCode Tables.loadsStack
  cases h with
  | kernel =>
    rw [hm.segment_kernelCode l.onGdt, hm.segment_kernelData l.onGdt]
    decide
  | switched =>
    rw [hm.segment_kernelCode l.onGdt]
    rfl
  | user =>
    rw [hm.segment_userCode l.onGdt, hm.segment_userData l.onGdt]
    decide

namespace Machine

variable {T : Type} [DecidableEq T] {x x' : Machine T} {i : Action T} {sysret : BitVec 16 → Selectors}

/-- Only known pairs execute, wait in a frame or are saved in a thread. -/
structure AllKnown (x : Machine T) : Prop where
  cpu : ∀ y ∈ x.cpu, Known y
  thread : ∀ u, ∀ y ∈ x.thread u, Known y

omit [DecidableEq T] in
/-- What the processor goes on with, of a list of known pairs. -/
theorem AllKnown.goTo (h : x.AllKnown) {y : Selectors} {frames : List Selectors} (hy : Known y)
    (hframes : ∀ z ∈ frames, Known z) : { x with cpu := y :: frames }.AllKnown := by
  refine ⟨fun z hz => ?_, h.thread⟩
  rcases List.mem_cons.mp hz with rfl | hz
  · exact hy
  · exact hframes z hz

theorem AllKnown.keep (h : x.AllKnown) {frames : List Selectors} (hframes : ∀ z ∈ frames, Known z)
    (u : T) : { x with thread := Function.update x.thread u frames }.AllKnown := by
  refine ⟨h.cpu, fun w => ?_⟩
  show ∀ y ∈ Function.update x.thread u frames w, Known y
  by_cases hw : w = u
  · rw [hw, Function.update_self]
    exact hframes
  · rw [Function.update_of_ne hw]
    exact h.thread w

/-- **A step is accepted**, and leads to known pairs again. -/
theorem AllKnown.next (hx : x.AllKnown) (hcanonical : ∀ u, Canonical (irqStubs u))
    (hsysret : ForcesRing sysret) (hon : i.On (Booted l irqStubs)) {r : Outcome (Machine T)}
    (h : x.next l.tables sysret i = some r) : ∃ x', r = .ok x' ∧ x'.AllKnown := by
  obtain ⟨cpu, thread⟩ := x
  obtain ⟨hcpu, -⟩ := id hx
  cases i with
  | interrupt mem rsp vector =>
    rcases cpu with _ | ⟨y, frames⟩
    · cases h
    dsimp only [Machine.next] at h
    rw [Booted.enter hon hcanonical] at h
    exact ⟨_, (Option.some.inj h).symm, hx.goTo (hcpu y List.mem_cons_self).interrupt hcpu⟩
  | iretq mem =>
    rcases cpu with _ | ⟨y, _ | ⟨z, frames⟩⟩
    · cases h
    · cases h
    dsimp only [Machine.next] at h
    split at h
    · next hring =>
      have hz : Known z := hcpu z (List.mem_cons_of_mem _ List.mem_cons_self)
      rw [hring, if_pos (hz.returns hon.toGdtAt)] at h
      refine ⟨_, (Option.some.inj h).symm, hx.goTo hz fun w hw => ?_⟩
      exact hcpu w (List.mem_cons_of_mem _ (List.mem_cons_of_mem _ hw))
    · cases h
  | syscall =>
    rcases cpu with _ | ⟨y, frames⟩
    · cases h
    dsimp only [Machine.next] at h
    split at h
    · exact ⟨_, (Option.some.inj h).symm,
        hx.goTo known_syscall fun w hw => hcpu w (List.mem_cons_of_mem _ hw)⟩
    · cases h
  | sysretq =>
    rcases cpu with _ | ⟨y, frames⟩
    · cases h
    dsimp only [Machine.next] at h
    split at h
    · exact ⟨_, (Option.some.inj h).symm,
        hx.goTo (known_sysretq hsysret) fun w hw => hcpu w (List.mem_cons_of_mem _ hw)⟩
    · cases h
  | save u =>
    rcases cpu with _ | ⟨y, _ | ⟨z, frames⟩⟩
    · cases h
    · cases h
    exact ⟨_, (Option.some.inj h).symm, hx.keep (fun w hw => hcpu w (List.mem_cons_of_mem _ hw)) u⟩
  | load u =>
    rcases cpu with _ | ⟨y, _ | ⟨z, frames⟩⟩
    · cases h
    · cases h
    exact ⟨_, (Option.some.inj h).symm, hx.goTo (hcpu y List.mem_cons_self) (hx.thread u)⟩
  | construct u isUser =>
    refine ⟨_, (Option.some.inj h).symm, hx.keep (fun w hw => ?_) u⟩
    rw [List.mem_singleton.mp hw]
    exact known_construct isUser

/-- **No selector is refused**, where `sysretq` sets the rings: in every run, whatever executes, waits
in a frame or is saved in a thread has one of the known pairs, and no interrupt and no return from one
faults on it. -/
theorem selectors_accepted (hcanonical : ∀ u, Canonical (irqStubs u)) (hsysret : ForcesRing sysret)
    (h : (runs T l.tables sysret (Booted l irqStubs)).Reachable x) :
    x.AllKnown ∧
      ∀ i : Action T, i.On (Booted l irqStubs) → ∀ e, x.next l.tables sysret i ≠ some (.error e) := by
  have hx : x.AllKnown := by
    refine h.invariant ?_ ?_
    · rintro x ⟨hcpu, hthread⟩
      refine ⟨fun y hy => ?_, fun u y hy => ?_⟩
      · rw [hcpu] at hy
        rw [List.mem_singleton.mp hy]
        exact .kernel
      · obtain ⟨isUser, hu⟩ := hthread u
        rw [hu] at hy
        rw [List.mem_singleton.mp hy]
        exact known_construct isUser
    · rintro x i x' hx ⟨hon, hnext⟩
      obtain ⟨y, hy, hknown⟩ := hx.next hcanonical hsysret hon hnext
      cases hy
      exact hknown
  refine ⟨hx, fun i hon e he => ?_⟩
  obtain ⟨y, hy, -⟩ := hx.next hcanonical hsysret hon he
  cases hy

/-- The timer interrupts the kernel, and returns to a program. -/
theorem reachable_user (u : T) (hcanonical : ∀ v, Canonical (irqStubs v)) (hm : Booted l irqStubs m) :
    (runs T l.tables sysret (Booted l irqStubs)).Reachable
      ⟨[construct true], fun _ => [construct true]⟩ := by
  let thread : T → List Selectors := fun _ => [construct true]
  have hinterrupt : Machine.next l.tables sysret ⟨[⟨0x08, 0x10⟩], thread⟩ (.interrupt m 0 0x20) =
      some (.ok ⟨[⟨0x08, 0x10⟩, ⟨0x08, 0x10⟩], thread⟩) := by
    dsimp only [Machine.next]
    rw [hm.enter hcanonical]
    rfl
  have hreturn : Machine.next l.tables sysret ⟨[⟨0x08, 0x10⟩, construct true], thread⟩ (.iretq m) =
      some (.ok ⟨[construct true], thread⟩) := by
    have hring : (0x08 : BitVec 16).setWidth 2 = (0 : BitVec 2) := by decide
    dsimp only [Machine.next]
    rw [if_pos hring, hring, if_pos ((known_construct true).returns hm.toGdtAt)]
  let R := runs T l.tables sysret (Booted l irqStubs)
  have hboot : R.Reachable ⟨[⟨0x08, 0x10⟩], thread⟩ := .init ⟨rfl, fun _ => ⟨true, rfl⟩⟩
  have hhandler : R.Reachable ⟨[⟨0x08, 0x10⟩, ⟨0x08, 0x10⟩], thread⟩ :=
    hboot.step (i := .interrupt m 0 0x20) ⟨hm, hinterrupt⟩
  have hloaded : R.Reachable ⟨[⟨0x08, 0x10⟩, construct true], thread⟩ :=
    hhandler.step (i := .load u) ⟨trivial, rfl⟩
  exact hloaded.step (i := .iretq m) ⟨hm, hreturn⟩

/-- A program calls the kernel and is interrupted after that. -/
theorem selectors_accepted_called : ∃ (sysret : BitVec 16 → Selectors) (m : Mem) (x : Machine Unit),
    ForcesRing sysret ∧ Booted Layout.linked (fun _ => 0x1000) m ∧
    (runs Unit Layout.linked.tables sysret (Booted Layout.linked fun _ => 0x1000)).Reachable x ∧
    x.cpu = [⟨0x08, 0⟩, ⟨0x23, 0x1B⟩] ∧ x.AllKnown ∧
    ∀ e, x.next Layout.linked.tables sysret (.iretq m) ≠ some (.error e) := by
  obtain ⟨m, hm⟩ := Layout.linked.exists_booted fun _ => 0x1000
  have hstub : Canonical 0x1000 := by decide
  have hcanonical : ∀ u : Byte, Canonical ((fun _ => 0x1000 : Byte → Word) u) := fun _ => hstub
  let sysret : BitVec 16 → Selectors := fun base => ⟨(base + 16) ||| 3, (base + 8) ||| 3⟩
  let R := runs Unit Layout.linked.tables sysret (Booted Layout.linked fun _ => 0x1000)
  let thread : Unit → List Selectors := fun _ => [construct true]
  have huser : R.Reachable ⟨[construct true], thread⟩ := reachable_user () hcanonical hm
  have hcalled : R.Reachable ⟨[⟨0x08, 0x10⟩], thread⟩ := huser.step (i := .syscall) ⟨trivial, rfl⟩
  have hback : R.Reachable ⟨[⟨0x23, 0x1B⟩], thread⟩ := hcalled.step (i := .sysretq) ⟨trivial, rfl⟩
  have hinterrupt : Machine.next Layout.linked.tables sysret ⟨[⟨0x23, 0x1B⟩], thread⟩
      (.interrupt m 0 0x20) = some (.ok ⟨[⟨0x08, 0⟩, ⟨0x23, 0x1B⟩], thread⟩) := by
    dsimp only [Machine.next]
    rw [hm.enter hcanonical]
    rfl
  have hreach : R.Reachable ⟨[⟨0x08, 0⟩, ⟨0x23, 0x1B⟩], thread⟩ :=
    hback.step (i := .interrupt m 0 0x20) ⟨hm, hinterrupt⟩
  have haccepted := selectors_accepted hcanonical (fun _ => rfl) hreach
  exact ⟨sysret, m, _, fun _ => rfl, hm, hreach, rfl, haccepted.1, haccepted.2 _ hm⟩

/-- Where `sysretq` keeps the ring of the base, a program that has called the kernel cannot be
returned to after its next interrupt. -/
theorem selectors_refused (u : T) (hcanonical : ∀ v, Canonical (irqStubs v)) (hsysret : KeepsRing sysret)
    (hm : Booted l irqStubs m) :
    ∃ x, (runs T l.tables sysret (Booted l irqStubs)).Reachable x ∧
      x.next l.tables sysret (.iretq m) = some (.error .halted) := by
  let R := runs T l.tables sysret (Booted l irqStubs)
  let thread : T → List Selectors := fun _ => [construct true]
  have hpair : sysretq sysret = ⟨0x23, 0x18⟩ := (hsysret _).trans (by decide)
  have huser : R.Reachable ⟨[construct true], thread⟩ := reachable_user u hcanonical hm
  have hcalled : R.Reachable ⟨[⟨0x08, 0x10⟩], thread⟩ := huser.step (i := .syscall) ⟨trivial, rfl⟩
  have hback : R.Reachable ⟨[⟨0x23, 0x18⟩], thread⟩ := by
    refine hcalled.step (i := .sysretq) ⟨trivial, ?_⟩
    rw [← hpair]
    rfl
  have hinterrupt : Machine.next l.tables sysret ⟨[⟨0x23, 0x18⟩], thread⟩ (.interrupt m 0 0x20) =
      some (.ok ⟨[⟨0x08, 0⟩, ⟨0x23, 0x18⟩], thread⟩) := by
    dsimp only [Machine.next]
    rw [hm.enter hcanonical]
    rfl
  have hreach : R.Reachable ⟨[⟨0x08, 0⟩, ⟨0x23, 0x18⟩], thread⟩ :=
    hback.step (i := .interrupt m 0 0x20) ⟨hm, hinterrupt⟩
  have hrefused : ¬ l.tables.returns m 0 0x23 0x18 = true := by
    have hsegment : l.tables.segment m 0x18 = l.tables.segment m 0x1B := rfl
    unfold Tables.returns Tables.loadsStack
    rw [hsegment, hm.segment_userData l.onGdt, Bool.and_eq_true, not_and_or]
    right
    decide
  have hring : (0x08 : BitVec 16).setWidth 2 = (0 : BitVec 2) := by decide
  refine ⟨_, hreach, ?_⟩
  dsimp only [Machine.next]
  rw [if_pos hring, hring, if_neg hrefused]

end Machine

end Selectors

end TwoKernel
