import TwoKernel.Std.RingBuffer
import Mathlib.Data.Nat.ModEq

/-!
# The ring buffer is a bounded queue

`Holds b l` reads the queue off the cells, from `read` on and around the end of
the array. A write that is not refused puts its value behind the others
(`Holds.bufWrite`), a read takes the first away (`Holds.bufRead`), and the two
tests and `size` say how many there are. `Fifo` is all of this at once, and every
buffer that starts empty has it, with what is read the first part of what was
written (`usage_fifo`).
-/

namespace TwoKernel.RingBuffer

variable {α : Type} {N : Nat} {b : RingBuffer α N} {l : List α} {x : α}

/-- The cell `k` places behind `i`, around the end of the array. -/
def ahead (i : Fin N) (k : Nat) : Fin N := ⟨(i.val + k) % N, Nat.mod_lt _ i.pos⟩

private theorem ahead_zero (i : Fin N) : ahead i 0 = i := Fin.ext (Nat.mod_eq_of_lt i.isLt)

private theorem next_ahead (i : Fin N) (k : Nat) : next (ahead i k) = ahead i (k + 1) := by
  apply Fin.ext
  simp only [next, ahead, Nat.mod_add_mod, Nat.add_assoc]

private theorem ahead_next (i : Fin N) (k : Nat) : ahead (next i) k = ahead i (k + 1) := by
  apply Fin.ext
  simp only [next, ahead, Nat.mod_add_mod, Nat.add_assoc, Nat.add_comm 1 k]

/-- Less than a whole turn apart, two cells are the same only at the same distance. -/
theorem ahead_inj {i : Fin N} {j k : Nat} (hj : j < N) (hk : k < N) (h : ahead i j = ahead i k) :
    j = k := by
  have hmod : i.val + j ≡ i.val + k [MOD N] := congrArg Fin.val h
  have := Nat.ModEq.add_left_cancel' i.val hmod
  rwa [Nat.ModEq, Nat.mod_eq_of_lt hj, Nat.mod_eq_of_lt hk] at this

/-- The buffer holds the queue `l`. -/
structure Holds (b : RingBuffer α N) (l : List α) : Prop where
  room : l.length < N
  write : b.write = ahead b.read l.length
  size : b.size = BitVec.ofNat 64 l.length
  cells : ∀ k x, l[k]? = some x → b.cap (ahead b.read k) = x

theorem Holds.isEmpty_iff (h : b.Holds l) : b.isEmpty = true ↔ l = [] := by
  rw [isEmpty, decide_eq_true_eq, h.write, ← List.length_eq_zero_iff]
  constructor
  · intro he
    exact ahead_inj h.room (Nat.zero_lt_of_lt h.room) (he.trans (ahead_zero _).symm)
  · intro hz
    rw [hz, ahead_zero]

/-- One cell stays free. -/
theorem Holds.isFull_iff (h : b.Holds l) : b.isFull = true ↔ l.length + 1 = N := by
  rw [isFull, decide_eq_true_eq, h.write, next_ahead]
  constructor
  · intro he
    by_contra hne
    have hlt : l.length + 1 < N := Nat.lt_of_le_of_ne h.room hne
    cases ahead_inj hlt (Nat.zero_lt_of_lt h.room) (he.trans (ahead_zero _).symm)
  · intro hz
    apply Fin.ext
    simp only [ahead, hz, Nat.add_mod_right, Nat.mod_eq_of_lt b.read.isLt]

/-- A write appends. -/
theorem Holds.bufWrite (h : b.Holds l) (hroom : ¬ b.isFull = true) :
    ∃ b', b.bufWrite x = .ok b' ∧ b'.Holds (l ++ [x]) := by
  have hlt : l.length + 1 < N :=
    Nat.lt_of_le_of_ne h.room fun e => hroom (h.isFull_iff.mpr e)
  refine ⟨_, if_neg hroom, ?_⟩
  constructor
  · simpa using hlt
  · rw [h.write, next_ahead]
    simp
  · rw [h.size]
    simp [BitVec.ofNat_add]
  · intro k y hy
    show Function.update b.cap b.write x (ahead b.read k) = y
    rw [h.write]
    by_cases hk : k < l.length
    · rw [List.getElem?_append_left hk] at hy
      have hne : ahead b.read k ≠ ahead b.read l.length := fun e =>
        Nat.ne_of_lt hk (ahead_inj (Nat.lt_trans hk h.room) h.room e)
      rw [Function.update_of_ne hne, h.cells k y hy]
    · have hlen : k < (l ++ [x]).length := (List.getElem?_eq_some_iff.mp hy).1
      obtain rfl : k = l.length := by
        rw [List.length_append, List.length_singleton] at hlen
        omega
      rw [List.getElem?_concat_length] at hy
      rw [Function.update_self]
      exact Option.some.inj hy

theorem Holds.getRead (h : b.Holds (x :: l)) : b.getRead = x := by
  have := h.cells 0 x rfl
  rwa [ahead_zero] at this

/-- A read takes the first element. -/
theorem Holds.bufRead (h : b.Holds (x :: l)) :
    ∃ b', b.bufRead = .ok b' ∧ b'.Holds l := by
  have hne : ¬ b.isEmpty = true := fun he => nomatch h.isEmpty_iff.mp he
  refine ⟨_, if_neg hne, ?_⟩
  constructor
  · exact Nat.lt_of_succ_lt h.room
  · rw [h.write, ahead_next]
    rfl
  · rw [h.size, List.length_cons, BitVec.ofNat_add]
    exact BitVec.add_sub_cancel _ _
  · intro k y hy
    show b.cap (ahead (next b.read) k) = y
    rw [ahead_next]
    exact h.cells (k + 1) y hy

/-! ## Every use of a buffer -/

/-- **What the buffer is for**: a queue of at most `N - 1` elements. -/
structure Fifo (b : RingBuffer α N) (l : List α) : Prop where
  bounded : l.length ≤ N - 1
  size : b.getSize.toNat = l.length
  empty : b.isEmpty = true ↔ l = []
  full : b.isFull = true ↔ l.length = N - 1
  write : ∀ data, ¬ b.isFull = true → ∃ b', b.bufWrite data = .ok b' ∧ b'.Holds (l ++ [data])
  read : ∀ data rest, l = data :: rest →
    b.getRead = data ∧ ∃ b', b.bufRead = .ok b' ∧ b'.Holds rest

/-- **A buffer that holds a list acts as its queue.** -/
theorem Holds.fifo (h : b.Holds l) (hN : N < 2 ^ 64) : b.Fifo l where
  bounded := Nat.le_sub_one_of_lt h.room
  size := by
    rw [getSize, h.size, BitVec.toNat_ofNat]
    exact Nat.mod_eq_of_lt (Nat.lt_trans h.room hN)
  empty := h.isEmpty_iff
  full := by
    have hroom := h.room
    rw [h.isFull_iff]
    omega
  write := fun _ hroom => h.bufWrite hroom
  read := by
    rintro data rest rfl
    exact ⟨h.getRead, h.bufRead⟩

theorem holds_nil (hempty : b.isEmpty = true) (hsize : b.size = 0) : b.Holds [] where
  room := b.read.pos
  write := by
    rw [List.length_nil, ahead_zero]
    exact of_decide_eq_true hempty
  size := hsize
  cells := nofun

/-- The buffer holds what was written and not yet read. -/
def Usage.Queued (x : Usage α N) (l : List α) : Prop := x.buf.Holds l ∧ x.written = x.got ++ l

theorem Usage.Queued.step {x x' : Usage α N} {c : Call α} (h : x.Queued l)
    (hs : (runs α N).step x c x') : ∃ l', x'.Queued l' := by
  obtain ⟨hl, hwritten⟩ := h
  obtain ⟨hallowed, hs⟩ := hs
  cases c with
  | write data =>
    obtain ⟨b', hb', hl'⟩ := hl.bufWrite (x := data) hallowed
    rw [next, hb', ok_bind] at hs
    cases hs
    refine ⟨l ++ [data], hl', ?_⟩
    rw [hwritten, List.append_assoc]
  | read =>
    obtain ⟨data, rest, rfl⟩ := List.exists_cons_of_ne_nil fun e => hallowed (hl.isEmpty_iff.mpr e)
    obtain ⟨b', hb', hl'⟩ := hl.bufRead
    rw [next, hb', ok_bind, hl.getRead] at hs
    cases hs
    refine ⟨rest, hl', ?_⟩
    rw [hwritten, List.append_assoc]
    rfl

/-- **A ring buffer is a bounded queue.** Whatever calls were made, writes while it was not full and
reads while it was not empty, a buffer that started empty holds a list, acts as the queue of its
elements, and what was read is the first part of what was written. -/
theorem usage_fifo {x : Usage α N} (hN : N < 2 ^ 64) (hx : (Usage.runs α N).Reachable x) :
    ∃ l, x.buf.Holds l ∧ x.buf.Fifo l ∧ x.written = x.got ++ l ∧ x.got <+: x.written := by
  have hqueued : ∃ l, x.Queued l := by
    refine hx.invariant (I := fun x => ∃ l, x.Queued l) ?_ ?_
    · rintro x ⟨hempty, hsize, hwritten, hgot⟩
      refine ⟨[], holds_nil hempty hsize, ?_⟩
      rw [hwritten, hgot]
      rfl
    · rintro x c x' ⟨l, hl⟩ hs
      exact hl.step hs
  obtain ⟨l, hl, hwritten⟩ := hqueued
  exact ⟨l, hl, hl.fifo hN, hwritten, l, hwritten.symm⟩

/-- Four writes and three reads in a buffer of three cells, around its end. -/
theorem usage_fifo_wraps : ∃ x : Usage Nat 3, x.written = [5, 6, 7, 8] ∧ x.got = [5, 6, 7] ∧
    ∃ l, x.buf.Fifo l ∧ x.written = x.got ++ l := by
  let start : Usage Nat 3 := ⟨⟨fun _ => 0, 0, 0, 0⟩, [], []⟩
  have hrun : (([.write 5, .write 6, .read, .write 7, .read, .read, .write 8] :
      List (Call Nat)).foldlM (System.attempt Usage.Allowed Usage.next) start).map
        (fun x => (x.written, x.got)) = some ([5, 6, 7, 8], [5, 6, 7]) := by decide +kernel
  obtain ⟨x, hx, hlog⟩ := Option.map_eq_some_iff.mp hrun
  have hstart : (Usage.runs Nat 3).Reachable start := .init ⟨rfl, rfl, rfl, rfl⟩
  have hreach := hstart.foldlM (fun _ _ _ => System.attempt_eq_some) _ hx
  obtain ⟨l, -, hl, hwritten, -⟩ := usage_fifo (by decide) hreach
  exact ⟨x, congrArg Prod.fst hlog, congrArg Prod.snd hlog, l, hl, hwritten⟩

end TwoKernel.RingBuffer
