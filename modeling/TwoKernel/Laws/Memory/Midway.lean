import TwoKernel.Laws.Memory.Clients
import TwoKernel.Memory.Shared

/-!
# A call of the allocator under way

Under the lock a call changes the memory one statement at a time, while clients store to
theirs. `Midway` says what memory `y` a call that is at a point has made of the memory `x`
it would have found without any of its own stores: `x` is what the memory would be if the call
had not begun.

* Each statement keeps it, with the same `x`, and the last one makes of `x` what the whole call
  does at once (`Midway.stmt`).
* A client's store can be made in `x` and `y` alike (`Midway.write`): it commutes with the stores
  of the call, which go to nodes.
* A call stores to pages that were free, or to the page it frees (`Midway.stmt_eqOn`).
-/

namespace ByteMem

/-- A byte elsewhere may be written before or after. -/
theorem store64_update {m : Mem} {a addr : Nat} {v : BitVec 64} {c : BitVec 8}
    (h : ¬ (a ≤ addr ∧ addr < a + 8)) :
    store64 (Function.update m addr c) a v = Function.update (store64 m a v) addr c := by
  funext x
  unfold store64
  by_cases hx : x = addr
  · subst hx
    rw [if_neg h, Function.update_self, Function.update_self]
  · rw [Function.update_of_ne hx, Function.update_of_ne hx]

end ByteMem

namespace TwoKernel

open ByteMem Chain

variable {hhdm count : Word} {s x y : Phys} {b : Block} {l l₁ l₂ : List Block} {addr : Nat}

namespace Phys

/-! ## Stores of clients -/

private theorem field_write (hb : b.Ok hhdm) (ha : addr / 4096 ≠ b.start) (value : Byte)
    (f : FreeListField) :
    (s.write addr value).field hhdm f (b.node hhdm) = s.field hhdm f (b.node hhdm) := by
  apply field_congr hb
  intro z hz
  apply Function.update_of_ne
  rintro rfl
  exact ha hz

private theorem setField_write (hb : b.Ok hhdm) (ha : addr / 4096 ≠ b.start) (value : Byte)
    (f : FreeListField) (v : Word) :
    (s.write addr value).setField hhdm f (b.node hhdm) v =
      (s.setField hhdm f (b.node hhdm) v).write addr value := by
  have hout : ¬ (physOf hhdm (b.node hhdm) + f.offset ≤ addr ∧
      addr < physOf hhdm (b.node hhdm) + f.offset + 8) := by
    rw [physOf_node]
    intro hin
    exact ha (hb.header_subset f hin)
  unfold setField Phys.write
  dsimp only
  rw [store64_update hout]

/-- The node that is taken out of the list is not written. -/
theorem unlink_field (st : Stock hhdm) (hst : st.blocks = l₁ ++ b :: l₂)
    (h : s.Holds hhdm st.blocks) (f : FreeListField) :
    (s.unlink hhdm (lastNode hhdm 0 l₁) (b.node hhdm)).field hhdm f (b.node hhdm) =
      s.field hhdm f (b.node hhdm) := by
  have hbm : b ∈ st.blocks := by
    rw [hst]
    simp
  have hap : Block.Apart (b :: (l₁ ++ l₂)) := st.apart.perm (hst ▸ List.perm_middle)
  apply field_congr (st.ok b hbm)
  apply (unlink_holds hst h).2.mono
  rintro z hz ⟨c, hc, hzc⟩
  have hzb : z / 4096 = b.start := hz
  apply Set.disjoint_left.mp ((List.pairwise_cons.mp hap).1 c (List.mem_append_left _ hc))
    Block.start_mem_foot
  rw [← hzb, hzc]
  exact Block.start_mem_foot

private theorem unlink_write (st : Stock hhdm) (hst : st.blocks = l₁ ++ b :: l₂)
    (ha : ∀ c ∈ st.blocks, addr / 4096 ≠ c.start) (value : Byte) :
    (s.write addr value).unlink hhdm (lastNode hhdm 0 l₁) (b.node hhdm) =
      (s.unlink hhdm (lastNode hhdm 0 l₁) (b.node hhdm)).write addr value := by
  have hbm : b ∈ st.blocks := by
    rw [hst]
    simp
  unfold unlink
  rw [field_write (st.ok b hbm) (ha b hbm)]
  rcases List.eq_nil_or_concat' l₁ with rfl | ⟨k, a, rfl⟩
  · rw [if_neg (by simp [lastNode]), if_neg (by simp [lastNode])]
    rfl
  · have ham : a ∈ st.blocks := by
      rw [hst]
      simp
    have hlast : lastNode hhdm 0 (k ++ [a]) = a.node hhdm := by simp [lastNode]
    rw [hlast, if_pos (st.ok a ham).node_ne, if_pos (st.ok a ham).node_ne,
      setField_write (st.ok a ham) (ha a ham)]

end Phys

namespace Shared

/-! ## What a call has done so far -/

/-- The scan is at `curr`, and the blocks it has passed are too short. -/
def AtNode (hhdm count : Word) (l : List Block) (x : Phys) (prev curr : Word) : Prop :=
  ∃ l₁ l₂, l = l₁ ++ l₂ ∧ prev = Phys.lastNode hhdm 0 l₁ ∧
    Linked (x.nextNode hhdm) (ptr curr) (l₂.map (Block.node hhdm)) ∧ ∀ c ∈ l₁, ¬ count ≤ c.numPages

/-- The scan has stopped at the block `b`. -/
structure AtFit (hhdm count : Word) (l l₁ : List Block) (b : Block) (l₂ : List Block) : Prop where
  list : l = l₁ ++ b :: l₂
  fits : count ≤ b.numPages
  first : ∀ c ∈ l₁, ¬ count ≤ c.numPages

/-- The statements of `push_list` before one of them. -/
def PushStmt.before : PushStmt → List PushStmt
  | .pa => []
  | .numPages => [.pa]
  | .next => [.pa, .numPages]
  | .head => [.pa, .numPages, .next]

/-- What `push_list` has done before a statement of it. -/
def pushed (hhdm phys pageAmount : Word) (s : Phys) (stmt : PushStmt) : Phys :=
  stmt.before.foldl (Pool.pushStmt hhdm phys pageAmount) s

/-- What is left of `b` beyond `count` pages is pushed. -/
def carved (hhdm count : Word) (b : Block) (s : Phys) : Phys :=
  if count < b.numPages then s.pushList hhdm (b.pa + count * pageSize) (b.numPages - count) else s

/-- A call that is at a point has made `y` of `x`. `l` is the free list. -/
def Midway (hhdm : Word) (l : List Block) (x y : Phys) : Request → PmmPoint → Prop
  | .alloc _, .first => y = x
  | .alloc count, .loop prev curr => y = x ∧ AtNode hhdm count l x prev curr
  | .alloc count, .fits prev curr => y = x ∧ AtNode hhdm count l x prev curr ∧ curr ≠ 0
  | .alloc count, .advance prev curr =>
    y = x ∧ AtNode hhdm count l x prev curr ∧ curr ≠ 0 ∧ ¬ count ≤ x.field hhdm .numPages curr
  | .alloc count, .unlink prev curr => y = x ∧ ∃ l₁ b l₂, AtFit hhdm count l l₁ b l₂ ∧
    prev = Phys.lastNode hhdm 0 l₁ ∧ curr = b.node hhdm
  | .alloc count, .rest curr => ∃ l₁ b l₂, AtFit hhdm count l l₁ b l₂ ∧ curr = b.node hhdm ∧
    y = x.unlink hhdm (Phys.lastNode hhdm 0 l₁) curr
  | .alloc count, .push stmt phys pageAmount curr => ∃ l₁ b l₂, AtFit hhdm count l l₁ b l₂ ∧
    curr = b.node hhdm ∧ count < b.numPages ∧ phys = b.pa + count * pageSize ∧
    pageAmount = b.numPages - count ∧
    y = pushed hhdm phys pageAmount (x.unlink hhdm (Phys.lastNode hhdm 0 l₁) curr) stmt
  | .alloc count, .count curr => ∃ l₁ b l₂, AtFit hhdm count l l₁ b l₂ ∧ curr = b.node hhdm ∧
    y = carved hhdm count b (x.unlink hhdm (Phys.lastNode hhdm 0 l₁) curr)
  | .free _ _, .first => y = x
  | .free physMem count, .push stmt phys pageAmount _ => phys = physMem ∧ pageAmount = count ∧
    x.gRefAlloc ≠ 0 ∧ y = pushed hhdm physMem count x stmt
  | .free physMem count, .count _ => x.gRefAlloc ≠ 0 ∧ y = x.pushList hhdm physMem count
  | .free _ _, _ => False

/-- The pages that a call stores to. -/
def ground {usable : Set Nat} (a : Arena hhdm usable) : Request → Set Nat
  | .alloc _ => a.stock.pool
  | .free physMem count => (Block.mk physMem count).foot

/-- A call that clients may make of the allocator in the state `a`. -/
def Request.Ok {usable : Set Nat} (a : Arena hhdm usable) : Request → Prop
  | .alloc count => count ≠ 0
  | .free physMem count => ⟨physMem, count⟩ ∈ a.live

variable {usable : Set Nat} {a : Arena hhdm usable} {r : Request} {t : PmmPoint}

/-! ## Stores of clients during a call -/

private theorem pushStmt_write {phys n : Word} (hb : (Block.mk phys n).Ok hhdm)
    (ha : addr / 4096 ≠ (Block.mk phys n).start) (value : Byte) (stmt : PushStmt) :
    Pool.pushStmt hhdm phys n (s.write addr value) stmt =
      (Pool.pushStmt hhdm phys n s stmt).write addr value := by
  cases stmt with
  | pa => exact Phys.setField_write hb ha value .pa phys
  | numPages => exact Phys.setField_write hb ha value .numPages n
  | next => exact Phys.setField_write hb ha value .next s.freelistHead
  | head => rfl

private theorem pushStmts_write {phys n : Word} (hb : (Block.mk phys n).Ok hhdm)
    (ha : addr / 4096 ≠ (Block.mk phys n).start) (value : Byte) (stmts : List PushStmt) :
    stmts.foldl (Pool.pushStmt hhdm phys n) (s.write addr value) =
      (stmts.foldl (Pool.pushStmt hhdm phys n) s).write addr value := by
  induction stmts generalizing s with
  | nil => rfl
  | cons stmt stmts ih =>
    rw [List.foldl_cons, List.foldl_cons, pushStmt_write hb ha, ih]

/-- All of `push_list`. -/
theorem pushList_eq (phys n : Word) (s : Phys) : s.pushList hhdm phys n =
    [PushStmt.pa, .numPages, .next, .head].foldl (Pool.pushStmt hhdm phys n) s := rfl

private theorem pushList_write {phys n : Word} (hb : (Block.mk phys n).Ok hhdm)
    (ha : addr / 4096 ≠ (Block.mk phys n).start) (value : Byte) :
    (s.write addr value).pushList hhdm phys n = (s.pushList hhdm phys n).write addr value := by
  rw [pushList_eq, pushStmts_write hb ha, pushList_eq]

/-- What is left of a free block can be stored, in pages of that block. -/
theorem AtFit.remainder (h : AtFit hhdm count a.free l₁ b l₂) (hlt : count < b.numPages) :
    (Block.mk (b.pa + count * pageSize) (b.numPages - count)).Ok hhdm ∧
      (Block.mk (b.pa + count * pageSize) (b.numPages - count)).start ∈ a.stock.pool := by
  have hbm : b ∈ a.free := by
    rw [h.list]
    simp
  have hb : b.Ok hhdm := a.ok b (List.mem_append_left _ hbm)
  have hrem : b.remainder count = [⟨b.pa + count * pageSize, b.numPages - count⟩] := if_pos hlt
  have hmem : Block.mk (b.pa + count * pageSize) (b.numPages - count) ∈ b.remainder count := by
    rw [hrem]
    exact List.mem_singleton_self _
  refine ⟨(Block.mem_remainder hb hmem).1, b, hbm, ?_⟩
  exact Block.foot_split_subset hb h.fits _ (List.mem_cons_of_mem _ hmem) Block.start_mem_foot

/-- A page outside the free blocks is not the first one of any. -/
theorem ne_start (ha : addr / 4096 ∉ a.stock.pool) : ∀ c ∈ a.stock.blocks, addr / 4096 ≠ c.start := by
  intro c hc heq
  exact ha ⟨c, hc, heq ▸ Block.start_mem_foot⟩

private theorem AtFit.carved_write (h : AtFit hhdm count a.free l₁ b l₂) (ha : addr / 4096 ∉ a.stock.pool)
    (value : Byte) :
    carved hhdm count b (s.write addr value) = (carved hhdm count b s).write addr value := by
  unfold carved
  by_cases hlt : count < b.numPages
  · obtain ⟨hok, hpool⟩ := h.remainder hlt
    rw [if_pos hlt, if_pos hlt]
    exact pushList_write hok (fun heq => ha (heq ▸ hpool)) value
  · rw [if_neg hlt, if_neg hlt]

theorem AtNode.write {prev curr : Word} (h : AtNode hhdm count a.free x prev curr)
    (ha : addr / 4096 ∉ a.stock.pool) (value : Byte) :
    AtNode hhdm count a.free (x.write addr value) prev curr := by
  obtain ⟨l₁, l₂, hl, hprev, hlinked, hnot⟩ := h
  refine ⟨l₁, l₂, hl, hprev, ?_, hnot⟩
  apply hlinked.congr
  intro z hz
  obtain ⟨c, hc, rfl⟩ := List.mem_map.mp hz
  have hcm : c ∈ a.stock.blocks := by
    show c ∈ a.free
    rw [hl]
    exact List.mem_append_right _ hc
  exact congrArg ptr (Phys.field_write (a.stock.ok c hcm) (ne_start ha c hcm) value .next)

/-- The node that a scan is at is one of the list. -/
theorem AtNode.exists_block {prev curr : Word} (h : AtNode hhdm count a.free x prev curr)
    (hne : curr ≠ 0) : ∃ l₁ b l₂, a.free = l₁ ++ b :: l₂ ∧ prev = Phys.lastNode hhdm 0 l₁ ∧
      curr = b.node hhdm ∧
      Linked (x.nextNode hhdm) (ptr (x.field hhdm .next curr)) (l₂.map (Block.node hhdm)) ∧
      ∀ c ∈ l₁, ¬ count ≤ c.numPages := by
  obtain ⟨l₁, l₂, hl, hprev, hlinked, hnot⟩ := h
  rw [ptr_of_ne hne] at hlinked
  cases l₂ with
  | nil => exact absurd hlinked (Option.some_ne_none curr)
  | cons b l₂ =>
    obtain ⟨hcurr, hlinked⟩ := hlinked
    have hcurr : curr = b.node hhdm := Option.some.inj hcurr
    refine ⟨l₁, b, l₂, hl, hprev, hcurr, ?_, hnot⟩
    rw [hcurr]
    exact hlinked

/-- **A client's store commutes with a call under way.** -/
theorem Midway.write (h : Midway hhdm a.free x y r t) (hr : r.Ok a) (hpool : addr / 4096 ∉ a.stock.pool)
    (hground : addr / 4096 ∉ ground a r) (value : Byte) :
    Midway hhdm a.free (x.write addr value) (y.write addr value) r t := by
  have hne := ne_start hpool
  have hok : ∀ b ∈ a.free, b.Ok hhdm := fun b hb => a.ok b (List.mem_append_left _ hb)
  cases r with
  | alloc count =>
    cases t with
    | first => exact congrArg (Phys.write addr value) h
    | loop prev curr => exact ⟨congrArg (Phys.write addr value) h.1, h.2.write hpool value⟩
    | fits prev curr => exact ⟨congrArg (Phys.write addr value) h.1, h.2.1.write hpool value, h.2.2⟩
    | advance prev curr =>
      obtain ⟨hy, hat, hcurr, hshort⟩ := h
      obtain ⟨l₁, b, l₂, hl, -, rfl, -, -⟩ := hat.exists_block hcurr
      have hbm : b ∈ a.free := by
        rw [hl]
        simp
      refine ⟨congrArg (Phys.write addr value) hy, hat.write hpool value, hcurr, ?_⟩
      rw [Phys.field_write (hok b hbm) (hne b hbm)]
      exact hshort
    | unlink prev curr => exact ⟨congrArg (Phys.write addr value) h.1, h.2⟩
    | rest curr =>
      obtain ⟨l₁, b, l₂, hfit, rfl, rfl⟩ := h
      exact ⟨l₁, b, l₂, hfit, rfl, (Phys.unlink_write a.stock hfit.list hne value).symm⟩
    | push stmt phys pageAmount curr =>
      obtain ⟨l₁, b, l₂, hfit, rfl, hlt, rfl, rfl, rfl⟩ := h
      obtain ⟨hrok, hrpool⟩ := hfit.remainder hlt
      refine ⟨l₁, b, l₂, hfit, rfl, hlt, rfl, rfl, ?_⟩
      rw [Phys.unlink_write a.stock hfit.list hne value]
      refine (pushStmts_write hrok ?_ value stmt.before).symm
      exact fun heq => hpool (heq ▸ hrpool)
    | count curr =>
      obtain ⟨l₁, b, l₂, hfit, rfl, rfl⟩ := h
      refine ⟨l₁, b, l₂, hfit, rfl, ?_⟩
      rw [Phys.unlink_write a.stock hfit.list hne value]
      exact (hfit.carved_write hpool value).symm
  | free physMem count =>
    have hb : (Block.mk physMem count).Ok hhdm := a.ok _ (List.mem_append_right _ hr)
    have hstart : addr / 4096 ≠ (Block.mk physMem count).start :=
      fun heq => hground (heq ▸ Block.start_mem_foot)
    cases t with
    | first => exact congrArg (Phys.write addr value) h
    | push stmt phys pageAmount curr =>
      obtain ⟨hphys, hn, hz, rfl⟩ := h
      exact ⟨hphys, hn, hz, (pushStmts_write hb hstart value stmt.before).symm⟩
    | count curr =>
      obtain ⟨hz, rfl⟩ := h
      exact ⟨hz, (pushList_write hb hstart value).symm⟩
    | loop | fits | advance | unlink | rest => exact h.elim

/-! ## The statements of a call -/

variable {c : Clients} {log : List (PmmCall × Word)}

/-- What one more statement of a call has come to: the call goes on, with its effect on `c` still to
come, or it has taken effect. -/
inductive Progress (hhdm : Word) (l : List Block) (c : Clients) (log : List (PmmCall × Word))
    (r : Request) : Pool × (PmmPoint ⊕ Answer) → Prop
  | goes {y : Phys} {t : PmmPoint} : Midway hhdm l c.phys y r t →
      Progress hhdm l c log r (⟨⟨y, c.out⟩, log⟩, .inl t)
  | took {c' : Clients} (ans : Answer) : ans.place = log.length → c.Allowed r.call →
      answer hhdm c r.call = .ok ans.logged → c.next hhdm r.call = .ok c' →
      ans.logged = (if ans.curr = 0 then 0 else ans.curr - hhdm) →
      (ans.curr ≠ 0 → ans.logged ≠ 0 ∧ c'.phys.field hhdm .pa ans.curr = ans.logged) →
      Progress hhdm l c log r (⟨c', log ++ [(r.call, ans.logged)]⟩, .inr ans)

/-- The whole of an `alloc` that finds no block. -/
theorem alloc_of_end (hx : c.phys.Backs hhdm a) {prev : Word}
    (h : AtNode hhdm count a.free c.phys prev 0) : c.phys.alloc hhdm count = .ok (0, c.phys) := by
  obtain ⟨l₁, l₂, hl, -, hlinked, hnot⟩ := h
  cases l₂ with
  | cons b l₂ => exact absurd hlinked.1 (by simp [ptr])
  | nil =>
    rw [List.append_nil] at hl
    subst hl
    have hlen : a.stock.blocks.length < walkFuel := hx.holds.length_lt
    exact Phys.scan_none hx.holds.numPages hnot hlen hx.holds.chain

/-- The whole of an `alloc` that stops at `b`. -/
theorem AtFit.alloc (hx : c.phys.Backs hhdm a) (h : AtFit hhdm count a.free l₁ b l₂) :
    c.phys.alloc hhdm count =
      .ok (c.phys.take hhdm count (Phys.lastNode hhdm 0 l₁) (b.node hhdm)) := by
  have hlen : a.stock.blocks.length < walkFuel := hx.holds.length_lt
  have hlist : a.stock.blocks = l₁ ++ b :: l₂ := h.list
  rw [hlist, List.length_append] at hlen
  exact Phys.scan_some (h.list ▸ hx.holds.numPages) h.first h.fits walkFuel 0 c.phys.freelistHead
    (by omega) (h.list ▸ hx.holds.chain)

/-- The two fields of the block that was taken out, as they are read later. -/
theorem AtFit.fields (hx : c.phys.Backs hhdm a) (h : AtFit hhdm count a.free l₁ b l₂) :
    (c.phys.unlink hhdm (Phys.lastNode hhdm 0 l₁) (b.node hhdm)).field hhdm .pa (b.node hhdm) =
        b.pa ∧
      (c.phys.unlink hhdm (Phys.lastNode hhdm 0 l₁) (b.node hhdm)).field hhdm .numPages
        (b.node hhdm) = b.numPages := by
  have hbm : b ∈ a.free := by
    rw [h.list]
    simp
  have hfield := Phys.unlink_field a.stock h.list hx.holds
  exact ⟨(hfield .pa).trans (hx.holds.pa b hbm), (hfield .numPages).trans (hx.holds.numPages b hbm)⟩

private theorem AtFit.carved_eq (hx : c.phys.Backs hhdm a) (h : AtFit hhdm count a.free l₁ b l₂) :
    carved hhdm count b (c.phys.unlink hhdm (Phys.lastNode hhdm 0 l₁) (b.node hhdm)) =
      (c.phys.unlink hhdm (Phys.lastNode hhdm 0 l₁) (b.node hhdm)).pushRest hhdm count
        (b.node hhdm) := by
  obtain ⟨hpa, hnum⟩ := h.fields hx
  unfold carved Phys.pushRest
  rw [hpa, hnum]

/-- The last statement of an `alloc` that stopped at `b` makes of the memory what all of it does. -/
theorem AtFit.counted (hx : c.phys.Backs hhdm a) (h : AtFit hhdm count a.free l₁ b l₂)
    (hcount : count ≠ 0) :
    Progress hhdm a.free c log (.alloc count) (Pool.stmt hhdm (.alloc count)
      ⟨⟨carved hhdm count b (c.phys.unlink hhdm (Phys.lastNode hhdm 0 l₁) (b.node hhdm)), c.out⟩, log⟩
      (.count (b.node hhdm))) := by
  rw [h.carved_eq hx]
  have hst : a.stock.blocks = l₁ ++ b :: l₂ := h.list
  obtain ⟨hanswer, -⟩ := Phys.take_spec hst h.fits hx.holds
  have halloc := h.alloc hx
  have hbm : b ∈ a.free := by
    rw [h.list]
    simp
  have hbok : b.Ok hhdm := a.ok b (List.mem_append_left _ hbm)
  refine Progress.took ⟨b.node hhdm, _, _⟩ rfl hcount ?_ ?_ ?_ ?_
  · show (fun r => r.1) <$> c.phys.alloc hhdm count = _
    rw [halloc]
    rfl
  · show (c.phys.alloc hhdm count >>= _) = _
    rw [halloc]
    rfl
  · show (c.phys.take hhdm count (Phys.lastNode hhdm 0 l₁) (b.node hhdm)).1 = _
    rw [hanswer, if_neg hbok.node_ne]
    exact (BitVec.add_sub_cancel _ _).symm
  · intro _
    refine ⟨?_, rfl⟩
    show (c.phys.take hhdm count (Phys.lastNode hhdm 0 l₁) (b.node hhdm)).1 ≠ 0
    rw [hanswer]
    exact hbok.pa_ne

private theorem Midway.stmt_alloc (hx : c.phys.Backs hhdm a) (hcount : count ≠ 0)
    (h : Midway hhdm a.free c.phys y (.alloc count) t) :
    Progress hhdm a.free c log (.alloc count) (Pool.stmt hhdm (.alloc count) ⟨⟨y, c.out⟩, log⟩ t) := by
  cases t with
  | first =>
    have hy : y = c.phys := h
    subst hy
    exact .goes ⟨rfl, [], a.free, rfl, rfl, hx.holds.chain, by simp⟩
  | loop prev curr =>
    obtain ⟨rfl, hat⟩ := h
    by_cases hcurr : curr = 0
    · subst hcurr
      have halloc := alloc_of_end hx hat
      have hstmt : Pool.stmt hhdm (.alloc count) ⟨⟨c.phys, c.out⟩, log⟩ (.loop prev 0) =
          (⟨c, log ++ [(.alloc count, 0)]⟩, .inr ⟨0, 0, log.length⟩) := rfl
      rw [hstmt]
      refine .took ⟨0, 0, _⟩ rfl hcount ?_ ?_ rfl fun hne => absurd rfl hne
      · show (fun r => r.1) <$> c.phys.alloc hhdm count = _
        rw [halloc]
        rfl
      · show (c.phys.alloc hhdm count >>= _) = _
        rw [halloc]
        rfl
    · have hstmt : Pool.stmt hhdm (.alloc count) ⟨⟨c.phys, c.out⟩, log⟩ (.loop prev curr) =
          (⟨⟨c.phys, c.out⟩, log⟩, .inl (.fits prev curr)) := if_neg hcurr
      rw [hstmt]
      exact .goes ⟨rfl, hat, hcurr⟩
  | fits prev curr =>
    obtain ⟨rfl, hat, hcurr⟩ := h
    by_cases hfits : count ≤ c.phys.field hhdm .numPages curr
    · have hstmt : Pool.stmt hhdm (.alloc count) ⟨⟨c.phys, c.out⟩, log⟩ (.fits prev curr) =
          (⟨⟨c.phys, c.out⟩, log⟩, .inl (.unlink prev curr)) := if_pos hfits
      rw [hstmt]
      obtain ⟨l₁, b, l₂, hl, hprev, rfl, -, hnot⟩ := hat.exists_block hcurr
      have hbm : b ∈ a.free := by
        rw [hl]
        simp
      rw [hx.holds.numPages b hbm] at hfits
      exact .goes ⟨rfl, l₁, b, l₂, ⟨hl, hfits, hnot⟩, hprev, rfl⟩
    · have hstmt : Pool.stmt hhdm (.alloc count) ⟨⟨c.phys, c.out⟩, log⟩ (.fits prev curr) =
          (⟨⟨c.phys, c.out⟩, log⟩, .inl (.advance prev curr)) := if_neg hfits
      rw [hstmt]
      exact .goes ⟨rfl, hat, hcurr, hfits⟩
  | advance prev curr =>
    obtain ⟨rfl, hat, hcurr, hshort⟩ := h
    obtain ⟨l₁, b, l₂, hl, -, rfl, hlinked, hnot⟩ := hat.exists_block hcurr
    have hbm : b ∈ a.free := by
      rw [hl]
      simp
    rw [hx.holds.numPages b hbm] at hshort
    refine .goes ⟨rfl, l₁ ++ [b], l₂, by rw [hl]; simp, by simp [Phys.lastNode], hlinked, ?_⟩
    intro d hd
    rcases List.mem_append.mp hd with hd | hd
    · exact hnot d hd
    · rw [List.mem_singleton.mp hd]
      exact hshort
  | unlink prev curr =>
    obtain ⟨rfl, l₁, b, l₂, hfit, rfl, rfl⟩ := h
    exact .goes ⟨l₁, b, l₂, hfit, rfl, rfl⟩
  | rest curr =>
    obtain ⟨l₁, b, l₂, hfit, rfl, rfl⟩ := h
    obtain ⟨hpa, hnum⟩ := hfit.fields hx
    by_cases hlt : count < b.numPages
    · have hstmt : Pool.stmt hhdm (.alloc count)
          ⟨⟨c.phys.unlink hhdm (Phys.lastNode hhdm 0 l₁) (b.node hhdm), c.out⟩, log⟩
          (.rest (b.node hhdm)) =
          (⟨⟨c.phys.unlink hhdm (Phys.lastNode hhdm 0 l₁) (b.node hhdm), c.out⟩, log⟩,
            .inl (.push .pa (b.pa + count * pageSize) (b.numPages - count) (b.node hhdm))) := by
        unfold Pool.stmt Request.count
        dsimp only
        rw [hpa, hnum, if_pos hlt]
      rw [hstmt]
      exact .goes ⟨l₁, b, l₂, hfit, rfl, hlt, rfl, rfl, rfl⟩
    · have hstmt : Pool.stmt hhdm (.alloc count)
          ⟨⟨c.phys.unlink hhdm (Phys.lastNode hhdm 0 l₁) (b.node hhdm), c.out⟩, log⟩
          (.rest (b.node hhdm)) =
          (⟨⟨c.phys.unlink hhdm (Phys.lastNode hhdm 0 l₁) (b.node hhdm), c.out⟩, log⟩,
            .inl (.count (b.node hhdm))) := by
        unfold Pool.stmt Request.count
        dsimp only
        rw [hnum, if_neg hlt]
      rw [hstmt]
      exact .goes ⟨l₁, b, l₂, hfit, rfl, (if_neg hlt).symm⟩
  | push stmt phys pageAmount curr =>
    obtain ⟨l₁, b, l₂, hfit, rfl, hlt, rfl, rfl, rfl⟩ := h
    cases stmt with
    | pa | numPages | next => exact .goes ⟨l₁, b, l₂, hfit, rfl, hlt, rfl, rfl, rfl⟩
    | head => exact .goes ⟨l₁, b, l₂, hfit, rfl, (if_pos hlt).symm⟩
  | count curr =>
    obtain ⟨l₁, b, l₂, hfit, rfl, rfl⟩ := h
    exact hfit.counted hx hcount

private theorem Midway.stmt_free (hx : c.phys.Backs hhdm a) (hout : a.live = c.out) {physMem : Word}
    (hlive : ⟨physMem, count⟩ ∈ a.live) (h : Midway hhdm a.free c.phys y (.free physMem count) t) :
    Progress hhdm a.free c log (.free physMem count)
      (Pool.stmt hhdm (.free physMem count) ⟨⟨y, c.out⟩, log⟩ t) := by
  cases t with
  | first =>
    have hy : y = c.phys := h
    subst hy
    -- something is handed out, so the counter is not zero
    have hz : c.phys.gRefAlloc ≠ 0 := by
      intro hzero
      have hcount := hx.count
      rw [hzero] at hcount
      have hpos := List.length_pos_of_mem hlive
      rw [← hcount] at hpos
      exact absurd hpos (by decide)
    have hstmt : Pool.stmt hhdm (.free physMem count) ⟨⟨c.phys, c.out⟩, log⟩ .first =
        (⟨⟨c.phys, c.out⟩, log⟩, .inl (.push .pa physMem count 0)) := if_neg hz
    rw [hstmt]
    exact .goes ⟨rfl, rfl, hz, rfl⟩
  | push stmt phys pageAmount curr =>
    obtain ⟨rfl, rfl, hz, rfl⟩ := h
    cases stmt with
    | pa | numPages | next => exact .goes ⟨rfl, rfl, hz, rfl⟩
    | head => exact .goes ⟨hz, rfl⟩
  | count curr =>
    obtain ⟨hz, rfl⟩ := h
    have hfree : c.phys.free hhdm physMem count = { c.phys.pushList hhdm physMem count with
        gRefAlloc := (c.phys.pushList hhdm physMem count).gRefAlloc - 1 } := if_neg hz
    have hallowed : c.Allowed (.free physMem count) := by
      show _ ∈ c.out
      rw [← hout]
      exact hlive
    refine Progress.took ⟨0, 0, _⟩ rfl hallowed rfl ?_ rfl fun hne => absurd rfl hne
    show Except.ok _ = _
    rw [hfree]
  | loop | fits | advance | unlink | rest => exact h.elim

/-- **One more statement.** -/
theorem Midway.stmt (hx : c.phys.Backs hhdm a) (hout : a.live = c.out) (hr : r.Ok a)
    (h : Midway hhdm a.free c.phys y r t) :
    Progress hhdm a.free c log r (Pool.stmt hhdm r ⟨⟨y, c.out⟩, log⟩ t) := by
  cases r with
  | alloc count => exact h.stmt_alloc hx hr
  | free physMem count => exact h.stmt_free hx hout hr

private theorem pushStmt_eqOn {phys n : Word} (hb : (Block.mk phys n).Ok hhdm) (stmt : PushStmt) :
    Set.EqOn (Pool.pushStmt hhdm phys n s stmt).mem s.mem
      (pageBytes {(Block.mk phys n).start})ᶜ := by
  cases stmt with
  | pa => exact Phys.setField_eqOn hb .pa _
  | numPages => exact Phys.setField_eqOn hb .numPages _
  | next => exact Phys.setField_eqOn hb .next _
  | head => exact fun _ _ => rfl

private theorem Midway.stmt_alloc_eqOn (hx : c.phys.Backs hhdm a)
    (h : Midway hhdm a.free c.phys y (.alloc count) t) (out : List Block) :
    Set.EqOn (Pool.stmt hhdm (.alloc count) ⟨⟨y, out⟩, log⟩ t).1.phys.mem y.mem
      (pageBytes a.stock.pool)ᶜ := by
  have hsame : Set.EqOn y.mem y.mem (pageBytes a.stock.pool)ᶜ := fun _ _ => rfl
  cases t with
  | first | advance | count => exact hsame
  | loop | fits | rest =>
    unfold Pool.stmt
    dsimp only
    split
    · exact hsame
    · exact hsame
  | unlink prev curr =>
    obtain ⟨rfl, l₁, b, l₂, hfit, rfl, rfl⟩ := h
    have hlist : a.stock.blocks = l₁ ++ b :: l₂ := hfit.list
    apply (Phys.unlink_holds hlist hx.holds).2.mono
    apply Set.compl_subset_compl.mpr
    apply pageBytes_mono
    rintro p ⟨d, hd, rfl⟩
    refine ⟨d, ?_, Block.start_mem_foot⟩
    rw [hlist]
    exact List.mem_append_left _ hd
  | push stmt phys pageAmount curr =>
    obtain ⟨l₁, b, l₂, hfit, rfl, hlt, rfl, rfl, -⟩ := h
    obtain ⟨hrok, hrpool⟩ := hfit.remainder hlt
    apply (pushStmt_eqOn hrok stmt).mono
    apply Set.compl_subset_compl.mpr
    apply pageBytes_mono
    rintro p rfl
    exact hrpool

/-- A statement stores to the ground of its call. -/
theorem Midway.stmt_eqOn (hx : c.phys.Backs hhdm a) (hr : r.Ok a)
    (h : Midway hhdm a.free c.phys y r t) (out : List Block) :
    Set.EqOn (Pool.stmt hhdm r ⟨⟨y, out⟩, log⟩ t).1.phys.mem y.mem (pageBytes (ground a r))ᶜ := by
  cases r with
  | alloc count => exact h.stmt_alloc_eqOn hx out
  | free physMem count =>
    have hb : (Block.mk physMem count).Ok hhdm := a.ok _ (List.mem_append_right _ hr)
    have hsame : Set.EqOn y.mem y.mem (pageBytes (ground a (.free physMem count)))ᶜ := fun _ _ => rfl
    cases t with
    | first =>
      unfold Pool.stmt
      dsimp only
      split
      · exact hsame
      · exact hsame
    | push stmt phys pageAmount curr =>
      obtain ⟨rfl, rfl, -, -⟩ := h
      apply (pushStmt_eqOn hb stmt).mono
      apply Set.compl_subset_compl.mpr
      apply pageBytes_mono
      rintro p rfl
      exact Block.start_mem_foot
    | count curr => exact hsame
    | loop | fits | advance | unlink | rest => exact h.elim

end Shared

end TwoKernel
