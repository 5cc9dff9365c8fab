import TwoKernel.Laws.Memory.Midway
import TwoKernel.Laws.Util.Processors

/-!
# Calls on many processors take effect one after the other

**The law** (`linearizable`). However the statements of `alloc` and `free` on any number of
processors interleave with each other, with interrupts and with the stores of clients, the log of
what took effect is one that the sequential allocator makes, answer by answer; whenever the lock is
free the memory is the sequential one, byte by byte; and every call that has taken effect, also one
that has returned since, has a place of its own in the log, where its answer is the one that it
returns (`Matched`). So every property of the sequential runs is one of these runs.

That what is returned is the answer in the log needs an argument of its own. `curr->pa` is read past
the `release`, so other calls may run before it is read; but the node is in a block that this call
reserves, no other call stores to it, and clients do not know of it yet.

`Tracks` is the invariant. Its `c` is the memory without the stores of the call under the lock.
-/

namespace TwoKernel.Shared

open ByteMem Smp

variable {P : Type} {hhdm : Word} {memmap : List MemmapEntry} {m m' : Machine P} {p q : P}
  {c : Clients} {a : Arena hhdm (usablePages memmap)} {act act' : Activation}
  {out out' : List Block} {s s' : Phys} {log log' : List (PmmCall × Word)}

theorem Replays.reachable (h : Replays hhdm memmap log c) :
    (Clients.runs hhdm memmap).Reachable c := by
  induction h with
  | init mem => exact .init ⟨mem, rfl⟩
  | step _ hallowed _ hnext ih => exact ih.step ⟨hallowed, hnext⟩

/-- An entry of a log stays where it is. -/
theorem entry_mono {k : Nat} {entry : PmmCall × Word} (hlog : log <+: log')
    (h : log[k]? = some entry) : log'[k]? = some entry := by
  obtain ⟨l, rfl⟩ := hlog
  rw [List.getElem?_append_left (List.getElem?_eq_some_iff.mp h).1]
  exact h

/-! ## The blocks that calls have -/

private theorem result_next {τ ρ : Type} {start : τ} {stage stage' : Stage τ ρ}
    (h : Stage.Next start stage stage') : result stage' = result stage := by
  cases h <;> rfl

/-- The block a call has is a matter of what it knows. -/
theorem reserves_congr {r : Request} {found found' w w' : Word} {stage stage' : Stage PmmPoint Answer}
    (h : result stage' = result stage) :
    reserves hhdm ⟨.call r found' stage', w'⟩ = reserves hhdm ⟨.call r found stage, w⟩ := by
  unfold reserves
  cases r with
  | alloc count =>
    dsimp only
    rw [h]
  | free physMem count =>
    dsimp only
    rw [h]

private theorem place_congr {r : Request} {found found' w w' : Word}
    {stage stage' : Stage PmmPoint Answer}
    (h : result stage' = result stage) :
    place ⟨.call r found' stage', w'⟩ = place ⟨.call r found stage, w⟩ :=
  congrArg (Option.map Answer.place) h

/-- What holds of each piece of code, whatever the others do. -/
structure Sits (hhdm : Word) (log : List (PmmCall × Word)) (out : List Block) (s : Phys)
    (act : Activation) : Prop where
  asked : ∀ count found stage, act.point = .call (.alloc count) found stage → count ≠ 0
  handed : ∀ b, reserves hhdm act = some b → b ∈ out
  answered : ∀ r found stage ans, act.point = .call r found stage →
    result stage = some ans → ans.logged = (if ans.curr = 0 then 0 else ans.curr - hhdm) ∧
      (ans.curr ≠ 0 → s.field hhdm .pa ans.curr = ans.curr - hhdm)
  freed : ∀ physMem count found stage ans, act.point = .call (.free physMem count) found stage →
    result stage = some ans → ans.curr = 0
  recorded : ∀ r found stage ans, act.point = .call r found stage → result stage = some ans →
    log[ans.place]? = some (r.call, ans.logged)

theorem Sits.outside (w : Word) : Sits hhdm log out s ⟨.outside, w⟩ where
  asked := by
    intro count found stage h
    cases h
  handed := by
    intro b h
    cases h
  answered := by
    intro r found stage ans h
    cases h
  freed := by
    intro physMem count found stage ans h
    cases h
  recorded := by
    intro r found stage ans h
    cases h

/-- A call has no answer at its first statement. -/
theorem Sits.called {r : Request} {found w : Word} (hasked : ∀ count, r = .alloc count → count ≠ 0)
    (hhanded : ∀ b, reserves hhdm ⟨.call r found .pushfq, w⟩ = some b → b ∈ out) :
    Sits hhdm log out s ⟨.call r found .pushfq, w⟩ where
  asked := by
    intro count found stage h
    cases h
    exact hasked count rfl
  handed := hhanded
  answered := by
    intro r found stage ans h hans
    cases h
    cases hans
  freed := by
    intro physMem count found stage ans h hans
    cases h
    cases hans
  recorded := by
    intro r found stage ans h hans
    cases h
    cases hans

theorem Sits.next {r : Request} {found w : Word} {stage stage' : Stage PmmPoint Answer}
    (h : Sits hhdm log out s ⟨.call r found stage, w⟩) (hres : result stage' = result stage) (w' : Word) :
    Sits hhdm log out s ⟨.call r found stage', w'⟩ where
  asked := by
    intro count found' stage'' hp
    cases hp
    exact h.asked count found stage rfl
  handed := by
    intro b hb
    rw [reserves_congr hres] at hb
    exact h.handed b hb
  answered := by
    intro r' found' stage'' ans hp hans
    cases hp
    exact h.answered r found stage ans rfl (hres.symm.trans hans)
  freed := by
    intro physMem count found' stage'' ans hp hans
    cases hp
    exact h.freed physMem count found stage ans rfl (hres.symm.trans hans)
  recorded := by
    intro r' found' stage'' ans hp hans
    cases hp
    exact h.recorded r found stage ans rfl (hres.symm.trans hans)

/-- A call that has no answer yet does not look at the memory. -/
theorem Sits.pending {r : Request} {found w : Word} {stage stage' : Stage PmmPoint Answer}
    (h : Sits hhdm log out s ⟨.call r found stage, w⟩) (hres : result stage = none)
    (hres' : result stage' = none) (s' : Phys) : Sits hhdm log out s' ⟨.call r found stage', w⟩ where
  asked := (h.next (hres'.trans hres.symm) w).asked
  handed := (h.next (hres'.trans hres.symm) w).handed
  answered := by
    intro r' found' stage'' ans hp hans
    cases hp
    rw [hres'] at hans
    cases hans
  freed := (h.next (hres'.trans hres.symm) w).freed
  recorded := (h.next (hres'.trans hres.symm) w).recorded

/-- The block that an answered `alloc` has is the one at its node. -/
theorem reserves_answered {count found w : Word} {stage : Stage PmmPoint Answer} {ans : Answer}
    (hans : result stage = some ans) (hcurr : ans.curr ≠ 0) :
    reserves hhdm ⟨.call (.alloc count) found stage, w⟩ = some ⟨ans.curr - hhdm, count⟩ := by
  unfold reserves
  dsimp only
  rw [hans]
  exact if_neg hcurr

/-- The memory and the blocks handed out change elsewhere. -/
theorem Sits.mono (h : Sits hhdm log out s act) (hok : ∀ b ∈ out, b.Ok hhdm)
    (hout : ∀ b, reserves hhdm act = some b → b ∈ out')
    (hmem : ∀ b, reserves hhdm act = some b → Set.EqOn s'.mem s.mem (pageBytes {b.start}))
    (hlog : log <+: log') : Sits hhdm log' out' s' act where
  asked := h.asked
  handed := hout
  freed := h.freed
  recorded r found stage ans hp hans := entry_mono hlog (h.recorded r found stage ans hp hans)
  answered := by
    intro r found stage ans hp hans
    obtain ⟨hlogged, hpa⟩ := h.answered r found stage ans hp hans
    refine ⟨hlogged, fun hcurr => ?_⟩
    cases r with
    | alloc count =>
      have hres : reserves hhdm act = some ⟨ans.curr - hhdm, count⟩ := by
        obtain ⟨point, w⟩ := act
        cases hp
        exact reserves_answered hans hcurr
      have hnode : (Block.mk (ans.curr - hhdm) count).node hhdm = ans.curr :=
        BitVec.sub_add_cancel _ _
      rw [← hpa hcurr, ← hnode]
      exact Phys.field_congr (hok _ (h.handed _ hres)) (hmem _ hres) .pa
    | free physMem count => exact absurd (h.freed physMem count found stage ans hp hans) hcurr

/-- What is returned is the answer in the log. -/
theorem Sits.returned_eq (h : Sits hhdm log out s act) {r : Request} {found : Word}
    {stage : Stage PmmPoint Answer} {ans : Answer} (hp : act.point = .call r found stage)
    (hans : result stage = some ans) : returned hhdm s ans = ans.logged := by
  obtain ⟨hlogged, hpa⟩ := h.answered r found stage ans hp hans
  unfold returned
  by_cases hcurr : ans.curr = 0
  · rw [if_pos hcurr, hlogged, if_pos hcurr]
  · rw [if_neg hcurr, hpa hcurr, hlogged, if_neg hcurr]

private theorem Sits.place_lt (h : Sits hhdm log out s act) {k : Nat} (hk : place act = some k) :
    k < log.length := by
  obtain ⟨point, w⟩ := act
  cases point with
  | outside => cases hk
  | call r found stage =>
    obtain ⟨ans, hans, rfl⟩ := Option.map_eq_some_iff.mp hk
    exact (List.getElem?_eq_some_iff.mp (h.recorded r found stage ans rfl hans)).1

/-! ### What is had by one call only

`f` is what a piece of code has, if it has any: its block, or its place in the log. -/

section Distinct

variable {β : Type} {f : Activation → Option β}

/-- Two pieces of code do not have the same. -/
def NoShare (f : Activation → Option β) (act act' : Activation) : Prop :=
  ∀ b, f act = some b → f act' ≠ some b

private theorem NoShare.symm (h : NoShare f act act') : NoShare f act' act :=
  fun b hb hb' => h b hb' hb

/-- No two calls have the same. -/
structure Distinct (f : Activation → Option β) (m : Machine P) : Prop where
  own : ∀ p, (m.cpus p).Pairwise (NoShare f)
  others : ∀ p q, p ≠ q → ∀ act ∈ m.cpus p, ∀ act' ∈ m.cpus q, NoShare f act act'

/-- Nobody has any. -/
theorem Distinct.of_none (h : ∀ q, ∀ act ∈ m.cpus q, f act = none) : Distinct f m := by
  refine ⟨fun q => ?_, fun q q' _ act hact act' _ b hb => ?_⟩
  · apply List.pairwise_of_forall_mem_list
    intro act hact act' _ b hb
    rw [h q act hact] at hb
    cases hb
  · rw [h q act hact] at hb
    cases hb

variable [DecidableEq P]

/-- The stack of `p` changes. What it has now it had before, or nobody had. -/
theorem Distinct.update (h : Distinct f m) {acts : List Activation}
    (hpair : acts.Pairwise (NoShare f))
    (hheir : ∀ act ∈ acts, ∀ b, f act = some b →
      (∃ act ∈ m.cpus p, f act = some b) ∨ ¬ ∃ q, ∃ act ∈ m.cpus q, f act = some b)
    (shared : Pool) (lock : IrqSpinLock) :
    Distinct f ⟨shared, lock, Function.update m.cpus p acts⟩ := by
  have hcross : ∀ q, q ≠ p → ∀ act ∈ acts, ∀ act' ∈ m.cpus q, NoShare f act act' := by
    intro q hq act hact act' hact' b hb hb'
    rcases hheir act hact b hb with ⟨old, hold, hob⟩ | hfresh
    · exact h.others p q hq.symm old hold act' hact' b hob hb'
    · exact hfresh ⟨q, act', hact', hb'⟩
  refine ⟨?_, ?_⟩
  · intro q
    dsimp only
    by_cases hq : q = p
    · subst hq
      rw [Function.update_self]
      exact hpair
    · rw [Function.update_of_ne hq]
      exact h.own q
  · intro q q' hne act hact act' hact'
    dsimp only at hact hact'
    by_cases hq : q = p
    · subst hq
      rw [Function.update_self] at hact
      rw [Function.update_of_ne hne.symm] at hact'
      exact hcross q' hne.symm act hact act' hact'
    · rw [Function.update_of_ne hq] at hact
      by_cases hq' : q' = p
      · subst hq'
        rw [Function.update_self] at hact'
        exact (hcross q hq act' hact' act hact).symm
      · rw [Function.update_of_ne hq'] at hact'
        exact h.others q q' hne act hact act' hact'

/-- The top of a stack changes. -/
theorem Distinct.top (h : Distinct f m) {below : List Activation} (hc : m.cpus p = act :: below)
    (hheir : ∀ b, f act' = some b → f act = some b ∨ ¬ ∃ q, ∃ act ∈ m.cpus q, f act = some b)
    (shared : Pool) (lock : IrqSpinLock) :
    Distinct f ⟨shared, lock, Function.update m.cpus p (act' :: below)⟩ := by
  have hown := h.own p
  rw [hc] at hown
  obtain ⟨hact, hbelow⟩ := List.pairwise_cons.mp hown
  refine h.update (List.pairwise_cons.mpr ⟨?_, hbelow⟩) ?_ shared lock
  · intro b hb blk hblk hshared
    rcases hheir blk hblk with hold | hfresh
    · exact hact b hb blk hold hshared
    · exact hfresh ⟨p, b, by rw [hc]; exact List.mem_cons_of_mem _ hb, hshared⟩
  · intro b hb blk hblk
    rcases List.mem_cons.mp hb with rfl | hb
    · rcases hheir blk hblk with hold | hfresh
      · exact .inl ⟨act, by rw [hc]; exact List.mem_cons_self, hold⟩
      · exact .inr hfresh
    · exact .inl ⟨b, by rw [hc]; exact List.mem_cons_of_mem _ hb, hblk⟩

/-- An interrupt puts code on top that has nothing. -/
theorem Distinct.cons (h : Distinct f m) (hnone : f act = none) (shared : Pool) (lock : IrqSpinLock) :
    Distinct f ⟨shared, lock, Function.update m.cpus p (act :: m.cpus p)⟩ := by
  have hnot : ∀ b, f act ≠ some b := by
    intro b hb
    rw [hnone] at hb
    cases hb
  refine h.update (List.pairwise_cons.mpr ⟨fun b _ x hx => absurd hx (hnot x), h.own p⟩) ?_ shared lock
  intro b hb x hx
  rcases List.mem_cons.mp hb with rfl | hb
  · exact absurd hx (hnot x)
  · exact .inl ⟨b, hb, hx⟩

/-- A handler is left. -/
theorem Distinct.tail (h : Distinct f m) {below : List Activation} (hc : m.cpus p = act :: below)
    (shared : Pool) (lock : IrqSpinLock) :
    Distinct f ⟨shared, lock, Function.update m.cpus p below⟩ := by
  have hown := h.own p
  rw [hc] at hown
  refine h.update (List.pairwise_cons.mp hown).2 (fun b hb x hx => ?_) shared lock
  exact .inl ⟨b, by rw [hc]; exact List.mem_cons_of_mem _ hb, hx⟩

end Distinct

variable [DecidableEq P]

/-! ## The invariant -/

/-- The call that is in the code under the lock. -/
def bodyOf (act : Activation) : Option (Request × PmmPoint) :=
  match act.point with
  | .call r _ (.body t) => some (r, t)
  | _ => none

private theorem holds_of_bodyOf {r : Request × PmmPoint} (h : bodyOf act = some r) :
    act.holds = true := by
  obtain ⟨point, w⟩ := act
  cases point with
  | outside => cases h
  | call r found stage =>
    cases stage with
    | body t => rfl
    | _ => cases h

private theorem bodyOf_of_unmasked (h : act.masked = false) : bodyOf act = none := by
  cases hb : bodyOf act with
  | none => rfl
  | some r =>
    rw [Activation.masked_of_holds (holds_of_bodyOf hb)] at h
    cases h

/-- **The invariant.** `c` is the sequential allocator after the log, and `a` what it stands for. -/
structure Tracks (hhdm : Word) (memmap : List MemmapEntry) (m : Machine P) (c : Clients)
    (a : Arena hhdm (usablePages memmap)) : Prop where
  replays : Replays hhdm memmap m.shared.log c
  out : m.shared.out = c.out
  backs : c.phys.Backs hhdm a
  live : a.live = c.out
  sits : ∀ p, ∀ act ∈ m.cpus p, Sits hhdm m.shared.log c.out m.shared.phys act
  distinct : Distinct (reserves hhdm) m
  places : Distinct place m
  under : ∀ p act below r t, m.cpus p = act :: below → bodyOf act = some (r, t) →
    Midway hhdm a.free c.phys m.shared.phys r t
  idle : (∀ p act below, m.cpus p = act :: below → bodyOf act = none) → m.shared.phys = c.phys

omit [DecidableEq P] in
theorem Tracks.block_ok (h : Tracks hhdm memmap m c a) : ∀ b ∈ c.out, b.Ok hhdm := by
  intro b hb
  rw [← h.live] at hb
  exact a.ok b (List.mem_append_right _ hb)

omit [DecidableEq P] in
/-- Two blocks that are handed out do not meet. -/
theorem Tracks.disjoint (h : Tracks hhdm memmap m c a) {b b' : Block} (hb : b ∈ c.out)
    (hb' : b' ∈ c.out) (hne : b ≠ b') : Disjoint b.foot b'.foot := by
  rw [← h.live] at hb hb'
  have hap : Block.Apart a.live := a.apart.sublist (List.sublist_append_right _ _)
  have hsymm : Std.Symm fun b c : Block => Disjoint b.foot c.foot := ⟨fun _ _ h => h.symm⟩
  exact hap.forall hb hb' hne

/-! ## The statements of the lock -/

omit [DecidableEq P] in
/-- While one processor has the lock, no other one is in the code of the allocator. -/
theorem bodyOf_of_ne {holder : Option P} (hs : m.Sound holder) {below below' : List Activation}
    (hc : m.cpus p = act :: below) (hh : act.holds = true) (hq : q ≠ p)
    (hcq : m.cpus q = act' :: below') : bodyOf act' = none := by
  cases hb : bodyOf act' with
  | none => rfl
  | some r =>
    have hp : holder = some p := (hs.holding p).mp ⟨act, by rw [hc]; rfl, hh⟩
    have hq' : holder = some q := (hs.holding q).mp ⟨act', by rw [hcq]; rfl, holds_of_bodyOf hb⟩
    exact absurd (Option.some.inj (hq'.symm.trans hp)) hq

omit [DecidableEq P] in
/-- While `p` has the lock outside the allocator's code, nobody is in that code. -/
theorem nobody {holder : Option P} (hs : m.Sound holder) {below : List Activation}
    (hc : m.cpus p = act :: below) (hh : act.holds = true) (hb : bodyOf act = none)
    (q : P) (act' : Activation) (below' : List Activation) (hc' : m.cpus q = act' :: below') :
    bodyOf act' = none := by
  by_cases hq : q = p
  · subst hq
    rw [hc] at hc'
    cases hc'
    exact hb
  · exact bodyOf_of_ne hs hc hh hq hc'

/-- The stack of `p` changes, and the shared state does not. -/
theorem Tracks.update (h : Tracks hhdm memmap m c a) (acts : List Activation) (lock : IrqSpinLock)
    (hsits : ∀ act ∈ acts, Sits hhdm m.shared.log c.out m.shared.phys act)
    (hdistinct : Distinct (reserves hhdm) ⟨m.shared, lock, Function.update m.cpus p acts⟩)
    (hplaces : Distinct place ⟨m.shared, lock, Function.update m.cpus p acts⟩)
    (hunder : ∀ act below r t, acts = act :: below → bodyOf act = some (r, t) →
      Midway hhdm a.free c.phys m.shared.phys r t)
    (hidle : (∀ act below, acts = act :: below → bodyOf act = none) →
      ∀ act below, m.cpus p = act :: below → bodyOf act = none) :
    Tracks hhdm memmap ⟨m.shared, lock, Function.update m.cpus p acts⟩ c a := by
  refine ⟨h.replays, h.out, h.backs, h.live, ?_, hdistinct, hplaces, ?_, ?_⟩
  · intro q act hact
    dsimp only at hact
    by_cases hq : q = p
    · subst hq
      rw [Function.update_self] at hact
      exact hsits act hact
    · rw [Function.update_of_ne hq] at hact
      exact h.sits q act hact
  · intro q act below r t hc
    dsimp only at hc
    by_cases hq : q = p
    · subst hq
      rw [Function.update_self] at hc
      exact hunder act below r t hc
    · rw [Function.update_of_ne hq] at hc
      exact h.under q act below r t hc
  · intro hnone
    dsimp only at hnone
    apply h.idle
    intro q
    by_cases hq : q = p
    · subst hq
      refine hidle ?_
      intro act below hc
      exact hnone q act below (by rw [Function.update_self]; exact hc)
    · intro act below hc
      exact hnone q act below (by rw [Function.update_of_ne hq]; exact hc)

/-- The top of the stack of `p` changes, and neither the old nor the new code is the allocator's. -/
theorem Tracks.top (h : Tracks hhdm memmap m c a) {below : List Activation}
    (hc : m.cpus p = act :: below) (lock : IrqSpinLock)
    (hsits : Sits hhdm m.shared.log c.out m.shared.phys act')
    (hheir : ∀ b, reserves hhdm act' = some b → reserves hhdm act = some b ∨ ¬ Reserved hhdm m b)
    (hplace : ∀ k, place act' = some k → place act = some k) (hbody : bodyOf act = none)
    (hbody' : bodyOf act' = none) :
    Tracks hhdm memmap ⟨m.shared, lock, Function.update m.cpus p (act' :: below)⟩ c a := by
  refine h.update _ lock ?_ (h.distinct.top hc hheir m.shared lock)
    (h.places.top hc (fun k hk => .inl (hplace k hk)) m.shared lock) ?_ ?_
  · intro b hb
    rcases List.mem_cons.mp hb with rfl | hb
    · exact hsits
    · exact h.sits p b (by rw [hc]; exact List.mem_cons_of_mem _ hb)
  · intro b below' r t hb hr
    cases hb
    rw [hbody'] at hr
    cases hr
  · intro _ b below' hb
    rw [hc] at hb
    cases hb
    exact hbody

/-- **What is not a statement of the allocator keeps the invariant.** -/
theorem Tracks.turn {holder holder' : Option P} (h : Tracks hhdm memmap m c a) (hs : m.Sound holder)
    {lock : IrqSpinLock} {acts : List Activation} {action : Action Request}
    (ht : Turn (Pool.code hhdm).start action (m.cpus p) acts)
    (hallowed : Allowed hhdm m (.cpu p action))
    (hs' : Smp.Machine.Sound ⟨m.shared, lock, Function.update m.cpus p acts⟩ holder') :
    Tracks hhdm memmap ⟨m.shared, lock, Function.update m.cpus p acts⟩ c a := by
  have hnone : ∀ {b : Block} {w : Word}, reserves hhdm ⟨.outside, w⟩ ≠ some b := by
    intro b w hb
    cases hb
  have hnoplace : ∀ {w : Word} {act : Activation} (k), place ⟨.outside, w⟩ = some k →
      place act = some k := by
    intro w act k hk
    cases hk
  have hold := h.sits p
  generalize hc : m.cpus p = old at ht hold
  cases ht with
  | interrupt act w below =>
    rw [← hc]
    refine h.update _ lock ?_ (h.distinct.cons rfl m.shared lock) (h.places.cons rfl m.shared lock) ?_ ?_
    · intro b hb
      rcases List.mem_cons.mp hb with rfl | hb
      · exact .outside w
      · exact hold b (hc ▸ hb)
    · intro b below' r t hb hr
      cases hb
      cases hr
    · -- the code that was interrupted is below the handler, so it is at an unmasked stage
      intro _ b below' hb
      rw [hc] at hb
      cases hb
      apply bodyOf_of_unmasked
      apply hs'.below p
      dsimp only
      rw [Function.update_self]
      exact List.mem_cons_self
  | iretq w act below =>
    refine h.update _ lock ?_ (h.distinct.tail hc m.shared lock) (h.places.tail hc m.shared lock) ?_ ?_
    · exact fun b hb => hold b (List.mem_cons_of_mem _ hb)
    · intro b below' r t hb hr
      cases hb
      have hlow := hs.below p _ (by rw [hc]; exact List.mem_cons_self)
      rw [bodyOf_of_unmasked hlow] at hr
      cases hr
    · intro _ b below' hb
      rw [hc] at hb
      cases hb
      rfl
  | setFlags w w' below =>
    exact h.top hc lock (.outside w') (fun b hb => absurd hb hnone) hnoplace rfl rfl
  | call r w below =>
    have hnothing : ∀ k, place ⟨.call r w .pushfq, w⟩ = some k → place ⟨.outside, w⟩ = some k := by
      intro k hk
      cases hk
    cases r with
    | alloc count =>
      refine h.top hc lock (.called ?_ ?_) ?_ hnothing rfl rfl
      · intro count' hr
        cases hr
        exact hallowed
      · intro b hb
        cases hb
      · intro b hb
        cases hb
    | free physMem count =>
      refine h.top hc lock (.called ?_ ?_) ?_ hnothing rfl rfl
      · intro count' hr
        cases hr
      · intro b hb
        cases hb
        rw [← h.out]
        exact hallowed.1
      · intro b hb
        cases hb
        exact .inr hallowed.2
  | stmt r found w w' below hnext =>
    have hres := result_next hnext
    have hsits := (hold _ List.mem_cons_self).next hres w'
    have hheir : ∀ b, reserves hhdm ⟨.call r found _, w'⟩ = some b →
        reserves hhdm ⟨.call r found _, w⟩ = some b ∨ ¬ Reserved hhdm m b := fun b hb =>
      .inl ((reserves_congr hres).symm.trans hb)
    have hplace : ∀ k, place ⟨.call r found _, w'⟩ = some k → place ⟨.call r found _, w⟩ = some k :=
      fun k hk => (place_congr hres).symm.trans hk
    cases hnext with
    | keep flags =>
      have hphys : m.shared.phys = c.phys := h.idle (nobody hs hc rfl rfl)
      refine h.update _ lock ?_ (h.distinct.top hc hheir m.shared lock)
        (h.places.top hc (fun k hk => .inl (hplace k hk)) m.shared lock) ?_ ?_
      · intro b hb
        rcases List.mem_cons.mp hb with rfl | hb
        · exact hsits
        · exact hold b (List.mem_cons_of_mem _ hb)
      · intro b below' r' t hb hr
        cases hb
        cases hr
        cases r with
        | alloc count => exact hphys
        | free physMem count => exact hphys
      · intro _ b below' hb
        rw [hc] at hb
        cases hb
        rfl
    | pushfq | cli | spin | got | reload | store | restore =>
      exact h.top hc lock hsits hheir hplace rfl rfl
  | ret r found w ans below =>
    exact h.top hc lock (.outside w) (fun b hb => absurd hb hnone) hnoplace rfl rfl

/-! ## The statements of the allocator -/

omit [DecidableEq P] in
theorem Tracks.request_ok (h : Tracks hhdm memmap m c a) {r : Request} {found w : Word}
    {stage : Stage PmmPoint Answer} (hact : ⟨.call r found stage, w⟩ ∈ m.cpus p)
    (hres : result stage = none) : r.Ok a := by
  have hsits := h.sits p _ hact
  cases r with
  | alloc count => exact hsits.asked count found stage rfl
  | free physMem count =>
    have hmem : Block.mk physMem count ∈ c.out := by
      apply hsits.handed
      unfold reserves
      dsimp only
      rw [hres]
    rw [← h.live] at hmem
    exact hmem

omit [DecidableEq P] in
/-- What a statement of a call stores leaves the blocks that other calls have. -/
theorem Tracks.elsewhere (h : Tracks hhdm memmap m c a) {r : Request} {found w : Word}
    {stage : Stage PmmPoint Answer} (hres : result stage = none)
    (hno : NoShare (reserves hhdm) ⟨.call r found stage, w⟩ act) (hsits : Sits hhdm log c.out s act)
    {mem mem' : Mem} (hr : r.Ok a) (hmem : Set.EqOn mem' mem (pageBytes (ground a r))ᶜ) :
    ∀ b, reserves hhdm act = some b → Set.EqOn mem' mem (pageBytes {b.start}) := by
  intro b hb
  have hout : b ∈ c.out := hsits.handed b hb
  apply hmem.mono
  intro x hx hground
  have hxb : x / 4096 = b.start := hx
  have hin : x / 4096 ∈ b.foot := hxb ▸ Block.start_mem_foot
  cases r with
  | alloc count =>
    rw [← h.live] at hout
    exact Set.disjoint_left.mp (a.clear_of_live hout) hin hground
  | free physMem count =>
    have hfreed : reserves hhdm ⟨.call (.free physMem count) found stage, w⟩ =
        some ⟨physMem, count⟩ := by
      unfold reserves
      dsimp only
      rw [hres]
    have hne : b ≠ ⟨physMem, count⟩ := by
      rintro rfl
      exact hno _ hfreed hb
    have hlive : Block.mk physMem count ∈ c.out := h.live ▸ hr
    exact Set.disjoint_left.mp (h.disjoint hout hlive hne) hin hground

/-- A call that goes on. -/
theorem Tracks.goes {holder : Option P} (h : Tracks hhdm memmap m c a) (hs : m.Sound holder)
    {r : Request} {found rflags : Word} {t t' : PmmPoint} {below : List Activation} {y : Phys}
    (hc : m.cpus p = ⟨.call r found (.body t), rflags⟩ :: below)
    (hmid : Midway hhdm a.free c.phys y r t')
    (hmem : Set.EqOn y.mem m.shared.phys.mem (pageBytes (ground a r))ᶜ) :
    Tracks hhdm memmap ⟨⟨⟨y, c.out⟩, m.shared.log⟩, m.lock,
      Function.update m.cpus p (⟨.call r found (.body t'), rflags⟩ :: below)⟩ c a := by
  have htop : ⟨.call r found (.body t), rflags⟩ ∈ m.cpus p := by
    rw [hc]
    exact List.mem_cons_self
  have hr := h.request_ok htop rfl
  have hrest : ∀ q act, act ∈ m.cpus q →
      NoShare (reserves hhdm) ⟨.call r found (.body t), rflags⟩ act →
      Sits hhdm m.shared.log c.out y act := by
    intro q act hact hno
    have hsits := h.sits q act hact
    exact hsits.mono h.block_ok hsits.handed (h.elsewhere rfl hno hsits hr hmem) (List.prefix_refl _)
  have hown := h.distinct.own p
  rw [hc] at hown
  refine ⟨h.replays, rfl, h.backs, h.live, ?_, ?_, ?_, ?_, ?_⟩
  · intro q act hact
    dsimp only at hact
    by_cases hq : q = p
    · subst hq
      rw [Function.update_self] at hact
      rcases List.mem_cons.mp hact with rfl | hact
      · exact (h.sits q _ htop).pending rfl rfl y
      · exact hrest q act (by rw [hc]; exact List.mem_cons_of_mem _ hact)
          ((List.pairwise_cons.mp hown).1 act hact)
    · rw [Function.update_of_ne hq] at hact
      exact hrest q act hact (h.distinct.others p q (Ne.symm hq) _ htop act hact)
  · refine h.distinct.top hc ?_ _ _
    intro b hb
    refine .inl (Eq.trans ?_ hb)
    exact reserves_congr rfl
  · refine h.places.top hc ?_ _ _
    intro k hk
    cases hk
  · intro q act below' r' t'' hcq hb
    dsimp only at hcq
    by_cases hq : q = p
    · subst hq
      rw [Function.update_self] at hcq
      cases hcq
      cases hb
      exact hmid
    · rw [Function.update_of_ne hq] at hcq
      rw [bodyOf_of_ne hs hc rfl hq hcq] at hb
      cases hb
  · intro hnone
    have hbody := hnone p ⟨.call r found (.body t'), rflags⟩ below (Function.update_self ..)
    cases hbody

/-- The blocks handed out after a request that was answered. -/
theorem next_alloc_out {count answered : Word} {c' : Clients}
    (hanswer : answer hhdm c (.alloc count) = .ok answered)
    (hnext : c.next hhdm (.alloc count) = .ok c') :
    c'.out = if answered = 0 then c.out else ⟨answered, count⟩ :: c.out := by
  obtain ⟨r, hr, hanswered⟩ := map_ok.mp hanswer
  obtain ⟨r', hr', hc'⟩ := bind_ok.mp hnext
  cases hr.symm.trans hr'
  cases hc'
  cases hanswered
  rfl

section took

variable {r : Request} {found rflags : Word} {t : PmmPoint} {below : List Activation}
  {c' : Clients} {ans : Answer}

/-- The block that another call has is still handed out. -/
theorem mem_next_out (hanswer : answer hhdm c r.call = .ok ans.logged)
    (hnext : c.next hhdm r.call = .ok c')
    (hno : NoShare (reserves hhdm) ⟨.call r found (.body t), rflags⟩ act) (hsits : Sits hhdm log c.out s act)
    (b : Block) (hb : reserves hhdm act = some b) : b ∈ c'.out := by
  have hout := hsits.handed b hb
  cases r with
  | alloc count =>
    rw [next_alloc_out hanswer hnext]
    split
    · exact hout
    · exact List.mem_cons_of_mem _ hout
  | free physMem count =>
    cases hnext
    refine (List.mem_erase_of_ne ?_).mpr hout
    rintro rfl
    exact hno _ rfl hb

/-- The block that the answer gives to the call is the first one handed out. -/
theorem next_out_of_reserves (hanswer : answer hhdm c r.call = .ok ans.logged)
    (hnext : c.next hhdm r.call = .ok c')
    (hlogged : ans.logged = if ans.curr = 0 then 0 else ans.curr - hhdm)
    (hfield : ans.curr ≠ 0 → ans.logged ≠ 0 ∧ c'.phys.field hhdm .pa ans.curr = ans.logged)
    {b : Block} (hb : reserves hhdm ⟨.call r found (.reload ans), rflags⟩ = some b) :
    c'.out = b :: c.out := by
  cases r with
  | alloc count =>
    by_cases hcurr : ans.curr = 0
    · unfold reserves at hb
      dsimp only [result] at hb
      rw [if_pos hcurr] at hb
      cases hb
    · rw [reserves_answered rfl hcurr] at hb
      cases hb
      rw [next_alloc_out hanswer hnext, if_neg (hfield hcurr).1, hlogged, if_neg hcurr]
  | free physMem count => cases hb

/-- **A call that takes effect.** The block in its answer is one that nobody had. -/
theorem Tracks.took {holder : Option P} (hm : MemmapOk hhdm memmap) (h : Tracks hhdm memmap m c a)
    (hs : m.Sound holder) (hc : m.cpus p = ⟨.call r found (.body t), rflags⟩ :: below)
    (hplace : ans.place = m.shared.log.length) (hallowed : c.Allowed r.call)
    (hanswer : answer hhdm c r.call = .ok ans.logged)
    (hnext : c.next hhdm r.call = .ok c')
    (hlogged : ans.logged = if ans.curr = 0 then 0 else ans.curr - hhdm)
    (hfield : ans.curr ≠ 0 → ans.logged ≠ 0 ∧ c'.phys.field hhdm .pa ans.curr = ans.logged)
    (hmem : Set.EqOn c'.phys.mem m.shared.phys.mem (pageBytes (ground a r))ᶜ) :
    ∃ a', Tracks hhdm memmap ⟨⟨c', m.shared.log ++ [(r.call, ans.logged)]⟩, m.lock,
      Function.update m.cpus p (⟨.call r found (.reload ans), rflags⟩ :: below)⟩ c' a' := by
  have htop : ⟨.call r found (.body t), rflags⟩ ∈ m.cpus p := by
    rw [hc]
    exact List.mem_cons_self
  have hr := h.request_ok htop rfl
  have hreplays := h.replays.step hallowed hanswer hnext
  obtain ⟨a', hbacks, hlive⟩ := Clients.backed hm hreplays.reachable
  have hrest : ∀ q act, act ∈ m.cpus q →
      NoShare (reserves hhdm) ⟨.call r found (.body t), rflags⟩ act →
      Sits hhdm (m.shared.log ++ [(r.call, ans.logged)]) c'.out c'.phys act := by
    intro q act hact hno
    have hsits := h.sits q act hact
    exact hsits.mono h.block_ok (mem_next_out hanswer hnext hno hsits)
      (h.elsewhere rfl hno hsits hr hmem) (List.prefix_append _ _)
  have hnew : Sits hhdm (m.shared.log ++ [(r.call, ans.logged)]) c'.out c'.phys
      ⟨.call r found (.reload ans), rflags⟩ := by
    refine ⟨?_, ?_, ?_, ?_, ?_⟩
    · intro count found' stage hp
      cases hp
      exact hr
    · intro b hb
      rw [next_out_of_reserves hanswer hnext hlogged hfield hb]
      exact List.mem_cons_self
    · intro r' found' stage ans' hp hans
      cases hp
      cases hans
      refine ⟨hlogged, fun hcurr => ?_⟩
      rw [(hfield hcurr).2, hlogged, if_neg hcurr]
    · -- the answer of a `free` is zero, which is not that of a node
      intro physMem count found' stage ans' hp hans
      cases hp
      cases hans
      by_contra hcurr
      exact (hfield hcurr).1 (Except.ok.inj hanswer).symm
    · intro r' found' stage ans' hp hans
      cases hp
      cases hans
      rw [hplace]
      exact List.getElem?_concat_length
  have hown := h.distinct.own p
  rw [hc] at hown
  refine ⟨a', hreplays, rfl, hbacks, hlive, ?_, ?_, ?_, ?_, fun _ => rfl⟩
  · intro q act hact
    dsimp only at hact
    by_cases hq : q = p
    · subst hq
      rw [Function.update_self] at hact
      rcases List.mem_cons.mp hact with rfl | hact
      · exact hnew
      · exact hrest q act (by rw [hc]; exact List.mem_cons_of_mem _ hact)
          ((List.pairwise_cons.mp hown).1 act hact)
    · rw [Function.update_of_ne hq] at hact
      exact hrest q act hact (h.distinct.others p q (Ne.symm hq) _ htop act hact)
  · refine h.distinct.top hc ?_ _ _
    -- a block that some call had is handed out, and the new one is disjoint from it
    rintro b hb
    refine .inr ?_
    rintro ⟨q, act, hact, hab⟩
    have hap : Block.Apart a'.live := a'.apart.sublist (List.sublist_append_right _ _)
    rw [hlive, next_out_of_reserves hanswer hnext hlogged hfield hb] at hap
    have hself := (List.pairwise_cons.mp hap).1 b ((h.sits q act hact).handed b hab)
    exact Set.disjoint_left.mp hself Block.start_mem_foot Block.start_mem_foot
  · -- the place is past those of all others
    refine h.places.top hc ?_ _ _
    rintro k hk
    refine .inr ?_
    rintro ⟨q, act, hact, hak⟩
    have hlt := (h.sits q act hact).place_lt hak
    have hk : some ans.place = some k := hk
    cases hk
    omega
  · intro q act below' r' t' hcq hb
    dsimp only at hcq
    by_cases hq : q = p
    · subst hq
      rw [Function.update_self] at hcq
      cases hcq
      cases hb
    · rw [Function.update_of_ne hq] at hcq
      rw [bodyOf_of_ne hs hc rfl hq hcq] at hb
      cases hb

end took

omit [DecidableEq P] in
theorem Tracks.progress (h : Tracks hhdm memmap m c a) {r : Request} {found rflags : Word}
    {t : PmmPoint} {below : List Activation}
    (hc : m.cpus p = ⟨.call r found (.body t), rflags⟩ :: below) :
    Progress hhdm a.free c m.shared.log r (Pool.stmt hhdm r m.shared t) ∧
      Set.EqOn (Pool.stmt hhdm r m.shared t).1.phys.mem m.shared.phys.mem (pageBytes (ground a r))ᶜ := by
  have htop : ⟨.call r found (.body t), rflags⟩ ∈ m.cpus p := by
    rw [hc]
    exact List.mem_cons_self
  have hr := h.request_ok htop rfl
  have hmid := h.under p _ below r t hc rfl
  have hshared : m.shared = ⟨⟨m.shared.phys, c.out⟩, m.shared.log⟩ := by
    rw [← h.out]
  rw [hshared]
  exact ⟨hmid.stmt h.backs h.live hr, hmid.stmt_eqOn h.backs hr c.out⟩

/-- **A statement of the allocator keeps the invariant.** -/
theorem Tracks.stmt {holder : Option P} (hm : MemmapOk hhdm memmap) (h : Tracks hhdm memmap m c a)
    (hs : m.Sound holder) {r : Request} {found rflags : Word} {t : PmmPoint}
    {below : List Activation} (hc : m.cpus p = ⟨.call r found (.body t), rflags⟩ :: below) :
    ∃ c' a', Tracks hhdm memmap ⟨(Pool.stmt hhdm r m.shared t).1, m.lock, Function.update m.cpus p
      (⟨.call r found (.after (Pool.stmt hhdm r m.shared t).2), rflags⟩ :: below)⟩ c' a' := by
  obtain ⟨hprog, hmem⟩ := h.progress hc
  generalize Pool.stmt hhdm r m.shared t = res at hprog hmem
  cases hprog with
  | goes hmid' => exact ⟨c, a, h.goes hs hc hmid' hmem⟩
  | took ans hplace hallowed hanswer hnext hlogged hfield =>
    obtain ⟨a', ha'⟩ := h.took hm hs hc hplace hallowed hanswer hnext hlogged hfield hmem
    exact ⟨_, a', ha'⟩

omit [DecidableEq P] in
/-- A client stores to a block of its own. -/
theorem Tracks.write (h : Tracks hhdm memmap m c a) {addr : Nat} {value : Byte}
    (hallowed : Allowed hhdm m (.write addr value)) :
    Tracks hhdm memmap { m with
      shared := Pool.commit (.write addr value) 0
        { m.shared with phys := m.shared.phys.write addr value } }
      ⟨c.phys.write addr value, c.out⟩ a := by
  obtain ⟨b, hb, hfree, haddr⟩ := hallowed
  rw [h.out] at hb
  have hlive : b ∈ a.live := by
    rw [h.live]
    exact hb
  have hfoot : addr / 4096 ∈ b.foot := Block.pages_subset_foot haddr
  have hpool : addr / 4096 ∉ a.stock.pool := Set.disjoint_left.mp (a.clear_of_live hlive) hfoot
  -- a block that some call has is another one
  have hother : ∀ q, ∀ act ∈ m.cpus q, ∀ b', reserves hhdm act = some b' → addr / 4096 ∉ b'.foot := by
    intro q act hact b' hb'
    have hne : b ≠ b' := by
      rintro rfl
      exact hfree ⟨q, act, hact, hb'⟩
    exact Set.disjoint_left.mp (h.disjoint hb ((h.sits q act hact).handed b' hb') hne) hfoot
  refine ⟨h.replays.step ⟨b, hb, haddr⟩ rfl rfl, h.out, h.backs.write hlive haddr value, h.live, ?_,
    ⟨h.distinct.own, h.distinct.others⟩, ⟨h.places.own, h.places.others⟩, ?_, ?_⟩
  · intro q act hact
    have hsits := h.sits q act hact
    refine hsits.mono h.block_ok hsits.handed ?_ (List.prefix_append _ _)
    intro b' hb' x hx
    apply Function.update_of_ne
    rintro rfl
    have hxb : x / 4096 = b'.start := hx
    exact hother q act hact b' hb' (hxb ▸ Block.start_mem_foot)
  · intro q act below r t hc hbody
    obtain ⟨point, w⟩ := act
    cases point with
    | outside => cases hbody
    | call r' found stage =>
      cases stage with
      | body t' =>
        cases hbody
        have hact : ⟨.call r found (.body t), w⟩ ∈ m.cpus q := by
          have hc : m.cpus q = _ := hc
          rw [hc]
          exact List.mem_cons_self
        refine (h.under q _ below r t hc rfl).write (h.request_ok hact rfl) hpool ?_ value
        cases r with
        | alloc count => exact hpool
        | free physMem count => exact hother q _ hact _ rfl
      | _ => cases hbody
  · intro hnone
    exact congrArg (Phys.write addr value) (h.idle hnone)

/-! ## Steps -/

/-- **Each step keeps the invariant.** -/
theorem Tracks.next {holder : Option P} (hm : MemmapOk hhdm memmap) (h : Tracks hhdm memmap m c a)
    (hs : m.Sound holder) {event : Event P} (hallowed : Allowed hhdm m event)
    (hnext : next hhdm m event = some m') :
    ∃ holder c a, m'.Sound holder ∧ Tracks hhdm memmap m' c a := by
  cases event with
  | cpu p action =>
    obtain ⟨holder', hs'⟩ := hs.step (Pool.code hhdm) hnext
    rcases Smp.Machine.step_cases (Pool.code hhdm) hnext with
      ⟨lock, acts, hturn, rfl⟩ | ⟨r, found, t, rflags, below, hc, rfl⟩
    · exact ⟨holder', c, a, hs', h.turn hs hturn hallowed hs'⟩
    · obtain ⟨c', a', ht'⟩ := h.stmt hm hs hc
      exact ⟨holder', c', a', hs', ht'⟩
  | write addr value =>
    cases hnext
    exact ⟨holder, _, a, ⟨hs.fits, hs.below, hs.taken, hs.holding⟩, h.write hallowed⟩

omit [DecidableEq P] in
theorem Tracks.init (hm : MemmapOk hhdm memmap) (hidle : m.Idle) {mem : Mem}
    (hshared : m.shared = ⟨⟨Phys.initPmm hhdm memmap mem, []⟩, []⟩) :
    Tracks hhdm memmap m ⟨Phys.initPmm hhdm memmap mem, []⟩ (Arena.init hm) := by
  obtain ⟨hholds, hgref⟩ := initPmm_holds hm mem
  refine ⟨?_, ?_, ⟨hholds, by rw [hgref]; rfl⟩, rfl, ?_, .of_none ?_, .of_none ?_, ?_, ?_⟩
  · rw [hshared]
    exact .init mem
  · rw [hshared]
  · intro q act hact
    have hpoint := hidle.outside q act hact
    obtain ⟨point, w⟩ := act
    cases hpoint
    exact .outside w
  · intro q act hact
    unfold reserves
    rw [hidle.outside q act hact]
  · intro q act hact
    unfold place
    rw [hidle.outside q act hact]
  · intro q act below r t hc hbody
    have hpoint := hidle.outside q act (by rw [hc]; exact List.mem_cons_self)
    unfold bodyOf at hbody
    rw [hpoint] at hbody
    cases hbody
  · intro _
    rw [hshared]

/-! ## Places in the log -/

/-- What a step does to the places: the log only grows, and a call has the place that it had, or one
past the old log. -/
structure Grows (hhdm : Word) (m m' : Machine P) (event : Event P) : Prop where
  log : m.shared.log <+: m'.shared.log
  places : ∀ q, ∀ act ∈ m'.cpus q, ∀ k, place act = some k → k < m.shared.log.length →
    (∃ act ∈ m.cpus q, place act = some k) ∧ ∀ ret ∈ leaves hhdm m event, ret.place ≠ k

omit [DecidableEq P] in
/-- Nothing returns, unless the code on top is past its `release`. -/
theorem leaves_none {c : Request} {found w : Word} {stage : Stage PmmPoint Answer}
    {below : List Activation} (hc : m.cpus p = ⟨.call c found stage, w⟩ :: below)
    (hstage : ∀ ans, stage ≠ .done ans) : leaves hhdm m (.cpu p .go) = none := by
  dsimp only [leaves]
  rw [hc]
  cases stage with
  | done ans => exact absurd rfl (hstage ans)
  | _ => rfl

/-- The processors that do not take the step. -/
theorem Tracks.grows_others (h : Tracks hhdm memmap m c a) {event : Event P}
    (hleaves : ∀ ret ∈ leaves hhdm m event, ∃ act ∈ m.cpus p, place act = some ret.place)
    {acts : List Activation} {shared : Pool} {lock : IrqSpinLock}
    (hlog : m.shared.log <+: shared.log)
    (hacts : ∀ act ∈ acts, ∀ k, place act = some k → k < m.shared.log.length →
      (∃ act ∈ m.cpus p, place act = some k) ∧ ∀ ret ∈ leaves hhdm m event, ret.place ≠ k) :
    Grows hhdm m ⟨shared, lock, Function.update m.cpus p acts⟩ event := by
  refine ⟨hlog, fun q act hact k hk hlt => ?_⟩
  dsimp only at hact
  by_cases hq : q = p
  · subst hq
    rw [Function.update_self] at hact
    exact hacts act hact k hk hlt
  · rw [Function.update_of_ne hq] at hact
    refine ⟨⟨act, hact, hk⟩, fun ret hret heq => ?_⟩
    obtain ⟨top, htop, hplace⟩ := hleaves ret hret
    rw [heq] at hplace
    exact h.places.others p q (Ne.symm hq) top htop act hact k hplace hk

private theorem Tracks.grows (h : Tracks hhdm memmap m c a) {event : Event P}
    (hnext : Shared.next hhdm m event = some m') : Grows hhdm m m' event := by
  cases event with
  | write addr value =>
    cases hnext
    refine ⟨List.prefix_append _ _, fun q act hact k hk _ => ⟨⟨act, hact, hk⟩, fun ret hret => ?_⟩⟩
    cases hret
  | cpu p action =>
    rcases Smp.Machine.step_cases (Pool.code hhdm) hnext with
      ⟨lock, acts, hturn, rfl⟩ | ⟨r, found, t, rflags, below, hc, rfl⟩
    · have hsame := List.prefix_refl m.shared.log
      -- a stack whose code had these places, in a step in which nothing returns
      have hstays : leaves hhdm m (.cpu p action) = none →
          (∀ act ∈ acts, ∀ k, place act = some k → ∃ act ∈ m.cpus p, place act = some k) →
          Grows hhdm m ⟨m.shared, lock, Function.update m.cpus p acts⟩ (.cpu p action) := by
        intro hnone hacts
        refine h.grows_others (fun ret hret => ?_) hsame fun act hact k hk _ =>
          ⟨hacts act hact k hk, fun ret hret => ?_⟩
        · rw [hnone] at hret
          cases hret
        · rw [hnone] at hret
          cases hret
      have hown := h.places.own p
      generalize hc : m.cpus p = old at hturn hown
      cases hturn with
      | interrupt top w below =>
        refine hstays rfl fun act hact k hk => ?_
        rcases List.mem_cons.mp hact with rfl | hact
        · cases hk
        · exact ⟨act, by rw [hc]; exact hact, hk⟩
      | iretq w top below =>
        refine hstays rfl fun act hact k hk => ?_
        exact ⟨act, by rw [hc]; exact List.mem_cons_of_mem _ hact, hk⟩
      | setFlags w w' below | call r w below =>
        refine hstays rfl fun act hact k hk => ?_
        rcases List.mem_cons.mp hact with rfl | hact
        · cases hk
        · exact ⟨act, by rw [hc]; exact List.mem_cons_of_mem _ hact, hk⟩
      | stmt r found w w' below hstage =>
        refine hstays (leaves_none hc ?_) fun act hact k hk => ?_
        · rintro ans rfl
          cases hstage
        · rcases List.mem_cons.mp hact with rfl | hact
          · rw [place_congr (result_next hstage)] at hk
            exact ⟨_, by rw [hc]; exact List.mem_cons_self, hk⟩
          · exact ⟨act, by rw [hc]; exact List.mem_cons_of_mem _ hact, hk⟩
      | ret r found w ans below =>
        have hleaves : leaves hhdm m (.cpu p .go) =
            some ⟨r.call, returned hhdm m.shared.phys ans, ans.place⟩ := by
          dsimp only [leaves]
          rw [hc]
        have hplace : place ⟨.call r found (.done ans), w⟩ = some ans.place := rfl
        refine h.grows_others (fun ret hret => ?_) hsame fun act hact k hk _ => ?_
        · rw [hleaves] at hret
          cases hret
          exact ⟨_, by rw [hc]; exact List.mem_cons_self, hplace⟩
        · rcases List.mem_cons.mp hact with rfl | hact
          · cases hk
          refine ⟨⟨act, by rw [hc]; exact List.mem_cons_of_mem _ hact, hk⟩, fun ret hret heq => ?_⟩
          rw [hleaves] at hret
          cases hret
          exact (List.pairwise_cons.mp hown).1 act hact k (hplace.trans (congrArg some heq)) hk
    · have hnone : leaves hhdm m (.cpu p action) = none := by
        cases action with
        | go =>
          refine leaves_none hc ?_
          intro ans hans
          cases hans
        | _ => rfl
      obtain ⟨hprog, -⟩ := h.progress hc
      have hcode : (Pool.code hhdm).step r m.shared t = Pool.stmt hhdm r m.shared t := rfl
      rw [hcode]
      generalize Pool.stmt hhdm r m.shared t = res at hprog
      have hlog : m.shared.log <+: res.1.log := by
        cases hprog with
        | goes => exact List.prefix_refl _
        | took => exact List.prefix_append _ _
      refine h.grows_others (fun ret hret => ?_) hlog fun act hact k hk hlt => ⟨?_, fun ret hret => ?_⟩
      · rw [hnone] at hret
        cases hret
      · rcases List.mem_cons.mp hact with rfl | hact
        · cases hprog with
          | goes => cases hk
          | took ans hplace =>
            have hk : some ans.place = some k := hk
            cases hk
            omega
        · exact ⟨act, by rw [hc]; exact List.mem_cons_of_mem _ hact, hk⟩
      · rw [hnone] at hret
        cases hret

omit [DecidableEq P] in
/-- What returns has been in the log all along. -/
theorem Tracks.left (h : Tracks hhdm memmap m c a) {event : Event P} {ret : Return}
    (hret : leaves hhdm m event = some ret) :
    m.shared.log[ret.place]? = some (ret.call, ret.value) ∧
      ∃ q, ∃ act ∈ m.cpus q, place act = some ret.place := by
  cases event with
  | write addr value => cases hret
  | cpu p action =>
    cases action with
    | go =>
      dsimp only [leaves] at hret
      split at hret
      · next r found ans w below hc =>
        cases hret
        have htop : ⟨.call r found (.done ans), w⟩ ∈ m.cpus p := by
          rw [hc]
          exact List.mem_cons_self
        have hsits := h.sits p _ htop
        refine ⟨?_, p, _, htop, rfl⟩
        dsimp only
        rw [hsits.returned_eq rfl rfl]
        exact hsits.recorded r found _ ans rfl rfl
      · cases hret
    | _ => cases hret

/-! ## The law -/

/-- **Each call that has taken effect has a place of its own in the log**, where its answer is what it
returns: those that are still to return (`pending`, `own`), those that have returned (`returned`, `once`),
and the ones against the others (`apart`). -/
structure Matched (hhdm : Word) (x : Recorded P) : Prop where
  pending : ∀ p, ∀ act ∈ x.machine.cpus p, ∀ r found stage ans, act.point = .call r found stage →
    result stage = some ans → returned hhdm x.machine.shared.phys ans = ans.logged ∧
      x.machine.shared.log[ans.place]? = some (r.call, ans.logged)
  returned : ∀ ret ∈ x.returns, x.machine.shared.log[ret.place]? = some (ret.call, ret.value)
  own : Distinct place x.machine
  once : (x.returns.map Return.place).Nodup
  apart : ∀ p, ∀ act ∈ x.machine.cpus p, ∀ k, place act = some k → k ∉ x.returns.map Return.place

variable {x x' : Recorded P}

omit [DecidableEq P] in
theorem Tracks.matched (h : Tracks hhdm memmap x.machine c a)
    (hover : ∀ ret ∈ x.returns, x.machine.shared.log[ret.place]? = some (ret.call, ret.value))
    (honce : (x.returns.map Return.place).Nodup)
    (hapart : ∀ p, ∀ act ∈ x.machine.cpus p, ∀ k, place act = some k →
      k ∉ x.returns.map Return.place) : Matched hhdm x where
  pending p act hact r found stage ans hp hans :=
    ⟨(h.sits p act hact).returned_eq hp hans, (h.sits p act hact).recorded r found stage ans hp hans⟩
  returned := hover
  own := h.places
  once := honce
  apart := hapart

/-- **One step** keeps the match. -/
theorem Matched.step {c' : Clients} {a' : Arena hhdm (usablePages memmap)} (h : Matched hhdm x)
    (ht : Tracks hhdm memmap x.machine c a) {event : Event P}
    (hstep : (runs hhdm P memmap).step x event x') (ht' : Tracks hhdm memmap x'.machine c' a') :
    Matched hhdm x' := by
  obtain ⟨-, hnext, hreturns⟩ := hstep
  have hgrows := ht.grows hnext
  have hold : ∀ ret ∈ x.returns, x'.machine.shared.log[ret.place]? = some (ret.call, ret.value) :=
    fun ret hret => entry_mono hgrows.log (h.returned ret hret)
  have hbelow : ∀ k ∈ x.returns.map Return.place, k < x.machine.shared.log.length := by
    intro k hk
    obtain ⟨ret, hret, rfl⟩ := List.mem_map.mp hk
    exact (List.getElem?_eq_some_iff.mp (h.returned ret hret)).1
  have hnew : ∀ q, ∀ act ∈ x'.machine.cpus q, ∀ k, place act = some k →
      k ∉ x.returns.map Return.place := by
    intro q act hact k hk hmem
    obtain ⟨⟨act', hact', hk'⟩, -⟩ := hgrows.places q act hact k hk (hbelow k hmem)
    exact h.apart q act' hact' k hk' hmem
  cases hl : leaves hhdm x.machine event with
  | none =>
    have hsame : x'.returns = x.returns := by
      rw [hreturns, hl]
      exact List.append_nil _
    refine ht'.matched ?_ ?_ ?_
    · rw [hsame]
      exact hold
    · rw [hsame]
      exact h.once
    · rw [hsame]
      exact hnew
  | some ret =>
    obtain ⟨hentry, q, act, hact, hplace⟩ := ht.left hl
    have hmore : x'.returns = x.returns ++ [ret] := by
      rw [hreturns, hl]
      rfl
    refine ht'.matched ?_ ?_ ?_
    · rw [hmore]
      intro ret' hret'
      rcases List.mem_append.mp hret' with hret' | hret'
      · exact hold ret' hret'
      · rw [List.mem_singleton.mp hret']
        exact entry_mono hgrows.log hentry
    · rw [hmore, List.map_append, List.map_singleton, ← List.concat_eq_append]
      exact h.once.concat (h.apart q act hact ret.place hplace)
    · rw [hmore, List.map_append, List.map_singleton]
      intro q' act' hact' k hk hmem
      rcases List.mem_append.mp hmem with hmem | hmem
      · exact hnew q' act' hact' k hk hmem
      · have hlt : k < x.machine.shared.log.length := by
          rw [List.mem_singleton.mp hmem]
          exact (List.getElem?_eq_some_iff.mp hentry).1
        exact (hgrows.places q' act' hact' k hk hlt).2 ret hl (List.mem_singleton.mp hmem).symm

private theorem tracked (hm : MemmapOk hhdm memmap) (h : (runs hhdm P memmap).Reachable x) :
    ∃ holder c a, x.machine.Sound holder ∧ Tracks hhdm memmap x.machine c a ∧ Matched hhdm x := by
  refine h.invariant (I := fun x => ∃ holder c a, x.machine.Sound holder ∧
    Tracks hhdm memmap x.machine c a ∧ Matched hhdm x) ?_ ?_
  · rintro x ⟨hnone, hidle, mem, hshared⟩
    have ht := Tracks.init hm hidle hshared
    refine ⟨none, _, _, hidle.sound, ht, ht.matched ?_ ?_ ?_⟩
    · rw [hnone]
      exact fun ret hret => absurd hret List.not_mem_nil
    · rw [hnone]
      exact List.nodup_nil
    · rw [hnone]
      exact fun p act _ k _ => List.not_mem_nil
  · rintro x event x' ⟨holder, c, a, hs, ht, hmatched⟩ hstep
    obtain ⟨holder', c', a', hs', ht'⟩ := ht.next hm hs hstep.1 hstep.2.1
    exact ⟨holder', c', a', hs', ht', hmatched.step ht hstep ht'⟩

/-- **Calls on many processors are linearizable.** In every reachable state the log is one that the
sequential allocator makes, with the blocks that are handed out; while the lock is free the memory is
that allocator's; every call that has taken effect has a place of its own in the log, with what it
returns; and what an `alloc` is about to return is zero or a block that is handed out. -/
theorem linearizable (hm : MemmapOk hhdm memmap) (h : (runs hhdm P memmap).Reachable x) :
    ∃ c, Replays hhdm memmap x.machine.shared.log c ∧ x.machine.shared.out = c.out ∧
      (x.machine.lock.inner.data = false → x.machine.shared.phys = c.phys) ∧ Matched hhdm x ∧
      ∀ p, ∀ act ∈ x.machine.cpus p, ∀ count found r,
        act.point = .call (.alloc count) found (.done r) → r.logged ≠ 0 →
          ⟨r.logged, count⟩ ∈ x.machine.shared.out := by
  obtain ⟨holder, c, a, hs, ht, hmatched⟩ := tracked hm h
  refine ⟨c, ht.replays, ht.out, ?_, hmatched, ?_⟩
  · intro hfree
    apply ht.idle
    intro q act below hc
    cases hb : bodyOf act with
    | none => rfl
    | some r =>
      have hq : holder = some q := (hs.holding q).mp ⟨act, by rw [hc]; rfl, holds_of_bodyOf hb⟩
      have htaken := hs.taken
      rw [hfree, hq] at htaken
      cases htaken
  · intro p act hact count found r hpoint hne
    have hsits := ht.sits p act hact
    obtain ⟨hlogged, -⟩ := hsits.answered _ found _ r hpoint rfl
    have hcurr : r.curr ≠ 0 := by
      intro hcurr
      rw [hlogged, if_pos hcurr] at hne
      exact hne rfl
    rw [ht.out, hlogged, if_neg hcurr]
    apply hsits.handed
    obtain ⟨point, w⟩ := act
    cases hpoint
    exact reserves_answered rfl hcurr

/-- Two processors call `alloc` and go on in turn; one spins until the other has released, and
returns before it. -/
def twoAllocs : List (Event Bool) :=
  .cpu false (.call (.alloc 1)) :: .cpu true (.call (.alloc 2)) ::
    (List.replicate 13 [.cpu false .go, .cpu true .go]).flatten ++
      List.replicate 10 (.cpu true .go)

/-- A step that needs nothing of the clients, if there is one. -/
def goOn (x : Recorded Bool) (e : Event Bool) : Option (Recorded Bool) :=
  match e with
  | .cpu _ (.call (.alloc count)) => if count = 0 then none else record e
  | .cpu _ .go => record e
  | _ => none
where
  record (e : Event Bool) : Option (Recorded Bool) :=
    (next hhdm₀ x.machine e).map fun m =>
      ⟨m, x.returns ++ (leaves hhdm₀ x.machine e).toList⟩

private theorem goOn_step {x x' : Recorded Bool} {e : Event Bool} (h : goOn x e = some x') :
    (runs hhdm₀ Bool Clients.smallMap).step x e x' := by
  have hrecord : goOn.record x e = some x' → next hhdm₀ x.machine e = some x'.machine ∧
      x'.returns = x.returns ++ (leaves hhdm₀ x.machine e).toList := by
    intro hr
    obtain ⟨m, hm, rfl⟩ := Option.map_eq_some_iff.mp hr
    exact ⟨hm, rfl⟩
  unfold goOn at h
  split at h
  · split_ifs at h with hcount
    exact ⟨hcount, hrecord h⟩
  · exact ⟨trivial, hrecord h⟩
  · cases h

/-- The call that took effect second is over, and the first one is still to return. -/
theorem linearizable_twoAllocs : ∃ x : Recorded Bool, ∃ c,
    (runs hhdm₀ Bool Clients.smallMap).Reachable x ∧
    x.returns.map (fun ret => (ret.value, ret.place)) = [(0x1000, 1)] ∧
    (x.machine.cpus false).map place = [some 0] ∧
    Replays hhdm₀ Clients.smallMap x.machine.shared.log c ∧
    x.machine.shared.phys = c.phys ∧ Matched hhdm₀ x := by
  let start : Recorded Bool :=
    ⟨⟨⟨⟨Phys.initPmm hhdm₀ Clients.smallMap fun _ => 0, []⟩, []⟩, ⟨0, {}⟩,
      fun _ => [⟨.outside, 0x202⟩]⟩, []⟩
  have hidle : start.machine.Idle := ⟨rfl, by
    intro p a ha
    rw [List.mem_singleton.mp ha]⟩
  have hrun : (twoAllocs.foldlM goOn start).map (fun x =>
      (x.returns.map (fun ret => (ret.value, ret.place)), (x.machine.cpus false).map place,
        x.machine.lock.inner.data)) = some ([(0x1000, 1)], [some 0], false) := by
    decide +kernel
  obtain ⟨x, hx, hobs⟩ := Option.map_eq_some_iff.mp hrun
  obtain ⟨hreturns, hobs⟩ := Prod.mk.inj hobs
  obtain ⟨hpending, hfree⟩ := Prod.mk.inj hobs
  have hreach : (runs hhdm₀ Bool Clients.smallMap).Reachable x :=
    System.Reachable.foldlM (fun _ _ _ h => goOn_step h) twoAllocs (.init ⟨rfl, hidle, _, rfl⟩) hx
  obtain ⟨c, hreplays, -, hphys, hmatched, -⟩ := linearizable Clients.smallMap_ok hreach
  exact ⟨x, c, hreach, hreturns, hpending, hreplays, hphys hfree, hmatched⟩

end TwoKernel.Shared
