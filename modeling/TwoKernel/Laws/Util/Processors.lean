import TwoKernel.Laws.Util.Spinlocks
import TwoKernel.Util.Processors

/-!
# One processor at a time

**The law** (`lock_exclusive`). Whatever the processors do and wherever interrupts arrive, at most
one activation of all of them is under the lock, and the lock is taken exactly then. It is the one
that executes on its processor, with interrupts off: so no processor waits for code that it
interrupted itself. A call leaves the flags as it found them, although they are kept in the lock,
which every other processor may use in between.

`Sound` is the invariant, with the processor that holds the lock if there is one. What the flags
of a call are is a matter of its stage (`Stage.Fits`), and only the holder's depends on the lock.

**What it does not establish.** That a processor gets the lock in the end: the exchange of another
one can come first every time.
-/

namespace TwoKernel.Smp

variable {P σ κ τ ρ : Type}

/-! ## The flags of a call -/

/-- The flags at a stage, those of the lock being `lockFlags`. -/
def Stage.Fits (lockFlags found rflags : Word) : Stage τ ρ → Prop
  | .pushfq | .done _ => rflags = found
  | .cli w => rflags = found ∧ w = found
  | .exchange w | .keep w | .store _ w | .restore _ w => rflags = found &&& ~~~ifMask ∧ w = found
  | .body _ | .reload _ => rflags = found &&& ~~~ifMask ∧ lockFlags = found

theorem Stage.Fits.masked {lockFlags found rflags : Word} {stage : Stage τ ρ}
    (h : stage.Fits lockFlags found rflags) (hm : stage.masked = true) :
    rflags = found &&& ~~~ifMask := by
  cases stage with
  | pushfq | cli | done => cases hm
  | exchange | keep | body | reload | store | restore => exact h.1

private theorem Stage.fits_congr {w w' found rflags : Word} {stage : Stage τ ρ}
    (h : stage.holds = false) :
    stage.Fits w found rflags ↔ stage.Fits w' found rflags := by
  cases stage with
  | pushfq | cli | exchange | restore | done => exact Iff.rfl
  | keep | body | reload | store => cases h

private theorem Stage.masked_of_holds {stage : Stage τ ρ} (h : stage.holds = true) :
    stage.masked = true := by
  cases stage with
  | pushfq | cli | exchange | restore | done => cases h
  | keep | body | reload | store => rfl

private theorem and_not_ifMask (w : Word) : w &&& ~~~ifMask &&& ifMask = 0 := by
  rw [BitVec.and_assoc, BitVec.and_comm (~~~ifMask), BitVec.and_not_self]
  exact BitVec.and_zero

private theorem ifMask_eq : ifMask = BitVec.twoPow 64 9 := by decide

/-- `sti` after `cli`, or neither. -/
theorem restored_flags (w : Word) :
    (if w &&& ifMask ≠ 0 then w &&& ~~~ifMask ||| ifMask else w &&& ~~~ifMask) = w := by
  have hne : BitVec.twoPow 64 9 ≠ (0 : Word) := by decide
  rw [ifMask_eq, BitVec.and_twoPow]
  cases h9 : w.getLsbD 9 with
  | true =>
    rw [if_pos rfl, if_pos hne]
    apply BitVec.eq_of_getLsbD_eq
    intro i hi
    simp only [BitVec.getLsbD_or, BitVec.getLsbD_and, BitVec.getLsbD_not, BitVec.getLsbD_twoPow]
    by_cases hi9 : 9 = i
    · subst hi9
      simp [h9]
    · simp [hi, hi9]
  | false =>
    rw [if_neg Bool.false_ne_true, if_neg (show ¬ (0#64 ≠ (0 : Word)) from not_not.mpr rfl)]
    apply BitVec.eq_of_getLsbD_eq
    intro i hi
    simp only [BitVec.getLsbD_and, BitVec.getLsbD_not, BitVec.getLsbD_twoPow]
    by_cases hi9 : 9 = i
    · subst hi9
      rw [h9, Bool.false_and]
    · simp [hi, hi9]

namespace Activation

variable {a : Activation κ τ ρ} {w w' : Word}

def Fits (lockFlags : Word) (a : Activation κ τ ρ) : Prop :=
  match a.point with
  | .outside => True
  | .call _ found stage => stage.Fits lockFlags found a.rflags

theorem Fits.off (h : a.Fits w) (hm : a.masked = true) : a.interrupts = false := by
  obtain ⟨point, rflags⟩ := a
  cases point with
  | outside => cases hm
  | call c found stage =>
    have hr : rflags = found &&& ~~~ifMask := Stage.Fits.masked h hm
    subst hr
    exact decide_eq_false (not_not.mpr (and_not_ifMask found))

private theorem fits_congr (h : a.holds = false) : a.Fits w ↔ a.Fits w' := by
  obtain ⟨point, rflags⟩ := a
  cases point with
  | outside => exact Iff.rfl
  | call c found stage => exact Stage.fits_congr h

theorem masked_of_holds (h : a.holds = true) : a.masked = true := by
  obtain ⟨point, rflags⟩ := a
  cases point with
  | outside => cases h
  | call c found stage => exact Stage.masked_of_holds h

private theorem holds_of_unmasked (h : a.masked = false) : a.holds = false := by
  rw [Bool.eq_false_iff] at h ⊢
  exact fun hh => h (masked_of_holds hh)

end Activation

/-! ## What a step does to a stack

For code that is proved about beside the lock: every step but the code's own leaves the shared
state, and changes one stack in one of these ways. -/

/-- The statements of `acquire` and `release`, each with the next one. -/
inductive Stage.Next (start : τ) : Stage τ ρ → Stage τ ρ → Prop
  | pushfq (w : Word) : Next start .pushfq (.cli w)
  | cli (w : Word) : Next start (.cli w) (.exchange w)
  | spin (w : Word) : Next start (.exchange w) (.exchange w)
  | got (w : Word) : Next start (.exchange w) (.keep w)
  | keep (w : Word) : Next start (.keep w) (.body start)
  | reload (r : ρ) (w : Word) : Next start (.reload r) (.store r w)
  | store (r : ρ) (w : Word) : Next start (.store r w) (.restore r w)
  | restore (r : ρ) (w : Word) : Next start (.restore r w) (.done r)

/-- How a stack changes, other than by the code under the lock. -/
inductive Turn (start : κ → τ) : Action κ → List (Activation κ τ ρ) → List (Activation κ τ ρ) → Prop
  | interrupt (a : Activation κ τ ρ) (w : Word) (below : List (Activation κ τ ρ)) :
      Turn start .interrupt (a :: below) (⟨.outside, w⟩ :: a :: below)
  | iretq (w : Word) (b : Activation κ τ ρ) (below : List (Activation κ τ ρ)) :
      Turn start .iretq (⟨.outside, w⟩ :: b :: below) (b :: below)
  | setFlags (w w' : Word) (below : List (Activation κ τ ρ)) :
      Turn start (.setFlags w') (⟨.outside, w⟩ :: below) (⟨.outside, w'⟩ :: below)
  | call (c : κ) (w : Word) (below : List (Activation κ τ ρ)) :
      Turn start (.call c) (⟨.outside, w⟩ :: below) (⟨.call c w .pushfq, w⟩ :: below)
  | stmt {stage stage' : Stage τ ρ} (c : κ) (found w w' : Word) (below : List (Activation κ τ ρ)) :
      Stage.Next (start c) stage stage' →
      Turn start .go (⟨.call c found stage, w⟩ :: below) (⟨.call c found stage', w'⟩ :: below)
  | ret (c : κ) (found w : Word) (r : ρ) (below : List (Activation κ τ ρ)) :
      Turn start .go (⟨.call c found (.done r), w⟩ :: below) (⟨.outside, w⟩ :: below)

/-- The stage after a statement of the code under the lock. -/
def Stage.after : τ ⊕ ρ → Stage τ ρ
  | .inl t => .body t
  | .inr r => .reload r

/-! ## The invariant -/

namespace Machine

variable {m m' : Machine P σ κ τ ρ} {p : P} {holder holder' : Option P}

/-- What executes on `p` is under the lock. -/
def Holding (m : Machine P σ κ τ ρ) (p : P) : Prop :=
  ∃ a, (m.cpus p).head? = some a ∧ a.holds = true

/-- **The invariant**, `holder` being the processor that has the lock. -/
structure Sound (m : Machine P σ κ τ ρ) (holder : Option P) : Prop where
  fits : ∀ p, ∀ a ∈ m.cpus p, a.Fits m.lock.flags
  below : ∀ p, ∀ b ∈ (m.cpus p).tail, b.masked = false
  taken : m.lock.inner.data = holder.isSome
  holding : ∀ p, m.Holding p ↔ holder = some p

private theorem Sound.quiet (h : m.Sound holder) (hp : holder ≠ some p) :
    ∀ a ∈ m.cpus p, a.holds = false := by
  intro a ha
  cases hc : m.cpus p with
  | nil =>
    rw [hc] at ha
    cases ha
  | cons top below =>
    rw [hc] at ha
    rcases List.mem_cons.mp ha with rfl | ha
    · rw [Bool.eq_false_iff]
      intro hh
      exact hp ((h.holding p).mp ⟨a, by rw [hc]; rfl, hh⟩)
    · exact Activation.holds_of_unmasked (h.below p a (by rw [hc]; exact ha))

variable [DecidableEq P]

/-- One processor's stack and the lock change. Its flags are changed by the holder only. -/
theorem Sound.update (h : m.Sound holder) (acts : List (Activation κ τ ρ)) (shared : σ)
    (lock : IrqSpinLock) (hfits : ∀ a ∈ acts, a.Fits lock.flags)
    (hbelow : ∀ b ∈ acts.tail, b.masked = false)
    (hflags : lock.flags = m.lock.flags ∨ holder = some p)
    (htaken : lock.inner.data = holder'.isSome)
    (htop : (∃ a, acts.head? = some a ∧ a.holds = true) ↔ holder' = some p)
    (hothers : ∀ q, q ≠ p → (holder' = some q ↔ holder = some q)) :
    Sound ⟨shared, lock, Function.update m.cpus p acts⟩ holder' := by
  refine ⟨?_, ?_, htaken, ?_⟩
  · intro q a ha
    dsimp only at ha
    by_cases hq : q = p
    · subst hq
      rw [Function.update_self] at ha
      exact hfits a ha
    · rw [Function.update_of_ne hq] at ha
      rcases hflags with hflags | hheld
      · show a.Fits lock.flags
        rw [hflags]
        exact h.fits q a ha
      · have hquiet : a.holds = false := by
          refine h.quiet ?_ a ha
          rw [hheld]
          exact fun e => hq (Option.some.inj e).symm
        exact (Activation.fits_congr hquiet).mp (h.fits q a ha)
  · intro q b hb
    dsimp only at hb
    by_cases hq : q = p
    · subst hq
      rw [Function.update_self] at hb
      exact hbelow b hb
    · rw [Function.update_of_ne hq] at hb
      exact h.below q b hb
  · intro q
    unfold Holding
    dsimp only
    by_cases hq : q = p
    · subst hq
      rw [Function.update_self]
      exact htop
    · rw [Function.update_of_ne hq, hothers q hq]
      exact h.holding q

/-- What executes on `p` goes on, under the lock or not as before. -/
theorem Sound.advance (h : m.Sound holder) {a a' : Activation κ τ ρ}
    {below : List (Activation κ τ ρ)} (hc : m.cpus p = a :: below) (shared : σ)
    (hfits : a'.Fits m.lock.flags) (hholds : a'.holds = a.holds) :
    Sound ⟨shared, m.lock, Function.update m.cpus p (a' :: below)⟩ holder := by
  refine h.update (a' :: below) shared m.lock ?_ ?_ (.inl rfl) h.taken ?_ fun _ _ => Iff.rfl
  · intro b hb
    rcases List.mem_cons.mp hb with rfl | hb
    · exact hfits
    · exact h.fits p b (by rw [hc]; exact List.mem_cons_of_mem _ hb)
  · intro b hb
    exact h.below p b (by rw [hc]; exact hb)
  · rw [← h.holding p, Holding, hc]
    constructor
    · rintro ⟨b, hb, hh⟩
      cases hb
      exact ⟨a, rfl, hholds.symm.trans hh⟩
    · rintro ⟨b, hb, hh⟩
      cases hb
      exact ⟨a', rfl, hholds.trans hh⟩

/-- An interrupt, and the return from it, leave who holds the lock. -/
theorem Sound.switch (h : m.Sound holder) {acts : List (Activation κ τ ρ)}
    (hfits : ∀ a ∈ acts, a.Fits m.lock.flags) (hout : ∀ a ∈ m.cpus p, a.holds = false)
    (hacts : ∀ a ∈ acts, a.masked = false) :
    (m.goto p acts).Sound holder := by
  have hnot : holder ≠ some p := by
    intro he
    obtain ⟨a, ha, hh⟩ := (h.holding p).mpr he
    rw [hout a (List.mem_of_head? ha)] at hh
    cases hh
  refine h.update acts m.shared m.lock hfits (fun b hb => hacts b (List.mem_of_mem_tail hb))
    (.inl rfl) h.taken ?_ fun _ _ => Iff.rfl
  constructor
  · rintro ⟨a, ha, hh⟩
    rw [Activation.holds_of_unmasked (hacts a (List.mem_of_head? ha))] at hh
    cases hh
  · exact fun he => absurd he hnot

variable (code : Section σ κ τ ρ)

/-- A statement of a call keeps the invariant. Only three of them change who holds the lock or what
is in it. -/
theorem Sound.stmt (h : m.Sound holder) {c : κ} {found rflags : Word} {stage : Stage τ ρ}
    {below : List (Activation κ τ ρ)} (hc : m.cpus p = ⟨.call c found stage, rflags⟩ :: below) :
    ∃ holder, (m.stmt code p c found rflags below stage).Sound holder := by
  have hmem : ⟨.call c found stage, rflags⟩ ∈ m.cpus p := by
    rw [hc]
    exact List.mem_cons_self
  have hfits : stage.Fits m.lock.flags found rflags := h.fits p _ hmem
  have hrest : ∀ b ∈ below, b.Fits m.lock.flags ∧ b.masked = false := by
    intro b hb
    exact ⟨h.fits p b (by rw [hc]; exact List.mem_cons_of_mem _ hb),
      h.below p b (by rw [hc]; exact hb)⟩
  have hheld : stage.holds = true → holder = some p := by
    intro hh
    exact (h.holding p).mp ⟨⟨.call c found stage, rflags⟩, by rw [hc]; rfl, hh⟩
  cases stage with
  | pushfq => exact ⟨holder, h.advance hc _ ⟨hfits, hfits⟩ rfl⟩
  | cli w =>
    obtain ⟨hr, hw⟩ := hfits
    subst hr
    exact ⟨holder, h.advance hc _ ⟨rfl, hw⟩ rfl⟩
  | exchange w =>
    cases hdata : m.lock.inner.data with
    | true =>
      -- somebody has the lock: it is written as it was
      have hsame : m.stmt code p c found rflags below (.exchange w) =
          ⟨m.shared, m.lock, Function.update m.cpus p (⟨.call c found (.exchange w), rflags⟩ :: below)⟩ := by
        have hlock : ({ m.lock with inner := ⟨true⟩ } : IrqSpinLock) = m.lock := by
          rw [← hdata]
        simp only [Machine.stmt, goto, SpinLock.exchange, hdata, if_true, hlock]
      rw [hsame]
      exact ⟨holder, h.advance hc _ hfits rfl⟩
    | false =>
      have hnone : holder = none := by
        have htaken := h.taken
        rw [hdata] at htaken
        exact Option.isSome_eq_false_iff.mp htaken.symm |> Option.isNone_iff_eq_none.mp
      have hgot : m.stmt code p c found rflags below (.exchange w) =
          ⟨m.shared, { m.lock with inner := ⟨true⟩ },
            Function.update m.cpus p (⟨.call c found (.keep w), rflags⟩ :: below)⟩ := by
        simp only [Machine.stmt, goto, SpinLock.exchange, hdata, Bool.false_eq_true, if_false]
      rw [hgot]
      refine ⟨some p, h.update _ _ _ ?_ (fun b hb => (hrest b hb).2) (.inl rfl) rfl ?_ ?_⟩
      · intro b hb
        rcases List.mem_cons.mp hb with rfl | hb
        · exact hfits
        · exact (hrest b hb).1
      · exact ⟨fun _ => rfl, fun _ => ⟨_, rfl, rfl⟩⟩
      · intro q hq
        rw [hnone, Option.some_inj]
        exact iff_of_false (fun e => hq e.symm) (Option.some_ne_none q).symm
  | keep w =>
    obtain ⟨hr, hw⟩ := hfits
    have hp := hheld rfl
    refine ⟨holder, h.update (⟨.call c found (.body (code.start c)), rflags⟩ :: below) m.shared
      { m.lock with flags := w } ?_ (fun b hb => (hrest b hb).2) (.inr hp) h.taken ?_
      fun _ _ => Iff.rfl⟩
    · intro b hb
      rcases List.mem_cons.mp hb with rfl | hb
      · exact ⟨hr, hw⟩
      · exact (Activation.fits_congr (Activation.holds_of_unmasked (hrest b hb).2)).mp (hrest b hb).1
    · exact ⟨fun _ => hp, fun _ => ⟨_, rfl, rfl⟩⟩
  | body t =>
    rcases hstep : code.step c m.shared t with ⟨shared, next⟩
    cases next with
    | inl t' =>
      have hgo : m.stmt code p c found rflags below (.body t) = ⟨shared, m.lock,
          Function.update m.cpus p (⟨.call c found (.body t'), rflags⟩ :: below)⟩ := by
        simp only [Machine.stmt, goto, hstep]
      rw [hgo]
      exact ⟨holder, h.advance hc _ hfits rfl⟩
    | inr r =>
      have hgo : m.stmt code p c found rflags below (.body t) = ⟨shared, m.lock,
          Function.update m.cpus p (⟨.call c found (.reload r), rflags⟩ :: below)⟩ := by
        simp only [Machine.stmt, goto, hstep]
      rw [hgo]
      exact ⟨holder, h.advance hc _ hfits rfl⟩
  | reload r => exact ⟨holder, h.advance hc _ hfits rfl⟩
  | store r w =>
    have hp := hheld rfl
    refine ⟨none, h.update (⟨.call c found (.restore r w), rflags⟩ :: below) m.shared
      { m.lock with inner := m.lock.inner.release } ?_ (fun b hb => (hrest b hb).2) (.inl rfl) rfl ?_ ?_⟩
    · intro b hb
      rcases List.mem_cons.mp hb with rfl | hb
      · exact hfits
      · exact (hrest b hb).1
    · refine iff_of_false ?_ (Option.some_ne_none p).symm
      rintro ⟨b, hb, hh⟩
      cases hb
      cases hh
    · intro q hq
      rw [hp, Option.some_inj]
      exact iff_of_false (Option.some_ne_none q).symm fun e => hq e.symm
  | restore r w =>
    obtain ⟨hr, hw⟩ := hfits
    subst hw
    refine ⟨holder, h.advance hc _ ?_ rfl⟩
    show _ = w
    rw [hr]
    exact restored_flags w
  | done r => exact ⟨holder, h.advance hc _ trivial rfl⟩

/-- **One step** keeps the lock sound. -/
theorem Sound.step (h : m.Sound holder) {action : Action κ}
    (hs : m.step code p action = some m') : ∃ holder, m'.Sound holder := by
  unfold Machine.step at hs
  cases hc : m.cpus p with
  | nil =>
    rw [hc] at hs
    cases hs
  | cons a below =>
    rw [hc] at hs
    have hmem : ∀ b ∈ a :: below, b.Fits m.lock.flags := fun b hb => h.fits p b (by rw [hc]; exact hb)
    have hbelow : ∀ b ∈ below, b.masked = false := fun b hb => h.below p b (by rw [hc]; exact hb)
    have hquiet : a.masked = false → ∀ b ∈ m.cpus p, b.holds = false := by
      intro ha b hb
      rw [hc] at hb
      rcases List.mem_cons.mp hb with rfl | hb
      · exact Activation.holds_of_unmasked ha
      · exact Activation.holds_of_unmasked (hbelow b hb)
    obtain ⟨point, rflags⟩ := a
    cases action with
    | interrupt =>
      simp only [act] at hs
      split at hs
      · next hon =>
        cases hs
        -- the code that is interrupted is at an unmasked stage
        have ha : (⟨point, rflags⟩ : Activation κ τ ρ).masked = false := by
          rw [Bool.eq_false_iff]
          intro hm
          rw [(hmem _ List.mem_cons_self).off hm] at hon
          cases hon
        refine ⟨holder, h.switch ?_ (hquiet ha) ?_⟩
        · intro b hb
          rcases List.mem_cons.mp hb with rfl | hb
          · exact trivial
          · exact hmem b hb
        · intro b hb
          rcases List.mem_cons.mp hb with rfl | hb
          · rfl
          · rcases List.mem_cons.mp hb with rfl | hb
            · exact ha
            · exact hbelow b hb
      · cases hs
    | iretq =>
      cases point with
      | outside =>
        cases below with
        | nil => cases hs
        | cons b below =>
          cases hs
          refine ⟨holder, h.switch (fun b hb => hmem b (List.mem_cons_of_mem _ hb)) (hquiet rfl) hbelow⟩
      | call => cases hs
    | setFlags w =>
      cases point with
      | outside =>
        cases hs
        exact ⟨holder, h.advance hc _ trivial rfl⟩
      | call => cases hs
    | call c =>
      cases point with
      | outside =>
        cases hs
        exact ⟨holder, h.advance hc _ rfl rfl⟩
      | call => cases hs
    | go =>
      cases point with
      | outside => cases hs
      | call c found stage =>
        cases hs
        exact h.stmt code hc

omit [DecidableEq P] in
theorem Idle.sound (h : m.Idle) : m.Sound none := by
  refine ⟨?_, ?_, h.free, ?_⟩
  · intro p a ha
    unfold Activation.Fits
    rw [h.outside p a ha]
    exact trivial
  · intro p b hb
    unfold Activation.masked
    rw [h.outside p b (List.mem_of_mem_tail hb)]
  · intro p
    refine iff_of_false ?_ (Option.some_ne_none p).symm
    rintro ⟨a, ha, hh⟩
    unfold Activation.holds at hh
    rw [h.outside p a (List.mem_of_head? ha)] at hh
    cases hh

/-- **Every step is a turn of a stack or a statement of the code under the lock.** -/
theorem step_cases {action : Action κ} (hs : m.step code p action = some m') :
    (∃ lock acts, Turn code.start action (m.cpus p) acts ∧
      m' = ⟨m.shared, lock, Function.update m.cpus p acts⟩) ∨
    ∃ c found t rflags below, m.cpus p = ⟨.call c found (.body t), rflags⟩ :: below ∧
      m' = ⟨(code.step c m.shared t).1, m.lock, Function.update m.cpus p
        (⟨.call c found (.after (code.step c m.shared t).2), rflags⟩ :: below)⟩ := by
  unfold Machine.step at hs
  cases hc : m.cpus p with
  | nil =>
    rw [hc] at hs
    cases hs
  | cons a below =>
    rw [hc] at hs
    obtain ⟨point, rflags⟩ := a
    cases action with
    | interrupt =>
      simp only [act] at hs
      split at hs
      · cases hs
        exact .inl ⟨_, _, .interrupt _ _ _, rfl⟩
      · cases hs
    | iretq =>
      cases point with
      | outside =>
        cases below with
        | nil => cases hs
        | cons b below =>
          cases hs
          exact .inl ⟨_, _, .iretq _ _ _, rfl⟩
      | call => cases hs
    | setFlags w =>
      cases point with
      | outside =>
        cases hs
        exact .inl ⟨_, _, .setFlags _ _ _, rfl⟩
      | call => cases hs
    | call c =>
      cases point with
      | outside =>
        cases hs
        exact .inl ⟨_, _, .call _ _ _, rfl⟩
      | call => cases hs
    | go =>
      cases point with
      | outside => cases hs
      | call c found stage =>
        cases hs
        cases stage with
        | pushfq => exact .inl ⟨_, _, .stmt c found _ _ _ (.pushfq _), rfl⟩
        | cli w => exact .inl ⟨_, _, .stmt c found _ _ _ (.cli w), rfl⟩
        | exchange w =>
          cases hdata : m.lock.inner.data with
          | true =>
            refine .inl ⟨{ m.lock with inner := ⟨true⟩ }, _, .stmt c found rflags rflags _ (.spin w), ?_⟩
            simp only [Machine.stmt, goto, SpinLock.exchange, hdata, if_true]
          | false =>
            refine .inl ⟨{ m.lock with inner := ⟨true⟩ }, _, .stmt c found rflags rflags _ (.got w), ?_⟩
            simp only [Machine.stmt, goto, SpinLock.exchange, hdata, Bool.false_eq_true, if_false]
        | keep w => exact .inl ⟨_, _, .stmt c found _ _ _ (.keep w), rfl⟩
        | body t =>
          refine .inr ⟨c, found, t, rflags, below, rfl, ?_⟩
          rcases hstep : code.step c m.shared t with ⟨shared, t' | r⟩
          · simp only [Machine.stmt, goto, hstep, Stage.after]
          · simp only [Machine.stmt, goto, hstep, Stage.after]
        | reload r => exact .inl ⟨_, _, .stmt c found _ _ _ (.reload r _), rfl⟩
        | store r w => exact .inl ⟨_, _, .stmt c found _ _ _ (.store r w), rfl⟩
        | restore r w => exact .inl ⟨_, _, .stmt c found _ _ _ (.restore r w), rfl⟩
        | done r => exact .inl ⟨_, _, .ret c found _ r _, rfl⟩

/-- Every reachable state is sound. -/
theorem sound {init : σ → Prop} (h : (runs code init).Reachable m) : ∃ holder, m.Sound holder := by
  refine h.invariant (I := fun m => ∃ holder, m.Sound holder) ?_ ?_
  · exact fun m hm => ⟨none, hm.1.sound⟩
  · rintro m ⟨p, action⟩ m' ⟨holder, hm⟩ hs
    exact hm.step code hs

/-! ## The law -/

/-- What the lock is for, of one state. -/
structure Exclusive (m : Machine P σ κ τ ρ) : Prop where
  /-- The lock is taken exactly while somebody is under it. -/
  taken : m.lock.inner.data = true ↔ ∃ p, ∃ a ∈ m.cpus p, a.holds = true
  /-- That is one activation of one processor. -/
  unique : ∀ p q (i j : Nat) (a b : Activation κ τ ρ), (m.cpus p)[i]? = some a →
    (m.cpus q)[j]? = some b →
    a.holds = true → b.holds = true → p = q ∧ i = j
  /-- It executes, and cannot be interrupted. -/
  executes : ∀ p, ∀ a ∈ m.cpus p, a.holds = true →
    (m.cpus p).head? = some a ∧ a.interrupts = false
  /-- A processor that tries the lock does not have it in code that it interrupted. -/
  elsewhere : ∀ p c found w rflags below,
    m.cpus p = ⟨.call c found (.exchange w), rflags⟩ :: below → ∀ b ∈ below, b.holds = false
  /-- Past the `release` the flags are those from before the `acquire`. -/
  restored : ∀ p, ∀ a ∈ m.cpus p, ∀ c found r, a.point = .call c found (.done r) → a.rflags = found

omit [DecidableEq P] in
/-- In a sound state nobody shares the lock. -/
theorem Sound.exclusive (h : m.Sound holder) : m.Exclusive := by
  -- who is under the lock is on top of the stack of the holder
  have htop : ∀ p, ∀ a ∈ m.cpus p, a.holds = true →
      ∃ below, m.cpus p = a :: below ∧ holder = some p := by
    intro p a ha hh
    cases hc : m.cpus p with
    | nil =>
      rw [hc] at ha
      cases ha
    | cons top below =>
      rw [hc] at ha
      rcases List.mem_cons.mp ha with rfl | ha
      · exact ⟨below, rfl, (h.holding p).mp ⟨a, by rw [hc]; rfl, hh⟩⟩
      · rw [Activation.holds_of_unmasked (h.below p a (by rw [hc]; exact ha))] at hh
        cases hh
  have hzero : ∀ p i a, (m.cpus p)[i]? = some a → a.holds = true → i = 0 := by
    intro p i a hi hh
    obtain ⟨below, hc, -⟩ := htop p a (List.mem_of_getElem? hi) hh
    cases i with
    | zero => rfl
    | succ i =>
      rw [hc, List.getElem?_cons_succ] at hi
      have hb : a ∈ (m.cpus p).tail := by
        rw [hc]
        exact List.mem_of_getElem? hi
      rw [Activation.holds_of_unmasked (h.below p a hb)] at hh
      cases hh
  refine ⟨?_, ?_, ?_, ?_, ?_⟩
  · rw [h.taken]
    constructor
    · intro hsome
      obtain ⟨p, hp⟩ := Option.isSome_iff_exists.mp hsome
      obtain ⟨a, ha, hh⟩ := (h.holding p).mpr hp
      exact ⟨p, a, List.mem_of_head? ha, hh⟩
    · rintro ⟨p, a, ha, hh⟩
      obtain ⟨-, -, hp⟩ := htop p a ha hh
      rw [hp]
      rfl
  · intro p q i j a b hi hj ha hb
    obtain ⟨-, -, hp⟩ := htop p a (List.mem_of_getElem? hi) ha
    obtain ⟨-, -, hq⟩ := htop q b (List.mem_of_getElem? hj) hb
    refine ⟨Option.some.inj (hp.symm.trans hq), ?_⟩
    rw [hzero p i a hi ha, hzero q j b hj hb]
  · intro p a ha hh
    obtain ⟨below, hc, -⟩ := htop p a ha hh
    refine ⟨by rw [hc]; rfl, ?_⟩
    exact (h.fits p a ha).off (Activation.masked_of_holds hh)
  · intro p c found w rflags below hc b hb
    exact Activation.holds_of_unmasked (h.below p b (by rw [hc]; exact hb))
  · intro p a ha c found r hpoint
    have hfits := h.fits p a ha
    unfold Activation.Fits at hfits
    rw [hpoint] at hfits
    exact hfits

/-- **The lock excludes.** In every interleaving of any number of processors, with interrupts
wherever the flag is on, whatever the code under the lock does. -/
theorem lock_exclusive {init : σ → Prop} (h : (runs code init).Reachable m) : m.Exclusive := by
  obtain ⟨holder, hm⟩ := sound code h
  exact hm.exclusive

/-- Code of one statement. -/
def oneStatement : Section Unit Unit Unit Unit := ⟨fun _ => (), fun _ s _ => (s, .inr ())⟩

/-- Two processors with interrupts on. -/
def twoIdle : Machine Bool Unit Unit Unit Unit := ⟨(), ⟨0, {}⟩, fun _ => [⟨.outside, ifMask⟩]⟩

/-- Both processors call; the first one gets the lock, and the second one tries. -/
def contention : List (Bool × Action Unit) :=
  [(false, .call ()), (true, .interrupt), (false, .go), (true, .call ()), (true, .go), (false, .go),
    (true, .go), (false, .go), (true, .go), (false, .go)]

theorem lock_exclusive_contention : ∃ m, contention.foldlM (fun m i => m.step oneStatement i.1 i.2)
    twoIdle = some m ∧ m.Exclusive ∧ m.lock.inner.data = true ∧ (m.cpus true).length = 2 := by
  have hidle : twoIdle.Idle := ⟨rfl, by
    intro p a ha
    rw [List.mem_singleton.mp ha]⟩
  have hrun : ∀ m, contention.foldlM (fun m i => m.step oneStatement i.1 i.2) twoIdle = some m →
      (runs oneStatement fun _ => True).Reachable m := fun m hm =>
    System.Reachable.foldlM (fun _ _ _ h => h) contention (.init ⟨hidle, trivial⟩) hm
  exact ⟨_, rfl, lock_exclusive oneStatement (hrun _ rfl), rfl, rfl⟩

end Machine

end TwoKernel.Smp
