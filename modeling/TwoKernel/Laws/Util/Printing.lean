import TwoKernel.Laws.Util.Format

/-!
# Printing

`vsnprintf` against the language of formats. `scan_directive` says everything that one
turn of its loop does at a directive: which bytes of the format it reads, and what it
computes with the pointer where it then is. From it follows what a whole format does.

* A format that does not end in `%ll` is printed as its directives say, and no byte
  outside it is read (`scan_yields`).
* After a format that ends in `%ll` the byte behind its NUL is read, if the call comes
  to an end at all (`scan_reads_past`): at the `%ll` the pointer is set on the NUL, and
  the loop advances it before it looks.
-/

namespace TwoKernel

open ByteMem Numerals

namespace Logger

variable {mem : Mem} {va : Nat → Word} {fuel k a n lo hi : Nat} {s s' : Printer} {c : Byte}
  {d : Directive} {ds : List Directive} {rest t out : List Byte} {P : Event → Prop}

/-! ## What a turn does -/

/-- How many bytes behind its first one are read at a directive. -/
def Directive.lookahead : Directive → Nat
  | .char _ => 0
  | .conv k => k.bytes.length - 1
  | .percent => 1
  | .other _ => 1
  | .bare => 2
  | .longOther _ => 3
  | .lone => 1
  | .cut => 3

/-- The reads at a directive at `a`, but for that of its first byte. -/
def Directive.reads (a : Nat) (d : Directive) : List Event :=
  (List.range d.lookahead).map fun i => .format (a + 1 + i)

section runs

variable (mem : Mem) (va : Nat → Word) (fuel : Nat)

/-- What is computed at a conversion. -/
def Conv.run : Conv → Printer → Run Printer
  | .str, s => convS mem va fuel (s.skip 1)
  | .int, s => convD va fuel (s.skip 1)
  | .uint, s => convU va fuel (s.skip 1)
  | .hex, s => convX va fuel (s.skip 1)
  | .longUint, s => convLlu va fuel (s.skip 3)
  | .longHex, s => convLlx va fuel (s.skip 3)

/-- What is computed at a directive, after the reads. -/
def Directive.run : Directive → Printer → Run Printer
  | .char c, s => pure (plain c s)
  | .conv k, s => k.run mem va fuel s
  | .percent, s => pure ((s.skip 1).put (ch '%'))
  | .other c, s => pure (((s.skip 1).put (ch '%')).put c)
  | .bare, s => pure (s.skip 1)
  | .longOther _, s => pure (s.skip 3)
  | .lone, s => pure (s.put (ch '%'))
  | .cut, s => pure (s.skip 3)

end runs

private theorem percent_eq (h : mem (s.fmt + 1) = c) : percent mem va fuel s =
    (Logged.tells [.format (s.fmt + 1)] >>= fun _ => conversion mem va fuel c (s.skip 1)) := by
  rw [← h]
  rfl

private theorem convL_bare (h : mem (s.fmt + 1) ≠ ch 'l') :
    convL mem va fuel s = (Logged.tells [.format (s.fmt + 1)] >>= fun _ => pure s) := by
  show (Logged.tells [.format (s.fmt + 1)] >>= fun _ =>
    if mem (s.fmt + 1) = ch 'l' then convLl mem va fuel (s.skip 2) else pure s) = _
  rw [if_neg h]

private theorem convL_long (h : mem (s.fmt + 1) = ch 'l') (hc : mem (s.fmt + 2) = c) :
    convL mem va fuel s = (Logged.tells [.format (s.fmt + 1), .format (s.fmt + 2)] >>= fun _ =>
      if c = ch 'x' then convLlx va fuel (s.skip 2)
      else if c = ch 'u' then convLlu va fuel (s.skip 2)
      else pure (s.skip 2)) := by
  show (Logged.tells [.format (s.fmt + 1)] >>= fun _ =>
    if mem (s.fmt + 1) = ch 'l' then convLl mem va fuel (s.skip 2) else pure s) = _
  rw [if_pos h, ← hc]
  exact Logged.tells_bind_tells _ _ _

private theorem conversion_other (h : (Directive.other c).Fits rest) :
    conversion mem va fuel c s = pure ((s.put (ch '%')).put c) := by
  obtain ⟨hnul, hs, hd, hu, hx, hl, hp⟩ := h
  unfold conversion convDefault
  rw [if_neg hs, if_neg hd, if_neg hu, if_neg hx, if_neg hl, if_neg hp, if_pos hnul]

/-- The body of the loop at `%`. -/
theorem turn_percent (h : mem s.fmt = ch '%') (hc : mem (s.fmt + 1) = c) :
    turn mem va fuel (mem s.fmt) s =
      (Logged.tells [.format (s.fmt + 1)] >>= fun _ => conversion mem va fuel c (s.skip 1)) := by
  unfold turn
  rw [if_neg (not_not_intro h), percent_eq hc]

/-- The body of the loop at `%ll`. -/
theorem turn_long (h : mem s.fmt = ch '%') (hl : mem (s.fmt + 1) = ch 'l')
    (hl' : mem (s.fmt + 2) = ch 'l') (hc : mem (s.fmt + 3) = c) :
    turn mem va fuel (mem s.fmt) s =
      (Logged.tells [.format (s.fmt + 1), .format (s.fmt + 2), .format (s.fmt + 3)] >>= fun _ =>
        if c = ch 'x' then convLlx va fuel (s.skip 3)
        else if c = ch 'u' then convLlu va fuel (s.skip 3)
        else pure (s.skip 3)) := by
  have hconv : conversion mem va fuel (ch 'l') (s.skip 1) = convL mem va fuel (s.skip 1) := rfl
  rw [turn_percent h hl, hconv, convL_long (s := s.skip 1) hl' hc]
  exact Logged.tells_bind_tells _ _ _

/-- **The body of the loop** at a directive. -/
theorem turn_eq (hfits : d.Fits rest) (hbytes : BytesAt mem s.fmt (d.bytes ++ (rest ++ [0]))) :
    turn mem va fuel (mem s.fmt) s =
      (Logged.tells (d.reads s.fmt) >>= fun _ => d.run mem va fuel s) := by
  cases d with
  | char c =>
    obtain ⟨hc, -⟩ := hbytes
    unfold turn
    rw [if_pos (hc ▸ hfits.2), hc]
    rfl
  | conv kind =>
    cases kind with
    | longUint =>
      obtain ⟨hc, hl, hl', hu, -⟩ := hbytes
      exact turn_long hc hl hl' hu
    | longHex =>
      obtain ⟨hc, hl, hl', hx, -⟩ := hbytes
      exact turn_long hc hl hl' hx
    | _ =>
      obtain ⟨hc, hc', -⟩ := hbytes
      exact turn_percent hc hc'
  | percent =>
    obtain ⟨hc, hc', -⟩ := hbytes
    exact turn_percent hc hc'
  | other c =>
    obtain ⟨hc, hc', -⟩ := hbytes
    rw [turn_percent hc hc', conversion_other hfits]
    rfl
  | bare =>
    obtain ⟨hc, hl, hrest⟩ := hbytes
    have hne : mem (s.fmt + 2) ≠ ch 'l' := by
      cases rest with
      | nil =>
        rw [hrest.1]
        decide
      | cons e rest =>
        rw [hrest.1]
        exact fun h => hfits (congrArg some h)
    have hconv : conversion mem va fuel (ch 'l') (s.skip 1) = convL mem va fuel (s.skip 1) := rfl
    rw [turn_percent hc hl, hconv, convL_bare (s := s.skip 1) hne]
    exact Logged.tells_bind_tells _ _ _
  | longOther c =>
    obtain ⟨hc, hl, hl', hc', -⟩ := hbytes
    rw [turn_long hc hl hl' hc', if_neg hfits.2.1, if_neg hfits.2.2]
    rfl
  | lone =>
    have hrest : rest = [] := hfits
    rw [hrest] at hbytes
    obtain ⟨hc, hnul, -⟩ := hbytes
    exact turn_percent hc hnul
  | cut =>
    have hrest : rest = [] := hfits
    rw [hrest] at hbytes
    obtain ⟨hc, hl, hl', hnul, -⟩ := hbytes
    exact turn_long hc hl hl' hnul

private theorem first_ne_zero (hfits : d.Fits rest) (hbytes : BytesAt mem a (d.bytes ++ (rest ++ [0]))) :
    mem a ≠ 0 := by
  have hpercent : ch '%' ≠ 0 := by decide
  cases d with
  | char c => exact hbytes.1 ▸ hfits.1
  | conv kind => cases kind <;> exact hbytes.1 ▸ hpercent
  | _ => exact hbytes.1 ▸ hpercent

/-- **One turn.** At a directive of the format the loop reads its bytes and computes what the directive
says, and goes on behind it. -/
theorem scan_directive (hfits : d.Fits rest) (hbytes : BytesAt mem s.fmt (d.bytes ++ (rest ++ [0]))) :
    scan mem va fuel (k + 1) s = (Logged.tells (.format s.fmt :: d.reads s.fmt) >>= fun _ =>
      d.run mem va fuel s >>= fun s => scan mem va fuel k (s.skip 1)) := by
  have hturn : scan mem va fuel (k + 1) s = (Logged.tells [.format s.fmt] >>= fun _ =>
      if mem s.fmt = 0 then pure s
      else turn mem va fuel (mem s.fmt) s >>= fun s => scan mem va fuel k (s.skip 1)) := rfl
  rw [hturn, if_neg (first_ne_zero hfits hbytes), turn_eq hfits hbytes, Logged.tells_bind_bind]
  exact Logged.tells_bind_tells _ _ _

/-- At the NUL the loop ends. -/
theorem scan_end (h : mem s.fmt = 0) :
    scan mem va fuel (k + 1) s = (Logged.tells [.format s.fmt] >>= fun _ => pure s) := by
  have hturn : scan mem va fuel (k + 1) s = (Logged.tells [.format s.fmt] >>= fun _ =>
      if mem s.fmt = 0 then pure s
      else turn mem va fuel (mem s.fmt) s >>= fun s => scan mem va fuel k (s.skip 1)) := rfl
  rw [hturn, if_pos h]

private theorem Directive.lookahead_le (d : Directive) : d.lookahead ≤ d.bytes.length := by
  cases d with
  | conv kind => exact Nat.sub_le _ _
  | _ => simp [Directive.lookahead, Directive.bytes]

/-! ## What is printed -/

/-- What may be recorded at a format from `lo` to `hi`, an overflow apart. -/
structure Allows (P : Event → Prop) (lo hi : Nat) : Prop where
  format : ∀ x, lo ≤ x → x ≤ hi → P (.format x)
  tmp : ∀ size i, i < size → P (.tmp size i)

theorem Allows.reads (h : Allows P lo hi) (hlo : lo ≤ a) (hhi : a + d.bytes.length ≤ hi) :
    ∀ e ∈ Event.format a :: d.reads a, P e := by
  intro e he
  rcases List.mem_cons.mp he with rfl | he
  · exact h.format a hlo (by omega)
  · obtain ⟨i, hi, rfl⟩ := List.mem_map.mp he
    have hi := List.mem_range.mp hi
    have hahead := d.lookahead_le
    exact h.format _ (by omega) (by omega)

private theorem copyString_yields {p : Nat} (h : StringAt mem p t) (hfuel : t.length < fuel) :
    Logged.Yields P (copyString mem fuel p s) { s with out := s.out ++ t } := by
  obtain ⟨hbytes, hnul⟩ := h
  induction t generalizing fuel p s with
  | nil =>
    obtain ⟨fuel, rfl⟩ := Nat.exists_eq_add_of_lt hfuel
    have hend : copyString mem (0 + fuel + 1) p s = pure s := if_pos hbytes.1
    rw [List.append_nil, List.length_nil, hend]
    exact .pure s
  | cons c t ih =>
    cases fuel with
    | zero => exact absurd hfuel (Nat.not_lt_zero _)
    | succ fuel =>
      obtain ⟨hc, hbytes⟩ := hbytes
      have hne : mem p ≠ 0 := hc ▸ fun h => hnul (h ▸ List.mem_cons_self)
      have hstep : copyString mem (fuel + 1) p s = copyString mem fuel (p + 1) (s.put (mem p)) :=
        if_neg hne
      rw [hstep, hc, List.append_cons]
      exact ih (Nat.lt_of_succ_lt_succ hfuel) hbytes fun h => hnul (List.mem_cons_of_mem c h)

private theorem convS_yields (h : Conv.str.Prints mem (va s.args) t) (hfuel : t.length < fuel) :
    Logged.Yields P (convS mem va fuel s) { s.took with out := s.out ++ t } := by
  unfold convS
  rcases h with ⟨hnull, rfl⟩ | ⟨hnull, hstr⟩
  · rw [if_pos hnull, List.append_nil]
    exact .pure _
  · rw [if_neg hnull]
    exact copyString_yields hstr hfuel

private theorem plain_eq (c : Byte) (s : Printer) : plain c s =
    { s with out := s.out ++ if c = ch '\n' then [ch '\r', c] else [c] } := by
  unfold plain
  split
  · rw [List.append_cons]
    rfl
  · rfl

/-- What is printed at a directive, and where the pointer is then. -/
theorem Directive.run_yields (h : Allows P lo hi) (hcut : d ≠ .cut)
    (hover : d = .conv .int → (va s.args).setWidth 32 = BitVec.intMin 32 → P .overflow)
    (hprint : d.Prints mem (va s.args) t) (hfuel : t.length + 20 < fuel) :
    Logged.Yields P (d.run mem va fuel s)
      ⟨s.fmt + d.bytes.length - 1, s.out ++ t, s.args + d.arity⟩ := by
  cases d with
  | char c =>
    have ht : t = if c = ch '\n' then [ch '\r', c] else [c] := hprint
    show Logged.Yields P (pure (plain c s)) _
    rw [plain_eq, ← ht]
    exact .pure _
  | conv kind =>
    cases kind with
    | str => exact convS_yields (s := s.skip 1) hprint (by omega)
    | int =>
      have ht : t = intText ((va s.args).setWidth 32) := hprint
      rw [ht]
      exact convD_yields (by omega) h.tmp (hover rfl)
    | uint =>
      have ht : t = numeral 10 ((va s.args).setWidth 32).toNat := hprint
      rw [ht]
      exact convU_yields (by omega) h.tmp
    | hex =>
      have ht : t = numeral 16 ((va s.args).setWidth 32).toNat := hprint
      rw [ht]
      exact convX_yields (by omega) h.tmp
    | longUint =>
      have ht : t = numeral 10 (va s.args).toNat := hprint
      rw [ht]
      exact convLlu_yields (by omega) h.tmp
    | longHex =>
      have ht : t = numeral 16 (va s.args).toNat := hprint
      rw [ht]
      exact convLlx_yields (by omega) h.tmp
  | percent =>
    have ht : t = [ch '%'] := hprint
    rw [ht]
    exact .pure _
  | other c =>
    have ht : t = [ch '%', c] := hprint
    rw [ht, List.append_cons]
    exact .pure _
  | bare =>
    have ht : t = [] := hprint
    rw [ht, List.append_nil]
    exact .pure _
  | longOther c =>
    have ht : t = [] := hprint
    rw [ht, List.append_nil]
    exact .pure _
  | lone =>
    have ht : t = [ch '%'] := hprint
    rw [ht]
    exact .pure _
  | cut => exact absurd rfl hcut

/-- **A format is printed as its directives say**, unless it ends in `%ll`. -/
theorem scan_yields (h : Allows P lo hi) (hover : P .overflow) (hrender : Renders mem va n ds t)
    (hwf : WellFormed ds) (hcut : .cut ∉ ds) (hbytes : BytesAt mem a (spell ds ++ [0]))
    (hlo : lo ≤ a) (hhi : a + (spell ds).length ≤ hi) (hfuel : t.length + 20 < fuel)
    (hk : ds.length < k) :
    ∃ m, Logged.Yields P (scan mem va fuel k ⟨a, out, n⟩) ⟨a + (spell ds).length, out ++ t, m⟩ := by
  induction hrender generalizing a out k with
  | nil n =>
    obtain ⟨k, rfl⟩ := Nat.exists_eq_add_of_lt hk
    have hend : scan mem va fuel (0 + k + 1) ⟨a, out, n⟩ =
        (Logged.tells [.format a] >>= fun _ => pure ⟨a, out, n⟩) := scan_end hbytes.1
    rw [List.length_nil, hend, List.append_nil]
    refine ⟨n, (Logged.Yields.tells ?_).bind (.pure _)⟩
    exact List.forall_mem_singleton.mpr (h.format a hlo hhi)
  | @cons n d ds t t' hd hds ih =>
    cases k with
    | zero => exact absurd hk (Nat.not_lt_zero _)
    | succ k =>
      obtain ⟨hfits, hwf⟩ := hwf
      obtain ⟨hcut', hcut⟩ := not_or.mp (mt List.mem_cons.mpr hcut)
      rw [spell_cons, List.append_assoc] at hbytes
      rw [spell_cons, List.length_append] at hhi ⊢
      rw [List.length_append] at hfuel
      have hpos := List.length_pos_iff.mpr d.bytes_ne_nil
      obtain ⟨m, hrest⟩ := ih hwf hcut (bytesAt_append.mp hbytes).2 (by omega) (by omega) (by omega)
        (Nat.lt_of_succ_lt_succ hk)
      have hrun : Logged.Yields P (d.run mem va fuel ⟨a, out, n⟩)
          ⟨a + d.bytes.length - 1, out ++ t, n + d.arity⟩ :=
        Directive.run_yields h (Ne.symm hcut') (fun _ _ => hover) hd (by omega)
      rw [scan_directive (s := ⟨a, out, n⟩) hfits hbytes, ← Nat.add_assoc, ← List.append_assoc]
      refine ⟨m, (Logged.Yields.tells (h.reads hlo (by omega))).bind (hrun.bind ?_)⟩
      unfold Printer.skip
      rw [Nat.sub_add_cancel (by omega)]
      exact hrest

/-! ## What is read past the end -/

/-- The computation leaves the pointer where it is. -/
def Stays (s : Printer) (x : Run Printer) : Prop := Logged.Leaves (fun _ s' => s'.fmt = s.fmt) x

private theorem copyString_stays (fuel p : Nat) (s : Printer) : Stays s (copyString mem fuel p s) := by
  induction fuel generalizing p s with
  | zero => exact .error
  | succ fuel ih =>
    unfold copyString
    split
    · exact .pure rfl
    · exact ih (p + 1) (s.put (mem p))

private theorem number_stays {w : Nat} (more : BitVec w → Bool) (digit : BitVec w → Byte)
    (next : BitVec w → BitVec w) (size fuel : Nat) (val : BitVec w) (s : Printer) :
    Stays s (number more digit next size fuel val s) := by
  have hemit : ∀ i tmp, (emit i tmp s).fmt = s.fmt := fun i tmp => by rw [emit_eq]
  unfold number
  split
  · exact Logged.Leaves.bind (P := fun _ _ => True) ⟨fun _ _ => trivial⟩
      fun _ _ _ => .pure (hemit _ _)
  · exact Logged.Leaves.bind (P := fun _ _ => True) ⟨fun _ _ => trivial⟩
      fun _ r _ => .pure (hemit _ _)

private theorem convD_stays (fuel : Nat) (s : Printer) : Stays s (convD va fuel s) := by
  unfold convD
  dsimp only
  have hnumber : ∀ val (s : Printer), Stays s (numberD fuel val s) :=
    fun val s => number_stays _ _ _ _ _ _ _
  split
  · exact Logged.Leaves.bind (P := fun _ _ => True) ⟨fun _ _ => trivial⟩
      fun _ val _ => hnumber val (s.took.put (ch '-'))
  · exact hnumber _ s.took

private theorem convS_stays (fuel : Nat) (s : Printer) : Stays s (convS mem va fuel s) := by
  unfold convS
  split
  · exact .pure rfl
  · exact copyString_stays fuel _ s.took

/-- Where the pointer is after a directive, if the call comes that far. -/
theorem Directive.run_fmt (hcut : d ≠ .cut) (hres : (d.run mem va fuel s).result = .ok s') :
    s'.fmt + 1 = s.fmt + d.bytes.length := by
  have hconv : ∀ {s₀ : Printer} {x : Run Printer}, Stays s₀ x → x.result = .ok s' →
      s'.fmt = s₀.fmt := fun hstays hx => hstays.of_ok s' hx
  cases d with
  | char c =>
    cases hres
    rw [plain_eq]
    rfl
  | conv kind =>
    cases kind with
    | str => rw [hconv (convS_stays _ _) hres]; rfl
    | int => rw [hconv (convD_stays _ _) hres]; rfl
    | _ => rw [hconv (number_stays _ _ _ _ _ _ _) hres]; rfl
  | cut => exact absurd rfl hcut
  | _ =>
    cases hres
    rfl

/-- The loop starts by reading. -/
theorem scan_reads (s : Printer) : .format s.fmt ∈ (scan mem va fuel (k + 1) s).log := by
  have hlog : (scan mem va fuel (k + 1) s).log = [.format s.fmt] ++ (if mem s.fmt = 0 then pure s
      else turn mem va fuel (mem s.fmt) s >>= fun s => scan mem va fuel k (s.skip 1) :
        Run Printer).log := rfl
  rw [hlog]
  exact List.mem_cons_self

/-- **A format that ends in `%ll` is left.** If the call returns, it has read the byte behind the NUL. -/
theorem scan_reads_past (hwf : WellFormed ds) (hcut : .cut ∈ ds)
    (hbytes : BytesAt mem s.fmt (spell ds ++ [0])) (hres : (scan mem va fuel k s).result = .ok s') :
    .format (s.fmt + (spell ds).length + 1) ∈ (scan mem va fuel k s).log := by
  induction ds generalizing s k with
  | nil => exact absurd hcut List.not_mem_nil
  | cons d ds ih =>
    cases k with
    | zero => cases hres
    | succ k =>
      obtain ⟨hfits, hwf⟩ := hwf
      rw [spell_cons, List.append_assoc] at hbytes
      rw [spell_cons, List.length_append]
      rw [scan_directive hfits hbytes] at hres ⊢
      obtain ⟨-, -, hres, hlog⟩ := Logged.result_bind_ok hres
      obtain ⟨s₁, hrun, hrest, hlog'⟩ := Logged.result_bind_ok hres
      rw [hlog, hlog']
      refine List.mem_append_right _ (List.mem_append_right _ ?_)
      by_cases hd : d = .cut
      · -- the pointer is on the NUL, and the loop advances it
        subst hd
        have hlast : spell ds = [] := hfits
        cases hrun
        cases k with
        | zero => cases hrest
        | succ k =>
          rw [hlast]
          exact scan_reads _
      · have hfmt := Directive.run_fmt hd hrun
        have hin : .format ((s₁.skip 1).fmt + (spell ds).length + 1) ∈
            (scan mem va fuel k (s₁.skip 1)).log := by
          refine ih hwf ((List.mem_cons.mp hcut).resolve_left (Ne.symm hd)) ?_ hrest
          show BytesAt mem (s₁.fmt + 1) _
          rw [hfmt]
          exact (bytesAt_append.mp hbytes).2
        have haddr : (s₁.skip 1).fmt = s.fmt + d.bytes.length := hfmt
        rw [haddr, Nat.add_assoc s.fmt] at hin
        exact hin

/-! ## Whole calls -/

/-- What is recorded lies in the format from `lo` to `hi` and in the digit buffers. -/
def Inside (lo hi : Nat) : Event → Prop
  | .format x => lo ≤ x ∧ x ≤ hi
  | .tmp size i => i < size
  | .overflow => True

private theorem allows_inside (lo hi : Nat) : Allows (Inside lo hi) lo hi :=
  ⟨fun _ hlo hhi => ⟨hlo, hhi⟩, fun _ _ hi => hi⟩

/-- **A whole call** prints what the directives of its format say. -/
theorem vsnprintf_yields {fmt : Nat} (hfmt : BytesAt mem fmt (spell ds ++ [0])) (hwf : WellFormed ds)
    (hcut : .cut ∉ ds) (hrender : Renders mem va 0 ds t) :
    ∃ fuel, Logged.Yields (Inside fmt (fmt + (spell ds).length)) (vsnprintf mem va fuel fmt)
      (t ++ [0], BitVec.ofNat 32 t.length) := by
  have hscan : ∃ m, Logged.Yields (Inside fmt (fmt + (spell ds).length))
      (scan mem va (t.length + ds.length + 21) (t.length + ds.length + 21) ⟨fmt, [], 0⟩)
      ⟨fmt + (spell ds).length, [] ++ t, m⟩ :=
    scan_yields (allows_inside _ _) trivial hrender hwf hcut hfmt le_rfl le_rfl (by omega) (by omega)
  obtain ⟨m, hscan⟩ := hscan
  exact ⟨t.length + ds.length + 21, hscan.bind (.pure _)⟩

end Logger

end TwoKernel
