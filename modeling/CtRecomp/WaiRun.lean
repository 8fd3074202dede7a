import CtRecomp.AdvanceEvents
import CtRecomp.ChargeWhole

namespace CtRecomp

open Loop

variable {δ : Type}

/-! A waiting CPU's run of idle cycles against the cycles one by one. -/

/-- An idle cycle with no run before it. -/
def waiOne (D : Devices δ) (i : Bool) (s : Sched δ) : SchedM δ (Sched δ × Bool) := do
  let start := s.clk.lineStart + s.clk.hclock
  let (w, seen) ← fatally (waiWalk D i s)
  let s ← walkCommit D w start w.t (s.setPend w.pend)
  pure (s, seen)

/-- `k` idle cycles and one more, each walked, up to one that sees an interrupt. -/
def waiCycles (D : Devices δ) (i : Bool) : Nat → Sched δ → SchedM δ (Sched δ × Bool)
  | 0, s => waiOne D i s
  | k + 1, s => do
    let (s, seen) ← waiOne D i s
    if seen then pure (s, true) else waiCycles D i k s

/-- The idle cycles `wai_cycle` runs at once. -/
def waiSkip (s : Sched δ) : Nat :=
  if waiQuiet s.regs.pend = true ∧ s.clk.hclock + 12 < waiNext s.clk then
    (waiNext s.clk - s.clk.hclock) / 6 - 1
  else 0

/-- In the next `n` clocks nothing comes up that a CPU or a device could see. -/
structure Calm (n : Nat) (c : Clock) : Prop where
  nmi : c.nmiDone = true ∨ c.hclock + n < 6
  irq : c.irqDone = true ∨ ∀ at', c.irqAt = some at' → c.hclock + n < at'
  line : c.hclock + n < c.lineClocks
  refresh : c.refreshDone = true ∨ c.hclock + n < c.refreshAt
  hdma : c.hblankDone = true ∨ schedVblankLine ≤ c.line ∨ c.hclock + n < schedHdmaClock
  init : c.line ≠ 0 ∨ c.initDone = true ∨ c.hclock + n < 12 + c.lineStart % 8

theorem of_lt_min_if {p : Prop} [Decidable p] {n clock next : Nat}
    (h : n < if p then min clock next else next) : n < next ∧ (p → n < clock) := by
  by_cases hp : p
  · rw [if_pos hp] at h
    exact ⟨(Nat.lt_min.mp h).2, fun _ => (Nat.lt_min.mp h).1⟩
  · rw [if_neg hp] at h
    exact ⟨h, fun hp' => absurd hp' hp⟩

theorem of_lt_min_irq {p : Prop} [Decidable p] {n next : Nat} {irqAt : Option Nat}
    (h : n < if p then irqAt.elim next (fun clock => min clock next) else next) :
    n < next ∧ (p → ∀ at', irqAt = some at' → n < at') := by
  cases irqAt with
  | none =>
    refine ⟨?_, fun _ _ => nofun⟩
    split at h <;> exact h
  | some clock =>
    obtain ⟨hnext, hclock⟩ := of_lt_min_if h
    refine ⟨hnext, fun hp at' hat => ?_⟩
    cases hat
    exact hclock hp

theorem done_or {done : Bool} {P : Prop} (h : done = false → P) : done = true ∨ P := by
  cases done with
  | true => exact .inl rfl
  | false => exact .inr (h rfl)

/-- Every event still to come is no sooner than `waiNext`. -/
theorem calm_of_waiNext {c : Clock} {n : Nat} (h : c.hclock + n < waiNext c) : Calm n c := by
  obtain ⟨h, hirq⟩ := of_lt_min_irq h
  obtain ⟨h, hnmi⟩ := of_lt_min_if h
  obtain ⟨h, hinit⟩ := of_lt_min_if h
  obtain ⟨h, hhdma⟩ := of_lt_min_if h
  obtain ⟨hline, hrefresh⟩ := of_lt_min_if h
  refine ⟨done_or hnmi, done_or hirq, hline, done_or hrefresh, ?_, ?_⟩
  · refine done_or fun hd => ?_
    rcases Nat.lt_or_ge c.line schedVblankLine with hlt | hge
    · exact .inr (hhdma ⟨hd, hlt⟩)
    · exact .inl hge
  · by_cases hz : c.line = 0
    · exact .inr (done_or fun hd => hinit ⟨hz, hd⟩)
    · exact .inl hz

/-- The RDNMI flag on a line by clock `h`. -/
def coastRegs (line h : Nat) (r : Regs) : Regs :=
  if line = schedVblankLine ∧ r.rdnmiSet = false ∧ 2 ≤ h then
    { r with rdnmi := 0x80, rdnmiSet := true }
  else if line = 0 ∧ r.rdnmiCleared = false ∧ 2 ≤ h then { r with rdnmi := 0, rdnmiCleared := true }
  else r

/-- The clock `n` on, with the RDNMI flag and the end of a VBlank line's picture passed if due. -/
def coast (n : Nat) (s : Sched δ) : Sched δ :=
  let h := s.clk.hclock + n
  { s with
    clk := { s.clk with hclock := h, hblankDone := s.clk.hblankDone || decide (schedHdmaClock ≤ h) }
    regs := coastRegs s.clk.line h s.regs }

section

variable {D : Devices δ} {s : Sched δ} {n : Nat}

/-- No other event is due. -/
theorem Calm.nextEvent (hc : Calm 0 s.clk) : nextEvent s.clk s.regs =
    if s.clk.line = schedVblankLine ∧ s.regs.rdnmiSet = false ∧ 2 ≤ s.clk.hclock then
      some .rdnmiSet
    else if s.clk.line = 0 ∧ s.regs.rdnmiCleared = false ∧ 2 ≤ s.clk.hclock then some .rdnmiClear
    else if s.clk.hblankDone = false ∧ schedHdmaClock ≤ s.clk.hclock then some .hdmaPoint
    else none := by
  have hnmi : ¬(s.clk.nmiDone = false ∧ 6 ≤ s.clk.hclock) := by
    rintro ⟨hdone, hpast⟩
    rcases hc.nmi with hd | hlt
    · exact Bool.noConfusion (hd.symm.trans hdone)
    · omega
  have hrefresh : ¬(s.clk.refreshDone = false ∧ s.clk.refreshAt ≤ s.clk.hclock) := by
    rintro ⟨hdone, hpast⟩
    rcases hc.refresh with hd | hlt
    · exact Bool.noConfusion (hd.symm.trans hdone)
    · omega
  have hirq : ¬(s.clk.irqDone = false ∧ s.clk.irqAt.any (· ≤ s.clk.hclock)) := by
    rintro ⟨hdone, hany⟩
    rcases hc.irq with hd | hlt
    · exact Bool.noConfusion (hd.symm.trans hdone)
    · obtain ⟨at', hat', hpast⟩ := (Option.any_eq_true _ _).mp hany
      exact absurd (hlt at' hat') (Nat.not_lt.mpr (of_decide_eq_true hpast))
  have hearly : ¬(s.clk.irqDone = false ∧
      s.clk.irqAt.any (fun at' => at' < schedHdmaClock ∧ at' ≤ s.clk.hclock)) := by
    rintro ⟨hdone, hany⟩
    obtain ⟨at', hat', hpast⟩ := (Option.any_eq_true _ _).mp hany
    refine hirq ⟨hdone, (Option.any_eq_true _ _).mpr ⟨at', hat', ?_⟩⟩
    exact decide_eq_true (of_decide_eq_true hpast).2
  have hline : ¬s.clk.lineClocks ≤ s.clk.hclock := Nat.not_le.mpr hc.line
  unfold CtRecomp.nextEvent
  rw [if_neg hnmi, if_neg hrefresh, if_neg hearly, if_neg hirq, if_neg hline]

/-- The picture's end on a VBlank line: no device runs. -/
theorem Calm.hblank (hc : Calm 0 s.clk) (hdone : s.clk.hblankDone = false)
    (hpast : schedHdmaClock ≤ s.clk.hclock) :
    hblank D s = .ok { s with clk := { s.clk with hblankDone := true } } := by
  have hline : ¬s.clk.line < schedVblankLine := by
    rcases hc.hdma with hd | hge | hlt
    · exact fun _ => Bool.noConfusion (hd.symm.trans hdone)
    · omega
    · omega
  unfold CtRecomp.hblank onlyIf
  rw [if_neg hline]
  rfl

theorem Calm.later (hc : Calm n s.clk) : Calm 0 (s.later n).clk :=
  ⟨hc.nmi, hc.irq, hc.line, hc.refresh, hc.hdma, hc.init⟩

theorem fullTrail_picture (hc : Calm 0 s.clk) (how : Commit)
    (hset : ¬(s.clk.line = schedVblankLine ∧ s.regs.rdnmiSet = false ∧ 2 ≤ s.clk.hclock))
    (hclear : ¬(s.clk.line = 0 ∧ s.regs.rdnmiCleared = false ∧ 2 ≤ s.clk.hclock)) :
    (fullTrail D how s).2 = .ok { s with clk := { s.clk with
      hblankDone := s.clk.hblankDone || decide (schedHdmaClock ≤ s.clk.hclock) } } := by
  have hnext := hc.nextEvent
  rw [if_neg hset, if_neg hclear] at hnext
  by_cases hdue : s.clk.hblankDone = false ∧ schedHdmaClock ≤ s.clk.hclock
  · rw [if_pos hdue] at hnext
    have hfire : ClockEvent.hdmaPoint.fire D how s = _ := hc.hblank hdue.1 hdue.2
    rw [fullTrail_ok hnext hfire]
    have hc' : Calm 0 { s.clk with hblankDone := true } :=
      ⟨hc.nmi, hc.irq, hc.line, hc.refresh, .inl rfl, hc.init⟩
    have hnext' := Calm.nextEvent (s := { s with clk := { s.clk with hblankDone := true } }) hc'
    dsimp only at hnext'
    rw [if_neg hset, if_neg hclear, if_neg (by simp)] at hnext'
    rw [fullTrail_none hnext', decide_eq_true hdue.2, Bool.or_true]
  · rw [if_neg hdue] at hnext
    rw [fullTrail_none hnext]
    have hsame : (s.clk.hblankDone || decide (schedHdmaClock ≤ s.clk.hclock)) =
        s.clk.hblankDone := by
      cases hd : s.clk.hblankDone with
      | true => rfl
      | false => exact decide_eq_false fun hpast => hdue ⟨hd, hpast⟩
    rw [hsame]

theorem advance_coast (hc : Calm n s.clk) (how : Commit) :
    advance D how n s = .ok (coast n s) := by
  rw [← advanceTrail_snd]
  unfold advanceTrail
  have hnext := hc.later.nextEvent (s := s.later n)
  change _ = Except.ok (ε := Stop (Sched δ)) { s with clk := _, regs := coastRegs _ _ _ }
  unfold coastRegs
  by_cases hset : s.clk.line = schedVblankLine ∧ s.regs.rdnmiSet = false ∧ 2 ≤ s.clk.hclock + n
  · rw [if_pos (by exact hset)] at hnext
    rw [fullTrail_ok hnext rfl, if_pos hset]
    have hline : s.clk.line ≠ 0 := fun hzero => by cases hset.1.symm.trans hzero
    exact fullTrail_picture
      (s := { s.later n with regs := { s.regs with rdnmi := 0x80, rdnmiSet := true } })
      hc.later how (by simp) fun h => hline h.1
  · rw [if_neg (by exact hset)] at hnext
    rw [if_neg hset]
    by_cases hclear : s.clk.line = 0 ∧ s.regs.rdnmiCleared = false ∧ 2 ≤ s.clk.hclock + n
    · rw [if_pos (by exact hclear)] at hnext
      rw [fullTrail_ok hnext rfl, if_pos hclear]
      exact fullTrail_picture
        (s := { s.later n with regs := { s.regs with rdnmi := 0, rdnmiCleared := true } })
        hc.later how hset (by simp)
    · rw [if_neg hclear]
      exact fullTrail_picture hc.later how hset hclear

theorem coastRegs_coastRegs (line : Nat) {h h' : Nat} (hle : h ≤ h') (r : Regs) :
    coastRegs line h' (coastRegs line h r) = coastRegs line h' r := by
  by_cases hset : line = schedVblankLine ∧ r.rdnmiSet = false ∧ 2 ≤ h
  · obtain ⟨rfl, hflag, hpast⟩ := hset
    simp [coastRegs, hflag, hpast, Nat.le_trans hpast hle]
  · by_cases hclear : line = 0 ∧ r.rdnmiCleared = false ∧ 2 ≤ h
    · obtain ⟨rfl, hflag, hpast⟩ := hclear
      simp [coastRegs, hflag, hpast, Nat.le_trans hpast hle]
    · have hsame : coastRegs line h r = r := by
        unfold coastRegs
        rw [if_neg hset, if_neg hclear]
      rw [hsame]

theorem coast_coast (a b : Nat) (s : Sched δ) : coast b (coast a s) = coast (a + b) s := by
  have hclock : s.clk.hclock + a + b = s.clk.hclock + (a + b) := Nat.add_assoc _ _ _
  have hle : s.clk.hclock + a ≤ s.clk.hclock + a + b := Nat.le_add_right _ _
  have hregs := coastRegs_coastRegs s.clk.line hle s.regs
  have hdone : (s.clk.hblankDone || decide (schedHdmaClock ≤ s.clk.hclock + a) ||
      decide (schedHdmaClock ≤ s.clk.hclock + a + b)) =
      (s.clk.hblankDone || decide (schedHdmaClock ≤ s.clk.hclock + a + b)) := by
    by_cases hpast : schedHdmaClock ≤ s.clk.hclock + a
    · simp [hpast, Nat.le_trans hpast hle]
    · simp [hpast]
  unfold coast
  dsimp only
  rw [hregs, hdone, hclock]

theorem Calm.mono {m : Nat} (hc : Calm n s.clk) (hle : m ≤ n) : Calm m s.clk := by
  refine ⟨hc.nmi.imp_right (by omega), hc.irq.imp_right fun h at' hat => ?_, ?_,
    hc.refresh.imp_right (by omega), hc.hdma.imp_right (Or.imp_right (by omega)),
    hc.init.imp_right (Or.imp_right (by omega))⟩
  · have := h at' hat
    omega
  · have := hc.line
    omega

theorem Calm.coast {a b : Nat} (hc : Calm (a + b) s.clk) : Calm b (coast a s).clk := by
  have hadd : s.clk.hclock + a + b = s.clk.hclock + (a + b) := Nat.add_assoc _ _ _
  refine ⟨hadd ▸ hc.nmi, hadd ▸ hc.irq, hadd ▸ hc.line, hadd ▸ hc.refresh, ?_, hadd ▸ hc.init⟩
  rcases hc.hdma with hd | hge | hlt
  · refine .inl ?_
    change (s.clk.hblankDone || _) = true
    rw [hd, Bool.true_or]
  · exact .inr (.inl hge)
  · exact .inr (.inr (hadd ▸ hlt))

theorem Calm.outside (hc : Calm n s.clk) (hq : waiQuiet s.regs.pend = true) :
    Outside D n (s.setPend { s.regs.pend with dmaAfter := none, nmiAfter := none }) := by
  simp only [waiQuiet, Bool.and_eq_true, Bool.not_eq_true', decide_eq_true_eq] at hq
  obtain ⟨⟨⟨htransfer, hcount⟩, -⟩, -⟩ := hq
  exact ⟨htransfer, rfl, hcount, rfl, hc.nmi, hc.irq, hc.line, hc.refresh,
    hc.hdma.imp_right (Or.imp_right .inl), hc.init⟩

theorem quiet_sampled (hq : waiQuiet s.regs.pend = true) (i : Bool) :
    (s.sampled i).transfer = false ∧ (s.sampled i).needNmi = false ∧
      (s.sampled i).irqLine = false ∧ s.regs.pend.sample false i = s.sampled i := by
  simp only [waiQuiet, Bool.and_eq_true, Bool.not_eq_true', decide_eq_true_eq] at hq
  obtain ⟨⟨⟨htransfer, hcount⟩, hnmi⟩, hirq⟩ := hq
  exact ⟨htransfer, hnmi, hirq, by simp [Pend.sample, Sched.sampled, hcount]⟩

/-- The start of an idle cycle with nothing pending. -/
theorem quiet_cycleStart (hq : waiQuiet s.regs.pend = true) (i : Bool) :
    walkCycleStart D s 6 i (walkInit s) = .ok ((walkInit s).setPend (s.sampled i)) := by
  obtain ⟨htransfer, -, -, hsample⟩ := quiet_sampled hq i
  have htransfer' : (walkInit s).pend.transfer = false := htransfer
  unfold walkCycleStart walkPending
  rw [if_pos htransfer', ← hsample]
  rfl

/-- One walked cycle. -/
theorem waiOne_calm (hat : s.clk.RefreshAtLine) (hq : waiQuiet s.regs.pend = true)
    (hc : Calm 6 s.clk) (i : Bool) :
    waiOne D i s = .ok (coast 6 (s.setPend (s.sampled i)), false) := by
  obtain ⟨-, hnmi, hirq, -⟩ := quiet_sampled hq i
  have ho : Outside D 6 (s.setPend { s.regs.pend with dmaAfter := none, nmiAfter := none }) :=
    hc.outside hq
  have hinit : Unmet D (s.setPend { s.regs.pend with dmaAfter := none, nmiAfter := none })
      ((walkInit s).setPend (s.sampled i)) := ⟨rfl, .inl rfl⟩
  obtain ⟨w, smp, hpass, hw, ht, hpend⟩ := hinit.pass ho hat (Nat.le_refl _) 6
  have hpass' : walkPass D s 6 6 ((walkInit s).setPend (s.sampled i)) = .ok (w, smp) := hpass
  have hpend' : w.pend = s.sampled i := hpend
  have hwalk : waiWalk D i s = .ok (w, false) := by
    unfold waiWalk
    rw [quiet_cycleStart hq i, ok_bind]
    have hseen : (((walkInit s).setPend (s.sampled i)).pend.needNmi ||
        ((walkInit s).setPend (s.sampled i)).pend.irqLine) = false := by
      change ((s.sampled i).needNmi || (s.sampled i).irqLine) = false
      rw [hnmi, hirq]
      rfl
    rw [hpass', hseen]
    rfl
  have hcommit := hw.commit ho ht (s.sampled i)
  unfold waiOne
  rw [hwalk]
  change (walkCommit D w (s.clk.lineStart + s.clk.hclock) w.t (s.setPend w.pend) >>=
    fun r => pure (r, false)) = _
  rw [hpend']
  change walkCommit D w (s.clk.lineStart + s.clk.hclock) w.t (s.setPend (s.sampled i)) = _
    at hcommit
  rw [hcommit]
  change (advance D ⟨false, none⟩ 6 (s.setPend (s.sampled i)) >>= fun r => pure (r, false)) = _
  rw [advance_coast (s := s.setPend (s.sampled i)) hc]
  rfl

/-- What the cycle before sampled, the next one samples again. -/
theorem waiOne_sampled (hq : waiQuiet s.regs.pend = true) (i : Bool) :
    waiOne D i (s.setPend (s.sampled i)) = waiOne D i s := by
  have hq' : waiQuiet (s.setPend (s.sampled i)).regs.pend = true := hq
  unfold waiOne waiWalk
  rw [quiet_cycleStart hq i, quiet_cycleStart hq' i]
  rfl

theorem coastRegs_pend (line h : Nat) (r : Regs) : (coastRegs line h r).pend = r.pend := by
  unfold coastRegs
  split
  · rfl
  · split <;> rfl

theorem coast_setPend (n : Nat) (s : Sched δ) (p : Pend) :
    coast n (s.setPend p) = (coast n s).setPend p := by
  have hregs : coastRegs s.clk.line (s.clk.hclock + n) { s.regs with pend := p } =
      { coastRegs s.clk.line (s.clk.hclock + n) s.regs with pend := p } := by
    unfold coastRegs
    split
    · rfl
    · split <;> rfl
  unfold coast Sched.setPend
  dsimp only
  rw [hregs]

/-- After a calm cycle and `n` clocks more, the next cycle is as after the clocks alone. -/
theorem waiOne_coast (hq : waiQuiet s.regs.pend = true) (i : Bool) (n : Nat) :
    waiOne D i (coast n (s.setPend (s.sampled i))) = waiOne D i (coast n s) := by
  have hpend : (coast n s).regs.pend = s.regs.pend := coastRegs_pend _ _ _
  have hq' : waiQuiet (coast n s).regs.pend = true := hpend ▸ hq
  have hsampled : s.sampled i = (coast n s).sampled i := by
    unfold Sched.sampled
    rw [hpend]
  rw [coast_setPend, hsampled]
  exact waiOne_sampled hq' i

theorem waiCycles_first (hat : s.clk.RefreshAtLine) (hq : waiQuiet s.regs.pend = true)
    (hc : Calm 6 s.clk) (i : Bool) (k : Nat) :
    waiCycles D i (k + 1) s = waiCycles D i k (coast 6 (s.setPend (s.sampled i))) := by
  change (waiOne D i s >>= fun r =>
    if r.2 = true then pure (r.1, true) else waiCycles D i k r.1) = _
  rw [waiOne_calm hat hq hc i]
  rfl

/-- Calm cycles one by one. -/
theorem waiCycles_calm (hat : s.clk.RefreshAtLine) (hq : waiQuiet s.regs.pend = true) (i : Bool)
    {k : Nat} (hc : Calm (6 * (k + 1)) s.clk) :
    waiCycles D i (k + 1) s = waiOne D i (coast (6 * (k + 1)) s) := by
  have hfirst := waiCycles_first (D := D) hat hq (hc.mono (by omega)) i k
  induction k generalizing s with
  | zero => exact hfirst.trans (waiOne_coast hq i 6)
  | succ k ih =>
    have hsplit : 6 * (k + 1 + 1) = 6 + 6 * (k + 1) := by omega
    have hc' : Calm (6 * (k + 1)) (coast 6 (s.setPend (s.sampled i))).clk :=
      Calm.coast (s := s.setPend (s.sampled i)) (hsplit ▸ hc)
    have hq' : waiQuiet (coast 6 (s.setPend (s.sampled i))).regs.pend = true := by
      change waiQuiet (coastRegs _ _ (s.setPend (s.sampled i)).regs).pend = true
      rw [coastRegs_pend]
      exact hq
    have hat' : (coast 6 (s.setPend (s.sampled i))).clk.RefreshAtLine := hat
    have hrest := ih hat' hq' hc' (waiCycles_first hat' hq' (hc'.mono (by omega)) i k)
    rw [hfirst, hrest, coast_coast, ← hsplit]
    exact waiOne_coast hq i _

/-- The first cycles see nothing. -/
theorem waiCycles_unseen (hat : s.clk.RefreshAtLine) (hq : waiQuiet s.regs.pend = true)
    (i : Bool) {k : Nat} (hc : Calm (6 * (k + 1)) s.clk) :
    ∃ r, waiCycles D i k s = .ok (r, false) := by
  cases k with
  | zero => exact ⟨_, waiOne_calm hat hq hc i⟩
  | succ k =>
    have hsplit : 6 * (k + 1 + 1) = 6 * (k + 1) + 6 := by omega
    have hlast : Calm 6 (coast (6 * (k + 1)) s).clk := Calm.coast (hsplit ▸ hc)
    have hq' : waiQuiet (coast (6 * (k + 1)) s).regs.pend = true := by
      change waiQuiet (coastRegs _ _ s.regs).pend = true
      rw [coastRegs_pend]
      exact hq
    rw [waiCycles_calm hat hq i (hc.mono (by omega))]
    exact ⟨_, waiOne_calm (s := coast (6 * (k + 1)) s) hat hq' hlast i⟩

end

/-- `wai_cycle` leaves what the cycles it runs at once and the one it walks leave one by one,
and none of those it runs at once sees an interrupt. -/
theorem waiCycle_eq_waiCycles {D : Devices δ} {good : Clock → RegAccess → Prop} {s : Sched δ}
    (h : HookRun D good s) (i : Bool) :
    waiCycle D i s = waiCycles D i (waiSkip s) s ∧
      ∀ j < waiSkip s, ∃ r, waiCycles D i j s = .ok (r, false) := by
  have hat := (hookRun_rested h).refreshAt
  unfold waiSkip
  by_cases hrun : waiQuiet s.regs.pend = true ∧ s.clk.hclock + 12 < waiNext s.clk
  · rw [if_pos hrun]
    obtain ⟨hq, hroom⟩ := hrun
    obtain ⟨k, hk⟩ : ∃ k, (waiNext s.clk - s.clk.hclock) / 6 - 1 = k + 1 :=
      ⟨(waiNext s.clk - s.clk.hclock) / 6 - 2, by omega⟩
    have hcalm {j : Nat} (hj : j ≤ k) : Calm (6 * (j + 1)) s.clk :=
      calm_of_waiNext (by omega)
    rw [hk]
    refine ⟨?_, fun j hj => waiCycles_unseen hat hq i (hcalm (by omega))⟩
    have hskip : waiRun D s = .ok (coast (6 * (k + 1)) s) := by
      unfold waiRun onlyIf
      dsimp only
      rw [if_pos ⟨hq, hroom⟩, hk]
      exact advance_coast (hcalm (Nat.le_refl k)) _
    rw [waiCycles_calm hat hq i (hcalm (Nat.le_refl k))]
    change (waiRun D s >>= waiOne D i) = _
    rw [hskip]
    rfl
  · rw [if_neg hrun]
    refine ⟨?_, fun j hj => absurd hj (Nat.not_lt_zero j)⟩
    have hskip : waiRun D s = .ok s := by
      unfold waiRun onlyIf
      dsimp only
      rw [if_neg hrun]
    change (waiRun D s >>= waiOne D i) = _
    rw [hskip]
    rfl

def waiTwice : SchedM Unit (Sched Unit × Bool) :=
  schedStart idleDevices 186 () >>=
    fun s => waiCycle idleDevices false s >>= fun r => waiCycle idleDevices false r.1

def waiSeen : Bool :=
  match waiTwice with
  | .ok (s, seen) =>
    (waiCycle idleDevices false s).isOk && decide (seen = false ∧ waiSkip s = 55)
  | .error _ => false

/-- Past the frame's start and the HDMA init: idle up to the refresh. -/
theorem waiCycle_eq_waiCycles_start : ∃ s r, (schedStart idleDevices 186 () >>=
      fun s => waiCycle idleDevices false s >>= fun r => waiCycle idleDevices false r.1) =
      .ok (s, false) ∧ waiSkip s = 55 ∧ waiCycle idleDevices false s = .ok r ∧
    waiCycles idleDevices false 55 s = .ok r ∧
    ∀ j < 55, ∃ r', waiCycles idleDevices false j s = .ok (r', false) := by
  have hseen : waiSeen = true := by decide +kernel
  unfold waiSeen at hseen
  cases htwice : waiTwice with
  | error e =>
    rw [htwice] at hseen
    cases hseen
  | ok rs =>
    obtain ⟨r, seen⟩ := rs
    rw [htwice] at hseen
    obtain ⟨hok, hskip⟩ := Bool.and_eq_true_iff.mp hseen
    obtain ⟨rfl, hfar⟩ := of_decide_eq_true hskip
    obtain ⟨s, hs, hrest⟩ := bind_eq_ok_iff.mp htwice
    obtain ⟨⟨s', i⟩, hone, htwo⟩ := bind_eq_ok_iff.mp hrest
    cases hlast : waiCycle idleDevices false r with
    | error e =>
      rw [hlast] at hok
      cases hok
    | ok q =>
      have hrun : HookRun idleDevices (fun _ _ => True) r :=
        ((HookRun.start hs).step (.wai hone)).step (.wai htwo)
      have hall := waiCycle_eq_waiCycles hrun false
      rw [hfar, hlast] at hall
      exact ⟨r, q, htwice, hfar, hlast, hall.1.symm, hall.2⟩

end CtRecomp
