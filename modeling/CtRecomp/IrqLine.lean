import CtRecomp.SchedHooks
import CtRecomp.WalkKeeps

namespace CtRecomp

open Loop

variable {δ : Type}

/-! H/V IRQs once they are disabled. -/

def Regs.irqOff (r : Regs) : Prop := r.nmitimen &&& 0x30 = 0

instance (r : Regs) : Decidable r.irqOff := inferInstanceAs (Decidable (_ = _))

/-- Nothing of an H/V IRQ is up while they are off. -/
def Regs.IrqQuiet (r : Regs) : Prop := r.irqOff → r.timeup = 0 ∧ r.pend.irqLine = false

/-- The line's own H/V timer event is over, or it has none. -/
def Clock.irqOver (c : Clock) : Prop := c.irqDone = true ∨ c.irqAt = none

instance (c : Clock) : Decidable c.irqOver := inferInstanceAs (Decidable (_ ∨ _))

/-- A write to $4200 turns H/V IRQs off only when the line's timer event is not
still to come. -/
def IrqTimely (c : Clock) : RegAccess → Prop
  | .nmitimen _ _ v => v &&& 0x30 = 0 → c.irqOver
  | _ => True

/-- IRQs off: no line and no flag, and the line will not raise them. -/
structure IrqSettled (c : Clock) (r : Regs) : Prop where
  quiet : r.IrqQuiet
  clock : r.irqOff → c.irqOver

/-! Register accesses. -/

/-- Any access but a write to $4200 keeps NMITIMEN and can only take the flag and
the line down. -/
structure IrqLowered (r r' : Regs) : Prop where
  nmitimen : r'.nmitimen = r.nmitimen
  timeup : r'.timeup = r.timeup ∨ r'.timeup = 0
  irqLine : r'.pend.irqLine = r.pend.irqLine ∨ r'.pend.irqLine = false

theorem IrqLowered.refl (r : Regs) : IrqLowered r r := ⟨rfl, .inl rfl, .inl rfl⟩

theorem IrqLowered.quiet {r r' : Regs} (h : IrqLowered r r') (hr : r.IrqQuiet) : r'.IrqQuiet := by
  intro hoff
  unfold Regs.irqOff at hoff
  rw [h.nmitimen] at hoff
  obtain ⟨ht, hl⟩ := hr hoff
  refine ⟨?_, ?_⟩
  · rcases h.timeup with ht' | ht'
    · rw [ht', ht]
    · exact ht'
  · rcases h.irqLine with hl' | hl'
    · rw [hl', hl]
    · exact hl'

theorem IrqLowered.settled {c : Clock} {r r' : Regs} (h : IrqLowered r r') (hr : IrqSettled c r) :
    IrqSettled c r' := by
  refine ⟨h.quiet hr.quiet, fun hoff => hr.clock ?_⟩
  unfold Regs.irqOff at hoff ⊢
  rwa [h.nmitimen] at hoff

theorem htimeVtimeWrite_lowered (reg : BitVec 16) (v : BitVec 8) (r : Regs) :
    IrqLowered r (htimeVtimeWrite reg v r) := by
  unfold htimeVtimeWrite
  dsimp only
  split
  · exact ⟨rfl, .inl rfl, .inl rfl⟩
  · exact ⟨rfl, .inl rfl, .inl rfl⟩

theorem autojoyStepAt_keeps (r : Regs) :
    (autojoyStepAt r).nmitimen = r.nmitimen ∧ (autojoyStepAt r).timeup = r.timeup ∧
      (autojoyStepAt r).pend = r.pend := by
  unfold autojoyStepAt
  dsimp only
  split
  · exact ⟨rfl, rfl, rfl⟩
  · split
    · exact ⟨rfl, rfl, rfl⟩
    · exact ⟨rfl, rfl, rfl⟩

theorem autojoyLoop_keeps (now n : Nat) (r : Regs) :
    (autojoyLoop now n r).nmitimen = r.nmitimen ∧ (autojoyLoop now n r).timeup = r.timeup ∧
      (autojoyLoop now n r).pend = r.pend := by
  induction n generalizing r with
  | zero => exact ⟨rfl, rfl, rfl⟩
  | succ n ih =>
    unfold autojoyLoop
    split
    · obtain ⟨hn, ht, hp⟩ := ih (autojoyStepAt r)
      obtain ⟨hn', ht', hp'⟩ := autojoyStepAt_keeps r
      exact ⟨hn.trans hn', ht.trans ht', hp.trans hp'⟩
    · exact ⟨rfl, rfl, rfl⟩

theorem autojoyUpdate_lowered (now : Nat) (r : Regs) : IrqLowered r (autojoyUpdate now r) := by
  obtain ⟨hn, ht, hp⟩ := autojoyLoop_keeps now (35 - r.autojoyStep) r
  exact ⟨hn, .inl ht, .inl (congrArg Pend.irqLine hp)⟩

theorem rdnmiRead_lowered (line ln h : Nat) (mdr : BitVec 8) (r : Regs) :
    IrqLowered r (rdnmiRead line ln h mdr r).2 := by
  unfold rdnmiRead
  dsimp only
  split
  all_goals split
  all_goals split
  all_goals exact ⟨rfl, .inl rfl, .inl rfl⟩

/-- A write to $4200 that turns H/V IRQs off drops the flag and the line. -/
theorem nmitimenWrite_quiet (inProgress : Bool) (busN : Nat) (v : BitVec 8) (r : Regs) :
    (nmitimenWrite inProgress busN v r).IrqQuiet := by
  unfold nmitimenWrite
  dsimp only
  split
  next => exact fun _ => ⟨rfl, rfl⟩
  next hv => exact fun hoff => absurd hoff hv

theorem nmitimenWrite_nmitimen (inProgress : Bool) (busN : Nat) (v : BitVec 8) (r : Regs) :
    (nmitimenWrite inProgress busN v r).nmitimen = v := by
  unfold nmitimenWrite
  dsimp only
  split
  · rfl
  · rfl

/-- An access is a write to $4200, or lowers. -/
theorem effect_lowered (a : RegAccess) (r : Regs) :
    (∃ inProgress busN v, a = .nmitimen inProgress busN v) ∨ IrqLowered r (a.effect r) := by
  cases a with
  | nmitimen inProgress busN v => exact .inl ⟨inProgress, busN, v, rfl⟩
  | timer reg v => exact .inr (htimeVtimeWrite_lowered reg v r)
  | rdnmi line ln h mdr => exact .inr (rdnmiRead_lowered line ln h mdr r)
  | timeup => exact .inr ⟨rfl, .inr rfl, .inr rfl⟩
  | autojoy now => exact .inr (autojoyUpdate_lowered now r)
  | dma busN sizes => exact .inr ⟨rfl, .inl rfl, .inl rfl⟩
  | joypad port buttons => exact .inr ⟨rfl, .inl rfl, .inl rfl⟩

theorem effect_quiet (a : RegAccess) {r : Regs} (hr : r.IrqQuiet) : (a.effect r).IrqQuiet := by
  rcases effect_lowered a r with ⟨inProgress, busN, v, rfl⟩ | h
  · exact nmitimenWrite_quiet inProgress busN v r
  · exact h.quiet hr

theorem effect_settled {a : RegAccess} {c : Clock} {r : Regs} (ha : IrqTimely c a)
    (hr : IrqSettled c r) : IrqSettled c (a.effect r) := by
  rcases effect_lowered a r with ⟨inProgress, busN, v, rfl⟩ | h
  · refine ⟨nmitimenWrite_quiet inProgress busN v r, fun hoff => ha ?_⟩
    unfold Regs.irqOff at hoff
    have hv := nmitimenWrite_nmitimen inProgress busN v r
    exact hv ▸ hoff
  · exact h.settled hr

theorem Accessed.quiet {good : Clock → RegAccess → Prop} {c : Clock} {r r' : Regs}
    (h : Accessed good c r r') (hr : r.IrqQuiet) : r'.IrqQuiet := by
  induction h with
  | refl => exact hr
  | access _ a _ ih => exact effect_quiet a ih

theorem Accessed.settled {c : Clock} {r r' : Regs} (h : Accessed IrqTimely c r r')
    (hr : IrqSettled c r) : IrqSettled c r' := by
  induction h with
  | refl => exact hr
  | access _ a holds ih => exact effect_settled holds ih

/-! The scheduler's own steps. -/

section Steps

variable {D : Devices δ} {s s' : Sched δ}

theorem run_quiet (hD : D.Hooked IrqTimely) {c : DeviceCall} (hs : s.regs.IrqQuiet)
    (h : D.run c s = .ok s') : s'.regs.IrqQuiet := by
  obtain ⟨⟨regs, dev⟩, hc, h⟩ := bind_eq_ok_iff.mp h
  cases h
  exact (hD _ _ _ _ _ _ (fatally_eq_ok.mp hc)).quiet hs

theorem run_settled (hD : D.Hooked IrqTimely) {c : DeviceCall} (hs : IrqSettled s.clk s.regs)
    (h : D.run c s = .ok s') : IrqSettled s'.clk s'.regs := by
  have hclk := run_clk h
  obtain ⟨⟨regs, dev⟩, hc, h⟩ := bind_eq_ok_iff.mp h
  cases h
  exact (hD _ _ _ _ _ _ (fatally_eq_ok.mp hc)).settled hs

theorem startFrame_quiet (hD : D.Hooked IrqTimely) (hs : s.regs.IrqQuiet)
    (h : startFrame D s = .ok s') : s'.regs.IrqQuiet := by
  obtain ⟨drawn, hd, h⟩ := bind_eq_ok_iff.mp h
  refine run_quiet hD (run_quiet hD ?_ hd) h
  exact hs

theorem startVblank_quiet (hD : D.Hooked IrqTimely) (hs : s.regs.IrqQuiet)
    (h : startVblank D s = .ok s') : s'.regs.IrqQuiet := by
  obtain ⟨drawn, hd, h⟩ := bind_eq_ok_iff.mp h
  have hdrawn := run_quiet hD hs hd
  split at h
  next => cases h
  next =>
    obtain ⟨reloaded, hr, h⟩ := bind_eq_ok_iff.mp h
    cases h
    have hreloaded := run_quiet hD hdrawn hr
    exact hreloaded

theorem startLine_quiet (hD : D.Hooked IrqTimely) (hs : s.regs.IrqQuiet)
    (h : startLine D s = .ok s') : s'.regs.IrqQuiet := by
  obtain ⟨framed, hf, h⟩ := bind_eq_ok_iff.mp h
  obtain ⟨blanked, hb, h⟩ := bind_eq_ok_iff.mp h
  have hframed : framed.regs.IrqQuiet :=
    onlyIf_invariant (fun r => r.regs.IrqQuiet) hs (fun _ => startFrame_quiet hD hs) hf
  have hblanked : blanked.regs.IrqQuiet :=
    onlyIf_invariant (fun r => r.regs.IrqQuiet) hframed (fun _ => startVblank_quiet hD hframed) hb
  have hread := (autojoyUpdate_lowered blanked.clk.lineStart blanked.regs).quiet hblanked
  exact onlyIf_invariant (fun r => r.regs.IrqQuiet) hread (fun _ hr => run_quiet hD hread hr) h

/-- A line begun with H/V IRQs off has no timer event. -/
theorem irqClockFor_off {r : Regs} (hoff : r.irqOff) (ln : Nat) : irqClockFor r ln = .ok none := by
  have hmode : (r.nmitimen >>> 4 &&& 3).toNat = 0 := by
    have h : r.nmitimen >>> 4 &&& 3 = 0 := by
      unfold Regs.irqOff at hoff
      revert hoff
      generalize r.nmitimen = v
      revert v
      decide
    rw [h]
    rfl
  unfold irqClockFor
  dsimp only
  rw [if_pos hmode]

theorem beginLine_settled (hD : D.Hooked IrqTimely) (hs : s.regs.IrqQuiet)
    (h : beginLine D s = .ok s') : IrqSettled s'.clk s'.regs := by
  obtain ⟨started, hl, h⟩ := bind_eq_ok_iff.mp h
  obtain ⟨irqAt, hirq, h⟩ := bind_eq_ok_iff.mp h
  have hstarted := startLine_quiet hD hs hl
  cases h
  refine ⟨hstarted, fun hoff => .inr ?_⟩
  have hnone := irqClockFor_off hoff started.clk.line
  rw [fatally_eq_ok, hnone] at hirq
  cases hirq
  rfl

theorem endLine_settled (hD : D.Hooked IrqTimely) {undoFrom : Option Nat} (hs : s.regs.IrqQuiet)
    (h : endLine D undoFrom s = .ok s') : IrqSettled s'.clk s'.regs := by
  obtain ⟨synced, hsync, h⟩ := bind_eq_ok_iff.mp h
  obtain ⟨wrapped, hw, h⟩ := bind_eq_ok_iff.mp h
  have hsynced := run_quiet hD hs hsync
  refine beginLine_settled hD ?_ h
  refine onlyIf_invariant (fun r => r.regs.IrqQuiet) hsynced (fun r hr => ?_) hw
  refine onlyIf_invariant (fun r => r.regs.IrqQuiet) hsynced (fun r hr => ?_) hr
  refine run_quiet hD ?_ hr
  exact hsynced

theorem hblank_settled (hD : D.Hooked IrqTimely) (hs : IrqSettled s.clk s.regs)
    (h : hblank D s = .ok s') : IrqSettled s'.clk s'.regs := by
  obtain ⟨drawn, hd, h⟩ := bind_eq_ok_iff.mp h
  have hdrawn : IrqSettled drawn.clk drawn.regs := by
    refine onlyIf_invariant (fun r => IrqSettled r.clk r.regs) hs (fun r hr => ?_) hd
    obtain ⟨mid, hm, hr⟩ := bind_eq_ok_iff.mp hr
    exact run_settled hD (run_settled hD hs hm) hr
  cases h
  exact ⟨hdrawn.quiet, hdrawn.clock⟩

/-- The timer event comes only to a line with IRQs on. -/
theorem raiseIrq_settled (hs : IrqSettled s.clk s.regs) (hd : s.clk.irqDone = false)
    (hat : s.clk.irqAt ≠ none) : IrqSettled (raiseIrq s).clk (raiseIrq s).regs := by
  have hon : ¬s.regs.irqOff := by
    intro hoff
    rcases hs.clock hoff with hdone | hnone
    · rw [hd] at hdone
      cases hdone
    · exact hat hnone
  exact ⟨fun hoff => absurd hoff hon, fun hoff => absurd hoff hon⟩

theorem advanceStep_settled (hD : D.Hooked IrqTimely) {how : Commit} (hs : IrqSettled s.clk s.regs)
    (h : advanceStep D how s = .ok (some s')) : IrqSettled s'.clk s'.regs := by
  simp only [advanceStep] at h
  split at h
  next => cases h; exact ⟨hs.quiet, hs.clock⟩
  next =>
  split at h
  next => cases h; exact ⟨hs.quiet, hs.clock⟩
  next =>
  split at h
  next =>
    cases h
    refine ⟨?_, hs.clock⟩
    unfold passNmi Regs.IrqQuiet
    dsimp only
    split
    · exact hs.quiet
    · exact hs.quiet
  next =>
  split at h
  next =>
    cases h
    unfold passRefresh
    split
    · exact ⟨hs.quiet, hs.clock⟩
    · exact ⟨hs.quiet, hs.clock⟩
  next =>
  split at h
  next hd =>
    cases h
    refine raiseIrq_settled hs hd.1 fun hnone => ?_
    rw [hnone] at hd
    cases hd.2
  next =>
  split at h
  next =>
    obtain ⟨r, hr, hout⟩ := map_eq_ok_iff.mp h
    cases hout
    exact hblank_settled hD hs hr
  next =>
  split at h
  next hd =>
    cases h
    refine raiseIrq_settled hs hd.1 fun hnone => ?_
    rw [hnone] at hd
    cases hd.2
  next =>
  split at h
  next =>
    obtain ⟨r, hr, hout⟩ := map_eq_ok_iff.mp h
    cases hout
    exact endLine_settled hD hs.quiet hr
  next => cases h

theorem advance_irqSettled (hD : D.Hooked IrqTimely) {how : Commit} {clocks : Nat}
    (hs : IrqSettled s.clk s.regs) (h : advance D how clocks s = .ok s') :
    IrqSettled s'.clk s'.regs := by
  refine measured_invariant (P := fun r : Sched δ => IrqSettled r.clk r.regs)
    (fun a b ha hab => advanceStep_settled hD ha hab) ?_ h
  exact ⟨hs.quiet, hs.clock⟩

/-! A walk sees the timer as `advance` does. -/

/-- With IRQs off the walk has no line up and no timer event to come. -/
def WalkQuiet (r : Regs) (w : Walk) : Prop :=
  r.irqOff → w.pend.irqLine = false ∧ (w.irqDone = true ∨ w.irqAt = none)

/-- A timer event comes to a walk only from its line's IRQ clock. -/
def IrqFromLine (w : Walk) (e : WalkEvent × Nat) : Prop :=
  e.1 = .irq → w.irqDone = false ∧ w.irqAt ≠ none

theorem walkNext_irqFromLine (base : Nat) (w : Walk) : IrqFromLine w (walkNext base w) := by
  have other {k : WalkEvent} {clock : Nat} (hne : k ≠ .irq) : IrqFromLine w (k, clock) :=
    fun hk => absurd hk hne
  unfold walkNext
  refine sooner_of (sooner_of (sooner_of ?_ ?_) ?_) ?_
  · cases hat : w.irqAt with
    | none => exact sooner_of (other (by decide)) fun _ => other (by decide)
    | some clock =>
      refine sooner_of ?_ fun hdone _ => ⟨hdone, ?_⟩
      · exact sooner_of (other (by decide)) fun _ => other (by decide)
      · rw [hat]
        exact Option.some_ne_none _
  · exact fun _ => other (by decide)
  · exact fun _ => other (by decide)
  · exact fun _ => other (by decide)

theorem walkStep_quiet {p p' : Pass} (hp : WalkQuiet s.regs p.w)
    (h : walkStep D s p = .ok (some p')) : WalkQuiet s.regs p'.w := by
  simp only [walkStep] at h
  split at h
  next => cases h
  next =>
  obtain ⟨q, hq, hout⟩ := map_eq_ok_iff.mp h
  cases hout
  intro hoff
  obtain ⟨hline, hat⟩ := hp hoff
  cases hk : (walkNext s.clk.fieldBase p.w).1 with
  | refresh => rw [hk] at hq; cases hq; exact ⟨hline, hat⟩
  | hdma =>
    rw [hk] at hq
    cases hq
    refine ⟨?_, hat⟩
    unfold Pass.change
    dsimp only
    split
    · exact hline
    · exact hline
  | init =>
    rw [hk] at hq
    cases hq
    refine ⟨?_, hat⟩
    unfold Pass.change
    dsimp only
    split
    · exact hline
    · exact hline
  | nmi =>
    rw [hk] at hq
    cases hq
    refine ⟨?_, hat⟩
    unfold Pass.change
    dsimp only
    split
    · exact hline
    · exact hline
  | irq =>
    obtain ⟨hdone, hsome⟩ := walkNext_irqFromLine s.clk.fieldBase p.w hk
    rcases hat with hat | hat
    · rw [hdone] at hat
      cases hat
    · exact absurd hat hsome
  | lineEnd =>
    rw [hk] at hq
    obtain ⟨w, hw, hout⟩ := map_eq_ok_iff.mp hq
    cases hout
    obtain ⟨irqAt, hirq, hw⟩ := bind_eq_ok_iff.mp hw
    rw [irqClockFor_off hoff] at hirq
    cases hirq
    cases hw
    refine ⟨?_, .inr rfl⟩
    dsimp only
    split
    · exact hline
    · exact hline

theorem sample_irqLine (lock i : Bool) (p : Pend) : (p.sample lock i).irqLine = p.irqLine := by
  unfold Pend.sample
  dsimp only
  split
  · split
    · rfl
    · rfl
  · rfl

theorem access_irqLine (c : Cycle) (p : Pend) : (p.access c).irqLine = p.irqLine := by
  unfold Pend.access
  dsimp only
  split
  · split
    · rfl
    · rfl
  · split
    · rfl
    · rfl

theorem walkQuiet_invariant : WalkInvariant D s (WalkQuiet s.regs) where
  time _ _ hw := hw
  span _ _ _ hw := hw
  transfer _ _ _ _ _ hw := hw
  event _ _ hp h := walkStep_quiet hp h
  sample w lock i hw hoff := by
    obtain ⟨hline, hat⟩ := hw hoff
    exact ⟨(sample_irqLine lock i w.pend).trans hline, hat⟩
  accessed w c hw hoff := by
    obtain ⟨hline, hat⟩ := hw hoff
    unfold Walk.accessed Walk.noteWrite
    split
    · exact ⟨(access_irqLine c _).trans hline, hat⟩
    · exact ⟨(access_irqLine c _).trans hline, hat⟩

theorem walkInit_quiet (hs : IrqSettled s.clk s.regs) : WalkQuiet s.regs (walkInit s) :=
  fun hoff => ⟨(hs.quiet hoff).2, hs.clock hoff⟩

/-- Taking over the walk's pending lines. -/
theorem IrqSettled.taken {w : Walk} {p : Pend} (hs : IrqSettled s.clk s.regs)
    (hw : WalkQuiet s.regs w) (hp : p.irqLine = w.pend.irqLine) :
    IrqSettled (s.setPend p).clk (s.setPend p).regs := by
  refine ⟨fun hoff => ⟨(hs.quiet hoff).1, ?_⟩, hs.clock⟩
  exact hp.trans (hw hoff).1

theorem walkCommit_irqSettled (hD : D.Hooked IrqTimely)
    {w : Walk} {start t : Nat} (hs : IrqSettled s.clk s.regs)
    (h : walkCommit D w start t s = .ok s') : IrqSettled s'.clk s'.regs := by
  obtain ⟨a, ha, h⟩ := bind_eq_ok_iff.mp h
  have hadvanced : IrqSettled a.clk a.regs := by
    refine advance_irqSettled hD ?_ ha
    split
    · exact ⟨hs.quiet, hs.clock⟩
    · exact ⟨hs.quiet, hs.clock⟩
  cases h
  split
  · exact ⟨hadvanced.quiet, hadvanced.clock⟩
  · exact hadvanced

theorem charge_irqSettled (hD : D.Hooked IrqTimely) {insnI takeIrq takeIrq' : Bool} {b : Begun}
    (hs : IrqSettled s.clk s.regs) (h : charge D insnI b s takeIrq = .ok (s', takeIrq')) :
    IrqSettled s'.clk s'.regs := by
  unfold charge at h
  split at h
  next =>
    cases h
    exact hs
  next =>
  split at h
  next =>
    obtain ⟨a, ha, h⟩ := bind_eq_ok_iff.mp h
    cases h
    refine advance_irqSettled hD ?_ ha
    exact ⟨hs.quiet, hs.clock⟩
  next =>
    obtain ⟨⟨w, smp⟩, hw, h⟩ := bind_eq_ok_iff.mp h
    obtain ⟨a, ha, h⟩ := bind_eq_ok_iff.mp h
    cases h
    have hquiet := walkQuiet_invariant.insn (walkInit_quiet hs) (fatally_eq_ok.mp hw)
    refine walkCommit_irqSettled hD ?_ ha
    exact hs.taken hquiet rfl

theorem waiCycle_irqSettled (hD : D.Hooked IrqTimely) {i seen : Bool} (hs : IrqSettled s.clk s.regs)
    (h : waiCycle D i s = .ok (s', seen)) : IrqSettled s'.clk s'.regs := by
  obtain ⟨a, ha, h⟩ := bind_eq_ok_iff.mp h
  obtain ⟨⟨w, seen⟩, hw, h⟩ := bind_eq_ok_iff.mp h
  obtain ⟨b, hb, h⟩ := bind_eq_ok_iff.mp h
  cases h
  have hran : IrqSettled a.clk a.regs :=
    onlyIf_invariant (fun r => IrqSettled r.clk r.regs) hs
      (fun _ hr => advance_irqSettled hD hs hr) ha
  have hquiet := walkQuiet_invariant.wai (walkInit_quiet hran) (fatally_eq_ok.mp hw)
  refine walkCommit_irqSettled hD ?_ hb
  exact hran.taken hquiet rfl

theorem restart_irqSettled (hD : D.Hooked IrqTimely) {startDelay : Nat} {dev : δ}
    (h : restart D startDelay dev s = .ok s') : IrqSettled s'.clk s'.regs := by
  obtain ⟨r, hr, h⟩ := bind_eq_ok_iff.mp h
  refine advance_irqSettled hD (beginLine_settled hD ?_ hr) h
  exact fun _ => ⟨rfl, rfl⟩

theorem HookStep.irqSettled (hD : D.Hooked IrqTimely) (hs : IrqSettled s.clk s.regs)
    (h : HookStep D IrqTimely s s') : IrqSettled s'.clk s'.regs := by
  cases h with
  | charge h => exact charge_irqSettled hD hs h
  | wai h => exact waiCycle_irqSettled hD hs h
  | access a holds dev => exact effect_settled holds hs
  | chargeReset _ again => exact restart_irqSettled hD again
  | waiReset _ again => exact restart_irqSettled hD again

theorem run_irqSettled (hD : D.Hooked IrqTimely) (h : HookRun D IrqTimely s) :
    IrqSettled s.clk s.regs := by
  induction h with
  | start h =>
    obtain ⟨r, hr, h⟩ := bind_eq_ok_iff.mp h
    refine advance_irqSettled hD (beginLine_settled hD ?_ hr) h
    exact fun _ => ⟨rfl, rfl⟩
  | step _ h ih => exact h.irqSettled hD ih

/-- H/V IRQs stay down while they are off, if no write turns them off with the
line's timer event still to come. -/
theorem run_irq_off (hD : D.Hooked IrqTimely) (h : HookRun D IrqTimely s)
    (hoff : s.regs.nmitimen &&& 0x30 = 0) : s.regs.timeup = 0 ∧ s.regs.pend.irqLine = false :=
  (run_irqSettled hD h).quiet hoff

end Steps

instance (c : Clock) (a : RegAccess) : Decidable (IrqTimely c a) := by
  cases a <;> unfold IrqTimely <;> infer_instance

/-- HTIME 250 and H IRQs on, then past the start of line 1. -/
def irqOnOps : List HookOp :=
  HookOp.sta (.timer 0x4207 250) ++ HookOp.sta (.timer 0x4208 0) ++
    HookOp.sta (.nmitimen true 1 0x10) ++ HookOp.dmaPause 170

/-- H IRQs off at clock 382 of line 1, past its IRQ clock 1018. -/
def irqLateOps : List HookOp :=
  irqOnOps ++ HookOp.sta (.nmitimen true 1 0) ++ HookOp.dmaPause 100

/-- The same, with H IRQs off only past the IRQ clock. -/
def irqTimelyOps : List HookOp :=
  irqOnOps ++ HookOp.dmaPause 100 ++ HookOp.sta (.nmitimen true 1 0)

def irqFacts (r : SchedM Unit (Sched Unit)) : Option (BitVec 8 × BitVec 8 × Bool) :=
  match r with
  | .ok s => some (s.regs.nmitimen, s.regs.timeup, s.regs.pend.irqLine)
  | .error _ => none

theorem irqFacts_some {r : SchedM Unit (Sched Unit)} {facts : BitVec 8 × BitVec 8 × Bool}
    (h : irqFacts r = some facts) :
    ∃ s, r = .ok s ∧ (s.regs.nmitimen, s.regs.timeup, s.regs.pend.irqLine) = facts := by
  cases r with
  | ok s => exact ⟨s, rfl, Option.some.inj h⟩
  | error e => cases h

theorem run_irq_off_timely : ∃ s, HookRun idleDevices IrqTimely s ∧
    s.regs.timeup = 0 ∧ s.regs.pend.irqLine = false := by
  have hfacts : irqFacts (HookOp.runs idleDevices IrqTimely 186 () irqTimelyOps) =
      some (0, 0, false) := by decide +kernel
  obtain ⟨s, hs, hmode⟩ := irqFacts_some hfacts
  have hoff : s.regs.nmitimen &&& 0x30 = 0 := by
    rw [(Prod.mk.inj hmode).1]
    rfl
  have hrun := HookOp.runs_run hs
  exact ⟨s, hrun, run_irq_off (idleDevices_hooked _) hrun hoff⟩

/-- A write that turns H IRQs off before the line's IRQ clock does not keep the
IRQ from being raised there. -/
theorem run_irq_raised_off : ¬∀ s : Sched Unit, HookRun idleDevices (fun _ _ => True) s →
    s.regs.nmitimen &&& 0x30 = 0 → s.regs.timeup = 0 ∧ s.regs.pend.irqLine = false := by
  intro hall
  have hfacts : irqFacts (HookOp.runs idleDevices (fun _ _ => True) 186 () irqLateOps) =
      some (0, 0x80, true) := by decide +kernel
  obtain ⟨s, hs, hmode⟩ := irqFacts_some hfacts
  obtain ⟨hn, hmode⟩ := Prod.mk.inj hmode
  obtain ⟨ht, -⟩ := Prod.mk.inj hmode
  have hoff : s.regs.nmitimen &&& 0x30 = 0 := by
    rw [hn]
    rfl
  obtain ⟨hzero, -⟩ := hall s (HookOp.runs_run hs) hoff
  rw [ht] at hzero
  exact absurd hzero (by decide)

end CtRecomp
