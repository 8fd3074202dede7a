import CtRecomp.SchedCharge

namespace CtRecomp

open Loop

variable {δ : Type}

/-! A committed walk leaves the scheduler's clock where the walk's is: both
follow the raster, `advance` by the refreshes the walk paid for. -/

def Walk.beam (w : Walk) : Beam := ⟨w.frame, w.line, w.ls, w.refreshDone, w.refreshes⟩

/-! The event `walkNext` picks. -/

/-- What holds of the walk when an event is the next one. -/
def WalkEvent.Open (base : Nat) (w : Walk) (e : WalkEvent × Nat) : Prop :=
  w.ls ≤ e.2 ∧
  match e.1 with
  | .refresh => w.refreshDone = false ∧ e.2 = refreshPoint w.ls
  | .hdma => w.hdmaDone = false
  | .init => w.initDone = false
  | .nmi => w.nmiDone = false
  | .irq => w.irqDone = false
  | .lineEnd => e.2 = w.ls + lineLength (w.frame - base) w.line

/-- What holds of both events holds of the sooner one. -/
theorem sooner_of {P : WalkEvent × Nat → Prop} {c : Prop} [Decidable c] {k : WalkEvent}
    {clock : Nat} {e : WalkEvent × Nat} (he : P e) (hk : c → P (k, clock)) :
    P (sooner c k clock e) := by
  unfold sooner
  split
  next hc => exact hk hc.1
  next => exact he

theorem sooner_le {c : Prop} [Decidable c] (k : WalkEvent) (clock : Nat) (e : WalkEvent × Nat) :
    (sooner c k clock e).2 ≤ e.2 := by
  unfold sooner
  split
  next hc => exact Nat.le_of_lt hc.2
  next => exact Nat.le_refl _

theorem sooner_le_clock {c : Prop} [Decidable c] (hc : c) (k : WalkEvent) (clock : Nat)
    (e : WalkEvent × Nat) : (sooner c k clock e).2 ≤ clock := by
  unfold sooner
  split
  next => exact Nat.le_refl _
  next h => exact Nat.le_of_not_lt fun hlt => h ⟨hc, hlt⟩

theorem walkNext_open (base : Nat) (w : Walk) : WalkEvent.Open base w (walkNext base w) := by
  unfold walkNext
  refine sooner_of (sooner_of (sooner_of ?_ ?_) ?_) ?_
  · cases w.irqAt with
    | none => exact sooner_of ⟨Nat.le_add_right _ _, rfl⟩ fun h => ⟨Nat.le_add_right _ _, h.2⟩
    | some clock =>
      refine sooner_of ?_ fun h => ⟨Nat.le_add_right _ _, h⟩
      exact sooner_of ⟨Nat.le_add_right _ _, rfl⟩ fun h => ⟨Nat.le_add_right _ _, h.2⟩
  · exact fun h => ⟨by simp only []; omega, h.2⟩
  · exact fun h => ⟨by simp only []; omega, h, rfl⟩
  · exact fun h => ⟨Nat.le_add_right _ _, h.1⟩

/-- Nothing on the raster comes before the walk's next event. -/
theorem walkNext_le_due (base : Nat) (w : Walk) :
    (walkNext base w).2 ≤ (raster base).due w.beam := by
  unfold walkNext
  refine Nat.le_trans (sooner_le _ _ _) ?_
  cases hr : w.refreshDone with
  | false =>
    refine Nat.le_trans (sooner_le_clock rfl _ _ _) ?_
    simp [raster, Walk.beam, hr, refreshPoint]
  | true =>
    simp only [raster, Walk.beam, hr, if_true]
    refine Nat.le_trans (sooner_le _ _ _) (Nat.le_trans (sooner_le _ _ _) ?_)
    cases w.irqAt with
    | none => exact sooner_le _ _ _
    | some clock => exact Nat.le_trans (sooner_le _ _ _) (sooner_le _ _ _)

/-- A line ends only after its refresh. -/
theorem walkNext_lineEnd {base : Nat} {w : Walk} (h : (walkNext base w).1 = .lineEnd) :
    w.refreshDone = true ∧ (walkNext base w).2 = w.ls + lineLength (w.frame - base) w.line := by
  have hopen := walkNext_open base w
  simp only [WalkEvent.Open, h] at hopen
  refine ⟨?_, hopen.2⟩
  cases hr : w.refreshDone with
  | true => rfl
  | false =>
    have hle := walkNext_le_due base w
    have hlt := refreshPoint_lt (w.frame - base) w.line w.ls
    rw [hopen.2] at hle
    simp only [raster, Walk.beam, hr] at hle
    simp at hle
    omega

/-! One pass. -/

theorem walkLineEnd_beam {base : Nat} {regs : Regs} {w w' : Walk}
    (h : walkLineEnd regs (w.ls + lineLength (w.frame - base) w.line) w = .ok w') :
    w'.beam = w.beam.nextLine base := by
  obtain ⟨irqAt, -, h⟩ := bind_eq_ok_iff.mp h
  cases h
  split
  next hl => simp_all [Walk.beam, Beam.nextLine]
  next hl => simp_all [Walk.beam, Beam.nextLine]

/-- A turn of `walk_pass`'s loop fires at most one event of the raster. -/
structure PassTurn (base : Nat) (p p' : Pass) : Prop where
  fires : (raster base).Fires p.endAt p.w.beam p'.w.beam
  later : p.endAt ≤ p'.endAt
  falls : walkMeasure p' < walkMeasure p

theorem refresh_turn {base : Nat} {p : Pass} (hd : p.w.refreshDone = false)
    (hdue : refreshPoint p.w.ls ≤ p.endAt) {smp : Nat} : PassTurn base p
      { w := { p.w with refreshDone := true, refreshes := p.w.refreshes + 1 }
        smp
        endAt := p.endAt + refreshClocks } := by
  have hfire : (raster base).fire p.w.beam =
      ({ p.w with refreshDone := true, refreshes := p.w.refreshes + 1 } : Walk).beam := by
    simp [raster, Walk.beam, Beam.refresh, hd]
  refine ⟨?_, Nat.le_add_right _ _, ?_⟩
  · rw [← hfire]
    exact Timeline.Fires.refl.fire (by simpa [raster, Walk.beam, hd] using hdue)
  · simp only [walkMeasure, hd, owed_true, owed_false]
    omega

theorem lineEnd_turn {base : Nat} {regs : Regs} {p : Pass} {w : Walk}
    (hd : p.w.refreshDone = true)
    (hdue : p.w.ls + lineLength (p.w.frame - base) p.w.line ≤ p.endAt)
    (h : walkLineEnd regs (p.w.ls + lineLength (p.w.frame - base) p.w.line) p.w = .ok w) :
    PassTurn base p { p with w } := by
  have hbeam := walkLineEnd_beam h
  have hfire : (raster base).fire p.w.beam = w.beam := by
    rw [hbeam]
    simp [raster, Walk.beam, hd]
  refine ⟨?_, Nat.le_refl _, ?_⟩
  · rw [← hfire]
    exact Timeline.Fires.refl.fire (by simpa [raster, Walk.beam, hd] using hdue)
  · have hlen := lineLength_ge (p.w.frame - base) p.w.line
    have hls : w.ls = p.w.ls + lineLength (p.w.frame - base) p.w.line := congrArg Beam.lineStart hbeam
    have h1 := owed_le w.hdmaDone
    have h2 := owed_le w.initDone
    have h3 := owed_le w.nmiDone
    have h4 := owed_le w.irqDone
    have h5 := owed_le w.refreshDone
    simp only [walkMeasure, hd, hls, owed_true, refreshClocks]
    omega

theorem walkStep_turn {D : Devices δ} {s : Sched δ} {p p' : Pass}
    (h : walkStep D s p = .ok (some p')) : PassTurn s.clk.fieldBase p p' := by
  have hopen := walkNext_open s.clk.fieldBase p.w
  simp only [walkStep] at h
  split at h
  next => cases h
  next hlt =>
  have hdue := Nat.le_of_not_lt hlt
  obtain ⟨q, hq, hout⟩ := map_eq_ok_iff.mp h
  cases hout
  cases hk : (walkNext s.clk.fieldBase p.w).1 with
  | refresh =>
    simp only [WalkEvent.Open, hk] at hopen
    rw [hk] at hq
    cases hq
    exact refresh_turn hopen.2.1 (hopen.2.2 ▸ hdue)
  | lineEnd =>
    obtain ⟨hd, he⟩ := walkNext_lineEnd hk
    rw [hk, he] at hq
    obtain ⟨w, hw, hout⟩ := map_eq_ok_iff.mp hq
    cases hout
    exact lineEnd_turn hd (he ▸ hdue) hw
  | hdma | init | nmi | irq =>
    simp only [WalkEvent.Open, hk] at hopen
    rw [hk] at hq
    cases hq
    exact ⟨.refl, Nat.le_refl _, by simp [walkMeasure, Pass.change, hopen.2]⟩

/-- What a walk, or any part of it, does to its beam. -/
structure Walked (base : Nat) (w w' : Walk) : Prop where
  fires : (raster base).Fires w'.t w.beam w'.beam
  later : w.t ≤ w'.t

theorem Walked.refl {base : Nat} {w : Walk} : Walked base w w := ⟨.refl, Nat.le_refl _⟩

theorem Walked.trans {base : Nat} {w w' w'' : Walk} (h : Walked base w w')
    (h' : Walked base w' w'') : Walked base w w'' :=
  ⟨(h.fires.mono h'.later).trans h'.fires, Nat.le_trans h.later h'.later⟩

theorem Walked.of_eq {base : Nat} {w w' : Walk} (hbeam : w'.beam = w.beam) (ht : w'.t = w.t) :
    Walked base w w' :=
  ⟨hbeam ▸ .refl, Nat.le_of_eq ht.symm⟩

theorem setPend_walked {base : Nat} {w : Walk} (p : Pend) : Walked base w (w.setPend p) :=
  .of_eq rfl rfl

theorem walkPass_walked {D : Devices δ} {s : Sched δ} {clocks sample smp : Nat} {w w' : Walk}
    (h : walkPass D s clocks sample w = .ok (w', smp)) :
    Walked s.clk.fieldBase w w' ∧ (raster s.clk.fieldBase).Settled w'.t w'.beam := by
  obtain ⟨p, hp, hout⟩ := bind_eq_ok_iff.mp h
  cases hout
  have keep : ∀ a b : Pass,
      ((raster s.clk.fieldBase).Fires a.endAt w.beam a.w.beam ∧ w.t ≤ a.endAt) →
      walkStep D s a = .ok (some b) →
      ((raster s.clk.fieldBase).Fires b.endAt w.beam b.w.beam ∧ w.t ≤ b.endAt) := by
    rintro a b ⟨hfires, ht⟩ hab
    obtain ⟨hone, hlater, -⟩ := walkStep_turn hab
    exact ⟨(hfires.trans hone).mono hlater, Nat.le_trans ht hlater⟩
  have hkept := measured_invariant keep ⟨.refl, Nat.le_add_right _ _⟩ hp
  refine ⟨⟨hkept.1, hkept.2⟩, ?_⟩
  have falls : ∀ a b : Pass, True → walkStep D s a = .ok (some b) →
      True ∧ walkMeasure b < walkMeasure a :=
    fun a b _ hab => ⟨trivial, (walkStep_turn hab).falls⟩
  have hdone := measured_done falls trivial hp
  simp only [walkStep] at hdone
  split at hdone
  next hlt => exact Nat.lt_of_lt_of_le hlt (walkNext_le_due _ _)
  next =>
    obtain ⟨_, _, hout⟩ := map_eq_ok_iff.mp hdone
    cases hout

theorem walkFor_walked {D : Devices δ} {s : Sched δ} {clocks : Nat} {w w' : Walk}
    (h : walkFor D s clocks w = .ok w') : Walked s.clk.fieldBase w w' := by
  obtain ⟨⟨_, _⟩, hp, hout⟩ := map_eq_ok_iff.mp h
  cases hout
  exact (walkPass_walked hp).1

/-! The walk's own steps: passes, and changes that leave clock and beam alone. -/

theorem walkDmaPending_walked {D : Devices δ} {s : Sched δ} {w w' : Walk} {count count' : Nat}
    (h : walkDmaPending D s w count = .ok (w', count')) : Walked s.clk.fieldBase w w' := by
  unfold walkDmaPending at h
  split at h
  next =>
    cases h
    exact setPend_walked _
  next =>
  split at h
  next =>
    obtain ⟨v, hv, h⟩ := bind_eq_ok_iff.mp h
    cases h
    exact (setPend_walked _).trans (walkFor_walked hv)
  next =>
  split at h
  next =>
    obtain ⟨v, hv, h⟩ := bind_eq_ok_iff.mp h
    cases h
    exact (setPend_walked _).trans (walkFor_walked hv)
  next =>
    cases h
    exact .refl

theorem walkDmaBytes_walked {D : Devices δ} {s : Sched δ} {n : Nat} {w w' : Walk}
    {count count' : Nat} (h : walkDmaBytes D s n w count = .ok (w', count')) :
    Walked s.clk.fieldBase w w' := by
  induction n generalizing w count with
  | zero =>
    cases h
    exact .refl
  | succ n ih =>
    obtain ⟨u, hu, h⟩ := bind_eq_ok_iff.mp h
    obtain ⟨⟨v, c⟩, hv, h⟩ := bind_eq_ok_iff.mp h
    exact (walkFor_walked hu).trans ((walkDmaPending_walked hv).trans (ih h))

theorem walkDmaChannels_walked {D : Devices δ} {s : Sched δ} {sizes : List Nat} {w w' : Walk}
    {count count' : Nat} (h : walkDmaChannels D s sizes w count = .ok (w', count')) :
    Walked s.clk.fieldBase w w' := by
  induction sizes generalizing w count with
  | nil =>
    cases h
    exact .refl
  | cons size sizes ih =>
    unfold walkDmaChannels at h
    split at h
    next => exact ih h
    next =>
      obtain ⟨u, hu, h⟩ := bind_eq_ok_iff.mp h
      obtain ⟨⟨v, c⟩, hv, h⟩ := bind_eq_ok_iff.mp h
      obtain ⟨⟨x, d⟩, hx, h⟩ := bind_eq_ok_iff.mp h
      have hstart := (walkFor_walked hu).trans (walkDmaPending_walked hv)
      exact (hstart.trans (walkDmaBytes_walked hx)).trans (ih h)

theorem walkDma_walked {D : Devices δ} {s : Sched δ} {w w' : Walk} {count count' : Nat}
    (h : walkDma D s w count = .ok (w', count')) : Walked s.clk.fieldBase w w' := by
  obtain ⟨u, hu, h⟩ := bind_eq_ok_iff.mp h
  obtain ⟨⟨v, c⟩, hv, h⟩ := bind_eq_ok_iff.mp h
  obtain ⟨⟨x, d⟩, hx, h⟩ := bind_eq_ok_iff.mp h
  cases h
  have hlo : Walked s.clk.fieldBase w { w.setPend { w.pend with dma := false } with dmaLo := w.t } :=
    .of_eq rfl rfl
  have hhi : Walked s.clk.fieldBase x { x with dmaHi := x.t } := .of_eq rfl rfl
  have hstart := (hlo.trans (walkFor_walked hu)).trans (walkDmaPending_walked hv)
  exact (hstart.trans (walkDmaChannels_walked hx)).trans hhi

theorem walkTransfer_walked {D : Devices δ} {s : Sched δ} {w w' : Walk} {count count' : Nat}
    (h : walkTransfer D s w count = .ok (w', count')) : Walked s.clk.fieldBase w w' := by
  unfold walkTransfer at h
  split at h
  next =>
    obtain ⟨v, hv, h⟩ := bind_eq_ok_iff.mp h
    cases h
    exact (setPend_walked _).trans (walkFor_walked hv)
  next =>
  split at h
  next =>
    obtain ⟨v, hv, h⟩ := bind_eq_ok_iff.mp h
    cases h
    exact (setPend_walked _).trans (walkFor_walked hv)
  next => exact walkDma_walked h

theorem walkPending_walked {D : Devices δ} {s : Sched δ} {speed : Nat} {w w' : Walk} {lock : Bool}
    (h : walkPending D s speed w = .ok (w', lock)) : Walked s.clk.fieldBase w w' := by
  unfold walkPending at h
  split at h
  next =>
    cases h
    exact .refl
  next =>
  split at h
  next =>
    cases h
    exact setPend_walked _
  next =>
    obtain ⟨u, hu, h⟩ := bind_eq_ok_iff.mp h
    obtain ⟨⟨v, c⟩, hv, h⟩ := bind_eq_ok_iff.mp h
    obtain ⟨x, hx, h⟩ := bind_eq_ok_iff.mp h
    cases h
    exact ((walkFor_walked hu).trans (walkTransfer_walked hv)).trans (walkFor_walked hx)

theorem walkCycleStart_walked {D : Devices δ} {s : Sched δ} {speed : Nat} {i : Bool} {w w' : Walk}
    (h : walkCycleStart D s speed i w = .ok w') : Walked s.clk.fieldBase w w' := by
  obtain ⟨⟨v, lock⟩, hv, h⟩ := bind_eq_ok_iff.mp h
  cases h
  exact (walkPending_walked hv).trans (setPend_walked _)

theorem accessed_beam (c : Cycle) (w : Walk) :
    (w.accessed c).beam = w.beam ∧ (w.accessed c).t = w.t := by
  unfold Walk.accessed Walk.noteWrite
  split
  next => exact ⟨rfl, rfl⟩
  next => exact ⟨rfl, rfl⟩

/-- The whole walk, its last cycle's pass included. -/
structure WalkedOut (base : Nat) (w w' : Walk) : Prop where
  walked : Walked base w w'
  settled : (raster base).Settled w'.t w'.beam

theorem walkCycle_out {D : Devices δ} {s : Sched δ} {i : Bool} {c : Cycle} {w w' : Walk}
    {smp : Nat} (h : walkCycle D s i c w = .ok (w', smp)) :
    WalkedOut s.clk.fieldBase w w' := by
  obtain ⟨u, hu, h⟩ := bind_eq_ok_iff.mp h
  obtain ⟨⟨v, smp'⟩, hv, h⟩ := bind_eq_ok_iff.mp h
  cases h
  obtain ⟨hpass, hsettled⟩ := walkPass_walked hv
  obtain ⟨hbeam, ht⟩ := accessed_beam c v
  refine ⟨((walkCycleStart_walked hu).trans hpass).trans (.of_eq hbeam ht), ?_⟩
  rw [hbeam, ht]
  exact hsettled

theorem walkCycles_out {D : Devices δ} {s : Sched δ} {i : Bool} {cs : List Cycle} {w w' : Walk}
    {smp smp' : Nat} (hw : (raster s.clk.fieldBase).Settled w.t w.beam)
    (h : walkCycles D s i cs (w, smp) = .ok (w', smp')) : WalkedOut s.clk.fieldBase w w' := by
  induction cs generalizing w smp with
  | nil =>
    cases h
    exact ⟨.refl, hw⟩
  | cons c cs ih =>
    obtain ⟨⟨v, smp₁⟩, hv, h⟩ := bind_eq_ok_iff.mp h
    have hcycle := walkCycle_out hv
    have hrest := ih hcycle.settled h
    exact ⟨hcycle.walked.trans hrest.walked, hrest.settled⟩

theorem walkInsn_out {D : Devices δ} {s : Sched δ} {i : Bool} {cs : List Cycle} {w : Walk}
    {smp : Nat} (hcs : cs ≠ []) (h : walkInsn D i cs s = .ok (w, smp)) :
    WalkedOut s.clk.fieldBase (walkInit s) w := by
  cases cs with
  | nil => exact absurd rfl hcs
  | cons c cs =>
    obtain ⟨⟨v, smp₁⟩, hv, h⟩ := bind_eq_ok_iff.mp h
    have hcycle := walkCycle_out hv
    have hrest := walkCycles_out hcycle.settled h
    exact ⟨hcycle.walked.trans hrest.walked, hrest.settled⟩

theorem waiWalk_out {D : Devices δ} {s : Sched δ} {i seen : Bool} {w : Walk}
    (h : waiWalk D i s = .ok (w, seen)) : WalkedOut s.clk.fieldBase (walkInit s) w := by
  obtain ⟨u, hu, h⟩ := bind_eq_ok_iff.mp h
  obtain ⟨⟨v, smp⟩, hv, h⟩ := bind_eq_ok_iff.mp h
  cases h
  obtain ⟨hpass, hsettled⟩ := walkPass_walked hv
  exact ⟨(walkCycleStart_walked hu).trans hpass, hsettled⟩

/-! The commit. -/

/-- As `begin_line` sets it. -/
def Clock.RefreshAtLine (c : Clock) : Prop := c.refreshAt = 530 + 8 - c.lineStart % 8

/-- The clock's beam, once `refreshPaid` of `paid` refreshes are left to pass. -/
def Clock.beam (paid : Nat) (c : Clock) : Beam :=
  ⟨c.frames, c.line, c.lineStart, c.refreshDone, paid - c.refreshPaid⟩

/-- `advance` under way towards the clock `T` of a walk that ended at `out`. -/
structure Following (base T : Nat) (out : Beam) (c : Clock) : Prop where
  fieldBase : c.fieldBase = base
  refreshAt : c.RefreshAtLine
  now : c.lineStart + c.hclock = T
  paid : c.refreshPaid ≤ out.refreshes
  fires : (raster base).Fires T (c.beam out.refreshes) out

section Follow

variable {base T : Nat} {out : Beam} {c c' : Clock}

theorem lineClocks_eq (h : c.fieldBase = base) :
    lineLength (c.frames - base) c.line = c.lineClocks := by
  subst h
  rfl

/-- A refresh that is due has been paid for: the walk met it too. -/
theorem Following.refresh_paid (h : Following base T out c) (hs : (raster base).Settled T out)
    (hd : c.refreshDone = false) (hat : c.refreshAt ≤ c.hclock) :
    (raster base).Fires T (c.beam out.refreshes).refresh out ∧ 0 < c.refreshPaid := by
  have hdue : (raster base).due (c.beam out.refreshes) ≤ T := by
    have hr := h.refreshAt
    have hn := h.now
    simp only [Clock.RefreshAtLine] at hr
    simp only [raster, Clock.beam, hd, refreshPoint]
    simp
    omega
  have hfire : (raster base).fire (c.beam out.refreshes) = (c.beam out.refreshes).refresh := by
    simp [raster, Clock.beam, hd]
  have hrest := hs.reached h.fires (Timeline.Fires.refl.fire hdue)
  rw [hfire] at hrest
  refine ⟨hrest, ?_⟩
  have hcount := hrest.count_le (μ := Beam.refreshes) (raster_fire_refreshes base)
  simp only [Beam.refresh, Clock.beam] at hcount
  omega

theorem Following.refresh (h : Following base T out c) (hs : (raster base).Settled T out)
    (hp : RefreshPassed c c') : Following base T out c' := by
  obtain ⟨hsame, ⟨hd, hat⟩, hdone, hpaid⟩ := hp
  obtain ⟨hrest, hpos⟩ := h.refresh_paid hs hd hat
  have hle := h.paid
  rcases hpaid with ⟨-, hpaid, hclock⟩ | ⟨hzero, -, -⟩
  · refine ⟨hsame.fieldBase.trans h.fieldBase, ?_, ?_, by omega, ?_⟩
    · simp only [Clock.RefreshAtLine, hsame.refreshAt, hsame.lineStart]
      exact h.refreshAt
    · rw [hsame.lineStart, hclock]
      exact h.now
    · have hbeam : c'.beam out.refreshes = (c.beam out.refreshes).refresh := by
        simp only [Clock.beam, Beam.refresh, hsame.frames, hsame.line, hsame.lineStart, hdone, hpaid,
          Beam.mk.injEq, true_and]
        omega
      rw [hbeam]
      exact hrest
  · omega

theorem Following.lineEnd (h : Following base T out c) (hs : (raster base).Settled T out)
    (he : LineEnded c c') : Following base T out c' := by
  have hn := h.now
  have hlen := c.lineClocks_ge
  have hover := he.reached
  have hdone : c.refreshDone = true := by
    have hr := h.refreshAt
    simp only [Clock.RefreshAtLine] at hr
    rcases he.refreshed with hd | hd
    · exact hd
    · omega
  have hlength := lineClocks_eq h.fieldBase
  have hdue : (raster base).due (c.beam out.refreshes) ≤ T := by
    simp only [raster, Clock.beam, hdone, if_true, hlength]
    omega
  have hfire : (raster base).fire (c.beam out.refreshes) = c'.beam out.refreshes := by
    simp only [raster, Clock.beam, Beam.nextLine, hdone, if_true, hlength, he.frames, he.line,
      he.lineStart, he.refreshDone, he.refreshPaid, schedLines]
  refine ⟨he.fieldBase.trans h.fieldBase, he.refreshAt, ?_, he.refreshPaid ▸ h.paid, ?_⟩
  · rw [he.lineStart, he.hclock]
    omega
  · rw [← hfire]
    exact hs.reached h.fires (Timeline.Fires.refl.fire hdue)

theorem Following.turn (h : Following base T out c) (hs : (raster base).Settled T out)
    (ht : ClockTurn c c') : Following base T out c' := by
  cases ht with
  | inside same hclock hdone hpaid =>
    have hbeam : c'.beam out.refreshes = c.beam out.refreshes := by
      simp only [Clock.beam, same.frames, same.line, same.lineStart, hdone, hpaid]
    refine ⟨same.fieldBase.trans h.fieldBase, ?_, ?_, hpaid ▸ h.paid, hbeam ▸ h.fires⟩
    · simp only [Clock.RefreshAtLine, same.refreshAt, same.lineStart]
      exact h.refreshAt
    · rw [same.lineStart, hclock]
      exact h.now
  | refresh hp => exact h.refresh hs hp
  | lineEnd he => exact h.lineEnd hs he

theorem Clock.Settled.raster (hs : c.Settled) (hat : c.RefreshAtLine) (paid : Nat) :
    (raster c.fieldBase).Settled (c.lineStart + c.hclock) (c.beam paid) := by
  have hin := hs.inLine
  have hlength := lineClocks_eq (c := c) rfl
  simp only [Clock.RefreshAtLine] at hat
  simp only [Timeline.Settled, CtRecomp.raster, Clock.beam, hlength]
  cases hd : c.refreshDone with
  | true =>
    simp only [if_true]
    omega
  | false =>
    have hbefore : c.hclock < c.refreshAt := by simpa [hd] using hs.refresh
    simp [refreshPoint]
    omega

theorem Following.settled (h : Following base T out c) (hc : c.Settled) :
    (raster base).Settled T (c.beam out.refreshes) := by
  rw [← h.now, ← h.fieldBase]
  exact hc.raster h.refreshAt _

/-- Followed to its end, a walk has left `advance` exactly where it stopped. -/
theorem advance_follows {D : Devices δ} {how : Commit} {clocks : Nat} {s s' : Sched δ}
    (hs : (raster base).Settled T out)
    (h : Following base T out { s.clk with hclock := s.clk.hclock + clocks })
    (ha : advance D how clocks s = .ok s') :
    s'.clk.beam out.refreshes = out ∧ Following base T out s'.clk := by
  have hend := advance_invariant (Following base T out) (fun _ _ hc ht => hc.turn hs ht) h ha
  exact ⟨((hend.settled (advance_settled ha)).fires_eq hend.fires).symm, hend⟩

end Follow

/-- The scheduler's clock is the walk's. -/
structure ClockAgrees (w : Walk) (c : Clock) : Prop where
  line : c.line = w.line
  lineStart : c.lineStart = w.ls
  inLine : w.ls ≤ w.t
  hclock : c.hclock = w.t - w.ls
  frames : c.frames = w.frame
  refreshDone : c.refreshDone = w.refreshDone
  refreshPaid : c.refreshPaid = 0

theorem ClockAgrees.of_beam {w : Walk} {c : Clock} (h : c.beam w.refreshes = w.beam)
    (hnow : c.lineStart + c.hclock = w.t) (hpaid : c.refreshPaid ≤ w.refreshes) :
    ClockAgrees w c := by
  simp only [Clock.beam, Walk.beam, Beam.mk.injEq] at h
  obtain ⟨hframe, hline, hls, hdone, hcount⟩ := h
  exact ⟨hline, hls, by omega, by omega, hframe, hdone, by omega⟩

theorem ClockAgrees.of_sameLine {w : Walk} {c c' : Clock} (h : ClockAgrees w c)
    (hsame : SameLine c c') (hclock : c'.hclock = c.hclock)
    (hdone : c'.refreshDone = c.refreshDone) (hpaid : c'.refreshPaid = c.refreshPaid) :
    ClockAgrees w c' where
  line := hsame.line.trans h.line
  lineStart := hsame.lineStart.trans h.lineStart
  inLine := h.inLine
  hclock := hclock.trans h.hclock
  frames := hsame.frames.trans h.frames
  refreshDone := hdone.trans h.refreshDone
  refreshPaid := hpaid.trans h.refreshPaid

theorem walkInit_settled {s : Sched δ} (hs : s.clk.Settled) (hat : s.clk.RefreshAtLine) :
    (raster s.clk.fieldBase).Settled (walkInit s).t (walkInit s).beam := by
  have h := hs.raster hat 0
  simpa [Clock.beam, Walk.beam, walkInit] using h

theorem walkCommit_agrees {D : Devices δ} {w : Walk}
    {s r r' : Sched δ} (hclk : r.clk = s.clk) (hpaid : s.clk.refreshPaid = 0)
    (hat : s.clk.RefreshAtLine) (hw : WalkedOut s.clk.fieldBase (walkInit s) w)
    (h : walkCommit D w (s.clk.lineStart + s.clk.hclock) w.t r = .ok r') :
    ClockAgrees w r'.clk := by
  obtain ⟨a, ha, h⟩ := bind_eq_ok_iff.mp h
  rw [hclk] at ha
  have hlater := hw.walked.later
  simp only [walkInit] at hlater
  have hstart : Following s.clk.fieldBase w.t w.beam { s.clk with
      refreshPaid := s.clk.refreshPaid + w.refreshes
      hclock := s.clk.hclock + (w.t - (s.clk.lineStart + s.clk.hclock)) } := by
    refine ⟨rfl, hat, ?_, ?_, ?_⟩
    · simp only []
      omega
    · simp only [hpaid, Walk.beam]
      omega
    · have hfires := hw.walked.fires
      simp only [Walk.beam, walkInit] at hfires
      simpa [Clock.beam, Walk.beam, hpaid] using hfires
  have hfollow : a.clk.beam w.refreshes = w.beam ∧ Following s.clk.fieldBase w.t w.beam a.clk := by
    refine advance_follows hw.settled ?_ ha
    split
    next => exact ⟨hstart.fieldBase, hstart.refreshAt, hstart.now, hstart.paid, hstart.fires⟩
    next => exact hstart
  have hagrees := ClockAgrees.of_beam hfollow.1 hfollow.2.now hfollow.2.paid
  cases h
  split
  next => exact hagrees.of_sameLine (by constructor <;> rfl) rfl rfl rfl
  next => exact hagrees

/-- The walks the scheduler commits: an instruction or interrupt entry, which
has at least one cycle, and an idle cycle of WAI. -/
inductive Walks (D : Devices δ) (s : Sched δ) : Walk → Prop
  | insn {i : Bool} {cycles : List Cycle} {w : Walk} {smp : Nat} (some : cycles ≠ [])
      (h : walkInsn D i cycles s = .ok (w, smp)) : Walks D s w
  | wai {i seen : Bool} {w : Walk} (h : waiWalk D i s = .ok (w, seen)) : Walks D s w

theorem Walks.out {D : Devices δ} {s : Sched δ} {w : Walk} (h : Walks D s w) :
    WalkedOut s.clk.fieldBase (walkInit s) w := by
  cases h with
  | insn hsome hw => exact walkInsn_out hsome hw
  | wai hw => exact waiWalk_out hw

/-- After the commit the scheduler's clock is the walk's, whatever registers and
devices have become meanwhile. -/
theorem committed_walk_agrees {D : Devices δ} {s s' : Sched δ} {w : Walk} {regs : Regs} {dev : δ}
    (hpaid : s.clk.refreshPaid = 0) (hat : s.clk.RefreshAtLine) (hw : Walks D s w)
    (h : walkCommit D w (s.clk.lineStart + s.clk.hclock) w.t { s with regs, dev } = .ok s') :
    ClockAgrees w s'.clk := by
  have hclk : ({ s with regs, dev } : Sched δ).clk = s.clk := rfl
  exact walkCommit_agrees hclk hpaid hat hw.out h

/-- Three clocks before the refresh of line 0, and a read across it. -/
def beforeRefresh : Sched Unit :=
  { schedInit () with clk := { (schedInit ()).clk with
    hclock := 535, irqDone := true, refreshAt := 538 } }

def acrossRefresh : Walk :=
  { walkInit beforeRefresh with
    t := 581
    refreshDone := true
    initDone := true
    refreshes := 1
    pend := { pendReset with delay := true } }

theorem committed_walk_agrees_refresh : ∃ s',
    walkInsn idleDevices true [⟨6, .read, some 0⟩] beforeRefresh = .ok (acrossRefresh, 537) ∧
    walkCommit idleDevices acrossRefresh 535 581 beforeRefresh = .ok s' ∧
    ClockAgrees acrossRefresh s'.clk := by
  have hinsn : walkInsn idleDevices true [⟨6, .read, some 0⟩] beforeRefresh =
    .ok (acrossRefresh, 537) := rfl
  have hw : Walks idleDevices beforeRefresh acrossRefresh := .insn (List.cons_ne_nil _ _) hinsn
  have hpaid : beforeRefresh.clk.refreshPaid = 0 := rfl
  have hat : beforeRefresh.clk.RefreshAtLine := rfl
  obtain ⟨s', hc⟩ : ∃ s', walkCommit idleDevices acrossRefresh 535 581 beforeRefresh = .ok s' :=
    ⟨_, rfl⟩
  exact ⟨s', hinsn, hc, committed_walk_agrees hpaid hat hw hc⟩

end CtRecomp
