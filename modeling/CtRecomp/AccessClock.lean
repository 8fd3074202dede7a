import CtRecomp.SchedHooks

namespace CtRecomp

open Loop

/-! Where the beam is at a given clock. -/

/-- From `start`, the raster is at clock `h` of line `line` at master clock `T`. -/
def RasterAt (base : Nat) (start : Beam) (T line h : Nat) : Prop :=
  ∃ b, (raster base).Fires T start b ∧ (raster base).Settled T b ∧ b.line = line ∧
    b.lineStart + h = T ∧ h < lineLength (b.frame - base) b.line

section Raster

variable {base T : Nat} {b : Beam}

theorem refresh_fires (hd : b.refreshed = false) (hdue : refreshPoint b.lineStart ≤ T) :
    (raster base).Fires T b b.refresh := by
  have hfire : (raster base).fire b = b.refresh := by simp [raster, hd]
  rw [← hfire]
  exact Timeline.Fires.refl.fire (by simpa [raster, hd] using hdue)

/-- Inside its line the beam is refreshed or not, and goes nowhere else. -/
theorem inLine_settles (hin : T < b.lineStart + lineLength (b.frame - base) b.line) :
    ∃ b', (raster base).Fires T b b' ∧ (raster base).Settled T b' ∧ b'.line = b.line ∧
      b'.lineStart = b.lineStart ∧ b'.frame = b.frame := by
  cases hd : b.refreshed with
  | true =>
    refine ⟨b, .refl, ?_, rfl, rfl, rfl⟩
    simpa [Timeline.Settled, raster, hd] using hin
  | false =>
    by_cases hdue : refreshPoint b.lineStart ≤ T
    · refine ⟨b.refresh, refresh_fires hd hdue, ?_, rfl, rfl, rfl⟩
      simpa [Timeline.Settled, raster, Beam.refresh] using hin
    · refine ⟨b, .refl, ?_, rfl, rfl, rfl⟩
      simpa [Timeline.Settled, raster, hd] using hdue

/-- Past its line's end the beam goes on to the next line. -/
theorem lineEnd_fires (hend : b.lineStart + lineLength (b.frame - base) b.line ≤ T) :
    ∃ b', (raster base).Fires T b b' ∧ b'.line = (b.nextLine base).line ∧
      b'.frame = (b.nextLine base).frame ∧
      b'.lineStart = b.lineStart + lineLength (b.frame - base) b.line := by
  have hlate := refreshPoint_lt (b.frame - base) b.line b.lineStart
  have hfrom (r : Beam) (hr : r.refreshed = true) (hf : (raster base).Fires T b r)
      (hdue : (raster base).due r ≤ T) : (raster base).Fires T b (r.nextLine base) := by
    have hfire : (raster base).fire r = r.nextLine base := by simp [raster, hr]
    rw [← hfire]
    exact hf.fire hdue
  cases hd : b.refreshed with
  | true =>
    have hdue : (raster base).due b ≤ T := by simpa [raster, hd] using hend
    exact ⟨b.nextLine base, hfrom b hd .refl hdue, rfl, rfl, rfl⟩
  | false =>
    have hrefresh : (raster base).Fires T b b.refresh :=
      refresh_fires hd (Nat.le_of_lt (Nat.lt_of_lt_of_le hlate hend))
    have hdue : (raster base).due b.refresh ≤ T := by simpa [raster, Beam.refresh] using hend
    exact ⟨b.refresh.nextLine base, hfrom b.refresh rfl hrefresh hdue, rfl, rfl, rfl⟩

theorem raster_lineStart_le (base : Nat) (b : Beam) :
    b.lineStart ≤ ((raster base).fire b).lineStart := by
  simp only [raster]
  split
  · exact Nat.le_add_right _ _
  · exact Nat.le_refl _

/-- The raster is in one place at a time. -/
theorem RasterAt.unique {line line' h h' : Nat} (hr : RasterAt base b T line h)
    (hr' : RasterAt base b T line' h') : line = line' ∧ h = h' := by
  obtain ⟨c, hc, hcs, hline, hclock, -⟩ := hr
  obtain ⟨c', hc', hcs', hline', hclock', -⟩ := hr'
  obtain rfl := hcs.unique hcs' hc hc'
  exact ⟨hline.symm.trans hline', by omega⟩

theorem RasterAt.of_settled {c : Beam} (hf : (raster base).Fires T b c)
    (hs : (raster base).Settled T c) (hle : c.lineStart ≤ T) :
    RasterAt base b T c.line (T - c.lineStart) := by
  have hlate := refreshPoint_lt (c.frame - base) c.line c.lineStart
  have hend : T < c.lineStart + lineLength (c.frame - base) c.line := by
    cases hd : c.refreshed with
    | true => simpa [Timeline.Settled, raster, hd] using hs
    | false =>
      have hbefore : T < refreshPoint c.lineStart := by simpa [Timeline.Settled, raster, hd] using hs
      omega
  exact ⟨c, hf, hs, rfl, by omega, by omega⟩

end Raster

/-! The clock of the access being made (sched.c `access_clock`). -/

variable {δ : Type}

/-- The instruction under way: its cycles up to the access being made, where the
bus log has it, and `cyc_elapsed`. -/
structure InProgress where
  insnI : Bool
  cycles : Option (List Cycle)
  elapsed : Nat

/-- `none`: no instruction is under way. -/
def accessClock (D : Devices δ) (s : Sched δ) : Option InProgress → Except String Nat
  | none => .ok (s.clk.lineStart + s.clk.hclock)
  | some run =>
    match run.cycles with
    | none => .ok (s.clk.lineStart + s.clk.hclock + run.elapsed)
    | some cycles => Prod.snd <$> walkInsn D run.insnI cycles s

/-- Line and clock in it of the access made at `at'`. -/
def accessHv (c : Clock) (at' : Nat) : Nat × Nat :=
  let h := at' - c.lineStart
  if c.lineClocks ≤ h then
    (if c.line + 1 = schedLines then 0 else c.line + 1, h - c.lineClocks)
  else (c.line, h)

/-- $4212: V-blank from line 225 on, H-blank outside clocks 4-1096. -/
def hvbjoyRead (c : Clock) (at' : Nat) (mdr : BitVec 8) (r : Regs) : BitVec 8 × Regs :=
  let (ln, h) := accessHv c at'
  let r := autojoyUpdate at' r
  let vb : BitVec 8 := if schedVblankLine ≤ ln then 0x80 else 0
  let hb : BitVec 8 := if h < 4 ∨ 1096 < h then 0x40 else 0
  (vb ||| hb ||| (mdr &&& 0x3E) ||| if r.autojoyBusy then 1 else 0, r)

/-- $2137: the counters it latches, OPHCT and OPVCT. -/
def latchCounters (c : Clock) (at' : Nat) : Nat × Nat :=
  let (ln, h) := accessHv c at'
  (min (h / 4) 339, ln)

/-- Clocks in the line after this one. -/
def Clock.nextLineClocks (c : Clock) : Nat :=
  lineLength ((if c.line + 1 = 262 then c.frames + 1 else c.frames) - c.fieldBase)
    (if c.line + 1 = 262 then 0 else c.line + 1)

section AccessClock

variable {D : Devices δ} {s : Sched δ}

theorem walkPass_sample {clocks sample smp : Nat} {w w' : Walk}
    (h : walkPass D s clocks sample w = .ok (w', smp)) : w.t ≤ smp := by
  obtain ⟨p, hp, hout⟩ := bind_eq_ok_iff.mp h
  cases hout
  refine measured_invariant (P := fun p : Pass => w.t ≤ p.smp) (fun a b ha hab => ?_)
    (Nat.le_add_right _ _) hp
  simp only [walkStep] at hab
  split at hab
  next => cases hab
  next =>
  obtain ⟨q, hq, hout⟩ := map_eq_ok_iff.mp hab
  cases hout
  cases hk : (walkNext s.clk.fieldBase a.w).1 with
  | refresh =>
    rw [hk] at hq
    cases hq
    dsimp only
    split
    · exact Nat.le_trans ha (Nat.le_add_right _ _)
    · exact ha
  | hdma | init | nmi | irq =>
    rw [hk] at hq
    cases hq
    exact ha
  | lineEnd =>
    rw [hk] at hq
    obtain ⟨v, hv, hout⟩ := map_eq_ok_iff.mp hq
    cases hout
    exact ha

theorem walkCycles_sample {i : Bool} {cs : List Cycle} {w w' : Walk} {smp smp' t : Nat}
    (hw : t ≤ w.t) (hsmp : t ≤ smp) (h : walkCycles D s i cs (w, smp) = .ok (w', smp')) :
    t ≤ smp' := by
  induction cs generalizing w smp with
  | nil =>
    cases h
    exact hsmp
  | cons c cs ih =>
    obtain ⟨⟨v, smp₁⟩, hv, h⟩ := bind_eq_ok_iff.mp h
    have hlater := (walkCycle_out hv).walked.later
    refine ih (Nat.le_trans hw hlater) ?_ h
    obtain ⟨u, hu, hv⟩ := bind_eq_ok_iff.mp hv
    obtain ⟨⟨x, smp₂⟩, hx, hv⟩ := bind_eq_ok_iff.mp hv
    cases hv
    have hstart := (walkCycleStart_walked hu).later
    exact Nat.le_trans (Nat.le_trans hw hstart) (walkPass_sample hx)

/-- An access is never before its instruction. -/
theorem accessClock_ge {run : Option InProgress} {at' : Nat}
    (h : accessClock D s run = .ok at') : s.clk.lineStart + s.clk.hclock ≤ at' := by
  cases run with
  | none =>
    cases h
    exact Nat.le_refl _
  | some run =>
    unfold accessClock at h
    dsimp only at h
    split at h
    next =>
      cases h
      exact Nat.le_add_right _ _
    next cycles =>
      obtain ⟨⟨w, smp⟩, hw, hout⟩ := map_eq_ok_iff.mp h
      cases hout
      exact walkCycles_sample (Nat.le_refl _) (Nat.le_refl _) hw

/-- The scheduler's beam with nothing paid for ahead. -/
def Clock.beamNow (c : Clock) : Beam := c.beam 0

theorem accessHv_here {at' : Nat} (hle : s.clk.lineStart ≤ at')
    (hin : at' < s.clk.lineStart + s.clk.lineClocks) :
    RasterAt s.clk.fieldBase s.clk.beamNow at' (accessHv s.clk at').1 (accessHv s.clk at').2 := by
  have hlength := lineClocks_eq (c := s.clk) rfl
  have hfits : ¬s.clk.lineClocks ≤ at' - s.clk.lineStart := by omega
  have hhv : accessHv s.clk at' = (s.clk.line, at' - s.clk.lineStart) := if_neg hfits
  have hin' : at' < s.clk.beamNow.lineStart +
      lineLength (s.clk.beamNow.frame - s.clk.fieldBase) s.clk.beamNow.line := by
    rw [show lineLength (s.clk.beamNow.frame - s.clk.fieldBase) s.clk.beamNow.line =
      s.clk.lineClocks from hlength]
    exact hin
  obtain ⟨b, hf, hs, hline, hls, -⟩ := inLine_settles hin'
  have hls' : b.lineStart = s.clk.lineStart := hls
  have hline' : b.line = s.clk.line := hline
  have hat := RasterAt.of_settled hf hs (by omega)
  rw [hls', hline'] at hat
  rw [hhv]
  exact hat

/-- The beam one line on. -/
theorem beamNow_next {at' : Nat} (hend : s.clk.lineStart + s.clk.lineClocks ≤ at') :
    ∃ b, (raster s.clk.fieldBase).Fires at' s.clk.beamNow b ∧
      b.line = (if s.clk.line + 1 = schedLines then 0 else s.clk.line + 1) ∧
      b.lineStart = s.clk.lineStart + s.clk.lineClocks ∧
      lineLength (b.frame - s.clk.fieldBase) b.line = s.clk.nextLineClocks := by
  have hlength := lineClocks_eq (c := s.clk) rfl
  have hend' : s.clk.beamNow.lineStart +
      lineLength (s.clk.beamNow.frame - s.clk.fieldBase) s.clk.beamNow.line ≤ at' := by
    rw [show lineLength (s.clk.beamNow.frame - s.clk.fieldBase) s.clk.beamNow.line =
      s.clk.lineClocks from hlength]
    exact hend
  obtain ⟨b, hf, hline, hframe, hls⟩ := lineEnd_fires hend'
  refine ⟨b, hf, hline, ?_, ?_⟩
  · rw [hls]
    exact congrArg _ hlength
  · rw [hline, hframe]
    rfl

theorem accessHv_next {at' : Nat} (hend : s.clk.lineStart + s.clk.lineClocks ≤ at')
    (hin : at' < s.clk.lineStart + s.clk.lineClocks + s.clk.nextLineClocks) :
    RasterAt s.clk.fieldBase s.clk.beamNow at' (accessHv s.clk at').1 (accessHv s.clk at').2 := by
  obtain ⟨b, hf, hline, hls, hlength⟩ := beamNow_next hend
  have hin' : at' < b.lineStart + lineLength (b.frame - s.clk.fieldBase) b.line := by
    rw [hlength, hls]
    exact hin
  obtain ⟨c, hc, hs, hcline, hcls, -⟩ := inLine_settles hin'
  have hpast : s.clk.lineClocks ≤ at' - s.clk.lineStart := by omega
  have hhv : accessHv s.clk at' = (if s.clk.line + 1 = schedLines then 0 else s.clk.line + 1,
    at' - s.clk.lineStart - s.clk.lineClocks) := if_pos hpast
  have hat := RasterAt.of_settled (hf.trans hc) hs (by omega)
  rw [hcline, hline, hcls, hls] at hat
  rw [hhv, Nat.sub_sub]
  exact hat

/-- Two line ends on, `access_hv` still counts one. -/
theorem accessHv_past {at' : Nat}
    (hpast : s.clk.lineStart + s.clk.lineClocks + s.clk.nextLineClocks ≤ at') :
    ¬RasterAt s.clk.fieldBase s.clk.beamNow at' (accessHv s.clk at').1 (accessHv s.clk at').2 := by
  rintro ⟨c, hc, hs, -, hclock, -⟩
  have hend : s.clk.lineStart + s.clk.lineClocks ≤ at' := by omega
  obtain ⟨b, hf, -, hls, hlength⟩ := beamNow_next hend
  have hend' : b.lineStart + lineLength (b.frame - s.clk.fieldBase) b.line ≤ at' := by
    rw [hlength, hls]
    exact hpast
  obtain ⟨b', hf', -, -, hls'⟩ := lineEnd_fires hend'
  have hrest := hs.reached hc (hf.trans hf')
  have hlater := hrest.count_le (μ := Beam.lineStart) (raster_lineStart_le s.clk.fieldBase)
  have hover : s.clk.lineClocks ≤ at' - s.clk.lineStart := by omega
  have hhv : (accessHv s.clk at').2 = at' - s.clk.lineStart - s.clk.lineClocks := by
    unfold accessHv
    dsimp only
    rw [if_pos hover]
  have hnext : 1360 ≤ s.clk.nextLineClocks := lineLength_ge _ _
  rw [hhv] at hclock
  omega

/-- `advance` follows the raster, whatever it has been paid ahead. -/
structure OnRaster (base : Nat) (start : Beam) (c : Clock) : Prop where
  fieldBase : c.fieldBase = base
  refreshAt : c.RefreshAtLine
  fires : ∃ n, (raster base).Fires (c.lineStart + c.hclock) start
    ⟨c.frames, c.line, c.lineStart, c.refreshDone, n⟩

theorem OnRaster.turn {base : Nat} {start : Beam} {c c' : Clock} (h : OnRaster base start c)
    (ht : ClockTurn c c') : OnRaster base start c' := by
  obtain ⟨n, hf⟩ := h.fires
  have hat := h.refreshAt
  simp only [Clock.RefreshAtLine] at hat
  cases ht with
  | inside same hclock hdone _ =>
    refine ⟨same.fieldBase.trans h.fieldBase, ?_, n, ?_⟩
    · simp only [Clock.RefreshAtLine, same.refreshAt, same.lineStart]
      exact hat
    · rw [same.lineStart, hclock, same.frames, same.line, hdone]
      exact hf
  | refresh hp =>
    obtain ⟨hsame, ⟨hd, hdue⟩, hdone, hpaid⟩ := hp
    rw [hd] at hf
    have hpoint : refreshPoint c.lineStart ≤ c.lineStart + c.hclock := by
      unfold refreshPoint
      omega
    have hlater : c.hclock ≤ c'.hclock := by
      rcases hpaid with ⟨-, -, hclock⟩ | ⟨-, -, hclock⟩
      · omega
      · omega
    refine ⟨hsame.fieldBase.trans h.fieldBase, ?_, n + 1, ?_⟩
    · simp only [Clock.RefreshAtLine, hsame.refreshAt, hsame.lineStart]
      exact hat
    · rw [hsame.lineStart, hsame.frames, hsame.line, hdone]
      exact (hf.trans (refresh_fires rfl hpoint)).mono (Nat.add_le_add_left hlater _)
  | lineEnd he =>
    have hlen := c.lineClocks_ge
    have hover := he.reached
    have hdone : c.refreshDone = true := by
      rcases he.refreshed with hd | hd
      · exact hd
      · omega
    have hlength := lineClocks_eq h.fieldBase
    rw [hdone] at hf
    have hdue : (raster base).due ⟨c.frames, c.line, c.lineStart, true, n⟩ ≤
        c.lineStart + c.hclock := by
      simp only [raster, if_true, hlength]
      omega
    have hfire : (raster base).fire ⟨c.frames, c.line, c.lineStart, true, n⟩ =
        ⟨c'.frames, c'.line, c'.lineStart, c'.refreshDone, n⟩ := by
      simp only [raster, Beam.nextLine, if_true, hlength, he.frames, he.line, he.lineStart,
        he.refreshDone, schedLines]
    have hnow : c'.lineStart + c'.hclock = c.lineStart + c.hclock := by
      rw [he.lineStart, he.hclock]
      omega
    refine ⟨he.fieldBase.trans h.fieldBase, he.refreshAt, n, ?_⟩
    rw [hnow, ← hfire]
    exact hf.fire hdue

/-- Wherever an `advance` leaves the scheduler, whatever refreshes are paid for it
and whatever registers and devices it goes on with, the raster is there. -/
theorem advance_rasterAt {how : Commit} {clocks paid : Nat} {regs : Regs} {dev : δ} {r : Sched δ}
    (hs : Rested s.clk)
    (h : advance D how clocks ⟨{ s.clk with refreshPaid := paid }, regs, dev⟩ = .ok r) :
    RasterAt s.clk.fieldBase s.clk.beamNow (r.clk.lineStart + r.clk.hclock) r.clk.line
      r.clk.hclock := by
  have hstart : OnRaster s.clk.fieldBase s.clk.beamNow
      { s.clk with refreshPaid := paid, hclock := s.clk.hclock + clocks } := by
    refine ⟨rfl, hs.refreshAt, 0, ?_⟩
    have hbeam : s.clk.beamNow =
        ⟨s.clk.frames, s.clk.line, s.clk.lineStart, s.clk.refreshDone, 0⟩ := by
      simp [Clock.beamNow, Clock.beam]
    rw [hbeam]
    exact .refl
  have hend := advance_invariant (OnRaster s.clk.fieldBase s.clk.beamNow)
    (fun c c' hc ht => hc.turn ht) hstart h
  have hsettled := advance_settled h
  obtain ⟨n, hf⟩ := hend.fires
  have hraster := hsettled.raster hend.refreshAt n
  have hlength := lineClocks_eq hend.fieldBase
  have hbefore := hsettled.inLine
  refine ⟨_, hf, ?_, rfl, rfl, ?_⟩
  · rw [hend.fieldBase] at hraster
    exact hraster
  · rw [hlength]
    exact hbefore

/-- An access is placed on the line and clock the scheduler's time will have when
it gets there, if that is no later than the next line. -/
theorem accessHv_exact {good : Clock → RegAccess → Prop} {run : Option InProgress} {at' : Nat}
    (h : HookRun D good s) (ha : accessClock D s run = .ok at') :
    (RasterAt s.clk.fieldBase s.clk.beamNow at' (accessHv s.clk at').1 (accessHv s.clk at').2 ↔
      at' < s.clk.lineStart + s.clk.lineClocks + s.clk.nextLineClocks) ∧
    ∀ (how : Commit) (clocks paid : Nat) (regs : Regs) (dev : δ) (r : Sched δ),
      advance D how clocks ⟨{ s.clk with refreshPaid := paid }, regs, dev⟩ = .ok r →
      r.clk.lineStart + r.clk.hclock = at' →
      RasterAt s.clk.fieldBase s.clk.beamNow at' r.clk.line r.clk.hclock := by
  have hrested := hookRun_rested h
  have hge := accessClock_ge ha
  refine ⟨⟨fun hat => ?_, fun hin => ?_⟩, fun how clocks paid regs dev r hr hnow => ?_⟩
  · exact Nat.lt_of_not_le fun hpast => accessHv_past hpast hat
  · by_cases hhere : at' < s.clk.lineStart + s.clk.lineClocks
    · exact accessHv_here (by omega) hhere
    · exact accessHv_next (Nat.le_of_not_lt hhere) hin
  · rw [← hnow]
    exact advance_rasterAt hrested hr

end AccessClock

/-- `LDA` of a register, compiled, at its read. -/
def ldaRun : InProgress where
  insnI := true
  cycles := some [⟨8, .read, none⟩, ⟨8, .read, none⟩, ⟨8, .read, none⟩, ⟨6, .read, some 0⟩]
  elapsed := 30

/-- `STA $420B` for `bytes` bytes right after power-on, then at the read of the
next instruction: its clock, and whether it is in this line or the next. -/
def pausedRead (bytes : Nat) : Option (Nat × Bool) :=
  match HookOp.runs idleDevices (fun _ _ => True) 186 () (HookOp.sta (.dma 1 [bytes])) with
  | .ok s =>
    match accessClock idleDevices s (some ldaRun) with
    | .ok at' => some (at', at' < s.clk.lineStart + s.clk.lineClocks + s.clk.nextLineClocks)
    | .error _ => none
  | .error _ => none

theorem pausedRead_some {bytes at' : Nat} {near : Bool} (h : pausedRead bytes = some (at', near)) :
    ∃ s, HookRun idleDevices (fun _ _ => True) s ∧
      accessClock idleDevices s (some ldaRun) = .ok at' ∧
      decide (at' < s.clk.lineStart + s.clk.lineClocks + s.clk.nextLineClocks) = near := by
  unfold pausedRead at h
  split at h
  next s hs =>
    split at h
    next _ ha =>
      cases h
      exact ⟨s, HookOp.runs_run hs, ha, rfl⟩
    next => cases h
  next => cases h

theorem accessHv_exact_next : ∃ s, HookRun idleDevices (fun _ _ => True) s ∧
    accessClock idleDevices s (some ldaRun) = .ok 1514 ∧
    RasterAt s.clk.fieldBase s.clk.beamNow 1514 (accessHv s.clk 1514).1 (accessHv s.clk 1514).2 := by
  have hread : pausedRead 150 = some (1514, true) := by decide +kernel
  obtain ⟨s, hs, ha, hin⟩ := pausedRead_some hread
  exact ⟨s, hs, ha, (accessHv_exact hs ha).1.mpr (of_decide_eq_true hin)⟩

/-- After a DMA pause of more than a line the next instruction's read is placed in
the line after the pause began, at a clock past that line's end. -/
theorem accessHv_behind : ¬∀ (s : Sched Unit) (run : Option InProgress) (at' : Nat),
    HookRun idleDevices (fun _ _ => True) s → accessClock idleDevices s run = .ok at' →
    RasterAt s.clk.fieldBase s.clk.beamNow at' (accessHv s.clk at').1 (accessHv s.clk at').2 := by
  intro hall
  have hread : pausedRead 400 = some (3594, false) := by decide +kernel
  obtain ⟨s, hs, ha, hfar⟩ := pausedRead_some hread
  have hpast := Nat.le_of_not_lt (of_decide_eq_false hfar)
  exact accessHv_past hpast (hall s _ _ hs ha)

end CtRecomp
