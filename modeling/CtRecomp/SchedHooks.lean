import CtRecomp.SchedRun

namespace CtRecomp

open Loop

variable {δ : Type}

/-! Register accesses that reach the scheduler's own hooks, and runs in which the
program and the devices change its registers only through them. -/

/-- A read of $4210 at clock `h` of line `ln`, the scheduler still in `line`. -/
def rdnmiRead (line ln h : Nat) (mdr : BitVec 8) (r : Regs) : BitVec 8 × Regs :=
  let r := if ln = schedVblankLine ∧ 2 ≤ h ∧ r.rdnmiSet = false
    then { r with rdnmi := 0x80, rdnmiSet := true } else r
  let r := if ln = 0 ∧ 2 ≤ h ∧ line ≠ 0 then { r with rdnmi := 0 } else r
  let v := r.rdnmi ||| 0x02 ||| (mdr &&& 0x70)
  -- the flag is held set for its first 4 clocks
  (v, if ln = schedVblankLine ∧ h < 6 then r else { r with rdnmi := 0 })

/-- `dma_start`: the $420B write was bus access `busN - 1`. -/
def dmaStart (busN : Nat) (sizes : List Nat) (r : Regs) : Regs :=
  { r with pend := { r.pend with dmaSizes := sizes, dmaAfter := some (busN - 1) } }

def setJoypad (port : Nat) (buttons : BitVec 16) (r : Regs) : Regs :=
  { r with pad := r.pad.setIfInBounds port buttons }

inductive RegAccess
  | nmitimen (inProgress : Bool) (busN : Nat) (v : BitVec 8)
  | timer (reg : BitVec 16) (v : BitVec 8)
  | rdnmi (line ln h : Nat) (mdr : BitVec 8)
  | timeup
  /-- $4212 and $4218-$421F bring the auto joypad read up to date. -/
  | autojoy (now : Nat)
  | dma (busN : Nat) (sizes : List Nat)
  | joypad (port : Nat) (buttons : BitVec 16)
deriving Repr

def RegAccess.effect : RegAccess → Regs → Regs
  | .nmitimen inProgress busN v => nmitimenWrite inProgress busN v
  | .timer reg v => htimeVtimeWrite reg v
  | .rdnmi line ln h mdr => fun r => (rdnmiRead line ln h mdr r).2
  | .timeup => fun r => (timeupRead r).2
  | .autojoy now => autojoyUpdate now
  | .dma busN sizes => dmaStart busN sizes
  | .joypad port buttons => setJoypad port buttons

/-- Accesses made while the clock stands at `clk`, each of them `good`. -/
inductive Accessed (good : Clock → RegAccess → Prop) (clk : Clock) : Regs → Regs → Prop
  | refl (r : Regs) : Accessed good clk r r
  | access {r r' : Regs} (h : Accessed good clk r r') (a : RegAccess) (holds : good clk a) :
      Accessed good clk r (a.effect r')

/-- What the devices do to the scheduler's registers (HDMA reads and writes the
bus), they do through its hooks. -/
def Devices.Hooked (D : Devices δ) (good : Clock → RegAccess → Prop) : Prop :=
  ∀ c clk r dev r' dev', D.call c clk r dev = .ok (r', dev') → Accessed good clk r r'

theorem idleDevices_hooked (good : Clock → RegAccess → Prop) : idleDevices.Hooked good := by
  intro c clk r dev r' dev' h
  cases h
  exact .refl _

/-- What the reset button leaves: the instruction under way is abandoned, timing
restarts at line 0 of a new frame. -/
def softReset (s : Sched δ) (dev : δ) : Sched δ where
  clk := { s.clk with
    line := 0
    hclock := 0
    lineStart := 0
    frameClock := 0
    frames := s.clk.frames + 1
    fieldBase := s.clk.frames + 1
    frameDone := true
    nmiDone := true
    refreshPaid := 0
    dmaLo := 0
    dmaHi := 0
    edgeInDma := false }
  regs := { s.regs with
    nmitimen := 0
    rdnmi := 0
    timeup := 0
    rdnmiSet := false
    rdnmiCleared := false
    autojoyBusy := false
    autojoyOn := false
    autojoyStep := 35
    pend := pendReset }
  dev

def restart (D : Devices δ) (startDelay : Nat) (dev : δ) (s : Sched δ) : SchedM δ (Sched δ) := do
  let s ← beginLine D (softReset s dev)
  advance D ⟨false, none⟩ startDelay s

/-- One thing that happens to the scheduler; a soft reset may cut a charge or a
wait short. -/
inductive HookStep (D : Devices δ) (good : Clock → RegAccess → Prop) (s : Sched δ) : Sched δ → Prop
  | charge {insnI takeIrq takeIrq' : Bool} {b : Begun} {s' : Sched δ}
      (h : charge D insnI b s takeIrq = .ok (s', takeIrq')) : HookStep D good s s'
  | wai {i seen : Bool} {s' : Sched δ} (h : waiCycle D i s = .ok (s', seen)) : HookStep D good s s'
  | access (a : RegAccess) (holds : good s.clk a) (dev : δ) :
      HookStep D good s { s with regs := a.effect s.regs, dev }
  | chargeReset {insnI takeIrq : Bool} {b : Begun} {startDelay : Nat} {dev : δ} {r s' : Sched δ}
      (h : CtRecomp.charge D insnI b s takeIrq = .error (.reset r))
      (again : restart D startDelay dev r = .ok s') : HookStep D good s s'
  | waiReset {i : Bool} {startDelay : Nat} {dev : δ} {r s' : Sched δ}
      (h : waiCycle D i s = .error (.reset r)) (again : restart D startDelay dev r = .ok s') :
      HookStep D good s s'

/-- The states runs reach in which every register access is `good`. -/
inductive HookRun (D : Devices δ) (good : Clock → RegAccess → Prop) : Sched δ → Prop
  | start {startDelay : Nat} {dev : δ} {s : Sched δ} (h : schedStart D startDelay dev = .ok s) :
      HookRun D good s
  | step {s s' : Sched δ} (run : HookRun D good s) (h : HookStep D good s s') : HookRun D good s'

theorem restart_rested {D : Devices δ} {startDelay : Nat} {dev : δ} {s s' : Sched δ}
    (h : restart D startDelay dev s = .ok s') : Rested s'.clk := by
  obtain ⟨r, hr, h⟩ := bind_eq_ok_iff.mp h
  obtain ⟨irqAt, hc⟩ := beginLine_clk hr
  refine advance_rested ?_ ?_ h
  · rw [hc]
    rfl
  · rw [hc]
    rfl

theorem hookRun_rested {D : Devices δ} {good : Clock → RegAccess → Prop} {s : Sched δ}
    (h : HookRun D good s) : Rested s.clk := by
  induction h with
  | start h => exact run_rested (.start h)
  | step _ h ih =>
    cases h with
    | charge h => exact charge_rested ih h
    | wai h => exact waiCycle_rested ih h
    | access => exact ih
    | chargeReset _ again => exact restart_rested again
    | waiReset _ again => exact restart_rested again

/-- The line under way begins where the raster has it, counted from the last reset. -/
structure Clock.InRaster (c : Clock) : Prop where
  inFrame : c.line < schedLines
  fieldBase : c.fieldBase ≤ c.frames
  lineStart : c.lineStart = lineBegin (c.frames - c.fieldBase) c.line

theorem Clock.InRaster.lineEnd {c c' : Clock} (hc : c.InRaster) (he : LineEnded c c') :
    c'.InRaster := by
  have hin := hc.inFrame
  have hbase := hc.fieldBase
  have hlen : c.lineClocks = lineLength (c.frames - c.fieldBase) c.line := (lineClocks_eq rfl).symm
  have hclock : c'.lineStart = lineBegin (c.frames - c.fieldBase) c.line +
      lineLength (c.frames - c.fieldBase) c.line := by
    rw [he.lineStart, hc.lineStart, hlen]
  by_cases hlast : c.line + 1 = schedLines
  · have hline : c'.line = 0 := by simpa [hlast] using he.line
    have hframes : c'.frames = c.frames + 1 := by simpa [hlast] using he.frames
    have hfield : c.frames + 1 - c.fieldBase = c.frames - c.fieldBase + 1 := by omega
    refine ⟨by simp [hline], by rw [he.fieldBase, hframes]; omega, ?_⟩
    rw [hclock, hline, he.fieldBase, hframes, hfield, lineBegin_zero, frameStart_succ]
    rw [Nat.succ.inj hlast]
  · have hline : c'.line = c.line + 1 := by simpa [hlast] using he.line
    have hframes : c'.frames = c.frames := by simpa [hlast] using he.frames
    have hinside : c.line + 1 < 262 := by
      simp only [schedLines] at hin hlast
      omega
    refine ⟨by simpa [hline] using hinside, by rw [he.fieldBase, hframes]; exact hbase, ?_⟩
    rw [hclock, hline, he.fieldBase, hframes, lineBegin_succ hinside]

theorem inRaster_lineInvariant : LineInvariant Clock.InRaster where
  inside c c' hsame hc := by
    refine ⟨hsame.line ▸ hc.inFrame, ?_, ?_⟩
    · rw [hsame.fieldBase, hsame.frames]
      exact hc.fieldBase
    · rw [hsame.lineStart, hsame.fieldBase, hsame.frames, hsame.line]
      exact hc.lineStart
  lineEnd _ _ he hc := hc.lineEnd he

theorem restart_inRaster {D : Devices δ} {startDelay : Nat} {dev : δ} {s s' : Sched δ}
    (h : restart D startDelay dev s = .ok s') : s'.clk.InRaster := by
  obtain ⟨r, hr, h⟩ := bind_eq_ok_iff.mp h
  obtain ⟨irqAt, hc⟩ := beginLine_clk hr
  refine inRaster_lineInvariant.advance ?_ h
  rw [hc]
  exact ⟨Nat.zero_lt_succ _, Nat.le_refl _, by simp [softReset, lineBegin, frameStart]⟩

theorem hookRun_inRaster {D : Devices δ} {good : Clock → RegAccess → Prop} {s : Sched δ}
    (h : HookRun D good s) : s.clk.InRaster := by
  induction h with
  | start h =>
    refine inRaster_lineInvariant.run (fun dev r hr => ?_) (.start h)
    obtain ⟨irqAt, hc⟩ := beginLine_clk hr
    rw [hc]
    exact ⟨Nat.zero_lt_succ _, Nat.le_refl _, by simp [schedInit, lineBegin, frameStart]⟩
  | step _ h ih =>
    cases h with
    | charge h => exact inRaster_lineInvariant.step ih (.charge h)
    | wai h => exact inRaster_lineInvariant.step ih (.wai h)
    | access => exact ih
    | chargeReset _ again => exact restart_inRaster again
    | waiReset _ again => exact restart_inRaster again

/-- A program's doings, to run them: an access, or the charge of an instruction. -/
inductive HookOp
  | access (a : RegAccess)
  | charge (b : Begun)

def HookOp.run (D : Devices δ) (good : Clock → RegAccess → Prop) [∀ c a, Decidable (good c a)]
    (s : Sched δ) : HookOp → SchedM δ (Sched δ)
  | .access a => if good s.clk a then .ok { s with regs := a.effect s.regs } else .error (.reset s)
  | .charge b => Prod.fst <$> CtRecomp.charge D true b s false

/-- From power-on. -/
def HookOp.runs (D : Devices δ) (good : Clock → RegAccess → Prop) [∀ c a, Decidable (good c a)]
    (startDelay : Nat) (dev : δ) (ops : List HookOp) : SchedM δ (Sched δ) :=
  schedStart D startDelay dev >>= fun s => ops.foldlM (HookOp.run D good) s

section Ops

variable {D : Devices δ} {good : Clock → RegAccess → Prop} [∀ c a, Decidable (good c a)]

theorem HookOp.run_step {s s' : Sched δ} {op : HookOp} (h : op.run D good s = .ok s') :
    HookStep D good s s' := by
  cases op with
  | access a =>
    by_cases ha : good s.clk a
    · have hs : s' = { s with regs := a.effect s.regs } := by
        simp only [HookOp.run, if_pos ha, Except.ok.injEq] at h
        exact h.symm
      rw [hs]
      exact .access a ha s.dev
    · simp [HookOp.run, if_neg ha] at h
  | charge b =>
    have hmap : Prod.fst <$> CtRecomp.charge D true b s false = .ok s' := h
    obtain ⟨⟨r, takeIrq⟩, hr, hout⟩ := map_eq_ok_iff.mp hmap
    rw [← hout]
    exact .charge hr

theorem HookRun.ops {ops : List HookOp} {s s' : Sched δ} (hs : HookRun D good s)
    (h : ops.foldlM (HookOp.run D good) s = .ok s') : HookRun D good s' := by
  induction ops generalizing s with
  | nil =>
    cases h
    exact hs
  | cons op ops ih =>
    rw [List.foldlM_cons] at h
    obtain ⟨mid, hmid, h⟩ := bind_eq_ok_iff.mp h
    exact ih (hs.step (HookOp.run_step hmid)) h

theorem HookOp.runs_run {startDelay : Nat} {dev : δ} {ops : List HookOp} {s : Sched δ}
    (h : HookOp.runs D good startDelay dev ops = .ok s) : HookRun D good s := by
  obtain ⟨r, hr, h⟩ := bind_eq_ok_iff.mp h
  exact HookRun.ops (.start hr) h

end Ops

/-! Instructions of compiled code in SlowROM, to run: `STA` to a register at six
clocks, with its write as access 0, and `NOP`. -/

def staBegun : Begun where
  clocks := 30
  cycles := [⟨8, .read, none⟩, ⟨8, .read, none⟩, ⟨8, .read, none⟩, ⟨6, .write, some 0⟩]

def nopBegun : Begun := ⟨14, [⟨8, .read, none⟩, ⟨6, .idle, none⟩]⟩

def HookOp.sta (a : RegAccess) : List HookOp := [.access a, .charge staBegun]

/-- `STA $420B` and the instruction in which the CPU is paused. -/
def HookOp.dmaPause (bytes : Nat) : List HookOp :=
  HookOp.sta (.dma 1 [bytes]) ++ [.charge nopBegun]

end CtRecomp
