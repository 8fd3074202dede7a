import CtRecomp.SchedCommit

namespace CtRecomp

open Loop

variable {δ : Type}

/-! Runs of the scheduler: it is started, then charges whatever the CPU runs. -/

/-- One thing that happens to the scheduler: something is charged, the CPU waits
a cycle, or the program changes registers and devices by its accesses. -/
inductive SchedStep (D : Devices δ) (s : Sched δ) : Sched δ → Prop
  | charge {insnI takeIrq takeIrq' : Bool} {b : Begun} {s' : Sched δ}
      (h : charge D insnI b s takeIrq = .ok (s', takeIrq')) : SchedStep D s s'
  | wai {i seen : Bool} {s' : Sched δ} (h : waiCycle D i s = .ok (s', seen)) : SchedStep D s s'
  | access (regs : Regs) (dev : δ) : SchedStep D s { s with regs, dev }

/-- A run without a soft reset: that one stops it (`Stop.reset`). -/
inductive SchedRun (D : Devices δ) : Sched δ → Prop
  | start {startDelay : Nat} {dev : δ} {s : Sched δ} (h : schedStart D startDelay dev = .ok s) :
      SchedRun D s
  | step {s s' : Sched δ} (run : SchedRun D s) (h : SchedStep D s s') : SchedRun D s'

/-- What is kept inside a line and from line to line is kept by all of it. -/
structure LineInvariant (P : Clock → Prop) : Prop where
  inside : ∀ c c', SameLine c c' → P c → P c'
  lineEnd : ∀ c c', LineEnded c c' → P c → P c'

section LineInvariant

variable {P : Clock → Prop} {D : Devices δ} {s s' : Sched δ}

theorem LineInvariant.advance (hP : LineInvariant P) {how : Commit} {clocks : Nat}
    (hs : P s.clk) (h : advance D how clocks s = .ok s') : P s'.clk := by
  refine advance_invariant P (fun c c' hc ht => ?_) (hP.inside s.clk _ (by constructor <;> rfl) hs) h
  cases ht with
  | inside same => exact hP.inside _ _ same hc
  | refresh hp => exact hP.inside _ _ hp.same hc
  | lineEnd he => exact hP.lineEnd _ _ he hc

theorem LineInvariant.walkCommit (hP : LineInvariant P)
    {w : Walk} {start t : Nat} (hs : P s.clk) (h : walkCommit D w start t s = .ok s') :
    P s'.clk := by
  obtain ⟨a, ha, h⟩ := bind_eq_ok_iff.mp h
  have hadvanced : P a.clk := by
    refine hP.advance (hP.inside s.clk _ ?_ hs) ha
    split <;> constructor <;> rfl
  cases h
  split
  next => exact hP.inside _ _ (by constructor <;> rfl) hadvanced
  next => exact hadvanced

theorem LineInvariant.step (hP : LineInvariant P) (hs : P s.clk) (h : SchedStep D s s') :
    P s'.clk := by
  cases h with
  | access => exact hs
  | charge h =>
    unfold charge at h
    split at h
    next =>
      cases h
      exact hs
    next =>
    split at h
    next =>
      obtain ⟨a, ha, h⟩ := bind_eq_ok_iff.mp h
      cases h
      refine hP.advance ?_ ha
      exact hs
    next =>
      obtain ⟨⟨w, smp⟩, -, h⟩ := bind_eq_ok_iff.mp h
      obtain ⟨a, ha, h⟩ := bind_eq_ok_iff.mp h
      cases h
      refine hP.walkCommit ?_ ha
      exact hs
  | wai h =>
    obtain ⟨a, ha, h⟩ := bind_eq_ok_iff.mp h
    obtain ⟨⟨w, seen⟩, -, h⟩ := bind_eq_ok_iff.mp h
    obtain ⟨b, hb, h⟩ := bind_eq_ok_iff.mp h
    cases h
    have hran : P a.clk :=
      onlyIf_invariant (fun r => P r.clk) hs (fun _ hr => hP.advance hs hr) ha
    refine hP.walkCommit ?_ hb
    exact hran

theorem LineInvariant.run (hP : LineInvariant P)
    (start : ∀ (dev : δ) (r : Sched δ), beginLine D (schedInit dev) = .ok r → P r.clk)
    (h : SchedRun D s) : P s.clk := by
  induction h with
  | start h =>
    obtain ⟨r, hr, h⟩ := bind_eq_ok_iff.mp h
    exact hP.advance (start _ r hr) h
  | step _ h ih => exact hP.step ih h

end LineInvariant

/-! No drift. -/

/-- The `n`-th line begun since power-on. -/
def lineAt (n : Nat) : LineStart := ⟨n / 262, n % 262, lineBegin (n / 262) (n % 262)⟩

theorem lineAt_next (n : Nat) :
    (lineAt (n + 1)).clock = (lineAt n).clock + lineLength (n / 262) (n % 262) := by
  rcases Nat.lt_or_ge (n % 262 + 1) 262 with hin | hlast
  · have hdiv : (n + 1) / 262 = n / 262 := by omega
    have hmod : (n + 1) % 262 = n % 262 + 1 := by omega
    simp only [lineAt, hdiv, hmod, lineBegin_succ hin]
  · have hdiv : (n + 1) / 262 = n / 262 + 1 := by omega
    have hmod : (n + 1) % 262 = 0 := by omega
    have hend : n % 262 = 261 := by omega
    simp only [lineAt, hdiv, hmod, hend, lineBegin_zero, frameStart_succ]

/-- The clock is in the last of the lines begun, in order, since power-on. -/
structure OnTime (c : Clock) : Prop where
  fieldBase : c.fieldBase = 0
  inFrame : c.line < schedLines
  lineStart : c.lineStart = lineBegin c.frames c.line
  frameClock : c.frameClock = frameStart c.frames
  begun : c.begun.reverse = (List.range (262 * c.frames + c.line + 1)).map lineAt

theorem OnTime.next_begun {c c' : Clock} (hc : OnTime c) (he : LineEnded c c')
    (hnext : ⟨c'.frames, c'.line, c'.lineStart⟩ = lineAt (262 * c.frames + c.line + 1))
    (hcount : 262 * c'.frames + c'.line = 262 * c.frames + c.line + 1) :
    c'.begun.reverse = (List.range (262 * c'.frames + c'.line + 1)).map lineAt := by
  have hrange := List.range_succ (n := 262 * c.frames + c.line + 1)
  rw [he.begun, List.reverse_cons, hc.begun, hnext, hcount, hrange, List.map_append]
  rfl

theorem OnTime.lineEnd {c c' : Clock} (hc : OnTime c) (he : LineEnded c c') : OnTime c' := by
  have hin := hc.inFrame
  have hlen : c.lineClocks = lineLength c.frames c.line := by
    have hlen := lineClocks_eq (c := c) hc.fieldBase
    simpa using hlen.symm
  have hclock : lineBegin c.frames c.line + lineLength c.frames c.line = c'.lineStart := by
    rw [he.lineStart, hc.lineStart, hlen]
  by_cases hlast : c.line + 1 = schedLines
  · have hline : c'.line = 0 := by simpa [hlast] using he.line
    have hframes : c'.frames = c.frames + 1 := by simpa [hlast] using he.frames
    have hend : c.line = 261 := Nat.succ.inj hlast
    have hstart : c'.lineStart = frameStart (c.frames + 1) := by
      rw [← hclock, hend, frameStart_succ]
    have hframe : c'.frameClock = c'.lineStart := by
      rw [he.frameClock, if_pos hlast, he.lineStart]
    refine ⟨he.fieldBase.trans hc.fieldBase, by simp [hline], ?_, ?_, hc.next_begun he ?_ ?_⟩
    · rw [hline, hframes, lineBegin_zero, hstart]
    · rw [hframe, hframes, hstart]
    · have hdiv : (262 * c.frames + c.line + 1) / 262 = c.frames + 1 := by omega
      have hmod : (262 * c.frames + c.line + 1) % 262 = 0 := by omega
      simp only [lineAt, hdiv, hmod, lineBegin_zero, hline, hframes, hstart]
    · rw [hline, hframes]
      omega
  · have hline : c'.line = c.line + 1 := by simpa [hlast] using he.line
    have hframes : c'.frames = c.frames := by simpa [hlast] using he.frames
    have hinside : c.line + 1 < 262 := by
      simp only [schedLines] at hin hlast
      omega
    have hstart : c'.lineStart = lineBegin c.frames (c.line + 1) := by
      rw [← hclock, lineBegin_succ hinside]
    refine ⟨he.fieldBase.trans hc.fieldBase, by simpa [hline] using hinside, ?_, ?_,
      hc.next_begun he ?_ ?_⟩
    · rw [hline, hframes, hstart]
    · rw [he.frameClock, if_neg hlast, hframes, hc.frameClock]
    · have hdiv : (262 * c.frames + c.line + 1) / 262 = c.frames := by omega
      have hmod : (262 * c.frames + c.line + 1) % 262 = c.line + 1 := by omega
      simp only [lineAt, hdiv, hmod, hline, hframes, hstart]
    · rw [hline, hframes]
      omega

theorem onTime_lineInvariant : LineInvariant OnTime where
  inside c c' hsame hc := by
    refine ⟨hsame.fieldBase ▸ hc.fieldBase, hsame.line ▸ hc.inFrame, ?_, ?_, ?_⟩
    · rw [hsame.lineStart, hsame.frames, hsame.line]
      exact hc.lineStart
    · rw [hsame.frameClock, hsame.frames]
      exact hc.frameClock
    · rw [hsame.begun, hsame.frames, hsame.line]
      exact hc.begun
  lineEnd _ _ he hc := hc.lineEnd he

theorem onTime_start {D : Devices δ} (dev : δ) (s : Sched δ)
    (h : beginLine D (schedInit dev) = .ok s) : OnTime s.clk := by
  obtain ⟨irqAt, hc⟩ := beginLine_clk h
  rw [hc]
  refine ⟨rfl, Nat.zero_lt_succ _, ?_, ?_, ?_⟩
  · simp [schedInit, lineBegin, frameStart]
  · simp [schedInit, frameStart]
  · simp [schedInit, lineAt, lineBegin, frameStart]

/-! Between two steps no event of the clock is due, and no refresh is paid for
ahead of time. -/

structure Rested (c : Clock) : Prop where
  settled : c.Settled
  refreshAt : c.RefreshAtLine
  refreshPaid : c.refreshPaid = 0

theorem refreshAtLine_lineInvariant : LineInvariant Clock.RefreshAtLine where
  inside c c' hsame hc := by
    simp only [Clock.RefreshAtLine, hsame.refreshAt, hsame.lineStart]
    exact hc
  lineEnd _ _ he _ := he.refreshAt

section Rested

variable {D : Devices δ} {s s' : Sched δ}

theorem advance_rested {how : Commit} {clocks : Nat} (hpaid : s.clk.refreshPaid = 0)
    (hat : s.clk.RefreshAtLine) (h : advance D how clocks s = .ok s') : Rested s'.clk := by
  have hkept : s'.clk.refreshPaid = 0 := by
    refine advance_invariant (fun c => c.refreshPaid = 0) (fun c c' hc ht => ?_) ?_ h
    · cases ht with
      | inside _ _ _ hpaid => exact hpaid.trans hc
      | refresh hp =>
        rcases hp.paid with ⟨hpos, -⟩ | ⟨-, hzero, -⟩
        · omega
        · exact hzero
      | lineEnd he => exact he.refreshPaid.trans hc
    · exact hpaid
  exact ⟨advance_settled h, refreshAtLine_lineInvariant.advance hat h, hkept⟩

theorem walkCommit_rested {r r' : Sched δ} {w : Walk}
    (hclk : r.clk = s.clk) (hs : Rested s.clk) (hw : WalkedOut s.clk.fieldBase (walkInit s) w)
    (h : walkCommit D w (s.clk.lineStart + s.clk.hclock) w.t r = .ok r') :
    Rested r'.clk := by
  have hagrees := walkCommit_agrees hclk hs.refreshPaid hs.refreshAt hw h
  have hat : r'.clk.RefreshAtLine :=
    refreshAtLine_lineInvariant.walkCommit (hclk ▸ hs.refreshAt) h
  refine ⟨?_, hat, hagrees.refreshPaid⟩
  obtain ⟨a, ha, h⟩ := bind_eq_ok_iff.mp h
  obtain ⟨hin, hrefresh⟩ := advance_settled ha
  cases h
  split
  next => exact ⟨hin, hrefresh⟩
  next => exact ⟨hin, hrefresh⟩

theorem charge_rested {insnI takeIrq takeIrq' : Bool} {b : Begun} (hs : Rested s.clk)
    (h : charge D insnI b s takeIrq = .ok (s', takeIrq')) : Rested s'.clk := by
  unfold charge at h
  split at h
  next =>
    cases h
    exact hs
  next =>
  split at h
  next =>
    obtain ⟨a, ha, h⟩ := bind_eq_ok_iff.mp h
    cases h
    refine advance_rested ?_ ?_ ha
    · exact hs.refreshPaid
    · exact hs.refreshAt
  next =>
    obtain ⟨⟨w, smp⟩, hw, h⟩ := bind_eq_ok_iff.mp h
    obtain ⟨a, ha, h⟩ := bind_eq_ok_iff.mp h
    cases h
    have hout := walkCycles_out (walkInit_settled hs.settled hs.refreshAt) (fatally_eq_ok.mp hw)
    exact walkCommit_rested (by rfl) hs hout ha

theorem waiCycle_rested {i seen : Bool} (hs : Rested s.clk)
    (h : waiCycle D i s = .ok (s', seen)) : Rested s'.clk := by
  obtain ⟨a, ha, h⟩ := bind_eq_ok_iff.mp h
  obtain ⟨⟨w, seen⟩, hw, h⟩ := bind_eq_ok_iff.mp h
  obtain ⟨b, hb, h⟩ := bind_eq_ok_iff.mp h
  cases h
  have hran : Rested a.clk := by
    refine onlyIf_invariant (fun r => Rested r.clk) hs (fun _ hr => ?_) ha
    exact advance_rested hs.refreshPaid hs.refreshAt hr
  exact walkCommit_rested (by rfl) hran (waiWalk_out (fatally_eq_ok.mp hw)) hb

theorem run_rested (h : SchedRun D s) : Rested s.clk := by
  induction h with
  | start h =>
    obtain ⟨r, hr, h⟩ := bind_eq_ok_iff.mp h
    obtain ⟨irqAt, hc⟩ := beginLine_clk hr
    refine advance_rested ?_ ?_ h
    · rw [hc]
      rfl
    · rw [hc]
      rfl
  | step _ h ih =>
    cases h with
    | charge h => exact charge_rested ih h
    | wai h => exact waiCycle_rested ih h
    | access => exact ih

end Rested

/-- Whatever runs, and however its time is charged: the frames begin where the
raster has them, every line of each frame is begun once and in order, and no
`advance` leaves a line's length in the line. -/
theorem run_no_drift {D : Devices δ} {s : Sched δ} (h : SchedRun D s) :
    OnTime s.clk ∧ (∀ n, (lineAt (n + 1)).clock =
        (lineAt n).clock + if n % 262 = 240 ∧ n / 262 % 2 = 1 then 1360 else 1364) ∧
      s.clk.hclock < lineLength s.clk.frames s.clk.line ∧
      ∀ (how : Commit) (clocks : Nat) (r r' : Sched δ), advance D how clocks r = .ok r' →
        r'.clk.hclock < r'.clk.lineClocks := by
  have htime : OnTime s.clk := onTime_lineInvariant.run onTime_start h
  have hlength : lineLength s.clk.frames s.clk.line = s.clk.lineClocks := by
    have hlength := lineClocks_eq (c := s.clk) htime.fieldBase
    simpa using hlength
  refine ⟨htime, lineAt_next, ?_, fun _ _ _ _ ha => (advance_settled ha).inLine⟩
  rw [hlength]
  exact (run_rested h).settled.inLine

theorem run_no_drift_start : ∃ s, schedStart idleDevices 186 () = .ok s ∧
    OnTime s.clk ∧ s.clk.hclock < lineLength s.clk.frames s.clk.line := by
  have h : schedStart idleDevices 186 () = .ok _ := rfl
  obtain ⟨htime, -, hin, -⟩ := run_no_drift (.start h)
  exact ⟨_, h, htime, hin⟩

end CtRecomp
