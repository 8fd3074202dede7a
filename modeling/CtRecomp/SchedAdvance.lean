import CtRecomp.SchedState

namespace CtRecomp

open Loop

variable {δ : Type}

/-- How `advance` was called: `walked`, and `edge_undo_from`, the bus access from which
the frame edge rolls WRAM writes back. -/
structure Commit where
  walked : Bool
  undoFrom : Option Nat

def edgeHook (D : Devices δ) (undoFrom : Option Nat) (s : Sched δ) : SchedM δ (Sched δ) :=
  let inDma := s.clk.dmaLo < s.clk.lineStart ∧ s.clk.lineStart < s.clk.dmaHi
  D.run (.edgeHook undoFrom) { s with clk := { s.clk with edgeInDma := inDma } }

def frameEdge (D : Devices δ) (undoFrom : Option Nat) (s : Sched δ) : SchedM δ (Sched δ) :=
  let s := { s with clk := { s.clk with
    line := 0
    frames := s.clk.frames + 1
    frameClock := s.clk.lineStart
    frameDone := true } }
  onlyIf (D.hasFrameHook = true) (edgeHook D undoFrom) s

def endLine (D : Devices δ) (undoFrom : Option Nat) (s : Sched δ) : SchedM δ (Sched δ) := do
  let s ← D.run .apuSync s
  let len := s.clk.lineClocks
  let s := { s with clk := { s.clk with
    hclock := s.clk.hclock - len
    lineStart := s.clk.lineStart + len
    line := s.clk.line + 1 } }
  let s ← onlyIf (s.clk.line = schedLines) (frameEdge D undoFrom) s
  beginLine D s

def hblank (D : Devices δ) (s : Sched δ) : SchedM δ (Sched δ) := do
  let s ← onlyIf (s.clk.line < schedVblankLine) (fun s => D.run .ppuDrawTo s >>= D.run .dmaDoHdma) s
  pure { s with clk := { s.clk with hblankDone := true } }

def raiseIrq (s : Sched δ) : Sched δ :=
  { s with
    clk := { s.clk with irqDone := true }
    regs := { s.regs with timeup := 0x80, pend := { s.regs.pend with irqLine := true } } }

def passNmi (walked : Bool) (s : Sched δ) : Sched δ :=
  let pend := if !walked ∧ s.regs.nmitimen &&& 0x80 ≠ 0 then { s.regs.pend with nmiCount := 1 }
    else s.regs.pend
  { s with clk := { s.clk with nmiDone := true }, regs := { s.regs with pend } }

def passRefresh (s : Sched δ) : Sched δ :=
  if s.clk.refreshPaid ≠ 0 then
    { s with clk := { s.clk with refreshPaid := s.clk.refreshPaid - 1, refreshDone := true } }
  else { s with clk := { s.clk with hclock := s.clk.hclock + refreshClocks, refreshDone := true } }

/-- One turn of `advance`'s loop; nothing left to do ends it. -/
def advanceStep (D : Devices δ) (how : Commit) (s : Sched δ) : SchedM δ (Option (Sched δ)) :=
  let c := s.clk
  let r := s.regs
  if c.line = schedVblankLine ∧ r.rdnmiSet = false ∧ 2 ≤ c.hclock then
    .ok (some { s with regs := { r with rdnmi := 0x80, rdnmiSet := true } })
  else if c.line = 0 ∧ r.rdnmiCleared = false ∧ 2 ≤ c.hclock then
    .ok (some { s with regs := { r with rdnmi := 0, rdnmiCleared := true } })
  else if c.nmiDone = false ∧ 6 ≤ c.hclock then .ok (some (passNmi how.walked s))
  else if c.refreshDone = false ∧ c.refreshAt ≤ c.hclock then .ok (some (passRefresh s))
  else if c.irqDone = false ∧ c.irqAt.any (fun at' => at' < schedHdmaClock ∧ at' ≤ c.hclock) then
    .ok (some (raiseIrq s))
  else if c.hblankDone = false ∧ schedHdmaClock ≤ c.hclock then some <$> hblank D s
  else if c.irqDone = false ∧ c.irqAt.any (· ≤ c.hclock) then .ok (some (raiseIrq s))
  else if c.lineClocks ≤ c.hclock then some <$> endLine D how.undoFrom s
  else .ok none

def owed (done : Bool) : Nat := (!done).toNat

/-- Falls on every turn: a line's end takes at least 1360 clocks and brings one
refresh and six events back; the HDMA point may bring the RDNMI flags back. -/
def advanceMeasure (s : Sched δ) : Nat :=
  16 * (s.clk.hclock + refreshClocks * owed s.clk.refreshDone) + 4 * owed s.clk.hblankDone +
    owed s.clk.refreshDone + owed s.clk.nmiDone + owed s.clk.irqDone +
    owed s.regs.rdnmiSet + owed s.regs.rdnmiCleared

def advance (D : Devices δ) (how : Commit) (clocks : Nat) (s : Sched δ) : SchedM δ (Sched δ) :=
  measured (advanceStep D how) advanceMeasure
    { s with clk := { s.clk with hclock := s.clk.hclock + clocks } }

/-! What one turn does to the clock. -/

/-- The fields a line's passing is about; events inside a line keep them. -/
structure SameLine (c c' : Clock) : Prop where
  line : c'.line = c.line
  lineStart : c'.lineStart = c.lineStart
  frames : c'.frames = c.frames
  fieldBase : c'.fieldBase = c.fieldBase
  frameClock : c'.frameClock = c.frameClock
  refreshAt : c'.refreshAt = c.refreshAt
  begun : c'.begun = c.begun

theorem SameLine.lineClocks {c c' : Clock} (h : SameLine c c') : c'.lineClocks = c.lineClocks := by
  simp only [Clock.lineClocks, h.line, h.frames, h.fieldBase]

/-- A refresh passes: paid for already, or its pause is added now. -/
structure RefreshPassed (c c' : Clock) : Prop where
  same : SameLine c c'
  due : c.refreshDone = false ∧ c.refreshAt ≤ c.hclock
  done : c'.refreshDone = true
  paid : (0 < c.refreshPaid ∧ c'.refreshPaid = c.refreshPaid - 1 ∧ c'.hclock = c.hclock) ∨
    (c.refreshPaid = 0 ∧ c'.refreshPaid = 0 ∧ c'.hclock = c.hclock + refreshClocks)

/-- A line ends and the next one begins. -/
structure LineEnded (c c' : Clock) : Prop where
  reached : c.lineClocks ≤ c.hclock
  refreshed : c.refreshDone = true ∨ c.hclock < c.refreshAt
  line : c'.line = if c.line + 1 = schedLines then 0 else c.line + 1
  frames : c'.frames = if c.line + 1 = schedLines then c.frames + 1 else c.frames
  frameClock : c'.frameClock =
    if c.line + 1 = schedLines then c.lineStart + c.lineClocks else c.frameClock
  lineStart : c'.lineStart = c.lineStart + c.lineClocks
  hclock : c'.hclock = c.hclock - c.lineClocks
  fieldBase : c'.fieldBase = c.fieldBase
  refreshPaid : c'.refreshPaid = c.refreshPaid
  refreshAt : c'.refreshAt = 530 + 8 - c'.lineStart % 8
  refreshDone : c'.refreshDone = false
  begun : c'.begun = ⟨c'.frames, c'.line, c'.lineStart⟩ :: c.begun

inductive ClockTurn (c c' : Clock) : Prop
  | inside (same : SameLine c c') (hclock : c'.hclock = c.hclock)
      (refreshDone : c'.refreshDone = c.refreshDone) (refreshPaid : c'.refreshPaid = c.refreshPaid)
  | refresh (h : RefreshPassed c c')
  | lineEnd (h : LineEnded c c')

theorem hblank_clk {D : Devices δ} {s s' : Sched δ} (h : hblank D s = .ok s') :
    s'.clk = { s.clk with hblankDone := true } := by
  obtain ⟨drawn, hd, h⟩ := bind_eq_ok_iff.mp h
  have hdrawn : drawn.clk = s.clk := by
    refine onlyIf_invariant (fun r => r.clk = s.clk) rfl (fun r hr => ?_) hd
    obtain ⟨mid, hm, hr⟩ := bind_eq_ok_iff.mp hr
    exact (run_clk hr).trans (run_clk hm)
  cases h
  simp only [hdrawn]

theorem frameEdge_clk {D : Devices δ} {undoFrom : Option Nat} {s s' : Sched δ}
    (h : frameEdge D undoFrom s = .ok s') : ∃ inDma, s'.clk = { s.clk with
      line := 0
      frames := s.clk.frames + 1
      frameClock := s.clk.lineStart
      frameDone := true
      edgeInDma := inDma } := by
  unfold frameEdge onlyIf at h
  split at h
  next => exact ⟨_, run_clk h⟩
  next =>
    cases h
    exact ⟨s.clk.edgeInDma, rfl⟩

theorem endLine_clk {D : Devices δ} {undoFrom : Option Nat} {s s' : Sched δ}
    (reached : s.clk.lineClocks ≤ s.clk.hclock)
    (refreshed : s.clk.refreshDone = true ∨ s.clk.hclock < s.clk.refreshAt)
    (h : endLine D undoFrom s = .ok s') : LineEnded s.clk s'.clk := by
  obtain ⟨synced, hs, h⟩ := bind_eq_ok_iff.mp h
  obtain ⟨wrapped, hw, h⟩ := bind_eq_ok_iff.mp h
  obtain ⟨irqAt, hc⟩ := beginLine_clk h
  have hsync := run_clk hs
  unfold onlyIf at hw
  split at hw
  next hwrap =>
    obtain ⟨inDma, he⟩ := frameEdge_clk hw
    rw [hsync] at hwrap
    simp only [he, hsync] at hc
    constructor <;> simp_all
  next hstay =>
    cases hw
    rw [hsync] at hstay
    simp only [hsync] at hc
    constructor <;> simp_all

@[simp] theorem owed_true : owed true = 0 := rfl

@[simp] theorem owed_false : owed false = 1 := rfl

theorem owed_le (done : Bool) : owed done ≤ 1 := Bool.toNat_le _

theorem Clock.lineClocks_ge (c : Clock) : 1360 ≤ c.lineClocks := by
  unfold Clock.lineClocks
  split <;> decide

theorem lineEnded_measure {s s' : Sched δ} (h : LineEnded s.clk s'.clk) :
    advanceMeasure s' < advanceMeasure s := by
  have hlen := s.clk.lineClocks_ge
  have hover := h.reached
  have hblank := owed_le s'.clk.hblankDone
  have hnmi := owed_le s'.clk.nmiDone
  have hirq := owed_le s'.clk.irqDone
  have hset := owed_le s'.regs.rdnmiSet
  have hcleared := owed_le s'.regs.rdnmiCleared
  simp only [advanceMeasure, h.hclock, h.refreshDone, owed_false, refreshClocks]
  omega

theorem passRefresh_measure {s : Sched δ} (h : s.clk.refreshDone = false) :
    advanceMeasure (passRefresh s) < advanceMeasure s := by
  unfold passRefresh
  split
  all_goals
    simp only [advanceMeasure, h, owed_true, owed_false]
    omega

theorem hblank_measure {D : Devices δ} {s s' : Sched δ} (hdone : s.clk.hblankDone = false)
    (h : hblank D s = .ok s') : advanceMeasure s' < advanceMeasure s := by
  have hset := owed_le s'.regs.rdnmiSet
  have hcleared := owed_le s'.regs.rdnmiCleared
  simp only [advanceMeasure, hblank_clk h, hdone, owed_true, owed_false]
  omega

/-- No event of the clock is due any more. -/
structure Clock.Settled (c : Clock) : Prop where
  inLine : c.hclock < c.lineClocks
  refresh : c.refreshDone = true ∨ c.hclock < c.refreshAt

/-- A turn of the loop, or its end. -/
inductive Turn (s : Sched δ) : Option (Sched δ) → Prop
  | done (settled : s.clk.Settled) : Turn s none
  | event {s' : Sched δ} (clk : ClockTurn s.clk s'.clk)
      (falls : advanceMeasure s' < advanceMeasure s) : Turn s (some s')

theorem passRefresh_turn {s : Sched δ} (hd : s.clk.refreshDone = false)
    (hat : s.clk.refreshAt ≤ s.clk.hclock) : Turn s (some (passRefresh s)) := by
  refine .event (.refresh ⟨?_, ⟨hd, hat⟩, ?_, ?_⟩) (passRefresh_measure hd)
  all_goals unfold passRefresh; split
  · constructor <;> rfl
  · constructor <;> rfl
  · rfl
  · rfl
  next hp => exact .inl ⟨Nat.pos_of_ne_zero hp, rfl, rfl⟩
  next hp => exact .inr ⟨by simpa using hp, by simpa using hp, rfl⟩

theorem hblank_turn {D : Devices δ} {s s' : Sched δ} (hd : s.clk.hblankDone = false)
    (h : hblank D s = .ok s') : Turn s (some s') := by
  have hc := hblank_clk h
  refine .event (.inside (by constructor <;> simp [hc]) ?_ ?_ ?_) (hblank_measure hd h)
  all_goals simp [hc]

theorem raiseIrq_turn {s : Sched δ} (hd : s.clk.irqDone = false) : Turn s (some (raiseIrq s)) :=
  .event (.inside (by constructor <;> rfl) rfl rfl rfl) (by simp [advanceMeasure, raiseIrq, hd])

/-- The one case analysis of the loop's body. -/
theorem advanceStep_turn {D : Devices δ} {how : Commit} {s : Sched δ} {r : Option (Sched δ)}
    (h : advanceStep D how s = .ok r) : Turn s r := by
  simp only [advanceStep] at h
  split at h
  next hd =>
    cases h
    exact .event (.inside (by constructor <;> rfl) rfl rfl rfl) (by simp [advanceMeasure, hd.2.1])
  next =>
  split at h
  next hd =>
    cases h
    exact .event (.inside (by constructor <;> rfl) rfl rfl rfl) (by simp [advanceMeasure, hd.2.1])
  next =>
  split at h
  next hd =>
    cases h
    exact .event (.inside (by constructor <;> rfl) rfl rfl rfl)
      (by simp [advanceMeasure, passNmi, hd.1])
  next =>
  split at h
  next hd => cases h; exact passRefresh_turn hd.1 hd.2
  next hrefresh =>
  have hrefreshed : s.clk.refreshDone = true ∨ s.clk.hclock < s.clk.refreshAt := by
    cases hdone : s.clk.refreshDone with
    | true => exact .inl rfl
    | false => exact .inr (Nat.lt_of_not_le fun hat => hrefresh ⟨hdone, hat⟩)
  split at h
  next hd => cases h; exact raiseIrq_turn hd.1
  next =>
  split at h
  next hd =>
    obtain ⟨r, hr, hout⟩ := map_eq_ok_iff.mp h
    cases hout
    exact hblank_turn hd.1 hr
  next =>
  split at h
  next hd => cases h; exact raiseIrq_turn hd.1
  next =>
  split at h
  next hover =>
    obtain ⟨r, hr, hout⟩ := map_eq_ok_iff.mp h
    cases hout
    have hended := endLine_clk hover hrefreshed hr
    exact .event (.lineEnd hended) (lineEnded_measure hended)
  next hline =>
    cases h
    exact .done ⟨Nat.lt_of_not_le hline, hrefreshed⟩

theorem advance_settled {D : Devices δ} {how : Commit} {clocks : Nat} {s s' : Sched δ}
    (h : advance D how clocks s = .ok s') : s'.clk.Settled := by
  have falls : ∀ a b : Sched δ, True → advanceStep D how a = .ok (some b) →
      True ∧ advanceMeasure b < advanceMeasure a := by
    intro a b _ ht
    cases advanceStep_turn ht with
    | event _ hfalls => exact ⟨trivial, hfalls⟩
  cases advanceStep_turn (measured_done falls trivial h) with
  | done hsettled => exact hsettled

/-- What every turn keeps, all of `advance` keeps. -/
theorem advance_invariant (P : Clock → Prop) {D : Devices δ} {how : Commit} {clocks : Nat}
    {s s' : Sched δ} (turn : ∀ c c', P c → ClockTurn c c' → P c')
    (hs : P { s.clk with hclock := s.clk.hclock + clocks }) (h : advance D how clocks s = .ok s') :
    P s'.clk := by
  have keep : ∀ a b : Sched δ, P a.clk → advanceStep D how a = .ok (some b) → P b.clk := by
    intro a b ha ht
    cases advanceStep_turn ht with
    | event hclk _ => exact turn _ _ ha hclk
  exact measured_invariant keep hs h

end CtRecomp
