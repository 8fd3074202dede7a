import CtRecomp.SchedWalk

namespace CtRecomp

open Loop

variable {δ : Type}

/-- The instruction or interrupt entry begun last, as cycles.c counts it: its
clocks and its cycles. -/
structure Begun where
  clocks : Nat
  cycles : List Cycle
deriving DecidableEq

/-- Nothing begun (already charged). -/
def Begun.none : Begun := ⟨0, []⟩

def Sched.setPend (s : Sched δ) (p : Pend) : Sched δ := { s with regs := { s.regs with pend := p } }

/-- Something happens inside the next `clocks` clocks. -/
def inside (D : Devices δ) (clocks : Nat) (s : Sched δ) : Bool :=
  let c := s.clk
  let p := s.regs.pend
  let endAt := c.hclock + clocks
  p.transfer || p.dmaAfter.isSome || p.nmiCount ≠ 0 || p.nmiAfter.isSome ||
    (c.nmiDone = false ∧ 6 ≤ endAt) || (c.irqDone = false ∧ c.irqAt.any (· ≤ endAt)) ||
    c.lineClocks ≤ endAt || (c.refreshDone = false ∧ c.refreshAt ≤ endAt) ||
    (c.hblankDone = false ∧ c.line < schedVblankLine ∧ schedHdmaClock ≤ endAt ∧
      D.hdmaEnabled s.dev) ||
    (c.line = 0 ∧ c.initDone = false ∧ 12 + c.lineStart % 8 ≤ endAt)

/-- Charge an instruction (or interrupt entry), run with I flag `insnI`; also
`take_irq` as it leaves it. -/
def charge (D : Devices δ) (insnI : Bool) (b : Begun) (s : Sched δ) (takeIrq : Bool) :
    SchedM δ (Sched δ × Bool) :=
  if b.clocks = 0 then .ok (s, takeIrq)
  else if inside D b.clocks s = false then do
    let prevIrq := s.regs.pend.irqLine && !insnI
    let s ← advance D ⟨false, none⟩ b.clocks (s.setPend { s.regs.pend with prevIrq })
    pure (s, prevIrq)
  else do
    let start := s.clk.lineStart + s.clk.hclock
    let (w, _) ← fatally (walkInsn D insnI b.cycles s)
    let s := s.setPend { w.pend with dmaAfter := none, nmiAfter := none }
    let s ← walkCommit D w start w.t s
    pure (s, w.pend.prevIrq)

def waiQuiet (p : Pend) : Bool := !p.transfer && p.nmiCount = 0 && !p.needNmi && !p.irqLine

/-- The next clock of the line at which something can happen to a waiting CPU. -/
def waiNext (c : Clock) : Nat :=
  let next := c.lineClocks
  let next := if c.refreshDone = false then min c.refreshAt next else next
  let next := if c.hblankDone = false ∧ c.line < schedVblankLine then min schedHdmaClock next
    else next
  let next := if c.line = 0 ∧ c.initDone = false then min (12 + c.lineStart % 8) next else next
  let next := if c.nmiDone = false then min 6 next else next
  if c.irqDone = false then c.irqAt.elim next (fun clock => min clock next) else next

/-- A run of idle cycles up to just before it. -/
def waiRun (D : Devices δ) (s : Sched δ) : SchedM δ (Sched δ) :=
  let next := waiNext s.clk
  onlyIf (waiQuiet s.regs.pend = true ∧ s.clk.hclock + 12 < next)
    (advance D ⟨false, none⟩ (6 * ((next - s.clk.hclock) / 6 - 1))) s

/-- The walk of one idle cycle, and whether an NMI or the IRQ line was seen at
its start. -/
def waiWalk (D : Devices δ) (i : Bool) (s : Sched δ) : Except String (Walk × Bool) := do
  let w ← walkCycleStart D s 6 i (walkInit s)
  let seen := w.pend.needNmi || w.pend.irqLine
  let (w, _) ← walkPass D s 6 6 w
  pure (w, seen)

/-- One idle cycle of WAI; whether it ends the wait (`wai_over`). -/
def waiCycle (D : Devices δ) (i : Bool) (s : Sched δ) : SchedM δ (Sched δ × Bool) := do
  let s ← waiRun D s
  let start := s.clk.lineStart + s.clk.hclock
  let (w, seen) ← fatally (waiWalk D i s)
  let s ← walkCommit D w start w.t (s.setPend w.pend)
  pure (s, seen)

/-! Power-on. -/

def pendReset : Pend where
  delay := false
  hdma := false
  init := false
  dma := false
  hdmaCost := 0
  initCost := 0
  dmaAfter := none
  dmaSizes := List.replicate 8 0
  nmiCount := 0
  needNmi := false
  irqLine := false
  prevIrq := false
  nmiAfter := none

/-- `sched_init`. What `begin_line` sets first is 0 here. -/
def schedInit (dev : δ) : Sched δ where
  clk :=
    { line := 0, hclock := 0, lineStart := 0, frames := 0, fieldBase := 0, frameClock := 0
      frameDone := false, irqAt := none, irqDone := false, hblankDone := false, nmiDone := true
      initDone := false, refreshAt := 0, refreshDone := false, refreshPaid := 0, dmaLo := 0
      dmaHi := 0, edgeInDma := false, begun := [] }
  regs :=
    { nmitimen := 0, rdnmi := 0, rdnmiSet := false, rdnmiCleared := false, timeup := 0
      htime := 0x1FF, vtime := 0x1FF, autojoyBusy := false, autojoyOn := false, autojoyStep := 35
      autojoyStart := 0, autojoyPad := Vector.replicate 4 0, pad := Vector.replicate 4 0
      joy := Vector.replicate 4 0, pend := pendReset }
  dev

/-- The start `cpu_main` makes. -/
def schedStart (D : Devices δ) (startDelay : Nat) (dev : δ) : SchedM δ (Sched δ) := do
  let s ← beginLine D (schedInit dev)
  advance D ⟨false, none⟩ startDelay s

/-- Devices that do nothing. -/
def idleDevices : Devices Unit where
  call _ _ regs dev := .ok (regs, dev)
  hdmaEnabled _ := false
  hdmaCost _ := 0
  hdmaInitCost _ := 0
  hasFrameHook := false
  resetHook _ _ := false
  dmaCount8 := false

end CtRecomp
