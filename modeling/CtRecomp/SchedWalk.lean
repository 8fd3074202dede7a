import CtRecomp.SchedAdvance
import CtRecomp.Raster

namespace CtRecomp

open Loop

variable {δ : Type}

/-! Instructions with an event inside are walked cycle by cycle (sched.c,
"cycle-level timing"). -/

inductive CycleKind
  | read
  | write
  | idle
deriving DecidableEq, Repr

/-- A CPU cycle: its clocks, and the number of the data access it makes. Operand
fetches, which compiled code does not make, have none. -/
structure Cycle where
  clk : Nat
  kind : CycleKind
  idx : Option Nat
deriving DecidableEq, Repr

structure Walk where
  t : Nat
  ls : Nat
  line : Nat
  frame : Nat
  refreshDone : Bool
  hdmaDone : Bool
  initDone : Bool
  nmiDone : Bool
  irqDone : Bool
  irqAt : Option Nat
  refreshes : Nat
  edge : Bool
  undoFrom : Option Nat
  dmaLo : Nat
  dmaHi : Nat
  -- the global, which a walk changes as it goes
  pend : Pend
deriving DecidableEq

inductive WalkEvent
  | refresh
  | hdma
  | init
  | lineEnd
  | nmi
  | irq
deriving DecidableEq, Repr

def walkLineClocks (base : Nat) (w : Walk) : Nat :=
  if w.line = 240 ∧ (w.frame - base) % 2 = 1 then schedClocksPerLine - 4 else schedClocksPerLine

/-- An event takes the place of a later one. -/
def sooner (c : Prop) [Decidable c] (k : WalkEvent) (clock : Nat) (e : WalkEvent × Nat) :
    WalkEvent × Nat :=
  if c ∧ clock < e.2 then (k, clock) else e

/-- The line's next event at or after the walk's clock. -/
def walkNext (base : Nat) (w : Walk) : WalkEvent × Nat :=
  let e := (.lineEnd, w.ls + walkLineClocks base w)
  let e := sooner (w.line = schedVblankLine ∧ w.nmiDone = false) .nmi (w.ls + 6) e
  let e := w.irqAt.elim e (fun clock => sooner (w.irqDone = false) .irq (w.ls + clock) e)
  let e := sooner (w.line = 0 ∧ w.initDone = false) .init (w.ls + 12 + w.ls % 8) e
  let e := sooner (w.refreshDone = false) .refresh (w.ls + 538 - w.ls % 8) e
  sooner (w.hdmaDone = false ∧ w.line < schedVblankLine) .hdma (w.ls + schedHdmaClock) e

def Walk.setPend (w : Walk) (p : Pend) : Walk := { w with pend := p }

/-- The locals of `walk_pass`. -/
structure Pass where
  w : Walk
  endAt : Nat
  smp : Nat

def Pass.change (p : Pass) (f : Walk → Walk) : Pass := { p with w := f p.w }

def walkLineEnd (regs : Regs) (e : Nat) (w : Walk) : Except String Walk := do
  let w := { w with ls := e, line := w.line + 1 }
  let w := if w.line = schedLines then { w with line := 0, frame := w.frame + 1, edge := true }
    else w
  let irqAt ← irqClockFor regs w.line
  pure { w with
    refreshDone := false
    hdmaDone := false
    initDone := false
    nmiDone := false
    irqDone := false
    irqAt }

def walkEvent (D : Devices δ) (s : Sched δ) (e : Nat) (p : Pass) : WalkEvent → Except String Pass
  | .refresh => .ok
      { w := { p.w with refreshDone := true, refreshes := p.w.refreshes + 1 }
        smp := if e ≤ p.smp then p.smp + refreshClocks else p.smp
        endAt := p.endAt + refreshClocks }
  | .hdma => .ok <| p.change fun w => { w with
      hdmaDone := true
      pend := if D.hdmaEnabled s.dev then
          { w.pend with hdma := true, hdmaCost := D.hdmaCost s.dev, delay := true }
        else w.pend }
  | .init => .ok <| p.change fun w => { w with
      initDone := true
      pend := if D.hdmaEnabled s.dev then
          { w.pend with delay := true, init := true, initCost := D.hdmaInitCost s.dev }
        else { w.pend with delay := true } }
  | .nmi => .ok <| p.change fun w => { w with
      nmiDone := true
      pend := if s.regs.nmitimen &&& 0x80 ≠ 0 then { w.pend with nmiCount := 1 } else w.pend }
  | .irq => .ok <| p.change fun w => { w with
      irqDone := true
      pend := { w.pend with irqLine := true } }
  | .lineEnd => (fun w => { p with w }) <$> walkLineEnd s.regs e p.w

def walkStep (D : Devices δ) (s : Sched δ) (p : Pass) : Except String (Option Pass) :=
  let next := walkNext s.clk.fieldBase p.w
  if p.endAt < next.2 then .ok none else some <$> walkEvent D s next.2 p next.1

def walkMeasure (p : Pass) : Nat :=
  8 * (p.endAt + refreshClocks * owed p.w.refreshDone - p.w.ls) + owed p.w.refreshDone +
    owed p.w.hdmaDone + owed p.w.initDone + owed p.w.nmiDone + owed p.w.irqDone

/-- `clocks` of CPU or DMA time; a read samples `sample` clocks in. Returns the
sample's clock too. -/
def walkPass (D : Devices δ) (s : Sched δ) (clocks sample : Nat) (w : Walk) :
    Except String (Walk × Nat) := do
  let p ← measured (walkStep D s) walkMeasure ⟨w, w.t + clocks, w.t + sample⟩
  pure ({ p.w with t := p.endAt }, p.smp)

def walkFor (D : Devices δ) (s : Sched δ) (clocks : Nat) (w : Walk) : Except String Walk :=
  Prod.fst <$> walkPass D s clocks 0 w

/-- HDMA or init inside a general DMA: between bytes, no sync. -/
def walkDmaPending (D : Devices δ) (s : Sched δ) (w : Walk) (count : Nat) :
    Except String (Walk × Nat) :=
  if w.pend.delay then .ok (w.setPend { w.pend with delay := false }, count)
  else if w.pend.hdma then do
    let w ← walkFor D s w.pend.hdmaCost (w.setPend { w.pend with hdma := false })
    pure (w, count + w.pend.hdmaCost)
  else if w.pend.init then do
    let w ← walkFor D s w.pend.initCost (w.setPend { w.pend with init := false })
    pure (w, count + w.pend.initCost)
  else .ok (w, count)

def walkDmaBytes (D : Devices δ) (s : Sched δ) : Nat → Walk → Nat → Except String (Walk × Nat)
  | 0, w, count => .ok (w, count)
  | n + 1, w, count => do
    let w ← walkFor D s 8 w
    let (w, count) ← walkDmaPending D s w count
    walkDmaBytes D s n w count

def walkDmaChannels (D : Devices δ) (s : Sched δ) :
    List Nat → Walk → Nat → Except String (Walk × Nat)
  | [], w, count => .ok (w, count)
  | size :: sizes, w, count =>
    if size = 0 then walkDmaChannels D s sizes w count
    else do
      let w ← walkFor D s 8 w
      let (w, count) ← walkDmaPending D s w (count + 8)
      let (w, count) ← walkDmaBytes D s size w count
      walkDmaChannels D s sizes w (count + 8 * if D.dmaCount8 then size % 256 else size)

def walkDma (D : Devices δ) (s : Sched δ) (w : Walk) (count : Nat) : Except String (Walk × Nat) := do
  let w := { w.setPend { w.pend with dma := false } with dmaLo := w.t }
  let w ← walkFor D s 8 w
  let (w, count) ← walkDmaPending D s w (count + 8)
  let (w, count) ← walkDmaChannels D s w.pend.dmaSizes w count
  pure ({ w with dmaHi := w.t }, count)

def walkTransfer (D : Devices δ) (s : Sched δ) (w : Walk) (count : Nat) :
    Except String (Walk × Nat) :=
  if w.pend.hdma then do
    let n := w.pend.hdmaCost
    let w ← walkFor D s n (w.setPend { w.pend with hdma := false })
    pure (w, count + n)
  else if w.pend.init then do
    let n := w.pend.initCost
    let w ← walkFor D s n (w.setPend { w.pend with init := false })
    pure (w, count + n)
  else walkDma D s w count

/-- At the start of a CPU cycle of `speed` clocks; whether a transfer ran. -/
def walkPending (D : Devices δ) (s : Sched δ) (speed : Nat) (w : Walk) :
    Except String (Walk × Bool) :=
  if w.pend.transfer = false then .ok (w, false)
  else if w.pend.delay then .ok (w.setPend { w.pend with delay := false }, false)
  else do
    let sync := 8 - w.t % 8
    let w ← walkFor D s sync w
    let (w, count) ← walkTransfer D s w sync
    let w ← walkFor D s (speed - count % speed) w
    pure (w, true)

/-- The NMI counter and the IRQ line as sampled at a cycle's start, `lock` right
after a transfer. -/
def Pend.sample (lock i : Bool) (p : Pend) : Pend :=
  let p :=
    if p.nmiCount = 1 then
      if lock then { p with nmiCount := 1 } else { p with nmiCount := 0, needNmi := true }
    else { p with nmiCount := p.nmiCount - 1 }
  { p with prevIrq := !lock && p.irqLine && !i }

def walkCycleStart (D : Devices δ) (s : Sched δ) (speed : Nat) (i : Bool) (w : Walk) :
    Except String Walk := do
  let (w, lock) ← walkPending D s speed w
  pure (w.setPend (w.pend.sample lock i))

def walkInit (s : Sched δ) : Walk where
  t := s.clk.lineStart + s.clk.hclock
  ls := s.clk.lineStart
  line := s.clk.line
  frame := s.clk.frames
  refreshDone := s.clk.refreshDone
  hdmaDone := s.clk.hblankDone
  initDone := s.clk.initDone
  nmiDone := s.clk.nmiDone
  irqDone := s.clk.irqDone
  irqAt := s.clk.irqAt
  refreshes := 0
  edge := false
  undoFrom := none
  dmaLo := 0
  dmaHi := 0
  pend := s.regs.pend

/-- A write past a frame edge lands after it. -/
def Walk.noteWrite (c : Cycle) (w : Walk) : Walk :=
  if w.edge ∧ w.undoFrom = none ∧ c.idx.isSome ∧ c.kind = .write then { w with undoFrom := c.idx }
  else w

/-- The $420B write that starts a DMA, the $4200 write that enables a pending
NMI. -/
def Pend.access (c : Cycle) (p : Pend) : Pend :=
  let p := if c.idx.isSome ∧ c.idx = p.dmaAfter
    then { p with dma := true, delay := true, dmaAfter := none } else p
  if c.idx.isSome ∧ c.idx = p.nmiAfter then { p with nmiCount := 2, nmiAfter := none } else p

def Walk.accessed (c : Cycle) (w : Walk) : Walk :=
  (w.noteWrite c).setPend (w.pend.access c)

def walkCycle (D : Devices δ) (s : Sched δ) (i : Bool) (c : Cycle) (w : Walk) :
    Except String (Walk × Nat) := do
  let w ← walkCycleStart D s c.clk i w
  let (w, smp) ← walkPass D s c.clk (if c.kind = .read then c.clk - 4 else c.clk) w
  pure (w.accessed c, smp)

def walkCycles (D : Devices δ) (s : Sched δ) (i : Bool) :
    List Cycle → Walk × Nat → Except String (Walk × Nat)
  | [], r => .ok r
  | c :: cs, (w, _) => walkCycle D s i c w >>= walkCycles D s i cs

/-- Walk an instruction's cycles from its start; the master clock the last of
them samples at comes with it. -/
def walkInsn (D : Devices δ) (i : Bool) (cycles : List Cycle) (s : Sched δ) :
    Except String (Walk × Nat) :=
  let w := walkInit s
  walkCycles D s i cycles (w, w.t)

def walkCommit (D : Devices δ) (w : Walk) (start t : Nat) (s : Sched δ) :
    SchedM δ (Sched δ) := do
  let c := { s.clk with refreshPaid := s.clk.refreshPaid + w.refreshes }
  let c := if w.dmaHi ≠ 0 then { c with dmaLo := w.dmaLo, dmaHi := w.dmaHi } else c
  let s ← advance D ⟨true, w.undoFrom⟩ (t - start) { s with clk := c }
  pure <| if s.clk.line = w.line then
      { s with clk := { s.clk with
        initDone := s.clk.initDone || w.initDone
        nmiDone := s.clk.nmiDone || w.nmiDone } }
    else s

end CtRecomp
