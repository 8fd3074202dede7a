import CtRecomp.Loop

namespace CtRecomp

open Loop

/-! The frame scheduler's globals (sched.c), in three parts: the clock, which
only `advance` and `beginLine` move; the registers, which register hooks write
too; the devices behind the hooks. -/

abbrev schedClocksPerLine : Nat := 1364
abbrev schedLines : Nat := 262
abbrev schedHdmaClock : Nat := 1104
abbrev schedVblankLine : Nat := 225
abbrev schedHeight : Nat := 224
abbrev refreshClocks : Nat := 40

/-- A line as it begins: frame count, line and master clock. -/
structure LineStart where
  frame : Nat
  line : Nat
  clock : Nat
deriving DecidableEq, Repr

structure Clock where
  line : Nat
  hclock : Nat
  lineStart : Nat
  frames : Nat
  fieldBase : Nat
  frameClock : Nat
  frameDone : Bool
  irqAt : Option Nat
  irqDone : Bool
  hblankDone : Bool
  nmiDone : Bool
  initDone : Bool
  refreshAt : Nat
  refreshDone : Bool
  refreshPaid : Nat
  dmaLo : Nat
  dmaHi : Nat
  edgeInDma : Bool
  -- not in sched.c: the lines begun so far, newest first
  begun : List LineStart
deriving DecidableEq, Repr

/-- `pend`: transfers and interrupt lines waiting for a CPU cycle start. A bus
access number of -1 is `none`. -/
structure Pend where
  delay : Bool
  hdma : Bool
  init : Bool
  dma : Bool
  hdmaCost : Nat
  initCost : Nat
  dmaAfter : Option Nat
  dmaSizes : List Nat
  nmiCount : Nat
  needNmi : Bool
  irqLine : Bool
  prevIrq : Bool
  nmiAfter : Option Nat
deriving DecidableEq, Repr

/-- `pend.delay | pend.hdma | pend.init | pend.dma` -/
def Pend.transfer (p : Pend) : Bool := p.delay || p.hdma || p.init || p.dma

structure Regs where
  nmitimen : BitVec 8
  rdnmi : BitVec 8
  rdnmiSet : Bool
  rdnmiCleared : Bool
  timeup : BitVec 8
  htime : BitVec 16
  vtime : BitVec 16
  autojoyBusy : Bool
  autojoyOn : Bool
  autojoyStep : Nat
  autojoyStart : Nat
  autojoyPad : Vector (BitVec 16) 4
  pad : Vector (BitVec 16) 4
  joy : Vector (BitVec 16) 4
  pend : Pend
deriving DecidableEq

structure Sched (δ : Type) where
  clk : Clock
  regs : Regs
  dev : δ
deriving DecidableEq

/-- What the scheduler asks of the PPU, DMA and APU and of the frame hook. -/
inductive DeviceCall
  | apuSync
  | ppuDrawTo
  | dmaDoHdma
  | dmaInitHdma
  | ppuBeginDrawing
  | ppuRunLine
  | oamVblankReload
  | edgeHook (undoFrom : Option Nat)
deriving DecidableEq, Repr

/-- `ct_fatal`, or the `longjmp` of a soft reset with the globals as it left them. -/
inductive Stop (σ : Type)
  | fatal (msg : String)
  | reset (s : σ)
deriving DecidableEq

/-- The vendored devices. A call may run register hooks (HDMA reads and writes
the bus), so it returns registers; it cannot reach the clock. -/
structure Devices (δ : Type) where
  call : DeviceCall → Clock → Regs → δ → Except String (Regs × δ)
  hdmaEnabled : δ → Bool
  hdmaCost : δ → Nat
  hdmaInitCost : δ → Nat
  hasFrameHook : Bool
  resetHook : Nat → δ → Bool
  dmaCount8 : Bool

variable {δ : Type}

abbrev SchedM (δ : Type) := Except (Stop (Sched δ))

def fatally {α : Type} : Except String α → SchedM δ α
  | .ok a => .ok a
  | .error msg => .error (.fatal msg)

theorem fatally_eq_ok {α : Type} {x : Except String α} {a : α} :
    (fatally x : SchedM δ α) = .ok a ↔ x = .ok a := by
  cases x with
  | error msg => simp [fatally]
  | ok b => simp [fatally]

def Devices.run (D : Devices δ) (c : DeviceCall) (s : Sched δ) : SchedM δ (Sched δ) := do
  let (regs, dev) ← fatally (D.call c s.clk s.regs s.dev)
  pure { s with regs, dev }

/-- Clocks in the current line. -/
def Clock.lineClocks (c : Clock) : Nat :=
  if c.line = 240 ∧ (c.frames - c.fieldBase) % 2 = 1 then schedClocksPerLine - 4
  else schedClocksPerLine

/-! Register hooks. -/

def nmitimenWrite (inProgress : Bool) (busN : Nat) (v : BitVec 8) (r : Regs) : Regs :=
  let fires := r.nmitimen &&& 0x80 = 0 ∧ v &&& 0x80 ≠ 0 ∧ r.rdnmi &&& 0x80 ≠ 0
  let p := if fires then
      if inProgress then { r.pend with nmiAfter := some (busN - 1) }
      else { r.pend with nmiCount := 2 }
    else r.pend
  if v &&& 0x30 = 0 then
    { r with nmitimen := v, timeup := 0, pend := { p with irqLine := false } }
  else { r with nmitimen := v, pend := p }

def htimeVtimeWrite (reg : BitVec 16) (v : BitVec 8) (r : Regs) : Regs :=
  let set (t : BitVec 16) : BitVec 16 :=
    if reg &&& 1 ≠ 0 then (t &&& 0x100) ||| v.setWidth 16
    else (t &&& 0xFF) ||| ((v &&& 1).setWidth 16 <<< 8)
  if reg < 0x4209 then { r with htime := set r.htime } else { r with vtime := set r.vtime }

def timeupRead (r : Regs) : BitVec 8 × Regs :=
  (r.timeup, { r with timeup := 0, pend := { r.pend with irqLine := false } })

def autojoyArm (now : Nat) (r : Regs) : Regs :=
  { r with
    autojoyStart := (now + 130 + 255) / 256 * 256 - 128
    autojoyStep := 0
    autojoyPad := r.pad }

def autojoyStepAt (r : Regs) : Regs :=
  let step := r.autojoyStep
  let r :=
    if step = 1 then
      let on := r.nmitimen &&& 1 ≠ 0
      { r with autojoyOn := on, autojoyBusy := on, joy := if on then Vector.replicate 4 0 else r.joy }
    else if step ≥ 4 ∧ step % 2 = 0 ∧ r.autojoyOn then
      { r with joy := r.autojoyPad.map (fun b : BitVec 16 => b >>> (16 - ((step - 4) / 2 + 1))) }
    else r
  { r with autojoyBusy := if step = 34 then false else r.autojoyBusy, autojoyStep := step + 1 }

def autojoyLoop (now : Nat) : Nat → Regs → Regs
  | 0, r => r
  | n + 1, r =>
    if r.autojoyStep ≤ 34 ∧ r.autojoyStart + 128 * r.autojoyStep ≤ now then
      autojoyLoop now n (autojoyStepAt r)
    else r

/-- At most 35 steps are left. -/
def autojoyUpdate (now : Nat) (r : Regs) : Regs := autojoyLoop now (35 - r.autojoyStep) r

/-! Lines. -/

def startFrame (D : Devices δ) (s : Sched δ) : SchedM δ (Sched δ) := do
  let s := { s with regs := { s.regs with rdnmiSet := false, rdnmiCleared := false } }
  D.run .ppuBeginDrawing s >>= D.run .dmaInitHdma

def startVblank (D : Devices δ) (s : Sched δ) : SchedM δ (Sched δ) := do
  let s ← D.run .ppuDrawTo s
  if D.resetHook (s.clk.frames + 1) s.dev then throw (.reset s)
  let s ← D.run .oamVblankReload s
  pure { s with regs := autojoyArm s.clk.lineStart s.regs }

def startLine (D : Devices δ) (s : Sched δ) : SchedM δ (Sched δ) := do
  let s ← onlyIf (s.clk.line = 0) (startFrame D) s
  let s ← onlyIf (s.clk.line = schedVblankLine) (startVblank D) s
  let s := { s with regs := autojoyUpdate s.clk.lineStart s.regs }
  onlyIf (s.clk.line ≤ schedHeight) (D.run .ppuRunLine) s

/-- Clock in line `ln` where the H/V timer raises the IRQ line. -/
def irqClockFor (r : Regs) (ln : Nat) : Except String (Option Nat) :=
  let mode := (r.nmitimen >>> 4 &&& 3).toNat
  if mode = 0 then .ok none
  else if mode = 2 then
    .ok (if ln = r.vtime.toNat then some (if r.vtime ≠ 0 then 14 else 10) else none)
  else if mode = 3 ∧ ln ≠ r.vtime.toNat then .ok none
  else if r.htime.toNat > 339 then .ok none
  else if r.htime.toNat ≥ 337 then
    .error ("H/V IRQ at HTIME " ++ toString r.htime.toNat ++
      ": matches at the end of the line, not modeled")
  else .ok (some (18 + 4 * r.htime.toNat))

def beginLine (D : Devices δ) (s : Sched δ) : SchedM δ (Sched δ) := do
  let s ← startLine D s
  let irqAt ← fatally (irqClockFor s.regs s.clk.line)
  pure { s with clk := { s.clk with
    irqAt
    irqDone := irqAt.isNone
    hblankDone := false
    initDone := s.clk.line ≠ 0
    nmiDone := s.clk.line ≠ schedVblankLine
    refreshAt := 530 + 8 - s.clk.lineStart % 8
    refreshDone := false
    begun := ⟨s.clk.frames, s.clk.line, s.clk.lineStart⟩ :: s.clk.begun } }

/-! What the calls leave alone. -/

theorem run_clk {D : Devices δ} {c : DeviceCall} {s s' : Sched δ} (h : D.run c s = .ok s') :
    s'.clk = s.clk := by
  obtain ⟨⟨regs, dev⟩, -, h⟩ := bind_eq_ok_iff.mp h
  cases h
  rfl

theorem startFrame_clk {D : Devices δ} {s s' : Sched δ} (h : startFrame D s = .ok s') :
    s'.clk = s.clk := by
  obtain ⟨drawn, hd, h⟩ := bind_eq_ok_iff.mp h
  have hdrawn := run_clk hd
  exact (run_clk h).trans hdrawn

theorem startVblank_clk {D : Devices δ} {s s' : Sched δ} (h : startVblank D s = .ok s') :
    s'.clk = s.clk := by
  obtain ⟨drawn, hd, h⟩ := bind_eq_ok_iff.mp h
  have hdrawn := run_clk hd
  split at h
  next => cases h
  next =>
    obtain ⟨reloaded, hr, h⟩ := bind_eq_ok_iff.mp h
    cases h
    exact (run_clk hr).trans hdrawn

theorem startLine_clk {D : Devices δ} {s s' : Sched δ} (h : startLine D s = .ok s') :
    s'.clk = s.clk := by
  obtain ⟨framed, hf, h⟩ := bind_eq_ok_iff.mp h
  obtain ⟨blanked, hb, h⟩ := bind_eq_ok_iff.mp h
  have hframed : framed.clk = s.clk :=
    onlyIf_invariant (fun r => r.clk = s.clk) rfl (fun _ => startFrame_clk) hf
  have hblanked : blanked.clk = framed.clk :=
    onlyIf_invariant (fun r => r.clk = framed.clk) rfl (fun _ => startVblank_clk) hb
  have hlast : s'.clk = blanked.clk :=
    onlyIf_invariant (fun r => r.clk = blanked.clk) rfl (fun _ hr => run_clk hr) h
  rw [hlast, hblanked, hframed]

/-- What `beginLine` sets. -/
theorem beginLine_clk {D : Devices δ} {s s' : Sched δ} (h : beginLine D s = .ok s') :
    ∃ irqAt, s'.clk = { s.clk with
      irqAt
      irqDone := irqAt.isNone
      hblankDone := false
      initDone := s.clk.line ≠ 0
      nmiDone := s.clk.line ≠ schedVblankLine
      refreshAt := 530 + 8 - s.clk.lineStart % 8
      refreshDone := false
      begun := ⟨s.clk.frames, s.clk.line, s.clk.lineStart⟩ :: s.clk.begun } := by
  obtain ⟨started, hs, h⟩ := bind_eq_ok_iff.mp h
  obtain ⟨irqAt, -, h⟩ := bind_eq_ok_iff.mp h
  cases h
  refine ⟨irqAt, ?_⟩
  simp only [startLine_clk hs]

end CtRecomp
