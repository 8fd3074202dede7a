import CtRecomp.Timeline

namespace CtRecomp

/-! What the scheduler's clock is for: NTSC lines and frames on the master
clock without interlace, and the DRAM refresh once a line. -/

/-- Line 240 of every other frame is four clocks short. -/
def lineLength (frame line : Nat) : Nat :=
  if line = 240 ∧ frame % 2 = 1 then 1360 else 1364

/-- Where frame `f` begins: 262 lines of 1364 clocks, less a short line in
every second frame before it. -/
def frameStart (f : Nat) : Nat := 357368 * f - 4 * (f / 2)

def lineBegin (frame line : Nat) : Nat :=
  frameStart frame + 1364 * line - if 240 < line ∧ frame % 2 = 1 then 4 else 0

theorem lineLength_ge (frame line : Nat) : 1360 ≤ lineLength frame line := by
  unfold lineLength
  split <;> omega

theorem lineBegin_zero (frame : Nat) : lineBegin frame 0 = frameStart frame := by
  simp [lineBegin]

theorem frameStart_succ (frame : Nat) :
    frameStart (frame + 1) = lineBegin frame 261 + lineLength frame 261 := by
  simp only [frameStart, lineBegin, lineLength]
  split <;> split <;> omega

theorem lineBegin_succ {frame line : Nat} (h : line + 1 < 262) :
    lineBegin frame (line + 1) = lineBegin frame line + lineLength frame line := by
  simp only [frameStart, lineBegin, lineLength]
  split <;> split <;> split <;> omega

theorem lineBegin_le (frame : Nat) {line : Nat} (h : line < 262) :
    lineBegin frame line + lineLength frame line ≤ frameStart (frame + 1) := by
  simp only [frameStart, lineBegin, lineLength]
  split <;> split <;> omega

theorem frameStart_mono {f g : Nat} (h : f ≤ g) : frameStart f ≤ frameStart g := by
  unfold frameStart
  omega

/-- The beam: the line it is in, and the refreshes it has met. -/
structure Beam where
  frame : Nat
  line : Nat
  lineStart : Nat
  refreshed : Bool
  refreshes : Nat
deriving DecidableEq, Repr

def refreshPoint (lineStart : Nat) : Nat := lineStart + 538 - lineStart % 8

def Beam.refresh (b : Beam) : Beam :=
  { b with refreshed := true, refreshes := b.refreshes + 1 }

def Beam.nextLine (base : Nat) (b : Beam) : Beam where
  frame := if b.line + 1 = 262 then b.frame + 1 else b.frame
  line := if b.line + 1 = 262 then 0 else b.line + 1
  lineStart := b.lineStart + lineLength (b.frame - base) b.line
  refreshed := false
  refreshes := b.refreshes

/-- In every line its refresh, then its end. The field of a frame is counted
from `base`. -/
def raster (base : Nat) : Timeline Beam where
  due b := if b.refreshed then b.lineStart + lineLength (b.frame - base) b.line
    else refreshPoint b.lineStart
  fire b := if b.refreshed then b.nextLine base else b.refresh

theorem raster_fire_refreshes (base : Nat) (b : Beam) :
    b.refreshes ≤ ((raster base).fire b).refreshes := by
  simp only [raster]
  split
  next => exact Nat.le_refl _
  next => exact Nat.le_succ _

theorem refreshPoint_lt (frame line lineStart : Nat) :
    refreshPoint lineStart < lineStart + lineLength frame line := by
  have h := lineLength_ge frame line
  unfold refreshPoint
  omega

end CtRecomp
