import Mathlib.Logic.Function.Basic
import CtRecomp.Cpu

namespace CtRecomp

/-- What the 24-bit bus decodes an address to (bus.c), with the offset inside. -/
inductive Region where
  | wram (off : BitVec 17)
  | sram (off : BitVec 13)
  | rom (off : BitVec 22)
  | hw (reg : BitVec 16)
  | openBus
deriving DecidableEq, Repr

def bank (a : BitVec 24) : BitVec 8 := a.extractLsb' 16 8

def low (a : BitVec 24) : BitVec 16 := a.extractLsb' 0 16

def decodeAddr (a : BitVec 24) : Region :=
  if bank a = 0x7E ∨ bank a = 0x7F then .wram ((a - 0x7E0000).setWidth 17)
  else if 0xC0 ≤ bank a then .rom ((a - 0xC00000).setWidth 22)
  else if 0x40 ≤ bank a ∧ bank a ≤ 0x7D then .rom ((a - 0x400000).setWidth 22)
  -- $00-$3F, $80-$BF
  else if low a < 0x2000 then .wram ((low a).setWidth 17)
  else if low a < 0x6000 then .hw (low a)
  else if low a < 0x8000 then
    if 0x20 ≤ bank a &&& 0x7F then .sram ((low a).setWidth 13) else .openBus
  else .rom ((bank a).setWidth 6 ++ low a)

/-- Memory and hardware behind the bus; the ROM never changes (`Board.rom`). -/
structure Bus (σ : Type) where
  wram : BitVec 17 → BitVec 8
  sram : BitVec 13 → BitVec 8
  hw : σ

/-- A data access: what it moved, the bus value it saw, its clocks. -/
structure Access where
  addr : BitVec 24
  write : Bool
  value : BitVec 8
  mdr : BitVec 8
  clocks : Nat
deriving DecidableEq, Repr

/-- The globals an instruction touches besides the CPU: the bus and
`bus_mdr`, the data accesses so far, `ct_cyc_cross`, `ct_cyc_taken`, and the
step budget. -/
structure Wire (σ : Type) where
  bus : Bus σ
  mdr : BitVec 8
  log : List Access
  cross : Bool
  taken : Bool
  budget : Nat

/-- The ROM loaded and the register hooks installed (`bus_hook`); a hook may
use or change anything behind the bus. -/
class Board (σ : Type) where
  rom : BitVec 22 → BitVec 8
  hwRd : BitVec 16 → Option (Wire σ → Option (BitVec 8 × Bus σ))
  hwWr : BitVec 16 → Option (BitVec 8 → Wire σ → Option (Bus σ))
  fastrom : σ → Bool

/-- `none` is `ct_fatal`, which ends the program. -/
abbrev BusM (σ : Type) := StateT (Wire σ) Option

def ctFatal {σ α : Type} : BusM σ α := fun _ => none

/-- `bus_access_clocks`, given MEMSEL's bit 0 -/
def busAccessClocks (fastrom : Bool) (a : BitVec 24) : Nat :=
  if a &&& 0x408000 ≠ 0 then
    if a &&& 0x800000 ≠ 0 ∧ fastrom then 6 else 8
  else if (a + 0x6000) &&& 0x4000 ≠ 0 then 8
  else if (a - 0x4000) &&& 0x7E00 ≠ 0 then 6
  else 12

variable {σ : Type} [Board σ]

def Bus.fastrom (b : Bus σ) : Bool := Board.fastrom b.hw

def Wire.clocks (w : Wire σ) (a : BitVec 24) : Nat := busAccessClocks w.bus.fastrom a

/-- The byte an access to `a` finds in RAM or ROM. -/
def Bus.mem (b : Bus σ) (a : BitVec 24) : Option (BitVec 8) :=
  match decodeAddr a with
  | .wram off => some (b.wram off)
  | .sram off => some (b.sram off)
  | .rom off => some (Board.rom σ off)
  | _ => none

/-- The byte read at `a` and what the read does behind the bus. -/
def busRead (a : BitVec 24) (w : Wire σ) : Option (BitVec 8 × Bus σ) :=
  match decodeAddr a with
  | .wram off => some (w.bus.wram off, w.bus)
  | .sram off => some (w.bus.sram off, w.bus)
  | .rom off => some (Board.rom σ off, w.bus)
  | .hw reg =>
    match Board.hwRd reg with
    | some hook => hook w
    | none => none      -- unhooked hardware register
  | .openBus => none

def busWrite (a : BitVec 24) (v : BitVec 8) (w : Wire σ) : Option (Bus σ) :=
  match decodeAddr a with
  | .wram off => some { w.bus with wram := Function.update w.bus.wram off v }
  | .sram off => some { w.bus with sram := Function.update w.bus.sram off v }
  | .hw reg =>
    match Board.hwWr reg with
    | some hook => hook v w
    | none => none
  | _ => none

def read8 (a : BitVec 24) : BusM σ (BitVec 8) := fun w => do
  let (v, bus) ← busRead a w
  some (v, { w with bus, mdr := v, log := w.log ++ [⟨a, false, v, w.mdr, w.clocks a⟩] })

/-- The bus value changes before the write reaches its target. -/
def write8 (a : BitVec 24) (v : BitVec 8) : BusM σ Unit := fun w => do
  let bus ← busWrite a v { w with mdr := v }
  some ((), { w with bus, mdr := v, log := w.log ++ [⟨a, true, v, w.mdr, w.clocks a⟩] })

def read16 (a : BitVec 24) : BusM σ (BitVec 16) := do
  let lo ← read8 a
  let hi ← read8 (a + 1)
  return hi ++ lo

def write16 (a : BitVec 24) (v : BitVec 16) : BusM σ Unit := do
  write8 a (v.extractLsb' 0 8)
  write8 (a + 1) (v.extractLsb' 8 8)

/-- A read-modify-write's 16-bit write: high byte first. -/
def write16Rmw (a : BitVec 24) (v : BitVec 16) : BusM σ Unit := do
  write8 (a + 1) (v.extractLsb' 8 8)
  write8 a (v.extractLsb' 0 8)

/-- An address in bank 0. -/
def bank0 (a : BitVec 16) : BitVec 24 := a.setWidth 24

/-- `(uint16_t)(a + 1)`: the next address, wrapping within bank 0. -/
def nextB0 (a : BitVec 24) : BitVec 24 := bank0 (low (a + 1))

def read16B0 (a : BitVec 24) : BusM σ (BitVec 16) := do
  let lo ← read8 a
  let hi ← read8 (nextB0 a)
  return hi ++ lo

def write16B0 (a : BitVec 24) (v : BitVec 16) : BusM σ Unit := do
  write8 a (v.extractLsb' 0 8)
  write8 (nextB0 a) (v.extractLsb' 8 8)

def write16B0Rmw (a : BitVec 24) (v : BitVec 16) : BusM σ Unit := do
  write8 (nextB0 a) (v.extractLsb' 8 8)
  write8 a (v.extractLsb' 0 8)

/-- `ct_cyc_cross = …`, as the indexed addressing helpers set it. -/
def setCross (crossed : Bool) : BusM σ Unit := fun w => some ((), { w with cross := crossed })

def setTaken : BusM σ Unit := fun w => some ((), { w with taken := true })

def setMdr (v : BitVec 8) : BusM σ Unit := fun w => some ((), { w with mdr := v })

/-- Charge one backward branch or jump to the step budget; 0 is unlimited. -/
def chargeBudget : BusM σ Unit := fun w =>
  if w.budget = 0 then some ((), w)
  else if w.budget = 1 then none
  else some ((), { w with budget := w.budget - 1 })

theorem busRead_mem {w : Wire σ} {a : BitVec 24} {v : BitVec 8} (h : w.bus.mem a = some v) :
    busRead a w = some (v, w.bus) := by
  unfold Bus.mem at h
  unfold busRead
  cases hd : decodeAddr a with
  | wram off => rw [hd] at h; simpa using h
  | sram off => rw [hd] at h; simpa using h
  | rom off => rw [hd] at h; simpa using h
  | hw reg => rw [hd] at h; cases h
  | openBus => rw [hd] at h; cases h

theorem low_append (hi : BitVec 8) (lo : BitVec 16) : low (hi ++ lo) = lo :=
  BitVec.extractLsb'_append_eq_right

theorem bank_append (hi : BitVec 8) (lo : BitVec 16) : bank (hi ++ lo) = hi :=
  BitVec.extractLsb'_append_eq_left

@[simp] theorem bank_append_low (a : BitVec 24) : bank a ++ low a = a := by
  have h : bank a ++ low a = a.extractLsb' 0 (8 + 16) :=
    BitVec.extractLsb'_append_extractLsb'_eq_extractLsb' rfl
  exact h.trans BitVec.extractLsb'_eq_self

@[simp] theorem low_bank0 (a : BitVec 16) : low (bank0 a) = a := by
  unfold low bank0
  ext i hi
  have h24 : i < 24 := by omega
  simp [hi, h24]

end CtRecomp
