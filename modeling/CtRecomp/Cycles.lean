import Mathlib.Algebra.Ring.Nat
import CtRecomp.Isa
import CtRecomp.SchedWalk

namespace CtRecomp

/-! Cycle counts of the instructions (cycles.c): a number per opcode, and a list of
cycles per opcode. -/

/-- What may come on top of an opcode's base count (`P_M` and so on). -/
inductive Penalty
  | M     -- M=0
  | M2    -- M=0, read-modify-write: two
  | X     -- X=0
  | DL    -- the low byte of DP is nonzero
  | IDX   -- the index crossed a page or X=0
  | BR    -- the branch was taken
  | RTI   -- native mode
deriving DecidableEq, Repr

/-- ALU group, by addressing column. -/
def aluCycles : List (Nat × Nat × List Penalty) :=
  [(0x01, 6, [.DL]), (0x03, 4, []), (0x05, 3, [.DL]), (0x07, 6, [.DL]), (0x09, 2, []),
   (0x0D, 4, []), (0x0F, 5, []), (0x11, 5, [.DL, .IDX]), (0x12, 5, [.DL]), (0x13, 7, []),
   (0x15, 4, [.DL]), (0x17, 6, [.DL]), (0x19, 4, [.IDX]), (0x1D, 4, [.IDX]), (0x1F, 5, [])]

/-- ASL ROL LSR ROR / INC DEC -/
def rmwOps : List Nat := [0x00, 0x20, 0x40, 0x60, 0xE0, 0xC0]

/-- The opcodes of two cycles. -/
def twoOps : List Nat :=
  [0x0A, 0x2A, 0x4A, 0x6A, 0x1A, 0x3A, 0xE8, 0xC8, 0xCA, 0x88, 0xAA, 0xA8, 0x8A, 0x98, 0x9B, 0xBB,
   0xBA, 0x9A, 0x5B, 0x7B, 0x1B, 0x3B, 0x18, 0x38, 0x58, 0x78, 0xD8, 0xF8, 0xB8, 0xFB, 0xEA]

def branchOps : List Nat := [0x10, 0x30, 0x50, 0x70, 0x90, 0xB0, 0xD0, 0xF0, 0x80]

/-- `build_cycle_table`, in its order. -/
def cycleRows : List (Nat × Nat × List Penalty) :=
  List.flatten [
    ((List.range 8).flatMap fun hi => aluCycles.map fun (lo, base, pen) =>
      (32 * hi + lo, base, pen ++ [.M])),
    [(0x91, 6, [.DL, .M]), (0x99, 5, [.M]), (0x9D, 5, [.M])],
    (rmwOps.flatMap fun op => [(op + 0x06, 5, [.DL, .M2]), (op + 0x0E, 6, [.M2]),
      (op + 0x16, 6, [.DL, .M2]), (op + 0x1E, 7, [.M2])]),
    (twoOps.map fun op => (op, 2, [])),
    [(0x42, 2, []),
     (0x04, 5, [.DL, .M2]), (0x0C, 6, [.M2]), (0x14, 5, [.DL, .M2]), (0x1C, 6, [.M2]),
     (0x89, 2, [.M]), (0x24, 3, [.DL, .M]), (0x2C, 4, [.M]), (0x34, 4, [.DL, .M]),
     (0x3C, 4, [.M, .IDX]),
     (0xA2, 2, [.X]), (0xA6, 3, [.DL, .X]), (0xAE, 4, [.X]), (0xB6, 4, [.DL, .X]),
     (0xBE, 4, [.X, .IDX]),
     (0xA0, 2, [.X]), (0xA4, 3, [.DL, .X]), (0xAC, 4, [.X]), (0xB4, 4, [.DL, .X]),
     (0xBC, 4, [.X, .IDX]),
     (0x86, 3, [.DL, .X]), (0x8E, 4, [.X]), (0x96, 4, [.DL, .X]),
     (0x84, 3, [.DL, .X]), (0x8C, 4, [.X]), (0x94, 4, [.DL, .X]),
     (0x64, 3, [.DL, .M]), (0x74, 4, [.DL, .M]), (0x9C, 4, [.M]), (0x9E, 5, [.M]),
     (0xE0, 2, [.X]), (0xE4, 3, [.DL, .X]), (0xEC, 4, [.X]),
     (0xC0, 2, [.X]), (0xC4, 3, [.DL, .X]), (0xCC, 4, [.X]),
     (0xEB, 3, []), (0x48, 3, [.M]), (0xDA, 3, [.X]), (0x5A, 3, [.X]), (0x68, 4, [.M]),
     (0xFA, 4, [.X]), (0x7A, 4, [.X]), (0x8B, 3, []), (0xAB, 4, []), (0x0B, 4, []), (0x2B, 5, []),
     (0x4B, 3, []), (0x08, 3, []), (0x28, 4, []), (0xF4, 5, []), (0xD4, 6, [.DL]), (0x62, 6, []),
     (0xC2, 3, []), (0xE2, 3, [])],
    (branchOps.map fun op => (op, 2, [.BR])),
    [(0x82, 4, []), (0x4C, 3, []), (0x5C, 4, []), (0x6C, 5, []), (0x7C, 6, []), (0xDC, 6, []),
     (0x20, 6, []), (0xFC, 8, []), (0x22, 8, []), (0x60, 6, []), (0x6B, 6, []), (0x40, 6, [.RTI]),
     (0x54, 7, []), (0x44, 7, []), (0xCB, 3, []), (0xDB, 3, [])]]

/-- A table by opcode, filled in by assignments. -/
def assigned {α : Type} (init : α) (rows : List (Nat × α)) : List α :=
  rows.foldl (fun table row => table.set row.1 row.2) (List.replicate 256 init)

/-- `cyc_base` and `cyc_pen` -/
def cycleTable : List (Nat × List Penalty) := assigned (0, []) cycleRows

def cycleRow (op : BitVec 8) : Nat × List Penalty := cycleTable.getD op.toNat (0, [])

/-- Bytes with M=X=1 (`op_size`). -/
def opSizes : List Nat :=
  [2, 2, 2, 2, 2, 2, 2, 2, 1, 2, 1, 1, 3, 3, 3, 4,
   2, 2, 2, 2, 2, 2, 2, 2, 1, 3, 1, 1, 3, 3, 3, 4,
   3, 2, 4, 2, 2, 2, 2, 2, 1, 2, 1, 1, 3, 3, 3, 4,
   2, 2, 2, 2, 2, 2, 2, 2, 1, 3, 1, 1, 3, 3, 3, 4,
   1, 2, 2, 2, 3, 2, 2, 2, 1, 2, 1, 1, 3, 3, 3, 4,
   2, 2, 2, 2, 3, 2, 2, 2, 1, 3, 1, 1, 4, 3, 3, 4,
   1, 2, 3, 2, 2, 2, 2, 2, 1, 2, 1, 1, 3, 3, 3, 4,
   2, 2, 2, 2, 2, 2, 2, 2, 1, 3, 1, 1, 3, 3, 3, 4,
   2, 2, 3, 2, 2, 2, 2, 2, 1, 2, 1, 1, 3, 3, 3, 4,
   2, 2, 2, 2, 2, 2, 2, 2, 1, 3, 1, 1, 3, 3, 3, 4,
   2, 2, 2, 2, 2, 2, 2, 2, 1, 2, 1, 1, 3, 3, 3, 4,
   2, 2, 2, 2, 2, 2, 2, 2, 1, 3, 1, 1, 3, 3, 3, 4,
   2, 2, 2, 2, 2, 2, 2, 2, 1, 2, 1, 1, 3, 3, 3, 4,
   2, 2, 2, 2, 2, 2, 2, 2, 1, 3, 1, 1, 3, 3, 3, 4,
   2, 2, 2, 2, 2, 2, 2, 2, 1, 2, 1, 1, 3, 3, 3, 4,
   2, 2, 2, 2, 3, 2, 2, 2, 1, 3, 1, 1, 3, 3, 3, 4]

/-- A cycle of an opcode's template: opcode fetch, operand fetch, data access,
internal; then the conditional ones. -/
inductive CycleLetter
  | F | O | D | I
  | d   -- internal, if the low byte of DP is nonzero
  | x   -- internal, if the index crossed a page or X=0
  | b   -- internal, if the branch was taken
  | m   -- data, if M=0
  | w   -- data, if X=0
  | p   -- operand, if M=0
  | q   -- operand, if X=0
  | n   -- data, in native mode
deriving DecidableEq, Repr

def aluTemplates : List (Nat × List CycleLetter) :=
  [(0x01, [.F, .O, .d, .I, .D, .D, .D, .m]), (0x03, [.F, .O, .I, .D, .m]),
   (0x05, [.F, .O, .d, .D, .m]), (0x07, [.F, .O, .d, .D, .D, .D, .D, .m]), (0x09, [.F, .O, .p]),
   (0x0D, [.F, .O, .O, .D, .m]), (0x0F, [.F, .O, .O, .O, .D, .m]),
   (0x11, [.F, .O, .d, .D, .D, .x, .D, .m]), (0x12, [.F, .O, .d, .D, .D, .D, .m]),
   (0x13, [.F, .O, .I, .D, .D, .I, .D, .m]), (0x15, [.F, .O, .d, .I, .D, .m]),
   (0x17, [.F, .O, .d, .D, .D, .D, .D, .m]), (0x19, [.F, .O, .O, .x, .D, .m]),
   (0x1D, [.F, .O, .O, .x, .D, .m]), (0x1F, [.F, .O, .O, .O, .D, .m])]

/-- `build_templates`, in its order. -/
def templateRows : List (Nat × List CycleLetter) :=
  List.flatten [
    ((List.range 8).flatMap fun hi => aluTemplates.map fun (lo, t) => (32 * hi + lo, t)),
    [(0x91, [.F, .O, .d, .D, .D, .I, .D, .m]), (0x99, [.F, .O, .O, .I, .D, .m]),
     (0x9D, [.F, .O, .O, .I, .D, .m])],
    (rmwOps.flatMap fun op => [(op + 0x06, [.F, .O, .d, .D, .m, .I, .m, .D]),
      (op + 0x0E, [.F, .O, .O, .D, .m, .I, .m, .D]),
      (op + 0x16, [.F, .O, .d, .I, .D, .m, .I, .m, .D]),
      (op + 0x1E, [.F, .O, .O, .I, .D, .m, .I, .m, .D])]),
    (twoOps.map fun op => (op, [.F, .I])),
    [(0x42, [.F, .O]),
     (0x04, [.F, .O, .d, .D, .m, .I, .m, .D]), (0x14, [.F, .O, .d, .D, .m, .I, .m, .D]),
     (0x0C, [.F, .O, .O, .D, .m, .I, .m, .D]), (0x1C, [.F, .O, .O, .D, .m, .I, .m, .D]),
     (0x89, [.F, .O, .p]), (0x24, [.F, .O, .d, .D, .m]), (0x2C, [.F, .O, .O, .D, .m]),
     (0x34, [.F, .O, .d, .I, .D, .m]), (0x3C, [.F, .O, .O, .x, .D, .m]),
     (0xA2, [.F, .O, .q]), (0xA0, [.F, .O, .q]),
     (0xA6, [.F, .O, .d, .D, .w]), (0xA4, [.F, .O, .d, .D, .w]),
     (0xAE, [.F, .O, .O, .D, .w]), (0xAC, [.F, .O, .O, .D, .w]),
     (0xB6, [.F, .O, .d, .I, .D, .w]), (0xB4, [.F, .O, .d, .I, .D, .w]),
     (0xBE, [.F, .O, .O, .x, .D, .w]), (0xBC, [.F, .O, .O, .x, .D, .w]),
     (0x86, [.F, .O, .d, .D, .w]), (0x84, [.F, .O, .d, .D, .w]),
     (0x8E, [.F, .O, .O, .D, .w]), (0x8C, [.F, .O, .O, .D, .w]),
     (0x96, [.F, .O, .d, .I, .D, .w]), (0x94, [.F, .O, .d, .I, .D, .w]),
     (0x64, [.F, .O, .d, .D, .m]), (0x74, [.F, .O, .d, .I, .D, .m]),
     (0x9C, [.F, .O, .O, .D, .m]), (0x9E, [.F, .O, .O, .I, .D, .m]),
     (0xE0, [.F, .O, .q]), (0xC0, [.F, .O, .q]),
     (0xE4, [.F, .O, .d, .D, .w]), (0xC4, [.F, .O, .d, .D, .w]),
     (0xEC, [.F, .O, .O, .D, .w]), (0xCC, [.F, .O, .O, .D, .w]),
     (0xEB, [.F, .I, .I]), (0x48, [.F, .I, .D, .m]), (0xDA, [.F, .I, .D, .w]),
     (0x5A, [.F, .I, .D, .w]), (0x68, [.F, .I, .I, .D, .m]), (0xFA, [.F, .I, .I, .D, .w]),
     (0x7A, [.F, .I, .I, .D, .w]), (0x8B, [.F, .I, .D]), (0x4B, [.F, .I, .D]),
     (0x08, [.F, .I, .D]), (0xAB, [.F, .I, .I, .D]), (0x28, [.F, .I, .I, .D]),
     (0x0B, [.F, .I, .D, .D]), (0x2B, [.F, .I, .I, .D, .D]), (0xF4, [.F, .O, .O, .D, .D]),
     (0xD4, [.F, .O, .d, .D, .D, .D, .D]), (0x62, [.F, .O, .O, .I, .D, .D]),
     (0xC2, [.F, .O, .I]), (0xE2, [.F, .O, .I])],
    (branchOps.map fun op => (op, [.F, .O, .b])),
    [(0x82, [.F, .O, .O, .I]), (0x4C, [.F, .O, .O]), (0x5C, [.F, .O, .O, .O]),
     (0x6C, [.F, .O, .O, .D, .D]), (0x7C, [.F, .O, .O, .I, .D, .D]),
     (0xDC, [.F, .O, .O, .D, .D, .D]), (0x20, [.F, .O, .O, .I, .D, .D]),
     (0xFC, [.F, .O, .D, .D, .O, .I, .D, .D]), (0x22, [.F, .O, .O, .D, .I, .O, .D, .D]),
     (0x60, [.F, .I, .I, .D, .D, .I]), (0x6B, [.F, .I, .I, .D, .D, .D]),
     (0x40, [.F, .I, .I, .D, .D, .D, .n]),
     (0x54, [.F, .O, .O, .D, .D, .I, .I]), (0x44, [.F, .O, .O, .D, .D, .I, .I]),
     (0xCB, [.F, .I, .I]), (0xDB, [.F, .I, .I])]]

def templateTable : List (Option (List CycleLetter)) :=
  assigned none (templateRows.map fun row => (row.1, some row.2))

def tmpl (op : BitVec 8) : Option (List CycleLetter) := templateTable.getD op.toNat none

/-- Interrupt entry: a fetch at PB:PC, an internal cycle, the pushes and the
vector reads. -/
def tmplInt : List CycleLetter := [.F, .I, .D, .D, .D, .D, .D, .D]

/-- Clocks of an opcode fetch at PB:PC. -/
def cycMasterPerCycle (fastrom : Bool) (pb : BitVec 8) (pc : BitVec 16) : Nat :=
  let rom := 0xC0 ≤ pb ∨ pb &&& 0x7F < 0x40 ∧ 0x8000 ≤ pc
  if pb &&& 0x80 ≠ 0 ∧ rom ∧ fastrom then 6 else 8

/-- `cur`: the instruction begun and not yet charged. -/
structure Cur where
  op : BitVec 8
  m16 : Bool
  x16 : Bool
  dl : Bool
  native : Bool
  interrupt : Bool
  compiled : Bool
  speed : Nat
  size : Nat
deriving DecidableEq, Repr

/-- Immediates grow with M (ORA..SBC #) and X (LDY LDX CPY CPX). -/
def curSize (op : BitVec 8) (m16 x16 : Bool) : Nat :=
  opSizes.getD op.toNat 0 + (m16 ∧ op &&& 0x1F = 0x09 : Bool).toNat +
    (x16 ∧ op ∈ [0xA0, 0xA2, 0xC0, 0xE0] : Bool).toNat

section Begin

variable {σ : Type} [Board σ]

/-- `cyc_begin`; the size is only set for compiled code. -/
def cycBegin (b : Bus σ) (c : RegFile) (site : BitVec 24) (op : BitVec 8) : Cur where
  op
  m16 := !c.m
  x16 := !c.x
  dl := c.DP &&& 0xFF ≠ 0
  native := !c.e
  interrupt := false
  compiled := false
  speed := cycMasterPerCycle b.fastrom (bank site) (low site)
  size := 0

def cycBeginCompiled (b : Bus σ) (c : RegFile) (site : BitVec 24) (op : BitVec 8) : Cur :=
  { cycBegin b c site op with compiled := true, size := curSize op (!c.m) (!c.x) }

def cycBeginInterrupt (b : Bus σ) (c : Cpu) : Cur :=
  { cycBegin b c.toRegFile c.pbpc 0 with interrupt := true }

end Begin

/-- An entry of `ct_bus_log`. -/
structure LogEntry where
  clocks : Nat
  write : Bool
  fetch : Bool
deriving DecidableEq, Repr

abbrev ctBusLog : Nat := 64

/-- What a letter in use stands for. -/
inductive Slot
  /-- A fetch at the fetch speed, not looked up in the log. -/
  | fetch
  | idle
  /-- The next logged access, of an operand or of data. -/
  | logged (operand : Bool)
deriving DecidableEq, Repr

/-- `none`: the cycle does not happen. -/
def Cur.slot (cur : Cur) (cross taken : Bool) : CycleLetter → Option Slot
  | .F => some .fetch
  | .O => some (if cur.compiled then .fetch else .logged true)
  | .p => if cur.m16 then some (if cur.compiled then .fetch else .logged true) else none
  | .q => if cur.x16 then some (if cur.compiled then .fetch else .logged true) else none
  | .I => some .idle
  | .d => if cur.dl then some .idle else none
  | .x => if cross || cur.x16 then some .idle else none
  | .b => if taken then some .idle else none
  | .D => some (.logged false)
  | .m => if cur.m16 then some (.logged false) else none
  | .w => if cur.x16 then some (.logged false) else none
  | .n => if cur.native then some (.logged false) else none

/-- The log from a cursor on, moved to the next entry of its kind. -/
def seek (operand : Bool) (rest : List (LogEntry × Nat)) : List (LogEntry × Nat) :=
  rest.dropWhile fun e => e.1.fetch != operand

/-- The cycle of a log entry. -/
def LogEntry.cycle (e : LogEntry) (n : Nat) : Cycle where
  clk := e.clocks
  kind := if e.write then .write else .read
  idx := some n

/-- `cyc_cycles`'s loop, with the log from each cursor on. Compiled code reads some
ROM tables without the bus; the count charges those as cycles of six clocks. -/
def cycleLoop (cur : Cur) (upto : Option Nat) :
    List Slot → List (LogEntry × Nat) → List (LogEntry × Nat) → List Cycle
  | [], _, _ => []
  | .fetch :: slots, fe, da => ⟨cur.speed, .read, none⟩ :: cycleLoop cur upto slots fe da
  | .idle :: slots, fe, da => ⟨6, .idle, none⟩ :: cycleLoop cur upto slots fe da
  | .logged operand :: slots, fe, da =>
    match seek operand (if operand then fe else da) with
    | [] =>
      if upto.isSome then []     -- not made yet
      else
        ⟨6, .read, none⟩ ::
          cycleLoop cur upto slots (if operand then [] else fe) (if operand then da else [])
    | (e, n) :: rest =>
      e.cycle n ::
        if upto = some n then []
        else cycleLoop cur upto slots (if operand then rest else fe) (if operand then da else rest)

/-- The cycles up to the one making bus access `upto`, all of them for `none`. -/
def cycCycles (cur : Cur) (cross taken : Bool) (log : List LogEntry) (upto : Option Nat) :
    List Cycle :=
  match if cur.interrupt then some tmplInt else tmpl cur.op with
  | none => []
  | some t =>
    let logged := (log.take ctBusLog).zipIdx
    cycleLoop cur upto (t.filterMap (cur.slot cross taken)) logged logged

/-- Cycles a penalty adds. -/
def Cur.penalty (cur : Cur) (cross taken : Bool) : Penalty → Nat
  | .M => cur.m16.toNat
  | .M2 => 2 * cur.m16.toNat
  | .X => cur.x16.toNat
  | .DL => cur.dl.toNat
  | .IDX => (cross || cur.x16).toNat
  | .BR => taken.toNat
  | .RTI => cur.native.toNat

def Cur.count (cur : Cur) (cross taken : Bool) : Nat :=
  (cycleRow cur.op).1 + ((cycleRow cur.op).2.map (cur.penalty cross taken)).sum

/-- `none`: no cycle count for the opcode. -/
def modelClocks (cur : Cur) (cross taken : Bool) (log : List LogEntry) : Option Nat :=
  let n := cur.count cross taken
  if n = 0 then none
  else
    let fetches := if cur.compiled then cur.size - 1 else 0
    let used := 1 + fetches + log.length
    some (cur.speed * (1 + fetches) + (log.map LogEntry.clocks).sum + (n - used) * 6)

end CtRecomp
