import Mathlib.Data.Fintype.Basic
import Mathlib.Tactic.FinCases
import CtRecomp.Interp
import CtRecomp.Isa

namespace CtRecomp

/-! The interpreter's switch, read through decode.py's opcode table. -/

variable {σ : Type} [Board σ]

/-- The interpreter's mode for a mode of the opcode table. -/
def imode : AddrMode → IMode
  | .dp => .dp
  | .dpX => .dpX
  | .dpY => .dpY
  | .dpInd => .dpI
  | .dpXInd => .dpXI
  | .dpIndY => .dpIY
  | .dpIndLong => .dpIL
  | .dpIndLongY => .dpILY
  | .sr => .sr
  | .srIndY => .srIY
  | .abs => .abs
  | .absX => .absX
  | .absY => .absY
  | .long => .long
  | .longX => .longX
  | _ => .imm

/-- ALU group member but STA, by its column `op >> 5`. -/
def aluBy (c : Exec) (kind : Nat) (md : IMode) : BusM σ Exec := do
  let (v, c) ← operand c md (!c.m)
  let r ← aluValue c.toRegFile kind v
  return c.setRegs r

def rmwBy (c : Exec) (op : Rmw) (md : AddrMode) : BusM σ Exec :=
  if md = .acc then rmwAcc c op else rmwMem c op (imode md)

/-- `step` by mnemonic and mode instead of opcode. -/
def stepBy (h : Host σ) (c : Exec) (site : BitVec 24) (mn : Mnemonic) (md : AddrMode) :
    BusM σ Exec :=
  match mn with
  | .ORA => aluBy c 0 (imode md)
  | .AND => aluBy c 1 (imode md)
  | .EOR => aluBy c 2 (imode md)
  | .ADC => aluBy c 3 (imode md)
  | .STA => sta c (imode md)
  | .LDA => aluBy c 5 (imode md)
  | .CMP => aluBy c 6 (imode md)
  | .SBC => aluBy c 7 (imode md)
  | .ASL => rmwBy c .asl md
  | .ROL => rmwBy c .rol md
  | .LSR => rmwBy c .lsr md
  | .ROR => rmwBy c .ror md
  | .INC => rmwBy c .inc md
  | .DEC => rmwBy c .dec md
  | .TSB => testBits c (imode md) false
  | .TRB => testBits c (imode md) true
  | .BIT => bitTest c (imode md)
  | .LDX => loadIndex c .X (imode md)
  | .LDY => loadIndex c .Y (imode md)
  | .STX => storeIndex c .X (imode md)
  | .STY => storeIndex c .Y (imode md)
  | .STZ => storeZero c (imode md)
  | .CPX => compareIndex c .X (imode md)
  | .CPY => compareIndex c .Y (imode md)
  | .INX => onRegs c fun r => setIndex r .X (idx r (r.X + 1))
  | .INY => onRegs c fun r => setIndex r .Y (idx r (r.Y + 1))
  | .DEX => onRegs c fun r => setIndex r .X (idx r (r.X - 1))
  | .DEY => onRegs c fun r => setIndex r .Y (idx r (r.Y - 1))
  | .TAX => onRegs c fun r => setIndex r .X (idx r r.A)
  | .TAY => onRegs c fun r => setIndex r .Y (idx r r.A)
  | .TXA => onRegs c fun r => let r := setA r r.X; nz r (getA r) (!r.m)
  | .TYA => onRegs c fun r => let r := setA r r.Y; nz r (getA r) (!r.m)
  | .TXY => onRegs c fun r => setIndex r .Y r.X
  | .TYX => onRegs c fun r => setIndex r .X r.Y
  | .TSX => onRegs c fun r => setIndex r .X (idx r r.S)
  | .BPL => branch c site (!c.n)
  | .BMI => branch c site c.n
  | .BVC => branch c site (!c.v)
  | .BVS => branch c site c.v
  | .BCC => branch c site (!c.c)
  | .BCS => branch c site c.c
  | .BNE => branch c site (!c.z)
  | .BEQ => branch c site c.z
  | .BRA => branch c site true
  | .BRL => do
    let (off, c) ← fetch16 c
    let c := { c with PC := c.PC + off }
    loopTick site c.PC
    return c
  | .TXS => onRegs c fun r => { r with S := if r.e then 0x0100 ||| (r.X &&& 0xFF) else r.X }
  | .TCD => onRegs c fun r => nz { r with DP := r.A } r.A true
  | .TDC => onRegs c fun r => nz { r with A := r.DP } r.DP true
  | .TCS => onRegs c fun r => { r with S := if r.e then 0x0100 ||| (r.A &&& 0xFF) else r.A }
  | .TSC => onRegs c fun r => nz { r with A := r.S } r.S true
  | .XBA => onRegs c fun r =>
    let r := { r with A := (r.A >>> 8) ||| (r.A <<< 8) }
    nz r (r.A &&& 0xFF) false
  | .PHA => pushReg c c.A (!c.m)
  | .PHX => pushReg c c.X (!c.x)
  | .PHY => pushReg c c.Y (!c.x)
  | .PLA => do
    let (v, r) ← pullReg c.toRegFile (!c.m)
    let r := setA r v
    return c.setRegs (nz r (getA r) (!r.m))
  | .PLX => do
    let (v, r) ← pullReg c.toRegFile (!c.x)
    return c.setRegs (setIndex r .X v)
  | .PLY => do
    let (v, r) ← pullReg c.toRegFile (!c.x)
    return c.setRegs (setIndex r .Y v)
  | .PHB => do
    let r ← push c.toRegFile c.DB
    return c.setRegs r
  | .PLB => do
    let (v, r) ← pull c.toRegFile
    return c.setRegs (nz { r with DB := v } (v.setWidth 16) false)
  | .PHD => pushReg c c.DP true
  | .PLD => do
    let (v, r) ← pullw c.toRegFile
    return c.setRegs (nz { r with DP := v } v true)
  | .PHK => do
    let r ← push c.toRegFile c.PB
    return c.setRegs r
  | .PHP => do
    let r ← push c.toRegFile (packP c.toRegFile)
    return c.setRegs r
  | .PLP => do
    let (p, r) ← pull c.toRegFile
    return c.setRegs (unpackP r p)
  | .PEA => do
    let (v, c) ← fetch16 c
    pushReg c v true
  | .PEI => do
    let (d, c) ← fetch8 c
    let v ← rdBank0_16 (c.DP + d.setWidth 16)
    pushReg c v true
  | .PER => do
    let (off, c) ← fetch16 c
    pushReg c (c.PC + off) true
  | .CLC => onRegs c fun r => { r with c := false }
  | .SEC => onRegs c fun r => { r with c := true }
  | .CLI => onRegs c fun r => { r with i := false }
  | .SEI => onRegs c fun r => { r with i := true }
  | .CLD => onRegs c fun r => { r with d := false }
  | .SED => onRegs c fun r => { r with d := true }
  | .CLV => onRegs c fun r => { r with v := false }
  | .REP => do
    let (v, c) ← fetch8 c
    onRegs c fun r => unpackP r (packP r &&& ~~~v)
  | .SEP => do
    let (v, c) ← fetch8 c
    onRegs c fun r => unpackP r (packP r ||| v)
  | .XCE => onRegs c exchangeCE
  | .JMP =>
    match md with
    | .abs => do
      let (t, c) ← fetch16 c
      loopTick site t
      return { c with PC := t }
    | .absInd => do
      let (a, c) ← fetch16 c
      let t ← rdBank0_16 a
      return { c with PC := t }
    | _ => jmpTable h c site
  | .JML =>
    match md with
    | .long => jml h c
    | _ => do
      let (a, c) ← fetch16 c
      let t ← rdBank0_24 a
      return { c with PB := bank t, PC := low t }
  | .JSR =>
    match md with
    | .abs => jsr h c site
    | _ => jsrTable h c site
  | .JSL => jsl h c site
  | .RTS => rts h c
  | .RTL => rtl h c
  | .RTI => rti h c
  | .MVN => blockMove c site 1
  | .MVP => blockMove c site (-1)
  | .WAI => wai h c
  | .NOP => return c
  | .WDM => do
    let (_, c) ← fetch8 c
    return c
  | .BRK | .COP | .STP => ctFatal

set_option maxRecDepth 4000 in
theorem step_eq_stepBy (h : Host σ) (c : Exec) (site : BitVec 24) (n : Fin 256) :
    step h c site (BitVec.ofFin n) =
      stepBy h c site (opcodes (BitVec.ofFin n)).1 (opcodes (BitVec.ofFin n)).2 := by
  fin_cases n <;> rfl
end CtRecomp
