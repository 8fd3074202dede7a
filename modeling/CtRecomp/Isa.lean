import CtRecomp.Bus

namespace CtRecomp

inductive Mnemonic where
  | ADC | AND | ASL | BCC | BCS | BEQ | BIT | BMI | BNE | BPL | BRA | BRK | BRL | BVC | BVS | CLC
  | CLD | CLI | CLV | CMP | COP | CPX | CPY | DEC | DEX | DEY | EOR | INC | INX | INY | JML | JMP
  | JSL | JSR | LDA | LDX | LDY | LSR | MVN | MVP | NOP | ORA | PEA | PEI | PER | PHA | PHB | PHD
  | PHK | PHP | PHX | PHY | PLA | PLB | PLD | PLP | PLX | PLY | REP | ROL | ROR | RTI | RTL | RTS
  | SBC | SEC | SED | SEI | SEP | STA | STP | STX | STY | STZ | TAX | TAY | TCD | TCS | TDC | TRB
  | TSB | TSC | TSX | TXA | TXS | TXY | TYA | TYX | WAI | WDM | XBA | XCE
deriving DecidableEq, Repr

inductive AddrMode where
  | impl | acc | rel | rlong | imm | immM | immX | dp | dpX | dpY | dpInd | dpXInd | dpIndY
  | dpIndLong | dpIndLongY | sr | srIndY | abs | absX | absY | absInd | absXInd | absIndLong
  | long | longX | block
deriving DecidableEq, Repr

/-- The opcode table of decode.py, in opcode order. -/
def opcodeTable : List (Mnemonic × AddrMode) := [
  (.BRK, .imm), (.ORA, .dpXInd), (.COP, .imm), (.ORA, .sr),
  (.TSB, .dp), (.ORA, .dp), (.ASL, .dp), (.ORA, .dpIndLong),
  (.PHP, .impl), (.ORA, .immM), (.ASL, .acc), (.PHD, .impl),
  (.TSB, .abs), (.ORA, .abs), (.ASL, .abs), (.ORA, .long),
  (.BPL, .rel), (.ORA, .dpIndY), (.ORA, .dpInd), (.ORA, .srIndY),
  (.TRB, .dp), (.ORA, .dpX), (.ASL, .dpX), (.ORA, .dpIndLongY),
  (.CLC, .impl), (.ORA, .absY), (.INC, .acc), (.TCS, .impl),
  (.TRB, .abs), (.ORA, .absX), (.ASL, .absX), (.ORA, .longX),
  (.JSR, .abs), (.AND, .dpXInd), (.JSL, .long), (.AND, .sr),
  (.BIT, .dp), (.AND, .dp), (.ROL, .dp), (.AND, .dpIndLong),
  (.PLP, .impl), (.AND, .immM), (.ROL, .acc), (.PLD, .impl),
  (.BIT, .abs), (.AND, .abs), (.ROL, .abs), (.AND, .long),
  (.BMI, .rel), (.AND, .dpIndY), (.AND, .dpInd), (.AND, .srIndY),
  (.BIT, .dpX), (.AND, .dpX), (.ROL, .dpX), (.AND, .dpIndLongY),
  (.SEC, .impl), (.AND, .absY), (.DEC, .acc), (.TSC, .impl),
  (.BIT, .absX), (.AND, .absX), (.ROL, .absX), (.AND, .longX),
  (.RTI, .impl), (.EOR, .dpXInd), (.WDM, .imm), (.EOR, .sr),
  (.MVP, .block), (.EOR, .dp), (.LSR, .dp), (.EOR, .dpIndLong),
  (.PHA, .impl), (.EOR, .immM), (.LSR, .acc), (.PHK, .impl),
  (.JMP, .abs), (.EOR, .abs), (.LSR, .abs), (.EOR, .long),
  (.BVC, .rel), (.EOR, .dpIndY), (.EOR, .dpInd), (.EOR, .srIndY),
  (.MVN, .block), (.EOR, .dpX), (.LSR, .dpX), (.EOR, .dpIndLongY),
  (.CLI, .impl), (.EOR, .absY), (.PHY, .impl), (.TCD, .impl),
  (.JML, .long), (.EOR, .absX), (.LSR, .absX), (.EOR, .longX),
  (.RTS, .impl), (.ADC, .dpXInd), (.PER, .rlong), (.ADC, .sr),
  (.STZ, .dp), (.ADC, .dp), (.ROR, .dp), (.ADC, .dpIndLong),
  (.PLA, .impl), (.ADC, .immM), (.ROR, .acc), (.RTL, .impl),
  (.JMP, .absInd), (.ADC, .abs), (.ROR, .abs), (.ADC, .long),
  (.BVS, .rel), (.ADC, .dpIndY), (.ADC, .dpInd), (.ADC, .srIndY),
  (.STZ, .dpX), (.ADC, .dpX), (.ROR, .dpX), (.ADC, .dpIndLongY),
  (.SEI, .impl), (.ADC, .absY), (.PLY, .impl), (.TDC, .impl),
  (.JMP, .absXInd), (.ADC, .absX), (.ROR, .absX), (.ADC, .longX),
  (.BRA, .rel), (.STA, .dpXInd), (.BRL, .rlong), (.STA, .sr),
  (.STY, .dp), (.STA, .dp), (.STX, .dp), (.STA, .dpIndLong),
  (.DEY, .impl), (.BIT, .immM), (.TXA, .impl), (.PHB, .impl),
  (.STY, .abs), (.STA, .abs), (.STX, .abs), (.STA, .long),
  (.BCC, .rel), (.STA, .dpIndY), (.STA, .dpInd), (.STA, .srIndY),
  (.STY, .dpX), (.STA, .dpX), (.STX, .dpY), (.STA, .dpIndLongY),
  (.TYA, .impl), (.STA, .absY), (.TXS, .impl), (.TXY, .impl),
  (.STZ, .abs), (.STA, .absX), (.STZ, .absX), (.STA, .longX),
  (.LDY, .immX), (.LDA, .dpXInd), (.LDX, .immX), (.LDA, .sr),
  (.LDY, .dp), (.LDA, .dp), (.LDX, .dp), (.LDA, .dpIndLong),
  (.TAY, .impl), (.LDA, .immM), (.TAX, .impl), (.PLB, .impl),
  (.LDY, .abs), (.LDA, .abs), (.LDX, .abs), (.LDA, .long),
  (.BCS, .rel), (.LDA, .dpIndY), (.LDA, .dpInd), (.LDA, .srIndY),
  (.LDY, .dpX), (.LDA, .dpX), (.LDX, .dpY), (.LDA, .dpIndLongY),
  (.CLV, .impl), (.LDA, .absY), (.TSX, .impl), (.TYX, .impl),
  (.LDY, .absX), (.LDA, .absX), (.LDX, .absY), (.LDA, .longX),
  (.CPY, .immX), (.CMP, .dpXInd), (.REP, .imm), (.CMP, .sr),
  (.CPY, .dp), (.CMP, .dp), (.DEC, .dp), (.CMP, .dpIndLong),
  (.INY, .impl), (.CMP, .immM), (.DEX, .impl), (.WAI, .impl),
  (.CPY, .abs), (.CMP, .abs), (.DEC, .abs), (.CMP, .long),
  (.BNE, .rel), (.CMP, .dpIndY), (.CMP, .dpInd), (.CMP, .srIndY),
  (.PEI, .dp), (.CMP, .dpX), (.DEC, .dpX), (.CMP, .dpIndLongY),
  (.CLD, .impl), (.CMP, .absY), (.PHX, .impl), (.STP, .impl),
  (.JML, .absIndLong), (.CMP, .absX), (.DEC, .absX), (.CMP, .longX),
  (.CPX, .immX), (.SBC, .dpXInd), (.SEP, .imm), (.SBC, .sr),
  (.CPX, .dp), (.SBC, .dp), (.INC, .dp), (.SBC, .dpIndLong),
  (.INX, .impl), (.SBC, .immM), (.NOP, .impl), (.XBA, .impl),
  (.CPX, .abs), (.SBC, .abs), (.INC, .abs), (.SBC, .long),
  (.BEQ, .rel), (.SBC, .dpIndY), (.SBC, .dpInd), (.SBC, .srIndY),
  (.PEA, .abs), (.SBC, .dpX), (.INC, .dpX), (.SBC, .dpIndLongY),
  (.SED, .impl), (.SBC, .absY), (.PLX, .impl), (.XCE, .impl),
  (.JSR, .absXInd), (.SBC, .absX), (.INC, .absX), (.SBC, .longX)]

def opcodes (op : BitVec 8) : Mnemonic × AddrMode := opcodeTable.getD op.toNat (.WDM, .imm)

/-- Static mode flags and what is known of the pushed bytes. `m`, `x`: true is
8-bit, `none` unknown. -/
structure State where
  m : Option Bool
  x : Option Bool
  e : Bool
  /-- Bytes pushed since entry, oldest first: `some (m, x)` for a PHP byte. -/
  stack : List (Option (Option Bool × Option Bool))
  stackLost : Bool
  /-- Carry known from the immediately preceding CLC/SEC. -/
  ck : Option Bool
deriving DecidableEq, Repr

/-- `State(m, x, e)` -/
def State.of (m x : Option Bool) (e : Bool) : State := ⟨m, x, e, [], false, none⟩

/-- (m, x, e) -/
abbrev Mode := Option Bool × Option Bool × Bool

def State.key (st : State) : Mode := (st.m, st.x, st.e)

/-- (addr, m, x, e) -/
abbrev Key := BitVec 24 × Mode

instance lawfulByte : LawfulBEq (BitVec 8) := inferInstance

instance lawfulAddr : LawfulBEq (BitVec 24) := inferInstance

instance lawfulKey : LawfulBEq Key := inferInstance

structure Insn where
  addr : BitVec 24
  opcode : BitVec 8
  mnemonic : Mnemonic
  mode : AddrMode
  /-- Little-endian operand, 0 where there is none. -/
  operand : BitVec 24
  size : Nat
  m : Option Bool
  x : Option Bool
  e : Bool
deriving DecidableEq, Repr

def Insn.key (i : Insn) : Key := (i.addr, i.m, i.x, i.e)

/-- The operand as a byte, and as a word. -/
def Insn.lo8 (i : Insn) : BitVec 8 := i.operand.extractLsb' 0 8

def Insn.lo16 (i : Insn) : BitVec 16 := i.operand.extractLsb' 0 16

def Insn.nextAddr (i : Insn) : BitVec 24 := bank i.addr ++ (low i.addr + BitVec.ofNat 16 i.size)

/-- Target of a relative branch; meant for the modes `rel` and `rlong` only. -/
def Insn.branchTarget (i : Insn) : BitVec 24 :=
  let off := if i.mode = .rel then i.lo8.signExtend 16 else i.lo16
  bank i.addr ++ (low i.addr + BitVec.ofNat 16 i.size + off)

/-- Which of M and X sizes an instruction. -/
inductive Dep where
  | m | x
deriving DecidableEq, Repr

def widthDependency : Mnemonic → Option Dep
  | .ADC | .AND | .BIT | .CMP | .EOR | .LDA | .ORA | .SBC | .STA | .STZ
  | .ASL | .LSR | .ROL | .ROR | .INC | .DEC | .TSB | .TRB | .PHA | .PLA => some .m
  | .CPX | .CPY | .LDX | .LDY | .STX | .STY | .INX | .INY | .DEX | .DEY
  | .PHX | .PHY | .PLX | .PLY | .MVN | .MVP => some .x
  | .TAX | .TAY | .TXY | .TYX | .TSX => some .x
  | .TXA | .TYA => some .m
  | _ => none

/-- Width class: `'8'`, `'16'`, and `''` for width-independent instructions. -/
inductive Width where
  | w8 | w16 | any
deriving DecidableEq, Repr

/-- `none`: the width needs M or X and the state does not know it. -/
def Insn.width (i : Insn) : Option Width :=
  match widthDependency i.mnemonic with
  | none => some .any
  | some .m => i.m.map fun m => if m then .w8 else .w16
  | some .x => i.x.map fun x => if x then .w8 else .w16

/-- Operand bytes; `none` where an immediate's width is unknown. -/
def operandBytes (mode : AddrMode) (m x : Option Bool) : Option Nat :=
  match mode with
  | .immM => m.map fun m => if m then 1 else 2
  | .immX => x.map fun x => if x then 1 else 2
  | .impl | .acc => some 0
  | .imm | .dp | .dpX | .dpY | .dpInd | .dpXInd | .dpIndY | .dpIndLong | .dpIndLongY
  | .sr | .srIndY | .rel => some 1
  | .abs | .absX | .absY | .absInd | .absXInd | .absIndLong | .rlong | .block => some 2
  | .long | .longX => some 3

/-- What decode_insn makes of the bytes at `i.addr` in the state (m, x). -/
structure Insn.Decoded (i : Insn) : Prop where
  op : opcodes i.opcode = (i.mnemonic, i.mode)
  size : operandBytes i.mode i.m i.x = some (i.size - 1)
  pos : 0 < i.size

/-- The last byte of the instruction, left on the data bus by its fetch. -/
def Insn.last (i : Insn) : BitVec 8 :=
  if i.size = 1 then i.opcode else i.operand.extractLsb' (8 * (i.size - 2)) 8

end CtRecomp
