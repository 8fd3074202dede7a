import CtRecomp.Isa
import CtRecomp.Ops

namespace CtRecomp

/-! The templates of emit.py: for each (opcode, width) the C statements
emitted for an instruction, as what those statements do. -/

/-- A template's statements. -/
inductive Template (σ : Type) where
  /-- Statements on the registers and the bus. -/
  | body (f : Insn → RegFile → BusM σ RegFile)
  /-- `if (cond) goto target;` -/
  | branch (cond : RegFile → Bool)
  /-- Statements that set PC, then `return;` -/
  | ret (f : Cpu → BusM σ Cpu)

inductive Reg where
  | A | X | Y
deriving DecidableEq, Repr

def Reg.get (r : RegFile) : Reg → BitVec 16
  | .A => r.A
  | .X => r.X
  | .Y => r.Y

def Reg.set (r : RegFile) (v : BitVec 16) : Reg → RegFile
  | .A => { r with A := v }
  | .X => { r with X := v }
  | .Y => { r with Y := v }

/-- The `{w}` forms a template names: `lda8`/`lda16`, `read8`/`read16`, and
so on, of one width. -/
structure Sized (σ : Type) (n : Nat) where
  imm : Insn → BitVec n
  /-- `_rd`, `_wr`, `_wr_rmw`: address, and whether it wraps in bank 0 -/
  rd : BitVec 24 → Bool → BusM σ (BitVec n)
  wr : BitVec 24 → Bool → BitVec n → BusM σ Unit
  wrRmw : BitVec 24 → Bool → BitVec n → BusM σ Unit
  /-- `_reg` -/
  reg : RegFile → Reg → BitVec n
  /-- `_set_reg` -/
  setReg : RegFile → Reg → BitVec 16 → RegFile
  loads : Mnemonic → Option (RegFile → BitVec n → RegFile)
  rmw : Mnemonic → Option (RegFile → BitVec n → BitVec n × RegFile)
  setA : RegFile → BitVec n → RegFile
  adc : RegFile → BitVec n → BusM σ RegFile
  sbc : RegFile → BitVec n → BusM σ RegFile
  cmp : RegFile → BitVec n → BitVec n → RegFile
  bit : RegFile → BitVec n → Bool → RegFile
  push : RegFile → BitVec n → BusM σ RegFile
  pull : RegFile → BusM σ (BitVec 16 × RegFile)

section

variable {σ : Type} [Board σ]

def sized8 : Sized σ 8 where
  imm := Insn.lo8
  rd a _ := read8 a
  wr a _ v := write8 a v
  wrRmw a _ v := write8 a v
  reg r name := (name.get r).extractLsb' 0 8
  setReg r name v :=
    match name with
    | .A => let r := setA8 r (v.extractLsb' 0 8); setNz8 r (a8 r)
    | _ =>
      let r := name.set r ((v.extractLsb' 0 8).setWidth 16)
      setNz8 r ((name.get r).extractLsb' 0 8)
  loads
    | .LDA => some lda8
    | .LDX => some ldx8
    | .LDY => some ldy8
    | .ORA => some ora8
    | .AND => some and8
    | .EOR => some eor8
    | _ => none
  rmw
    | .INC => some inc8
    | .DEC => some dec8
    | .ASL => some asl8
    | .LSR => some lsr8
    | .ROL => some rol8
    | .ROR => some ror8
    | .TSB => some tsb8
    | .TRB => some trb8
    | _ => none
  setA := setA8
  adc := adc8
  sbc := sbc8
  cmp := cmp8
  bit := bit8
  push := push8
  pull r := do
    let (v, r) ← pull8 r
    return (v.setWidth 16, r)

def sized16 : Sized σ 16 where
  imm := Insn.lo16
  rd a b0 := if b0 then read16B0 a else read16 a
  wr a b0 v := if b0 then write16B0 a v else write16 a v
  wrRmw a b0 v := if b0 then write16B0Rmw a v else write16Rmw a v
  reg r name := name.get r
  setReg r name v :=
    let r := name.set r v
    setNz16 r (name.get r)
  loads
    | .LDA => some lda16
    | .LDX => some ldx16
    | .LDY => some ldy16
    | .ORA => some ora16
    | .AND => some and16
    | .EOR => some eor16
    | _ => none
  rmw
    | .INC => some inc16
    | .DEC => some dec16
    | .ASL => some asl16
    | .LSR => some lsr16
    | .ROL => some rol16
    | .ROR => some ror16
    | .TSB => some tsb16
    | .TRB => some trb16
    | _ => none
  setA r v := { r with A := v }
  adc := adc16
  sbc := sbc16
  cmp := cmp16
  bit := bit16
  push := push16
  pull := pull16

/-- `_EA`: mode -> effective address, and whether a 16-bit access wraps in
bank 0. -/
def eaTemplate : AddrMode → Option ((Insn → RegFile → BusM σ (BitVec 24)) × Bool)
  | .dp => some (fun i r => return eaDp r i.lo8, true)
  | .dpX => some (fun i r => return eaDpX r i.lo8, true)
  | .dpY => some (fun i r => return eaDpY r i.lo8, true)
  | .sr => some (fun i r => return eaSr r i.lo8, true)
  | .abs => some (fun i r => return eaAbs r i.lo16, false)
  | .absX => some (fun i r => eaAbsX r i.lo16, false)
  | .absY => some (fun i r => eaAbsY r i.lo16, false)
  | .long => some (fun i _ => return i.operand, false)
  | .longX => some (fun i r => return eaLongX r i.operand, false)
  | .dpInd => some (fun i r => eaDpInd r i.lo8, false)
  | .dpXInd => some (fun i r => eaDpXInd r i.lo8, false)
  | .dpIndY => some (fun i r => eaDpIndY r i.lo8, false)
  | .dpIndLong => some (fun i r => eaDpIndLong r i.lo8, false)
  | .dpIndLongY => some (fun i r => eaDpIndLongY r i.lo8, false)
  | .srIndY => some (fun i r => eaSrIndY r i.lo8, false)
  | _ => none

/-- `_value` -/
def value {n : Nat} (o : Sized σ n) (md : AddrMode) :
    Option (Insn → RegFile → BusM σ (BitVec n)) :=
  if md = .immM ∨ md = .immX then some fun i _ => return o.imm i
  else (eaTemplate md).map fun (ea, b0) i r => do
    let a ← ea i r
    o.rd a b0

def loadTemplate {n : Nat} (o : Sized σ n) (mn : Mnemonic) (md : AddrMode) :
    Option (Template σ) := do
  let load ← o.loads mn
  let val ← value o md
  some (.body fun i r => do
    let v ← val i r
    return load r v)

def arith {n : Nat} (o : Sized σ n) : Mnemonic → Option (RegFile → BitVec n → BusM σ RegFile)
  | .ADC => some o.adc
  | .SBC => some o.sbc
  | _ => none

def arithTemplate {n : Nat} (o : Sized σ n) (mn : Mnemonic) (md : AddrMode) :
    Option (Template σ) := do
  let op ← arith o mn
  let val ← value o md
  some (.body fun i r => do
    let v ← val i r
    op r v)

def cmpReg : Mnemonic → Option Reg
  | .CMP => some .A
  | .CPX => some .X
  | .CPY => some .Y
  | _ => none

def cmpTemplate {n : Nat} (o : Sized σ n) (mn : Mnemonic) (md : AddrMode) :
    Option (Template σ) := do
  let reg ← cmpReg mn
  let val ← value o md
  some (.body fun i r => do
    let v ← val i r
    return o.cmp r (o.reg r reg) v)

def bitTemplate {n : Nat} (o : Sized σ n) (mn : Mnemonic) (md : AddrMode) :
    Option (Template σ) :=
  if mn = .BIT then do
    let val ← value o md
    some (.body fun i r => do
      let v ← val i r
      return o.bit r v (md = .immM))
  else none

/-- `_STORES` -/
def storeSrc {n : Nat} (o : Sized σ n) : Mnemonic → Option (RegFile → BitVec n)
  | .STA => some fun r => o.reg r .A
  | .STX => some fun r => o.reg r .X
  | .STY => some fun r => o.reg r .Y
  | .STZ => some fun _ => 0
  | _ => none

def storeTemplate {n : Nat} (o : Sized σ n) (mn : Mnemonic) (md : AddrMode) :
    Option (Template σ) := do
  let src ← storeSrc o mn
  let (ea, b0) ← eaTemplate md
  some (.body fun i r => do
    let a ← ea i r
    o.wr a b0 (src r)
    return r)

def rmwTemplate {n : Nat} (o : Sized σ n) (mn : Mnemonic) (md : AddrMode) :
    Option (Template σ) := do
  let op ← o.rmw mn
  if md = .acc then
    some (.body fun _ r =>
      let (v, r) := op r (o.reg r .A)
      return o.setA r v)
  else
    let (ea, b0) ← eaTemplate md
    some (.body fun i r => do
      let a ← ea i r
      let v ← o.rd a b0
      let (v, r) := op r v
      o.wrRmw a b0 v
      return r)

/-- `_FLAGS` -/
def flagTemplate : Mnemonic → Option (Template σ)
  | .CLC => some (.body fun _ r => return { r with c := false })
  | .SEC => some (.body fun _ r => return { r with c := true })
  | .CLI => some (.body fun _ r => return { r with i := false })
  | .SEI => some (.body fun _ r => return { r with i := true })
  | .CLD => some (.body fun _ r => return { r with d := false })
  | .SED => some (.body fun _ r => return { r with d := true })
  | .CLV => some (.body fun _ r => return { r with v := false })
  | _ => none

/-- `_BRANCH`; `BRA` and `BRL` are unconditional. -/
def branchCond : Mnemonic → Option (RegFile → Bool)
  | .BPL => some fun r => !r.n
  | .BMI => some fun r => r.n
  | .BVC => some fun r => !r.v
  | .BVS => some fun r => r.v
  | .BCC => some fun r => !r.c
  | .BCS => some fun r => r.c
  | .BNE => some fun r => !r.z
  | .BEQ => some fun r => r.z
  | .BRA | .BRL => some fun _ => true
  | _ => none

/-- `_XFER` -/
def xferTemplate {n : Nat} (o : Sized σ n) : Mnemonic → Option (Template σ)
  | .TAX => some (.body fun _ r => return o.setReg r .X r.A)
  | .TAY => some (.body fun _ r => return o.setReg r .Y r.A)
  | .TXA => some (.body fun _ r => return o.setReg r .A r.X)
  | .TYA => some (.body fun _ r => return o.setReg r .A r.Y)
  | .TXY => some (.body fun _ r => return o.setReg r .Y r.X)
  | .TYX => some (.body fun _ r => return o.setReg r .X r.Y)
  | .TSX => some (.body fun _ r => return o.setReg r .X r.S)
  | _ => none

def stepTemplate {n : Nat} (o : Sized σ n) : Mnemonic → Option (Template σ)
  | .INX => some (.body fun _ r => return o.setReg r .X (r.X + 1))
  | .INY => some (.body fun _ r => return o.setReg r .Y (r.Y + 1))
  | .DEX => some (.body fun _ r => return o.setReg r .X (r.X - 1))
  | .DEY => some (.body fun _ r => return o.setReg r .Y (r.Y - 1))
  | _ => none

def stackTemplate {n : Nat} (o : Sized σ n) : Mnemonic → Option (Template σ)
  | .PHA => some (.body fun _ r => o.push r (o.reg r .A))
  | .PHX => some (.body fun _ r => o.push r (o.reg r .X))
  | .PHY => some (.body fun _ r => o.push r (o.reg r .Y))
  | .PLA => some (.body fun _ r => do let (v, r) ← o.pull r; return o.setReg r .A v)
  | .PLX => some (.body fun _ r => do let (v, r) ← o.pull r; return o.setReg r .X v)
  | .PLY => some (.body fun _ r => do let (v, r) ← o.pull r; return o.setReg r .Y v)
  | _ => none

/-- `_generate` at one width. -/
def generateSized {n : Nat} (o : Sized σ n) (mn : Mnemonic) (md : AddrMode) :
    Option (Template σ) :=
  loadTemplate o mn md <|> arithTemplate o mn md <|> cmpTemplate o mn md <|>
    bitTemplate o mn md <|> storeTemplate o mn md <|> rmwTemplate o mn md <|>
    xferTemplate o mn <|> stepTemplate o mn <|> stackTemplate o mn

def generate (mn : Mnemonic) (md : AddrMode) : Width → Option (Template σ)
  | .w8 => generateSized sized8 mn md
  | .w16 => generateSized sized16 mn md
  | .any => flagTemplate mn <|> (branchCond mn).map .branch

def opRts (c : Cpu) : BusM σ Cpu := do
  let (pc, r) ← pull16 c.toRegFile
  return { c with toRegFile := r, PC := pc + 1 }

def opRtl (c : Cpu) : BusM σ Cpu := do
  let (pc, r) ← pull16 c.toRegFile
  let (pb, r) ← pull8 r
  return { c with toRegFile := r, PC := pc + 1, PB := pb }

/-- RTI (native mode); `sys`: the frame scheduler is there (`ct_exec_hook`). -/
def opRti (sys : Bool) (c : Cpu) : BusM σ Cpu :=
  if sys then do
    let (p, r) ← pull8 c.toRegFile
    let (pc, r) ← pull16 (setP r p)
    let (pb, r) ← pull8 r
    return { c with toRegFile := r, PC := pc, PB := pb }
  else ctFatal

/-- `_SPECIAL` -/
def special (op : BitVec 8) (w : Width) : Option (Template σ) :=
  match op.toNat, w with
  | 0x08, .any => some (.body fun _ r => push8 r (getP r))                         -- PHP
  | 0x28, .any => some (.body fun _ r => do let (p, r) ← pull8 r; return setP r p) -- PLP
  | 0x60, .any => some (.ret opRts)
  | 0x6B, .any => some (.ret opRtl)
  | 0x7B, .any => some (.body fun _ r => return opTdc r)
  | 0x5B, .any => some (.body fun _ r => return setNz16 { r with DP := r.A } r.A)  -- TCD
  | 0x1B, .any => some (.body fun _ r => return { r with S := r.A })               -- TCS
  | 0x3B, .any => some (.body fun _ r => return setNz16 { r with A := r.S } r.S)   -- TSC
  | 0x9A, .any => some (.body fun _ r => return { r with S := r.X })               -- TXS
  | 0xEB, .any => some (.body fun _ r =>                                           -- XBA
    let r := { r with A := (r.A >>> 8) ||| (r.A <<< 8) }
    return setNz8 r (a8 r))
  | 0x8B, .any => some (.body fun _ r => push8 r r.DB)                             -- PHB
  | 0xAB, .any => some (.body fun _ r => do                                        -- PLB
    let (v, r) ← pull8 r
    return setNz8 { r with DB := v } v)
  | 0x0B, .any => some (.body fun _ r => push16 r r.DP)                            -- PHD
  | 0x2B, .any => some (.body fun _ r => do                                        -- PLD
    let (v, r) ← pull16 r
    return setNz16 { r with DP := v } v)
  | 0x4B, .any => some (.body fun i r => push8 r (bank i.addr))                    -- PHK
  | 0xF4, .any => some (.body fun i r => push16 r i.lo16)                          -- PEA
  | 0xD4, .any => some (.body fun i r => do                                        -- PEI
    let v ← read16B0 (eaDp r i.lo8)
    push16 r v)
  | 0x62, .any => some (.body fun i r => push16 r (low i.branchTarget))            -- PER
  | 0xC2, .any => some (.body fun i r => return opRep r i.lo8)
  | 0xE2, .any => some (.body fun i r => return opSep r i.lo8)
  | 0xEA, .any => some (.body fun _ r => return r)
  | 0xFB, .any => some (.body fun _ r => return opXce r)
  -- crash traps and interrupt waits fail at the address
  | 0x00, .any => some (.body fun _ _ => ctFatal)                                  -- BRK
  | 0x02, .any => some (.body fun _ _ => ctFatal)                                  -- COP
  | 0xDB, .any => some (.body fun _ _ => ctFatal)                                  -- STP
  | 0xCB, .any => some (.body fun _ _ => ctFatal)                                  -- WAI
  | 0x54, .w16 => some (.body fun i r =>                                           -- MVN
    mvn16 (i.operand.extractLsb' 0 8) (i.operand.extractLsb' 8 8) r)
  | _, _ => none

def specialOps : List (BitVec 8) :=
  [0x08, 0x28, 0x60, 0x6B, 0x7B, 0x5B, 0x1B, 0x3B, 0x9A, 0xEB, 0x8B, 0xAB, 0x0B, 0x2B, 0x4B, 0xF4,
   0xD4, 0x62, 0xC2, 0xE2, 0xEA, 0xFB, 0x00, 0x02, 0xDB, 0xCB, 0x54]

/-- `TEMPLATES` -/
def templates (op : BitVec 8) (w : Width) : Option (Template σ) :=
  if op ∈ specialOps then special op w
  else generate (opcodes op).1 (opcodes op).2 w

/-! Bodies as `emit_function` writes them: branches and in-function jumps
charge the budget on the way back and count a taken branch. -/

/-- Where control goes after an instruction's body. -/
inductive Flow where
  | next
  | goto (target : BitVec 24)
deriving DecidableEq, Repr

/-- `ct_loop(at);` on a backward jump -/
def ctLoop (i : Insn) (target : BitVec 24) : BusM σ Unit :=
  if target ≤ i.addr then chargeBudget else return ()

/-- `ct_cyc_taken = 1;`, not for BRL -/
def markTaken (i : Insn) : BusM σ Unit := if i.mnemonic = .BRL then return () else setTaken

def branchBody (i : Insn) (cond : RegFile → Bool) (r : RegFile) : BusM σ (RegFile × Flow) :=
  if cond r then do
    markTaken i
    ctLoop i i.branchTarget
    return (r, .goto i.branchTarget)
  else return (r, .next)

/-- JMP abs inside the function. -/
def Insn.jumpTarget (i : Insn) : BitVec 24 := bank i.addr ++ i.lo16

def jumpBody (i : Insn) (r : RegFile) : BusM σ (RegFile × Flow) := do
  ctLoop i i.jumpTarget
  return (r, .goto i.jumpTarget)

/-- What `emit_function` writes for an instruction that is no call, return,
or jump out of the function. -/
def plainBody (i : Insn) : Option (RegFile → BusM σ (RegFile × Flow)) := do
  if i.opcode = 0x4C then some (jumpBody i)
  else
    let w ← i.width
    match ← templates i.opcode w with
    | .body f => some fun r => do
      let r ← f i r
      return (r, .next)
    | .branch cond => some (branchBody i cond)
    | .ret _ => none

/-- `ct_insn` apart from the hooks: the bus holds the instruction's last
byte. -/
def ctInsn (i : Insn) : BusM σ Unit := setMdr i.last

end

end CtRecomp
