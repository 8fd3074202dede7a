import CtRecomp.Bus

namespace CtRecomp

/-! The interpreter (interp.c): one fetch-decode step, over width-parametric
helpers of its own. -/

/-- A strict-mode call on the shadow stack. -/
structure Shadow where
  site : BitVec 24
  /-- PB:PC expected after return. -/
  ret : BitVec 24
  isLong : Bool
deriving DecidableEq, Repr

/-- The interpreter's own state around the CPU. -/
structure Exec extends Cpu where
  waiting : Bool
  shadow : List Shadow
  /-- Clocks of the fetches made (`CT_BUS_FETCH` entries of the bus log). -/
  fetched : List Nat
deriving DecidableEq, Repr

def Exec.setRegs (c : Exec) (r : RegFile) : Exec :=
  { c with toCpu := { c.toCpu with toRegFile := r } }

structure Extern (σ : Type) where
  addr : BitVec 24
  /-- 0: JSR, 1: JSL, 2: JML -/
  kind : Nat
  hook : Cpu → BusM σ Cpu

/-- Mode (`sys`: 0 strict, 1 system) and, for strict mode, the hooks and the
jump tables of funcs.toml. -/
structure Host (σ : Type) where
  sys : Bool
  externs : List (Extern σ)
  /-- (site, count) -/
  jumptables : List (BitVec 24 × Nat)

structure EA where
  a : BitVec 24
  /-- 16-bit access wraps within bank 0. -/
  bank0 : Bool

/-- Addressing modes of the interpreter (`enum mode`). -/
inductive IMode where
  | imm | dp | dpX | dpY | dpI | dpXI | dpIY | dpIL | dpILY | sr | srIY | abs | absX | absY
  | long | longX
deriving DecidableEq, Repr

inductive Rmw where
  | asl | rol | lsr | ror | inc | dec
deriving DecidableEq, Repr

inductive Index where
  | X | Y
deriving DecidableEq, Repr

section

variable {σ : Type} [Board σ]

/-- Operand and opcode fetches go over the bus. -/
def fetch8 (c : Exec) : BusM σ (BitVec 8 × Exec) := fun w => do
  let (v, bus) ← busRead c.pbpc w
  some ((v, { c with PC := c.PC + 1, fetched := c.fetched ++ [w.clocks c.pbpc] }),
    { w with bus, mdr := v })

def fetch16 (c : Exec) : BusM σ (BitVec 16 × Exec) := do
  let (lo, c) ← fetch8 c
  let (hi, c) ← fetch8 c
  return (hi ++ lo, c)

def fetch24 (c : Exec) : BusM σ (BitVec 24 × Exec) := do
  let (lo, c) ← fetch16 c
  let (hi, c) ← fetch8 c
  return (hi ++ lo, c)

def EA.next (e : EA) : BitVec 24 := if e.bank0 then nextB0 e.a else e.a + 1

def rd (e : EA) (wide : Bool) : BusM σ (BitVec 16) := do
  let lo ← read8 e.a
  if wide then
    let hi ← read8 e.next
    return hi ++ lo
  else return lo.setWidth 16

def wr (e : EA) (wide : Bool) (v : BitVec 16) : BusM σ Unit := do
  write8 e.a (v.extractLsb' 0 8)
  if wide then write8 e.next (v.extractLsb' 8 8)

/-- A read-modify-write's write: the high byte first. -/
def wrRmw (e : EA) (wide : Bool) (v : BitVec 16) : BusM σ Unit := do
  if wide then write8 e.next (v.extractLsb' 8 8)
  write8 e.a (v.extractLsb' 0 8)

def rdBank0_16 (a : BitVec 16) : BusM σ (BitVec 16) := do
  let lo ← read8 (bank0 a)
  let hi ← read8 (bank0 (a + 1))
  return hi ++ lo

def rdBank0_24 (a : BitVec 16) : BusM σ (BitVec 24) := do
  let lo ← rdBank0_16 a
  let hi ← read8 (bank0 (a + 2))
  return hi ++ lo

/-- Extern hook for a call target; system mode runs the ROM's own code. -/
def externHook (h : Host σ) (addr : BitVec 24) (kind : Nat) :
    BusM σ (Option (Cpu → BusM σ Cpu)) :=
  if h.sys then return none
  else
    match h.externs.find? (·.addr = addr) with
    | none => return none
    | some ext => if ext.kind = kind then return some ext.hook else ctFatal

/-- Jump-table bounds (strict only). -/
def tableIndex (h : Host σ) (c : RegFile) (site : BitVec 24) : BusM σ Unit :=
  if h.sys then return ()
  else
    match h.jumptables.find? (·.1 = site) with
    | none => return ()
    | some (_, count) => if c.X.getLsbD 0 ∨ 2 * count ≤ c.X.toNat then ctFatal else return ()

end

/-! Flags and stack. -/

def nz (r : RegFile) (v : BitVec 16) (wide : Bool) : RegFile :=
  if wide then { r with n := v.getLsbD 15, z := v == 0 }
  else { r with n := v.getLsbD 7, z := v &&& 0xFF == 0 }

def packP (r : RegFile) : BitVec 8 :=
  BitVec.ofBool r.n ++ BitVec.ofBool r.v ++ BitVec.ofBool r.m ++ BitVec.ofBool r.x ++
    BitVec.ofBool r.d ++ BitVec.ofBool r.i ++ BitVec.ofBool r.z ++ BitVec.ofBool r.c

def unpackP (r : RegFile) (p : BitVec 8) : RegFile :=
  let r := { r with
    n := p.getLsbD 7, v := p.getLsbD 6, m := p.getLsbD 5, x := p.getLsbD 4,
    d := p.getLsbD 3, i := p.getLsbD 2, z := p.getLsbD 1, c := p.getLsbD 0 }
  let r := if r.e then { r with m := true, x := true } else r
  if r.x then { r with X := r.X &&& 0xFF, Y := r.Y &&& 0xFF } else r

section

variable {σ : Type} [Board σ]

def push (r : RegFile) (v : BitVec 8) : BusM σ RegFile := do
  write8 (bank0 r.S) v
  let r := { r with S := r.S - 1 }
  return if r.e then { r with S := 0x0100 ||| (r.S &&& 0xFF) } else r

def pull (r : RegFile) : BusM σ (BitVec 8 × RegFile) := do
  let r := { r with S := r.S + 1 }
  let r := if r.e then { r with S := 0x0100 ||| (r.S &&& 0xFF) } else r
  let v ← read8 (bank0 r.S)
  return (v, r)

def pushw (r : RegFile) (v : BitVec 16) : BusM σ RegFile := do
  let r ← push r (v.extractLsb' 8 8)
  push r (v.extractLsb' 0 8)

def pullw (r : RegFile) : BusM σ (BitVec 16 × RegFile) := do
  let (lo, r) ← pull r
  let (hi, r) ← pull r
  return (hi ++ lo, r)

/-! Addressing. -/

def interpCrosses (b : BitVec 24) (index : BitVec 16) : Bool :=
  (b ^^^ (b + index.setWidth 24)) &&& 0xFF00 != 0

/-- `ea`: fetch the operand, form the address. -/
def ea (c : Exec) : IMode → BusM σ (EA × Exec)
  | .imm => ctFatal     -- bad mode
  | .dp => do
    let (d, c) ← fetch8 c
    return (⟨bank0 (c.DP + d.setWidth 16), true⟩, c)
  | .dpX => do
    let (d, c) ← fetch8 c
    return (⟨bank0 (c.DP + d.setWidth 16 + c.X), true⟩, c)
  | .dpY => do
    let (d, c) ← fetch8 c
    return (⟨bank0 (c.DP + d.setWidth 16 + c.Y), true⟩, c)
  | .dpI => do
    let (d, c) ← fetch8 c
    let p ← rdBank0_16 (c.DP + d.setWidth 16)
    return (⟨c.DB ++ p, false⟩, c)
  | .dpXI => do
    let (d, c) ← fetch8 c
    let p ← rdBank0_16 (c.DP + d.setWidth 16 + c.X)
    return (⟨c.DB ++ p, false⟩, c)
  | .dpIY => do
    let (d, c) ← fetch8 c
    let p ← rdBank0_16 (c.DP + d.setWidth 16)
    let b := c.DB ++ p
    setCross (interpCrosses b c.Y)
    return (⟨b + c.Y.setWidth 24, false⟩, c)
  | .dpIL => do
    let (d, c) ← fetch8 c
    let p ← rdBank0_24 (c.DP + d.setWidth 16)
    return (⟨p, false⟩, c)
  | .dpILY => do
    let (d, c) ← fetch8 c
    let p ← rdBank0_24 (c.DP + d.setWidth 16)
    return (⟨p + c.Y.setWidth 24, false⟩, c)
  | .sr => do
    let (d, c) ← fetch8 c
    return (⟨bank0 (c.S + d.setWidth 16), true⟩, c)
  | .srIY => do
    let (d, c) ← fetch8 c
    let p ← rdBank0_16 (c.S + d.setWidth 16)
    return (⟨(c.DB ++ p) + c.Y.setWidth 24, false⟩, c)
  | .abs => do
    let (a, c) ← fetch16 c
    return (⟨c.DB ++ a, false⟩, c)
  | .absX => do
    let (a, c) ← fetch16 c
    let b := c.DB ++ a
    setCross (interpCrosses b c.X)
    return (⟨b + c.X.setWidth 24, false⟩, c)
  | .absY => do
    let (a, c) ← fetch16 c
    let b := c.DB ++ a
    setCross (interpCrosses b c.Y)
    return (⟨b + c.Y.setWidth 24, false⟩, c)
  | .long => do
    let (a, c) ← fetch24 c
    return (⟨a, false⟩, c)
  | .longX => do
    let (a, c) ← fetch24 c
    return (⟨a + c.X.setWidth 24, false⟩, c)

/-- Operand value: immediate or memory. -/
def operand (c : Exec) (md : IMode) (wide : Bool) : BusM σ (BitVec 16 × Exec) :=
  if md = .imm then
    if wide then fetch16 c
    else do
      let (v, c) ← fetch8 c
      return (v.setWidth 16, c)
  else do
    let (e, c) ← ea c md
    let v ← rd e wide
    return (v, c)

end

/-! Accumulator. -/

def getA (r : RegFile) : BitVec 16 := if r.m then r.A &&& 0xFF else r.A

def setA (r : RegFile) (v : BitVec 16) : RegFile :=
  if r.m then { r with A := (r.A &&& 0xFF00) ||| (v &&& 0xFF) } else { r with A := v }

def idx (r : RegFile) (v : BitVec 16) : BitVec 16 := if r.x then v &&& 0xFF else v

def compare (r : RegFile) (a v : BitVec 16) (wide : Bool) : RegFile :=
  let mask : BitVec 16 := if wide then 0xFFFF else 0xFF
  let a := a &&& mask
  let v := v &&& mask
  nz { r with c := v ≤ a } (a - v) wide

def rmw (r : RegFile) (op : Rmw) (v : BitVec 16) (wide : Bool) : BitVec 16 × RegFile :=
  let mask : BitVec 16 := if wide then 0xFFFF else 0xFF
  let top : BitVec 16 := if wide then 0x8000 else 0x80
  let (t, c) : BitVec 16 × Bool :=
    match op with
    | .asl => (v <<< 1, v &&& top != 0)
    | .rol => ((v <<< 1) ||| (BitVec.ofBool r.c).setWidth 16, v &&& top != 0)
    | .lsr => (v >>> 1, v.getLsbD 0)
    | .ror => ((v >>> 1) ||| (if r.c then top else 0), v.getLsbD 0)
    | .inc => (v + 1, r.c)
    | .dec => (v - 1, r.c)
  let t := t &&& mask
  (t, nz { r with c } t wide)

section

variable {σ : Type} [Board σ]

def add (r : RegFile) (a b : BitVec 16) (wide : Bool) : BusM σ (BitVec 16 × RegFile) :=
  if r.d then ctFatal else
    let mask : BitVec 32 := if wide then 0xFFFF else 0xFF
    let sign : BitVec 32 := if wide then 0x8000 else 0x80
    let t : BitVec 32 := a.setWidth 32 + b.setWidth 32 + (BitVec.ofBool r.c).setWidth 32
    let r := { r with
      c := mask < t
      v := (a.setWidth 32 ^^^ t) &&& (b.setWidth 32 ^^^ t) &&& sign != 0 }
    let t := (t &&& mask).setWidth 16
    return (t, nz r t wide)

def rmwAcc (c : Exec) (op : Rmw) : BusM σ Exec :=
  let (v, r) := rmw c.toRegFile op (getA c.toRegFile) (!c.m)
  return c.setRegs (setA r v)

def rmwMem (c : Exec) (op : Rmw) (md : IMode) : BusM σ Exec := do
  let (e, c) ← ea c md
  let v ← rd e (!c.m)
  let (t, r) := rmw c.toRegFile op v (!c.m)
  wrRmw e (!c.m) t
  return c.setRegs r

/-- TSB / TRB on the value read. -/
def testValue (r : RegFile) (v : BitVec 16) (reset : Bool) : BitVec 16 × RegFile :=
  let a := getA r
  (if reset then v &&& ~~~a else v ||| a, { r with z := a &&& v == 0 })

def testBits (c : Exec) (md : IMode) (reset : Bool) : BusM σ Exec := do
  let (e, c) ← ea c md
  let v ← rd e (!c.m)
  let (t, r) := testValue c.toRegFile v reset
  wrRmw e (!c.m) t
  return c.setRegs r

/-- Charge a backward branch or jump to the step budget. -/
def loopTick (site : BitVec 24) (newPc : BitVec 16) : BusM σ Unit :=
  if low site < newPc then return () else chargeBudget

def branch (c : Exec) (site : BitVec 24) (cond : Bool) : BusM σ Exec := do
  let (off, c) ← fetch8 c
  if cond then
    setTaken
    let c := { c with PC := c.PC + off.signExtend 16 }
    loopTick site c.PC
    return c
  else return c

/-- The byte MVN/MVP moves; until A wraps the instruction runs again. -/
def moveByte (c : Exec) (site : BitVec 24) (step : BitVec 16) (dst src : BitVec 8) :
    BusM σ Exec := do
  let v ← read8 (src ++ c.X)
  write8 (dst ++ c.Y) v
  let c := { c with DB := dst, X := c.X + step, Y := c.Y + step }
  let c := if c.x then { c with X := c.X &&& 0xFF, Y := c.Y &&& 0xFF } else c
  let c := { c with A := c.A - 1 }
  return if c.A ≠ 0xFFFF then { c with PC := low site } else c

def blockMove (c : Exec) (site : BitVec 24) (step : BitVec 16) : BusM σ Exec := do
  let (dst, c) ← fetch8 c
  let (src, c) ← fetch8 c
  moveByte c site step dst src

end

/-- ALU group: opcodes aaa.bbbbb with a 65816 addressing column. -/
def aluMode (op : BitVec 8) : Option IMode :=
  match (op &&& 0x1F).toNat with
  | 0x01 => some .dpXI
  | 0x03 => some .sr
  | 0x05 => some .dp
  | 0x07 => some .dpIL
  | 0x09 => if op ≠ 0x89 then some .imm else none
  | 0x0D => some .abs
  | 0x0F => some .long
  | 0x11 => some .dpIY
  | 0x12 => some .dpI
  | 0x13 => some .srIY
  | 0x15 => some .dpX
  | 0x17 => some .dpILY
  | 0x19 => some .absY
  | 0x1D => some .absX
  | 0x1F => some .longX
  | _ => none

section

variable {σ : Type} [Board σ]

def sta (c : Exec) (md : IMode) : BusM σ Exec := do
  if md = .imm then ctFatal
  let (e, c) ← ea c md
  wr e (!c.m) (getA c.toRegFile)
  return c

/-- The ALU group but STA, on the operand's value. -/
def aluValue (r : RegFile) (kind : Nat) (v : BitVec 16) : BusM σ RegFile :=
  let wide := !r.m
  let a := getA r
  match kind with
  | 0 => return setA (nz r (a ||| v) wide) (a ||| v)       -- ORA
  | 1 => return setA (nz r (a &&& v) wide) (a &&& v)       -- AND
  | 2 => return setA (nz r (a ^^^ v) wide) (a ^^^ v)       -- EOR
  | 3 => do                                                -- ADC
    let (t, r) ← add r a v wide
    return setA r t
  | 5 => return setA (nz r v wide) v                       -- LDA
  | 6 => return compare r a v wide                         -- CMP
  | _ => do                                                -- SBC
    let (t, r) ← add r a (~~~v &&& if wide then 0xFFFF else 0xFF) wide
    return setA r t

def alu (c : Exec) (op : BitVec 8) (md : IMode) : BusM σ Exec :=
  if op >>> 5 = 4 then sta c md
  else do
    let (v, c) ← operand c md (!c.m)
    let r ← aluValue c.toRegFile (op >>> 5).toNat v
    return c.setRegs r

/-- BIT on the operand's value. -/
def bitValue (r : RegFile) (v : BitVec 16) (imm : Bool) : RegFile :=
  let wide := !r.m
  let r := { r with z := getA r &&& v == 0 }
  if imm then r
  else { r with
    n := v.getLsbD (if wide then 15 else 7)
    v := v.getLsbD (if wide then 14 else 6) }

def bitTest (c : Exec) (md : IMode) : BusM σ Exec := do
  let (v, c) ← operand c md (!c.m)
  return c.setRegs (bitValue c.toRegFile v (md = .imm))

def Index.get (r : RegFile) : Index → BitVec 16
  | .X => r.X
  | .Y => r.Y

def Index.set (r : RegFile) (v : BitVec 16) : Index → RegFile
  | .X => { r with X := v }
  | .Y => { r with Y := v }

/-- Set an index register and N, Z from it. -/
def setIndex (r : RegFile) (ix : Index) (v : BitVec 16) : RegFile := nz (ix.set r v) v (!r.x)

def loadIndex (c : Exec) (ix : Index) (md : IMode) : BusM σ Exec := do
  let (v, c) ← operand c md (!c.x)
  return c.setRegs (setIndex c.toRegFile ix v)

def storeIndex (c : Exec) (ix : Index) (md : IMode) : BusM σ Exec := do
  let (e, c) ← ea c md
  wr e (!c.x) (ix.get c.toRegFile)
  return c

def storeZero (c : Exec) (md : IMode) : BusM σ Exec := do
  let (e, c) ← ea c md
  wr e (!c.m) 0
  return c

def compareIndex (c : Exec) (ix : Index) (md : IMode) : BusM σ Exec := do
  let (v, c) ← operand c md (!c.x)
  return c.setRegs (compare c.toRegFile (ix.get c.toRegFile) v (!c.x))

/-- Push a register of either width. -/
def pushReg (c : Exec) (v : BitVec 16) (wide : Bool) : BusM σ Exec := do
  let r ← (if wide then pushw c.toRegFile v else push c.toRegFile (v.extractLsb' 0 8))
  return c.setRegs r

def pullReg (r : RegFile) (wide : Bool) : BusM σ (BitVec 16 × RegFile) :=
  if wide then pullw r
  else do
    let (v, r) ← pull r
    return (v.setWidth 16, r)

/-- Strict mode records a call on the shadow stack, 256 deep at most. -/
def enterShadow (h : Host σ) (c : Exec) (site : BitVec 24) (isLong : Bool) : BusM σ Exec :=
  if h.sys then return c
  else if c.shadow.length = 256 then ctFatal
  else return { c with shadow := ⟨site, c.pbpc, isLong⟩ :: c.shadow }

/-- Strict mode checks a return against the shadow stack. -/
def leaveShadow (h : Host σ) (c : Exec) (isLong : Bool) : BusM σ Exec :=
  if h.sys then return c
  else
    match c.shadow with
    | [] => return c
    | s :: rest =>
      if s.isLong ≠ isLong then ctFatal
      else if isLong then
        if c.pbpc ≠ s.ret then ctFatal else return { c with shadow := rest }
      else if c.PC ≠ low s.ret then ctFatal
      else return { c with shadow := rest }

def runHook (c : Exec) (hook : Cpu → BusM σ Cpu) : BusM σ Exec := do
  let cpu ← hook c.toCpu
  return { c with toCpu := cpu }

def jsr (h : Host σ) (c : Exec) (site : BitVec 24) : BusM σ Exec := do
  let (t, c) ← fetch16 c
  let r ← pushw c.toRegFile (c.PC - 1)
  let c := c.setRegs r
  match ← externHook h (c.PB ++ t) 0 with
  | some hook => runHook c hook
  | none =>
    let c ← enterShadow h c site false
    return { c with PC := t }

def jsl (h : Host σ) (c : Exec) (site : BitVec 24) : BusM σ Exec := do
  let (t, c) ← fetch24 c
  let r ← push c.toRegFile c.PB
  let r ← pushw r (c.PC - 1)
  let c := c.setRegs r
  match ← externHook h t 1 with
  | some hook => runHook { c with PB := bank t } hook
  | none =>
    let c ← enterShadow h c site true
    return { c with PB := bank t, PC := low t }

def jml (h : Host σ) (c : Exec) : BusM σ Exec := do
  let (t, c) ← fetch24 c
  let c := { c with PB := bank t, PC := low t }
  match ← externHook h t 2 with
  | some hook => runHook c hook
  | none => return c

/-- The target of an (abs,X) jump, read through the bus. -/
def readTable (c : Exec) (p : BitVec 16) : BusM σ (BitVec 16) := do
  let lo ← read8 (c.PB ++ p)
  let hi ← read8 (c.PB ++ (p + 1))
  return hi ++ lo

def jmpTable (h : Host σ) (c : Exec) (site : BitVec 24) : BusM σ Exec := do
  tableIndex h c.toRegFile site
  let (a, c) ← fetch16 c
  let t ← readTable c (a + c.X)
  return { c with PC := t }

def jsrTable (h : Host σ) (c : Exec) (site : BitVec 24) : BusM σ Exec := do
  let (a, c) ← fetch16 c
  let p := a + c.X
  let r ← pushw c.toRegFile (c.PC - 1)
  let c := c.setRegs r
  tableIndex h c.toRegFile site
  let c ← enterShadow h c site false
  let t ← readTable c p
  return { c with PC := t }

def rts (h : Host σ) (c : Exec) : BusM σ Exec := do
  let (pc, r) ← pullw c.toRegFile
  leaveShadow h { c.setRegs r with PC := pc + 1 } false

def rtl (h : Host σ) (c : Exec) : BusM σ Exec := do
  let (pc, r) ← pullw c.toRegFile
  let (pb, r) ← pull r
  leaveShadow h { c.setRegs r with PC := pc + 1, PB := pb } true

def rti (h : Host σ) (c : Exec) : BusM σ Exec :=
  if h.sys then do
    let (p, r) ← pull c.toRegFile
    let r := unpackP r p
    let (pc, r) ← pullw r
    if r.e then return { c.setRegs r with PC := pc }
    else
      let (pb, r) ← pull r
      return { c.setRegs r with PC := pc, PB := pb }
  else ctFatal

def wai (h : Host σ) (c : Exec) : BusM σ Exec :=
  if h.sys then return { c with waiting := true } else ctFatal

/-- XCE in the interpreter. -/
def exchangeCE (r : RegFile) : RegFile :=
  let r := { r with c := r.e, e := r.c }
  if r.e then
    { r with m := true, x := true, X := r.X &&& 0xFF, Y := r.Y &&& 0xFF,
             S := 0x0100 ||| (r.S &&& 0xFF) }
  else r

/-- Registers-only instructions. -/
def onRegs (c : Exec) (f : RegFile → RegFile) : BusM σ Exec := return c.setRegs (f c.toRegFile)

def step (h : Host σ) (c : Exec) (site : BitVec 24) (op : BitVec 8) : BusM σ Exec :=
  match (if op &&& 3 = 1 ∨ op &&& 3 = 3 ∨ op &&& 0x1F = 0x12 then aluMode op else none) with
  | some md => alu c op md
  | none =>
  match op.toNat with
  -- read-modify-write
  | 0x0A => rmwAcc c .asl
  | 0x2A => rmwAcc c .rol
  | 0x4A => rmwAcc c .lsr
  | 0x6A => rmwAcc c .ror
  | 0x1A => rmwAcc c .inc
  | 0x3A => rmwAcc c .dec
  | 0x06 => rmwMem c .asl .dp
  | 0x0E => rmwMem c .asl .abs
  | 0x16 => rmwMem c .asl .dpX
  | 0x1E => rmwMem c .asl .absX
  | 0x26 => rmwMem c .rol .dp
  | 0x2E => rmwMem c .rol .abs
  | 0x36 => rmwMem c .rol .dpX
  | 0x3E => rmwMem c .rol .absX
  | 0x46 => rmwMem c .lsr .dp
  | 0x4E => rmwMem c .lsr .abs
  | 0x56 => rmwMem c .lsr .dpX
  | 0x5E => rmwMem c .lsr .absX
  | 0x66 => rmwMem c .ror .dp
  | 0x6E => rmwMem c .ror .abs
  | 0x76 => rmwMem c .ror .dpX
  | 0x7E => rmwMem c .ror .absX
  | 0xE6 => rmwMem c .inc .dp
  | 0xEE => rmwMem c .inc .abs
  | 0xF6 => rmwMem c .inc .dpX
  | 0xFE => rmwMem c .inc .absX
  | 0xC6 => rmwMem c .dec .dp
  | 0xCE => rmwMem c .dec .abs
  | 0xD6 => rmwMem c .dec .dpX
  | 0xDE => rmwMem c .dec .absX
  -- TSB / TRB
  | 0x04 => testBits c .dp false
  | 0x0C => testBits c .abs false
  | 0x14 => testBits c .dp true
  | 0x1C => testBits c .abs true
  -- BIT
  | 0x89 => bitTest c .imm
  | 0x24 => bitTest c .dp
  | 0x2C => bitTest c .abs
  | 0x34 => bitTest c .dpX
  | 0x3C => bitTest c .absX
  -- index loads / stores / compares
  | 0xA2 => loadIndex c .X .imm
  | 0xA6 => loadIndex c .X .dp
  | 0xAE => loadIndex c .X .abs
  | 0xB6 => loadIndex c .X .dpY
  | 0xBE => loadIndex c .X .absY
  | 0xA0 => loadIndex c .Y .imm
  | 0xA4 => loadIndex c .Y .dp
  | 0xAC => loadIndex c .Y .abs
  | 0xB4 => loadIndex c .Y .dpX
  | 0xBC => loadIndex c .Y .absX
  | 0x86 => storeIndex c .X .dp
  | 0x8E => storeIndex c .X .abs
  | 0x96 => storeIndex c .X .dpY
  | 0x84 => storeIndex c .Y .dp
  | 0x8C => storeIndex c .Y .abs
  | 0x94 => storeIndex c .Y .dpX
  | 0x64 => storeZero c .dp
  | 0x74 => storeZero c .dpX
  | 0x9C => storeZero c .abs
  | 0x9E => storeZero c .absX
  | 0xE0 => compareIndex c .X .imm
  | 0xE4 => compareIndex c .X .dp
  | 0xEC => compareIndex c .X .abs
  | 0xC0 => compareIndex c .Y .imm
  | 0xC4 => compareIndex c .Y .dp
  | 0xCC => compareIndex c .Y .abs
  | 0xE8 => onRegs c fun r => setIndex r .X (idx r (r.X + 1))
  | 0xC8 => onRegs c fun r => setIndex r .Y (idx r (r.Y + 1))
  | 0xCA => onRegs c fun r => setIndex r .X (idx r (r.X - 1))
  | 0x88 => onRegs c fun r => setIndex r .Y (idx r (r.Y - 1))
  -- transfers
  | 0xAA => onRegs c fun r => setIndex r .X (idx r r.A)
  | 0xA8 => onRegs c fun r => setIndex r .Y (idx r r.A)
  | 0x8A => onRegs c fun r => let r := setA r r.X; nz r (getA r) (!r.m)
  | 0x98 => onRegs c fun r => let r := setA r r.Y; nz r (getA r) (!r.m)
  | 0x9B => onRegs c fun r => setIndex r .Y r.X
  | 0xBB => onRegs c fun r => setIndex r .X r.Y
  | 0xBA => onRegs c fun r => setIndex r .X (idx r r.S)
  | 0x9A => onRegs c fun r => { r with S := if r.e then 0x0100 ||| (r.X &&& 0xFF) else r.X }
  | 0x5B => onRegs c fun r => nz { r with DP := r.A } r.A true
  | 0x7B => onRegs c fun r => nz { r with A := r.DP } r.DP true
  | 0x1B => onRegs c fun r => { r with S := if r.e then 0x0100 ||| (r.A &&& 0xFF) else r.A }
  | 0x3B => onRegs c fun r => nz { r with A := r.S } r.S true
  | 0xEB => onRegs c fun r =>
    let r := { r with A := (r.A >>> 8) ||| (r.A <<< 8) }
    nz r (r.A &&& 0xFF) false
  -- stack
  | 0x48 => pushReg c c.A (!c.m)
  | 0xDA => pushReg c c.X (!c.x)
  | 0x5A => pushReg c c.Y (!c.x)
  | 0x68 => do
    let (v, r) ← pullReg c.toRegFile (!c.m)
    let r := setA r v
    return c.setRegs (nz r (getA r) (!r.m))
  | 0xFA => do
    let (v, r) ← pullReg c.toRegFile (!c.x)
    return c.setRegs (setIndex r .X v)
  | 0x7A => do
    let (v, r) ← pullReg c.toRegFile (!c.x)
    return c.setRegs (setIndex r .Y v)
  | 0x8B => do
    let r ← push c.toRegFile c.DB
    return c.setRegs r
  | 0xAB => do
    let (v, r) ← pull c.toRegFile
    return c.setRegs (nz { r with DB := v } (v.setWidth 16) false)
  | 0x0B => pushReg c c.DP true
  | 0x2B => do
    let (v, r) ← pullw c.toRegFile
    return c.setRegs (nz { r with DP := v } v true)
  | 0x4B => do
    let r ← push c.toRegFile c.PB
    return c.setRegs r
  | 0x08 => do
    let r ← push c.toRegFile (packP c.toRegFile)
    return c.setRegs r
  | 0x28 => do
    let (p, r) ← pull c.toRegFile
    return c.setRegs (unpackP r p)
  | 0xF4 => do
    let (v, c) ← fetch16 c
    pushReg c v true
  | 0xD4 => do
    let (d, c) ← fetch8 c
    let v ← rdBank0_16 (c.DP + d.setWidth 16)
    pushReg c v true
  | 0x62 => do
    let (off, c) ← fetch16 c
    pushReg c (c.PC + off) true
  -- flags
  | 0x18 => onRegs c fun r => { r with c := false }
  | 0x38 => onRegs c fun r => { r with c := true }
  | 0x58 => onRegs c fun r => { r with i := false }
  | 0x78 => onRegs c fun r => { r with i := true }
  | 0xD8 => onRegs c fun r => { r with d := false }
  | 0xF8 => onRegs c fun r => { r with d := true }
  | 0xB8 => onRegs c fun r => { r with v := false }
  | 0xC2 => do
    let (v, c) ← fetch8 c
    onRegs c fun r => unpackP r (packP r &&& ~~~v)
  | 0xE2 => do
    let (v, c) ← fetch8 c
    onRegs c fun r => unpackP r (packP r ||| v)
  | 0xFB => onRegs c exchangeCE
  -- branches
  | 0x10 => branch c site (!c.n)
  | 0x30 => branch c site c.n
  | 0x50 => branch c site (!c.v)
  | 0x70 => branch c site c.v
  | 0x90 => branch c site (!c.c)
  | 0xB0 => branch c site c.c
  | 0xD0 => branch c site (!c.z)
  | 0xF0 => branch c site c.z
  | 0x80 => branch c site true
  | 0x82 => do
    let (off, c) ← fetch16 c
    let c := { c with PC := c.PC + off }
    loopTick site c.PC
    return c
  -- jumps and calls
  | 0x4C => do
    let (t, c) ← fetch16 c
    loopTick site t
    return { c with PC := t }
  | 0x5C => jml h c
  | 0x6C => do
    let (a, c) ← fetch16 c
    let t ← rdBank0_16 a
    return { c with PC := t }
  | 0x7C => jmpTable h c site
  | 0xDC => do
    let (a, c) ← fetch16 c
    let t ← rdBank0_24 a
    return { c with PB := bank t, PC := low t }
  | 0x20 => jsr h c site
  | 0xFC => jsrTable h c site
  | 0x22 => jsl h c site
  | 0x60 => rts h c
  | 0x6B => rtl h c
  -- block move
  | 0x54 => blockMove c site 1
  | 0x44 => blockMove c site (-1)
  | 0xCB => wai h c
  | 0x40 => rti h c
  | 0xEA => return c
  | 0x42 => do
    let (_, c) ← fetch8 c
    return c
  -- BRK, COP, STP, and the default
  | _ => ctFatal

end

end CtRecomp
