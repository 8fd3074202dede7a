import CtRecomp.Bus

namespace CtRecomp

/-! The instruction semantics generated code calls (ops.h). -/

def setNz8 (r : RegFile) (v : BitVec 8) : RegFile := { r with n := v.msb, z := v == 0 }

def setNz16 (r : RegFile) (v : BitVec 16) : RegFile := { r with n := v.msb, z := v == 0 }

def getP (r : RegFile) : BitVec 8 :=
  BitVec.ofBool r.n ++ BitVec.ofBool r.v ++ BitVec.ofBool r.m ++ BitVec.ofBool r.x ++
    BitVec.ofBool r.d ++ BitVec.ofBool r.i ++ BitVec.ofBool r.z ++ BitVec.ofBool r.c

def indexWidth (r : RegFile) : RegFile :=
  if r.x then { r with X := r.X &&& 0xFF, Y := r.Y &&& 0xFF } else r

/-- In emulation mode M and X stay 8-bit. -/
def setP (r : RegFile) (p : BitVec 8) : RegFile :=
  indexWidth { r with
    n := p.getLsbD 7, v := p.getLsbD 6, m := p.getLsbD 5 || r.e, x := p.getLsbD 4 || r.e,
    d := p.getLsbD 3, i := p.getLsbD 2, z := p.getLsbD 1, c := p.getLsbD 0 }

/-- XCE: swap carry and emulation; entering emulation forces 8-bit A/X and
page-1 S. -/
def opXce (r : RegFile) : RegFile :=
  let r := { r with c := r.e, e := r.c }
  if r.e then
    let r := indexWidth { r with m := true, x := true }
    { r with S := 0x0100 ||| (r.S &&& 0xFF) }
  else r

def opRep (r : RegFile) (v : BitVec 8) : RegFile := setP r (getP r &&& ~~~v)

def opSep (r : RegFile) (v : BitVec 8) : RegFile := setP r (getP r ||| v)

/-! Effective addresses. -/

def eaDp (r : RegFile) (d : BitVec 8) : BitVec 24 := bank0 (r.DP + d.setWidth 16)

def eaAbs (r : RegFile) (a : BitVec 16) : BitVec 24 := r.DB ++ a

/-- The index crosses a page: an indexed read costs a cycle more. -/
def crosses (b : BitVec 24) (index : BitVec 16) : Bool :=
  (b ^^^ (b + index.setWidth 24)) &&& 0xFF00 != 0

def eaDpX (r : RegFile) (d : BitVec 8) : BitVec 24 := bank0 (r.DP + d.setWidth 16 + r.X)

def eaDpY (r : RegFile) (d : BitVec 8) : BitVec 24 := bank0 (r.DP + d.setWidth 16 + r.Y)

def eaSr (r : RegFile) (d : BitVec 8) : BitVec 24 := bank0 (r.S + d.setWidth 16)

def eaLongX (r : RegFile) (a : BitVec 24) : BitVec 24 := a + r.X.setWidth 24

section

variable {σ : Type} [Board σ]

/-- Indexed absolute/long addresses carry into the next bank. -/
def eaAbsX (r : RegFile) (a : BitVec 16) : BusM σ (BitVec 24) := do
  let b := r.DB ++ a
  setCross (crosses b r.X)
  return b + r.X.setWidth 24

def eaAbsY (r : RegFile) (a : BitVec 16) : BusM σ (BitVec 24) := do
  let b := r.DB ++ a
  setCross (crosses b r.Y)
  return b + r.Y.setWidth 24

def eaDpInd (r : RegFile) (d : BitVec 8) : BusM σ (BitVec 24) := do
  let p ← read16B0 (eaDp r d)
  return r.DB ++ p

def eaDpXInd (r : RegFile) (d : BitVec 8) : BusM σ (BitVec 24) := do
  let p ← read16B0 (eaDpX r d)
  return r.DB ++ p

def eaDpIndY (r : RegFile) (d : BitVec 8) : BusM σ (BitVec 24) := do
  let b ← eaDpInd r d
  setCross (crosses b r.Y)
  return b + r.Y.setWidth 24

def eaDpIndLong (r : RegFile) (d : BitVec 8) : BusM σ (BitVec 24) := do
  let p := eaDp r d
  let lo ← read16B0 p
  let hi ← read8 (bank0 (low (p + 2)))
  return hi ++ lo

def eaDpIndLongY (r : RegFile) (d : BitVec 8) : BusM σ (BitVec 24) := do
  let a ← eaDpIndLong r d
  return a + r.Y.setWidth 24

def eaSrIndY (r : RegFile) (d : BitVec 8) : BusM σ (BitVec 24) := do
  let p ← read16B0 (eaSr r d)
  return (r.DB ++ p) + r.Y.setWidth 24

/-! Stack (bank 0). -/

def push8 (r : RegFile) (v : BitVec 8) : BusM σ RegFile := do
  write8 (bank0 r.S) v
  return { r with S := if r.e then 0x0100 ||| ((r.S - 1) &&& 0xFF) else r.S - 1 }

def pull8 (r : RegFile) : BusM σ (BitVec 8 × RegFile) := do
  let r := { r with S := if r.e then 0x0100 ||| ((r.S + 1) &&& 0xFF) else r.S + 1 }
  let v ← read8 (bank0 r.S)
  return (v, r)

def push16 (r : RegFile) (v : BitVec 16) : BusM σ RegFile := do
  let r ← push8 r (v.extractLsb' 8 8)
  push8 r (v.extractLsb' 0 8)

def pull16 (r : RegFile) : BusM σ (BitVec 16 × RegFile) := do
  let (lo, r) ← pull8 r
  let (hi, r) ← pull8 r
  return (hi ++ lo, r)

end

/-! Accumulator. -/

def a8 (r : RegFile) : BitVec 8 := r.A.extractLsb' 0 8

def setA8 (r : RegFile) (v : BitVec 8) : RegFile :=
  { r with A := (r.A &&& 0xFF00) ||| v.setWidth 16 }

def lda8 (r : RegFile) (v : BitVec 8) : RegFile := setNz8 (setA8 r v) v

def lda16 (r : RegFile) (v : BitVec 16) : RegFile := setNz16 { r with A := v } v

def ldx16 (r : RegFile) (v : BitVec 16) : RegFile := setNz16 { r with X := v } v

def ldy16 (r : RegFile) (v : BitVec 16) : RegFile := setNz16 { r with Y := v } v

def ldx8 (r : RegFile) (v : BitVec 8) : RegFile := setNz8 { r with X := v.setWidth 16 } v

def ldy8 (r : RegFile) (v : BitVec 8) : RegFile := setNz8 { r with Y := v.setWidth 16 } v

def ora8 (r : RegFile) (v : BitVec 8) : RegFile :=
  let r := setA8 r (a8 r ||| v)
  setNz8 r (a8 r)

def and8 (r : RegFile) (v : BitVec 8) : RegFile :=
  let r := setA8 r (a8 r &&& v)
  setNz8 r (a8 r)

def eor8 (r : RegFile) (v : BitVec 8) : RegFile :=
  let r := setA8 r (a8 r ^^^ v)
  setNz8 r (a8 r)

def ora16 (r : RegFile) (v : BitVec 16) : RegFile :=
  let r := { r with A := r.A ||| v }
  setNz16 r r.A

def and16 (r : RegFile) (v : BitVec 16) : RegFile :=
  let r := { r with A := r.A &&& v }
  setNz16 r r.A

def eor16 (r : RegFile) (v : BitVec 16) : RegFile :=
  let r := { r with A := r.A ^^^ v }
  setNz16 r r.A

/-- BIT: the immediate form sets Z only. -/
def bit8 (r : RegFile) (v : BitVec 8) (imm : Bool) : RegFile :=
  let r := { r with z := a8 r &&& v == 0 }
  if imm then r else { r with n := v.getLsbD 7, v := v.getLsbD 6 }

def bit16 (r : RegFile) (v : BitVec 16) (imm : Bool) : RegFile :=
  let r := { r with z := r.A &&& v == 0 }
  if imm then r else { r with n := v.getLsbD 15, v := v.getLsbD 14 }

/-! Read-modify-write values. -/

def inc8 (r : RegFile) (v : BitVec 8) : BitVec 8 × RegFile := (v + 1, setNz8 r (v + 1))

def dec8 (r : RegFile) (v : BitVec 8) : BitVec 8 × RegFile := (v - 1, setNz8 r (v - 1))

def inc16 (r : RegFile) (v : BitVec 16) : BitVec 16 × RegFile := (v + 1, setNz16 r (v + 1))

def dec16 (r : RegFile) (v : BitVec 16) : BitVec 16 × RegFile := (v - 1, setNz16 r (v - 1))

def asl8 (r : RegFile) (v : BitVec 8) : BitVec 8 × RegFile :=
  (v <<< 1, setNz8 { r with c := v.msb } (v <<< 1))

def lsr8 (r : RegFile) (v : BitVec 8) : BitVec 8 × RegFile :=
  (v >>> 1, setNz8 { r with c := v.getLsbD 0 } (v >>> 1))

def rol8 (r : RegFile) (v : BitVec 8) : BitVec 8 × RegFile :=
  let t := (v <<< 1) ||| (BitVec.ofBool r.c).setWidth 8
  (t, setNz8 { r with c := v.msb } t)

def ror8 (r : RegFile) (v : BitVec 8) : BitVec 8 × RegFile :=
  let t := (v >>> 1) ||| ((BitVec.ofBool r.c).setWidth 8 <<< 7)
  (t, setNz8 { r with c := v.getLsbD 0 } t)

def asl16 (r : RegFile) (v : BitVec 16) : BitVec 16 × RegFile :=
  (v <<< 1, setNz16 { r with c := v.msb } (v <<< 1))

def lsr16 (r : RegFile) (v : BitVec 16) : BitVec 16 × RegFile :=
  (v >>> 1, setNz16 { r with c := v.getLsbD 0 } (v >>> 1))

def rol16 (r : RegFile) (v : BitVec 16) : BitVec 16 × RegFile :=
  let t := (v <<< 1) ||| (BitVec.ofBool r.c).setWidth 16
  (t, setNz16 { r with c := v.msb } t)

def ror16 (r : RegFile) (v : BitVec 16) : BitVec 16 × RegFile :=
  let t := (v >>> 1) ||| ((BitVec.ofBool r.c).setWidth 16 <<< 15)
  (t, setNz16 { r with c := v.getLsbD 0 } t)

/-- TSB/TRB: Z from A & mem, then set/clear A's bits in mem. -/
def tsb8 (r : RegFile) (v : BitVec 8) : BitVec 8 × RegFile :=
  (v ||| a8 r, { r with z := a8 r &&& v == 0 })

def trb8 (r : RegFile) (v : BitVec 8) : BitVec 8 × RegFile :=
  (v &&& ~~~(a8 r), { r with z := a8 r &&& v == 0 })

def tsb16 (r : RegFile) (v : BitVec 16) : BitVec 16 × RegFile :=
  (v ||| r.A, { r with z := r.A &&& v == 0 })

def trb16 (r : RegFile) (v : BitVec 16) : BitVec 16 × RegFile :=
  (v &&& ~~~r.A, { r with z := r.A &&& v == 0 })

def opTdc (r : RegFile) : RegFile :=
  let r := { r with A := r.DP }
  setNz16 r r.A

/-! Arithmetic: binary only, decimal mode is fatal. -/

section

variable {σ : Type}

def adc8 (r : RegFile) (b : BitVec 8) : BusM σ RegFile :=
  if r.d then ctFatal else
    let a := a8 r
    let t : BitVec 32 := a.setWidth 32 + b.setWidth 32 + (BitVec.ofBool r.c).setWidth 32
    let r := { r with
      c := 0xFF < t
      v := (~~~(a ^^^ b) &&& (a ^^^ t.setWidth 8)).getLsbD 7 }
    return setNz8 (setA8 r (t.setWidth 8)) (t.setWidth 8)

def adc16 (r : RegFile) (b : BitVec 16) : BusM σ RegFile :=
  if r.d then ctFatal else
    let a := r.A
    let t : BitVec 32 := a.setWidth 32 + b.setWidth 32 + (BitVec.ofBool r.c).setWidth 32
    let r := { r with
      c := 0xFFFF < t
      v := (~~~(a ^^^ b) &&& (a ^^^ t.setWidth 16)).getLsbD 15
      A := t.setWidth 16 }
    return setNz16 r r.A

def sbc8 (r : RegFile) (b : BitVec 8) : BusM σ RegFile :=
  if r.d then ctFatal else adc8 r (~~~b)

def sbc16 (r : RegFile) (b : BitVec 16) : BusM σ RegFile :=
  if r.d then ctFatal else adc16 r (~~~b)

def cmp8 (r : RegFile) (v b : BitVec 8) : RegFile := setNz8 { r with c := b ≤ v } (v - b)

def cmp16 (r : RegFile) (v b : BitVec 16) : RegFile := setNz16 { r with c := b ≤ v } (v - b)

end

section

variable {σ : Type} [Board σ]

/-- One byte of a block move. -/
def mvnByte (dst src : BitVec 8) (r : RegFile) : BusM σ RegFile := do
  let v ← read8 (src ++ r.X)
  write8 (dst ++ r.Y) v
  return { r with X := r.X + 1, Y := r.Y + 1, A := r.A - 1 }

/-- The loop of `mvn16`: every byte after the first starts with `ct_insn`,
which puts the instruction's last byte on the bus. -/
def mvnLoop (dst src : BitVec 8) : Nat → RegFile → BusM σ RegFile
  | 0, _ => ctFatal
  | fuel + 1, r => do
    let r ← mvnByte dst src r
    if r.A = 0xFFFF then return r
    setMdr src
    mvnLoop dst src fuel r

/-- The loop runs A + 1 times. -/
def mvn16 (dst src : BitVec 8) (r : RegFile) : BusM σ RegFile :=
  mvnLoop dst src (r.A.toNat + 1) { r with DB := dst }

end

end CtRecomp
