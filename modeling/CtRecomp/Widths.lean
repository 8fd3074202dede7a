import CtRecomp.Interp
import CtRecomp.Templates

namespace CtRecomp

/-! The width-specialised helpers of generated code against the interpreter's
width-parametric ones. -/

theorem getLsbD_ff {i : Nat} (hi : i < 16) : (0xFF : BitVec 16).getLsbD i = decide (i < 8) := by
  revert i
  decide

theorem and_ff (x : BitVec 16) : x &&& 0xFF = (x.extractLsb' 0 8).setWidth 16 := by
  apply BitVec.eq_of_getLsbD_eq
  intro i hi
  rw [BitVec.getLsbD_and, getLsbD_ff hi, BitVec.getLsbD_setWidth, BitVec.getLsbD_extractLsb']
  simp [hi, Bool.and_comm]

theorem and_ffff (x : BitVec 16) : x &&& 0xFFFF = x := BitVec.and_allOnes

theorem extract_setWidth (v : BitVec 8) : (v.setWidth 16).extractLsb' 0 8 = v := by
  ext i hi
  have h16 : i < 16 := by omega
  simp [h16, hi]

theorem setWidth_and_ff (v : BitVec 8) : v.setWidth 16 &&& 0xFF = v.setWidth 16 := by
  rw [and_ff, extract_setWidth]

theorem setWidth_inj {u v : BitVec 8} : u.setWidth 16 = v.setWidth 16 ↔ u = v := by
  constructor
  · intro h
    have hlow := congrArg (fun x => x.extractLsb' 0 8) h
    simpa only [extract_setWidth] using hlow
  · rintro rfl
    rfl

theorem beq_setWidth (u v : BitVec 8) : (u.setWidth 16 == v.setWidth 16) = (u == v) := by
  rw [Bool.eq_iff_iff, beq_iff_eq, beq_iff_eq]
  exact setWidth_inj

theorem setWidth_eq_zero (v : BitVec 8) : (v.setWidth 16 == 0) = (v == 0) := beq_setWidth v 0

theorem extract_shl (x : BitVec 16) : (x <<< 1).extractLsb' 0 8 = x.extractLsb' 0 8 <<< 1 := by
  ext i hi
  have h16 : i < 16 := by omega
  have h : i - 1 < 16 := by omega
  simp [h16, BitVec.getLsbD_eq_getElem h]

theorem extract_shr (v : BitVec 8) : (v.setWidth 16 >>> 1).extractLsb' 0 8 = v >>> 1 := by
  ext i hi
  have h16 : 1 + i < 16 := by omega
  by_cases h8 : 1 + i < 8 <;> simp [h16]

theorem setWidth_and_not (u v : BitVec 8) :
    u.setWidth 16 &&& ~~~(v.setWidth 16) = (u &&& ~~~v).setWidth 16 := by
  ext i hi
  by_cases h8 : i < 8
  · simp [h8]
  · have hu : u.getLsbD i = false := BitVec.getLsbD_of_ge u i (by omega)
    simp [hu]

theorem extract_ofBool (b : Bool) :
    ((BitVec.ofBool b).setWidth 16).extractLsb' 0 8 = (BitVec.ofBool b).setWidth 8 := by
  cases b <;> rfl

theorem msb_setWidth (v : BitVec 8) : (v.setWidth 16).getLsbD 7 = v.msb := by
  simp [BitVec.msb_eq_getLsbD_last]

theorem extract_add (x y : BitVec 16) :
    (x + y).extractLsb' 0 8 = x.extractLsb' 0 8 + y.extractLsb' 0 8 := by
  simp only [← BitVec.setWidth_eq_extractLsb' (by decide : 8 ≤ 16)]
  bv_omega

theorem extract_sub (x y : BitVec 16) :
    (x - y).extractLsb' 0 8 = x.extractLsb' 0 8 - y.extractLsb' 0 8 := by
  simp only [← BitVec.setWidth_eq_extractLsb' (by decide : 8 ≤ 16)]
  bv_omega

theorem and_twoPow_ne_zero {n : Nat} (x : BitVec n) (k : Nat) (hk : k < n) :
    (x &&& BitVec.twoPow n k != 0) = x.getLsbD k := by
  rw [BitVec.and_twoPow]
  cases x.getLsbD k with
  | true =>
    have hne : BitVec.twoPow n k ≠ 0 := by
      intro h0
      have hb := congrArg (fun y => y.getLsbD k) h0
      simp [hk] at hb
    simpa using hne
  | false => simp

/-- The two ways to write the overflow of an addition. -/
theorem overflow_bit {n : Nat} (a b : BitVec n) (t : BitVec 32) (k : Nat) (hk : k < n)
    (hn : n ≤ 32) :
    ((a.setWidth 32 ^^^ t) &&& (b.setWidth 32 ^^^ t) &&& BitVec.twoPow 32 k != 0) =
      (~~~(a ^^^ b) &&& (a ^^^ t.setWidth n)).getLsbD k := by
  have h32 : k < 32 := by omega
  rw [and_twoPow_ne_zero _ k h32]
  simp only [BitVec.getLsbD_and, BitVec.getLsbD_xor, BitVec.getLsbD_not, BitVec.getLsbD_setWidth,
    hk, h32, decide_true, Bool.true_and]
  cases a.getLsbD k <;> cases b.getLsbD k <;> cases t.getLsbD k <;> rfl

theorem and_ff32 (t : BitVec 32) : (t &&& 0xFF).setWidth 16 = (t.setWidth 8).setWidth 16 := by
  apply BitVec.eq_of_getLsbD_eq
  intro i hi
  have h : (0xFF : BitVec 32).getLsbD i = decide (i < 8) := by
    have h32 : i < 32 := by omega
    clear hi
    revert i
    decide
  simp only [BitVec.getLsbD_setWidth, BitVec.getLsbD_and, h, hi]
  simp [Bool.and_comm]

theorem and_ffff32 (t : BitVec 32) : (t &&& 0xFFFF).setWidth 16 = t.setWidth 16 := by
  apply BitVec.eq_of_getLsbD_eq
  intro i hi
  have h : (0xFFFF : BitVec 32).getLsbD i = true := by
    revert i
    decide
  simp only [BitVec.getLsbD_setWidth, BitVec.getLsbD_and, h, Bool.and_true]

/-- An index register holds a byte while X is 8-bit. -/
def RegFile.Narrow (r : RegFile) : Prop := r.x = true → r.X < 0x100 ∧ r.Y < 0x100

theorem eq_setWidth_of_lt {x : BitVec 16} (h : x < 0x100) :
    x = (x.extractLsb' 0 8).setWidth 16 := by
  rw [← BitVec.setWidth_eq_extractLsb' (by decide : 8 ≤ 16)]
  have hx : x.toNat < 256 := h
  apply BitVec.eq_of_toNat_eq
  simp only [BitVec.toNat_setWidth]
  omega

/-- `enum rmw` for a read-modify-write mnemonic -/
def rmwKind : Mnemonic → Option Rmw
  | .ASL => some .asl
  | .ROL => some .rol
  | .LSR => some .lsr
  | .ROR => some .ror
  | .INC => some .inc
  | .DEC => some .dec
  | _ => none

/-- The ALU column of a load: `op >> 5` -/
def loadKind : Mnemonic → Option Nat
  | .ORA => some 0
  | .AND => some 1
  | .EOR => some 2
  | .LDA => some 5
  | _ => none

/-- The `{w}` forms of one width compute what the interpreter's helpers do at
that width; `zx` widens a value to the interpreter's 16 bits. -/
structure Sized.Agrees {σ : Type} [Board σ] {n : Nat} (o : Sized σ n) (wide : Bool)
    (zx : BitVec n → BitVec 16) : Prop where
  imm : ∀ i, zx (o.imm i) = if wide then i.lo16 else i.lo8.setWidth 16
  rd : ∀ a b0, CtRecomp.rd (σ := σ) ⟨a, b0⟩ wide = zx <$> o.rd a b0
  wr : ∀ a b0 v, CtRecomp.wr ⟨a, b0⟩ wide (zx v) = o.wr a b0 v
  wrRmw : ∀ a b0 v, CtRecomp.wrRmw ⟨a, b0⟩ wide (zx v) = o.wrRmw a b0 v
  zero : zx 0 = 0
  getA : ∀ r : RegFile, r.m = !wide → CtRecomp.getA r = zx (o.reg r .A)
  index : ∀ r : RegFile, r.x = !wide → r.Narrow →
    r.X = zx (o.reg r .X) ∧ r.Y = zx (o.reg r .Y)
  setA : ∀ (r : RegFile) v, r.m = !wide → CtRecomp.setA r (zx v) = o.setA r v
  setRegA : ∀ (r : RegFile) v, r.m = !wide →
    o.setReg r .A v = nz (CtRecomp.setA r v) (CtRecomp.getA (CtRecomp.setA r v)) wide
  setRegX : ∀ (r : RegFile) v, r.x = !wide → o.setReg r .X v = setIndex r .X (idx r v)
  setRegY : ∀ (r : RegFile) v, r.x = !wide → o.setReg r .Y v = setIndex r .Y (idx r v)
  idx : ∀ (r : RegFile) v, r.x = !wide → idx r (zx v) = zx v
  adc : ∀ (r : RegFile) v, r.m = !wide → aluValue r 3 (zx v) = o.adc r v
  sbc : ∀ (r : RegFile) v, r.m = !wide → aluValue r 7 (zx v) = o.sbc r v
  cmp : ∀ r a v, compare r (zx a) (zx v) wide = o.cmp r a v
  push : ∀ r r' name, (if wide then pushw r (name.get r')
    else CtRecomp.push r ((name.get r').extractLsb' 0 8)) = o.push r (o.reg r' name)
  pull : ∀ r : RegFile, ∃ (src : BusM σ (BitVec n)) (S : BitVec 16),
    pullReg r wide = (src >>= fun v => return (zx v, { r with S })) ∧ o.pull r = pullReg r wide
  load : ∀ {mn kind f}, loadKind mn = some kind → o.loads mn = some f →
    ∀ (r : RegFile) v, r.m = !wide → (aluValue r kind (zx v) : BusM σ RegFile) = pure (f r v)
  loads : ∀ {mn f}, o.loads mn = some f →
    (∃ kind, loadKind mn = some kind) ∨ mn = .LDX ∨ mn = .LDY
  loadX : ∀ {f}, o.loads .LDX = some f →
    ∀ (r : RegFile) v, r.x = !wide → setIndex r .X (zx v) = f r v
  loadY : ∀ {f}, o.loads .LDY = some f →
    ∀ (r : RegFile) v, r.x = !wide → setIndex r .Y (zx v) = f r v
  bit : ∀ (r : RegFile) v imm, r.m = !wide → bitValue r (zx v) imm = o.bit r v imm
  rmw : ∀ {mn op f}, rmwKind mn = some op → o.rmw mn = some f →
    ∀ r v, CtRecomp.rmw r op (zx v) wide = (zx (f r v).1, (f r v).2)
  rmws : ∀ {mn f}, o.rmw mn = some f → (∃ op, rmwKind mn = some op) ∨ mn = .TSB ∨ mn = .TRB
  tsb : ∀ {f}, o.rmw .TSB = some f →
    ∀ (r : RegFile) v, r.m = !wide → testValue r (zx v) false = (zx (f r v).1, (f r v).2)
  trb : ∀ {f}, o.rmw .TRB = some f →
    ∀ (r : RegFile) v, r.m = !wide → testValue r (zx v) true = (zx (f r v).1, (f r v).2)

section

variable {σ : Type} [Board σ]

theorem nz_low (r : RegFile) (v : BitVec 16) : nz r v false = setNz8 r (v.extractLsb' 0 8) := by
  have hn : (v.extractLsb' 0 8).msb = v.getLsbD 7 := by
    simp [BitVec.msb_eq_getLsbD_last]
  simp only [nz, setNz8, Bool.false_eq_true, ↓reduceIte, and_ff, setWidth_eq_zero, hn]

theorem nz_narrow (r : RegFile) (v : BitVec 8) : nz r (v.setWidth 16) false = setNz8 r v := by
  rw [nz_low, extract_setWidth]

theorem nz_wide (r : RegFile) (v : BitVec 16) : nz r v true = setNz16 r v := by
  simp [nz, setNz16, BitVec.msb_eq_getLsbD_last]

theorem getA_narrow {r : RegFile} (h : r.m = true) : getA r = (a8 r).setWidth 16 := by
  simp only [getA, h, and_ff, a8, ↓reduceIte]

theorem getA_wide {r : RegFile} (h : r.m = false) : getA r = r.A := by
  simp only [getA, h, Bool.false_eq_true, ↓reduceIte]

theorem setA_narrow {r : RegFile} (h : r.m = true) (v : BitVec 8) :
    setA r (v.setWidth 16) = setA8 r v := by
  simp only [setA, h, setA8, setWidth_and_ff, ↓reduceIte]

theorem setA_wide {r : RegFile} (h : r.m = false) (v : BitVec 16) : setA r v = { r with A := v } := by
  simp only [setA, h, Bool.false_eq_true, ↓reduceIte]

theorem push_eq (r : RegFile) (v : BitVec 8) : (push r v : BusM σ RegFile) = push8 r v := by
  unfold push push8
  cases r.e <;> rfl

theorem pull_eq (r : RegFile) : (pull r : BusM σ (BitVec 8 × RegFile)) = pull8 r := by
  unfold pull pull8
  cases r.e <;> rfl

/-- S after a pull. -/
def pulledS (r : RegFile) : BitVec 16 := if r.e then 0x0100 ||| ((r.S + 1) &&& 0xFF) else r.S + 1

theorem pull8_eq (r : RegFile) :
    (pull8 r : BusM σ (BitVec 8 × RegFile)) =
      read8 (bank0 (pulledS r)) >>= fun v => return (v, { r with S := pulledS r }) := rfl

theorem pushw_eq (r : RegFile) (v : BitVec 16) : (pushw r v : BusM σ RegFile) = push16 r v := by
  simp only [pushw, push16, push_eq]

theorem pullw_eq (r : RegFile) : (pullw r : BusM σ (BitVec 16 × RegFile)) = pull16 r := by
  simp only [pullw, pull16, pull_eq]

theorem compare_narrow (r : RegFile) (a v : BitVec 8) :
    compare r (a.setWidth 16) (v.setWidth 16) false = cmp8 r a v := by
  have hle : v.setWidth 16 ≤ a.setWidth 16 ↔ v ≤ a := by
    rw [BitVec.le_def, BitVec.le_def, BitVec.toNat_setWidth_of_le (by decide),
      BitVec.toNat_setWidth_of_le (by decide)]
  simp only [compare, cmp8, Bool.false_eq_true, ↓reduceIte, setWidth_and_ff, hle, nz_low,
    extract_sub, extract_setWidth]

theorem compare_wide (r : RegFile) (a v : BitVec 16) : compare r a v true = cmp16 r a v := by
  simp only [compare, cmp16, ↓reduceIte, and_ffff, nz_wide]

omit [Board σ] in
theorem adc_narrow {r : RegFile} (h : r.m = true) (v : BitVec 8) :
    (aluValue r 3 (v.setWidth 16) : BusM σ RegFile) = adc8 r v := by
  have hx (x : BitVec 8) : (x.setWidth 16).setWidth 32 = x.setWidth 32 :=
    BitVec.setWidth_setWidth (by omega)
  have h80 : (0x80 : BitVec 32) = BitVec.twoPow 32 7 := rfl
  unfold aluValue add adc8
  cases hd : r.d with
  | true => simp only [↓reduceIte]; rfl
  | false =>
    simp only [h, getA_narrow h, Bool.not_true, Bool.false_eq_true, ↓reduceIte, hx, and_ff32,
      nz_narrow, h80, overflow_bit (a8 r) v _ 7 (by decide) (by decide), pure_bind]
    rw [setA_narrow rfl]
    rfl

omit [Board σ] in
theorem adc_wide {r : RegFile} (h : r.m = false) (v : BitVec 16) :
    (aluValue r 3 v : BusM σ RegFile) = adc16 r v := by
  have h8000 : (0x8000 : BitVec 32) = BitVec.twoPow 32 15 := rfl
  unfold aluValue add adc16
  cases hd : r.d with
  | true => simp only [↓reduceIte]; rfl
  | false =>
    simp only [h, getA_wide h, Bool.not_false, Bool.false_eq_true, ↓reduceIte, and_ffff32,
      nz_wide, h8000, overflow_bit r.A v _ 15 (by decide) (by decide), pure_bind]
    rw [setA_wide rfl]
    rfl

omit [Board σ] in
theorem sbc_narrow {r : RegFile} (h : r.m = true) (v : BitVec 8) :
    (aluValue r 7 (v.setWidth 16) : BusM σ RegFile) = sbc8 r v := by
  have hnot : ~~~(v.setWidth 16) &&& 0xFF = (~~~v).setWidth 16 := by
    rw [and_ff]
    congr 1
    ext i hi
    have h16 : i < 16 := by omega
    simp [h16, hi]
  have hadc := adc_narrow (σ := σ) h (~~~v)
  unfold aluValue at hadc ⊢
  simp only [h, Bool.not_true, Bool.false_eq_true, ↓reduceIte, hnot] at hadc ⊢
  rw [hadc]
  unfold sbc8 adc8
  cases r.d <;> rfl

omit [Board σ] in
theorem sbc_wide {r : RegFile} (h : r.m = false) (v : BitVec 16) :
    (aluValue r 7 v : BusM σ RegFile) = sbc16 r v := by
  have hadc := adc_wide (σ := σ) h (~~~v)
  unfold aluValue at hadc ⊢
  simp only [h, Bool.not_false, ↓reduceIte, and_ffff] at hadc ⊢
  rw [hadc]
  unfold sbc16 adc16
  cases r.d <;> rfl

theorem setRegA_narrow {r : RegFile} (h : r.m = true) (v : BitVec 16) :
    nz (setA r v) (getA (setA r v)) false =
      setNz8 (setA8 r (v.extractLsb' 0 8)) (a8 (setA8 r (v.extractLsb' 0 8))) := by
  have hset : setA r v = setA8 r (v.extractLsb' 0 8) := by
    simp only [setA, h, ↓reduceIte, setA8, and_ff]
  have hm : (setA8 r (v.extractLsb' 0 8)).m = true := h
  rw [hset, getA_narrow hm, nz_narrow]

theorem idx_narrow {r : RegFile} (h : r.x = true) (v : BitVec 16) :
    idx r v = (v.extractLsb' 0 8).setWidth 16 := by
  simp only [idx, h, ↓reduceIte, and_ff]

theorem idx_wide {r : RegFile} (h : r.x = false) (v : BitVec 16) : idx r v = v := by
  simp only [idx, h, Bool.false_eq_true, ↓reduceIte]

theorem rmw_narrow {mn : Mnemonic} {op : Rmw} {f : RegFile → BitVec 8 → BitVec 8 × RegFile}
    (hop : rmwKind mn = some op) (hf : (sized8 : Sized σ 8).rmw mn = some f) (r : RegFile)
    (v : BitVec 8) :
    rmw r op (v.setWidth 16) false = ((f r v).1.setWidth 16, (f r v).2) := by
  have htop : (v.setWidth 16 &&& 0x80 != 0) = v.msb := by
    have h := and_twoPow_ne_zero (v.setWidth 16) 7 (by decide)
    exact h.trans (msb_setWidth v)
  have hbit : (v.setWidth 16).getLsbD 0 = v.getLsbD 0 := by simp
  cases mn with
  | ASL =>
    obtain rfl : f = asl8 := (Option.some.inj hf).symm
    obtain rfl : op = .asl := (Option.some.inj hop).symm
    simp only [rmw, asl8, htop, and_ff, extract_shl, extract_setWidth, nz_narrow,
      Bool.false_eq_true, ↓reduceIte]
  | ROL =>
    obtain rfl : f = rol8 := (Option.some.inj hf).symm
    obtain rfl : op = .rol := (Option.some.inj hop).symm
    simp only [rmw, rol8, htop, and_ff, BitVec.extractLsb'_or, extract_shl, extract_setWidth,
      extract_ofBool, nz_narrow, Bool.false_eq_true, ↓reduceIte]
  | LSR =>
    obtain rfl : f = lsr8 := (Option.some.inj hf).symm
    obtain rfl : op = .lsr := (Option.some.inj hop).symm
    simp only [rmw, lsr8, hbit, and_ff, extract_shr, nz_narrow, Bool.false_eq_true,
      ↓reduceIte]
  | ROR =>
    obtain rfl : f = ror8 := (Option.some.inj hf).symm
    obtain rfl : op = .ror := (Option.some.inj hop).symm
    have hcarry : (if r.c then (0x80 : BitVec 16) else 0).extractLsb' 0 8 =
        (BitVec.ofBool r.c).setWidth 8 <<< 7 := by cases r.c <;> rfl
    simp only [rmw, ror8, hbit, and_ff, BitVec.extractLsb'_or, extract_shr, hcarry,
      nz_narrow, Bool.false_eq_true, ↓reduceIte]
  | INC =>
    obtain rfl : f = inc8 := (Option.some.inj hf).symm
    obtain rfl : op = .inc := (Option.some.inj hop).symm
    simp only [rmw, inc8, and_ff, extract_add, extract_setWidth, nz_narrow, Bool.false_eq_true,
      ↓reduceIte]
    rfl
  | DEC =>
    obtain rfl : f = dec8 := (Option.some.inj hf).symm
    obtain rfl : op = .dec := (Option.some.inj hop).symm
    simp only [rmw, dec8, and_ff, extract_sub, extract_setWidth, nz_narrow, Bool.false_eq_true,
      ↓reduceIte]
    rfl
  | _ => cases hop

theorem rmw_wide {mn : Mnemonic} {op : Rmw} {f : RegFile → BitVec 16 → BitVec 16 × RegFile}
    (hop : rmwKind mn = some op) (hf : (sized16 : Sized σ 16).rmw mn = some f) (r : RegFile)
    (v : BitVec 16) : rmw r op v true = f r v := by
  have htop : (v &&& 0x8000 != 0) = v.msb := by
    have h := and_twoPow_ne_zero v 15 (by decide)
    exact h.trans (by simp [BitVec.msb_eq_getLsbD_last])
  cases mn with
  | ASL =>
    obtain rfl : f = asl16 := (Option.some.inj hf).symm
    obtain rfl : op = .asl := (Option.some.inj hop).symm
    simp only [rmw, asl16, htop, and_ffff, nz_wide, ↓reduceIte]
  | ROL =>
    obtain rfl : f = rol16 := (Option.some.inj hf).symm
    obtain rfl : op = .rol := (Option.some.inj hop).symm
    simp only [rmw, rol16, htop, and_ffff, nz_wide, ↓reduceIte]
  | LSR =>
    obtain rfl : f = lsr16 := (Option.some.inj hf).symm
    obtain rfl : op = .lsr := (Option.some.inj hop).symm
    simp only [rmw, lsr16, and_ffff, nz_wide, ↓reduceIte]
  | ROR =>
    obtain rfl : f = ror16 := (Option.some.inj hf).symm
    obtain rfl : op = .ror := (Option.some.inj hop).symm
    have hcarry : (if r.c then (0x8000 : BitVec 16) else 0) =
        (BitVec.ofBool r.c).setWidth 16 <<< 15 := by cases r.c <;> rfl
    simp only [rmw, ror16, and_ffff, hcarry, nz_wide, ↓reduceIte]
  | INC =>
    obtain rfl : f = inc16 := (Option.some.inj hf).symm
    obtain rfl : op = .inc := (Option.some.inj hop).symm
    simp only [rmw, inc16, and_ffff, nz_wide, ↓reduceIte]
  | DEC =>
    obtain rfl : f = dec16 := (Option.some.inj hf).symm
    obtain rfl : op = .dec := (Option.some.inj hop).symm
    simp only [rmw, dec16, and_ffff, nz_wide, ↓reduceIte]
  | _ => cases hop

theorem load_narrow {mn : Mnemonic} {kind : Nat} {f : RegFile → BitVec 8 → RegFile}
    (hk : loadKind mn = some kind) (hf : (sized8 : Sized σ 8).loads mn = some f) {r : RegFile}
    (h : r.m = true) (v : BitVec 8) :
    (aluValue r kind (v.setWidth 16) : BusM σ RegFile) = pure (f r v) := by
  have hlow (u : BitVec 8) : a8 (setA8 r u) = u := by
    have hhigh : (0xFF00 : BitVec 16).extractLsb' 0 8 = 0 := rfl
    simp only [a8, setA8, BitVec.extractLsb'_or, BitVec.extractLsb'_and, hhigh, extract_setWidth]
    simp
  have hset (u : BitVec 8) : setA (setNz8 r u) (u.setWidth 16) = setNz8 (setA8 r u) u :=
    setA_narrow (r := setNz8 r u) h u
  cases mn with
  | LDA =>
    obtain rfl : f = lda8 := (Option.some.inj hf).symm
    obtain rfl : kind = 5 := (Option.some.inj hk).symm
    simp only [aluValue, h, Bool.not_true, nz_narrow, hset, lda8]
  | ORA =>
    obtain rfl : f = ora8 := (Option.some.inj hf).symm
    obtain rfl : kind = 0 := (Option.some.inj hk).symm
    simp only [aluValue, h, Bool.not_true, getA_narrow h, ← BitVec.setWidth_or, nz_narrow, hset,
      ora8, hlow]
  | AND =>
    obtain rfl : f = and8 := (Option.some.inj hf).symm
    obtain rfl : kind = 1 := (Option.some.inj hk).symm
    simp only [aluValue, h, Bool.not_true, getA_narrow h, ← BitVec.setWidth_and, nz_narrow, hset,
      and8, hlow]
  | EOR =>
    obtain rfl : f = eor8 := (Option.some.inj hf).symm
    obtain rfl : kind = 2 := (Option.some.inj hk).symm
    simp only [aluValue, h, Bool.not_true, getA_narrow h, ← BitVec.setWidth_xor, nz_narrow, hset,
      eor8, hlow]
  | _ => cases hk

theorem load_wide {mn : Mnemonic} {kind : Nat} {f : RegFile → BitVec 16 → RegFile}
    (hk : loadKind mn = some kind) (hf : (sized16 : Sized σ 16).loads mn = some f) {r : RegFile}
    (h : r.m = false) (v : BitVec 16) : (aluValue r kind v : BusM σ RegFile) = pure (f r v) := by
  have hset (u : BitVec 16) : setA (setNz16 r u) u = setNz16 { r with A := u } u :=
    setA_wide (r := setNz16 r u) h u
  cases mn with
  | LDA =>
    obtain rfl : f = lda16 := (Option.some.inj hf).symm
    obtain rfl : kind = 5 := (Option.some.inj hk).symm
    simp only [aluValue, h, Bool.not_false, nz_wide, hset, lda16]
  | ORA =>
    obtain rfl : f = ora16 := (Option.some.inj hf).symm
    obtain rfl : kind = 0 := (Option.some.inj hk).symm
    simp only [aluValue, h, Bool.not_false, getA_wide h, nz_wide, hset, ora16]
  | AND =>
    obtain rfl : f = and16 := (Option.some.inj hf).symm
    obtain rfl : kind = 1 := (Option.some.inj hk).symm
    simp only [aluValue, h, Bool.not_false, getA_wide h, nz_wide, hset, and16]
  | EOR =>
    obtain rfl : f = eor16 := (Option.some.inj hf).symm
    obtain rfl : kind = 2 := (Option.some.inj hk).symm
    simp only [aluValue, h, Bool.not_false, getA_wide h, nz_wide, hset, eor16]
  | _ => cases hk

theorem bit_narrow {r : RegFile} (h : r.m = true) (v : BitVec 8) (imm : Bool) :
    bitValue r (v.setWidth 16) imm = bit8 r v imm := by
  have h7 : (v.setWidth 16).getLsbD 7 = v.getLsbD 7 := by simp
  have h6 : (v.setWidth 16).getLsbD 6 = v.getLsbD 6 := by simp
  simp only [bitValue, bit8, h, getA_narrow h, ← BitVec.setWidth_and, setWidth_eq_zero,
    Bool.not_true, Bool.false_eq_true, ↓reduceIte, h7, h6]

theorem sized8_agrees : (sized8 : Sized σ 8).Agrees false (·.setWidth 16) where
  imm _ := rfl
  rd a b0 := by simp [CtRecomp.rd, sized8]
  wr a b0 v := by simp [CtRecomp.wr, sized8, extract_setWidth]
  wrRmw a b0 v := by simp [CtRecomp.wrRmw, sized8, extract_setWidth]
  zero := rfl
  getA r h := getA_narrow (by simpa using h)
  index r h hn := by
    have hx : r.x = true := by simpa using h
    exact ⟨eq_setWidth_of_lt (hn hx).1, eq_setWidth_of_lt (hn hx).2⟩
  setA r v h := setA_narrow (by simpa using h) v
  setRegA r v h := (setRegA_narrow (by simpa using h) v).symm
  setRegX r v h := by
    have hx : r.x = true := by simpa using h
    rw [idx_narrow hx, setIndex, hx, Bool.not_true, nz_narrow]
    simp only [sized8, Reg.set, Reg.get, Index.set, extract_setWidth]
  setRegY r v h := by
    have hx : r.x = true := by simpa using h
    rw [idx_narrow hx, setIndex, hx, Bool.not_true, nz_narrow]
    simp only [sized8, Reg.set, Reg.get, Index.set, extract_setWidth]
  idx r v h := by
    have hx : r.x = true := by simpa using h
    rw [idx_narrow hx, extract_setWidth]
  adc r v h := adc_narrow (by simpa using h) v
  sbc r v h := sbc_narrow (by simpa using h) v
  cmp := compare_narrow
  push r r' name := by
    simp only [Bool.false_eq_true, ↓reduceIte, push_eq]
    rfl
  pull r := by
    refine ⟨read8 (bank0 (pulledS r)), pulledS r, ?_, ?_⟩
    · simp only [pullReg, Bool.false_eq_true, ↓reduceIte, pull_eq, pull8_eq, bind_assoc, pure_bind]
    · simp only [pullReg, Bool.false_eq_true, ↓reduceIte, pull_eq]
      rfl
  load hk hf r v h := load_narrow hk hf (by simpa using h) v
  loads {mn f} hf := by
    cases mn with
    | LDA | ORA | AND | EOR => exact .inl ⟨_, rfl⟩
    | LDX => exact .inr (.inl rfl)
    | LDY => exact .inr (.inr rfl)
    | _ => cases hf
  loadX hf r v h := by
    obtain rfl := (Option.some.inj hf).symm
    have hx : r.x = true := by simpa using h
    rw [setIndex, hx, Bool.not_true, nz_narrow]
    rfl
  loadY hf r v h := by
    obtain rfl := (Option.some.inj hf).symm
    have hx : r.x = true := by simpa using h
    rw [setIndex, hx, Bool.not_true, nz_narrow]
    rfl
  bit r v imm h := bit_narrow (by simpa using h) v imm
  rmw hop hf := rmw_narrow hop hf
  rmws {mn f} hf := by
    cases mn with
    | ASL | ROL | LSR | ROR | INC | DEC => exact .inl ⟨_, rfl⟩
    | TSB => exact .inr (.inl rfl)
    | TRB => exact .inr (.inr rfl)
    | _ => cases hf
  tsb hf r v h := by
    obtain rfl := (Option.some.inj hf).symm
    simp only [testValue, tsb8, getA_narrow (by simpa using h), ← BitVec.setWidth_and,
      ← BitVec.setWidth_or, setWidth_eq_zero, Bool.false_eq_true, ↓reduceIte]
  trb hf r v h := by
    obtain rfl := (Option.some.inj hf).symm
    simp only [testValue, trb8, getA_narrow (by simpa using h), ← BitVec.setWidth_and,
      setWidth_and_not, setWidth_eq_zero, ↓reduceIte]

theorem sized16_agrees : (sized16 : Sized σ 16).Agrees true id where
  imm _ := rfl
  rd a b0 := by cases b0 <;> simp [CtRecomp.rd, sized16, read16B0, read16, EA.next]
  wr a b0 v := by cases b0 <;> simp [CtRecomp.wr, sized16, write16B0, write16, EA.next]
  wrRmw a b0 v := by cases b0 <;> simp [CtRecomp.wrRmw, sized16, write16B0Rmw, write16Rmw, EA.next]
  zero := rfl
  getA r h := getA_wide (by simpa using h)
  index _ _ _ := ⟨rfl, rfl⟩
  setA r v h := setA_wide (by simpa using h) v
  setRegA r v h := by
    have hm : r.m = false := by simpa using h
    rw [setA_wide hm, getA_wide (by exact hm), nz_wide]
    rfl
  setRegX r v h := by
    have hx : r.x = false := by simpa using h
    rw [idx_wide hx, setIndex, hx, Bool.not_false, nz_wide]
    rfl
  setRegY r v h := by
    have hx : r.x = false := by simpa using h
    rw [idx_wide hx, setIndex, hx, Bool.not_false, nz_wide]
    rfl
  idx r v h := idx_wide (by simpa using h) v
  adc r v h := adc_wide (by simpa using h) v
  sbc r v h := sbc_wide (by simpa using h) v
  cmp := compare_wide
  push r r' name := by
    simp only [↓reduceIte, pushw_eq]
    rfl
  pull r := by
    refine ⟨?_, pulledS { r with S := pulledS r }, ?_, ?_⟩
    · exact do
        let lo ← read8 (bank0 (pulledS r))
        let hi ← read8 (bank0 (pulledS { r with S := pulledS r }))
        return hi ++ lo
    · simp only [pullReg, ↓reduceIte, pullw_eq, pull16, pull8_eq, bind_assoc, pure_bind]
      rfl
    · simp only [pullReg, ↓reduceIte, pullw_eq]
      rfl
  load hk hf r v h := load_wide hk hf (by simpa using h) v
  loads {mn f} hf := by
    cases mn with
    | LDA | ORA | AND | EOR => exact .inl ⟨_, rfl⟩
    | LDX => exact .inr (.inl rfl)
    | LDY => exact .inr (.inr rfl)
    | _ => cases hf
  loadX hf r v h := by
    obtain rfl := (Option.some.inj hf).symm
    have hx : r.x = false := by simpa using h
    rw [setIndex, hx, Bool.not_false, id, nz_wide]
    rfl
  loadY hf r v h := by
    obtain rfl := (Option.some.inj hf).symm
    have hx : r.x = false := by simpa using h
    rw [setIndex, hx, Bool.not_false, id, nz_wide]
    rfl
  bit r v imm h := by
    have hm : r.m = false := by simpa using h
    simp only [bitValue, sized16, bit16, hm, id, getA_wide hm, Bool.not_false, ↓reduceIte]
  rmw hop hf := rmw_wide hop hf
  rmws {mn f} hf := by
    cases mn with
    | ASL | ROL | LSR | ROR | INC | DEC => exact .inl ⟨_, rfl⟩
    | TSB => exact .inr (.inl rfl)
    | TRB => exact .inr (.inr rfl)
    | _ => cases hf
  tsb hf r v h := by
    obtain rfl := (Option.some.inj hf).symm
    simp only [testValue, getA_wide (by simpa using h)]
    rfl
  trb hf r v h := by
    obtain rfl := (Option.some.inj hf).symm
    simp only [testValue, getA_wide (by simpa using h)]
    rfl

end

end CtRecomp
