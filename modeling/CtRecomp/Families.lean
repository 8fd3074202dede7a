import CtRecomp.StepBy
import CtRecomp.Fetch
import CtRecomp.Widths
namespace CtRecomp

/-! Each family of templates against the interpreter's `step`. -/

variable {σ : Type} [Board σ]

theorem low_bank0_add (a k : BitVec 16) : low (bank0 a + k.setWidth 24) = a + k := by
  unfold low bank0
  rw [← BitVec.setWidth_eq_extractLsb' (by decide : 16 ≤ 24)]
  bv_omega

theorem rdBank0_16_eq (a : BitVec 16) : (rdBank0_16 a : BusM σ (BitVec 16)) = read16B0 (bank0 a) := by
  have h : nextB0 (bank0 a) = bank0 (a + 1) := congrArg bank0 (low_bank0_add a 1)
  unfold rdBank0_16 read16B0
  rw [h]

theorem rdBank0_24_eq (r : RegFile) (d : BitVec 8) :
    (rdBank0_24 (r.DP + d.setWidth 16) : BusM σ (BitVec 24)) = eaDpIndLong r d := by
  have h : low (eaDp r d + 2) = r.DP + d.setWidth 16 + 2 := low_bank0_add _ 2
  simp only [rdBank0_24, eaDpIndLong, rdBank0_16_eq, h]
  rfl

theorem Insn.Decoded.size_eq {i : Insn} (hd : i.Decoded) {n : Nat}
    (h : operandBytes i.mode i.m i.x = some n) : i.size = n + 1 := by
  have hs := hd.size
  rw [h] at hs
  have hn : n = i.size - 1 := Option.some.inj hs
  have hp := hd.pos
  omega

/-- The effective address of a mode: the interpreter's, after its fetches, is
the template's. -/
theorem ea_placed {α : Type} {c : Exec} {w : Wire σ} {i : Insn} {b0 : Bool}
    {f : Insn → RegFile → BusM σ (BitVec 24)} (hf : eaTemplate i.mode = some (f, b0))
    (hd : i.Decoded) (hl : Located c w.bus i) (k : EA × Exec → BusM σ α) :
    (ea c (imode i.mode) >>= k) w =
      (f i c.toRegFile >>= fun a => k (⟨a, b0⟩, c.after w.bus i)) { w with mdr := i.last } := by
  have hs {n : Nat} := hd.size_eq (n := n)
  revert hf hs
  cases i.mode with
  | dp | dpX | dpY | dpInd | dpXInd | dpIndY | dpIndLong | dpIndLongY | sr | srIndY =>
    intro hf hs
    cases hf
    simp only [imode, ea, eaDpInd, eaDpXInd, eaDpIndY, eaDpIndLongY, eaSrIndY, rdBank0_16_eq,
      rdBank0_24_eq, bind_assoc, pure_bind]
    rw [fetch8_operand hl (hs rfl)]
    rfl
  | abs | absX | absY =>
    intro hf hs
    cases hf
    simp only [imode, ea, eaAbsX, eaAbsY, bind_assoc, pure_bind]
    rw [fetch16_operand hl (hs rfl)]
    rfl
  | long | longX =>
    intro hf hs
    cases hf
    simp only [imode, ea, bind_assoc, pure_bind]
    exact fetch24_operand hl (hs rfl) _
  | _ =>
    intro hf
    cases hf


theorem imode_ne_imm {md : AddrMode} {f : (Insn → RegFile → BusM σ (BitVec 24)) × Bool}
    (h : eaTemplate md = some f) : imode md ≠ .imm := by
  cases md <;> first | exact IMode.noConfusion | cases h

section

variable {n : Nat} {o : Sized σ n} {wide : Bool} {zx : BitVec n → BitVec 16}
variable {c : Exec} {w : Wire σ} {i : Insn}

theorem operand_placed {α : Type} {val : Insn → RegFile → BusM σ (BitVec n)}
    (ho : o.Agrees wide zx) (hv : value o i.mode = some val) (hd : i.Decoded)
    (hl : Located c w.bus i)
    (himm : i.mode = .immM ∨ i.mode = .immX → i.size = if wide then 3 else 2)
    (k : BitVec 16 × Exec → BusM σ α) :
    (operand c (imode i.mode) wide >>= k) w =
      (val i c.toRegFile >>= fun v => k (zx v, c.after w.bus i)) { w with mdr := i.last } := by
  unfold value at hv
  split at hv
  next hmd =>
    obtain rfl := (Option.some.inj hv).symm
    have himode : imode i.mode = .imm := by rcases hmd with h | h <;> rw [h] <;> rfl
    have hsize := himm hmd
    rw [himode]
    cases wide with
    | true =>
      simp only [operand, ↓reduceIte, pure_bind, ho.imm]
      rw [fetch16_operand hl hsize]
    | false =>
      simp only [operand, ↓reduceIte, Bool.false_eq_true, pure_bind, bind_assoc, ho.imm]
      rw [fetch8_operand hl hsize]
  next hmd =>
    obtain ⟨⟨f, b0⟩, hf, hval⟩ := Option.map_eq_some_iff.mp hv
    subst hval
    simp only [operand, imode_ne_imm hf, ↓reduceIte, bind_assoc, pure_bind]
    rw [ea_placed hf hd hl]
    simp only [ho.rd, map_eq_pure_bind, bind_assoc, pure_bind]

/-- The interpreter's `s` does what the statements `f` do, the operand of `i`
fetched. -/
def Matches (s : BusM σ Exec) (c : Exec) (w : Wire σ) (i : Insn)
    (f : Insn → RegFile → BusM σ RegFile) : Prop :=
  s w = (f i c.toRegFile >>= fun r => return (c.after w.bus i).setRegs r)
    { w with mdr := i.last }

/-- The widths an instruction depends on are the CPU's. -/
def WidthOf (mn : Mnemonic) (c : RegFile) (wide : Bool) : Prop :=
  match widthDependency mn with
  | some .m => c.m = !wide
  | some .x => c.x = !wide
  | none => True

theorem stepBy_load {mn : Mnemonic} {kind : Nat} (hk : loadKind mn = some kind) (h : Host σ)
    (c : Exec) (site : BitVec 24) (md : AddrMode) :
    stepBy h c site mn md = aluBy c kind (imode md) := by
  cases mn with
  | LDA | ORA | AND | EOR => cases hk; rfl
  | _ => cases hk

theorem stepBy_rmw {mn : Mnemonic} {op : Rmw} (hk : rmwKind mn = some op) (h : Host σ)
    (c : Exec) (site : BitVec 24) (md : AddrMode) : stepBy h c site mn md = rmwBy c op md := by
  cases mn with
  | ASL | ROL | LSR | ROR | INC | DEC => cases hk; rfl
  | _ => cases hk

theorem widthOf_rmw {mn : Mnemonic} {op : Rmw} (hk : rmwKind mn = some op) {r : RegFile}
    (hw : WidthOf mn r wide) : r.m = !wide := by
  cases mn with
  | ASL | ROL | LSR | ROR | INC | DEC => exact hw
  | _ => cases hk

theorem rmw_m (r : RegFile) (op : Rmw) (v : BitVec 16) (wide : Bool) :
    (rmw r op v wide).2.m = r.m := by
  cases op <;> cases wide <;> rfl

theorem setA_m (r : RegFile) (v : BitVec 16) : (setA r v).m = r.m := by
  unfold setA
  split <;> rfl

theorem Located.after_one (hl : Located c w.bus i) (hs : i.size = 1) : c.after w.bus i = c := by
  rw [← c.part_after w.bus (n := 0) hs, hl.part_zero]

omit [Board σ] in
theorem Wire.last_one (hmdr : w.mdr = i.opcode) (hs : i.size = 1) :
    { w with mdr := i.last } = w := by
  have hlast : i.last = w.mdr := by simp [Insn.last, hs, hmdr]
  rw [hlast]

/-- Registers and stack only: no operand to fetch. -/
theorem implied_matches {s : BusM σ Exec} {f : Insn → RegFile → BusM σ RegFile}
    (hl : Located c w.bus i) (hmdr : w.mdr = i.opcode) (hs : i.size = 1)
    (h : s = f i c.toRegFile >>= fun r => return c.setRegs r) : Matches s c w i f := by
  unfold Matches
  rw [hl.after_one hs, Wire.last_one hmdr hs, h]

theorem widthOf_load {mn : Mnemonic} {kind : Nat} (hk : loadKind mn = some kind) {r : RegFile}
    (hw : WidthOf mn r wide) : r.m = !wide := by
  cases mn with
  | LDA | ORA | AND | EOR => exact hw
  | _ => cases hk

theorem not_of_eq_not {a b : Bool} (h : a = !b) : (!a) = b := by rw [h, Bool.not_not]

theorem imode_imm_iff {val : Insn → RegFile → BusM σ (BitVec n)} {md : AddrMode}
    (hv : value o md = some val) (hx : md ≠ .immX) : imode md = .imm ↔ md = .immM := by
  unfold value at hv
  split at hv
  next hmd =>
    have hm : md = .immM := hmd.resolve_right hx
    rw [hm]
    exact ⟨fun _ => rfl, fun _ => rfl⟩
  next hmd =>
    obtain ⟨p, hf, -⟩ := Option.map_eq_some_iff.mp hv
    exact ⟨fun h => absurd h (imode_ne_imm hf), fun h => absurd (.inl h) hmd⟩

section

variable (ho : o.Agrees wide zx) (hd : i.Decoded) (hl : Located c w.bus i)
include ho hd hl

/-- A value fetched or read, then `g` on the registers and the value. -/
theorem value_matches {val : Insn → RegFile → BusM σ (BitVec n)} {s : BusM σ Exec}
    {g : RegFile → BitVec 16 → BusM σ RegFile} {f : RegFile → BitVec n → BusM σ RegFile}
    (hv : value o i.mode = some val)
    (himm : i.mode = .immM ∨ i.mode = .immX → i.size = if wide then 3 else 2)
    (hs : s = operand c (imode i.mode) wide >>= fun p =>
      g p.2.toRegFile p.1 >>= fun r => return p.2.setRegs r)
    (hf : ∀ v, g c.toRegFile (zx v) = f c.toRegFile v) :
    Matches s c w i fun i r => val i r >>= f r := by
  unfold Matches
  rw [hs, operand_placed ho hv hd hl himm]
  simp only [Exec.after_toRegFile, hf, bind_assoc]

theorem aluBy_matches {val : Insn → RegFile → BusM σ (BitVec n)} {kind : Nat}
    {f : RegFile → BitVec n → BusM σ RegFile} (hv : value o i.mode = some val)
    (himm : i.mode = .immM ∨ i.mode = .immX → i.size = if wide then 3 else 2)
    (hm : c.m = !wide) (hf : ∀ v, aluValue c.toRegFile kind (zx v) = f c.toRegFile v) :
    Matches (aluBy c kind (imode i.mode)) c w i fun i r => val i r >>= f r := by
  refine value_matches (g := fun r v => aluValue r kind v) ho hd hl hv himm ?_ hf
  unfold aluBy
  rw [not_of_eq_not hm]

theorem loadIndex_matches {val : Insn → RegFile → BusM σ (BitVec n)} {ix : Index}
    {f : RegFile → BitVec n → RegFile} (hv : value o i.mode = some val)
    (himm : i.mode = .immM ∨ i.mode = .immX → i.size = if wide then 3 else 2)
    (hx : c.x = !wide) (hf : ∀ v, setIndex c.toRegFile ix (zx v) = f c.toRegFile v) :
    Matches (loadIndex c ix (imode i.mode)) c w i fun i r => val i r >>= fun v => pure (f r v) := by
  refine value_matches ho hd hl (g := fun r v => pure (setIndex r ix v)) hv himm ?_ fun v => ?_
  · unfold loadIndex
    rw [not_of_eq_not hx]
    simp only [pure_bind]
  · rw [hf]

theorem load_matches {t : Template σ} (h : Host σ) (site : BitVec 24)
    (ht : loadTemplate o i.mnemonic i.mode = some t)
    (himm : i.mode = .immM ∨ i.mode = .immX → i.size = if wide then 3 else 2)
    (hw : WidthOf i.mnemonic c.toRegFile wide) :
    ∃ f, t = .body f ∧ Matches (stepBy h c site i.mnemonic i.mode) c w i f := by
  obtain ⟨load, hload, ht⟩ := Option.bind_eq_some_iff.mp ht
  obtain ⟨val, hval, ht⟩ := Option.bind_eq_some_iff.mp ht
  obtain rfl := (Option.some.inj ht).symm
  refine ⟨_, rfl, ?_⟩
  rcases ho.loads hload with ⟨kind, hk⟩ | hmn | hmn
  · have hm := widthOf_load hk hw
    rw [stepBy_load hk]
    exact aluBy_matches (f := fun r v => pure (load r v)) ho hd hl hval himm hm
      fun v => ho.load hk hload _ v hm
  · rw [hmn] at hload hw ⊢
    exact loadIndex_matches ho hd hl hval himm hw fun v => ho.loadX hload _ v hw
  · rw [hmn] at hload hw ⊢
    exact loadIndex_matches ho hd hl hval himm hw fun v => ho.loadY hload _ v hw

theorem arith_matches {t : Template σ} (h : Host σ) (site : BitVec 24)
    (ht : arithTemplate o i.mnemonic i.mode = some t)
    (himm : i.mode = .immM ∨ i.mode = .immX → i.size = if wide then 3 else 2)
    (hw : WidthOf i.mnemonic c.toRegFile wide) :
    ∃ f, t = .body f ∧ Matches (stepBy h c site i.mnemonic i.mode) c w i f := by
  obtain ⟨op, hop, ht⟩ := Option.bind_eq_some_iff.mp ht
  obtain ⟨val, hval, ht⟩ := Option.bind_eq_some_iff.mp ht
  obtain rfl := (Option.some.inj ht).symm
  refine ⟨_, rfl, ?_⟩
  revert hop hw
  cases i.mnemonic with
  | ADC =>
    intro hw hop
    cases hop
    exact aluBy_matches ho hd hl hval himm hw fun v => ho.adc _ v hw
  | SBC =>
    intro hw hop
    cases hop
    exact aluBy_matches ho hd hl hval himm hw fun v => ho.sbc _ v hw
  | _ =>
    intro _ hop
    cases hop

theorem compareIndex_matches {val : Insn → RegFile → BusM σ (BitVec n)} {ix : Index}
    {a : RegFile → BitVec n} (hv : value o i.mode = some val)
    (himm : i.mode = .immM ∨ i.mode = .immX → i.size = if wide then 3 else 2)
    (hx : c.x = !wide) (ha : ix.get c.toRegFile = zx (a c.toRegFile)) :
    Matches (compareIndex c ix (imode i.mode)) c w i fun i r =>
      val i r >>= fun v => pure (o.cmp r (a r) v) := by
  refine value_matches ho hd hl (g := fun r v => pure (compare r (ix.get r) v (!r.x))) hv himm ?_
    fun v => ?_
  · unfold compareIndex
    rw [not_of_eq_not hx]
    simp only [pure_bind]
  · rw [ha, not_of_eq_not hx, ho.cmp]

theorem cmp_matches {t : Template σ} (h : Host σ) (site : BitVec 24)
    (ht : cmpTemplate o i.mnemonic i.mode = some t)
    (himm : i.mode = .immM ∨ i.mode = .immX → i.size = if wide then 3 else 2)
    (hw : WidthOf i.mnemonic c.toRegFile wide) (hn : c.toRegFile.Narrow) :
    ∃ f, t = .body f ∧ Matches (stepBy h c site i.mnemonic i.mode) c w i f := by
  obtain ⟨reg, hreg, ht⟩ := Option.bind_eq_some_iff.mp ht
  obtain ⟨val, hval, ht⟩ := Option.bind_eq_some_iff.mp ht
  obtain rfl := (Option.some.inj ht).symm
  refine ⟨_, rfl, ?_⟩
  revert hw hreg
  cases i.mnemonic with
  | CMP =>
    intro hw hreg
    cases hreg
    have hm : c.m = !wide := hw
    refine aluBy_matches (f := fun r v => pure (o.cmp r (o.reg r .A) v)) ho hd hl hval himm hm
      fun v => ?_
    simp only [aluValue, ho.getA _ hm, not_of_eq_not hm, ho.cmp]
  | CPX =>
    intro hw hreg
    cases hreg
    exact compareIndex_matches ho hd hl hval himm hw (ho.index _ hw hn).1
  | CPY =>
    intro hw hreg
    cases hreg
    exact compareIndex_matches ho hd hl hval himm hw (ho.index _ hw hn).2
  | _ =>
    intro _ hreg
    cases hreg

theorem bit_matches {t : Template σ} (h : Host σ) (site : BitVec 24)
    (ht : bitTemplate o i.mnemonic i.mode = some t)
    (himm : i.mode = .immM ∨ i.mode = .immX → i.size = if wide then 3 else 2)
    (hw : WidthOf i.mnemonic c.toRegFile wide) (hix : i.mode ≠ .immX) :
    ∃ f, t = .body f ∧ Matches (stepBy h c site i.mnemonic i.mode) c w i f := by
  unfold bitTemplate at ht
  split at ht
  next hmn =>
    obtain ⟨val, hval, ht⟩ := Option.bind_eq_some_iff.mp ht
    obtain rfl := (Option.some.inj ht).symm
    refine ⟨_, rfl, ?_⟩
    rw [hmn] at hw ⊢
    have hm : c.m = !wide := hw
    refine value_matches ho hd hl (g := fun r v => pure (bitValue r v (imode i.mode = .imm)))
      hval himm ?_ fun v => ?_
    · unfold stepBy bitTest
      rw [not_of_eq_not hm]
      simp only [pure_bind]
    · rw [ho.bit _ _ _ hm]
      simp only [imode_imm_iff hval hix]
  next => cases ht

/-- An address, then a write of a register at width `q`. -/
theorem wr_matches {s : BusM σ Exec} {b0 : Bool} {f : Insn → RegFile → BusM σ (BitVec 24)}
    {q : RegFile → Bool} {v : RegFile → BitVec 16} {src : RegFile → BitVec n}
    (hf : eaTemplate i.mode = some (f, b0))
    (hs : s = ea c (imode i.mode) >>= fun p =>
      wr p.1 (q p.2.toRegFile) (v p.2.toRegFile) >>= fun _ => return p.2)
    (hq : q c.toRegFile = wide) (hv : v c.toRegFile = zx (src c.toRegFile)) :
    Matches s c w i fun i r => do
      let a ← f i r
      o.wr a b0 (src r)
      return r := by
  unfold Matches
  rw [hs, ea_placed hf hd hl]
  simp only [Exec.after_toRegFile, hq, hv, ho.wr, bind_assoc, pure_bind]
  rfl

theorem store_matches {t : Template σ} (h : Host σ) (site : BitVec 24)
    (ht : storeTemplate o i.mnemonic i.mode = some t)
    (hw : WidthOf i.mnemonic c.toRegFile wide) (hn : c.toRegFile.Narrow) :
    ∃ f, t = .body f ∧ Matches (stepBy h c site i.mnemonic i.mode) c w i f := by
  obtain ⟨src, hsrc, ht⟩ := Option.bind_eq_some_iff.mp ht
  obtain ⟨⟨f, b0⟩, hf, ht⟩ := Option.bind_eq_some_iff.mp ht
  obtain rfl := (Option.some.inj ht).symm
  refine ⟨_, rfl, ?_⟩
  revert hw hsrc
  cases i.mnemonic with
  | STA =>
    intro hw hsrc
    cases hsrc
    have hm : c.m = !wide := hw
    refine wr_matches (q := fun r => !r.m) (v := getA) ho hd hl hf ?_ (not_of_eq_not hm)
      (ho.getA _ hm)
    unfold stepBy sta
    simp only [imode_ne_imm hf, ↓reduceIte]
  | STX =>
    intro hw hsrc
    cases hsrc
    exact wr_matches (q := fun r => !r.x) (v := fun r => r.X) ho hd hl hf rfl (not_of_eq_not hw)
      (ho.index _ hw hn).1
  | STY =>
    intro hw hsrc
    cases hsrc
    exact wr_matches (q := fun r => !r.x) (v := fun r => r.Y) ho hd hl hf rfl (not_of_eq_not hw)
      (ho.index _ hw hn).2
  | STZ =>
    intro hw hsrc
    cases hsrc
    exact wr_matches (q := fun r => !r.m) (v := fun _ => 0) ho hd hl hf rfl (not_of_eq_not hw)
      ho.zero.symm
  | _ =>
    intro _ hsrc
    cases hsrc

/-- A read-modify-write of memory: `g` in the interpreter, `op` emitted. -/
theorem rmwMem_matches {s : BusM σ Exec} {b0 : Bool} {f : Insn → RegFile → BusM σ (BitVec 24)}
    {g : RegFile → BitVec 16 → BitVec 16 × RegFile} {op : RegFile → BitVec n → BitVec n × RegFile}
    (hf : eaTemplate i.mode = some (f, b0)) (hm : c.m = !wide)
    (hs : s = ea c (imode i.mode) >>= fun p => rd p.1 (!p.2.m) >>= fun v =>
      wrRmw p.1 (!p.2.m) (g p.2.toRegFile v).1 >>= fun _ =>
      return p.2.setRegs (g p.2.toRegFile v).2)
    (hg : ∀ v, g c.toRegFile (zx v) = (zx (op c.toRegFile v).1, (op c.toRegFile v).2)) :
    Matches s c w i fun i r => do
      let a ← f i r
      let v ← o.rd a b0
      let (v, r) := op r v
      o.wrRmw a b0 v
      return r := by
  unfold Matches
  rw [hs, ea_placed hf hd hl]
  simp only [Exec.after_toRegFile, not_of_eq_not hm, ho.rd, map_eq_pure_bind, hg, ho.wrRmw,
    bind_assoc, pure_bind]

theorem rmw_matches {t : Template σ} (h : Host σ) (site : BitVec 24)
    (ht : rmwTemplate o i.mnemonic i.mode = some t) (hmdr : w.mdr = i.opcode)
    (hacc : i.mode = .acc → ∃ op, rmwKind i.mnemonic = some op)
    (hw : WidthOf i.mnemonic c.toRegFile wide) :
    ∃ f, t = .body f ∧ Matches (stepBy h c site i.mnemonic i.mode) c w i f := by
  obtain ⟨f, hf, ht⟩ := Option.bind_eq_some_iff.mp ht
  split at ht
  next hmode =>
    obtain rfl := (Option.some.inj ht).symm
    obtain ⟨op, hk⟩ := hacc hmode
    have hm := widthOf_rmw hk hw
    have hs : i.size = 1 := hd.size_eq (by rw [hmode]; rfl)
    refine ⟨_, rfl, implied_matches hl hmdr hs ?_⟩
    have hg := ho.rmw hk hf c.toRegFile (o.reg c.toRegFile .A)
    have hm' : (f c.toRegFile (o.reg c.toRegFile .A)).2.m = !wide := by
      have hkeep := rmw_m c.toRegFile op (zx (o.reg c.toRegFile .A)) wide
      rw [hg] at hkeep
      exact hkeep.trans hm
    rw [stepBy_rmw hk, rmwBy, if_pos hmode]
    unfold rmwAcc
    rw [not_of_eq_not hm, ho.getA _ hm, hg]
    simp only [ho.setA _ _ hm', pure_bind]
  next hmode =>
    obtain ⟨⟨ea, b0⟩, hea, ht⟩ := Option.bind_eq_some_iff.mp ht
    obtain rfl := (Option.some.inj ht).symm
    refine ⟨_, rfl, ?_⟩
    rcases ho.rmws hf with ⟨op, hk⟩ | hmn | hmn
    · have hm := widthOf_rmw hk hw
      rw [stepBy_rmw hk, rmwBy, if_neg hmode]
      refine rmwMem_matches (g := fun r v => rmw r op v (!r.m)) ho hd hl hea hm rfl fun v => ?_
      rw [not_of_eq_not hm]
      exact ho.rmw hk hf _ v
    · rw [hmn] at hf hw ⊢
      exact rmwMem_matches (g := fun r v => testValue r v false) ho hd hl hea hw rfl
        fun v => ho.tsb hf _ v hw
    · rw [hmn] at hf hw ⊢
      exact rmwMem_matches (g := fun r v => testValue r v true) ho hd hl hea hw rfl
        fun v => ho.trb hf _ v hw

omit hd in
theorem xfer_matches {t : Template σ} (h : Host σ) (site : BitVec 24)
    (ht : xferTemplate o i.mnemonic = some t) (hmdr : w.mdr = i.opcode) (hs : i.size = 1)
    (hw : WidthOf i.mnemonic c.toRegFile wide) (hn : c.toRegFile.Narrow) :
    ∃ f, t = .body f ∧ Matches (stepBy h c site i.mnemonic i.mode) c w i f := by
  revert hw ht
  cases i.mnemonic with
  | TAX | TSX =>
    intro ht hw
    cases ht
    refine ⟨_, rfl, implied_matches hl hmdr hs ?_⟩
    rw [ho.setRegX _ _ hw]
    rfl
  | TAY =>
    intro ht hw
    cases ht
    refine ⟨_, rfl, implied_matches hl hmdr hs ?_⟩
    rw [ho.setRegY _ _ hw]
    rfl
  | TXA | TYA =>
    intro ht hw
    cases ht
    refine ⟨_, rfl, implied_matches hl hmdr hs ?_⟩
    simp only [stepBy, onRegs, setA_m, not_of_eq_not hw, ho.setRegA _ _ hw, pure_bind]
  | TXY =>
    intro ht hw
    cases ht
    refine ⟨_, rfl, implied_matches hl hmdr hs ?_⟩
    have hidx : idx c.toRegFile c.X = c.X := by
      rw [(ho.index _ hw hn).1, ho.idx _ _ hw]
    rw [ho.setRegY _ _ hw, hidx]
    rfl
  | TYX =>
    intro ht hw
    cases ht
    refine ⟨_, rfl, implied_matches hl hmdr hs ?_⟩
    have hidx : idx c.toRegFile c.Y = c.Y := by
      rw [(ho.index _ hw hn).2, ho.idx _ _ hw]
    rw [ho.setRegX _ _ hw, hidx]
    rfl
  | _ =>
    intro ht
    cases ht

omit hd in
theorem step_matches {t : Template σ} (h : Host σ) (site : BitVec 24)
    (ht : stepTemplate o i.mnemonic = some t) (hmdr : w.mdr = i.opcode) (hs : i.size = 1)
    (hw : WidthOf i.mnemonic c.toRegFile wide) :
    ∃ f, t = .body f ∧ Matches (stepBy h c site i.mnemonic i.mode) c w i f := by
  revert hw ht
  cases i.mnemonic with
  | INX | DEX =>
    intro ht hw
    cases ht
    refine ⟨_, rfl, implied_matches hl hmdr hs ?_⟩
    rw [ho.setRegX _ _ hw]
    rfl
  | INY | DEY =>
    intro ht hw
    cases ht
    refine ⟨_, rfl, implied_matches hl hmdr hs ?_⟩
    rw [ho.setRegY _ _ hw]
    rfl
  | _ =>
    intro ht
    cases ht

omit hd hl in
theorem pushReg_eq (name : Reg) {wide' : Bool} (h : wide' = wide) :
    pushReg c (name.get c.toRegFile) wide' =
      (o.push c.toRegFile (o.reg c.toRegFile name) >>= fun r => return c.setRegs r) := by
  unfold pushReg
  rw [h, ho.push]

omit hd in
theorem stack_matches {t : Template σ} (h : Host σ) (site : BitVec 24)
    (ht : stackTemplate o i.mnemonic = some t) (hmdr : w.mdr = i.opcode) (hs : i.size = 1)
    (hw : WidthOf i.mnemonic c.toRegFile wide) :
    ∃ f, t = .body f ∧ Matches (stepBy h c site i.mnemonic i.mode) c w i f := by
  obtain ⟨src, S, hpull, ho'⟩ := ho.pull c.toRegFile
  revert hw ht
  cases i.mnemonic with
  | PHA =>
    intro ht hw
    cases ht
    exact ⟨_, rfl, implied_matches hl hmdr hs (pushReg_eq ho .A (not_of_eq_not hw))⟩
  | PHX =>
    intro ht hw
    cases ht
    exact ⟨_, rfl, implied_matches hl hmdr hs (pushReg_eq ho .X (not_of_eq_not hw))⟩
  | PHY =>
    intro ht hw
    cases ht
    exact ⟨_, rfl, implied_matches hl hmdr hs (pushReg_eq ho .Y (not_of_eq_not hw))⟩
  | PLA =>
    intro ht hw
    cases ht
    refine ⟨_, rfl, implied_matches hl hmdr hs ?_⟩
    have hset (v : BitVec n) := ho.setRegA { c.toRegFile with S } (zx v) hw
    simp only [stepBy, not_of_eq_not hw, ho', hpull, setA_m, hset, bind_assoc, pure_bind]
  | PLX =>
    intro ht hw
    cases ht
    refine ⟨_, rfl, implied_matches hl hmdr hs ?_⟩
    have hset (v : BitVec n) := ho.setRegX { c.toRegFile with S } (zx v) hw
    have hidx (v : BitVec n) := ho.idx { c.toRegFile with S } v hw
    simp only [stepBy, not_of_eq_not hw, ho', hpull, hset, hidx, bind_assoc, pure_bind]
  | PLY =>
    intro ht hw
    cases ht
    refine ⟨_, rfl, implied_matches hl hmdr hs ?_⟩
    have hset (v : BitVec n) := ho.setRegY { c.toRegFile with S } (zx v) hw
    have hidx (v : BitVec n) := ho.idx { c.toRegFile with S } v hw
    simp only [stepBy, not_of_eq_not hw, ho', hpull, hset, hidx, bind_assoc, pure_bind]
  | _ =>
    intro ht
    cases ht

end

/-- What decode.py's table says of modes and mnemonics together. -/
structure TableFacts (mn : Mnemonic) (md : AddrMode) : Prop where
  immM : md = .immM → widthDependency mn = some .m
  immX : md = .immX → widthDependency mn = some .x ∧ mn ≠ .BIT
  acc : md = .acc → (rmwKind mn).isSome
  implied : mn ∈ [Mnemonic.TAX, .TAY, .TXA, .TYA, .TXY, .TYX, .TSX, .INX, .INY, .DEX, .DEY,
    .PHA, .PHX, .PHY, .PLA, .PLX, .PLY] → md = .impl
  flag : mn ∈ [Mnemonic.CLC, .SEC, .CLI, .SEI, .CLD, .SED, .CLV] → md = .impl
  branch : mn ∈ [Mnemonic.BPL, .BMI, .BVC, .BVS, .BCC, .BCS, .BNE, .BEQ, .BRA] → md = .rel
  long : mn = .BRL → md = .rlong

theorem opcodes_mem (op : BitVec 8) : opcodes op ∈ opcodeTable := by
  have hlen : opcodeTable.length = 256 := by decide +kernel
  have hlt : op.toNat < opcodeTable.length := by omega
  have hget : opcodes op = opcodeTable[op.toNat] := by
    rw [opcodes, List.getD_eq_getElem?_getD, List.getElem?_eq_getElem hlt, Option.getD_some]
  rw [hget]
  exact List.getElem_mem hlt

set_option maxRecDepth 10000 in
theorem tableFacts (op : BitVec 8) : TableFacts (opcodes op).1 (opcodes op).2 := by
  have h := opcodes_mem op
  generalize opcodes op = p at h
  constructor <;> revert p <;> decide +kernel

end

end CtRecomp
