import CtRecomp.RegRange

namespace CtRecomp

/-! Compiled code keeps the registers in range: every body `emit_function` writes, in native mode
and in the widths it was compiled for. -/

section

variable {σ : Type}

/-- Arithmetic of either width is on A and the flags. -/
theorem adc8_frame (r : RegFile) (v : BitVec 8) :
    Yields (adc8 r v : BusM σ RegFile) fun r' => r'.frame = r.frame :=
  .ite (fun _ => .fatal) fun _ => .pure rfl

theorem adc16_frame (r : RegFile) (v : BitVec 16) :
    Yields (adc16 r v : BusM σ RegFile) fun r' => r'.frame = r.frame :=
  .ite (fun _ => .fatal) fun _ => .pure rfl

theorem bit8_frame (r : RegFile) (v : BitVec 8) (imm : Bool) : (bit8 r v imm).frame = r.frame := by
  cases imm <;> rfl

theorem bit16_frame (r : RegFile) (v : BitVec 16) (imm : Bool) :
    (bit16 r v imm).frame = r.frame := by
  cases imm <;> rfl

end

/-- Each form of a width leaves the frame, or writes an index register that is as wide. -/
structure Sized.Keeps {σ : Type} {n : Nat} (o : Sized σ n) (wide : Bool) : Prop where
  setReg : ∀ {r : RegFile}, r.Ranged → ∀ name v, (name ≠ .A → wide = true → r.x = false) →
    (o.setReg r name v).Ranged
  loads : ∀ {mn f}, o.loads mn = some f → ∀ {r : RegFile}, r.Ranged →
    (widthDependency mn = some .x → wide = true → r.x = false) → ∀ v, (f r v).Ranged
  rmw : ∀ {mn f}, o.rmw mn = some f → ∀ r v, (f r v).2.frame = r.frame
  setA : ∀ r v, (o.setA r v).frame = r.frame
  adc : ∀ r v, Yields (o.adc r v) fun r' => r'.frame = r.frame
  sbc : ∀ r v, Yields (o.sbc r v) fun r' => r'.frame = r.frame
  cmp : ∀ r a v, (o.cmp r a v).frame = r.frame
  bit : ∀ r v imm, (o.bit r v imm).frame = r.frame
  push : ∀ {r : RegFile}, r.Ranged → ∀ v, Yields (o.push r v) (·.Ranged)
  pull : ∀ {r : RegFile}, r.Ranged → Yields (o.pull r) fun p => p.2.Ranged ∧ p.2.x = r.x

section

variable {σ : Type} [Board σ]

theorem sized8_keeps : (sized8 : Sized σ 8).Keeps false where
  setReg {r} hr name v _ := by
    cases name with
    | A => exact hr.of_frame rfl
    | X => exact (hr.setX fun _ => setWidth_lt _).of_frame rfl
    | Y => exact (hr.setY fun _ => setWidth_lt _).of_frame rfl
  loads {mn f} hf r hr _ v := by
    cases mn with
    | LDA | ORA | AND | EOR =>
      cases hf
      exact hr.of_frame rfl
    | LDX =>
      cases hf
      exact (hr.setX fun _ => setWidth_lt v).of_frame rfl
    | LDY =>
      cases hf
      exact (hr.setY fun _ => setWidth_lt v).of_frame rfl
    | _ => cases hf
  rmw {mn f} hf r v := by
    cases mn with
    | INC | DEC | ASL | LSR | ROL | ROR | TSB | TRB =>
      cases hf
      rfl
    | _ => cases hf
  setA _ _ := rfl
  adc := adc8_frame
  sbc r v := .ite (fun _ => .fatal) fun _ => adc8_frame r _
  cmp _ _ _ := rfl
  bit := bit8_frame
  push hr v := (push8_ranged hr v).mono fun _ h => h.1
  pull hr := (pull8_ranged hr).bind fun _ h => .pure h

theorem sized16_keeps : (sized16 : Sized σ 16).Keeps true where
  setReg {r} hr name v hx := by
    have hout (hname : name ≠ .A) : r.x = true → v < 0x100 := fun h =>
      absurd ((hx hname rfl).symm.trans h) (by decide)
    cases name with
    | A => exact hr.of_frame rfl
    | X => exact (hr.setX (hout (by decide))).of_frame rfl
    | Y => exact (hr.setY (hout (by decide))).of_frame rfl
  loads {mn f} hf r hr hx v := by
    have hout (hdep : widthDependency mn = some .x) : r.x = true → v < 0x100 := fun h =>
      absurd ((hx hdep rfl).symm.trans h) (by decide)
    cases mn with
    | LDA | ORA | AND | EOR =>
      cases hf
      exact hr.of_frame rfl
    | LDX =>
      cases hf
      exact (hr.setX (hout rfl)).of_frame rfl
    | LDY =>
      cases hf
      exact (hr.setY (hout rfl)).of_frame rfl
    | _ => cases hf
  rmw {mn f} hf r v := by
    cases mn with
    | INC | DEC | ASL | LSR | ROL | ROR | TSB | TRB =>
      cases hf
      rfl
    | _ => cases hf
  setA _ _ := rfl
  adc := adc16_frame
  sbc r v := .ite (fun _ => .fatal) fun _ => adc16_frame r _
  cmp _ _ _ := rfl
  bit := bit16_frame
  push hr v := (push16_ranged hr v).mono fun _ h => h.1
  pull hr := pull16_ranged hr

/-- The template keeps registers with `P` in range. -/
def Template.Keeps (t : Template σ) (P : RegFile → Prop) : Prop :=
  match t with
  | .body f => ∀ (i : Insn) {r : RegFile}, r.Ranged → P r → Yields (f i r) (·.Ranged)
  | .branch _ => True
  | .ret f => ∀ {c : Cpu}, c.toRegFile.Ranged → Yields (f c) (·.toRegFile.Ranged)

section

variable {n : Nat} {o : Sized σ n} {wide : Bool} {mn : Mnemonic} {md : AddrMode} {t : Template σ}

/-- The index registers are as wide as an instruction that depends on them was compiled for. -/
def WideIndex (mn : Mnemonic) (wide : Bool) (r : RegFile) : Prop :=
  widthDependency mn = some .x → wide = true → r.x = false

theorem loadTemplate_keeps (ho : o.Keeps wide) (ht : loadTemplate o mn md = some t) :
    t.Keeps (WideIndex mn wide) := by
  obtain ⟨load, hload, ht⟩ := Option.bind_eq_some_iff.mp ht
  obtain ⟨val, -, ht⟩ := Option.bind_eq_some_iff.mp ht
  cases ht
  exact fun i r hr hx => (Yields.any _).bind fun v _ => .pure (ho.loads hload hr hx v)

theorem arithTemplate_keeps (ho : o.Keeps wide) (ht : arithTemplate o mn md = some t) :
    t.Keeps (WideIndex mn wide) := by
  obtain ⟨op, hop, ht⟩ := Option.bind_eq_some_iff.mp ht
  obtain ⟨val, -, ht⟩ := Option.bind_eq_some_iff.mp ht
  cases ht
  intro i r hr _
  refine (Yields.any _).bind fun v _ => ?_
  cases mn with
  | ADC =>
    cases hop
    exact (ho.adc r v).mono fun _ hr' => hr.of_frame hr'
  | SBC =>
    cases hop
    exact (ho.sbc r v).mono fun _ hr' => hr.of_frame hr'
  | _ => cases hop

theorem cmpTemplate_keeps (ho : o.Keeps wide) (ht : cmpTemplate o mn md = some t) :
    t.Keeps (WideIndex mn wide) := by
  obtain ⟨reg, -, ht⟩ := Option.bind_eq_some_iff.mp ht
  obtain ⟨val, -, ht⟩ := Option.bind_eq_some_iff.mp ht
  cases ht
  exact fun i r hr _ => (Yields.any _).bind fun v _ => .pure (hr.of_frame (ho.cmp _ _ _))

theorem bitTemplate_keeps (ho : o.Keeps wide) (ht : bitTemplate o mn md = some t) :
    t.Keeps (WideIndex mn wide) := by
  unfold bitTemplate at ht
  split at ht
  next =>
    obtain ⟨val, -, ht⟩ := Option.bind_eq_some_iff.mp ht
    cases ht
    exact fun i r hr _ => (Yields.any _).bind fun v _ => .pure (hr.of_frame (ho.bit _ _ _))
  next => cases ht

theorem storeTemplate_keeps (ht : storeTemplate o mn md = some t) :
    t.Keeps (WideIndex mn wide) := by
  obtain ⟨src, -, ht⟩ := Option.bind_eq_some_iff.mp ht
  obtain ⟨⟨ea, b0⟩, -, ht⟩ := Option.bind_eq_some_iff.mp ht
  cases ht
  exact fun i r hr _ => (Yields.any _).bind fun _ _ => (Yields.any _).bind fun _ _ => .pure hr

theorem rmwTemplate_keeps (ho : o.Keeps wide) (ht : rmwTemplate o mn md = some t) :
    t.Keeps (WideIndex mn wide) := by
  obtain ⟨op, hop, ht⟩ := Option.bind_eq_some_iff.mp ht
  split at ht
  next =>
    cases ht
    exact fun i r hr _ => .pure (hr.of_frame ((ho.setA _ _).trans (ho.rmw hop r _)))
  next =>
    obtain ⟨⟨ea, b0⟩, -, ht⟩ := Option.bind_eq_some_iff.mp ht
    cases ht
    exact fun i r hr _ => (Yields.any _).bind fun _ _ => (Yields.any _).bind fun v _ =>
      (Yields.any _).bind fun _ _ => .pure (hr.of_frame (ho.rmw hop r v))

omit [Board σ] in
theorem xferTemplate_keeps (ho : o.Keeps wide) (ht : xferTemplate o mn = some t) :
    t.Keeps (WideIndex mn wide) := by
  cases mn with
  | TXA | TYA =>
    cases ht
    exact fun i r hr _ => .pure (ho.setReg hr .A _ fun h => absurd rfl h)
  | TAX | TAY | TXY | TYX | TSX =>
    cases ht
    exact fun i r hr hx => .pure (ho.setReg hr _ _ fun _ => hx rfl)
  | _ => cases ht

omit [Board σ] in
theorem stepTemplate_keeps (ho : o.Keeps wide) (ht : stepTemplate o mn = some t) :
    t.Keeps (WideIndex mn wide) := by
  cases mn with
  | INX | INY | DEX | DEY =>
    cases ht
    exact fun i r hr hx => .pure (ho.setReg hr _ _ fun _ => hx rfl)
  | _ => cases ht

omit [Board σ] in
theorem stackTemplate_keeps (ho : o.Keeps wide) (ht : stackTemplate o mn = some t) :
    t.Keeps (WideIndex mn wide) := by
  cases mn with
  | PHA | PHX | PHY =>
    cases ht
    exact fun i r hr _ => ho.push hr _
  | PLA =>
    cases ht
    exact fun i r hr _ => (ho.pull hr).bind fun p hp =>
      .pure (ho.setReg hp.1 .A _ fun h => absurd rfl h)
  | PLX | PLY =>
    cases ht
    exact fun i r hr hx => (ho.pull hr).bind fun p hp =>
      .pure (ho.setReg hp.1 _ _ fun _ hw => hp.2.trans (hx rfl hw))
  | _ => cases ht

omit [Board σ] in
theorem flagTemplate_keeps (ht : flagTemplate mn = some t) : t.Keeps fun _ => True := by
  cases mn with
  | CLC | SEC | CLI | SEI | CLD | SED | CLV =>
    cases ht
    exact fun i r hr _ => .pure (hr.of_frame rfl)
  | _ => cases ht

theorem generateSized_keeps (ho : o.Keeps wide) (ht : generateSized o mn md = some t) :
    t.Keeps (WideIndex mn wide) := by
  rcases of_orElse ht with ht | ht
  · exact loadTemplate_keeps ho ht
  rcases of_orElse ht with ht | ht
  · exact arithTemplate_keeps ho ht
  rcases of_orElse ht with ht | ht
  · exact cmpTemplate_keeps ho ht
  rcases of_orElse ht with ht | ht
  · exact bitTemplate_keeps ho ht
  rcases of_orElse ht with ht | ht
  · exact storeTemplate_keeps ht
  rcases of_orElse ht with ht | ht
  · exact rmwTemplate_keeps ho ht
  rcases of_orElse ht with ht | ht
  · exact xferTemplate_keeps ho ht
  rcases of_orElse ht with ht | ht
  · exact stepTemplate_keeps ho ht
  · exact stackTemplate_keeps ho ht

end

/-- In 16-bit index mode a block move's steps need no cut. -/
theorem mvnLoop_ranged (dst src : BitVec 8) (n : Nat) {r : RegFile} (hr : r.Ranged)
    (hx : r.x = false) : Yields (mvnLoop dst src n r : BusM σ RegFile) (·.Ranged) := by
  have hwide {r : RegFile} (hx : r.x = false) (v : BitVec 16) : r.x = true → v < 0x100 :=
    fun h => absurd (hx.symm.trans h) (by decide)
  induction n generalizing r with
  | zero => exact .fatal
  | succ n ih =>
    have hbyte : Yields (mvnByte dst src r : BusM σ RegFile) fun r' => r'.Ranged ∧ r'.x = false :=
      (Yields.any _).bind fun _ _ => (Yields.any _).bind fun _ _ =>
        .pure ⟨((hr.setX (hwide hx (r.X + 1))).setY (hwide hx (r.Y + 1))).of_frame rfl, hx⟩
    refine hbyte.bind fun r' hr' => .ite (fun _ => .pure hr'.1) fun _ => ?_
    exact (Yields.any _).bind fun _ _ => ih hr'.1 hr'.2

theorem opRts_ranged {c : Cpu} (hr : c.toRegFile.Ranged) :
    Yields (opRts c : BusM σ Cpu) (·.toRegFile.Ranged) :=
  (pull16_ranged hr).bind fun _ hp => .pure hp.1

theorem opRtl_ranged {c : Cpu} (hr : c.toRegFile.Ranged) :
    Yields (opRtl c : BusM σ Cpu) (·.toRegFile.Ranged) :=
  (pull16_ranged hr).bind fun _ hp => (pull8_ranged hp.1).bind fun _ hq => .pure hq.1

theorem opRti_ranged {c : Cpu} (sys : Bool) (hr : c.toRegFile.Ranged) :
    Yields (opRti sys c : BusM σ Cpu) (·.toRegFile.Ranged) := by
  refine .ite (fun _ => ?_) fun _ => .fatal
  exact (pull8_ranged hr).bind fun p hp => (pull16_ranged (setP_ranged hp.1 p.1)).bind fun _ hq =>
    (pull8_ranged hq.1).bind fun _ ht => .pure ht.1

/-- Native mode, and wide index registers for a block move. -/
def NativeFor (op : BitVec 8) (r : RegFile) : Prop := r.e = false ∧ (op = 0x54 → r.x = false)

theorem special_keeps {op : BitVec 8} {wd : Width} {t : Template σ} (hop : op ∈ specialOps)
    (ht : special op wd = some t) : t.Keeps (NativeFor op) := by
  have hstack {r : RegFile} (hr : r.Ranged) (he : r.e = false) (v : BitVec 16) :
      ({ r with S := v } : RegFile).Ranged :=
    hr.setS fun h => absurd (he.symm.trans h) (by decide)
  simp only [specialOps, List.mem_cons, List.not_mem_nil, or_false] at hop
  rcases hop with rfl | rfl | rfl | rfl | rfl | rfl | rfl | rfl | rfl | rfl | rfl | rfl | rfl |
    rfl | rfl | rfl | rfl | rfl | rfl | rfl | rfl | rfl | rfl | rfl | rfl | rfl | rfl <;>
    cases wd <;> cases ht
  · -- PHP
    exact fun i r hr _ => (push8_ranged hr _).mono fun _ h => h.1
  · -- PLP
    exact fun i r hr _ => (pull8_ranged hr).bind fun p hp => .pure (setP_ranged hp.1 p.1)
  · exact fun _ hr => opRts_ranged hr
  · exact fun _ hr => opRtl_ranged hr
  · -- TDC
    exact fun i r hr _ => .pure (hr.of_frame rfl)
  · -- TCD
    exact fun i r hr _ => .pure (hr.of_frame rfl)
  · -- TCS
    exact fun i r hr hn => .pure (hstack hr hn.1 _)
  · -- TSC
    exact fun i r hr _ => .pure (hr.of_frame rfl)
  · -- TXS
    exact fun i r hr hn => .pure (hstack hr hn.1 _)
  · -- XBA
    exact fun i r hr _ => .pure (hr.of_frame rfl)
  · -- PHB
    exact fun i r hr _ => (push8_ranged hr _).mono fun _ h => h.1
  · -- PLB
    exact fun i r hr _ => (pull8_ranged hr).bind fun p hp => .pure (hp.1.of_frame rfl)
  · -- PHD
    exact fun i r hr _ => (push16_ranged hr _).mono fun _ h => h.1
  · -- PLD
    exact fun i r hr _ => (pull16_ranged hr).bind fun p hp => .pure (hp.1.of_frame rfl)
  · -- PHK
    exact fun i r hr _ => (push8_ranged hr _).mono fun _ h => h.1
  · -- PEA
    exact fun i r hr _ => (push16_ranged hr _).mono fun _ h => h.1
  · -- PEI
    exact fun i r hr _ => (Yields.any _).bind fun _ _ =>
      (push16_ranged hr _).mono fun _ h => h.1
  · -- PER
    exact fun i r hr _ => (push16_ranged hr _).mono fun _ h => h.1
  · -- REP
    exact fun i r hr _ => .pure (setP_ranged hr _)
  · -- SEP
    exact fun i r hr _ => .pure (setP_ranged hr _)
  · -- NOP
    exact fun i r hr _ => .pure hr
  · -- XCE
    exact fun i r hr _ => .pure (exchangeCE_eq r ▸ exchangeCE_ranged hr)
  · exact fun i r hr _ => .fatal
  · exact fun i r hr _ => .fatal
  · exact fun i r hr _ => .fatal
  · exact fun i r hr _ => .fatal
  · -- MVN
    exact fun i r hr hn => mvnLoop_ranged _ _ _ (hr.of_frame rfl) (hn.2 rfl)

variable {i : Insn}

theorem wideIndex_known {r : RegFile} (hk : KnownWidths r i) {wide : Bool}
    (hwd : i.width = some (if wide then .w16 else .w8)) : WideIndex i.mnemonic wide r := by
  intro hdep hw
  subst hw
  simp only [Insn.width, hdep, if_true] at hwd
  obtain ⟨b, hb, hbw⟩ := Option.map_eq_some_iff.mp hwd
  have hr := hk.x b hb
  cases b with
  | true => cases hbw
  | false => exact hr

theorem plainBody_ranged (hd : i.Decoded) {body : RegFile → BusM σ (RegFile × Flow)}
    (hb : plainBody i = some body) {r : RegFile} (hr : r.Ranged) (he : r.e = false)
    (hk : KnownWidths r i) : Yields (body r) fun p => p.1.Ranged := by
  unfold plainBody at hb
  split at hb
  next =>
    cases hb
    exact (Yields.any _).bind fun _ _ => .pure hr
  next =>
    obtain ⟨wd, hwd, hb⟩ := Option.bind_eq_some_iff.mp hb
    obtain ⟨t, ht, hb'⟩ := Option.bind_eq_some_iff.mp hb
    have hkept {P : RegFile → Prop} (htk : t.Keeps P) (hP : P r) :
        Yields (body r) fun p => p.1.Ranged := by
      cases t with
      | body f =>
        cases hb'
        exact (htk i hr hP).bind fun _ hr' => .pure hr'
      | branch cond =>
        cases hb'
        exact .ite (fun _ => (Yields.any _).bind fun _ _ => (Yields.any _).bind fun _ _ => .pure hr)
          fun _ => .pure hr
      | ret f => cases hb'
    unfold templates at ht
    split at ht
    next hop =>
      refine hkept (special_keeps hop ht) ⟨he, fun hmvn => ?_⟩
      obtain ⟨hmn, -⟩ := hd.at hmvn rfl
      have hw16 : wd = .w16 := by
        rw [hmvn] at ht
        cases wd with
        | w16 => rfl
        | _ => cases ht
      rw [hw16] at hwd
      exact wideIndex_known hk (show i.width = some (if true then .w16 else .w8) from hwd)
        (by rw [hmn]; rfl) rfl
    next =>
      rw [hd.op] at ht
      cases wd with
      | w8 => exact hkept (generateSized_keeps sized8_keeps ht) (wideIndex_known hk hwd)
      | w16 => exact hkept (generateSized_keeps sized16_keeps ht) (wideIndex_known hk hwd)
      | any =>
        rcases of_orElse ht with ht | ht
        · exact hkept (flagTemplate_keeps ht) trivial
        · obtain ⟨cond, hc, htc⟩ := Option.map_eq_some_iff.mp ht
          subst htc
          exact hkept (P := fun _ => True) trivial trivial

/-- What `emit_function` writes for an instruction, the loop of a block move included. -/
inductive EmittedBody (i : Insn) : (RegFile → BusM σ RegFile) → Prop
  | plain {body} (h : plainBody i = some body) :
    EmittedBody i fun r => do
      let (r, _) ← body r
      return r
  | other {f} (h : Emitted i f) (hmvn : i.opcode ≠ 0x54) : EmittedBody i f

theorem pushCall_ranged (long : Bool) {r : RegFile} (hr : r.Ranged) :
    Yields (pushCall i long r : BusM σ RegFile) (·.Ranged) := by
  cases long with
  | false => exact (push16_ranged hr _).mono fun _ h => h.1
  | true => exact (push8_ranged hr _).bind fun _ h => (push16_ranged h.1 _).mono fun _ h => h.1

theorem readEntry_ranged {r : RegFile} (hr : r.Ranged) :
    Yields (readEntry i r : BusM σ RegFile) (·.Ranged) :=
  (Yields.any _).bind fun _ _ => (Yields.any _).bind fun _ _ => .pure hr

theorem emittedBody_ranged (hd : i.Decoded) {f : RegFile → BusM σ RegFile} (hf : EmittedBody i f)
    {r : RegFile} (hr : r.Ranged) (he : r.e = false) (hk : KnownWidths r i) :
    Yields (f r) (·.Ranged) := by
  have hplain {body} (h : plainBody i = some body) :
      Yields (do let (r, _) ← body r; return r : BusM σ RegFile) (·.Ranged) :=
    (plainBody_ranged hd h hr he hk).bind fun _ h => .pure h
  cases hf with
  | plain h => exact hplain h
  | other h hmvn =>
    cases h with
    | plain h => exact hplain h
    | move h => exact absurd h hmvn
    | ret h pb pc =>
      rcases ret_templates h with ⟨-, rfl⟩ | ⟨-, rfl⟩
      · exact (opRts_ranged (c := ⟨r, pb, pc⟩) hr).bind fun _ h => .pure h
      · exact (opRtl_ranged (c := ⟨r, pb, pc⟩) hr).bind fun _ h => .pure h
    | rti h pb pc => exact (opRti_ranged (c := ⟨r, pb, pc⟩) true hr).bind fun _ h => .pure h
    | call | tableCall => exact pushCall_ranged false hr
    | callLong => exact pushCall_ranged true hr
    | tail | tableJump => exact .pure hr
    | dynJump => exact readEntry_ranged hr
    | dynCall => exact (pushCall_ranged false hr).bind fun _ h => readEntry_ranged h

end

/-- The interpreter in system mode, its interrupt entries, and the resets. -/
inductive Executed (σ : Type) [Board σ] : Exec → Prop
  | reset {c c' : Exec} {w w' : Wire σ} (h : interpReset c w = some (c', w')) : Executed σ c'
  | step {h : Host σ} {c c' : Exec} {w w' : Wire σ} {cur : Cur} (hc : Executed σ c)
      (hrun : interpStep h c w = some ((cur, c'), w')) : Executed σ c'
  | interrupt {c c' : Exec} {nmi : Bool} {w w' : Wire σ} {cur : Cur} (hc : Executed σ c)
      (hrun : interpInterrupt c nmi w = some ((cur, c'), w')) : Executed σ c'
  | softReset {c c' : Exec} {w w' : Wire σ} (hc : Executed σ c)
      (h : softResetCpu c w = some (c', w')) : Executed σ c'

theorem executed_ranged {σ : Type} [Board σ] {c : Exec} (h : Executed σ c) :
    c.toRegFile.Ranged := by
  induction h with
  | reset h => exact interpReset_ranged _ _ _ _ h
  | step hc hrun ih => exact interpStep_ranged ih _ _ _ _ hrun
  | interrupt hc hrun ih => exact interpInterrupt_ranged ih _ _ _ _ hrun
  | softReset hc h ih => exact softReset_ranged _ _ _ _ h

/-- What keeps the registers in range: each step of the interpreter in system mode, interrupt
entries, both resets, and in native mode compiled code in its widths. -/
structure RangeKept (σ : Type) [Board σ] : Prop where
  step : ∀ (h : Host σ) (c : Exec), c.toRegFile.Ranged →
    Yields (interpStep h c) fun p => p.2.toRegFile.Ranged
  interrupt : ∀ (c : Exec) (nmi : Bool), c.toRegFile.Ranged →
    Yields (interpInterrupt c nmi : BusM σ _) fun p => p.2.toRegFile.Ranged
  reset : ∀ c : Exec, Yields (interpReset c : BusM σ Exec) (·.toRegFile.Ranged)
  softReset : ∀ c : Exec, Yields (softResetCpu c : BusM σ Exec) (·.toRegFile.Ranged)
  body : ∀ (i : Insn) (f : RegFile → BusM σ RegFile) (r : RegFile), EmittedBody i f → i.Decoded →
    KnownWidths r i → r.e = false → r.Ranged → Yields (f r) (·.Ranged)

end CtRecomp
