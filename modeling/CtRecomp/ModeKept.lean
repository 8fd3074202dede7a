import CtRecomp.Decoded
import CtRecomp.EmittedRange
import CtRecomp.EmittedRun

namespace CtRecomp

open Loop

/-! Compiled code changes M, X and E as the decoder follows them. -/

def RegFile.mode (r : RegFile) : Bool × Bool × Bool := (r.m, r.x, r.e)

theorem RegFile.mode_of_frame {r r' : RegFile} (h : r'.frame = r.frame) : r'.mode = r.mode := by
  simp only [RegFile.frame, Prod.mk.injEq] at h
  obtain ⟨-, -, -, hm, hx, he⟩ := h
  rw [RegFile.mode, RegFile.mode, hm, hx, he]

theorem setP_mode (r : RegFile) (p : BitVec 8) :
    (setP r p).mode = (p.getLsbD 5 || r.e, p.getLsbD 4 || r.e, r.e) := by
  unfold setP indexWidth
  split <;> rfl

section

variable {σ : Type} [Board σ]

theorem push8_mode (r : RegFile) (v : BitVec 8) :
    Yields (push8 r v : BusM σ RegFile) fun r' => r'.mode = r.mode :=
  (Yields.any _).bind fun _ _ => .pure rfl

theorem push16_mode (r : RegFile) (v : BitVec 16) :
    Yields (push16 r v : BusM σ RegFile) fun r' => r'.mode = r.mode :=
  (push8_mode r _).bind fun r' hr => (push8_mode r' _).mono fun _ hr' => hr'.trans hr

theorem pull8_mode (r : RegFile) :
    Yields (pull8 r : BusM σ (BitVec 8 × RegFile)) fun p => p.2.mode = r.mode :=
  (Yields.any _).bind fun _ _ => .pure rfl

theorem pull16_mode (r : RegFile) :
    Yields (pull16 r : BusM σ (BitVec 16 × RegFile)) fun p => p.2.mode = r.mode :=
  (pull8_mode r).bind fun p hp => (pull8_mode p.2).bind fun _ hq => .pure (hq.trans hp)

end

/-- A width's forms that write registers leave the mode. -/
structure Sized.KeepsMode {σ : Type} {n : Nat} (o : Sized σ n) : Prop where
  setReg : ∀ r name v, (o.setReg r name v).mode = r.mode
  loads : ∀ {mn f}, o.loads mn = some f → ∀ r v, (f r v).mode = r.mode
  push : ∀ r v, Yields (o.push r v) fun r' => r'.mode = r.mode
  pull : ∀ r, Yields (o.pull r) fun p => p.2.mode = r.mode

section

variable {σ : Type} [Board σ]

theorem sized8_keepsMode : (sized8 : Sized σ 8).KeepsMode where
  setReg r name v := by cases name <;> rfl
  loads {mn f} hf r v := by
    cases mn with
    | LDA | LDX | LDY | ORA | AND | EOR =>
      cases hf
      rfl
    | _ => cases hf
  push := push8_mode
  pull r := (pull8_mode r).bind fun _ h => .pure h

theorem sized16_keepsMode : (sized16 : Sized σ 16).KeepsMode where
  setReg r name v := by cases name <;> rfl
  loads {mn f} hf r v := by
    cases mn with
    | LDA | LDX | LDY | ORA | AND | EOR =>
      cases hf
      rfl
    | _ => cases hf
  push := push16_mode
  pull := pull16_mode

/-- The template's statements leave the mode. -/
def Template.KeepsMode (t : Template σ) : Prop :=
  match t with
  | .body f => ∀ (i : Insn) (r : RegFile), Yields (f i r) fun r' => r'.mode = r.mode
  | _ => True

section

variable {n : Nat} {o : Sized σ n} {wide : Bool} {mn : Mnemonic} {md : AddrMode} {t : Template σ}

theorem loadTemplate_mode (ho : o.KeepsMode) (ht : loadTemplate o mn md = some t) :
    t.KeepsMode := by
  obtain ⟨load, hload, ht⟩ := Option.bind_eq_some_iff.mp ht
  obtain ⟨val, -, ht⟩ := Option.bind_eq_some_iff.mp ht
  cases ht
  exact fun i r => (Yields.any _).bind fun v _ => .pure (ho.loads hload r v)

theorem arithTemplate_mode (hf : o.Keeps wide) (ht : arithTemplate o mn md = some t) :
    t.KeepsMode := by
  obtain ⟨op, hop, ht⟩ := Option.bind_eq_some_iff.mp ht
  obtain ⟨val, -, ht⟩ := Option.bind_eq_some_iff.mp ht
  cases ht
  intro i r
  refine (Yields.any _).bind fun v _ => ?_
  cases mn with
  | ADC =>
    cases hop
    exact (hf.adc r v).mono fun _ h => RegFile.mode_of_frame h
  | SBC =>
    cases hop
    exact (hf.sbc r v).mono fun _ h => RegFile.mode_of_frame h
  | _ => cases hop

theorem cmpTemplate_mode (hf : o.Keeps wide) (ht : cmpTemplate o mn md = some t) :
    t.KeepsMode := by
  obtain ⟨reg, -, ht⟩ := Option.bind_eq_some_iff.mp ht
  obtain ⟨val, -, ht⟩ := Option.bind_eq_some_iff.mp ht
  cases ht
  exact fun i r => (Yields.any _).bind fun v _ => .pure (RegFile.mode_of_frame (hf.cmp _ _ _))

theorem bitTemplate_mode (hf : o.Keeps wide) (ht : bitTemplate o mn md = some t) :
    t.KeepsMode := by
  unfold bitTemplate at ht
  split at ht
  next =>
    obtain ⟨val, -, ht⟩ := Option.bind_eq_some_iff.mp ht
    cases ht
    exact fun i r => (Yields.any _).bind fun v _ => .pure (RegFile.mode_of_frame (hf.bit _ _ _))
  next => cases ht

theorem storeTemplate_mode (ht : storeTemplate o mn md = some t) : t.KeepsMode := by
  obtain ⟨src, -, ht⟩ := Option.bind_eq_some_iff.mp ht
  obtain ⟨⟨ea, b0⟩, -, ht⟩ := Option.bind_eq_some_iff.mp ht
  cases ht
  exact fun i r => (Yields.any _).bind fun _ _ => (Yields.any _).bind fun _ _ => .pure rfl

theorem rmwTemplate_mode (hf : o.Keeps wide) (ht : rmwTemplate o mn md = some t) :
    t.KeepsMode := by
  obtain ⟨op, hop, ht⟩ := Option.bind_eq_some_iff.mp ht
  split at ht
  next =>
    cases ht
    exact fun i r => .pure (RegFile.mode_of_frame ((hf.setA _ _).trans (hf.rmw hop r _)))
  next =>
    obtain ⟨⟨ea, b0⟩, -, ht⟩ := Option.bind_eq_some_iff.mp ht
    cases ht
    exact fun i r => (Yields.any _).bind fun _ _ => (Yields.any _).bind fun v _ =>
      (Yields.any _).bind fun _ _ => .pure (RegFile.mode_of_frame (hf.rmw hop r v))

omit [Board σ] in
theorem xferTemplate_mode (ho : o.KeepsMode) (ht : xferTemplate o mn = some t) : t.KeepsMode := by
  cases mn with
  | TXA | TYA | TAX | TAY | TXY | TYX | TSX =>
    cases ht
    exact fun i r => .pure (ho.setReg r _ _)
  | _ => cases ht

omit [Board σ] in
theorem stepTemplate_mode (ho : o.KeepsMode) (ht : stepTemplate o mn = some t) : t.KeepsMode := by
  cases mn with
  | INX | INY | DEX | DEY =>
    cases ht
    exact fun i r => .pure (ho.setReg r _ _)
  | _ => cases ht

omit [Board σ] in
theorem stackTemplate_mode (ho : o.KeepsMode) (ht : stackTemplate o mn = some t) :
    t.KeepsMode := by
  cases mn with
  | PHA | PHX | PHY =>
    cases ht
    exact fun i r => ho.push r _
  | PLA | PLX | PLY =>
    cases ht
    exact fun i r => (ho.pull r).bind fun p hp => .pure ((ho.setReg p.2 _ _).trans hp)
  | _ => cases ht

omit [Board σ] in
theorem flagTemplate_mode (ht : flagTemplate mn = some t) : t.KeepsMode := by
  cases mn with
  | CLC | SEC | CLI | SEI | CLD | SED | CLV =>
    cases ht
    exact fun i r => .pure rfl
  | _ => cases ht

theorem generateSized_mode (ho : o.KeepsMode) (hf : o.Keeps wide)
    (ht : generateSized o mn md = some t) : t.KeepsMode := by
  rcases of_orElse ht with ht | ht
  · exact loadTemplate_mode ho ht
  rcases of_orElse ht with ht | ht
  · exact arithTemplate_mode hf ht
  rcases of_orElse ht with ht | ht
  · exact cmpTemplate_mode hf ht
  rcases of_orElse ht with ht | ht
  · exact bitTemplate_mode hf ht
  rcases of_orElse ht with ht | ht
  · exact storeTemplate_mode ht
  rcases of_orElse ht with ht | ht
  · exact rmwTemplate_mode hf ht
  rcases of_orElse ht with ht | ht
  · exact xferTemplate_mode ho ht
  rcases of_orElse ht with ht | ht
  · exact stepTemplate_mode ho ht
  · exact stackTemplate_mode ho ht

end

/-- PLP, REP, SEP and XCE -/
def modeOps : List (BitVec 8) := [0x28, 0xC2, 0xE2, 0xFB]

theorem special_mode {op : BitVec 8} {wd : Width} {t : Template σ} (hop : op ∈ specialOps)
    (hnot : op ∉ modeOps) (hmvn : op ≠ 0x54) (ht : special op wd = some t) : t.KeepsMode := by
  simp only [specialOps, List.mem_cons, List.not_mem_nil, or_false] at hop
  rcases hop with rfl | rfl | rfl | rfl | rfl | rfl | rfl | rfl | rfl | rfl | rfl | rfl | rfl |
    rfl | rfl | rfl | rfl | rfl | rfl | rfl | rfl | rfl | rfl | rfl | rfl | rfl | rfl <;>
    cases wd <;> cases ht
  · -- PHP
    exact fun i r => push8_mode r _
  · exact absurd (by decide) hnot
  · trivial
  · trivial
  · -- TDC
    exact fun i r => .pure rfl
  · -- TCD
    exact fun i r => .pure rfl
  · -- TCS
    exact fun i r => .pure rfl
  · -- TSC
    exact fun i r => .pure rfl
  · -- TXS
    exact fun i r => .pure rfl
  · -- XBA
    exact fun i r => .pure rfl
  · -- PHB
    exact fun i r => push8_mode r _
  · -- PLB
    exact fun i r => (pull8_mode r).bind fun p hp => .pure hp
  · -- PHD
    exact fun i r => push16_mode r _
  · -- PLD
    exact fun i r => (pull16_mode r).bind fun p hp => .pure hp
  · -- PHK
    exact fun i r => push8_mode r _
  · -- PEA
    exact fun i r => push16_mode r _
  · -- PEI
    exact fun i r => (Yields.any _).bind fun _ _ => push16_mode r _
  · -- PER
    exact fun i r => push16_mode r _
  · exact absurd (by decide) hnot
  · exact absurd (by decide) hnot
  · -- NOP
    exact fun i r => .pure rfl
  · exact absurd (by decide) hnot
  · exact fun i r => .fatal
  · exact fun i r => .fatal
  · exact fun i r => .fatal
  · exact fun i r => .fatal
  · exact absurd rfl hmvn

theorem templates_mode {op : BitVec 8} {wd : Width} {t : Template σ} (hnot : op ∉ modeOps)
    (hmvn : op ≠ 0x54) (ht : templates op wd = some t) : t.KeepsMode := by
  unfold templates at ht
  split at ht
  next hop => exact special_mode hop hnot hmvn ht
  next =>
    cases wd with
    | w8 => exact generateSized_mode sized8_keepsMode sized8_keeps ht
    | w16 => exact generateSized_mode sized16_keepsMode sized16_keeps ht
    | any =>
      rcases of_orElse ht with ht | ht
      · exact flagTemplate_mode ht
      · obtain ⟨cond, -, htc⟩ := Option.map_eq_some_iff.mp ht
        subst htc
        trivial

end

/-! Against the decoder's states. -/

theorem opcodes_mode : ∀ op : BitVec 8, (opcodes op).1 ∈ [.PLP, .REP, .SEP, .XCE] →
    op ∈ modeOps := by decide +kernel

/-- M and X after an instruction, where it is none of those that change them. -/
theorem nextState_same {i : Insn} {st nxt : State} (h : nextState i st = .ok nxt)
    (hplp : i.mnemonic ≠ .PLP) (hrep : i.mnemonic ≠ .REP) (hsep : i.mnemonic ≠ .SEP)
    (he : st.e = false) : nxt.m = st.m ∧ nxt.x = st.x := by
  obtain ⟨nxt', hnxt, h⟩ := bind_eq_ok_iff.mp h
  cases h
  change nxt'.m = st.m ∧ nxt'.x = st.x
  unfold nextState' at hnxt
  split at hnxt
  next hm => exact absurd hm hrep
  next hm => exact absurd hm hsep
  · split at hnxt
    · cases hnxt
    · cases hnxt
    · cases hnxt
      rw [he]
      exact ⟨rfl, rfl⟩
  · split at hnxt
    · obtain ⟨size, -, hnxt⟩ := bind_eq_ok_iff.mp hnxt
      cases hnxt
      exact ⟨rfl, rfl⟩
    · obtain ⟨size, -, hnxt⟩ := bind_eq_ok_iff.mp hnxt
      cases hnxt
      unfold State.pull
      simp only [if_neg hplp]
      split <;> exact ⟨rfl, rfl⟩
    · cases hnxt
      exact ⟨rfl, rfl⟩

theorem nextState_rep {i : Insn} {st nxt : State} (h : nextState i st = .ok nxt)
    (hm : i.mnemonic = .REP) (he : st.e = false) :
    nxt.m = (if i.lo8.getLsbD 5 then some false else st.m) ∧
      nxt.x = if i.lo8.getLsbD 4 then some false else st.x := by
  obtain ⟨nxt', hnxt, h⟩ := bind_eq_ok_iff.mp h
  cases h
  unfold nextState' at hnxt
  rw [hm] at hnxt
  cases hnxt
  unfold State.rep Insn.lo8
  simp [he]

theorem nextState_sep {i : Insn} {st nxt : State} (h : nextState i st = .ok nxt)
    (hm : i.mnemonic = .SEP) :
    nxt.m = (if i.lo8.getLsbD 5 then some true else st.m) ∧
      nxt.x = if i.lo8.getLsbD 4 then some true else st.x := by
  obtain ⟨nxt', hnxt, h⟩ := bind_eq_ok_iff.mp h
  cases h
  unfold nextState' at hnxt
  rw [hm] at hnxt
  cases hnxt
  unfold State.sep Insn.lo8
  simp

theorem getP_mx (r : RegFile) : (getP r).getLsbD 5 = r.m ∧ (getP r).getLsbD 4 = r.x := by
  have hbits : ∀ n v m x d i z c : Bool,
      (BitVec.ofBool n ++ BitVec.ofBool v ++ BitVec.ofBool m ++ BitVec.ofBool x ++
        BitVec.ofBool d ++ BitVec.ofBool i ++ BitVec.ofBool z ++ BitVec.ofBool c).getLsbD 5 = m ∧
      (BitVec.ofBool n ++ BitVec.ofBool v ++ BitVec.ofBool m ++ BitVec.ofBool x ++
        BitVec.ofBool d ++ BitVec.ofBool i ++ BitVec.ofBool z ++ BitVec.ofBool c).getLsbD 4 = x := by
    decide
  exact hbits _ _ _ _ _ _ _ _

theorem InMode.of_mode {r r' : RegFile} {k : Mode} (h : InMode r k) (hm : r'.mode = r.mode) :
    InMode r' k := by
  simp only [RegFile.mode, Prod.mk.injEq] at hm
  obtain ⟨hm, hx, he⟩ := hm
  exact ⟨fun b hb => hm.trans (h.m b hb), fun b hb => hx.trans (h.x b hb), he.trans h.native⟩

section

variable {i : Insn} {st nxt : State} {r : RegFile}

/-- What REP and SEP leave of a flag is what the decoder knows of it. -/
theorem flag_cleared {known : Option Bool} {flag v b : Bool} (h : ∀ b, known = some b → flag = b)
    (hb : (if v then some false else known) = some b) : (flag && !v) = b := by
  cases v with
  | true =>
    cases hb
    exact Bool.and_false flag
  | false =>
    rw [Bool.not_false, Bool.and_true]
    exact h b hb

theorem flag_set {known : Option Bool} {flag v b : Bool} (h : ∀ b, known = some b → flag = b)
    (hb : (if v then some true else known) = some b) : (flag || v) = b := by
  cases v with
  | true =>
    cases hb
    exact Bool.or_true flag
  | false =>
    rw [Bool.or_false]
    exact h b hb

theorem opRep_inMode (h : nextState i st = .ok nxt) (hm : i.mnemonic = .REP) (he : st.e = false)
    (hr : InMode r st.key) : InMode (opRep r i.lo8) nxt.key := by
  obtain ⟨hnm, hnx⟩ := nextState_rep h hm he
  obtain ⟨hpm, hpx⟩ := getP_mx r
  have hmode := setP_mode r (getP r &&& ~~~i.lo8)
  simp only [RegFile.mode, Prod.mk.injEq, BitVec.getLsbD_and, BitVec.getLsbD_not, hpm, hpx,
    hr.native, Bool.or_false] at hmode
  obtain ⟨hmm, hmx, hme⟩ := hmode
  exact ⟨fun b hb => hmm.trans (flag_cleared hr.m (hnm.symm.trans hb)),
    fun b hb => hmx.trans (flag_cleared hr.x (hnx.symm.trans hb)), hme⟩

theorem opSep_inMode (h : nextState i st = .ok nxt) (hm : i.mnemonic = .SEP)
    (hr : InMode r st.key) : InMode (opSep r i.lo8) nxt.key := by
  obtain ⟨hnm, hnx⟩ := nextState_sep h hm
  obtain ⟨hpm, hpx⟩ := getP_mx r
  have hmode := setP_mode r (getP r ||| i.lo8)
  simp only [RegFile.mode, Prod.mk.injEq, BitVec.getLsbD_or, hpm, hpx, hr.native,
    Bool.or_false] at hmode
  obtain ⟨hmm, hmx, hme⟩ := hmode
  exact ⟨fun b hb => hmm.trans (flag_set hr.m (hnm.symm.trans hb)),
    fun b hb => hmx.trans (flag_set hr.x (hnx.symm.trans hb)), hme⟩

theorem opXce_mode (hc : r.c = false) (he : r.e = false) : (opXce r).mode = r.mode := by
  unfold opXce RegFile.mode
  simp [hc, he]

variable {σ : Type} [Board σ]

theorem opStmt_template {r' : RegFile} {w w' : Wire σ} (h : opStmt i r w = some (r', w')) :
    ∃ wd f, i.width = some wd ∧ templates i.opcode wd = some (.body f) ∧
      f i r w = some (r', w') := by
  unfold opStmt at h
  cases ht : i.width.bind (templates i.opcode : Width → Option (Template σ)) with
  | none =>
    rw [ht] at h
    cases h
  | some t =>
    rw [ht] at h
    cases t with
    | body f =>
      obtain ⟨wd, hwd, ht⟩ := Option.bind_eq_some_iff.mp ht
      exact ⟨wd, f, hwd, ht, h⟩
    | branch cond => cases h
    | ret f => cases h

/-- A template leaves M and X as the decoder has them behind it; PLP pulls them. -/
theorem opStmt_inMode (hd : i.Decoded) (hnext : nextState i st = .ok nxt) (hst : st.e = false)
    (hr : InMode r st.key) (hmvn : i.opcode ≠ 0x54) (hxce : i.mnemonic = .XCE → r.c = false) :
    Yields (opStmt i r : BusM σ RegFile) fun r' =>
      r'.e = false ∧ (i.mnemonic ≠ .PLP → InMode r' nxt.key) := by
  intro w r' w' hrun
  obtain ⟨wd, f, -, ht, hf⟩ := opStmt_template hrun
  have hmnemonic : i.mnemonic = (opcodes i.opcode).1 := by rw [hd.op]
  have hsame (hm : r'.mode = r.mode) (hplp : i.mnemonic ≠ .PLP) (hrep : i.mnemonic ≠ .REP)
      (hsep : i.mnemonic ≠ .SEP) : r'.e = false ∧ (i.mnemonic ≠ .PLP → InMode r' nxt.key) := by
    obtain ⟨hnm, hnx⟩ := nextState_same hnext hplp hrep hsep hst
    have hr' := hr.of_mode hm
    refine ⟨hr'.native, fun _ => ⟨fun b hb => hr'.m b ?_, fun b hb => hr'.x b ?_, hr'.native⟩⟩
    · exact hnm.symm.trans hb
    · exact hnx.symm.trans hb
  by_cases hop : i.opcode ∈ modeOps
  · simp only [modeOps, List.mem_cons, List.not_mem_nil, or_false] at hop
    rcases hop with hop | hop | hop | hop <;> rw [hop] at ht <;> cases wd <;> cases ht
    · -- PLP
      have hm : i.mnemonic = .PLP := by rw [hmnemonic, hop]; rfl
      have hmode : Yields (pull8 r >>= fun p => pure (setP p.2 p.1) : BusM σ RegFile) fun r' =>
          r'.e = r.e := (pull8_mode r).bind fun p hp => .pure <| by
        have he : p.2.e = r.e := (Prod.mk.inj (Prod.mk.inj hp).2).2
        exact (Prod.mk.inj (Prod.mk.inj (setP_mode p.2 p.1)).2).2.trans he
      exact ⟨(hmode w r' w' hf).trans hr.native, fun hplp => absurd hm hplp⟩
    · -- REP
      have hm : i.mnemonic = .REP := by rw [hmnemonic, hop]; rfl
      cases hf
      have hr' := opRep_inMode hnext hm hst hr
      exact ⟨hr'.native, fun _ => hr'⟩
    · -- SEP
      have hm : i.mnemonic = .SEP := by rw [hmnemonic, hop]; rfl
      cases hf
      have hr' := opSep_inMode hnext hm hr
      exact ⟨hr'.native, fun _ => hr'⟩
    · -- XCE
      have hm : i.mnemonic = .XCE := by rw [hmnemonic, hop]; rfl
      cases hf
      refine hsame (opXce_mode (hxce hm) hr.native) ?_ ?_ ?_ <;> rw [hm] <;> decide
  · have hkept : (Template.body f : Template σ).KeepsMode := templates_mode hop hmvn ht
    have hout (mn : Mnemonic) (hmn : mn ∈ [Mnemonic.PLP, .REP, .SEP, .XCE]) : i.mnemonic ≠ mn :=
      fun h => hop (opcodes_mode i.opcode (hmnemonic ▸ h ▸ hmn))
    exact hsame (hkept i r w r' w' hf) (hout _ (by decide)) (hout _ (by decide))
      (hout _ (by decide))

end

end CtRecomp
