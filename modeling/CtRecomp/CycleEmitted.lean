import CtRecomp.CycleAccesses
import CtRecomp.TemplateAgree

namespace CtRecomp

/-! The accesses of emitted statements. -/

section

variable {σ : Type}

theorem adc8_makes (r : RegFile) (v : BitVec 8) : Makes 0 (adc8 r v : BusM σ RegFile) always :=
  .ite (fun _ => .fatal) fun _ => .pure trivial

theorem adc16_makes (r : RegFile) (v : BitVec 16) : Makes 0 (adc16 r v : BusM σ RegFile) always :=
  .ite (fun _ => .fatal) fun _ => .pure trivial

end

section

variable {σ : Type} [Board σ]

theorem makes_push8 (r : RegFile) (v : BitVec 8) : Makes 1 (push8 r v : BusM σ RegFile) always :=
  (makes_write8 _ _).then fun _ _ => .pure trivial

theorem makes_pull8 (r : RegFile) : Makes 1 (pull8 r : BusM σ (BitVec 8 × RegFile)) always :=
  (makes_read8 _).then fun _ _ => .pure trivial

theorem makes_push16 (r : RegFile) (v : BitVec 16) : Makes 2 (push16 r v : BusM σ RegFile) always :=
  (makes_push8 _ _).bind fun _ _ => makes_push8 _ _

theorem makes_pull16 (r : RegFile) : Makes 2 (pull16 r : BusM σ (BitVec 16 × RegFile)) always :=
  (makes_pull8 _).bind fun _ _ => (makes_pull8 _).then fun _ _ => .pure trivial

theorem makes_read16B0 (a : BitVec 24) : Makes 2 (read16B0 a : BusM σ (BitVec 16)) always :=
  (makes_read8 _).bind fun _ _ => (makes_read8 _).then fun _ _ => .pure trivial

theorem makes_write16B0 (a : BitVec 24) (v : BitVec 16) :
    Makes 2 (write16B0 a v : BusM σ Unit) always :=
  (makes_write8 _ _).bind fun _ _ => makes_write8 _ _

theorem makes_eaDpInd (r : RegFile) (d : BitVec 8) :
    Makes 2 (eaDpInd r d : BusM σ (BitVec 24)) always :=
  (makes_read16B0 _).then fun _ _ => .pure trivial

theorem makes_eaDpIndLong (r : RegFile) (d : BitVec 8) :
    Makes 3 (eaDpIndLong r d : BusM σ (BitVec 24)) always :=
  (makes_read16B0 _).bind fun _ _ => (makes_read8 _).then fun _ _ => .pure trivial

theorem makes_mvnByte (dst src : BitVec 8) (r : RegFile) :
    Makes 2 (mvnByte dst src r : BusM σ RegFile) always :=
  (makes_read8 _).bind fun _ _ => (makes_write8 _ _).then fun _ _ => .pure trivial

/-- Mnemonics by what they do with a memory operand. -/
def readers : List Mnemonic :=
  [.ORA, .AND, .EOR, .ADC, .LDA, .CMP, .SBC, .BIT, .LDX, .LDY, .CPX, .CPY]

def writers : List Mnemonic := [.STA, .STX, .STY, .STZ]

def modifiers : List Mnemonic := [.ASL, .ROL, .LSR, .ROR, .INC, .DEC, .TSB, .TRB]

/-- The `{w}` forms of one width make the accesses of that width. -/
structure Sized.Counts {n : Nat} (o : Sized σ n) (wide : Bool) : Prop where
  rd : ∀ a b0, Makes (1 + wide.toNat) (o.rd a b0) always
  wr : ∀ a b0 v, Makes (1 + wide.toNat) (o.wr a b0 v) always
  wrRmw : ∀ a b0 v, Makes (1 + wide.toNat) (o.wrRmw a b0 v) always
  adc : ∀ r v, Makes 0 (o.adc r v) always
  sbc : ∀ r v, Makes 0 (o.sbc r v) always
  push : ∀ r v, Makes (1 + wide.toNat) (o.push r v) always
  pull : ∀ r, Makes (1 + wide.toNat) (o.pull r) always
  loads : ∀ {mn f}, o.loads mn = some f → mn ∈ readers
  rmw : ∀ {mn f}, o.rmw mn = some f → mn ∈ modifiers

theorem sized8_counts : (sized8 : Sized σ 8).Counts false where
  rd a _ := makes_read8 a
  wr a _ v := makes_write8 a v
  wrRmw a _ v := makes_write8 a v
  adc := adc8_makes
  sbc _ _ := .ite (fun _ => .fatal) fun _ => adc8_makes _ _
  push := makes_push8
  pull _ := (makes_pull8 _).then fun _ _ => .pure trivial
  loads {mn f} hf := by
    revert hf
    cases mn <;> first | (intro hf; cases hf; done) | (intro _; decide)
  rmw {mn f} hf := by
    revert hf
    cases mn <;> first | (intro hf; cases hf; done) | (intro _; decide)

theorem sized16_counts : (sized16 : Sized σ 16).Counts true where
  rd _ _ := .ite (fun _ => makes_read16B0 _) fun _ =>
    (makes_read8 _).bind fun _ _ => (makes_read8 _).then fun _ _ => .pure trivial
  wr _ _ _ := .ite (fun _ => makes_write16B0 _ _) fun _ =>
    (makes_write8 _ _).bind fun _ _ => makes_write8 _ _
  wrRmw _ _ _ := .ite (fun _ => (makes_write8 _ _).bind fun _ _ => makes_write8 _ _) fun _ =>
    (makes_write8 _ _).bind fun _ _ => makes_write8 _ _
  adc := adc16_makes
  sbc _ _ := .ite (fun _ => .fatal) fun _ => adc16_makes _ _
  push := makes_push16
  pull := makes_pull16
  loads {mn f} hf := by
    revert hf
    cases mn <;> first | (intro hf; cases hf; done) | (intro _; decide)
  rmw {mn f} hf := by
    revert hf
    cases mn <;> first | (intro hf; cases hf; done) | (intro _; decide)

theorem eaTemplate_makes {md : AddrMode} {f : Insn → RegFile → BusM σ (BitVec 24)} {b0 : Bool}
    (h : eaTemplate md = some (f, b0)) (i : Insn) (r : RegFile) :
    Makes (imode md).pointerReads (f i r) always := by
  revert h
  cases md with
  | dp | dpX | dpY | sr | abs | long | longX =>
    intro h
    cases h
    exact .pure trivial
  | absX | absY =>
    intro h
    cases h
    exact (makes_setCross _).then fun _ _ => .pure trivial
  | dpInd | dpXInd =>
    intro h
    cases h
    exact (makes_read16B0 _).then fun _ _ => .pure trivial
  | dpIndY =>
    intro h
    cases h
    exact (makes_eaDpInd _ _).then fun _ _ => (makes_setCross _).then fun _ _ => .pure trivial
  | dpIndLong =>
    intro h
    cases h
    exact makes_eaDpIndLong _ _
  | dpIndLongY =>
    intro h
    cases h
    exact (makes_eaDpIndLong _ _).then fun _ _ => .pure trivial
  | srIndY =>
    intro h
    cases h
    exact (makes_read16B0 _).then fun _ _ => .pure trivial
  | _ =>
    intro h
    cases h

variable {n : Nat} {o : Sized σ n} {wide : Bool} {md : AddrMode} {mn : Mnemonic} {t : Template σ}

theorem value_makes (ho : o.Counts wide) {val : Insn → RegFile → BusM σ (BitVec n)}
    (h : value o md = some val) (i : Insn) (r : RegFile) :
    Makes ((imode md).loadReads wide) (val i r) always := by
  unfold value at h
  split at h
  next himm =>
    cases h
    have hmode : imode md = .imm := by rcases himm with rfl | rfl <;> rfl
    rw [IMode.loadReads, if_pos hmode]
    exact .pure trivial
  next =>
    obtain ⟨⟨ea, b0⟩, hea, hval⟩ := Option.map_eq_some_iff.mp h
    cases hval
    rw [IMode.loadReads, if_neg (imode_ne_imm hea)]
    refine ((eaTemplate_makes hea i r).bind fun a _ => ho.rd a b0).of_eq ?_
    omega

/-- A template is statements that make `n` accesses. -/
def Template.Counts (t : Template σ) (n : Nat) : Prop :=
  ∃ f, t = .body f ∧ ∀ i r, Makes n (f i r) always

theorem loadTemplate_counts (ho : o.Counts wide) (ht : loadTemplate o mn md = some t) :
    t.Counts ((imode md).loadReads wide) ∧ mn ∈ readers := by
  obtain ⟨load, hload, ht⟩ := Option.bind_eq_some_iff.mp ht
  obtain ⟨val, hval, ht⟩ := Option.bind_eq_some_iff.mp ht
  cases ht
  refine ⟨⟨_, rfl, fun i r => ?_⟩, ho.loads hload⟩
  exact (value_makes ho hval i r).then fun _ _ => .pure trivial

theorem arithTemplate_counts (ho : o.Counts wide) (ht : arithTemplate o mn md = some t) :
    t.Counts ((imode md).loadReads wide) ∧ mn ∈ readers := by
  obtain ⟨op, hop, ht⟩ := Option.bind_eq_some_iff.mp ht
  obtain ⟨val, hval, ht⟩ := Option.bind_eq_some_iff.mp ht
  cases ht
  refine ⟨⟨_, rfl, fun i r => (value_makes ho hval i r).then fun v _ => ?_⟩, ?_⟩
  · revert hop
    cases mn with
    | ADC =>
      intro hop
      cases hop
      exact ho.adc _ _
    | SBC =>
      intro hop
      cases hop
      exact ho.sbc _ _
    | _ =>
      intro hop
      cases hop
  · revert hop
    cases mn <;> first | (intro hop; cases hop; done) | (intro _; decide)

theorem cmpTemplate_counts (ho : o.Counts wide) (ht : cmpTemplate o mn md = some t) :
    t.Counts ((imode md).loadReads wide) ∧ mn ∈ readers := by
  obtain ⟨reg, hreg, ht⟩ := Option.bind_eq_some_iff.mp ht
  obtain ⟨val, hval, ht⟩ := Option.bind_eq_some_iff.mp ht
  cases ht
  refine ⟨⟨_, rfl, fun i r => (value_makes ho hval i r).then fun _ _ => .pure trivial⟩, ?_⟩
  revert hreg
  cases mn <;> first | (intro hreg; cases hreg; done) | (intro _; decide)

theorem bitTemplate_counts (ho : o.Counts wide) (ht : bitTemplate o mn md = some t) :
    t.Counts ((imode md).loadReads wide) ∧ mn ∈ readers := by
  unfold bitTemplate at ht
  split at ht
  next hmn =>
    obtain ⟨val, hval, ht⟩ := Option.bind_eq_some_iff.mp ht
    cases ht
    refine ⟨⟨_, rfl, fun i r => (value_makes ho hval i r).then fun _ _ => .pure trivial⟩, ?_⟩
    rw [hmn]
    decide
  next => cases ht

theorem storeTemplate_counts (ho : o.Counts wide) (ht : storeTemplate o mn md = some t) :
    t.Counts ((imode md).pointerReads + 1 + wide.toNat) ∧ mn ∈ writers := by
  obtain ⟨src, hsrc, ht⟩ := Option.bind_eq_some_iff.mp ht
  obtain ⟨⟨ea, b0⟩, hea, ht⟩ := Option.bind_eq_some_iff.mp ht
  cases ht
  refine ⟨⟨_, rfl, fun i r => ?_⟩, ?_⟩
  · refine ((eaTemplate_makes hea i r).bind fun a _ =>
      (ho.wr a b0 _).then fun _ _ => .pure trivial).of_eq ?_
    omega
  · revert hsrc
    cases mn <;> first | (intro hsrc; cases hsrc; done) | (intro _; decide)

theorem rmwTemplate_counts (ho : o.Counts wide) (ht : rmwTemplate o mn md = some t) :
    t.Counts (if md = .acc then 0 else (imode md).pointerReads + 2 + 2 * wide.toNat) ∧
      mn ∈ modifiers := by
  obtain ⟨op, hop, ht⟩ := Option.bind_eq_some_iff.mp ht
  refine ⟨?_, ho.rmw hop⟩
  by_cases hacc : md = .acc
  · rw [if_pos hacc] at ht ⊢
    cases ht
    exact ⟨_, rfl, fun i r => .pure trivial⟩
  · rw [if_neg hacc] at ht ⊢
    obtain ⟨⟨ea, b0⟩, hea, ht⟩ := Option.bind_eq_some_iff.mp ht
    cases ht
    refine ⟨_, rfl, fun i r => ?_⟩
    refine ((eaTemplate_makes hea i r).bind fun a _ => (ho.rd a b0).bind fun v _ =>
      (ho.wrRmw a b0 _).then fun _ _ => .pure trivial).of_eq ?_
    omega

theorem tally_reader (h : mn ∈ readers) :
    (accessTally mn md).at wide wide false = (imode md).loadReads wide := by
  revert h
  cases mn with
  | ORA | AND | EOR | ADC | LDA | CMP | SBC | BIT => exact fun _ => (loadReads_m _ _ _ _).symm
  | LDX | LDY | CPX | CPY => exact fun _ => (loadReads_x _ _ _ _).symm
  | _ => exact fun h => absurd h (by decide)

theorem tally_writer (h : mn ∈ writers) :
    (accessTally mn md).at wide wide false = (imode md).pointerReads + 1 + wide.toNat := by
  revert h
  cases mn with
  | STA | STX | STY | STZ =>
    intro _
    simp [accessTally, Tally.at]
  | _ => exact fun h => absurd h (by decide)

theorem tally_modifier (hf : TableFacts mn md) (h : mn ∈ modifiers) :
    (accessTally mn md).at wide wide false =
      if md = .acc then 0 else (imode md).pointerReads + 2 + 2 * wide.toNat := by
  have hacc := hf.acc
  revert h hacc
  cases mn with
  | ASL | ROL | LSR | ROR | INC | DEC =>
    intro _ _
    by_cases hmd : md = .acc <;> simp [accessTally, Tally.at, Tally.const, hmd, Nat.mul_comm]
  | TSB | TRB =>
    intro _ hacc
    have hmd : md ≠ .acc := fun hmd => Bool.noConfusion (hacc hmd)
    simp [accessTally, Tally.at, hmd, Nat.mul_comm]
  | _ => exact fun h => absurd h (by decide)

/-- A template of one width makes the accesses of that width. -/
theorem generateSized_counts (ho : o.Counts wide) (hf : TableFacts mn md)
    (ht : generateSized o mn md = some t) : t.Counts ((accessTally mn md).at wide wide false) := by
  rcases of_orElse ht with ht | ht
  · obtain ⟨hc, hmn⟩ := loadTemplate_counts ho ht
    rwa [tally_reader hmn]
  rcases of_orElse ht with ht | ht
  · obtain ⟨hc, hmn⟩ := arithTemplate_counts ho ht
    rwa [tally_reader hmn]
  rcases of_orElse ht with ht | ht
  · obtain ⟨hc, hmn⟩ := cmpTemplate_counts ho ht
    rwa [tally_reader hmn]
  rcases of_orElse ht with ht | ht
  · obtain ⟨hc, hmn⟩ := bitTemplate_counts ho ht
    rwa [tally_reader hmn]
  rcases of_orElse ht with ht | ht
  · obtain ⟨hc, hmn⟩ := storeTemplate_counts ho ht
    rwa [tally_writer hmn]
  rcases of_orElse ht with ht | ht
  · obtain ⟨hc, hmn⟩ := rmwTemplate_counts ho ht
    rwa [tally_modifier hf hmn]
  rcases of_orElse ht with ht | ht
  · revert ht
    cases mn with
    | TAX | TAY | TXA | TYA | TXY | TYX | TSX =>
      intro ht
      cases ht
      exact ⟨_, rfl, fun i r => (Makes.pure trivial).of_eq (Tally.at_const 0 _ _ _).symm⟩
    | _ =>
      intro ht
      cases ht
  rcases of_orElse ht with ht | ht
  · revert ht
    cases mn with
    | INX | INY | DEX | DEY =>
      intro ht
      cases ht
      exact ⟨_, rfl, fun i r => (Makes.pure trivial).of_eq (Tally.at_const 0 _ _ _).symm⟩
    | _ =>
      intro ht
      cases ht
  · revert ht
    cases mn with
    | PHA | PHX | PHY =>
      intro ht
      cases ht
      exact ⟨_, rfl, fun i r => (ho.push _ _).of_eq (by simp [accessTally, Tally.at])⟩
    | PLA | PLX | PLY =>
      intro ht
      cases ht
      exact ⟨_, rfl, fun i r => ((ho.pull _).then fun _ _ => .pure trivial).of_eq
        (by simp [accessTally, Tally.at])⟩
    | _ =>
      intro ht
      cases ht

end

section

variable {σ : Type} {i : Insn}

/-- Accesses of an instruction emitted for a static M and X, the native mode's. -/
def Insn.made (i : Insn) : Nat :=
  (accessTally i.mnemonic i.mode).at (i.m = some false) (i.x = some false) true

/-- Only one of M, X and E counts, and M or X only where it sizes the instruction. -/
structure TallyFacts (mn : Mnemonic) (md : AddrMode) : Prop where
  none : widthDependency mn = none → (accessTally mn md).m = 0 ∧ (accessTally mn md).x = 0
  m : widthDependency mn = some .m → (accessTally mn md).x = 0 ∧ (accessTally mn md).native = 0
  x : widthDependency mn = some .x → (accessTally mn md).m = 0 ∧ (accessTally mn md).native = 0

theorem tallyFacts (mn : Mnemonic) (md : AddrMode) : TallyFacts mn md := by
  constructor <;> cases mn <;> intro h <;>
    first
    | (cases h; done)
    | (constructor <;> simp only [accessTally] <;> (try split) <;> rfl)

theorem made_eq (wide : Bool) (hw : i.width = some (if wide then .w16 else .w8)) :
    (accessTally i.mnemonic i.mode).at wide wide false = i.made := by
  have hf := tallyFacts i.mnemonic i.mode
  unfold Insn.width at hw
  unfold Insn.made Tally.at
  cases hdep : widthDependency i.mnemonic with
  | none =>
    rw [hdep] at hw
    cases wide <;> cases hw
  | some dep =>
    rw [hdep] at hw
    cases dep with
    | m =>
      obtain ⟨b, hb, hbw⟩ := Option.map_eq_some_iff.mp hw
      obtain ⟨hx, hn⟩ := hf.m hdep
      cases b <;> cases wide <;> simp [hb, hx, hn] at hbw ⊢
    | x =>
      obtain ⟨b, hb, hbw⟩ := Option.map_eq_some_iff.mp hw
      obtain ⟨hm, hn⟩ := hf.x hdep
      cases b <;> cases wide <;> simp [hb, hm, hn] at hbw ⊢

theorem flag_makes {t : Template σ} (ht : flagTemplate i.mnemonic = some t) : t.Counts i.made := by
  unfold Insn.made
  revert ht
  cases i.mnemonic with
  | CLC | SEC | CLI | SEI | CLD | SED | CLV =>
    intro ht
    cases ht
    exact ⟨_, rfl, fun _ _ => (Makes.pure trivial).of_eq (Tally.at_const 0 _ _ _).symm⟩
  | _ =>
    intro ht
    cases ht

theorem ctLoop_makes (i : Insn) (target : BitVec 24) :
    Makes 0 (ctLoop i target : BusM σ Unit) always :=
  .ite (fun _ => makes_chargeBudget) fun _ => .pure trivial

theorem branchBody_makes (cond : RegFile → Bool) (r : RegFile) :
    Makes 0 (branchBody i cond r : BusM σ (RegFile × Flow)) always := by
  refine .ite (fun _ => ?_) fun _ => .pure trivial
  have hmark : Makes 0 (markTaken i : BusM σ Unit) always :=
    .ite (fun _ => .pure trivial) fun _ => makes_setTaken
  exact hmark.then fun _ _ => (ctLoop_makes _ _).then fun _ _ => .pure trivial

theorem branch_made {cond : RegFile → Bool} (hc : branchCond i.mnemonic = some cond) :
    i.made = 0 := by
  unfold Insn.made
  revert hc
  cases i.mnemonic with
  | BPL | BMI | BVC | BVS | BCC | BCS | BNE | BEQ | BRA | BRL => exact fun _ => Tally.at_const 0 _ _ _
  | _ =>
    intro hc
    cases hc

end

section

variable {σ : Type} [Board σ] {i : Insn}

/-- Special templates but RTS, RTL and MVN. -/
theorem special_makes (hd : i.Decoded) {wd : Width} {f : Insn → RegFile → BusM σ RegFile}
    (hop : i.opcode ∈ specialOps) (ht : special i.opcode wd = some (.body f))
    (hmvn : i.opcode ≠ 0x54) (r : RegFile) : Makes i.made (f i r) always := by
  have hfrom {op : BitVec 8} {mn : Mnemonic} {md : AddrMode} {g : Insn → RegFile → BusM σ RegFile}
      {n : Nat} (heq : i.opcode = op) (htab : opcodes op = (mn, md))
      (hsp : special op .any = some (.body g))
      (hnone : special (σ := σ) op .w8 = none ∧ special (σ := σ) op .w16 = none)
      (hn : ∀ m x, (accessTally mn md).at m x true = n)
      (hg : ∀ i r, Makes n (g i r) always) : Makes i.made (f i r) always := by
    obtain ⟨hmn, hmd⟩ := hd.at heq htab
    rw [special_body ht heq hsp hnone]
    refine (hg i r).of_eq ?_
    rw [Insn.made, hmn, hmd, hn]
  simp only [specialOps, List.mem_cons, List.not_mem_nil, or_false] at hop
  rcases hop with hop | hop | hop | hop | hop | hop | hop | hop | hop | hop | hop | hop | hop |
    hop | hop | hop | hop | hop | hop | hop | hop | hop | hop | hop | hop | hop | hop
  · -- PHP
    exact hfrom hop rfl rfl ⟨rfl, rfl⟩ (Tally.at_const 1 · · true) fun _ _ => makes_push8 _ _
  · -- PLP
    exact hfrom hop rfl rfl ⟨rfl, rfl⟩ (Tally.at_const 1 · · true) fun _ _ =>
      (makes_pull8 _).then fun _ _ => .pure trivial
  · -- RTS
    rw [hop] at ht
    cases wd <;> cases ht
  · -- RTL
    rw [hop] at ht
    cases wd <;> cases ht
  · -- TDC
    exact hfrom hop rfl rfl ⟨rfl, rfl⟩ (Tally.at_const 0 · · true) fun _ _ => .pure trivial
  · -- TCD
    exact hfrom hop rfl rfl ⟨rfl, rfl⟩ (Tally.at_const 0 · · true) fun _ _ => .pure trivial
  · -- TCS
    exact hfrom hop rfl rfl ⟨rfl, rfl⟩ (Tally.at_const 0 · · true) fun _ _ => .pure trivial
  · -- TSC
    exact hfrom hop rfl rfl ⟨rfl, rfl⟩ (Tally.at_const 0 · · true) fun _ _ => .pure trivial
  · -- TXS
    exact hfrom hop rfl rfl ⟨rfl, rfl⟩ (Tally.at_const 0 · · true) fun _ _ => .pure trivial
  · -- XBA
    exact hfrom hop rfl rfl ⟨rfl, rfl⟩ (Tally.at_const 0 · · true) fun _ _ => .pure trivial
  · -- PHB
    exact hfrom hop rfl rfl ⟨rfl, rfl⟩ (Tally.at_const 1 · · true) fun _ _ => makes_push8 _ _
  · -- PLB
    exact hfrom hop rfl rfl ⟨rfl, rfl⟩ (Tally.at_const 1 · · true) fun _ _ =>
      (makes_pull8 _).then fun _ _ => .pure trivial
  · -- PHD
    exact hfrom hop rfl rfl ⟨rfl, rfl⟩ (Tally.at_const 2 · · true) fun _ _ => makes_push16 _ _
  · -- PLD
    exact hfrom hop rfl rfl ⟨rfl, rfl⟩ (Tally.at_const 2 · · true) fun _ _ =>
      (makes_pull16 _).then fun _ _ => .pure trivial
  · -- PHK
    exact hfrom hop rfl rfl ⟨rfl, rfl⟩ (Tally.at_const 1 · · true) fun _ _ => makes_push8 _ _
  · -- PEA
    exact hfrom hop rfl rfl ⟨rfl, rfl⟩ (Tally.at_const 2 · · true) fun _ _ => makes_push16 _ _
  · -- PEI
    exact hfrom hop rfl rfl ⟨rfl, rfl⟩ (Tally.at_const 4 · · true) fun _ _ =>
      (makes_read16B0 _).bind fun _ _ => makes_push16 _ _
  · -- PER
    exact hfrom hop rfl rfl ⟨rfl, rfl⟩ (Tally.at_const 2 · · true) fun _ _ => makes_push16 _ _
  · -- REP
    exact hfrom hop rfl rfl ⟨rfl, rfl⟩ (Tally.at_const 0 · · true) fun _ _ => .pure trivial
  · -- SEP
    exact hfrom hop rfl rfl ⟨rfl, rfl⟩ (Tally.at_const 0 · · true) fun _ _ => .pure trivial
  · -- NOP
    exact hfrom hop rfl rfl ⟨rfl, rfl⟩ (Tally.at_const 0 · · true) fun _ _ => .pure trivial
  · -- XCE
    exact hfrom hop rfl rfl ⟨rfl, rfl⟩ (Tally.at_const 0 · · true) fun _ _ => .pure trivial
  · exact hfrom hop rfl rfl ⟨rfl, rfl⟩ (Tally.at_const 0 · · true) fun _ _ => .fatal
  · exact hfrom hop rfl rfl ⟨rfl, rfl⟩ (Tally.at_const 0 · · true) fun _ _ => .fatal
  · exact hfrom hop rfl rfl ⟨rfl, rfl⟩ (Tally.at_const 0 · · true) fun _ _ => .fatal
  · exact hfrom hop rfl rfl ⟨rfl, rfl⟩ (Tally.at_const 0 · · true) fun _ _ => .fatal
  · exact absurd hop hmvn

theorem plainBody_makes (hd : i.Decoded) {body : RegFile → BusM σ (RegFile × Flow)}
    (hb : plainBody i = some body) (hmvn : i.opcode ≠ 0x54) (r : RegFile) :
    Makes i.made (body r) always := by
  unfold plainBody at hb
  split at hb
  next hjmp =>
    obtain ⟨hmn, hmd⟩ := hd.at hjmp rfl
    cases hb
    refine Makes.of_eq (n := 0) ((ctLoop_makes _ _).then fun _ _ => .pure trivial) ?_
    rw [Insn.made, hmn, hmd]
    exact (Tally.at_const 0 _ _ _).symm
  next =>
    obtain ⟨wd, hwd, hb⟩ := Option.bind_eq_some_iff.mp hb
    obtain ⟨t, ht, hb'⟩ := Option.bind_eq_some_iff.mp hb
    have hbody {f : Insn → RegFile → BusM σ RegFile} (htf : t = .body f)
        (hf : Makes i.made (f i r) always) : Makes i.made (body r) always := by
      rw [htf] at hb'
      cases hb'
      exact hf.then fun _ _ => .pure trivial
    unfold templates at ht
    split at ht
    next hop =>
      cases t with
      | body f => exact hbody rfl (special_makes hd hop ht hmvn r)
      | branch cond => exact absurd ht (special_ne_branch _ _ _)
      | ret f => cases hb'
    next =>
      rw [hd.op] at ht
      cases wd with
      | w8 =>
        obtain ⟨f, htf, hf⟩ := generateSized_counts sized8_counts hd.facts ht
        exact hbody htf ((hf i r).of_eq (made_eq false hwd))
      | w16 =>
        obtain ⟨f, htf, hf⟩ := generateSized_counts sized16_counts hd.facts ht
        exact hbody htf ((hf i r).of_eq (made_eq true hwd))
      | any =>
        rcases of_orElse ht with ht | ht
        · obtain ⟨f, htf, hf⟩ := flag_makes ht
          exact hbody htf (hf i r)
        · obtain ⟨cond, hc, htc⟩ := Option.map_eq_some_iff.mp ht
          rw [← htc] at hb'
          cases hb'
          exact (branchBody_makes cond r).of_eq (branch_made hc).symm

/-- `read8` of an (abs,X) table's entry: two bus reads. -/
def readEntry (i : Insn) (r : RegFile) : BusM σ RegFile := do
  let p := i.lo16 + r.X
  let _ ← read8 (bank i.addr ++ p)
  let _ ← read8 (bank i.addr ++ (p + 1))
  return r

/-- JSR's and JSL's pushes: of the last byte of the call, in its own bank. -/
def pushCall (i : Insn) : Bool → RegFile → BusM σ RegFile
  | false, r => push16 r (low i.addr + 2)
  | true, r => do
    let r ← push8 r (bank i.addr)
    push16 r (low i.addr + 3)

/-- What `emit_function` writes from an instruction's `ct_insn` to the next one, on
the registers and the bus, with the frame scheduler there (`ct_exec_hook`). -/
inductive Emitted (i : Insn) : (RegFile → BusM σ RegFile) → Prop
  | plain {body} (h : plainBody i = some body) (hmvn : i.opcode ≠ 0x54) :
    Emitted i fun r => do
      let (r, _) ← body r
      return r
  /-- One byte of `mvn16`. -/
  | move (h : i.opcode = 0x54) :
    Emitted i fun r => mvnByte (i.operand.extractLsb' 0 8) (i.operand.extractLsb' 8 8)
      { r with DB := i.operand.extractLsb' 0 8 }
  | ret {f : Cpu → BusM σ Cpu} {wd} (h : templates i.opcode wd = some (.ret f)) (pb pc) :
    Emitted i fun r => do
      let c ← f ⟨r, pb, pc⟩
      return c.toRegFile
  | rti (h : i.opcode = 0x40) (pb pc) :
    Emitted i fun r => do
      let c ← opRti true ⟨r, pb, pc⟩
      return c.toRegFile
  /-- Compiled or interpreted callee, `extern_call`. -/
  | call (h : i.opcode = 0x20) : Emitted i (pushCall i false)
  | callLong (h : i.opcode = 0x22) : Emitted i (pushCall i true)
  | tail (h : i.opcode = 0x4C ∨ i.opcode = 0x5C) : Emitted i pure
  /-- The table is in funcs.toml: a `switch` on X reads nothing. -/
  | tableJump (h : i.opcode = 0x7C) : Emitted i pure
  | tableCall (h : i.opcode = 0xFC) : Emitted i (pushCall i false)
  /-- A table of unknown length. -/
  | dynJump (h : i.opcode = 0x7C) : Emitted i (readEntry i)
  | dynCall (h : i.opcode = 0xFC) : Emitted i fun r => pushCall i false r >>= readEntry i

theorem readEntry_makes (r : RegFile) : Makes 2 (readEntry i r : BusM σ RegFile) always :=
  (makes_read8 _).bind fun _ _ => (makes_read8 _).then fun _ _ => .pure trivial

theorem pushCall_makes (long : Bool) (r : RegFile) :
    Makes (2 + long.toNat) (pushCall i long r : BusM σ RegFile) always := by
  cases long with
  | false => exact makes_push16 _ _
  | true => exact (makes_push8 _ _).bind fun _ _ => makes_push16 _ _

theorem ret_templates {op : BitVec 8} {wd : Width} {f : Cpu → BusM σ Cpu}
    (h : templates op wd = some (.ret f)) : op = 0x60 ∧ f = opRts ∨ op = 0x6B ∧ f = opRtl := by
  have hbody {t : Template σ} {n : Nat} (hc : t.Counts n) : t ≠ .ret f := by
    rintro rfl
    obtain ⟨g, hg, -⟩ := hc
    cases hg
  unfold templates at h
  split at h
  next hop =>
    simp only [specialOps, List.mem_cons, List.not_mem_nil, or_false] at hop
    rcases hop with rfl | rfl | rfl | rfl | rfl | rfl | rfl | rfl | rfl | rfl | rfl | rfl | rfl |
      rfl | rfl | rfl | rfl | rfl | rfl | rfl | rfl | rfl | rfl | rfl | rfl | rfl | rfl <;>
      cases wd <;> cases h
    · exact .inl ⟨rfl, rfl⟩
    · exact .inr ⟨rfl, rfl⟩
  next =>
    cases wd with
    | w8 => exact absurd rfl (hbody (generateSized_counts sized8_counts (tableFacts op) h))
    | w16 => exact absurd rfl (hbody (generateSized_counts sized16_counts (tableFacts op) h))
    | any =>
      rcases of_orElse h with h | h
      · revert h
        cases (opcodes op).1 <;> (intro h; cases h)
      · obtain ⟨cond, -, hcond⟩ := Option.map_eq_some_iff.mp h
        cases hcond

/-- Emitted statements make the accesses of their static widths, or leave out the two
reads of a listed table. -/
theorem emitted_makes (hd : i.Decoded) {f : RegFile → BusM σ RegFile} (he : Emitted i f)
    (r : RegFile) : ∃ n, Makes n (f r) always ∧
      (n = i.made ∨ accessTally i.mnemonic i.mode = .const (n + 2)) := by
  have hmade {op : BitVec 8} {mn : Mnemonic} {md : AddrMode} {n : Nat} (hop : i.opcode = op)
      (htab : opcodes op = (mn, md)) (hn : ∀ m x, (accessTally mn md).at m x true = n) :
      i.made = n := by
    obtain ⟨hmn, hmd⟩ := hd.at hop htab
    rw [Insn.made, hmn, hmd, hn]
  have hcall (long : Bool) := pushCall_makes (σ := σ) (i := i) long r
  cases he with
  | plain h hmvn =>
    exact ⟨i.made, (plainBody_makes hd h hmvn r).then fun _ _ => .pure trivial, .inl rfl⟩
  | move h =>
    exact ⟨2, makes_mvnByte _ _ _, .inl (hmade h rfl (Tally.at_const 2 · · true)).symm⟩
  | ret h pb pc =>
    rcases ret_templates h with ⟨hop, rfl⟩ | ⟨hop, rfl⟩
    · refine ⟨2, ?_, .inl (hmade hop rfl (Tally.at_const 2 · · true)).symm⟩
      have hrts : Makes 2 (opRts ⟨r, pb, pc⟩ : BusM σ Cpu) always :=
        (makes_pull16 _).then fun _ _ => .pure trivial
      exact hrts.then fun _ _ => .pure trivial
    · refine ⟨3, ?_, .inl (hmade hop rfl (Tally.at_const 3 · · true)).symm⟩
      have hrtl : Makes 3 (opRtl ⟨r, pb, pc⟩ : BusM σ Cpu) always :=
        (makes_pull16 _).bind fun _ _ => (makes_pull8 _).then fun _ _ => .pure trivial
      exact hrtl.then fun _ _ => .pure trivial
  | rti h pb pc =>
    refine ⟨4, ?_, .inl (hmade h rfl fun m x => by simp [accessTally, Tally.at]).symm⟩
    have hrti : Makes 4 (opRti true ⟨r, pb, pc⟩ : BusM σ Cpu) always :=
      (makes_pull8 _).bind fun _ _ => (makes_pull16 _).bind fun _ _ =>
        (makes_pull8 _).then fun _ _ => .pure trivial
    exact hrti.then fun _ _ => .pure trivial
  | call h => exact ⟨2, hcall false, .inl (hmade h rfl (Tally.at_const 2 · · true)).symm⟩
  | callLong h => exact ⟨3, hcall true, .inl (hmade h rfl (Tally.at_const 3 · · true)).symm⟩
  | tail h =>
    refine ⟨0, .pure trivial, .inl ?_⟩
    rcases h with h | h
    · exact (hmade h rfl (Tally.at_const 0 · · true)).symm
    · exact (hmade h rfl (Tally.at_const 0 · · true)).symm
  | tableJump h =>
    obtain ⟨hmn, hmd⟩ := hd.at h rfl
    exact ⟨0, .pure trivial, .inr (by rw [hmn, hmd]; rfl)⟩
  | tableCall h =>
    obtain ⟨hmn, hmd⟩ := hd.at h rfl
    exact ⟨2, hcall false, .inr (by rw [hmn, hmd]; rfl)⟩
  | dynJump h =>
    exact ⟨2, readEntry_makes r, .inl (hmade h rfl (Tally.at_const 2 · · true)).symm⟩
  | dynCall h =>
    exact ⟨4, (hcall false).bind fun r _ => readEntry_makes r,
      .inl (hmade h rfl (Tally.at_const 4 · · true)).symm⟩

end

end CtRecomp
