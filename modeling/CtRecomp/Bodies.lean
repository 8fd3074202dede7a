import CtRecomp.Families

namespace CtRecomp

/-! Every emitted body that stays in its function against `step`. -/

variable {σ : Type} [Board σ]

/-- The interpreter's state where an emitted body leaves control. -/
def Exec.arrive (c : Exec) (p : RegFile × Flow) : Exec :=
  match p.2 with
  | .next => c.setRegs p.1
  | .goto t => { c.setRegs p.1 with PB := bank t, PC := low t }

/-- The interpreter's `s` does what an emitted body does, jumps included. -/
def Emulates (s : BusM σ Exec) (c : Exec) (w : Wire σ) (i : Insn)
    (body : RegFile → BusM σ (RegFile × Flow)) : Prop :=
  s w = (body c.toRegFile >>= fun p => return (c.after w.bus i).arrive p)
    { w with mdr := i.last }

theorem append_le_append (hi : BitVec 8) (a b : BitVec 16) : hi ++ a ≤ hi ++ b ↔ a ≤ b := by
  rw [BitVec.le_def, BitVec.le_def, BitVec.toNat_append, BitVec.toNat_append]
  have ha := a.isLt
  have hb := b.isLt
  rw [← Nat.shiftLeft_add_eq_or_of_lt ha, ← Nat.shiftLeft_add_eq_or_of_lt hb]
  omega

section

variable {c : Exec} {w : Wire σ} {i : Insn}

theorem Matches.emulates {s : BusM σ Exec} {f : Insn → RegFile → BusM σ RegFile}
    (h : Matches s c w i f) : Emulates s c w i fun r => f i r >>= fun r => return (r, .next) := by
  unfold Emulates
  rw [h]
  simp only [bind_assoc, pure_bind]
  rfl

theorem Exec.arrive_goto {c : Exec} {t : BitVec 24} (ht : c.PB = bank t) (r : RegFile) :
    c.arrive (r, .goto t) = { c.setRegs r with PC := low t } := by
  simp only [Exec.arrive, ← ht]
  rfl

omit [Board σ] in
/-- `loop_tick` and `ct_loop` charge the same jumps. -/
theorem loopTick_eq {target : BitVec 24} (h : bank target = bank i.addr) :
    (loopTick i.addr (low target) : BusM σ Unit) = ctLoop i target := by
  have hle : target ≤ i.addr ↔ low target ≤ low i.addr := by
    rw [← bank_append_low target, ← bank_append_low i.addr, h, append_le_append, low_append,
      low_append]
  unfold loopTick ctLoop
  by_cases hlt : low i.addr < low target
  · have hnot : ¬target ≤ i.addr := by
      rw [hle]
      exact BitVec.not_le.mpr hlt
    rw [if_pos hlt, if_neg hnot]
  · have hle' : target ≤ i.addr := hle.mpr (BitVec.not_lt.mp hlt)
    rw [if_neg hlt, if_pos hle']

theorem bank_branchTarget (i : Insn) : bank i.branchTarget = bank i.addr := bank_append _ _

theorem branch_emulates (hd : i.Decoded) (hl : Located c w.bus i) (hmode : i.mode = .rel)
    (hbrl : i.mnemonic ≠ .BRL) (cond : RegFile → Bool) :
    Emulates (branch c i.addr (cond c.toRegFile)) c w i (branchBody i cond) := by
  have hs : i.size = 2 := hd.size_eq (by rw [hmode]; rfl)
  have hpc : low i.nextAddr + i.lo8.signExtend 16 = low i.branchTarget := by
    unfold Insn.nextAddr Insn.branchTarget
    rw [low_append, low_append, if_pos hmode]
  unfold Emulates branch branchBody
  rw [fetch8_operand hl hs]
  cases cond c.toRegFile with
  | true =>
    have hmark : (markTaken i : BusM σ Unit) = setTaken := if_neg hbrl
    have hpb : (c.after w.bus i).PB = bank i.branchTarget :=
      hl.pb.trans (bank_branchTarget i).symm
    simp only [↓reduceIte, hmark, bind_assoc, pure_bind, Exec.arrive_goto hpb]
    simp only [Exec.after, hpc]
    rw [loopTick_eq (bank_branchTarget i)]
    rfl
  | false => rfl

theorem brl_emulates (hd : i.Decoded) (hl : Located c w.bus i) (hmn : i.mnemonic = .BRL)
    (hmode : i.mode = .rlong) (h : Host σ) :
    Emulates (stepBy h c i.addr .BRL .rlong) c w i (branchBody i fun _ => true) := by
  have hs : i.size = 3 := hd.size_eq (by rw [hmode]; rfl)
  have hpc : low i.nextAddr + i.lo16 = low i.branchTarget := by
    unfold Insn.nextAddr Insn.branchTarget
    rw [low_append, low_append, hmode, if_neg (by decide)]
  have hmark : (markTaken i : BusM σ Unit) = pure () := if_pos hmn
  have hpb : (c.after w.bus i).PB = bank i.branchTarget := hl.pb.trans (bank_branchTarget i).symm
  simp only [Emulates, stepBy, branchBody, ↓reduceIte, hmark, bind_assoc, pure_bind,
    Exec.arrive_goto hpb]
  rw [fetch16_operand hl hs]
  simp only [Exec.after, hpc]
  rw [loopTick_eq (bank_branchTarget i)]
  rfl

theorem jump_emulates (hd : i.Decoded) (hl : Located c w.bus i) (hmode : i.mode = .abs)
    (h : Host σ) : Emulates (stepBy h c i.addr .JMP .abs) c w i (jumpBody i) := by
  have hs : i.size = 3 := hd.size_eq (by rw [hmode]; rfl)
  have hlow : i.lo16 = low i.jumpTarget := (low_append _ _).symm
  have hpb : (c.after w.bus i).PB = bank i.jumpTarget := hl.pb.trans (bank_append _ _).symm
  simp only [Emulates, stepBy, jumpBody, bind_assoc, pure_bind, Exec.arrive_goto hpb]
  rw [fetch16_operand hl hs]
  simp only [hlow]
  have hbank : bank i.jumpTarget = bank i.addr := bank_append _ _
  rw [loopTick_eq hbank]
  rfl

theorem unpackP_eq (r : RegFile) (p : BitVec 8) : unpackP r p = setP r p := by
  unfold unpackP setP indexWidth
  cases r.e <;> simp

theorem exchangeCE_eq (r : RegFile) : exchangeCE r = opXce r := by
  unfold exchangeCE opXce indexWidth
  cases r.c <;> rfl

theorem Insn.Decoded.at (hd : i.Decoded) {op : BitVec 8} {mn : Mnemonic} {md : AddrMode}
    (h : i.opcode = op) (htab : opcodes op = (mn, md)) : i.mnemonic = mn ∧ i.mode = md := by
  have hop := hd.op
  rw [h, htab] at hop
  exact ⟨(congrArg Prod.fst hop).symm, (congrArg Prod.snd hop).symm⟩

omit [Board σ] in
theorem Insn.Decoded.facts (hd : i.Decoded) : TableFacts i.mnemonic i.mode := by
  have hf := tableFacts i.opcode
  rwa [hd.op] at hf

/-- A special template is the one of its opcode. -/
theorem special_body {wd : Width} {f g : Insn → RegFile → BusM σ RegFile} {op : BitVec 8}
    (ht : special i.opcode wd = some (.body f)) (hop : i.opcode = op)
    (hsp : special op .any = some (.body g))
    (hnone : special (σ := σ) op .w8 = none ∧ special (σ := σ) op .w16 = none) : f = g := by
  rw [hop] at ht
  cases wd with
  | any =>
    rw [hsp] at ht
    exact (Template.body.inj (Option.some.inj ht)).symm
  | w8 => rw [hnone.1] at ht; cases ht
  | w16 => rw [hnone.2] at ht; cases ht

theorem special_ne_branch (op : BitVec 8) (wd : Width) (cond : RegFile → Bool) :
    special (σ := σ) op wd ≠ some (.branch cond) := by
  unfold special
  split <;> simp

theorem special_implied {h : Host σ} {wd : Width} {f g : Insn → RegFile → BusM σ RegFile}
    {op : BitVec 8} {mn : Mnemonic} (hd : i.Decoded) (hl : Located c w.bus i)
    (hmdr : w.mdr = i.opcode) (ht : special i.opcode wd = some (.body f)) (hop : i.opcode = op)
    (htab : opcodes op = (mn, .impl)) (hsp : special op .any = some (.body g))
    (hnone : special (σ := σ) op .w8 = none ∧ special (σ := σ) op .w16 = none)
    (hstep : stepBy h c i.addr mn .impl = g i c.toRegFile >>= fun r => return c.setRegs r) :
    Matches (stepBy h c i.addr i.mnemonic i.mode) c w i f := by
  obtain ⟨hmn, hmd⟩ := hd.at hop htab
  have hs : i.size = 1 := hd.size_eq (by rw [hmd]; rfl)
  rw [hmn, hmd, special_body ht hop hsp hnone]
  exact implied_matches hl hmdr hs hstep

/-- BRK, COP, STP and WAI stop on both sides. -/
theorem special_fatal {h : Host σ} {wd : Width} {f : Insn → RegFile → BusM σ RegFile}
    {op : BitVec 8} {mn : Mnemonic} {md : AddrMode} (hd : i.Decoded)
    (ht : special i.opcode wd = some (.body f)) (hop : i.opcode = op)
    (htab : opcodes op = (mn, md)) (hsp : special (σ := σ) op .any = some (.body fun _ _ => ctFatal))
    (hnone : special (σ := σ) op .w8 = none ∧ special (σ := σ) op .w16 = none)
    (hstep : stepBy h c i.addr mn md = ctFatal) :
    Matches (stepBy h c i.addr i.mnemonic i.mode) c w i f := by
  obtain ⟨hmn, hmd⟩ := hd.at hop htab
  rw [hmn, hmd, special_body ht hop hsp hnone, hstep]
  rfl

theorem pea_matches (h : Host σ) (hd : i.Decoded) (hl : Located c w.bus i) (hmd : i.mode = .abs) :
    Matches (stepBy h c i.addr .PEA .abs) c w i fun i r => push16 r i.lo16 := by
  have hs : i.size = 3 := hd.size_eq (by rw [hmd]; rfl)
  simp only [Matches, stepBy]
  rw [fetch16_operand hl hs]
  simp only [pushReg, ↓reduceIte, pushw_eq]
  rfl

theorem pei_matches (h : Host σ) (hd : i.Decoded) (hl : Located c w.bus i) (hmd : i.mode = .dp) :
    Matches (stepBy h c i.addr .PEI .dp) c w i fun i r => read16B0 (eaDp r i.lo8) >>= push16 r := by
  have hs : i.size = 2 := hd.size_eq (by rw [hmd]; rfl)
  simp only [Matches, stepBy]
  rw [fetch8_operand hl hs]
  simp only [pushReg, ↓reduceIte, pushw_eq, rdBank0_16_eq, bind_assoc]
  rfl

theorem per_matches (h : Host σ) (hd : i.Decoded) (hl : Located c w.bus i)
    (hmd : i.mode = .rlong) :
    Matches (stepBy h c i.addr .PER .rlong) c w i fun i r => push16 r (low i.branchTarget) := by
  have hs : i.size = 3 := hd.size_eq (by rw [hmd]; rfl)
  have hpc : low i.nextAddr + i.lo16 = low i.branchTarget := by
    unfold Insn.nextAddr Insn.branchTarget
    rw [low_append, low_append, hmd, if_neg (by decide)]
  simp only [Matches, stepBy]
  rw [fetch16_operand hl hs]
  simp only [pushReg, ↓reduceIte, pushw_eq, Exec.after, hpc]

theorem rep_matches (h : Host σ) (hd : i.Decoded) (hl : Located c w.bus i) (hmd : i.mode = .imm) :
    Matches (stepBy h c i.addr .REP .imm) c w i fun i r => return opRep r i.lo8 := by
  have hs : i.size = 2 := hd.size_eq (by rw [hmd]; rfl)
  simp only [Matches, stepBy]
  rw [fetch8_operand hl hs]
  simp only [onRegs, unpackP_eq, pure_bind]
  rfl

theorem sep_matches (h : Host σ) (hd : i.Decoded) (hl : Located c w.bus i) (hmd : i.mode = .imm) :
    Matches (stepBy h c i.addr .SEP .imm) c w i fun i r => return opSep r i.lo8 := by
  have hs : i.size = 2 := hd.size_eq (by rw [hmd]; rfl)
  simp only [Matches, stepBy]
  rw [fetch8_operand hl hs]
  simp only [onRegs, unpackP_eq, pure_bind]
  rfl

theorem special_matches {h : Host σ} {wd : Width} {f : Insn → RegFile → BusM σ RegFile}
    (hd : i.Decoded) (hl : Located c w.bus i) (hmdr : w.mdr = i.opcode) (he : c.e = false)
    (hop : i.opcode ∈ specialOps) (ht : special i.opcode wd = some (.body f))
    (hmvn : i.opcode ≠ 0x54) (hwai : i.opcode = 0xCB → h.sys = false) :
    Matches (stepBy h c i.addr i.mnemonic i.mode) c w i f := by
  simp only [specialOps, List.mem_cons, List.not_mem_nil, or_false] at hop
  rcases hop with hop | hop | hop | hop | hop | hop | hop | hop | hop | hop | hop | hop | hop |
    hop | hop | hop | hop | hop | hop | hop | hop | hop | hop | hop | hop | hop | hop
  · -- PHP
    refine special_implied hd hl hmdr ht hop rfl rfl ⟨rfl, rfl⟩ ?_
    simp only [stepBy, push_eq]
    rfl
  · -- PLP
    refine special_implied hd hl hmdr ht hop rfl rfl ⟨rfl, rfl⟩ ?_
    simp only [stepBy, pull_eq, unpackP_eq, bind_assoc, pure_bind]
  · -- RTS
    rw [hop] at ht
    cases wd <;> cases ht
  · -- RTL
    rw [hop] at ht
    cases wd <;> cases ht
  · -- TDC
    refine special_implied hd hl hmdr ht hop rfl rfl ⟨rfl, rfl⟩ ?_
    simp only [stepBy, onRegs, nz_wide, pure_bind]
    rfl
  · -- TCD
    refine special_implied hd hl hmdr ht hop rfl rfl ⟨rfl, rfl⟩ ?_
    simp only [stepBy, onRegs, nz_wide, pure_bind]
  · -- TCS
    refine special_implied hd hl hmdr ht hop rfl rfl ⟨rfl, rfl⟩ ?_
    simp only [stepBy, onRegs, he, Bool.false_eq_true, ↓reduceIte, pure_bind]
  · -- TSC
    refine special_implied hd hl hmdr ht hop rfl rfl ⟨rfl, rfl⟩ ?_
    simp only [stepBy, onRegs, nz_wide, pure_bind]
  · -- TXS
    refine special_implied hd hl hmdr ht hop rfl rfl ⟨rfl, rfl⟩ ?_
    simp only [stepBy, onRegs, he, Bool.false_eq_true, ↓reduceIte, pure_bind]
  · -- XBA
    refine special_implied hd hl hmdr ht hop rfl rfl ⟨rfl, rfl⟩ ?_
    simp only [stepBy, onRegs, and_ff, nz_narrow, pure_bind]
    rfl
  · -- PHB
    refine special_implied hd hl hmdr ht hop rfl rfl ⟨rfl, rfl⟩ ?_
    simp only [stepBy, push_eq]
  · -- PLB
    refine special_implied hd hl hmdr ht hop rfl rfl ⟨rfl, rfl⟩ ?_
    simp only [stepBy, pull_eq, nz_narrow, bind_assoc, pure_bind]
  · -- PHD
    refine special_implied hd hl hmdr ht hop rfl rfl ⟨rfl, rfl⟩ ?_
    simp only [stepBy, pushReg, ↓reduceIte, pushw_eq]
  · -- PLD
    refine special_implied hd hl hmdr ht hop rfl rfl ⟨rfl, rfl⟩ ?_
    simp only [stepBy, pullw_eq, nz_wide, bind_assoc, pure_bind]
  · -- PHK
    refine special_implied hd hl hmdr ht hop rfl rfl ⟨rfl, rfl⟩ ?_
    simp only [stepBy, push_eq, hl.pb]
  · -- PEA
    obtain ⟨hmn, hmd⟩ := hd.at hop rfl
    rw [hmn, special_body ht hop rfl ⟨rfl, rfl⟩, hmd]
    exact pea_matches h hd hl hmd
  · -- PEI
    obtain ⟨hmn, hmd⟩ := hd.at hop rfl
    rw [hmn, special_body ht hop rfl ⟨rfl, rfl⟩, hmd]
    exact pei_matches h hd hl hmd
  · -- PER
    obtain ⟨hmn, hmd⟩ := hd.at hop rfl
    rw [hmn, special_body ht hop rfl ⟨rfl, rfl⟩, hmd]
    exact per_matches h hd hl hmd
  · -- REP
    obtain ⟨hmn, hmd⟩ := hd.at hop rfl
    rw [hmn, special_body ht hop rfl ⟨rfl, rfl⟩, hmd]
    exact rep_matches h hd hl hmd
  · -- SEP
    obtain ⟨hmn, hmd⟩ := hd.at hop rfl
    rw [hmn, special_body ht hop rfl ⟨rfl, rfl⟩, hmd]
    exact sep_matches h hd hl hmd
  · -- NOP
    exact special_implied hd hl hmdr ht hop rfl rfl ⟨rfl, rfl⟩ rfl
  · -- XCE
    refine special_implied hd hl hmdr ht hop rfl rfl ⟨rfl, rfl⟩ ?_
    simp only [stepBy, onRegs, exchangeCE_eq, pure_bind]
  · exact special_fatal hd ht hop rfl rfl ⟨rfl, rfl⟩ rfl
  · exact special_fatal hd ht hop rfl rfl ⟨rfl, rfl⟩ rfl
  · exact special_fatal hd ht hop rfl rfl ⟨rfl, rfl⟩ rfl
  · -- WAI
    refine special_fatal hd ht hop rfl rfl ⟨rfl, rfl⟩ ?_
    simp only [stepBy, wai, hwai hop, Bool.false_eq_true, ↓reduceIte]
  · exact absurd hop hmvn

theorem of_orElse {α : Type} {a b : Option α} {x : α} (h : (a <|> b) = some x) :
    a = some x ∨ b = some x := by
  cases a with
  | none => exact .inr h
  | some y => exact .inl h

/-- The CPU's M and X, where the static state knows them. -/
structure KnownWidths (c : RegFile) (i : Insn) : Prop where
  m : ∀ b, i.m = some b → c.m = b
  x : ∀ b, i.x = some b → c.x = b

theorem widthOf_width (hk : KnownWidths c.toRegFile i) (wide : Bool)
    (hwd : i.width = some (if wide then .w16 else .w8)) : WidthOf i.mnemonic c.toRegFile wide := by
  unfold Insn.width at hwd
  unfold WidthOf
  cases hdep : widthDependency i.mnemonic with
  | none => trivial
  | some dep =>
    rw [hdep] at hwd
    cases dep with
    | m =>
      obtain ⟨b, hb, hbw⟩ := Option.map_eq_some_iff.mp hwd
      have hc := hk.m b hb
      revert hbw
      cases b <;> cases wide <;> simp_all
    | x =>
      obtain ⟨b, hb, hbw⟩ := Option.map_eq_some_iff.mp hwd
      have hc := hk.x b hb
      revert hbw
      cases b <;> cases wide <;> simp_all

/-- An immediate is as wide as the register it goes with. -/
theorem immediate_size (hd : i.Decoded) (hk : KnownWidths c.toRegFile i) {wide : Bool}
    (hw : WidthOf i.mnemonic c.toRegFile wide) :
    i.mode = .immM ∨ i.mode = .immX → i.size = if wide then 3 else 2 := by
  have hf := hd.facts
  have hsize := hd.size
  have hpos := hd.pos
  rintro (hmd | hmd)
  · rw [hmd] at hsize
    obtain ⟨b, hb, hbs⟩ := Option.map_eq_some_iff.mp hsize
    have hc := hk.m b hb
    unfold WidthOf at hw
    rw [hf.immM hmd] at hw
    have hbw : b = !wide := hc.symm.trans hw
    subst hbw
    cases wide <;> simp at hbs ⊢ <;> omega
  · rw [hmd] at hsize
    obtain ⟨b, hb, hbs⟩ := Option.map_eq_some_iff.mp hsize
    have hc := hk.x b hb
    unfold WidthOf at hw
    rw [(hf.immX hmd).1] at hw
    have hbw : b = !wide := hc.symm.trans hw
    subst hbw
    cases wide <;> simp at hbs ⊢ <;> omega

theorem sized_matches {n : Nat} {o : Sized σ n} {wide : Bool} {zx : BitVec n → BitVec 16}
    {t : Template σ} (h : Host σ) (site : BitVec 24) (ho : o.Agrees wide zx)
    (ht : generateSized o i.mnemonic i.mode = some t) (hd : i.Decoded) (hl : Located c w.bus i)
    (hmdr : w.mdr = i.opcode) (hk : KnownWidths c.toRegFile i)
    (hw : WidthOf i.mnemonic c.toRegFile wide) (hn : c.toRegFile.Narrow) :
    ∃ f, t = .body f ∧ Matches (stepBy h c site i.mnemonic i.mode) c w i f := by
  have himm := immediate_size hd hk hw
  have hf := hd.facts
  have hone (hmem : i.mnemonic ∈ [Mnemonic.TAX, .TAY, .TXA, .TYA, .TXY, .TYX, .TSX, .INX, .INY,
      .DEX, .DEY, .PHA, .PHX, .PHY, .PLA, .PLX, .PLY]) : i.size = 1 :=
    hd.size_eq (by rw [hf.implied hmem]; rfl)
  rcases of_orElse ht with ht | ht
  · exact load_matches ho hd hl h site ht himm hw
  rcases of_orElse ht with ht | ht
  · exact arith_matches ho hd hl h site ht himm hw
  rcases of_orElse ht with ht | ht
  · exact cmp_matches ho hd hl h site ht himm hw hn
  rcases of_orElse ht with ht | ht
  · refine bit_matches ho hd hl h site ht himm hw fun hmd => (hf.immX hmd).2 ?_
    by_contra hne
    simp [bitTemplate, hne] at ht
  rcases of_orElse ht with ht | ht
  · exact store_matches ho hd hl h site ht hw hn
  rcases of_orElse ht with ht | ht
  · exact rmw_matches ho hd hl h site ht hmdr (fun hmd => Option.isSome_iff_exists.mp (hf.acc hmd)) hw
  rcases of_orElse ht with ht | ht
  · refine xfer_matches ho hl h site ht hmdr (hone ?_) hw hn
    revert ht
    cases i.mnemonic <;> first | (intro ht; cases ht; done) | (intro _; decide)
  rcases of_orElse ht with ht | ht
  · refine step_matches ho hl h site ht hmdr (hone ?_) hw
    revert ht
    cases i.mnemonic <;> first | (intro ht; cases ht; done) | (intro _; decide)
  · refine stack_matches ho hl h site ht hmdr (hone ?_) hw
    revert ht
    cases i.mnemonic <;> first | (intro ht; cases ht; done) | (intro _; decide)

theorem flag_matches {t : Template σ} (h : Host σ) (site : BitVec 24)
    (ht : flagTemplate i.mnemonic = some t) (hd : i.Decoded) (hl : Located c w.bus i)
    (hmdr : w.mdr = i.opcode) :
    ∃ f, t = .body f ∧ Matches (stepBy h c site i.mnemonic i.mode) c w i f := by
  have hf := hd.facts
  have hone (hmem : i.mnemonic ∈ [Mnemonic.CLC, .SEC, .CLI, .SEI, .CLD, .SED, .CLV]) :
      i.size = 1 := hd.size_eq (by rw [hf.flag hmem]; rfl)
  revert ht hone
  cases i.mnemonic with
  | CLC | SEC | CLI | SEI | CLD | SED | CLV =>
    intro ht hone
    cases ht
    exact ⟨_, rfl, implied_matches hl hmdr (hone (by decide)) rfl⟩
  | _ =>
    intro ht
    cases ht

theorem branches_emulate {cond : RegFile → Bool} (h : Host σ)
    (hc : branchCond i.mnemonic = some cond) (hd : i.Decoded) (hl : Located c w.bus i) :
    Emulates (stepBy h c i.addr i.mnemonic i.mode) c w i (branchBody i cond) := by
  have hf := hd.facts
  by_cases hbrl : i.mnemonic = .BRL
  · have hmd := hf.long hbrl
    have hcond : cond = fun _ => true := by
      rw [hbrl] at hc
      exact (Option.some.inj hc).symm
    have hemu := brl_emulates hd hl hbrl hmd h
    rw [hcond]
    rwa [← hmd, ← hbrl] at hemu
  · have hrel (hmem : i.mnemonic ∈ [Mnemonic.BPL, .BMI, .BVC, .BVS, .BCC, .BCS, .BNE, .BEQ, .BRA]) :=
      branch_emulates hd hl (hf.branch hmem) hbrl cond
    revert hc hrel hbrl
    cases i.mnemonic with
    | BPL | BMI | BVC | BVS | BCC | BCS | BNE | BEQ | BRA =>
      intro hc _ hrel
      cases hc
      exact hrel (by decide)
    | BRL =>
      intro _ hbrl
      exact absurd rfl hbrl
    | _ =>
      intro hc
      cases hc

/-- The body emitted for an instruction that stays in its function does what
the interpreter does, from the operand fetches on. -/
theorem plain_emulates (h : Host σ) {body : RegFile → BusM σ (RegFile × Flow)}
    (hb : plainBody i = some body) (hd : i.Decoded) (hl : Located c w.bus i)
    (hmdr : w.mdr = i.opcode) (hk : KnownWidths c.toRegFile i) (he : c.e = false)
    (hn : c.toRegFile.Narrow) (hmvn : i.opcode ≠ 0x54) (hwai : i.opcode = 0xCB → h.sys = false) :
    Emulates (step h c i.addr i.opcode) c w i body := by
  have hstep : step h c i.addr i.opcode = stepBy h c i.addr i.mnemonic i.mode := by
    have hs := step_eq_stepBy h c i.addr i.opcode.toFin
    change step h c i.addr i.opcode =
      stepBy h c i.addr (opcodes i.opcode).1 (opcodes i.opcode).2 at hs
    rwa [hd.op] at hs
  rw [hstep]
  unfold plainBody at hb
  split at hb
  next hjmp =>
    obtain ⟨hmn, hmd⟩ := hd.at hjmp rfl
    cases hb
    have hemu := jump_emulates hd hl hmd h
    rwa [← hmd, ← hmn] at hemu
  next =>
    obtain ⟨wd, hwd, hb⟩ := Option.bind_eq_some_iff.mp hb
    obtain ⟨t, ht, hb'⟩ := Option.bind_eq_some_iff.mp hb
    have hbody {f : Insn → RegFile → BusM σ RegFile} (htf : t = .body f)
        (hf : Matches (stepBy h c i.addr i.mnemonic i.mode) c w i f) :
        Emulates (stepBy h c i.addr i.mnemonic i.mode) c w i body := by
      rw [htf] at hb'
      cases hb'
      exact hf.emulates
    unfold templates at ht
    split at ht
    next hop =>
      cases t with
      | body f => exact hbody rfl (special_matches hd hl hmdr he hop ht hmvn hwai)
      | branch cond => exact absurd ht (special_ne_branch _ _ _)
      | ret f => cases hb'
    next =>
      rw [hd.op] at ht
      cases wd with
      | w8 =>
        obtain ⟨f, htf, hf⟩ := sized_matches h i.addr sized8_agrees ht hd hl hmdr hk
          (widthOf_width hk false hwd) hn
        exact hbody htf hf
      | w16 =>
        obtain ⟨f, htf, hf⟩ := sized_matches h i.addr sized16_agrees ht hd hl hmdr hk
          (widthOf_width hk true hwd) hn
        exact hbody htf hf
      | any =>
        rcases of_orElse ht with ht | ht
        · obtain ⟨f, htf, hf⟩ := flag_matches h i.addr ht hd hl hmdr
          exact hbody htf hf
        · obtain ⟨cond, hc, htc⟩ := Option.map_eq_some_iff.mp ht
          rw [← htc] at hb'
          cases hb'
          exact branches_emulate h hc hd hl

end

end CtRecomp
