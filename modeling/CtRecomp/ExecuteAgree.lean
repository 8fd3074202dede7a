import CtRecomp.EmittedShape
import CtRecomp.ModeKept
import CtRecomp.TemplateAgree

namespace CtRecomp

/-! The interpreter's step on an instruction, beside the statements written for it. -/

theorem Cpu.pbpc_parts {c : Cpu} {a : BitVec 24} (h : c.pbpc = a) :
    c.PB = bank a ∧ c.PC = low a := by
  rw [← h]
  exact ⟨(bank_append _ _).symm, (low_append _ _).symm⟩

theorem Cpu.setPbpc_eq (c : Cpu) (a : BitVec 24) :
    c.setPbpc a = { c with PB := bank a, PC := low a } := rfl

@[simp] theorem Cpu.setPbpc_regs (c : Cpu) (a : BitVec 24) :
    (c.setPbpc a).toRegFile = c.toRegFile := rfl

@[simp] theorem Cpu.setRegs_regs (c : Cpu) (r : RegFile) : (c.setRegs r).toRegFile = r := rfl

/-- Where a call's return address leads. -/
theorem Insn.Decoded.back_eq {i : Insn} (hd : i.Decoded) : i.back = i.nextAddr := by
  have hpos := hd.pos
  have hadd : i.lastAddr + 1 = low i.addr + BitVec.ofNat 16 i.size := by
    unfold Insn.lastAddr
    rw [BitVec.add_assoc]
    congr 1
    rw [show i.size = i.size - 1 + 1 by omega, BitVec.ofNat_add]
    rfl
  rw [Insn.back, Insn.nextAddr, hadd]

theorem Insn.Decoded.last_eq {i : Insn} (hd : i.Decoded) : low i.nextAddr - 1 = i.lastAddr := by
  rw [← hd.back_eq, Insn.back, low_append, BitVec.add_sub_cancel]

section

variable {σ : Type} [Board σ]

/-- The return address's bytes. -/
def callPush (i : Insn) (r : RegFile) : BusM σ RegFile :=
  if i.opcode = 0x22 then do
    let r ← push8 r (bank i.addr)
    push16 r i.lastAddr
  else push16 r i.lastAddr

def Cpu.opened (c : Cpu) : Exec := ⟨{ c with PC := c.PC + 1 }, false, [], []⟩

variable {c : Cpu} {b : Bus σ} {i : Insn}

theorem execute_step (hpc : c.pbpc = i.addr) (he : c.e = false) (hp : Placed b i) :
    execute c b = (step systemHost c.opened i.addr i.opcode (startWire b i.opcode)).map
      fun p => (p.1.toCpu, p.2.bus) := by
  have hmem : (b.mem c.pbpc).isSome = true := by
    rw [hpc, hp.opcode]
    rfl
  unfold execute
  rw [if_pos hmem]
  have hf := fetch8_bind (c := ⟨c, false, [], []⟩) (w := startWire b 0) hpc hp.opcode fun p =>
    if p.2.e && !emulationOk p.1 then ctFatal
    else do
      let cur ← cycStart p.2.toRegFile c.pbpc p.1
      let c' ← step systemHost { p.2 with fetched := [] } c.pbpc p.1
      return (cur, c')
  have hstep : interpStep systemHost ⟨c, false, [], []⟩ (startWire b 0) = _ := hf
  have hnative : (c.e && !emulationOk i.opcode) = false := by rw [he, Bool.false_and]
  rw [hstep]
  dsimp only
  rw [hnative, hpc]
  change ((step systemHost c.opened i.addr i.opcode (startWire b i.opcode)).bind _).map _ = _
  cases step systemHost c.opened i.addr i.opcode (startWire b i.opcode) with
  | none => rfl
  | some p => rfl

theorem opened_located (hpc : c.pbpc = i.addr) (hp : Placed b i) : Located c.opened b i where
  pb := (Cpu.pbpc_parts hpc).1
  pc := by
    change c.PC + 1 = _
    rw [(Cpu.pbpc_parts hpc).2]
  placed := hp

theorem arrive_cpu (hpc : c.pbpc = i.addr) (r : RegFile) (f : Flow) :
    ((c.opened.after b i).arrive (r, f)).toCpu = (c.setRegs r).setPbpc (f.dest i) := by
  cases f with
  | next =>
    have hbank : c.PB = bank i.nextAddr := (Cpu.pbpc_parts hpc).1.trans (bank_append _ _).symm
    change ({ toRegFile := r, PB := c.PB, PC := low i.nextAddr } : Cpu) = _
    rw [hbank]
    rfl
  | goto t => rfl

theorem execute_emulates {body : RegFile → BusM σ (RegFile × Flow)} (hpc : c.pbpc = i.addr)
    (hp : Placed b i) (he : c.e = false)
    (h : Emulates (step systemHost c.opened i.addr i.opcode) c.opened (startWire b i.opcode) i
      body) :
    execute c b = (body c.toRegFile (startWire b i.last)).map fun p =>
      ((c.setRegs p.1.1).setPbpc (p.1.2.dest i), p.2.bus) := by
  rw [execute_step hpc he hp, h]
  change ((body c.toRegFile (startWire b i.last)).bind _).map _ = _
  cases body c.toRegFile (startWire b i.last) with
  | none => rfl
  | some q =>
    obtain ⟨⟨r, f⟩, w⟩ := q
    exact congrArg some (Prod.ext (arrive_cpu hpc r f) rfl)

/-- An instruction that stays in its function. -/
theorem execute_plain {body : RegFile → BusM σ (RegFile × Flow)} (hb : plainBody i = some body)
    (hd : i.Decoded) (hpc : c.pbpc = i.addr) (hp : Placed b i) (hk : KnownWidths c.toRegFile i)
    (he : c.e = false) (hn : c.toRegFile.Narrow) (hmvn : i.opcode ≠ 0x54) (hwai : i.opcode ≠ 0xCB) :
    execute c b = (body c.toRegFile (startWire b i.last)).map fun p =>
      ((c.setRegs p.1.1).setPbpc (p.1.2.dest i), p.2.bus) := by
  have hemu : Emulates _ _ (startWire b i.opcode) i body := plain_emulates systemHost hb hd
    (opened_located hpc hp) rfl hk he hn hmvn fun h => absurd h hwai
  exact execute_emulates hpc hp he hemu

theorem execute_branch {cond : RegFile → Bool} (hc : branchCond i.mnemonic = some cond)
    (hd : i.Decoded) (hpc : c.pbpc = i.addr) (hp : Placed b i) (he : c.e = false) :
    execute c b = (branchBody i cond c.toRegFile (startWire b i.last)).map fun p =>
      ((c.setRegs p.1.1).setPbpc (p.1.2.dest i), p.2.bus) := by
  refine execute_emulates hpc hp he ?_
  have hs := step_eq_stepBy (systemHost : Host σ) c.opened i.addr i.opcode.toFin
  change step systemHost c.opened i.addr i.opcode =
    stepBy systemHost c.opened i.addr (opcodes i.opcode).1 (opcodes i.opcode).2 at hs
  rw [hs, hd.op]
  exact branches_emulate systemHost hc hd (opened_located hpc hp)

theorem moveByte_mvnByte (e : Exec) (hx : e.x = false) (site : BitVec 24) (dst src : BitVec 8)
    (w : Wire σ) : (moveByte e site 1 dst src w).map (fun p => (p.1.toCpu, p.2.bus)) =
      (mvnByte dst src { e.toRegFile with DB := dst } w).map fun p =>
        (⟨p.1, e.PB, if p.1.A = 0xFFFF then e.PC else low site⟩, p.2.bus) := by
  obtain ⟨⟨⟨A, X, Y, S, DP, DB, n, v, m, x, d, i, z, c, ef⟩, PB, PC⟩, wt, sh, ft⟩ := e
  change x = false at hx
  subst hx
  change ((read8 (src ++ X) w).bind _).map _ = ((read8 (src ++ X) w).bind _).map _
  cases read8 (src ++ X) w with
  | none => rfl
  | some p =>
    obtain ⟨val, w⟩ := p
    change ((write8 (dst ++ Y) val w).bind _).map _ = ((write8 (dst ++ Y) val w).bind _).map _
    cases write8 (dst ++ Y) val w with
    | none => rfl
    | some q =>
      refine congrArg some (Prod.ext ?_ rfl)
      by_cases hA : A - 1 = 0xFFFF
      · exact (congrArg Exec.toCpu (if_neg (not_not.mpr hA))).trans
          (congrArg (Cpu.mk _ PB) (if_pos hA)).symm
      · exact (congrArg Exec.toCpu (if_pos hA)).trans (congrArg (Cpu.mk _ PB) (if_neg hA)).symm

/-- One byte of a block move. -/
theorem execute_move (hd : i.Decoded) (hop : i.opcode = 0x54) (hpc : c.pbpc = i.addr)
    (hp : Placed b i) (he : c.e = false) (hx : c.x = false) :
    execute c b = (moveStmt i c.toRegFile (startWire b i.last)).map fun p =>
      ((c.setRegs p.1).setPbpc (if p.1.A = 0xFFFF then i.nextAddr else i.addr), p.2.bus) := by
  obtain ⟨-, hs⟩ := mvn_decoded hd hop
  obtain ⟨hpb, -⟩ := Cpu.pbpc_parts hpc
  have hlast : i.last = i.operandByte 1 := by simp [Insn.last, Insn.operandByte, hs]
  have hl := opened_located hpc hp
  rw [execute_step hpc he hp, hop, hlast]
  have hf := fetch8_twice (w := startWire b 0x54) hl hs fun dst p => moveByte p.2 i.addr 1 dst p.1
  have hmove : step systemHost c.opened i.addr 0x54 (startWire b 0x54) =
    moveByte (c.opened.after b i) i.addr 1 (i.operandByte 0) (i.operandByte 1)
      (startWire b (i.operandByte 1)) := hf
  rw [hmove, moveByte_mvnByte _ hx]
  refine congrArg₂ Option.map (funext fun p => Prod.ext ?_ rfl) rfl
  have hdest : (⟨p.1, c.PB, if p.1.A = 0xFFFF then low i.nextAddr else low i.addr⟩ : Cpu) =
      (c.setRegs p.1).setPbpc (if p.1.A = 0xFFFF then i.nextAddr else i.addr) := by
    rw [hpb, Cpu.setPbpc_eq]
    split
    · rw [Insn.nextAddr, bank_append]
      rfl
    · rfl
  exact hdest

/-- JSR and JSL. -/
theorem execute_call (hd : i.Decoded) (hop : i.opcode = 0x20 ∨ i.opcode = 0x22)
    (hpc : c.pbpc = i.addr) (hp : Placed b i) (he : c.e = false) :
    execute c b = (callPush i c.toRegFile (startWire b i.last)).map fun p =>
      ((c.setRegs p.1).setPbpc i.target, p.2.bus) := by
  have hl := opened_located hpc hp
  obtain ⟨hpb, -⟩ := Cpu.pbpc_parts hpc
  rw [execute_step hpc he hp]
  rcases hop with hop | hop
  · obtain ⟨hmn, hmd⟩ := hd.at hop rfl
    have hs : i.size = 3 := hd.size_eq (by rw [hmd]; rfl)
    have hpush : callPush i c.toRegFile = (push16 c.toRegFile i.lastAddr : BusM σ RegFile) :=
      if_neg (by rw [hop]; decide)
    rw [hop, hpush, Insn.target_near hd (.inl hmn), Insn.jumpTo]
    have hjsr : jsr systemHost c.opened i.addr (startWire b 0x20) = _ := fetch16_operand hl hs _
    change (jsr systemHost c.opened i.addr (startWire b 0x20)).map _ = _
    rw [hjsr]
    change ((pushw c.toRegFile (low i.nextAddr - 1) (startWire b i.last)).bind _).map _ = _
    rw [hd.last_eq, pushw_eq]
    cases push16 c.toRegFile i.lastAddr (startWire b i.last) with
    | none => rfl
    | some q =>
      change some (({ toRegFile := q.1, PB := c.PB, PC := i.lo16 } : Cpu), q.2.bus) = _
      rw [hpb, Option.map_some, Cpu.setPbpc_eq, bank_append, low_append]
      rfl
  · obtain ⟨hmn, hmd⟩ := hd.at hop rfl
    have hs : i.size = 4 := hd.size_eq (by rw [hmd]; rfl)
    have hpush : (callPush i c.toRegFile : BusM σ RegFile) =
        push8 c.toRegFile (bank i.addr) >>= fun r => push16 r i.lastAddr := if_pos hop
    rw [hop, hpush, Insn.target_far hd (.inl hmn)]
    have hjsl : jsl systemHost c.opened i.addr (startWire b 0x22) = _ := fetch24_operand hl hs _
    change (jsl systemHost c.opened i.addr (startWire b 0x22)).map _ = _
    rw [hjsl]
    change ((push c.toRegFile c.PB (startWire b i.last)).bind _).map _ =
      ((push8 c.toRegFile (bank i.addr) (startWire b i.last)).bind _).map _
    rw [hpb, push_eq]
    cases push8 c.toRegFile (bank i.addr) (startWire b i.last) with
    | none => rfl
    | some p =>
      obtain ⟨r, w⟩ := p
      change ((pushw r (low i.nextAddr - 1) w).bind _).map _ = (push16 r i.lastAddr w).map _
      rw [hd.last_eq, pushw_eq]
      cases push16 r i.lastAddr w with
      | none => rfl
      | some q => rfl

/-- JMP and JML. -/
theorem execute_jump (hd : i.Decoded) (hop : i.opcode = 0x4C ∨ i.opcode = 0x5C)
    (hpc : c.pbpc = i.addr) (hp : Placed b i) (he : c.e = false) :
    execute c b = some (c.setPbpc i.target, b) := by
  have hl := opened_located hpc hp
  obtain ⟨hpb, -⟩ := Cpu.pbpc_parts hpc
  rw [execute_step hpc he hp]
  rcases hop with hop | hop
  · obtain ⟨hmn, hmd⟩ := hd.at hop rfl
    have hs : i.size = 3 := hd.size_eq (by rw [hmd]; rfl)
    rw [hop, Insn.target_near hd (.inr hmn), Insn.jumpTo]
    have hf := fetch16_operand (w := startWire b 0x4C) hl hs fun p => do
      loopTick i.addr p.1
      return { p.2 with PC := p.1 }
    have hjmp : step systemHost c.opened i.addr 0x4C (startWire b 0x4C) = _ := hf
    have htick : (loopTick i.addr i.lo16 : BusM σ Unit) (startWire b i.last) =
        some ((), startWire b i.last) := by
      unfold loopTick
      split <;> rfl
    rw [hjmp]
    change ((loopTick i.addr i.lo16 (startWire b i.last)).bind _).map _ = _
    rw [htick]
    change some (({ toRegFile := c.toRegFile, PB := c.PB, PC := i.lo16 } : Cpu), b) = _
    rw [hpb, Cpu.setPbpc_eq, bank_append, low_append]
  · obtain ⟨hmn, hmd⟩ := hd.at hop rfl
    have hs : i.size = 4 := hd.size_eq (by rw [hmd]; rfl)
    rw [hop, Insn.target_far hd (.inr ⟨hmn, hmd⟩)]
    have hjml : jml systemHost c.opened (startWire b 0x5C) = _ := fetch24_operand hl hs _
    change (jml systemHost c.opened (startWire b 0x5C)).map _ = _
    rw [hjml]
    rfl

theorem Insn.Decoded.last_near (hd : i.Decoded) (hop : i.opcode = 0x7C ∨ i.opcode = 0xFC) :
    i.size = 3 := by
  rcases hop with hop | hop
  · obtain ⟨-, hmd⟩ := hd.at hop rfl
    exact hd.size_eq (by rw [hmd]; rfl)
  · obtain ⟨-, hmd⟩ := hd.at hop rfl
    exact hd.size_eq (by rw [hmd]; rfl)

/-- The table's word read for a call or a jump. -/
theorem readTable_targetStmt {e : Exec} (hpb : e.PB = bank i.addr) (w : Wire σ) :
    (readTable e (i.lo16 + e.X) w).map (fun p => (({ e with PC := p.1 } : Exec).toCpu, p.2.bus)) =
      (targetStmt i e.toRegFile w).map fun p => (e.toCpu.setPbpc p.1, p.2.bus) := by
  unfold readTable targetStmt
  rw [hpb]
  change ((read8 (bank i.addr ++ (i.lo16 + e.X)) w).bind _).map _ =
    ((read8 (bank i.addr ++ (i.lo16 + e.X)) w).bind _).map _
  cases read8 (bank i.addr ++ (i.lo16 + e.X)) w with
  | none => rfl
  | some p =>
    obtain ⟨lo, w⟩ := p
    change ((read8 (bank i.addr ++ (i.lo16 + e.X + 1)) w).bind _).map _ =
      ((read8 (bank i.addr ++ (i.lo16 + e.X + 1)) w).bind _).map _
    cases read8 (bank i.addr ++ (i.lo16 + e.X + 1)) w with
    | none => rfl
    | some q =>
      obtain ⟨hi, w⟩ := q
      change some ((⟨e.toRegFile, bank i.addr, hi ++ lo⟩ : Cpu), w.bus) =
        some (e.toCpu.setPbpc (bank i.addr ++ (hi ++ lo)), w.bus)
      rw [Cpu.setPbpc_eq, bank_append, low_append]

/-- JMP through a table. -/
theorem execute_jumpTable (hd : i.Decoded) (hop : i.opcode = 0x7C) (hpc : c.pbpc = i.addr)
    (hp : Placed b i) (he : c.e = false) :
    execute c b = (targetStmt i c.toRegFile (startWire b i.last)).map fun p =>
      (c.setPbpc p.1, p.2.bus) := by
  have hl := opened_located hpc hp
  rw [execute_step hpc he hp, hop]
  have hf := fetch16_operand (w := startWire b 0x7C) hl (hd.last_near (.inl hop)) fun p => do
    let t ← readTable p.2 (p.1 + p.2.X)
    return { p.2 with PC := t }
  have hjmp : step systemHost c.opened i.addr 0x7C (startWire b 0x7C) = _ := hf
  have htable := readTable_targetStmt (e := c.opened.after b i) hl.pb (startWire b i.last)
  rw [hjmp]
  change ((readTable (c.opened.after b i) (i.lo16 + c.X) (startWire b i.last)).bind _).map _ = _
  refine Eq.trans ?_ (htable.trans ?_)
  · change _ = (readTable (c.opened.after b i) (i.lo16 + c.X) (startWire b i.last)).map _
    cases readTable (c.opened.after b i) (i.lo16 + c.X) (startWire b i.last) with
    | none => rfl
    | some p => rfl
  · rfl

/-- JSR through a table. -/
theorem execute_callTable (hd : i.Decoded) (hop : i.opcode = 0xFC) (hpc : c.pbpc = i.addr)
    (hp : Placed b i) (he : c.e = false) {r : RegFile} {w : Wire σ}
    (hpush : push16 c.toRegFile i.lastAddr (startWire b i.last) = some (r, w)) (hX : r.X = c.X) :
    execute c b = (targetStmt i r w).map fun p => ((c.setRegs r).setPbpc p.1, p.2.bus) := by
  have hl := opened_located hpc hp
  rw [execute_step hpc he hp, hop]
  have hf := fetch16_operand (w := startWire b 0xFC) hl (hd.last_near (.inr hop)) fun p => do
    let r ← pushw p.2.toRegFile (p.2.PC - 1)
    let c := p.2.setRegs r
    tableIndex systemHost c.toRegFile i.addr
    let c ← enterShadow systemHost c i.addr false
    let t ← readTable c (p.1 + p.2.X)
    return { c with PC := t }
  have hjsr : step systemHost c.opened i.addr 0xFC (startWire b 0xFC) = _ := hf
  have htable := readTable_targetStmt (e := (c.opened.after b i).setRegs r) hl.pb w
  rw [hjsr]
  change ((pushw c.toRegFile (low i.nextAddr - 1) (startWire b i.last)).bind _).map _ = _
  rw [hd.last_eq, pushw_eq, hpush]
  refine Eq.trans ?_ (htable.trans ?_)
  · change ((readTable ((c.opened.after b i).setRegs r) (i.lo16 + c.X) w).bind _).map _ =
      (readTable ((c.opened.after b i).setRegs r) (i.lo16 + r.X) w).map _
    rw [hX]
    cases readTable ((c.opened.after b i).setRegs r) (i.lo16 + c.X) w with
    | none => rfl
    | some p => rfl
  · rfl

/-- The word of a table in ROM. -/
theorem targetStmt_mem {r : RegFile} {w : Wire σ} {lo hi : BitVec 8}
    (hlo : ∀ b : Bus σ, b.mem (bank i.addr ++ (i.lo16 + r.X)) = some lo)
    (hhi : ∀ b : Bus σ, b.mem (bank i.addr ++ (i.lo16 + r.X + 1)) = some hi) :
    ∃ w', targetStmt i r w = some (bank i.addr ++ (hi ++ lo), w') ∧ w'.bus = w.bus := by
  have hread {a : BitVec 24} {v : BitVec 8} (h : ∀ b : Bus σ, b.mem a = some v) (w : Wire σ) :
      ∃ w', read8 a w = some (v, w') ∧ w'.bus = w.bus := by
    refine ⟨{ w with mdr := v, log := w.log ++ [⟨a, false, v, w.mdr, w.clocks a⟩] }, ?_, rfl⟩
    unfold read8
    rw [busRead_mem (h w.bus)]
    rfl
  obtain ⟨w1, h1, hbus1⟩ := hread hlo w
  obtain ⟨w2, h2, hbus2⟩ := hread hhi w1
  refine ⟨w2, ?_, hbus2.trans hbus1⟩
  change (read8 _ w).bind _ = _
  rw [h1]
  change (read8 _ w1).bind _ = _
  rw [h2]
  rfl

theorem Insn.last_single (hs : i.size = 1) : i.last = i.opcode := by
  rw [Insn.last, if_pos hs]

/-- RTS, RTL and RTI. -/
theorem execute_ret (hd : i.Decoded) (hpc : c.pbpc = i.addr) (hp : Placed b i) (he : c.e = false)
    {c' : Cpu} {w : Wire σ} (h : retStmt i c (startWire b i.last) = some (c', w)) :
    execute c b = some (c', w.bus) := by
  rw [execute_step hpc he hp]
  by_cases hrti : i.opcode = 0x40
  · obtain ⟨-, hmd⟩ := hd.at hrti rfl
    rw [Insn.last_single (hd.size_eq (by rw [hmd]; rfl)), retStmt, if_pos hrti] at h
    rw [hrti] at h ⊢
    obtain ⟨⟨⟨p, r⟩, w1⟩, hp', h⟩ := Option.bind_eq_some_iff.mp h
    obtain ⟨⟨⟨pc, r'⟩, w2⟩, hpc', h⟩ := Option.bind_eq_some_iff.mp h
    obtain ⟨⟨⟨pb, r''⟩, w3⟩, hpb', h⟩ := Option.bind_eq_some_iff.mp h
    cases h
    have hre : r'.e = false := by
      have hpull := pull8_mode c.toRegFile _ _ _ hp'
      have hset := setP_mode r p
      have hpull' := pull16_mode (setP r p) _ _ _ hpc'
      simp only [RegFile.mode, Prod.mk.injEq] at hpull hset hpull'
      rw [hpull'.2.2, hset.2.2, hpull.2.2, he]
    change ((pull c.toRegFile (startWire b 0x40)).bind _).map _ = _
    rw [pull_eq, hp']
    change ((pullw (unpackP r p) w1).bind _).map _ = _
    rw [unpackP_eq, pullw_eq, hpc', Option.bind_some]
    dsimp only
    rw [hre]
    change ((pull r' w2).bind _).map _ = _
    rw [pull_eq, hpb']
    rfl
  · rw [retStmt, if_neg hrti] at h
    cases ht : i.width.bind (templates i.opcode : Width → Option (Template σ)) with
    | none =>
      rw [ht] at h
      cases h
    | some t =>
      rw [ht] at h
      cases t with
      | body f => cases h
      | branch cond => cases h
      | ret f =>
        obtain ⟨wd, -, ht⟩ := Option.bind_eq_some_iff.mp ht
        rcases ret_templates ht with ⟨hop, rfl⟩ | ⟨hop, rfl⟩
        · obtain ⟨-, hmd⟩ := hd.at hop rfl
          rw [Insn.last_single (hd.size_eq (by rw [hmd]; rfl))] at h
          rw [hop] at h ⊢
          obtain ⟨⟨⟨pc, r⟩, w1⟩, hpc', h⟩ := Option.bind_eq_some_iff.mp h
          cases h
          change ((pullw c.toRegFile (startWire b 0x60)).bind _).map _ = _
          rw [pullw_eq, hpc']
          rfl
        · obtain ⟨-, hmd⟩ := hd.at hop rfl
          rw [Insn.last_single (hd.size_eq (by rw [hmd]; rfl))] at h
          rw [hop] at h ⊢
          obtain ⟨⟨⟨pc, r⟩, w1⟩, hpc', h⟩ := Option.bind_eq_some_iff.mp h
          obtain ⟨⟨⟨pb, r'⟩, w2⟩, hpb', h⟩ := Option.bind_eq_some_iff.mp h
          cases h
          change ((pullw c.toRegFile (startWire b 0x6B)).bind _).map _ = _
          rw [pullw_eq, hpc']
          change ((pull r w1).bind _).map _ = _
          rw [pull_eq, hpb']
          rfl

end

end CtRecomp
