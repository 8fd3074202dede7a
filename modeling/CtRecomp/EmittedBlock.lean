import CtRecomp.ExecuteAgree
import CtRecomp.OverlayBytes
import CtRecomp.RegRange

namespace CtRecomp

/-! A block's statements, beside the interpreter's step on its instruction. -/

/-- A call's check, and where it goes on. -/
def Insn.Checked (fn : Func) (i : Insn) (nxt : Option Insn) (rest : List Stmt) : Prop :=
  ∃ c next, (c = i.shortCheck ∨ c = i.longCheck) ∧ rest = .check c :: next ∧ i.GoesOn fn nxt next

/-- What is left of a call's block when its callee is back. -/
def Insn.Resumes (fn : Func) (i : Insn) (nxt : Option Insn) (rest : List Stmt) : Prop :=
  i.GoesOn fn nxt rest ∨ i.Checked fn nxt rest

/-- How a block's statements end where the interpreter has the CPU as `v`. -/
inductive Block.Lands (fn : Func) (b : Block) (nxt : Option Insn) (v c : Cpu) : Exit → Prop
  | next {i : Insn} (hnxt : nxt = some i) (hv : v = c.setPbpc i.addr)
    (hmode : InMode c.toRegFile i.key.2) : Lands fn b nxt v c .next
  | again (hv : v = c.setPbpc b.i.addr) (hmode : InMode c.toRegFile b.i.key.2) :
    Lands fn b nxt v c .again
  | goto {dest : Key} (hv : v = c.setPbpc dest.1) (hmode : InMode c.toRegFile dest.2) :
    Lands fn b nxt v c (.goto dest)
  | call {f : CName} {rest : List Stmt} {target : BitVec 24} (hf : f.IsAt target)
    (hv : v = c.setPbpc target) (hfalls : b.i.mnemonic.fallsThrough = true)
    (hrest : b.i.Checked fn nxt rest) : Lands fn b nxt v c (.call f rest)
  | tail {f : CName} {target : BitVec 24} (hf : f.IsAt target) (hv : v = c.setPbpc target) :
    Lands fn b nxt v c (.tail f)
  | ret (hv : v = c) : Lands fn b nxt v c .ret
  | dispatch {n : Nat} {mx : MxCheck} {rest : List Stmt} (hv : v = c)
    (hfalls : b.i.mnemonic.fallsThrough = true) (hrest : b.i.Resumes fn nxt rest) :
    Lands fn b nxt v c (.dispatch b.i.back n mx rest)
  | rest (hv : v = c) : Lands fn b nxt v c .rest

variable {fn : Func} {b : Block} {nxt : Option Insn} {v c c' : Cpu} {x : Exit}

theorem Block.Lands.regs (h : b.Lands fn nxt v c x) : v.toRegFile = c.toRegFile := by
  cases h with
  | next _ hv | again hv | goto hv | call _ hv | tail _ hv | ret hv | dispatch hv | rest hv =>
    rw [hv]
    try rfl

section

variable {σ : Type} [Board σ] {w w' : Wire σ} {t : BitVec 24}

/-! Past the instruction's own statements. -/

theorem gotos_land {ks : List Mode} {body : List Stmt} (h : b.i.Gotos ks body)
    (he : c.e = false) (hv : v = c.setPbpc b.i.nextAddr)
    (hrun : runStmts (body ++ [.fatal b.i.addr]) t c w = some ((c', x), w')) :
    w' = w ∧ c' = c ∧ b.Lands fn nxt v c' x := by
  induction h with
  | nil => cases hrun
  | @cons m xf e ks body h ih =>
    rw [List.cons_append] at hrun
    unfold runStmts at hrun
    split at hrun
    next hmx =>
      cases hrun
      refine ⟨rfl, rfl, .goto hv ⟨fun b hb => ?_, fun b hb => ?_, he⟩⟩
      · exact hmx.1.trans (Option.some.inj hb)
      · exact hmx.2.trans (Option.some.inj hb)
    next => exact ih hrun

/-- Where an instruction goes on, with the CPU as it is behind it. -/
theorem goesOn_lands {next : List Stmt} (h : b.i.GoesOn fn nxt next)
    (hon : fn.callExits.lookup b.i.key = none →
      b.i.mnemonic.fallsThrough = true ∧ InMode c.toRegFile (fn.postOf b.i.key))
    (he : c.e = false) (hv : v = c.setPbpc b.i.nextAddr)
    (hcall : fn.callExits.lookup b.i.key ≠ none → v = c)
    (hrun : runStmts next t c w = some ((c', x), w')) :
    w' = w ∧ c' = c ∧ b.Lands fn nxt v c' x := by
  cases h with
  | fall hexits hnxt =>
    cases hrun
    obtain ⟨hfalls, hmode⟩ := hon hexits
    obtain ⟨i, hi, hkey⟩ := Option.map_eq_some_iff.mp (hnxt hfalls)
    have haddr : i.addr = b.i.nextAddr := congrArg Prod.fst hkey
    have hpost : i.key.2 = fn.postOf b.i.key := congrArg Prod.snd hkey
    exact ⟨rfl, rfl, .next hi (haddr ▸ hv) (hpost ▸ hmode)⟩
  | goto hexits =>
    cases hrun
    exact ⟨rfl, rfl, .goto hv (hon hexits).2⟩
  | never hexits hbody =>
    rcases hbody with rfl | rfl
    · cases hrun
    · cases hrun
      exact ⟨rfl, rfl, .rest (hcall (by rw [hexits]; exact Option.some_ne_none _))⟩
  | several hexits hbody => exact gotos_land hbody he hv hrun

/-- The callee is back at the call's return address. -/
theorem checked_lands {rest : List Stmt} (h : b.i.Checked fn nxt rest) (hd : b.i.Decoded)
    (hfalls : b.i.mnemonic.fallsThrough = true) (hpb : c.PB = bank b.i.addr)
    (hmode : fn.callExits.lookup b.i.key = none → InMode c.toRegFile (fn.postOf b.i.key))
    (he : c.e = false) (hrun : runStmts rest t c w = some ((c', x), w')) :
    w' = w ∧ c' = c ∧ b.Lands fn nxt c c' x := by
  obtain ⟨check, next, hcheck, rfl, hgoes⟩ := h
  have hback : c.pbpc = b.i.nextAddr ∧ runStmts next t c w = some ((c', x), w') := by
    rcases hcheck with rfl | rfl
    · change (if c.PC = b.i.lastAddr + 1 then _ else _ : BusM σ _) w = _ at hrun
      split at hrun
      next hpc =>
        refine ⟨?_, hrun⟩
        rw [← hd.back_eq, Insn.back, ← hpc, ← hpb]
        rfl
      next => cases hrun
    · change (if c.pbpc = b.i.back then _ else _ : BusM σ _) w = _ at hrun
      split at hrun
      next hpc => exact ⟨hpc.trans hd.back_eq, hrun⟩
      next => cases hrun
  have hv : c = c.setPbpc b.i.nextAddr := by
    rw [← hback.1]
    exact c.setPbpc_pbpc.symm
  exact goesOn_lands hgoes (fun hexits => ⟨hfalls, hmode hexits⟩) he hv (fun _ => rfl) hback.2

/-! The instruction's own. -/

/-- The instruction as the decoder met it, in native mode. -/
structure Insn.Met (rom : Image) (fn : Func) (i : Insn) (st nst : State) : Prop where
  decoded : decodeInsn rom i.addr st = .ok i
  native : st.e = false
  transfer : nextState i st = .ok nst
  post : i.isCall = false → fn.postOf i.key = nst.key ∧ fn.callExits.lookup i.key = none

/-- What ROM holds is on the bus. -/
def Image.OnBus (σ : Type) [Board σ] (rom : Image) : Prop :=
  ∀ a v, rom a = some v → ∀ bus : Bus σ, bus.mem a = some v

variable {rom : Image} {st nst : State} {bus : Bus σ}

theorem Insn.Met.placed {i : Insn} (h : i.Met rom fn st nst) (hrom : rom.OnBus σ) (bus : Bus σ) :
    Placed bus i := by
  obtain ⟨-, -, hle, hop, hread⟩ := decodeInsn_reads h.decoded
  refine ⟨hrom _ _ hop bus, fun k hk => ?_⟩
  rw [operandAddr_eq]
  exact hrom _ _ ((readOperand_bytes hle hread).1 k (by omega)) bus

theorem Insn.Met.key {i : Insn} (h : i.Met rom fn st nst) : i.key.2 = st.key :=
  congrArg Prod.snd (decodeInsn_key h.decoded).2

/-- What the decoder knows of M and X before it, it knows behind. -/
theorem Insn.Met.inMode {i : Insn} {r : RegFile} (h : i.Met rom fn st nst)
    (hr : InMode r i.key.2) (hplp : i.mnemonic ≠ .PLP) (hrep : i.mnemonic ≠ .REP)
    (hsep : i.mnemonic ≠ .SEP) : InMode r nst.key := by
  obtain ⟨hm, hx⟩ := nextState_same h.transfer hplp hrep hsep h.native
  rw [h.key] at hr
  exact ⟨fun b hb => hr.m b (hm.symm.trans hb), fun b hb => hr.x b (hx.symm.trans hb), hr.native⟩

/-- Opcodes of calls have statements of their own. -/
theorem opcodes_call : ∀ op : BitVec 8, (opcodes op).1 = .JSR ∨ (opcodes op).1 = .JSL →
    op ∈ ownOps := by decide +kernel

theorem isCall_own {i : Insn} (hd : i.Decoded) (hop : i.opcode ∉ ownOps) : i.isCall = false := by
  have hmnemonic : i.mnemonic = (opcodes i.opcode).1 := by rw [hd.op]
  by_contra hcall
  refine hop (opcodes_call i.opcode ?_)
  rw [← hmnemonic]
  simpa [Insn.isCall, or_iff_not_imp_left] using hcall

/-- A template that returns runs on. -/
theorem opStmt_fallsThrough {i : Insn} (hd : i.Decoded) (hop : i.opcode ∉ ownOps)
    (hb : ¬i.branches) {r r' : RegFile} (h : opStmt i r w = some (r', w')) :
    i.mnemonic.fallsThrough = true := by
  have hmnemonic : i.mnemonic = (opcodes i.opcode).1 := by rw [hd.op]
  obtain ⟨wd, f, -, ht, hf⟩ := opStmt_template h
  by_contra hout
  have hleave := opcodes_leave i.opcode (hmnemonic ▸ Bool.eq_false_of_not_eq_true hout)
  simp only [List.mem_cons, List.not_mem_nil, or_false] at hleave
  rcases hleave with hl | hl | hl | hl | hl | hl | hl | hl | hl | hl | hl | hl | hl | hl
  · rw [hl] at ht
    cases wd <;> cases ht
  · rw [hl] at ht
    cases wd <;> cases ht
  · exact hop (by rw [hl]; decide)
  · exact hb (.inr (.inl (by rw [hmnemonic, hl]; rfl)))
  · exact hb (.inr (.inr (by rw [hmnemonic, hl]; rfl)))
  · exact hop (by rw [hl]; decide)
  · rw [hl] at ht
    cases wd <;> cases ht
  · exact hop (by rw [hl]; decide)
  · exact hop (by rw [hl]; decide)
  · rw [hl] at ht
    cases wd <;> cases ht
  all_goals
    rw [hl] at ht
    cases wd <;> cases ht
    cases hf

/-- A template's statements, PLP's check and where they go on. -/
theorem op_lands (hm : b.i.Met rom fn st nst) (hrom : rom.OnBus σ) (hop : b.i.opcode ∉ ownOps)
    (hb : ¬b.i.branches) (hmvn : b.i.opcode ≠ 0x54) (hpc : c.pbpc = b.i.addr)
    (hmode : InMode c.toRegFile b.i.key.2) (hr : c.toRegFile.Ranged)
    (hxce : b.i.mnemonic = .XCE → c.c = false) {plp next : List Stmt}
    (hplp : b.i.Checks (fn.postOf b.i.key) plp) (hgoes : b.i.GoesOn fn nxt next)
    (hrun : runStmts (.op b.i :: (plp ++ next)) t c (startWire bus b.i.last) = some ((c', x), w')) :
    ∃ v, execute c bus = some (v, w'.bus) ∧ b.Lands fn nxt v c' x := by
  have hd := decodeInsn_decoded hm.decoded
  obtain ⟨hpost, hexits⟩ := hm.post (isCall_own hd hop)
  unfold runStmts at hrun
  rw [if_neg hmvn] at hrun
  obtain ⟨⟨r, w1⟩, hstmt, hrest⟩ := Option.bind_eq_some_iff.mp hrun
  have hfalls := opStmt_fallsThrough hd hop hb hstmt
  obtain ⟨he, hmode'⟩ :=
    opStmt_inMode hd hm.transfer hm.native (hm.key ▸ hmode) hmvn hxce _ _ _ hstmt
  obtain ⟨wd, f, hwd, ht, hf⟩ := opStmt_template hstmt
  have hbody : plainBody b.i = some fun r => (do
      let r ← f b.i r
      return (r, .next) : BusM σ (RegFile × Flow)) := by
    have hjmp : b.i.opcode ≠ 0x4C := fun h => hop (by rw [h]; decide)
    unfold plainBody
    rw [if_neg hjmp, hwd]
    change (templates b.i.opcode wd).bind _ = _
    rw [ht]
    rfl
  have hwai : b.i.opcode ≠ 0xCB := by
    intro h
    rw [h] at ht
    cases wd <;> cases ht
    cases hf
  have hexec := execute_plain hbody hd hpc (hm.placed hrom bus) ⟨hmode.m, hmode.x⟩ hmode.native
    hr.narrow hmvn hwai
  have hvalue : (do let r ← f b.i c.toRegFile; return (r, Flow.next) : BusM σ _)
      (startWire bus b.i.last) = some ((r, .next), w1) := by
    change (f b.i c.toRegFile (startWire bus b.i.last)).bind _ = _
    rw [hf]
    rfl
  rw [hvalue] at hexec
  have hchecked : runStmts next t (c.setRegs r) w1 = some ((c', x), w') ∧
      InMode r (fn.postOf b.i.key) := by
    unfold Insn.Checks at hplp
    split at hplp
    next =>
      obtain ⟨m, xf, hm', hx', rfl⟩ := hplp
      change (if r.m = m ∧ r.x = xf then _ else _ : BusM σ _) w1 = _ at hrest
      split at hrest
      next hmx =>
        refine ⟨hrest, fun b hb => ?_, fun b hb => ?_, he⟩
        · exact hmx.1.trans (Option.some.inj (hm'.symm.trans hb))
        · exact hmx.2.trans (Option.some.inj (hx'.symm.trans hb))
      next => cases hrest
    next hplp' =>
      rw [hplp] at hrest
      exact ⟨hrest, hpost ▸ hmode' hplp'⟩
  obtain ⟨rfl, rfl, hlands⟩ := goesOn_lands hgoes (fun _ => ⟨hfalls, hchecked.2⟩) he rfl
    (fun hnot => absurd hexits hnot) hchecked.1
  exact ⟨_, hexec, hlands⟩

/-- The next byte of a block move, or what is behind the last. -/
theorem move_lands (hm : b.i.Met rom fn st nst) (hrom : rom.OnBus σ) (hop : b.i.opcode = 0x54)
    (hpc : c.pbpc = b.i.addr) (hmode : InMode c.toRegFile b.i.key.2)
    {wd : Width} {tmpl : Template Unit} (hwd : b.i.width = some wd)
    (ht : @templates Unit noBoard b.i.opcode wd = some tmpl) {plp next : List Stmt}
    (hplp : b.i.Checks (fn.postOf b.i.key) plp) (hgoes : b.i.GoesOn fn nxt next)
    (hrun : runStmts (.op b.i :: (plp ++ next)) t c (startWire bus b.i.last) = some ((c', x), w')) :
    ∃ v, execute c bus = some (v, w'.bus) ∧ b.Lands fn nxt v c' x := by
  have hd := decodeInsn_decoded hm.decoded
  obtain ⟨hmn, -⟩ := mvn_decoded hd hop
  obtain ⟨hpost, hexits⟩ := hm.post (by simp [Insn.isCall, hmn])
  have hx : c.x = false := by
    rw [hop] at ht
    cases wd with
    | w16 =>
      rw [Insn.width, hmn] at hwd
      obtain ⟨xf, hxf, hw16⟩ := Option.map_eq_some_iff.mp hwd
      refine hmode.x false (hxf.trans ?_)
      cases xf with
      | false => rfl
      | true => cases hw16
    | _ => cases ht
  have hexec := execute_move hd hop hpc (hm.placed hrom bus) hmode.native hx
  unfold runStmts at hrun
  rw [if_pos hop] at hrun
  obtain ⟨⟨r, w1⟩, hmove, hrest⟩ := Option.bind_eq_some_iff.mp hrun
  rw [hmove] at hexec
  have hmode' : InMode r b.i.key.2 := hmode.of_mode (by rw [mvnByte_regs hmove]; rfl)
  dsimp only at hrest
  split at hrest
  next hA =>
    have hplp' : plp = [] := by
      unfold Insn.Checks at hplp
      rwa [if_neg (by rw [hmn]; decide)] at hplp
    rw [hplp'] at hrest
    have hnext : InMode r (fn.postOf b.i.key) := hpost ▸ hm.inMode hmode' (by rw [hmn]; decide)
      (by rw [hmn]; decide) (by rw [hmn]; decide)
    obtain ⟨rfl, rfl, hlands⟩ := goesOn_lands hgoes
      (fun _ => ⟨by rw [hmn]; rfl, hnext⟩) hnext.native rfl (fun hnot => absurd hexits hnot) hrest
    refine ⟨_, hexec, ?_⟩
    dsimp only
    rw [if_pos hA]
    exact hlands
  next hA =>
    cases hrest
    refine ⟨_, hexec, .again ?_ hmode'⟩
    dsimp only
    rw [if_neg hA]

theorem branch_mnemonics {i : Insn} (hb : i.branches) : i.mnemonic ≠ .PLP ∧ i.mnemonic ≠ .REP ∧
    i.mnemonic ≠ .SEP ∧ i.isCall = false := by
  unfold Insn.branches at hb
  unfold Insn.isCall
  revert hb
  cases i.mnemonic <;> simp [Mnemonic.isBranch]

/-- A branch, taken or not. -/
theorem branch_lands (hm : b.i.Met rom fn st nst) (hrom : rom.OnBus σ) (hb : b.i.branches)
    (hpc : c.pbpc = b.i.addr) (hmode : InMode c.toRegFile b.i.key.2) {plp next : List Stmt}
    (hplp : b.i.Checks (fn.postOf b.i.key) plp) (hgoes : b.i.GoesOn fn nxt next)
    (hrun : runStmts (.branch b.i (b.i.branchTarget, fn.postOf b.i.key) :: (plp ++ next)) t c
      (startWire bus b.i.last) = some ((c', x), w')) :
    ∃ v, execute c bus = some (v, w'.bus) ∧ b.Lands fn nxt v c' x := by
  have hd := decodeInsn_decoded hm.decoded
  obtain ⟨hnplp, hnrep, hnsep, hcall⟩ := branch_mnemonics hb
  obtain ⟨hpost, hexits⟩ := hm.post hcall
  have hnext : InMode c.toRegFile (fn.postOf b.i.key) := hpost ▸ hm.inMode hmode hnplp hnrep hnsep
  unfold Insn.Checks at hplp
  rw [if_neg hnplp] at hplp
  rw [hplp, List.nil_append] at hrun
  unfold runStmts at hrun
  cases hcond : branchCond b.i.mnemonic with
  | none =>
    rw [hcond] at hrun
    cases hrun
  | some cond =>
    rw [hcond] at hrun
    dsimp only at hrun
    have hexec := execute_branch hcond hd hpc (hm.placed hrom bus) hmode.native
    split at hrun
    next htaken =>
      obtain ⟨⟨_, w1⟩, hmark, hrun⟩ := Option.bind_eq_some_iff.mp hrun
      obtain ⟨⟨_, w2⟩, hloop, hrun⟩ := Option.bind_eq_some_iff.mp hrun
      have hvalue : branchBody b.i cond c.toRegFile (startWire bus b.i.last) =
          some ((c.toRegFile, .goto b.i.branchTarget), w2) := by
        unfold branchBody
        rw [if_pos htaken]
        change (markTaken b.i (startWire bus b.i.last)).bind _ = _
        rw [hmark]
        change (ctLoop b.i b.i.branchTarget w1).bind _ = _
        rw [hloop]
        rfl
      rw [hvalue] at hexec
      cases hrun
      exact ⟨_, hexec, .goto rfl hnext⟩
    next hnot =>
      have hvalue : branchBody b.i cond c.toRegFile (startWire bus b.i.last) =
          some ((c.toRegFile, .next), startWire bus b.i.last) := by
        unfold branchBody
        rw [if_neg hnot]
        rfl
      rw [hvalue] at hexec
      have hfalls : b.i.mnemonic.fallsThrough = true := by
        rcases hb with hbr | hbr | hbr
        · obtain ⟨-, -, hjmp, hjml, hbra, hbrl, hret, hstop⟩ := Mnemonic.of_isBranch hbr
          simp [Mnemonic.fallsThrough, hjmp, hjml, hbra, hbrl, hret, hstop]
        · rw [hbr] at hcond
          cases hcond
          exact absurd rfl hnot
        · rw [hbr] at hcond
          cases hcond
          exact absurd rfl hnot
      obtain ⟨rfl, rfl, hlands⟩ := goesOn_lands hgoes (fun _ => ⟨hfalls, hnext⟩) hnext.native rfl
        (fun h => absurd hexits h) hrun
      exact ⟨_, hexec, hlands⟩

omit [Board σ] in
theorem ctLoop_bus {i : Insn} {target : BitVec 24} (h : ctLoop i target w = some ((), w')) :
    w'.bus = w.bus := by
  unfold ctLoop chargeBudget at h
  split at h
  · dsimp only at h
    split at h
    · cases h
      rfl
    · split at h <;> cases h
      rfl
  · cases h
    rfl

/-- A jump inside the function. -/
theorem jump_lands (hm : b.i.Met rom fn st nst) (hrom : rom.OnBus σ) (hop : b.i.opcode = 0x4C)
    (hpc : c.pbpc = b.i.addr) (hmode : InMode c.toRegFile b.i.key.2) {more : List Stmt}
    (hrun : runStmts (.jump b.i (b.i.jumpTo, fn.postOf b.i.key) :: more) t c
      (startWire bus b.i.last) = some ((c', x), w')) :
    ∃ v, execute c bus = some (v, w'.bus) ∧ b.Lands fn nxt v c' x := by
  have hd := decodeInsn_decoded hm.decoded
  obtain ⟨hmn, -⟩ := hd.at hop rfl
  obtain ⟨hpost, hexits⟩ := hm.post (by simp [Insn.isCall, hmn])
  have hnext : InMode c.toRegFile (fn.postOf b.i.key) := hpost ▸ hm.inMode hmode
    (by rw [hmn]; decide) (by rw [hmn]; decide) (by rw [hmn]; decide)
  have hexec := execute_jump hd (.inl hop) hpc (hm.placed hrom bus) hmode.native
  rw [Insn.target_near hd (.inr hmn)] at hexec
  obtain ⟨⟨_, w1⟩, hloop, hrun⟩ := Option.bind_eq_some_iff.mp hrun
  have hbus : w1.bus = bus := ctLoop_bus hloop
  cases hrun
  refine ⟨_, ?_, .goto rfl hnext⟩
  rw [hexec, hbus]

theorem ret_lands (hm : b.i.Met rom fn st nst) (hrom : rom.OnBus σ) (hpc : c.pbpc = b.i.addr)
    (he : c.e = false) {more : List Stmt}
    (hrun : runStmts (.ret b.i :: more) t c (startWire bus b.i.last) = some ((c', x), w')) :
    ∃ v, execute c bus = some (v, w'.bus) ∧ b.Lands fn nxt v c' x := by
  obtain ⟨⟨c1, w1⟩, hret, hrun⟩ := Option.bind_eq_some_iff.mp hrun
  have hexec := execute_ret (decodeInsn_decoded hm.decoded) hpc (hm.placed hrom bus) he hret
  cases hrun
  exact ⟨_, hexec, .ret rfl⟩

/-! Calls and jumps out of the function. -/

theorem strict_runs {before : List Stmt} (h : Strict before) (body : List Stmt) :
    runStmts (before ++ body) t c w = runStmts body t c w := by
  induction before with
  | nil => rfl
  | cons s before ih =>
    obtain ⟨⟨a, rfl⟩, hrest⟩ := List.forall_mem_cons.mp h
    exact ih hrest

theorem idle_runs {before : List Stmt} (h : Idle before) (body : List Stmt) :
    ∃ c1, c1.toRegFile = c.toRegFile ∧
      runStmts (before ++ body) t c w = runStmts body t c1 w := by
  induction before generalizing c with
  | nil => exact ⟨c, rfl, rfl⟩
  | cons s before ih =>
    obtain ⟨⟨v, a, hs⟩, hrest⟩ := List.forall_mem_cons.mp h
    rcases hs with rfl | rfl
    · obtain ⟨c1, hregs, hruns⟩ := ih (c := { c with PB := v }) hrest
      exact ⟨c1, hregs, hruns⟩
    · exact ih hrest

theorem pushes_run (i : Insn) (body : List Stmt) : runStmts (i.pushes ++ body) t c w =
    (callPush i c.toRegFile w).bind fun p => runStmts body t (c.setRegs p.1) p.2 := by
  unfold Insn.pushes callPush
  split
  · change (push8 c.toRegFile (bank i.addr) w).bind _ =
      ((push8 c.toRegFile (bank i.addr) w).bind _).bind _
    cases push8 c.toRegFile (bank i.addr) w with
    | none => rfl
    | some p => rfl
  · rfl

theorem Cpu.setPbpc_congr {c c' : Cpu} (h : c.toRegFile = c'.toRegFile) (a : BitVec 24) :
    c.setPbpc a = c'.setPbpc a := by
  rw [Cpu.setPbpc_eq, Cpu.setPbpc_eq, h]

theorem checks_none {i : Insn} {post : Mode} {plp : List Stmt} (h : i.Checks post plp)
    (hm : i.mnemonic ≠ .PLP) : plp = [] := by
  unfold Insn.Checks at h
  rwa [if_neg hm] at h

/-- A call, up to its callee. -/
theorem call_lands (hm : b.i.Met rom fn st nst) (hrom : rom.OnBus σ)
    (hop : b.i.opcode = 0x20 ∨ b.i.opcode = 0x22) (hpc : c.pbpc = b.i.addr) (he : c.e = false)
    {before after stmts next : List Stmt} (hbefore : Idle before) (hafter : Idle after)
    (hstmts : b.i.Calls b.i.target stmts) (hgoes : b.i.GoesOn fn nxt next)
    (hrun : runStmts (before ++ (b.i.pushes ++ (after ++ (stmts ++ next)))) t c
      (startWire bus b.i.last) = some ((c', x), w')) :
    ∃ v, execute c bus = some (v, w'.bus) ∧ b.Lands fn nxt v c' x := by
  have hd := decodeInsn_decoded hm.decoded
  have hexec := execute_call hd hop hpc (hm.placed hrom bus) he
  obtain ⟨c1, hregs, hruns⟩ := idle_runs (c := c) (t := t) (w := startWire bus b.i.last) hbefore
    (b.i.pushes ++ (after ++ (stmts ++ next)))
  rw [hruns, pushes_run, hregs] at hrun
  obtain ⟨⟨r, w1⟩, hpush, hrun⟩ := Option.bind_eq_some_iff.mp hrun
  rw [hpush] at hexec
  obtain ⟨c2, hregs2, hruns2⟩ := idle_runs (c := c1.setRegs r) (t := t) (w := w1) hafter
    (stmts ++ next)
  dsimp only at hrun
  rw [hruns2] at hrun
  have hv : (c.setRegs r).setPbpc b.i.target = c2.setPbpc b.i.target :=
    Cpu.setPbpc_congr hregs2.symm _
  have hfalls : b.i.mnemonic.fallsThrough = true := by
    rcases hop with hop | hop
    · rw [(hd.at hop rfl).1]
      rfl
    · rw [(hd.at hop rfl).1]
      rfl
  cases hstmts with
  | run hf check hcheck =>
    cases hrun
    exact ⟨_, hexec, .call hf hv hfalls ⟨check, next, hcheck, rfl, hgoes⟩⟩
  | interp n mx =>
    cases hrun
    exact ⟨_, hexec, .dispatch hv hfalls (.inl hgoes)⟩
  | external n mx f check =>
    cases hrun
    exact ⟨_, hexec, .dispatch hv hfalls (.inl hgoes)⟩

/-- A jump out of the function. -/
theorem leave_lands (hm : b.i.Met rom fn st nst) (hrom : rom.OnBus σ)
    (hop : b.i.opcode = 0x4C ∨ b.i.opcode = 0x5C) (hpc : c.pbpc = b.i.addr) (he : c.e = false)
    {before stmts more : List Stmt} (hbefore : Idle before) (hstmts : LeavesTo b.i.target stmts)
    (hrun : runStmts (before ++ (stmts ++ more)) t c (startWire bus b.i.last) =
      some ((c', x), w')) :
    ∃ v, execute c bus = some (v, w'.bus) ∧ b.Lands fn nxt v c' x := by
  have hexec := execute_jump (decodeInsn_decoded hm.decoded) hop hpc (hm.placed hrom bus) he
  obtain ⟨c1, hregs, hruns⟩ := idle_runs (c := c) (t := t) (w := startWire bus b.i.last) hbefore
    (stmts ++ more)
  rw [hruns] at hrun
  have hv : c.setPbpc b.i.target = c1.setPbpc b.i.target := Cpu.setPbpc_congr hregs.symm _
  cases hstmts with
  | tail hf =>
    cases hrun
    exact ⟨_, hexec, .tail hf hv⟩
  | external f =>
    cases hrun
    exact ⟨_, hexec, .rest hv⟩
  | rest =>
    cases hrun
    exact ⟨_, hexec, .rest hv⟩

/-! Tables. -/

theorem targetStmt_bank {i : Insn} {r : RegFile} {target : BitVec 24}
    (h : targetStmt i r w = some (target, w')) : bank target = bank i.addr := by
  obtain ⟨⟨lo, w1⟩, -, h⟩ := Option.bind_eq_some_iff.mp h
  obtain ⟨⟨hi, w2⟩, -, h⟩ := Option.bind_eq_some_iff.mp h
  cases h
  exact bank_append _ _

theorem Cpu.setPC_eq {c : Cpu} {a target : BitVec 24} (hpc : c.pbpc = a)
    (h : bank target = bank a) : c.setPbpc target = c.setPC (low target) := by
  rw [Cpu.setPbpc_eq, h, ← (Cpu.pbpc_parts hpc).1]
  rfl

/-- A jump through a table of unknown length. -/
theorem readJump_lands (hm : b.i.Met rom fn st nst) (hrom : rom.OnBus σ)
    (hop : b.i.opcode = 0x7C) (hpc : c.pbpc = b.i.addr) (he : c.e = false) {more : List Stmt}
    (hrun : runStmts (.strictRest b.i.addr :: .readTarget b.i :: .jumpRead :: more) t c
      (startWire bus b.i.last) = some ((c', x), w')) :
    ∃ v, execute c bus = some (v, w'.bus) ∧ b.Lands fn nxt v c' x := by
  have hexec := execute_jumpTable (decodeInsn_decoded hm.decoded) hop hpc (hm.placed hrom bus) he
  obtain ⟨⟨target, w1⟩, hread, hrun⟩ := Option.bind_eq_some_iff.mp hrun
  rw [hread] at hexec
  cases hrun
  exact ⟨_, hexec, .rest (Cpu.setPC_eq hpc (targetStmt_bank hread))⟩

theorem push16_index {r r' : RegFile} {v : BitVec 16} (h : push16 r v w = some (r', w')) :
    r'.X = r.X := by
  obtain ⟨⟨r1, w1⟩, h1, h⟩ := Option.bind_eq_some_iff.mp h
  obtain ⟨⟨_, w2⟩, -, h1⟩ := Option.bind_eq_some_iff.mp h1
  obtain ⟨⟨_, w3⟩, -, h⟩ := Option.bind_eq_some_iff.mp h
  cases h1
  cases h
  rfl

/-- A call through a table of unknown length. -/
theorem readCall_lands (hm : b.i.Met rom fn st nst) (hrom : rom.OnBus σ)
    (hop : b.i.opcode = 0xFC) (hpc : c.pbpc = b.i.addr) (he : c.e = false) {mx : MxCheck}
    {next : List Stmt} (hgoes : b.i.GoesOn fn nxt next)
    (hrun : runStmts (.strictRest b.i.addr :: .push16 b.i.lastAddr :: .readTarget b.i ::
      .callRead b.i.back mx :: next) t c (startWire bus b.i.last) = some ((c', x), w')) :
    ∃ v, execute c bus = some (v, w'.bus) ∧ b.Lands fn nxt v c' x := by
  have hd := decodeInsn_decoded hm.decoded
  obtain ⟨⟨r, w1⟩, hpush, hrun⟩ := Option.bind_eq_some_iff.mp hrun
  obtain ⟨⟨target, w2⟩, hread, hrun⟩ := Option.bind_eq_some_iff.mp hrun
  have hexec := execute_callTable hd hop hpc (hm.placed hrom bus) he hpush (push16_index hpush)
  have hread' : targetStmt b.i r w1 = some (target, w2) := hread
  rw [hread'] at hexec
  cases hrun
  exact ⟨_, hexec, .dispatch rfl (by rw [(hd.at hop rfl).1]; rfl) (.inl hgoes)⟩

/-- A case of a listed table, and the word it is for. -/
theorem Insn.Tabled.word {i : Insn} {cs : List (BitVec 16 × TableCase)} (h : i.Tabled rom cs)
    (hrom : rom.OnBus σ) {r : RegFile} {case : TableCase} (hcase : cs.lookup r.X = some case)
    (w : Wire σ) : ∃ target w', targetStmt i r w = some (target, w') ∧ w'.bus = w.bus ∧
      bank target = bank i.addr ∧ case.Fits i target := by
  obtain ⟨lo, hi, hlo, hhi, hfits⟩ := h _ _ hcase
  obtain ⟨w', hread, hbus⟩ := targetStmt_mem (w := w) (hrom _ _ hlo) (hrom _ _ hhi)
  exact ⟨_, w', hread, hbus, bank_append _ _, hfits⟩

theorem switch_runs {cs : List (BitVec 16 × TableCase)} {site : BitVec 24} {more : List Stmt}
    (hrun : runStmts (.switch site cs :: more) t c w = some ((c', x), w')) :
    ∃ case, cs.lookup c.X = some case ∧ case.exit c more = (c', x) ∧ w' = w := by
  unfold runStmts at hrun
  cases hcase : cs.lookup c.X with
  | none =>
    rw [hcase] at hrun
    cases hrun
  | some case =>
    rw [hcase] at hrun
    obtain ⟨hexit, hw⟩ := Prod.mk.inj (Option.some.inj hrun)
    exact ⟨case, rfl, hexit, hw.symm⟩

/-- A jump through a listed table. -/
theorem tableJump_lands (hm : b.i.Met rom fn st nst) (hrom : rom.OnBus σ)
    (hop : b.i.opcode = 0x7C) (hpc : c.pbpc = b.i.addr) (he : c.e = false)
    {cs : List (BitVec 16 × TableCase)} (hcs : b.i.Tabled rom cs) {more : List Stmt}
    (hrun : runStmts (.switch b.i.addr cs :: more) t c (startWire bus b.i.last) =
      some ((c', x), w')) :
    ∃ v, execute c bus = some (v, w'.bus) ∧ b.Lands fn nxt v c' x := by
  have hexec := execute_jumpTable (decodeInsn_decoded hm.decoded) hop hpc (hm.placed hrom bus) he
  obtain ⟨case, hcase, hexit, rfl⟩ := switch_runs hrun
  obtain ⟨target, w2, hread, hbus, hbank, hfits⟩ := hcs.word hrom hcase (startWire bus b.i.last)
  rw [hread, Option.map_some, hbus] at hexec
  refine ⟨_, hexec, ?_⟩
  have hnot : b.i.opcode ≠ 0xFC := by rw [hop]; decide
  cases hfits with
  | interpCall hcall | hookedCall hcall | run hcall => exact absurd hcall hnot
  | interpJump =>
    cases hexit
    exact .rest (Cpu.setPC_eq hpc hbank)
  | hookedJump _ f =>
    cases hexit
    exact .rest (Cpu.setPC_eq hpc hbank)
  | tail _ hf =>
    cases hexit
    exact .tail hf rfl

/-- A call through a listed table. -/
theorem tableCall_lands (hm : b.i.Met rom fn st nst) (hrom : rom.OnBus σ)
    (hop : b.i.opcode = 0xFC) (hpc : c.pbpc = b.i.addr) (he : c.e = false)
    {cs : List (BitVec 16 × TableCase)} (hcs : b.i.Tabled rom cs) {next : List Stmt}
    (hgoes : b.i.GoesOn fn nxt next)
    (hrun : runStmts (.push16 b.i.lastAddr :: .switch b.i.addr cs :: .check b.i.shortCheck ::
      next) t c (startWire bus b.i.last) = some ((c', x), w')) :
    ∃ v, execute c bus = some (v, w'.bus) ∧ b.Lands fn nxt v c' x := by
  obtain ⟨⟨r, w1⟩, hpush, hrun⟩ := Option.bind_eq_some_iff.mp hrun
  have hd := decodeInsn_decoded hm.decoded
  have hexec := execute_callTable hd hop hpc (hm.placed hrom bus) he hpush (push16_index hpush)
  have hfalls : b.i.mnemonic.fallsThrough = true := by
    rw [(hd.at hop rfl).1]
    rfl
  obtain ⟨case, hcase, hexit, rfl⟩ := switch_runs hrun
  obtain ⟨target, w2, hread, hbus, hbank, hfits⟩ := hcs.word hrom hcase w'
  rw [Cpu.setRegs_regs] at hread
  rw [hread, Option.map_some, hbus] at hexec
  refine ⟨_, hexec, ?_⟩
  have hchecked : b.i.Checked fn nxt (.check b.i.shortCheck :: next) :=
    ⟨_, next, .inl rfl, rfl, hgoes⟩
  cases hfits with
  | interpJump hjump | hookedJump hjump | tail hjump => exact absurd hop hjump
  | interpCall _ mx =>
    cases hexit
    exact .dispatch rfl hfalls (.inr hchecked)
  | hookedCall _ mx f =>
    cases hexit
    exact .dispatch rfl hfalls (.inr hchecked)
  | run _ hf =>
    cases hexit
    exact .call hf rfl hfalls hchecked

/-- A block's statements leave the CPU where its instruction does. -/
theorem block_lands (hm : b.i.Met rom fn st nst) (hs : b.Shaped rom fn nxt) (hrom : rom.OnBus σ)
    (hpc : c.pbpc = b.i.addr) (hmode : InMode c.toRegFile b.i.key.2) (hr : c.toRegFile.Ranged)
    (hxce : b.i.mnemonic = .XCE → c.c = false)
    (hrun : runStmts b.body t c (startWire bus b.i.last) = some ((c', x), w')) :
    ∃ v, execute c bus = some (v, w'.bus) ∧ b.Lands fn nxt v c' x := by
  have hd := decodeInsn_decoded hm.decoded
  have he := hmode.native
  obtain ⟨body, plp, next, hbody, hwrites, hplp, hgoes⟩ := hs
  rw [hbody] at hrun
  have hnone {op : BitVec 8} (hop : b.i.opcode = op) (hnot : (opcodes op).1 ≠ .PLP) : plp = [] := by
    refine checks_none hplp ?_
    have hmnemonic : b.i.mnemonic = (opcodes b.i.opcode).1 := by rw [hd.op]
    rwa [hmnemonic, hop]
  cases hwrites with
  | op hop hb hwd ht =>
    by_cases hmvn : b.i.opcode = 0x54
    · exact move_lands hm hrom hmvn hpc hmode hwd ht hplp hgoes hrun
    · exact op_lands hm hrom hop hb hmvn hpc hmode hr hxce hplp hgoes hrun
  | ret hret => exact ret_lands hm hrom hpc he hrun
  | branch hop hb => exact branch_lands hm hrom hb hpc hmode hplp hgoes hrun
  | jump hop => exact jump_lands hm hrom hop hpc hmode hrun
  | call hop hbefore hafter hstmts =>
    have hplp' : plp = [] := by
      rcases hop with hop | hop
      · exact hnone hop (by decide)
      · exact hnone hop (by decide)
    rw [hplp', List.append_nil] at hrun
    simp only [List.append_assoc] at hrun
    exact call_lands hm hrom hop hpc he hbefore hafter hstmts hgoes hrun
  | leave hop hbefore hstmts =>
    simp only [List.append_assoc] at hrun
    exact leave_lands hm hrom hop hpc he hbefore hstmts hrun
  | readJump hop => exact readJump_lands hm hrom hop hpc he hrun
  | readCall hop mx =>
    rw [hnone hop (by decide)] at hrun
    exact readCall_lands hm hrom hop hpc he hgoes hrun
  | tableJump hop hbefore hcs =>
    simp only [List.append_assoc] at hrun
    rw [strict_runs hbefore] at hrun
    exact tableJump_lands hm hrom hop hpc he hcs hrun
  | tableCall hop hbefore hcs =>
    rw [hnone hop (by decide), List.append_nil, List.append_assoc, strict_runs hbefore] at hrun
    exact tableCall_lands hm hrom hop hpc he hcs hgoes hrun

end

end CtRecomp
