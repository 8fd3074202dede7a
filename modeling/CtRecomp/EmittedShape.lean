import CtRecomp.EmitFlow
import CtRecomp.EmittedRun

namespace CtRecomp

open Loop

/-! What is written for an instruction, as the frame scheduler runs it. -/

/-- If it is a compiled function, it is the one at `target`. -/
def CName.IsAt (f : CName) (target : BitVec 24) : Prop := ∀ o a m x, f = .fn o a m x → a = target

/-- Where a JSR, JSL, JMP or JML with its target in the operand goes. -/
def Insn.target (i : Insn) : BitVec 24 :=
  if i.opcode = 0x22 ∨ i.opcode = 0x5C then i.operand else i.jumpTo

/-- A call, its return address pushed. -/
inductive Insn.Calls (i : Insn) (target : BitVec 24) : List Stmt → Prop
  | run {f : CName} (hf : f.IsAt target) (c : ReturnCheck)
      (hc : c = i.shortCheck ∨ c = i.longCheck) :
    Calls i target [.run f, .check c]
  | interp (n : Nat) (mx : MxCheck) : Calls i target [.callInterp target i.back n mx]
  | external (n : Nat) (mx : MxCheck) (f : CName) (c : ReturnCheck) :
    Calls i target [.externCall target i.back n mx f c]

/-- A jump out of the function. -/
inductive LeavesTo (target : BitVec 24) : List Stmt → Prop
  | tail {f : CName} (hf : f.IsAt target) : LeavesTo target [.tail f]
  | external (f : CName) : LeavesTo target [.externTail target f]
  | rest : LeavesTo target [.setPB (bank target), .setPC (low target), .rest]

/-- A case of the table that a call or a jump goes through. -/
inductive TableCase.Fits (i : Insn) (target : BitVec 24) : TableCase → Prop
  | interpCall (hop : i.opcode = 0xFC) (mx : MxCheck) : Fits i target (.interpCall target i.back mx)
  | interpJump (hop : i.opcode ≠ 0xFC) : Fits i target (.interpJump target)
  | hookedCall (hop : i.opcode = 0xFC) (mx : MxCheck) (f : CName) :
    Fits i target (.hookedCall target i.back mx f)
  | hookedJump (hop : i.opcode ≠ 0xFC) (f : CName) : Fits i target (.hookedJump target f)
  | run (hop : i.opcode = 0xFC) {f : CName} (hf : f.IsAt target) : Fits i target (.run f)
  | tail (hop : i.opcode ≠ 0xFC) {f : CName} (hf : f.IsAt target) : Fits i target (.tail f)

/-- Each case of a `switch` goes to the table's word at its index. -/
def Insn.Tabled (rom : Image) (i : Insn) (cases : List (BitVec 16 × TableCase)) : Prop :=
  ∀ x c, cases.lookup x = some c → ∃ lo hi, rom (bank i.addr ++ (i.lo16 + x)) = some lo ∧
    rom (bank i.addr ++ (i.lo16 + x + 1)) = some hi ∧ c.Fits i (bank i.addr ++ (hi ++ lo))

/-- Opcodes whose statements are no template's. -/
def ownOps : List (BitVec 8) := [0x40, 0xFC, 0x7C, 0x20, 0x22, 0x5C, 0x4C]

def Insn.branches (i : Insn) : Prop :=
  i.mnemonic.isBranch = true ∨ i.mnemonic = .BRA ∨ i.mnemonic = .BRL

/-- Statements that do nothing in the scheduler. -/
def Strict (body : List Stmt) : Prop := ∀ s ∈ body, ∃ a, s = .strictRest a

/-- Statements that set PB at most. -/
def Idle (body : List Stmt) : Prop := ∀ s ∈ body, ∃ v a, s = .setPB v ∨ s = .strictRest a

def Insn.pushes (i : Insn) : List Stmt :=
  if i.opcode = 0x22 then [.push8 (bank i.addr), .push16 i.lastAddr] else [.push16 i.lastAddr]

/-- What is written for an instruction, up to where it goes on; `post` is the mode after it. -/
inductive Insn.Writes (rom : Image) (i : Insn) (post : Mode) : List Stmt → Prop
  | op (hop : i.opcode ∉ ownOps) (hb : ¬i.branches) {w : Width} {t : Template Unit}
    (hw : i.width = some w) (ht : @templates Unit noBoard i.opcode w = some t) :
    Writes rom i post [.op i]
  | ret (hret : i.opcode ∉ ownOps ∨ i.opcode = 0x40) : Writes rom i post [.ret i]
  | branch (hop : i.opcode ∉ ownOps) (hb : i.branches) :
    Writes rom i post [.branch i (i.branchTarget, post)]
  | jump (hop : i.opcode = 0x4C) : Writes rom i post [.jump i (i.jumpTo, post)]
  | call (hop : i.opcode = 0x20 ∨ i.opcode = 0x22) {before after stmts : List Stmt}
    (hbefore : Idle before) (hafter : Idle after) (hstmts : i.Calls i.target stmts) :
    Writes rom i post (before ++ i.pushes ++ after ++ stmts)
  | leave (hop : i.opcode = 0x4C ∨ i.opcode = 0x5C) {before stmts : List Stmt}
    (hbefore : Idle before) (hstmts : LeavesTo i.target stmts) : Writes rom i post (before ++ stmts)
  | readJump (hop : i.opcode = 0x7C) :
    Writes rom i post [.strictRest i.addr, .readTarget i, .jumpRead]
  | readCall (hop : i.opcode = 0xFC) (mx : MxCheck) : Writes rom i post
    [.strictRest i.addr, .push16 i.lastAddr, .readTarget i, .callRead i.back mx]
  | tableJump (hop : i.opcode = 0x7C) {before : List Stmt} (hbefore : Strict before)
    {cases : List (BitVec 16 × TableCase)} (hcases : i.Tabled rom cases) :
    Writes rom i post (before ++ [.switch i.addr cases])
  | tableCall (hop : i.opcode = 0xFC) {before : List Stmt} (hbefore : Strict before)
    {cases : List (BitVec 16 × TableCase)} (hcases : i.Tabled rom cases) :
    Writes rom i post (before ++ [.push16 i.lastAddr, .switch i.addr cases, .check i.shortCheck])

/-- The gotos of a call that comes back in several modes. -/
inductive Insn.Gotos (i : Insn) : List Mode → List Stmt → Prop
  | nil : Gotos i [] []
  | cons {m x e : _} {ks : List Mode} {body : List Stmt} (h : Gotos i ks body) :
    Gotos i ((some m, some x, e) :: ks) (.gotoMode m x (i.nextAddr, some m, some x, e) :: body)

/-- Where an instruction goes on, before `nxt`. -/
inductive Insn.GoesOn (fn : Func) (i : Insn) (nxt : Option Insn) : List Stmt → Prop
  | fall (hexits : fn.callExits.lookup i.key = none)
    (hon : i.mnemonic.fallsThrough = true → nxt.map (·.key) = some (i.nextAddr, fn.postOf i.key)) :
    GoesOn fn i nxt []
  | goto (hexits : fn.callExits.lookup i.key = none) :
    GoesOn fn i nxt [.goto (i.nextAddr, fn.postOf i.key)]
  | never (hexits : fn.callExits.lookup i.key = some []) {body : List Stmt}
    (hbody : body = [] ∨ body = [.restIfHook]) : GoesOn fn i nxt (body ++ [.fatal i.addr])
  | several {ks : List Mode} (hexits : fn.callExits.lookup i.key = some ks) {body : List Stmt}
    (hbody : i.Gotos ks body) : GoesOn fn i nxt (body ++ [.fatal i.addr])

/-- PLP's check. -/
def Insn.Checks (i : Insn) (post : Mode) (body : List Stmt) : Prop :=
  if i.mnemonic = .PLP then
    ∃ m x, post.1 = some m ∧ post.2.1 = some x ∧ body = [.checkMx i.addr m x]
  else body = []

/-- A block, before an instruction. -/
def Block.Shaped (rom : Image) (fn : Func) (b : Block) (nxt : Option Insn) : Prop :=
  ∃ body plp next, b.body = body ++ plp ++ next ∧ b.i.Writes rom (fn.postOf b.i.key) body ∧
    b.i.Checks (fn.postOf b.i.key) plp ∧ b.i.GoesOn fn nxt next

/-! The emission writes these. -/

theorem mapM_some {α β ε : Type} {f : α → Except ε β} {as : List α} {bs : List β}
    (h : as.mapM f = .ok bs) {k : Nat} {b : β} (hb : bs[k]? = some b) :
    ∃ a, as[k]? = some a ∧ f a = .ok b := by
  induction as generalizing bs k with
  | nil =>
    cases h
    cases hb
  | cons a as ih =>
    rw [List.mapM_cons] at h
    obtain ⟨b', hb', h⟩ := bind_eq_ok_iff.mp h
    obtain ⟨bs', hbs', h⟩ := bind_eq_ok_iff.mp h
    cases h
    cases k with
    | zero =>
      cases hb
      exact ⟨a, rfl, hb'⟩
    | succ k => exact ih hbs' hb

theorem tableTargets_word {reg : Registry} {i : Insn} {targets : List (BitVec 24)}
    (h : reg.tableTargets i = .ok targets) {k : Nat} {t : BitVec 24} (ht : targets[k]? = some t) :
    ∃ lo hi, reg.rom (bank i.addr ++ (i.lo16 + BitVec.ofNat 16 (2 * k))) = some lo ∧
      reg.rom (bank i.addr ++ (i.lo16 + BitVec.ofNat 16 (2 * k) + 1)) = some hi ∧
      t = bank i.addr ++ (hi ++ lo) := by
  unfold Registry.tableTargets at h
  split at h
  · cases h
  next count hcount =>
  obtain ⟨k', hk', hword⟩ := mapM_some h ht
  obtain ⟨hlt, hk'⟩ := List.getElem?_eq_some_iff.mp hk'
  rw [List.getElem_range] at hk'
  subst hk'
  have hone : i.lo16 + BitVec.ofNat 16 (2 * k + 1) = i.lo16 + BitVec.ofNat 16 (2 * k) + 1 := by
    rw [BitVec.ofNat_add, BitVec.add_assoc]
    rfl
  dsimp only at hword
  rw [hone] at hword
  split at hword
  next lo hi hlo hhi =>
    cases hword
    exact ⟨lo, hi, hlo, hhi, rfl⟩
  · cases hword

/-! What the decoder adds for an instruction. -/

/-- What is called or jumped to. -/
def Added.callees (a : Added) : List (Option (BitVec 24 × State)) :=
  [a.call, a.interpCall, a.tail, a.interpTail]

/-- Targets are the operand's, and a table's its words. -/
structure Added.Aims (a : Added) (reg : Registry) (i : Insn) : Prop where
  target : ∀ t c, some (t, c) ∈ a.callees → t = i.target
  table : ∀ ts c, a.table = some (ts, c) → reg.tableTargets i = .ok ts

section

variable {reg : Registry} {i : Insn}

theorem Insn.target_near (hd : i.Decoded) (hm : i.mnemonic = .JSR ∨ i.mnemonic = .JMP) :
    i.target = i.jumpTo := by
  refine if_neg ?_
  rintro (hop | hop)
  · rw [(hd.at hop rfl).1] at hm
    rcases hm with hm | hm <;> cases hm
  · rw [(hd.at hop rfl).1] at hm
    rcases hm with hm | hm <;> cases hm

/-- The far call and jump with the target in the operand. -/
theorem opcodes_far : ∀ op : BitVec 8, (opcodes op).1 = .JSL ∨ opcodes op = (.JML, .long) →
    op = 0x22 ∨ op = 0x5C := by decide +kernel

theorem Insn.target_far (hd : i.Decoded)
    (hm : i.mnemonic = .JSL ∨ i.mnemonic = .JML ∧ i.mode = .long) : i.target = i.operand := by
  refine if_pos (opcodes_far i.opcode ?_)
  rw [hd.op]
  rcases hm with hm | ⟨hm, hmode⟩
  · exact .inl hm
  · exact .inr (by rw [hm, hmode])

theorem aims_none {a : Added} (h : a.callees = [none, none, none, none]) (ht : a.table = none) :
    a.Aims reg i where
  target t c hmem := by
    rw [h] at hmem
    simp at hmem
  table ts c htable := by cases ht.symm.trans htable

theorem aims_one {a : Added} {target : BitVec 24}
    (h : ∀ t c, some (t, c) ∈ a.callees → t = target) (ht : target = i.target)
    (htable : a.table = none) : a.Aims reg i where
  target t c hmem := (h t c hmem).trans ht
  table ts c htable' := by cases htable.symm.trans htable'

theorem continueCall_aims {a : Added} {nxt : State} {exits : Finset (Option Bool × Option Bool)}
    {r : Added × Paths} (ha : a.Aims reg i) (h : a.continueCall i nxt exits = .ok r) :
    r.1.Aims reg i := by
  obtain ⟨sorted, -, hback⟩ := continueCall_cases h
  obtain ⟨hcall, htail, htable, hinterp, -, hfar, -⟩ := hback.kept
  have hcallees : r.1.callees = a.callees := by
    unfold Added.callees
    rw [hcall, hinterp, htail, hfar]
  exact ⟨hcallees ▸ ha.target, htable ▸ ha.table⟩

variable {function : BitVec 24 → State → RegM Func}

theorem followCall_aims (nxt : State) (kind : CallKind)
    (ht : (if kind = .JSR then i.jumpTo else i.operand) = i.target) :
    Returns (i.followCall (reg.resolver function) nxt kind) fun r => r.1.Aims reg i := by
  refine (returns_any _).bind fun exits _ => ?_
  cases exits with
  | some exits =>
    refine returns_raised fun r hr => continueCall_aims (aims_one ?_ ht rfl) hr
    simp +contextual [Added.callees, Added.none]
  | none =>
    refine returns_raised fun r hr => continueCall_aims (aims_one ?_ ht rfl) hr
    simp +contextual [Added.callees, Added.none]

theorem followTable_aims (nxt : State) :
    Returns (i.followTable (reg.resolver function) nxt) fun r => r.1.Aims reg i := by
  refine spec_ite (fun _ => returns_throw) fun _ => spec_ite (fun _ => ?_) fun _ => ?_
  · refine spec_ite (fun _ => returns_pure (aims_none rfl rfl)) fun _ => ?_
    exact returns_raised fun r hr => continueCall_aims (aims_none rfl rfl) hr
  · refine Returns.bind (Q := fun targets => reg.tableTargets i = .ok targets)
      (returns_raised fun _ h => h) fun targets htargets => ?_
    have haims {a : Added} {cst : State} (h : a.callees = [none, none, none, none])
        (htable : a.table = some (targets, cst)) : a.Aims reg i := by
      refine ⟨(@aims_none reg i { a with table := none } h rfl).target, ?_⟩
      intro ts c h
      cases htable.symm.trans h
      exact htargets
    refine spec_ite (fun _ => (returns_any _).bind fun exits _ => returns_pure ?_) fun _ =>
      (returns_any _).bind fun exits _ => returns_raised fun r hr => continueCall_aims ?_ hr
    · exact haims rfl rfl
    · exact haims rfl rfl

theorem followFar_aims (nxt : State) (ht : i.operand = i.target) :
    Returns (i.followFar (reg.resolver function) nxt) fun r => r.1.Aims reg i := by
  refine spec_ite (fun _ => returns_pure (aims_one ?_ ht rfl)) fun _ =>
    (returns_any _).bind fun exits _ => returns_pure (aims_one ?_ ht rfl)
  · simp +contextual [Added.callees, Added.none]
  · simp +contextual [Added.callees, Added.none]

theorem followJump_aims (entry : BitVec 24) (st nxt : State) (ht : i.jumpTo = i.target) :
    Returns (i.followJump (reg.resolver function) entry st nxt) fun r => r.1.Aims reg i := by
  refine (returns_any _).bind fun exits _ => ?_
  cases exits with
  | some exits =>
    refine returns_pure (aims_one ?_ ht rfl)
    simp +contextual [Added.callees, Added.none]
  | none => exact returns_pure (aims_none rfl rfl)

theorem follow_aims (hd : i.Decoded) (entry : BitVec 24) (st nxt : State) :
    Returns (i.follow (reg.resolver function) entry st nxt) fun r => r.1.Aims reg i := by
  unfold Insn.follow
  split
  case h_14 hm hmode => exact followFar_aims nxt (Insn.target_far hd (.inr ⟨hm, hmode⟩)).symm
  case h_15 hm hmode =>
    exact followJump_aims entry st nxt (Insn.target_near hd (.inr hm)).symm
  case h_16 hm hmode =>
    exact followCall_aims nxt .JSR (Insn.target_near hd (.inl hm)).symm
  case h_17 hm hmode => exact followCall_aims nxt .JSL (Insn.target_far hd (.inl hm)).symm
  case h_18 hm hmode => exact followTable_aims nxt
  case h_19 hm hmode => exact followTable_aims nxt
  case h_20 | h_25 | h_26 | h_27 | h_28 => exact returns_throw
  all_goals exact returns_pure (aims_none rfl rfl)

end

/-! Statement by statement. -/

section

variable {reg : Registry} {i : Insn} {fn : Func} {overlay : Option String}

theorem callee_at (target : BitVec 24) (cst : State) :
    (callee reg overlay target cst).IsAt target := by
  intro o a m x h
  unfold callee at h
  split at h
  · cases h
  · cases h
    rfl

theorem label_returns (site : BitVec 24) (key : Key) :
    Returns (label fn site key) fun k => k = key := by
  unfold label
  exact spec_ite (fun _ => returns_pure rfl) fun _ => returns_throw

theorem idle_nil : Idle [] := List.forall_mem_nil _

theorem strict_unless (p : Prop) [Decidable p] (a : BitVec 24) :
    Strict (if p then [] else [.strictRest a]) := by
  split
  · exact List.forall_mem_nil _
  · exact List.forall_mem_singleton.mpr ⟨a, rfl⟩

theorem idle_setPB (v : BitVec 8) : Idle [.setPB v] :=
  List.forall_mem_singleton.mpr ⟨v, 0, .inl rfl⟩

theorem jsrBody_writes (fuel : Nat) (post : Mode) (cst : State) (hop : i.opcode = 0x20) :
    Returns (jsrBody reg fuel overlay i i.target cst) (i.Writes reg.rom post) := by
  have hpushes : i.pushes = [.push16 i.lastAddr] := if_neg (by rw [hop]; decide)
  have hcall {stmts : List Stmt} (h : i.Calls i.target stmts) :
      i.Writes reg.rom post (.push16 i.lastAddr :: stmts) := by
    have hwrites : i.Writes reg.rom post ([] ++ i.pushes ++ [] ++ stmts) :=
      .call (.inl hop) idle_nil idle_nil h
    rwa [hpushes] at hwrites
  exact (returns_any _).bind fun b _ => spec_ite
    (fun _ => returns_pure (hcall (.external _ _ _ _)))
    fun _ => returns_pure (hcall (.run (callee_at _ _) _ (.inl rfl)))

theorem jslBody_writes (fuel : Nat) (post : Mode) (cst : State) (hop : i.opcode = 0x22) :
    Returns (jslBody reg fuel overlay i i.target cst) (i.Writes reg.rom post) := by
  have hpushes : i.pushes = [.push8 (bank i.addr), .push16 i.lastAddr] := if_pos hop
  have hcall {stmts : List Stmt} (h : i.Calls i.target stmts) : i.Writes reg.rom post
      ([.push8 (bank i.addr), .push16 i.lastAddr, .setPB (bank i.target)] ++ stmts) := by
    have hwrites : i.Writes reg.rom post ([] ++ i.pushes ++ [.setPB (bank i.target)] ++ stmts) :=
      .call (.inr hop) idle_nil (idle_setPB (bank i.target)) h
    rwa [hpushes] at hwrites
  exact (returns_any _).bind fun b _ => spec_ite
    (fun _ => returns_pure (hcall (.external _ _ _ _)))
    fun _ => returns_pure (hcall (.run (callee_at _ _) _ (.inr rfl)))

theorem interpCallBody_writes (post : Mode) (cst : State)
    (hop : i.opcode = 0x20 ∨ i.opcode = 0x22) :
    i.Writes reg.rom post (interpCallBody i i.target cst) := by
  have hstrict : Idle [.strictRest i.addr] :=
    List.forall_mem_singleton.mpr ⟨0, i.addr, .inr rfl⟩
  have hcall (n : Nat) : i.Writes reg.rom post
      ([.strictRest i.addr] ++ i.pushes ++ [] ++ [.callInterp i.target i.back n cst.mx]) :=
    .call hop hstrict idle_nil (.interp n cst.mx)
  unfold interpCallBody
  unfold Insn.pushes at hcall
  by_cases h22 : i.opcode = 0x22
  · rw [if_pos h22] at hcall ⊢
    exact hcall 3
  · rw [if_neg h22] at hcall ⊢
    exact hcall 2

theorem tailBody_leaves (fuel : Nat) (target : BitVec 24) (cst : State) :
    Returns (tailBody reg fuel overlay target cst) (LeavesTo target) :=
  (returns_any _).bind fun _ _ => spec_ite (fun _ => returns_pure (.external _))
    fun _ => returns_pure (.tail (callee_at _ _))

theorem caseBody_fits (fuel : Nat) (cst : State) (interp : List (BitVec 24))
    (target : BitVec 24) :
    Returns (caseBody reg fuel overlay i cst interp target) (TableCase.Fits i target) := by
  have hcase {c c' : TableCase} (hc : i.opcode = 0xFC → c.Fits i target)
      (hc' : i.opcode ≠ 0xFC → c'.Fits i target) :
      (if i.opcode = 0xFC then c else c').Fits i target := by
    split
    next hop => exact hc hop
    next hop => exact hc' hop
  refine spec_ite (fun _ => ?_) fun _ => (returns_any _).bind fun b _ =>
    spec_ite (fun _ => ?_) fun _ => ?_
  · exact returns_pure (hcase (fun hop => .interpCall hop _) fun hop => .interpJump hop)
  · exact returns_pure (hcase (fun hop => .hookedCall hop _ _) fun hop => .hookedJump hop _)
  · exact returns_pure (hcase (fun hop => .run hop (callee_at _ _))
      fun hop => .tail hop (callee_at _ _))

theorem casesBody_fits (fuel : Nat) (cst : State) (interp targets : List (BitVec 24)) (n : Nat) :
    Returns (casesBody reg fuel overlay i cst interp n targets) fun cs =>
      ∀ x c, cs.lookup x = some c → ∃ k t, targets[k]? = some t ∧
        x = BitVec.ofNat 16 (2 * (n + k)) ∧ c.Fits i t := by
  induction targets generalizing n with
  | nil => exact returns_pure nofun
  | cons t targets ih =>
    refine (caseBody_fits fuel cst interp t).bind fun c hc => (ih (n + 1)).bind fun cs hcs =>
      returns_pure fun x c' hlookup => ?_
    rw [List.lookup_cons] at hlookup
    split at hlookup
    next hx =>
      cases hlookup
      exact ⟨0, t, rfl, beq_iff_eq.mp hx, hc⟩
    next =>
      obtain ⟨k, t', ht', hx, hfits⟩ := hcs x c' hlookup
      exact ⟨k + 1, t', ht', by rw [hx, Nat.add_assoc, Nat.add_comm 1 k], hfits⟩

theorem tableBody_writes (fuel : Nat) (post : Mode) {targets : List (BitVec 24)} (cst : State)
    (htargets : reg.tableTargets i = .ok targets) (hop : i.opcode = 0xFC ∨ i.opcode = 0x7C) :
    Returns (tableBody reg fuel overlay fn i targets cst) (i.Writes reg.rom post) := by
  refine (casesBody_fits fuel cst _ targets 0).bind fun cs hcs => ?_
  have htabled : i.Tabled reg.rom cs := by
    intro x c hlookup
    obtain ⟨k, t, ht, hx, hfits⟩ := hcs x c hlookup
    obtain ⟨lo, hi, hlo, hhi, hword⟩ := tableTargets_word htargets ht
    rw [Nat.zero_add] at hx
    subst hx hword
    exact ⟨lo, hi, hlo, hhi, hfits⟩
  refine spec_ite (fun hcall => returns_pure ?_) fun hcall => returns_pure ?_
  · exact .tableCall hcall (strict_unless _ _) htabled
  · exact .tableJump (hop.resolve_left hcall) (strict_unless _ _) htabled

theorem gotoModes_gotos (ks : List Mode) : Returns (gotoModes fn i ks) (i.Gotos ks) := by
  have hflag (b : Option Bool) : Returns (intFlag i.addr b) fun v => b = some v := by
    cases b with
    | none => exact returns_throw
    | some b => exact returns_pure rfl
  induction ks with
  | nil => exact returns_pure .nil
  | cons k ks ih =>
    obtain ⟨m, x, e⟩ := k
    refine (hflag m).bind fun m hm => (hflag x).bind fun x hx => (label_returns _ _).bind
      fun dest hdest => ih.bind fun body hbody => returns_pure ?_
    subst hm hx hdest
    exact .cons hbody

theorem onward_goesOn (body : List Stmt) (nxt : Option Insn) :
    Returns (onward fn i (fn.postOf i.key) body nxt) (i.GoesOn fn nxt) := by
  unfold onward
  split
  next hexits =>
    refine returns_pure (.never hexits ?_)
    split
    · exact .inr rfl
    · exact .inl rfl
  next hexits => exact (gotoModes_gotos _).bind fun _ h => returns_pure (.several hexits h)
  next hexits =>
    refine spec_ite (fun _ => ?_) fun hnot => returns_pure (.fall hexits fun hon => ?_)
    · refine (label_returns _ _).bind fun dest hdest => returns_pure ?_
      subst hdest
      exact .goto hexits
    · exact Classical.byContradiction fun hne => hnot ⟨hon, hne⟩

theorem plpCheck_checks (post : Mode) : Returns (plpCheck i post) (i.Checks post) := by
  unfold plpCheck Insn.Checks
  refine spec_ite (fun hm => ?_) fun hm => returns_pure ?_
  · simp only [hm, if_true]
    split
    next m x hm' hx' => exact returns_pure ⟨m, x, hm', hx', rfl⟩
    next => exact returns_throw
  · rw [if_neg hm]

variable {function : BitVec 24 → State → RegM Func} {I : RegState → Prop} {mem : Image}
  {entry : BitVec 24} {st : State} {P : BitVec 24 → State → Prop} {found : List (Found RegState)}
  {f : Found RegState}

theorem Decoded.aims (h : Decoded (reg.resolver function) I mem entry st P fn found)
    (hf : f ∈ found) : f.added.Aims reg f.i :=
  (follow_aims (decodeInsn_decoded (h.holds f hf).decoded) entry st f.nxt).ok trivial
    (h.holds f hf).followed

theorem Decoded.insnBody_writes (h : Decoded (reg.resolver function) I mem entry st P fn found)
    (hf : f ∈ found) (fuel : Nat) :
    Returns (insnBody reg fuel overlay fn f.i (fn.postOf f.i.key))
      (f.i.Writes reg.rom (fn.postOf f.i.key)) := by
  have hd := h.dicts hf
  have haims := h.aims hf
  have htarget {t : BitVec 24} {c : State} (get : Func → List (Key × BitVec 24 × State))
      (sel : Added → Option (BitVec 24 × State)) (hget : (get fn).lookup f.i.key = sel f.added)
      (hsel : sel f.added ∈ f.added.callees) (hlookup : (get fn).lookup f.i.key = some (t, c)) :
      t = f.i.target := haims.target t c (by rw [← hlookup, hget]; exact hsel)
  unfold insnBody
  split
  next => exact returns_throw
  next w hw =>
  refine spec_ite (fun hop => returns_pure (.ret (.inr hop))) fun hrti =>
    spec_ite (fun hop => ?_) fun htable => spec_ite (fun hop => ?_) fun hcall =>
    spec_ite (fun hop => ?_) fun hfar => spec_ite (fun hop => ?_) fun hjump => ?_
  · split
    · refine returns_pure ?_
      unfold dynTableBody
      by_cases hjmp : f.i.opcode = 0x7C
      · rw [if_pos hjmp]
        exact .readJump hjmp
      · rw [if_neg hjmp]
        exact .readCall (hop.resolve_right hjmp) _
    next targets cst _ htables =>
      exact tableBody_writes fuel _ cst (haims.table _ _ (hd.tables ▸ htables)) hop
    · exact returns_throw
  · split
    next target cst hinterp =>
      rw [htarget Func.interpCalls Added.interpCall hd.interpCalls
        (by simp [Added.callees]) hinterp]
      exact returns_pure (interpCallBody_writes _ cst hop)
    next target cst _ hcalls =>
      rw [htarget Func.calls Added.call hd.calls (by simp [Added.callees]) hcalls]
      exact spec_ite (fun h20 => jsrBody_writes fuel _ cst h20)
        fun h20 => jslBody_writes fuel _ cst (hop.resolve_left h20)
    · exact returns_throw
  · split
    next target cst htails =>
      rw [htarget Func.interpTails Added.interpTail hd.interpTails
        (by simp [Added.callees]) htails]
      exact returns_pure (.leave (.inr hop) idle_nil .rest)
    next target cst _ htails =>
      rw [htarget Func.tails Added.tail hd.tails (by simp [Added.callees]) htails]
      exact (tailBody_leaves fuel _ cst).bind fun body hbody =>
        returns_pure (.leave (.inr hop) (idle_setPB _) hbody)
    · exact returns_throw
  · split
    next target cst htails =>
      rw [htarget Func.tails Added.tail hd.tails (by simp [Added.callees]) htails]
      exact (tailBody_leaves fuel _ cst).post fun body _ hbody => .leave (.inl hop) idle_nil hbody
    next =>
      refine (label_returns _ _).bind fun dest hdest => returns_pure ?_
      subst hdest
      exact .jump hop
  · have hown : f.i.opcode ∉ ownOps := by
      simp only [ownOps, List.mem_cons, List.not_mem_nil, or_false, not_or]
      exact ⟨hrti, fun h => htable (.inl h), fun h => htable (.inr h), fun h => hcall (.inl h),
        fun h => hcall (.inr h), hfar, hjump⟩
    refine spec_ite (fun hb => ?_) fun hb => ?_
    · refine (label_returns _ _).bind fun dest hdest => returns_pure ?_
      subst hdest
      exact .branch hown hb
    · unfold templateBody
      split
      · exact returns_throw
      · exact returns_pure (.ret (.inl hown))
      next t hret ht => exact returns_pure (.op hown hb hw ht)

/-- Each block is shaped, before the one behind it. -/
theorem Decoded.emitInsns_shaped (h : Decoded (reg.resolver function) I mem entry st P fn found)
    (fuel : Nat) {is : List Insn} (his : ∀ i ∈ is, ∃ f ∈ found, f.i = i) :
    Returns (emitInsns reg fuel overlay fn is) fun bs => bs.map (·.i) = is ∧
      ∀ before b after, bs = before ++ b :: after →
        b.Shaped reg.rom fn (after.map (·.i)).head? := by
  induction is with
  | nil =>
    refine returns_pure ⟨rfl, fun before b after hsplit => ?_⟩
    cases before <;> cases hsplit
  | cons i is ih =>
    obtain ⟨⟨f, hf, rfl⟩, hrest⟩ := List.forall_mem_cons.mp his
    have hblock : Returns (emitInsn reg fuel overlay fn f.i is.head?) fun b =>
        b.i = f.i ∧ b.Shaped reg.rom fn is.head? :=
      (h.insnBody_writes hf fuel).bind fun body hbody => (plpCheck_checks _).bind fun plp hplp =>
        (onward_goesOn _ _).bind fun next hnext =>
          returns_pure ⟨rfl, body, plp, next, rfl, hbody, hplp, hnext⟩
    refine hblock.bind fun b hb => (ih hrest).bind fun bs hbs =>
      returns_pure ⟨?_, fun before b' after hsplit => ?_⟩
    · rw [List.map_cons, hb.1, hbs.1]
    · cases before with
      | nil =>
        cases hsplit
        rw [hbs.1]
        exact hb.2
      | cons b'' before =>
        cases hsplit
        exact hbs.2 before b' after rfl

end

end CtRecomp
