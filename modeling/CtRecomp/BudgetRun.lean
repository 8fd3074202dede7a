import CtRecomp.AssumedExact
import CtRecomp.OverlayBytes
import CtRecomp.StepBudget

namespace CtRecomp

/-! Both budgets over a run of compiled code, without the scheduler. -/

/-- `E` was emitted for a function decoded. -/
def EmittedFn.Compiled (E : EmittedFn) : Prop :=
  ∃ (reg : Registry) (fuel : Nat) (overlay : Option String) (mem : Image) (addr : BitVec 24)
    (st : State) (r r' : RegState) (s s' : EmitState),
    decodeFunction (reg.resolver (reg.function fuel)) fuel mem addr st r = (.ok E.fn, r') ∧
      emitFunction reg fuel overlay E.fn s = (.ok E, s')

theorem decodeFunction_insns {S : Type} {R : Resolver S} {n : Nat} {mem : Image}
    {addr : BitVec 24} {st : State} {fn : Func} {s s' : S}
    (h : decodeFunction R n mem addr st s = (.ok fn, s')) {i : Insn} (hi : i ∈ fn.insns) :
    i.Decoded := by
  have hcarries : Carries R (fun _ => True) mem addr st fun _ _ => True :=
    fun _ _ _ _ _ => trivial
  obtain ⟨-, found, hd⟩ := (decodeFunction_decoded (resolver_keeps_true R) hcarries trivial n).ok
    trivial h
  obtain ⟨f, hf, rfl⟩ := List.mem_map.mp (hd.insns.mem_iff.mp hi)
  exact decodeInsn_decoded (hd.holds f hf).decoded

theorem EmittedFn.Compiled.block {E : EmittedFn} (hE : E.Compiled) {b : Block}
    (hb : b ∈ E.blocks) :
    b.i.Decoded ∧ ∀ r n, b.spend r n = spendIf (b.i.loops r && !b.lost) n := by
  obtain ⟨reg, fuel, overlay, mem, addr, st, r, r', s, s', hdecode, hemit⟩ := hE
  obtain ⟨hi, hcharges⟩ := emitFunction_charges.ok trivial hemit b hb
  have hd := decodeFunction_insns hdecode hi
  exact ⟨hd, hcharges hd⟩

/-- The interpreter, with `interp_budget` in its wire, and `ct_budget`. -/
structure Twin (σ : Type) where
  c : Exec
  w : Wire σ
  budget : Nat

section

variable {σ : Type} [Board σ]

/-- Generated code is at `b` too, and runs it itself. -/
structure Twin.At (s : Twin σ) (b : Block) : Prop where
  compiled : ∃ E : EmittedFn, E.Compiled ∧ b ∈ E.blocks
  pc : s.c.pbpc = b.i.addr
  widths : KnownWidths s.c.toRegFile b.i
  placed : Placed s.w.bus b.i
  ours : Stmt.strictRest b.i.addr ∉ b.body

/-- One instruction on both sides; a byte of it, for a block move. -/
inductive Twin.Step (h : Host σ) : Twin σ → Block → Twin σ → Prop
  | insn {s : Twin σ} {b : Block} {c : Exec} {w : Wire σ} {n : Nat} (hat : s.At b)
      (hgen : b.spend s.c.toRegFile s.budget = some n) (hint : interpInsn h s.c s.w = some (c, w)) :
      Step h s b ⟨c, w, n⟩

inductive Twin.Run (h : Host σ) : Twin σ → List Block → Twin σ → Prop
  | nil (s : Twin σ) : Run h s [] s
  | cons {s s₁ s' : Twin σ} {b : Block} {bs : List Block} (hstep : Step h s b s₁)
      (hrest : Run h s₁ bs s') : Run h s (b :: bs) s'

/-- The budgets are equal, both sides charge the instruction if it loops, and both run out at it
or none. -/
structure Twin.Alike (h : Host σ) (s : Twin σ) (b : Block) : Prop where
  budgets : s.budget = s.w.budget
  generated : b.spend s.c.toRegFile s.budget = spendIf (b.i.loops s.c.toRegFile) s.budget
  interpreted : ∀ c w, interpInsn h s.c s.w = some (c, w) →
    spendIf (b.i.loops s.c.toRegFile) s.w.budget = some w.budget
  out : b.spend s.c.toRegFile s.budget = none ↔ RunsOut h s.c s.w

end

theorem Block.lost_loops {b : Block} (h : b.lost = true) (r : RegFile) : b.i.loops r = true := by
  unfold Block.lost at h
  rw [Bool.and_eq_true_iff, Bool.and_eq_true_iff, decide_eq_true_iff, decide_eq_true_iff] at h
  rw [Insn.loops, Insn.goesTo, if_pos h.1.1]
  exact decide_eq_true h.1.2

theorem spendIf_false {n m : Nat} (h : spendIf false n = some m) : n = m := Option.some.inj h

theorem spendIf_true {n m : Nat} (h : spendIf true n = some m) (hn : n ≠ 0) : n = m + 1 := by
  unfold spendIf CtRecomp.spend at h
  grind

theorem spendIf_pos {t : Bool} {n m : Nat} (h : spendIf t n = some m) (hn : n ≠ 0) : m ≠ 0 := by
  unfold spendIf CtRecomp.spend at h
  grind

section

variable {σ : Type} [Board σ] [BlindBoard σ] {h : Host σ} {s s' : Twin σ} {b : Block}

theorem Twin.At.charged (hat : s.At b) (hq : h.Quiet) :
    ChargedAt (interpInsn h s.c) (b.i.loops s.c.toRegFile) s.w := by
  obtain ⟨E, hE, hb⟩ := hat.compiled
  exact interpInsn_charged hq (hE.block hb).1 hat.pc hat.placed

omit [BlindBoard σ] in
theorem Twin.At.spend (hat : s.At b) (r : RegFile) (n : Nat) :
    b.spend r n = spendIf (b.i.loops r && !b.lost) n := by
  obtain ⟨E, hE, hb⟩ := hat.compiled
  exact (hE.block hb).2 r n

/-- What a step does to each budget. -/
theorem Twin.Step.budgets (hq : h.Quiet) (hstep : s.Step h b s') :
    spendIf (b.i.loops s.c.toRegFile && !b.lost) s.budget = some s'.budget ∧
      spendIf (b.i.loops s.c.toRegFile) s.w.budget = some s'.w.budget := by
  cases hstep with
  | insn hat hgen hint =>
    rw [hat.spend] at hgen
    exact ⟨hgen, (hat.charged hq).left hint⟩

/-- Generated code has more left, once a lost jump was not charged. -/
def Twin.Ahead (s : Twin σ) : Prop := s.w.budget ≠ 0 ∧ s.w.budget < s.budget

theorem Twin.Step.ahead (hq : h.Quiet) (hstep : s.Step h b s') (hs : s.Ahead) : s'.Ahead := by
  obtain ⟨hgen, hint⟩ := hstep.budgets hq
  refine ⟨spendIf_pos hint hs.1, ?_⟩
  have hlt := hs.2
  cases hloops : b.i.loops s.c.toRegFile with
  | false =>
    rw [hloops] at hgen hint
    rwa [← spendIf_false hgen, ← spendIf_false hint]
  | true =>
    rw [hloops] at hgen hint
    have hmore := spendIf_true hint hs.1
    cases hlost : b.lost with
    | true =>
      rw [hlost] at hgen
      have hours := spendIf_false hgen
      omega
    | false =>
      rw [hlost] at hgen
      have hours := spendIf_true hgen (by omega)
      omega

/-- From equal budgets, a step is on equal budgets again unless its jump is lost. -/
theorem Twin.Step.even (hq : h.Quiet) (hstep : s.Step h b s') (heq : s.budget = s.w.budget)
    (hlost : b.lost = false) : s'.budget = s'.w.budget := by
  obtain ⟨hgen, hint⟩ := hstep.budgets hq
  rw [hlost, Bool.not_false, Bool.and_true, heq, hint] at hgen
  exact (Option.some.inj hgen).symm

theorem Twin.Step.lost_ahead (hq : h.Quiet) (hstep : s.Step h b s') (heq : s.budget = s.w.budget)
    (hpos : s.budget ≠ 0) (hlost : b.lost = true) : s'.Ahead := by
  obtain ⟨hgen, hint⟩ := hstep.budgets hq
  have hpos' : s.w.budget ≠ 0 := heq ▸ hpos
  rw [hlost, Bool.not_true, Bool.and_false] at hgen
  rw [b.lost_loops hlost] at hint
  have hmore := spendIf_true hint hpos'
  have hours := spendIf_false hgen
  exact ⟨spendIf_pos hint hpos', by omega⟩

/-- An unlimited budget stays so. -/
theorem Twin.Step.unlimited (hq : h.Quiet) (hstep : s.Step h b s') (heq : s.budget = s.w.budget)
    (h0 : s.budget = 0) : s'.budget = 0 ∧ s'.w.budget = 0 := by
  obtain ⟨hgen, hint⟩ := hstep.budgets hq
  rw [h0, spendIf_zero] at hgen
  rw [← heq, h0, spendIf_zero] at hint
  exact ⟨(Option.some.inj hgen).symm, (Option.some.inj hint).symm⟩

variable {bs : List Block}

theorem Twin.Run.unlimited (hq : h.Quiet) (hrun : s.Run h bs s') (heq : s.budget = s.w.budget)
    (h0 : s.budget = 0) : s'.budget = 0 ∧ s'.w.budget = 0 := by
  induction hrun with
  | nil s => exact ⟨h0, heq ▸ h0⟩
  | cons hstep _ ih =>
    obtain ⟨hgen, hint⟩ := hstep.unlimited hq heq h0
    exact ih (hgen.trans hint.symm) hgen

theorem Twin.Run.ahead (hq : h.Quiet) (hrun : s.Run h bs s') (hs : s.Ahead) : s'.Ahead := by
  induction hrun with
  | nil s => exact hs
  | cons hstep _ ih => exact ih (hstep.ahead hq hs)

/-- The budgets at the end of a run on a limited one. -/
theorem Twin.Run.budgets_iff (hq : h.Quiet) (hrun : s.Run h bs s') (heq : s.budget = s.w.budget)
    (hpos : s.budget ≠ 0) :
    (s'.budget = s'.w.budget ↔ ∀ b ∈ bs, b.lost = false) ∧ s'.budget ≠ 0 := by
  induction hrun with
  | nil s => exact ⟨⟨fun _ => List.forall_mem_nil _, fun _ => heq⟩, hpos⟩
  | @cons s s₁ s' b bs hstep hrest ih =>
    cases hlost : b.lost with
    | true =>
      obtain ⟨h0, hlt⟩ := hrest.ahead hq (hstep.lost_ahead hq heq hpos hlost)
      refine ⟨⟨fun hend => absurd hend (by omega), fun hall => ?_⟩, by omega⟩
      exact absurd ((hall b List.mem_cons_self).symm.trans hlost) (by decide)
    | false =>
      have hpos₁ := spendIf_pos (hstep.budgets hq).1 hpos
      obtain ⟨hiff, hpos'⟩ := ih (hstep.even hq heq hlost) hpos₁
      rw [hiff, List.forall_mem_cons]
      exact ⟨⟨fun hall => ⟨hlost, hall⟩, fun hall => hall.2⟩, hpos'⟩

theorem Twin.At.alike_iff (hq : h.Quiet) (hat : s.At b) : s.Alike h b ↔
    s.budget = s.w.budget ∧ (s.budget = 0 ∨ b.lost = false) := by
  have hcharged := hat.charged hq
  constructor
  · intro halike
    refine ⟨halike.budgets, Decidable.or_iff_not_imp_left.mpr fun hpos => ?_⟩
    by_contra hlost
    have hlost := Bool.eq_true_of_not_eq_false hlost
    have hgen := halike.generated
    rw [hat.spend, hlost, Bool.not_true, Bool.and_false, b.lost_loops hlost] at hgen
    have hmore := spendIf_true hgen.symm hpos
    omega
  · rintro ⟨heq, hfree⟩
    have hspend : b.spend s.c.toRegFile s.budget =
        spendIf (b.i.loops s.c.toRegFile) s.budget := by
      rw [hat.spend]
      rcases hfree with h0 | hlost
      · rw [h0, spendIf_zero, spendIf_zero]
      · rw [hlost, Bool.not_false, Bool.and_true]
    refine ⟨heq, hspend, fun c w hrun => hcharged.left hrun, ?_⟩
    rw [hspend, heq]
    exact hcharged.stops.symm

/-- From equal budgets, both sides charge alike at the end of a run if and only if the budget is
unlimited or no jump in it, nor the one there, was to the jump's own address or below and emitted
as a jump out of its function. -/
theorem budget_alike_exact (hq : h.Quiet) (hrun : s.Run h bs s') (heq : s.budget = s.w.budget)
    (hat : s'.At b) :
    s'.Alike h b ↔ s.budget = 0 ∨ ∀ b' ∈ b :: bs, b'.lost = false := by
  rw [hat.alike_iff hq, List.forall_mem_cons]
  by_cases h0 : s.budget = 0
  · obtain ⟨hgen, hint⟩ := hrun.unlimited hq heq h0
    exact ⟨fun _ => .inl h0, fun _ => ⟨hgen.trans hint.symm, .inl hgen⟩⟩
  · obtain ⟨hiff, hpos'⟩ := hrun.budgets_iff hq heq h0
    rw [hiff, or_iff_right h0, or_iff_right hpos', and_comm]

end

/-! Two functions, the second a jump back into the first. -/

/-- `BRA $C00000`, `JMP $C00000` -/
def runawayRom : List (BitVec 8) := [0x80, 0xFE, 0x4C, 0x00, 0x00]

/-- A board of nothing but that ROM. -/
structure Runaway where

instance : Board Runaway where
  rom off := runawayRom.getD off.toNat 0
  hwRd _ := none
  hwWr _ := none
  fastrom _ := false

instance : BlindBoard Runaway where
  rd _ _ h := by cases h
  wr _ _ h := by cases h

def runawayImage : Image := codeAt 0xC00000 runawayRom

def runawayRegistry : Registry :=
  ⟨runawayImage, [⟨"loop", 0xC00000, [(true, true)], "", false⟩,
    ⟨"jump", 0xC00002, [(true, true)], "", false⟩], fun _ => none, fun _ => none⟩

def runawayEntry : State := .of (some true) (some true) false

def braBlock : Block :=
  let i : Insn := ⟨0xC00000, 0x80, .BRA, .rel, 0xFE, 2, some true, some true, false⟩
  ⟨i, [.branch i i.key]⟩

def jmpBlock : Block :=
  ⟨⟨0xC00002, 0x4C, .JMP, .abs, 0, 3, some true, some true, false⟩,
    [.tail (cName none 0xC00000 runawayEntry)]⟩

/-- The function at `addr`, decoded and emitted, has the block. -/
def runawayHas (addr : BitVec 24) (b : Block) : Bool :=
  match decodeFunction (runawayRegistry.resolver (runawayRegistry.function 8)) 8 runawayImage addr
    runawayEntry .init with
  | (.ok fn, r) =>
    match emitFunction runawayRegistry 8 none fn ⟨r, fun _ => none⟩ with
    | (.ok E, _) => decide (b ∈ E.blocks)
    | (.error _, _) => false
  | (.error _, _) => false

set_option maxRecDepth 10000 in
theorem runaway_has : runawayHas 0xC00000 braBlock = true ∧
    runawayHas 0xC00002 jmpBlock = true := by decide +kernel

theorem runaway_compiled {addr : BitVec 24} {b : Block} (h : runawayHas addr b = true) :
    ∃ E : EmittedFn, E.Compiled ∧ b ∈ E.blocks := by
  unfold runawayHas at h
  match hdecode : decodeFunction (runawayRegistry.resolver (runawayRegistry.function 8)) 8
      runawayImage addr runawayEntry .init with
  | (.error e, r) =>
    rw [hdecode] at h
    cases h
  | (.ok fn, r) =>
    rw [hdecode] at h
    dsimp only at h
    match hemit : emitFunction runawayRegistry 8 none fn ⟨r, fun _ => none⟩ with
    | (.error e, s) =>
      rw [hemit] at h
      cases h
    | (.ok E, s) =>
      rw [hemit] at h
      have hfn := emitFunction_fn hemit
      subst hfn
      exact ⟨E, ⟨_, _, _, _, _, _, _, _, _, _, hdecode, hemit⟩, of_decide_eq_true h⟩

def runawayTwin (pc : BitVec 24) (budget : Nat) : Twin Runaway :=
  ⟨probeExec pc, ⟨⟨fun _ => 0, fun _ => 0, ⟨⟩⟩, 0, [], false, false, budget⟩, budget⟩

theorem braBlock_placed (b : Bus Runaway) : Placed b braBlock.i where
  opcode := rfl
  operand k hk := by
    have h2 : k + 1 < 2 := hk
    obtain rfl : k = 0 := by omega
    rfl

theorem jmpBlock_placed (b : Bus Runaway) : Placed b jmpBlock.i where
  opcode := rfl
  operand k hk := by
    have h3 : k + 1 < 3 := hk
    obtain rfl | rfl : k = 0 ∨ k = 1 := by omega
    · rfl
    · rfl

theorem runaway_at {s : Twin Runaway} {b : Block} (hc : ∃ E : EmittedFn, E.Compiled ∧ b ∈ E.blocks)
    (hpc : s.c.pbpc = b.i.addr) (hm : s.c.m = true ∧ s.c.x = true)
    (hi : b.i.m = some true ∧ b.i.x = some true) (hp : Placed s.w.bus b.i)
    (hours : Stmt.strictRest b.i.addr ∉ b.body) : s.At b where
  compiled := hc
  pc := hpc
  widths := ⟨fun _ hv => hm.1.trans (Option.some.inj (hi.1.symm.trans hv)),
    fun _ hv => hm.2.trans (Option.some.inj (hi.2.symm.trans hv))⟩
  placed := hp
  ours := hours

theorem jmpBlock_at (n : Nat) : (runawayTwin 0xC00002 n).At jmpBlock :=
  runaway_at (runaway_compiled runaway_has.2) (bank_append_low _) ⟨rfl, rfl⟩ ⟨rfl, rfl⟩ (jmpBlock_placed _)
    (by decide)

def strictHost : Host Runaway := ⟨false, [], []⟩

theorem strictHost_quiet : strictHost.Quiet := List.forall_mem_nil _

theorem budget_alike_exact_branch : ∃ s' : Twin Runaway,
    (runawayTwin 0xC00000 3).Run strictHost [braBlock] s' ∧ s'.budget = 2 ∧
      s'.Alike strictHost braBlock := by
  have hat : (runawayTwin 0xC00000 3).At braBlock :=
    runaway_at (runaway_compiled runaway_has.1) rfl ⟨rfl, rfl⟩ ⟨rfl, rfl⟩ (braBlock_placed _)
      (by decide)
  have hgen : braBlock.spend (runawayTwin 0xC00000 3).c.toRegFile 3 = some 2 := rfl
  have hsome : ((interpInsn strictHost (runawayTwin 0xC00000 3).c (runawayTwin 0xC00000 3).w).map
      fun p => (p.1.pbpc, p.1.m, p.1.x)) = some (0xC00000, true, true) := rfl
  obtain ⟨⟨c, w⟩, hint, hfacts⟩ := Option.map_eq_some_iff.mp hsome
  obtain ⟨hpc, hmx⟩ := Prod.mk.inj hfacts
  refine ⟨⟨c, w, 2⟩, .cons (.insn hat hgen hint) (.nil _), rfl, ?_⟩
  have hnext : (⟨c, w, 2⟩ : Twin Runaway).At braBlock :=
    runaway_at (runaway_compiled runaway_has.1) hpc (Prod.mk.inj hmx) ⟨rfl, rfl⟩
      (braBlock_placed _) (by decide)
  refine (budget_alike_exact strictHost_quiet (.cons (.insn hat hgen hint) (.nil _)) rfl hnext).mpr
    (.inr ?_)
  decide

/-- With one charge left the interpreter stops at the jump; generated code does not. -/
theorem budget_runs_on : ¬∀ (h : Host Runaway) (s s' : Twin Runaway) (bs : List Block) (b : Block),
    h.Quiet → s.Run h bs s' → s.budget = s.w.budget → s'.At b → s'.Alike h b := by
  intro hall
  have halike := hall strictHost _ _ [] jmpBlock strictHost_quiet (.nil (runawayTwin 0xC00002 1))
    rfl (jmpBlock_at 1)
  have hgen : jmpBlock.spend (runawayTwin 0xC00002 1).c.toRegFile 1 = some 1 := rfl
  have hfree : interpInsn strictHost (runawayTwin 0xC00002 1).c
      ((runawayTwin 0xC00002 1).w.setBudget 0) ≠ none := nofun
  exact nomatch hgen.symm.trans (halike.out.mpr ⟨rfl, hfree⟩)

end CtRecomp
