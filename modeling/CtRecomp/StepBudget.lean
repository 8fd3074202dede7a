import CtRecomp.Emit
import CtRecomp.RegRange
import CtRecomp.TemplateAgree

namespace CtRecomp

/-! The step budget on both sides: `ct_budget` in generated code, `interp_budget` in the strict
interpreter. -/

/-- `budget && --budget == 0`: what is left, unless it ran out. -/
def spend (n : Nat) : Option Nat := if n = 0 then some 0 else if n = 1 then none else some (n - 1)

def spendIf (t : Bool) (n : Nat) : Option Nat := if t then spend n else some n

theorem chargeBudget_eq {σ : Type} (w : Wire σ) :
    (chargeBudget : BusM σ Unit) w = (spend w.budget).map fun n => ((), { w with budget := n }) := by
  unfold chargeBudget spend
  by_cases h0 : w.budget = 0
  · rw [if_pos h0, if_pos h0, Option.map_some, ← h0]
  · rw [if_neg h0, if_neg h0]
    split
    · rfl
    · rfl

/-- Where an executed branch or absolute jump goes. -/
def Insn.goesTo (i : Insn) (r : RegFile) : Option (BitVec 24) :=
  if i.opcode = 0x4C then some i.jumpTarget
  else match branchCond i.mnemonic with
    | some cond => if cond r then some i.branchTarget else none
    | none => none

/-- To its own address or below. -/
def Insn.loops (i : Insn) (r : RegFile) : Bool :=
  match i.goesTo r with
  | some target => target ≤ i.addr
  | none => false

/-! In generated code: the statements that hold a `ct_loop`. -/

/-- `ct_loop` runs, with the registers `r`. -/
def Stmt.ticks (r : RegFile) : Stmt → Bool
  | .branch i _ =>
    match branchCond i.mnemonic with
    | some cond => cond r && decide (i.branchTarget ≤ i.addr)
    | none => false
  | .jump i _ => i.jumpTarget ≤ i.addr
  | _ => false

def Block.spend (b : Block) (r : RegFile) (n : Nat) : Option Nat :=
  b.body.foldlM (fun n s => spendIf (s.ticks r) n) n

/-- A jump out of the function. -/
def Stmt.isTail : Stmt → Bool
  | .tail _ | .externTail _ _ => true
  | _ => false

def Block.isTail (b : Block) : Bool := b.body.any Stmt.isTail

/-- A JMP, to its own address or below, that was emitted as a jump out of the function: it has no
`ct_loop`. -/
def Block.lost (b : Block) : Bool :=
  b.i.opcode = 0x4C && decide (b.i.jumpTarget ≤ b.i.addr) && b.isTail

/-- No `ct_loop` in them. -/
def Silent (body : List Stmt) : Prop := ∀ s ∈ body, ∀ r, s.ticks r = false

theorem Silent.append {a b : List Stmt} (ha : Silent a) (hb : Silent b) : Silent (a ++ b) := by
  intro s hs
  rcases List.mem_append.mp hs with hs | hs
  · exact ha s hs
  · exact hb s hs

/-- Statements that only go on in the function. -/
def Onward (body : List Stmt) : Prop := ∀ s ∈ body, (∀ r, s.ticks r = false) ∧ s.isTail = false

theorem Onward.silent {body : List Stmt} (h : Onward body) : Silent body :=
  fun s hs => (h s hs).1

theorem Onward.append {a b : List Stmt} (ha : Onward a) (hb : Onward b) : Onward (a ++ b) := by
  intro s hs
  rcases List.mem_append.mp hs with hs | hs
  · exact ha s hs
  · exact hb s hs

theorem onward_nil : Onward [] := List.forall_mem_nil _

theorem onward_cons {s : Stmt} {body : List Stmt} (hs : (∀ r, s.ticks r = false) ∧ s.isTail = false)
    (hbody : Onward body) : Onward (s :: body) := List.forall_mem_cons.mpr ⟨hs, hbody⟩

theorem foldlM_silent {body : List Stmt} (h : Silent body) (r : RegFile) (n : Nat) :
    body.foldlM (fun n s => spendIf (s.ticks r) n) n = some n := by
  induction body with
  | nil => rfl
  | cons s body ih =>
    obtain ⟨hs, hbody⟩ := List.forall_mem_cons.mp h
    rw [List.foldlM_cons, hs r]
    exact ih hbody

theorem ctLoop_budget {σ : Type} (i : Insn) (target : BitVec 24) (w : Wire σ) :
    (ctLoop i target : BusM σ Unit) w =
      (spendIf (target ≤ i.addr) w.budget).map fun n => ((), { w with budget := n }) := by
  unfold ctLoop spendIf
  by_cases h : target ≤ i.addr
  · simp only [h, if_true, decide_true]
    exact chargeBudget_eq w
  · simp only [h, if_false, decide_false, Bool.false_eq_true]
    rfl

/-- What is written for one instruction, up to where it goes on. -/
inductive Emits (i : Insn) : List Stmt → Prop
  | jump (hop : i.opcode = 0x4C) (dest : Key) : Emits i [.jump i dest]
  | tail {body : List Stmt} (hop : i.opcode = 0x4C) (hs : Silent body)
      (ht : ∀ i' more, (⟨i', body ++ more⟩ : Block).isTail = true) : Emits i body
  | branch {cond : RegFile → Bool} (hop : i.opcode ≠ 0x4C)
      (hc : branchCond i.mnemonic = some cond) (dest : Key) : Emits i [.branch i dest]
  | plain {body : List Stmt} (hop : i.opcode ≠ 0x4C) (hc : branchCond i.mnemonic = none)
      (hs : Silent body) : Emits i body

section

variable {reg : Registry} {fuel : Nat} {overlay : Option String} {fn : Func}

theorem silent_cons {s : Stmt} {body : List Stmt} (hs : ∀ r, s.ticks r = false)
    (hbody : Silent body) : Silent (s :: body) := List.forall_mem_cons.mpr ⟨hs, hbody⟩

theorem silent_nil : Silent [] := List.forall_mem_nil _

theorem tailBody_emits_tail (target : BitVec 24) (cst : State) :
    Returns (tailBody reg fuel overlay target cst) fun body => Silent body ∧
      ∀ i more, (⟨i, body ++ more⟩ : Block).isTail = true := by
  refine (returns_any _).bind fun b _ => ?_
  cases b with
  | true => exact returns_pure ⟨silent_cons (fun _ => rfl) silent_nil, fun _ _ => rfl⟩
  | false => exact returns_pure ⟨silent_cons (fun _ => rfl) silent_nil, fun _ _ => rfl⟩

theorem gotoModes_onward (i : Insn) (ks : List Mode) : Returns (gotoModes fn i ks) Onward := by
  induction ks with
  | nil => exact returns_pure onward_nil
  | cons k ks ih =>
    exact (returns_any _).bind fun _ _ => (returns_any _).bind fun _ _ =>
      (returns_any _).bind fun _ _ => ih.bind fun _ h =>
        returns_pure (onward_cons ⟨fun _ => rfl, rfl⟩ h)

theorem onward_onward (i : Insn) (post : Mode) (body : List Stmt) (nxt : Option Insn) :
    Returns (onward fn i post body nxt) Onward := by
  have hfatal : Onward [.fatal i.addr] := onward_cons ⟨fun _ => rfl, rfl⟩ onward_nil
  unfold onward
  split
  · refine returns_pure (Onward.append ?_ hfatal)
    split
    · exact onward_cons ⟨fun _ => rfl, rfl⟩ onward_nil
    · exact onward_nil
  · exact (gotoModes_onward i _).bind fun _ h => returns_pure (h.append hfatal)
  · refine spec_ite (fun _ => ?_) fun _ => returns_pure onward_nil
    exact (returns_any _).bind fun _ _ =>
      returns_pure (onward_cons ⟨fun _ => rfl, rfl⟩ onward_nil)

theorem plpCheck_onward (i : Insn) (post : Mode) : Returns (plpCheck i post) Onward := by
  refine spec_ite (fun _ => ?_) fun _ => returns_pure onward_nil
  split
  · exact returns_pure (onward_cons ⟨fun _ => rfl, rfl⟩ onward_nil)
  · exact returns_throw

theorem call_silent (i : Insn) (target : BitVec 24) (cst : State) :
    Returns (jsrBody reg fuel overlay i target cst) Silent ∧
      Returns (jslBody reg fuel overlay i target cst) Silent := by
  constructor
  · refine (returns_any _).bind fun b _ => ?_
    cases b with
    | true => exact returns_pure (by simp [Silent, Stmt.ticks])
    | false => exact returns_pure (by simp [Silent, Stmt.ticks])
  · refine (returns_any _).bind fun b _ => ?_
    cases b with
    | true => exact returns_pure (by simp [Silent, Stmt.ticks])
    | false => exact returns_pure (by simp [Silent, Stmt.ticks])

theorem tableBody_silent (i : Insn) (targets : List (BitVec 24)) (cst : State) :
    Returns (tableBody reg fuel overlay fn i targets cst) Silent := by
  have hstrict (p : Prop) [Decidable p] : Silent (if p then [] else [.strictRest i.addr]) := by
    split
    · exact silent_nil
    · exact silent_cons (fun _ => rfl) silent_nil
  refine (returns_any _).bind fun cases _ => ?_
  refine spec_ite (fun _ => returns_pure ((hstrict _).append ?_)) fun _ =>
    returns_pure ((hstrict _).append ?_)
  · simp [Silent, Stmt.ticks]
  · simp [Silent, Stmt.ticks]

variable {i : Insn}

/-- No branch has one of these opcodes. -/
theorem opcode_plain (hd : i.Decoded) {op : BitVec 8} (hop : i.opcode = op)
    (hplain : branchCond (opcodes op).1 = none) : branchCond i.mnemonic = none := by
  rw [← hop, hd.op] at hplain
  exact hplain

theorem insnBody_emits_one (hd : i.Decoded) (post : Mode) :
    Returns (insnBody reg fuel overlay fn i post) (Emits i) := by
  have hplain {op : BitVec 8} (hop : i.opcode = op) (hne : op ≠ 0x4C)
      (hc : branchCond (opcodes op).1 = none) {body : List Stmt} (hs : Silent body) :
      Emits i body := .plain (hop ▸ hne) (opcode_plain hd hop hc) hs
  unfold insnBody
  split
  next => exact returns_throw
  next w hw =>
  refine spec_ite (fun hop => ?_) fun _ => ?_
  · exact returns_pure (hplain hop (by decide) rfl (silent_cons (fun _ => rfl) silent_nil))
  refine spec_ite (fun hop => ?_) fun _ => ?_
  · have htable {body : List Stmt} (hs : Silent body) : Emits i body := by
      rcases hop with hop | hop
      · exact hplain hop (by decide) rfl hs
      · exact hplain hop (by decide) rfl hs
    split
    · refine returns_pure (htable ?_)
      unfold dynTableBody
      split <;> simp [Silent, Stmt.ticks]
    · exact Spec.post (tableBody_silent i _ _) fun _ _ h => htable h
    · exact returns_throw
  refine spec_ite (fun hop => ?_) fun _ => ?_
  · have hcall {body : List Stmt} (hs : Silent body) : Emits i body := by
      rcases hop with hop | hop
      · exact hplain hop (by decide) rfl hs
      · exact hplain hop (by decide) rfl hs
    split
    · refine returns_pure (hcall ?_)
      unfold interpCallBody
      split <;> simp [Silent, Stmt.ticks]
    · exact spec_ite (fun _ => Spec.post (call_silent i _ _).1 fun _ _ h => hcall h)
        fun _ => Spec.post (call_silent i _ _).2 fun _ _ h => hcall h
    · exact returns_throw
  refine spec_ite (fun hop => ?_) fun _ => ?_
  · split
    · exact returns_pure (hplain hop (by decide) rfl (by simp [Silent, Stmt.ticks]))
    · exact (tailBody_emits_tail _ _).bind fun body hbody =>
        returns_pure (hplain hop (by decide) rfl (silent_cons (fun _ => rfl) hbody.1))
    · exact returns_throw
  refine spec_ite (fun hop => ?_) fun hop => ?_
  · split
    · exact Spec.post (tailBody_emits_tail _ _) fun _ _ h => .tail hop h.1 h.2
    · exact (returns_any _).bind fun dest _ => returns_pure (.jump hop dest)
  have hbranch (h : i.mnemonic.isBranch ∨ i.mnemonic = .BRA ∨ i.mnemonic = .BRL) :
      ∃ cond, branchCond i.mnemonic = some cond := by
    rcases h with h | h | h
    · revert h
      cases i.mnemonic <;> intro h <;> first | exact ⟨_, rfl⟩ | cases h
    · exact ⟨_, by rw [h]; rfl⟩
    · exact ⟨_, by rw [h]; rfl⟩
  refine spec_ite (fun h => ?_) fun h => ?_
  · obtain ⟨cond, hc⟩ := hbranch h
    exact (returns_any _).bind fun dest _ => returns_pure (.branch hop hc dest)
  · have hc : branchCond i.mnemonic = none := by
      revert h
      cases i.mnemonic <;> intro h <;> first | rfl | exact absurd (by decide) h
    have hone {s : Stmt} (hs : ∀ r, s.ticks r = false) : Emits i [s] :=
      .plain hop hc (silent_cons hs silent_nil)
    unfold templateBody
    split
    · exact returns_throw
    · exact returns_pure (hone fun _ => rfl)
    · exact returns_pure (hone fun _ => rfl)

/-- A block charges what loops, but for a lost jump. -/
theorem Emits.spend {body rest : List Stmt} (h : Emits i body) (hrest : Onward rest) (r : RegFile)
    (n : Nat) : (⟨i, body ++ rest⟩ : Block).spend r n =
      spendIf (i.loops r && !(⟨i, body ++ rest⟩ : Block).lost) n := by
  have hquiet {body : List Stmt} (hs : Silent body) :
      (⟨i, body ++ rest⟩ : Block).spend r n = some n := foldlM_silent (hs.append hrest.silent) r n
  have hone (s : Stmt) : (⟨i, [s] ++ rest⟩ : Block).spend r n = spendIf (s.ticks r) n := by
    unfold Block.spend
    rw [List.singleton_append, List.foldlM_cons]
    cases spendIf (s.ticks r) n with
    | none => rfl
    | some k => exact foldlM_silent hrest.silent r k
  have hloops (hop : i.opcode = 0x4C) : i.loops r = decide (i.jumpTarget ≤ i.addr) := by
    rw [Insn.loops, Insn.goesTo, if_pos hop]
  cases h with
  | jump hop dest =>
    have hrest' : rest.any Stmt.isTail = false :=
      List.any_eq_false.mpr fun s hs => Bool.eq_false_iff.mp (hrest s hs).2
    have htail : (⟨i, [.jump i dest] ++ rest⟩ : Block).isTail = false := by
      rw [Block.isTail, List.any_append, hrest', Bool.or_false]
      rfl
    rw [hone, Block.lost, htail, hloops hop, Bool.and_false, Bool.not_false, Bool.and_true]
    rfl
  | tail hop hs ht =>
    have hlost : (⟨i, body ++ rest⟩ : Block).lost = i.loops r := by
      rw [hloops hop, Block.lost, ht i rest, decide_eq_true hop, Bool.true_and, Bool.and_true]
    rw [hquiet hs, hlost, Bool.and_not_self]
    rfl
  | @branch cond hop hc dest =>
    have hlost : (⟨i, [.branch i dest] ++ rest⟩ : Block).lost = false := by
      rw [Block.lost, decide_eq_false hop, Bool.false_and, Bool.false_and]
    rw [hone, hlost, Bool.not_false, Bool.and_true, Stmt.ticks, Insn.loops, Insn.goesTo,
      if_neg hop, hc]
    cases hr : cond r with
    | true => simp only [hr, if_true, Bool.true_and]
    | false => simp only [hr, Bool.false_eq_true, if_false, Bool.false_and]
  | plain hop hc hs =>
    have hnone : i.loops r = false := by
      rw [Insn.loops, Insn.goesTo, if_neg hop, hc]
    rw [hquiet hs, hnone]
    rfl

/-- Every block an emitted function has. -/
def Block.Charges (b : Block) : Prop :=
  b.i.Decoded → ∀ r n, b.spend r n = spendIf (b.i.loops r && !b.lost) n

theorem emitInsn_charges (i : Insn) (nxt : Option Insn) :
    Returns (emitInsn reg fuel overlay fn i nxt) fun b => b.i = i ∧ b.Charges := by
  refine Returns.bind (Q := fun body => i.Decoded → Emits i body) ?_ fun body hbody => ?_
  · by_cases hd : i.Decoded
    · exact Spec.post (insnBody_emits_one hd _) fun _ _ h _ => h
    · exact Spec.post (returns_any _) fun _ _ _ hd' => absurd hd' hd
  refine (plpCheck_onward i _).bind fun plp hplp => (onward_onward i _ _ nxt).bind fun next hnext =>
    returns_pure ⟨rfl, fun hd r n => ?_⟩
  rw [List.append_assoc]
  exact (hbody hd).spend (hplp.append hnext) r n

theorem emitInsns_charges (is : List Insn) :
    Returns (emitInsns reg fuel overlay fn is) fun bs => ∀ b ∈ bs, b.i ∈ is ∧ b.Charges := by
  induction is with
  | nil => exact returns_pure (List.forall_mem_nil _)
  | cons i is ih =>
    exact (emitInsn_charges i _).bind fun b hb => ih.bind fun bs hbs =>
      returns_pure (List.forall_mem_cons.mpr ⟨⟨hb.1 ▸ List.mem_cons_self, hb.2⟩, fun b hmem =>
        ⟨List.mem_cons_of_mem _ (hbs b hmem).1, (hbs b hmem).2⟩⟩)

theorem emitFunction_charges :
    Returns (emitFunction reg fuel overlay fn) fun E =>
      ∀ b ∈ E.blocks, b.i ∈ fn.insns ∧ b.Charges :=
  (returns_any _).bind fun _ _ => (returns_any _).bind fun _ _ =>
    (emitInsns_charges fn.insns).bind fun _ hbs => returns_pure hbs

end

/-! In the strict interpreter: everything but a branch or an absolute jump leaves the budget. -/

def Wire.setBudget {σ : Type} (w : Wire σ) (n : Nat) : Wire σ := { w with budget := n }

@[simp] theorem Wire.setBudget_budget {σ : Type} (w : Wire σ) (n : Nat) :
    (w.setBudget n).budget = n := rfl

@[simp] theorem Wire.setBudget_twice {σ : Type} (w : Wire σ) (n m : Nat) :
    (w.setBudget n).setBudget m = w.setBudget m := rfl

/-- Runs the same on every budget, and leaves it. -/
def Frugal {σ α : Type} (x : BusM σ α) : Prop :=
  ∀ w n, x (w.setBudget n) = (x w).map fun p => (p.1, p.2.setBudget n)

section

variable {σ α β : Type}

theorem Frugal.pure (a : α) : Frugal (pure a : BusM σ α) := fun _ _ => rfl

theorem Frugal.fatal : Frugal (ctFatal : BusM σ α) := fun _ _ => rfl

/-- What goes on with the values `x` can have. -/
theorem Frugal.bindOf {x : BusM σ α} {f : α → BusM σ β} {P : α → Prop} (hx : Frugal x)
    (hP : Yields x P) (hf : ∀ a, P a → Frugal (f a)) : Frugal (x >>= f) := by
  intro w n
  change (x (w.setBudget n)).bind _ = ((x w).bind _).map _
  rw [hx w n]
  cases hrun : x w with
  | none => rfl
  | some p => exact hf p.1 (hP w p.1 p.2 hrun) p.2 n

theorem Frugal.bind {x : BusM σ α} {f : α → BusM σ β} (hx : Frugal x) (hf : ∀ a, Frugal (f a)) :
    Frugal (x >>= f) := hx.bindOf (.any _) fun a _ => hf a

theorem Frugal.ite {c : Prop} [Decidable c] {x y : BusM σ α} (hx : Frugal x) (hy : Frugal y) :
    Frugal (if c then x else y) := by
  split
  · exact hx
  · exact hy

end

/-- No register hook knows the budgets. -/
class BlindBoard (σ : Type) [Board σ] : Prop where
  rd : ∀ reg (hook : Wire σ → Option (BitVec 8 × Bus σ)), Board.hwRd reg = some hook →
    ∀ w n, hook (w.setBudget n) = hook w
  wr : ∀ reg (hook : BitVec 8 → Wire σ → Option (Bus σ)), Board.hwWr reg = some hook →
    ∀ v w n, hook v (w.setBudget n) = hook v w

section

variable {σ : Type} [Board σ] [BlindBoard σ]

theorem busRead_setBudget (a : BitVec 24) (w : Wire σ) (n : Nat) :
    busRead a (w.setBudget n) = busRead a w := by
  unfold busRead
  cases decodeAddr a with
  | hw reg =>
    dsimp only
    cases hreg : (Board.hwRd reg : Option (Wire σ → _)) with
    | none => rfl
    | some hook => exact BlindBoard.rd reg hook hreg w n
  | _ => rfl

theorem busWrite_setBudget (a : BitVec 24) (v : BitVec 8) (w : Wire σ) (n : Nat) :
    busWrite a v (w.setBudget n) = busWrite a v w := by
  unfold busWrite
  cases decodeAddr a with
  | hw reg =>
    dsimp only
    cases hreg : (Board.hwWr reg : Option (_ → Wire σ → _)) with
    | none => rfl
    | some hook => exact BlindBoard.wr reg hook hreg v w n
  | _ => rfl

theorem frugal_read8 (a : BitVec 24) : Frugal (read8 a : BusM σ (BitVec 8)) := by
  intro w n
  change (busRead a (w.setBudget n)).bind _ = ((busRead a w).bind _).map _
  rw [busRead_setBudget]
  cases busRead a w with
  | none => rfl
  | some p => rfl

theorem frugal_write8 (a : BitVec 24) (v : BitVec 8) : Frugal (write8 a v : BusM σ Unit) := by
  intro w n
  change (busWrite a v ({ w with mdr := v }.setBudget n)).bind _ =
    ((busWrite a v { w with mdr := v }).bind _).map _
  rw [busWrite_setBudget]
  cases busWrite a v { w with mdr := v } with
  | none => rfl
  | some bus => rfl

theorem frugal_fetch8 (c : Exec) : Frugal (fetch8 c : BusM σ _) := by
  intro w n
  change (busRead c.pbpc (w.setBudget n)).bind _ = ((busRead c.pbpc w).bind _).map _
  rw [busRead_setBudget]
  cases busRead c.pbpc w with
  | none => rfl
  | some p => rfl

omit [Board σ] [BlindBoard σ] in
theorem frugal_setCross (b : Bool) : Frugal (setCross b : BusM σ Unit) := fun _ _ => rfl

theorem frugal_fetch16 (c : Exec) : Frugal (fetch16 c : BusM σ _) :=
  (frugal_fetch8 c).bind fun _ => (frugal_fetch8 _).bind fun _ => .pure _

theorem frugal_fetch24 (c : Exec) : Frugal (fetch24 c : BusM σ _) :=
  (frugal_fetch16 c).bind fun _ => (frugal_fetch8 _).bind fun _ => .pure _

theorem frugal_rdBank0_16 (a : BitVec 16) : Frugal (rdBank0_16 a : BusM σ _) :=
  (frugal_read8 _).bind fun _ => (frugal_read8 _).bind fun _ => .pure _

theorem frugal_rdBank0_24 (a : BitVec 16) : Frugal (rdBank0_24 a : BusM σ _) :=
  (frugal_rdBank0_16 a).bind fun _ => (frugal_read8 _).bind fun _ => .pure _

theorem frugal_rd (e : EA) (wide : Bool) : Frugal (rd e wide : BusM σ _) :=
  (frugal_read8 _).bind fun _ => .ite ((frugal_read8 _).bind fun _ => .pure _) (.pure _)

theorem frugal_wr (e : EA) (wide : Bool) (v : BitVec 16) : Frugal (wr e wide v : BusM σ Unit) :=
  (frugal_write8 _ _).bind fun _ => .ite (frugal_write8 _ _) (.pure _)

theorem frugal_wrRmw (e : EA) (wide : Bool) (v : BitVec 16) :
    Frugal (wrRmw e wide v : BusM σ Unit) := by
  unfold wrRmw
  split
  · exact (frugal_write8 _ _).bind fun _ => frugal_write8 _ _
  · exact frugal_write8 _ _

theorem frugal_push (r : RegFile) (v : BitVec 8) : Frugal (push r v : BusM σ RegFile) :=
  (frugal_write8 _ _).bind fun _ => .pure _

theorem frugal_pull (r : RegFile) : Frugal (pull r : BusM σ _) :=
  (frugal_read8 _).bind fun _ => .pure _

theorem frugal_pushw (r : RegFile) (v : BitVec 16) : Frugal (pushw r v : BusM σ RegFile) :=
  (frugal_push _ _).bind fun _ => frugal_push _ _

theorem frugal_pullw (r : RegFile) : Frugal (pullw r : BusM σ _) :=
  (frugal_pull _).bind fun _ => (frugal_pull _).bind fun _ => .pure _

theorem frugal_ea (c : Exec) (md : IMode) : Frugal (ea c md : BusM σ _) := by
  cases md with
  | imm => exact .fatal
  | dp | dpX | dpY | sr => exact (frugal_fetch8 c).bind fun _ => .pure _
  | abs => exact (frugal_fetch16 c).bind fun _ => .pure _
  | absX | absY =>
    exact (frugal_fetch16 c).bind fun _ => (frugal_setCross _).bind fun _ => .pure _
  | long | longX => exact (frugal_fetch24 c).bind fun _ => .pure _
  | dpI | dpXI | srIY =>
    exact (frugal_fetch8 c).bind fun _ => (frugal_rdBank0_16 _).bind fun _ => .pure _
  | dpIY =>
    exact (frugal_fetch8 c).bind fun _ => (frugal_rdBank0_16 _).bind fun _ =>
      (frugal_setCross _).bind fun _ => .pure _
  | dpIL | dpILY =>
    exact (frugal_fetch8 c).bind fun _ => (frugal_rdBank0_24 _).bind fun _ => .pure _

theorem frugal_operand (c : Exec) (md : IMode) (wide : Bool) :
    Frugal (operand c md wide : BusM σ _) :=
  .ite (.ite (frugal_fetch16 c) ((frugal_fetch8 c).bind fun _ => .pure _))
    ((frugal_ea c md).bind fun _ => (frugal_rd _ _).bind fun _ => .pure _)

omit [Board σ] [BlindBoard σ] in
theorem frugal_aluValue (r : RegFile) (kind : Nat) (v : BitVec 16) :
    Frugal (aluValue r kind v : BusM σ RegFile) := by
  have hadd (a b : BitVec 16) (wide : Bool) : Frugal (add r a b wide : BusM σ _) :=
    .ite .fatal (.pure _)
  unfold aluValue
  dsimp only
  split
  · exact .pure _
  · exact .pure _
  · exact .pure _
  · exact (hadd _ _ _).bind fun _ => .pure _
  · exact .pure _
  · exact .pure _
  · exact (hadd _ _ _).bind fun _ => .pure _

/-- The hooks of hooks.c know no budget. -/
def Host.Quiet (h : Host σ) : Prop := ∀ ext ∈ h.externs, ∀ c, Frugal (ext.hook c)

section

variable {h : Host σ} (c : Exec) (site : BitVec 24)

theorem frugal_rmwBy (op : Rmw) (md : AddrMode) : Frugal (rmwBy c op md : BusM σ Exec) :=
  .ite (.pure _) ((frugal_ea c _).bind fun _ => (frugal_rd _ _).bind fun _ =>
    (frugal_wrRmw _ _ _).bind fun _ => .pure _)

theorem frugal_testBits (md : IMode) (reset : Bool) : Frugal (testBits c md reset : BusM σ Exec) :=
  (frugal_ea c md).bind fun _ => (frugal_rd _ _).bind fun _ => (frugal_wrRmw _ _ _).bind fun _ =>
    .pure _

theorem frugal_stored (md : IMode) (wide : Exec → Bool) (v : Exec → BitVec 16) :
    Frugal (do let (e, c) ← ea c md; wr e (wide c) (v c); return c : BusM σ Exec) :=
  (frugal_ea c md).bind fun _ => (frugal_wr _ _ _).bind fun _ => .pure _

theorem frugal_sta (md : IMode) : Frugal (sta c md : BusM σ Exec) := by
  unfold sta
  split
  · exact Frugal.fatal.bind fun _ => frugal_stored c md (fun c => !c.m) fun c => getA c.toRegFile
  · exact frugal_stored c md (fun c => !c.m) fun c => getA c.toRegFile

theorem frugal_pushReg (v : BitVec 16) (wide : Bool) : Frugal (pushReg c v wide : BusM σ Exec) :=
  Frugal.bind (.ite (frugal_pushw _ _) (frugal_push _ _)) fun _ => .pure _

theorem frugal_pullReg (r : RegFile) (wide : Bool) : Frugal (pullReg r wide : BusM σ _) :=
  .ite (frugal_pullw _) ((frugal_pull _).bind fun _ => .pure _)

theorem frugal_blockMove (step : BitVec 16) : Frugal (blockMove c site step : BusM σ Exec) :=
  (frugal_fetch8 c).bind fun _ => (frugal_fetch8 _).bind fun _ => (frugal_read8 _).bind fun _ =>
    (frugal_write8 _ _).bind fun _ => .pure _

omit [Board σ] [BlindBoard σ] in
theorem frugal_enterShadow (isLong : Bool) : Frugal (enterShadow h c site isLong : BusM σ Exec) :=
  .ite (.pure _) (.ite .fatal (.pure _))

omit [Board σ] [BlindBoard σ] in
theorem frugal_leaveShadow (isLong : Bool) : Frugal (leaveShadow h c isLong : BusM σ Exec) := by
  unfold leaveShadow
  split
  · exact .pure _
  · split
    · exact .pure _
    · exact .ite .fatal (.ite (.ite .fatal (.pure _)) (.ite .fatal (.pure _)))

omit [Board σ] [BlindBoard σ] in
theorem frugal_tableIndex (r : RegFile) : Frugal (tableIndex h r site : BusM σ Unit) := by
  unfold tableIndex
  split
  · exact .pure _
  · split
    · exact .pure _
    · exact .ite .fatal (.pure _)

theorem frugal_readTable (p : BitVec 16) : Frugal (readTable c p : BusM σ _) :=
  (frugal_read8 _).bind fun _ => (frugal_read8 _).bind fun _ => .pure _

omit [Board σ] [BlindBoard σ] in
theorem frugal_externHook (addr : BitVec 24) (kind : Nat) : Frugal (externHook h addr kind) := by
  unfold externHook
  split
  · exact .pure _
  · split
    · exact .pure _
    · exact .ite (.pure _) .fatal

omit [Board σ] [BlindBoard σ] in
theorem externHook_yields (addr : BitVec 24) (kind : Nat) :
    Yields (externHook h addr kind) fun o => ∀ hook, o = some hook → ∃ ext ∈ h.externs,
      ext.hook = hook := by
  have hnone : ∀ hook : Cpu → BusM σ Cpu, none = some hook → ∃ ext ∈ h.externs, ext.hook = hook :=
    nofun
  unfold externHook
  split
  · exact .pure hnone
  · split
    · exact .pure hnone
    next ext hfind =>
      refine .ite (fun _ => .pure ?_) fun _ => .fatal
      rintro hook hhook
      cases hhook
      exact ⟨ext, List.mem_of_find?_eq_some hfind, rfl⟩

variable (hq : h.Quiet)
include hq

omit [Board σ] [BlindBoard σ] in
/-- A call or jump: its hook, or the code itself. -/
theorem frugal_hooked (addr : BitVec 24) (kind : Nat) {c' : Exec} {y : BusM σ Exec}
    (hy : Frugal y) : Frugal (externHook h addr kind >>= fun o =>
      match o with
      | some hook => runHook c' hook
      | none => y) := by
  refine (frugal_externHook addr kind).bindOf (externHook_yields addr kind) fun o ho => ?_
  cases o with
  | none => exact hy
  | some hook =>
    obtain ⟨ext, hext, rfl⟩ := ho hook rfl
    exact (hq ext hext _).bind fun _ => .pure _

theorem frugal_jsr : Frugal (jsr h c site : BusM σ Exec) :=
  (frugal_fetch16 c).bind fun _ => (frugal_pushw _ _).bind fun _ =>
    frugal_hooked hq _ _ ((frugal_enterShadow _ site false).bind fun _ => .pure _)

theorem frugal_jsl : Frugal (jsl h c site : BusM σ Exec) :=
  (frugal_fetch24 c).bind fun _ => (frugal_push _ _).bind fun _ => (frugal_pushw _ _).bind fun _ =>
    frugal_hooked hq _ _ ((frugal_enterShadow _ site true).bind fun _ => .pure _)

theorem frugal_jml : Frugal (jml h c : BusM σ Exec) :=
  (frugal_fetch24 c).bind fun _ => frugal_hooked hq _ _ (.pure _)

/-- An instruction that is no branch and no absolute jump. -/
theorem stepBy_frugal {mn : Mnemonic} {md : AddrMode} (hc : branchCond mn = none)
    (hjmp : ¬ (mn = .JMP ∧ md = .abs)) : Frugal (stepBy h c site mn md) := by
  cases mn with
  | BPL | BMI | BVC | BVS | BCC | BCS | BNE | BEQ | BRA | BRL => cases hc
  | ORA | AND | EOR | ADC | LDA | CMP | SBC =>
    exact (frugal_operand c _ _).bind fun _ => (frugal_aluValue _ _ _).bind fun _ => .pure _
  | STA => exact frugal_sta c _
  | ASL | ROL | LSR | ROR | INC | DEC => exact frugal_rmwBy c _ _
  | TSB | TRB => exact frugal_testBits c _ _
  | BIT | LDX | LDY | CPX | CPY => exact (frugal_operand c _ _).bind fun _ => .pure _
  | STX => exact frugal_stored c _ (fun c => !c.x) fun c => Index.X.get c.toRegFile
  | STY => exact frugal_stored c _ (fun c => !c.x) fun c => Index.Y.get c.toRegFile
  | STZ => exact frugal_stored c _ (fun c => !c.m) fun _ => 0
  | INX | INY | DEX | DEY | TAX | TAY | TXA | TYA | TXY | TYX | TSX | TXS | TCD | TDC | TCS | TSC
  | XBA | CLC | SEC | CLI | SEI | CLD | SED | CLV | XCE | NOP => exact .pure _
  | PHA | PHX | PHY | PHD => exact frugal_pushReg c _ _
  | PLA | PLX | PLY => exact (frugal_pullReg _ _).bind fun _ => .pure _
  | PHB | PHK | PHP => exact (frugal_push _ _).bind fun _ => .pure _
  | PLB | PLP => exact (frugal_pull _).bind fun _ => .pure _
  | PLD => exact (frugal_pullw _).bind fun _ => .pure _
  | PEA | PER => exact (frugal_fetch16 c).bind fun _ => frugal_pushReg _ _ true
  | PEI =>
    exact (frugal_fetch8 c).bind fun _ => (frugal_rdBank0_16 _).bind fun _ =>
      frugal_pushReg _ _ true
  | REP | SEP | WDM => exact (frugal_fetch8 c).bind fun _ => .pure _
  | MVN | MVP => exact frugal_blockMove c site _
  | WAI => exact .ite (.pure _) .fatal
  | JMP =>
    unfold stepBy
    dsimp only
    split
    · exact absurd ⟨rfl, rfl⟩ hjmp
    · exact (frugal_fetch16 c).bind fun _ => (frugal_rdBank0_16 _).bind fun _ => .pure _
    · exact (frugal_tableIndex site _).bind fun _ => (frugal_fetch16 c).bind fun _ =>
        (frugal_readTable _ _).bind fun _ => .pure _
  | JML =>
    unfold stepBy
    dsimp only
    split
    · exact frugal_jml c hq
    · exact (frugal_fetch16 c).bind fun _ => (frugal_rdBank0_24 _).bind fun _ => .pure _
  | JSR =>
    unfold stepBy
    dsimp only
    split
    · exact frugal_jsr c site hq
    · exact (frugal_fetch16 c).bind fun _ => (frugal_pushw _ _).bind fun _ =>
        (frugal_tableIndex site _).bind fun _ => (frugal_enterShadow _ site false).bind fun _ =>
        (frugal_readTable _ _).bind fun _ => .pure _
  | JSL => exact frugal_jsl c site hq
  | RTS => exact (frugal_pullw _).bind fun _ => frugal_leaveShadow _ _
  | RTL =>
    exact (frugal_pullw _).bind fun _ => (frugal_pull _).bind fun _ => frugal_leaveShadow _ _
  | RTI =>
    exact .ite ((frugal_pull _).bind fun _ => (frugal_pullw _).bind fun _ =>
      .ite (.pure _) ((frugal_pull _).bind fun _ => .pure _)) .fatal
  | BRK | COP | STP => exact .fatal

end

end

/-! One instruction on both sides. -/

/-- Stops for the budget: with an unlimited one it would go on. -/
def RunsOut {σ : Type} [Board σ] (h : Host σ) (c : Exec) (w : Wire σ) : Prop :=
  interpInsn h c w = none ∧ interpInsn h c (w.setBudget 0) ≠ none

/-- Charges the budget of `w` once if `t`, and then stops for nothing else. -/
structure ChargedAt {σ α : Type} (x : BusM σ α) (t : Bool) (w : Wire σ) : Prop where
  runs : ∀ n, x (w.setBudget n) =
    (x (w.setBudget 0)).bind fun p => (spendIf t n).map fun m => (p.1, p.2.setBudget m)
  goes : t = true → x (w.setBudget 0) ≠ none

theorem spendIf_zero (t : Bool) : spendIf t 0 = some 0 := by
  cases t <;> rfl

theorem spendIf_none {t : Bool} {n : Nat} : spendIf t n = none ↔ t = true ∧ n = 1 := by
  cases t with
  | false => exact ⟨nofun, nofun⟩
  | true =>
    unfold spendIf spend
    rw [if_pos rfl]
    by_cases h0 : n = 0
    · rw [if_pos h0]
      exact ⟨nofun, fun h => absurd (h0.symm.trans h.2) (by decide)⟩
    · rw [if_neg h0]
      by_cases h1 : n = 1
      · rw [if_pos h1]
        exact ⟨fun _ => ⟨rfl, h1⟩, fun _ => rfl⟩
      · rw [if_neg h1]
        exact ⟨nofun, fun h => absurd h.2 h1⟩

section

variable {σ α : Type} {w : Wire σ}

theorem Frugal.charged {x : BusM σ α} (hx : Frugal x) : ChargedAt x false w where
  runs n := by
    rw [hx w n, hx w 0]
    cases x w with
    | none => rfl
    | some p => rfl
  goes := nofun

theorem chargedAt_of {x : BusM σ α} {t : Bool} {a : α} {v : Wire σ}
    (h : ∀ n, x (w.setBudget n) = (spendIf t n).map fun m => (a, v.setBudget m)) :
    ChargedAt x t w where
  runs n := by
    rw [h n, h 0, spendIf_zero]
    rfl
  goes _ := by
    rw [h 0, spendIf_zero]
    nofun

theorem setBudget_budget (w : Wire σ) : w.setBudget w.budget = w := rfl

/-- What is left of the budget after `x`. -/
theorem ChargedAt.left {x : BusM σ α} {t : Bool} (hx : ChargedAt x t w) {a : α} {w' : Wire σ}
    (hrun : x w = some (a, w')) : spendIf t w.budget = some w'.budget := by
  have hn := hx.runs w.budget
  rw [setBudget_budget, hrun] at hn
  obtain ⟨p, -, hp⟩ := Option.bind_eq_some_iff.mp hn.symm
  obtain ⟨m, hm, hpair⟩ := Option.map_eq_some_iff.mp hp
  rw [hm, ← (Prod.mk.inj hpair).2]
  rfl

theorem ChargedAt.stops {x : BusM σ α} {t : Bool} (hx : ChargedAt x t w) :
    (x w = none ∧ x (w.setBudget 0) ≠ none) ↔ spendIf t w.budget = none := by
  have hn := hx.runs w.budget
  rw [setBudget_budget] at hn
  cases hfree : x (w.setBudget 0) with
  | none =>
    refine ⟨fun h => absurd rfl h.2, fun h => ?_⟩
    exact absurd hfree (hx.goes (spendIf_none.mp h).1)
  | some p =>
    rw [hn, hfree, Option.bind_some, Option.map_eq_none_iff]
    exact ⟨fun h => h.1, fun h => ⟨h, nofun⟩⟩

theorem ctLoop_then (i : Insn) (target : BitVec 24) (f : Unit → BusM σ α) {a : α}
    (hf : ∀ w, f () w = some (a, w)) (n : Nat) : (ctLoop i target >>= f) (w.setBudget n) =
      (spendIf (target ≤ i.addr) n).map fun m => (a, w.setBudget m) := by
  change ((ctLoop i target : BusM σ Unit) (w.setBudget n)).bind _ = _
  rw [ctLoop_budget]
  change ((spendIf _ n).map _).bind _ = _
  cases spendIf (target ≤ i.addr) n with
  | none => rfl
  | some m => exact hf _

end

section

variable {σ : Type} [Board σ] {h : Host σ} {c : Exec} {w : Wire σ} {i : Insn}

omit [Board σ] in
theorem markTaken_run (i : Insn) (w : Wire σ) : ∃ w' : Wire σ, ∀ n,
    (markTaken i : BusM σ Unit) (w.setBudget n) = some ((), w'.setBudget n) := by
  by_cases hbrl : i.mnemonic = .BRL
  · refine ⟨w, fun n => ?_⟩
    unfold markTaken
    rw [if_pos hbrl]
    rfl
  · refine ⟨{ w with taken := true }, fun n => ?_⟩
    unfold markTaken
    rw [if_neg hbrl]
    rfl

/-- Only `$4C` is JMP abs. -/
theorem jmp_abs_opcode {i : Insn} (hd : i.Decoded) (hjmp : i.mnemonic = .JMP ∧ i.mode = .abs) :
    i.opcode = 0x4C := by
  have hop := hd.op
  rw [hjmp.1, hjmp.2] at hop
  have hall : ∀ n : Fin 256, opcodes (BitVec.ofFin n) = (Mnemonic.JMP, AddrMode.abs) →
      BitVec.ofFin n = (0x4C : BitVec 8) := by decide +kernel
  exact hall i.opcode.toFin hop

theorem interpInsn_step (hd : i.Decoded) (hpc : c.pbpc = i.addr) (hp : Placed w.bus i) (n : Nat) :
    interpInsn h c (w.setBudget n) =
      stepBy h (c.opened w.bus) i.addr i.mnemonic i.mode ({ w with mdr := i.opcode }.setBudget n) := by
  have hs := step_eq_stepBy h (c.opened w.bus) i.addr i.opcode.toFin
  change step h _ i.addr i.opcode = stepBy h _ i.addr (opcodes i.opcode).1 (opcodes i.opcode).2 at hs
  rw [hd.op] at hs
  rw [interpInsn_opened h (w := w.setBudget n) hpc hp]
  exact congrFun hs _

/-- The interpreter's step on a decoded instruction charges what loops. -/
theorem interpInsn_charged [BlindBoard σ] (hq : h.Quiet) (hd : i.Decoded) (hpc : c.pbpc = i.addr)
    (hp : Placed w.bus i) : ChargedAt (interpInsn h c) (i.loops c.toRegFile) w := by
  have hl (n : Nat) : Located (c.opened w.bus) ({ w with mdr := i.opcode }.setBudget n).bus i :=
    Exec.opened_located hpc hp
  by_cases hjmp : i.opcode = 0x4C
  · obtain ⟨hmn, hmd⟩ := hd.at hjmp rfl
    have hloops : i.loops c.toRegFile = decide (i.jumpTarget ≤ i.addr) := by
      rw [Insn.loops, Insn.goesTo, if_pos hjmp]
    rw [hloops]
    refine chargedAt_of (a := ((c.opened w.bus).after w.bus i).arrive
      (c.toRegFile, .goto i.jumpTarget)) (v := { w with mdr := i.last }) fun n => ?_
    rw [interpInsn_step hd hpc hp n, hmn, hmd]
    refine (jump_emulates hd (hl n) hmd h).trans ?_
    unfold jumpBody
    rw [bind_assoc]
    refine ctLoop_then (w := { w with mdr := i.last }) i i.jumpTarget _ ?_ n
    exact fun _ => rfl
  · cases hc : branchCond i.mnemonic with
    | none =>
      have hloops : i.loops c.toRegFile = false := by
        rw [Insn.loops, Insn.goesTo, if_neg hjmp, hc]
      have habs : ¬(i.mnemonic = .JMP ∧ i.mode = .abs) := fun h' => hjmp (jmp_abs_opcode hd h')
      have hfrugal := stepBy_frugal (h := h) (c.opened w.bus) i.addr hq hc habs
      have hcharged := hfrugal.charged (w := { w with mdr := i.opcode })
      rw [hloops]
      refine ⟨fun n => ?_, nofun⟩
      rw [interpInsn_step hd hpc hp n, interpInsn_step hd hpc hp 0]
      exact hcharged.runs n
    | some cond =>
      have hloops : i.loops c.toRegFile =
          (cond c.toRegFile && decide (i.branchTarget ≤ i.addr)) := by
        rw [Insn.loops, Insn.goesTo, if_neg hjmp, hc]
        dsimp only
        cases cond c.toRegFile <;> rfl
      have hrun (n : Nat) := (interpInsn_step hd hpc hp n).trans
        (branches_emulate h hc hd (hl n))
      rw [hloops]
      unfold branchBody at hrun
      cases htaken : cond c.toRegFile with
      | false =>
        refine chargedAt_of (a := ((c.opened w.bus).after w.bus i).arrive (c.toRegFile, .next))
          (v := { w with mdr := i.last }) fun n => (hrun n).trans ?_
        change ((if cond c.toRegFile = true then _ else _) >>= _ : BusM σ Exec) _ = _
        rw [htaken]
        rfl
      | true =>
        obtain ⟨w', hmark⟩ := markTaken_run i { w with mdr := i.last }
        refine chargedAt_of (a := ((c.opened w.bus).after w.bus i).arrive
          (c.toRegFile, .goto i.branchTarget)) (v := w') fun n => (hrun n).trans ?_
        change ((if cond c.toRegFile = true then _ else _) >>= _ : BusM σ Exec) _ = _
        rw [htaken, if_pos rfl, bind_assoc]
        change ((markTaken i : BusM σ Unit) ({ w with mdr := i.last }.setBudget n)).bind _ = _
        rw [hmark n]
        change ((ctLoop i i.branchTarget >>= _) >>= _ : BusM σ Exec) (w'.setBudget n) = _
        rw [bind_assoc]
        refine ctLoop_then i i.branchTarget _ ?_ n
        exact fun _ => rfl

end

end CtRecomp
