import CtRecomp.CycleTables
import CtRecomp.Templates

namespace CtRecomp

/-! The bus accesses instructions make, counted: a run only appends to the log, and
how many it appends does not depend on the data. -/

section

variable {σ : Type} {α β : Type} {n k : Nat}

/-- Every run of `x` that ends makes `n` data accesses and gives a value with `P`. -/
def Makes (n : Nat) (x : BusM σ α) (P : α → Prop) : Prop :=
  ∀ w a w', x w = some (a, w') →
    P a ∧ ∃ l, w'.log = w.log ++ l ∧ l.length = n ∧ ∀ e ∈ l, 6 ≤ e.clocks

theorem Makes.pure {P : α → Prop} {a : α} (h : P a) : Makes 0 (pure a : BusM σ α) P := by
  intro w b w' hrun
  cases hrun
  exact ⟨h, [], (List.append_nil _).symm, rfl, by simp⟩

theorem Makes.fatal {P : α → Prop} : Makes n (ctFatal : BusM σ α) P := by
  intro w a w' hrun
  cases hrun

theorem Makes.bind {x : BusM σ α} {f : α → BusM σ β} {P : α → Prop} {Q : β → Prop}
    (hx : Makes n x P) (hf : ∀ a, P a → Makes k (f a) Q) : Makes (n + k) (x >>= f) Q := by
  intro w b w' hrun
  obtain ⟨⟨a, w₁⟩, ha, hb⟩ := Option.bind_eq_some_iff.mp hrun
  obtain ⟨hP, l₁, hlog₁, hlen₁, hclk₁⟩ := hx w a w₁ ha
  obtain ⟨hQ, l₂, hlog₂, hlen₂, hclk₂⟩ := hf a hP w₁ b w' hb
  refine ⟨hQ, l₁ ++ l₂, ?_, ?_, ?_⟩
  · rw [hlog₂, hlog₁, List.append_assoc]
  · rw [List.length_append, hlen₁, hlen₂]
  · intro e he
    exact (List.mem_append.mp he).elim (hclk₁ e) (hclk₂ e)

/-- After `x`, a continuation that makes none. -/
theorem Makes.then {x : BusM σ α} {f : α → BusM σ β} {P : α → Prop} {Q : β → Prop}
    (hx : Makes n x P) (hf : ∀ a, P a → Makes 0 (f a) Q) : Makes n (x >>= f) Q := hx.bind hf

theorem Makes.mono {x : BusM σ α} {P Q : α → Prop} (hx : Makes n x P) (h : ∀ a, P a → Q a) :
    Makes n x Q := by
  intro w a w' hrun
  obtain ⟨hP, hl⟩ := hx w a w' hrun
  exact ⟨h a hP, hl⟩

theorem Makes.of_eq {x : BusM σ α} {P : α → Prop} (hx : Makes n x P) (h : n = k) :
    Makes k x P := h ▸ hx

theorem Makes.ite {c : Prop} [Decidable c] {x y : BusM σ α} {P : α → Prop}
    (hx : c → Makes n x P) (hy : ¬c → Makes n y P) : Makes n (if c then x else y) P := by
  by_cases h : c
  · rw [if_pos h]
    exact hx h
  · rw [if_neg h]
    exact hy h

abbrev always {α : Type} : α → Prop := fun _ => True

theorem makes_setCross (b : Bool) : Makes 0 (setCross b : BusM σ Unit) always := by
  intro w u w' hrun
  cases hrun
  exact ⟨trivial, [], (List.append_nil _).symm, rfl, by simp⟩

theorem makes_setTaken : Makes 0 (setTaken : BusM σ Unit) always := by
  intro w u w' hrun
  cases hrun
  exact ⟨trivial, [], (List.append_nil _).symm, rfl, by simp⟩

theorem makes_chargeBudget : Makes 0 (chargeBudget : BusM σ Unit) always := by
  intro w u w' hrun
  unfold chargeBudget at hrun
  split at hrun
  · cases hrun
    exact ⟨trivial, [], (List.append_nil _).symm, rfl, by simp⟩
  · split at hrun
    · cases hrun
    · cases hrun
      exact ⟨trivial, [], (List.append_nil _).symm, rfl, by simp⟩

theorem makes_loopTick (site : BitVec 24) (pc : BitVec 16) :
    Makes 0 (loopTick site pc : BusM σ Unit) always :=
  .ite (fun _ => .pure trivial) fun _ => makes_chargeBudget

/-- `c'` is `c` after `n` more fetches, registers apart. -/
def Exec.Fetches (n : Nat) (c c' : Exec) : Prop :=
  ∃ l, c'.fetched = c.fetched ++ l ∧ l.length = n ∧ ∀ k ∈ l, 6 ≤ k

theorem Exec.Fetches.none (c : Exec) : c.Fetches 0 c :=
  ⟨[], (List.append_nil _).symm, rfl, by simp⟩

theorem Exec.Fetches.trans {n k : Nat} {c c' c'' : Exec} (h : c.Fetches n c')
    (h' : c'.Fetches k c'') : c.Fetches (n + k) c'' := by
  obtain ⟨l, hl, hlen, hclk⟩ := h
  obtain ⟨l', hl', hlen', hclk'⟩ := h'
  refine ⟨l ++ l', ?_, ?_, ?_⟩
  · rw [hl', hl, List.append_assoc]
  · rw [List.length_append, hlen, hlen']
  · intro k hk
    exact (List.mem_append.mp hk).elim (hclk k) (hclk' k)

/-- Only fetches: the registers stay. -/
def Exec.Reads (n : Nat) (c c' : Exec) : Prop := c'.toRegFile = c.toRegFile ∧ c.Fetches n c'

theorem Exec.Reads.trans {n k : Nat} {c c' c'' : Exec} (h : c.Reads n c') (h' : c'.Reads k c'') :
    c.Reads (n + k) c'' := ⟨h'.1.trans h.1, h.2.trans h'.2⟩

theorem Exec.Reads.found {n : Nat} {c c' : Exec} (h : c.Reads n c') (e : EA) :
    Makes 0 (pure (e, c') : BusM σ (EA × Exec)) fun p => c.Reads n p.2 := .pure h

theorem makes_onRegs (c : Exec) (f : RegFile → RegFile) :
    Makes 0 (onRegs c f : BusM σ Exec) (c.Fetches 0) := .pure (.none c)

theorem makes_add (r : RegFile) (a b : BitVec 16) (wide : Bool) :
    Makes 0 (add r a b wide : BusM σ _) always :=
  .ite (fun _ => .fatal) fun _ => .pure trivial

theorem makes_aluValue (r : RegFile) (kind : Nat) (v : BitVec 16) :
    Makes 0 (aluValue r kind v : BusM σ RegFile) always := by
  unfold aluValue
  dsimp only
  split
  · exact .pure trivial
  · exact .pure trivial
  · exact .pure trivial
  · exact (makes_add _ _ _ _).then fun _ _ => .pure trivial
  · exact .pure trivial
  · exact .pure trivial
  · exact (makes_add _ _ _ _).then fun _ _ => .pure trivial

/-- `x` does what the tallies of `mn` in mode `md` say. -/
def Tallied (x : BusM σ Exec) (c : Exec) (mn : Mnemonic) (md : AddrMode) : Prop :=
  Makes ((accessTally mn md).at (!c.m) (!c.x) (!c.e)) x
    (c.Fetches ((operandTally mn md).at (!c.m) (!c.x) (!c.e)))

theorem Makes.tallied {n k : Nat} {x : BusM σ Exec} {c : Exec} {mn : Mnemonic} {md : AddrMode}
    (h : Makes n x (c.Fetches k)) (hn : n = (accessTally mn md).at (!c.m) (!c.x) (!c.e))
    (hk : k = (operandTally mn md).at (!c.m) (!c.x) (!c.e)) : Tallied x c mn md := by
  unfold Tallied
  rwa [← hn, ← hk]

section

variable (h : Host σ) (c : Exec) (site : BitVec 24)

theorem wai_makes (hsys : h.sys = true) : Makes 0 (wai h c : BusM σ Exec) (c.Fetches 0) := by
  unfold wai
  rw [if_pos hsys]
  exact .pure (.none c)

theorem externHook_makes (hsys : h.sys = true) (addr : BitVec 24) (kind : Nat) :
    Makes 0 (externHook h addr kind) (· = none) := by
  unfold externHook
  rw [if_pos hsys]
  exact .pure rfl

theorem enterShadow_makes (hsys : h.sys = true) (isLong : Bool) :
    Makes 0 (enterShadow h c site isLong : BusM σ Exec) (· = c) := by
  unfold enterShadow
  rw [if_pos hsys]
  exact .pure rfl

theorem leaveShadow_makes (hsys : h.sys = true) (isLong : Bool) :
    Makes 0 (leaveShadow h c isLong : BusM σ Exec) (· = c) := by
  unfold leaveShadow
  rw [if_pos hsys]
  exact .pure rfl

theorem tableIndex_makes (r : RegFile) (hsys : h.sys = true) :
    Makes 0 (tableIndex h r site : BusM σ Unit) always := by
  unfold tableIndex
  rw [if_pos hsys]
  exact .pure trivial

end

end

theorem busAccessClocks_ge (fastrom : Bool) (a : BitVec 24) : 6 ≤ busAccessClocks fastrom a := by
  unfold busAccessClocks
  split
  · split <;> omega
  · split
    · omega
    · split <;> omega

section

variable {σ : Type} [Board σ] {w : Wire σ}

theorem makes_read8 (a : BitVec 24) : Makes 1 (read8 a : BusM σ (BitVec 8)) always := by
  intro w v w' hrun
  obtain ⟨⟨v', bus⟩, -, hrun⟩ := Option.bind_eq_some_iff.mp hrun
  cases hrun
  exact ⟨trivial, [_], rfl, rfl, by simp [Wire.clocks, busAccessClocks_ge]⟩

theorem makes_write8 (a : BitVec 24) (v : BitVec 8) :
    Makes 1 (write8 a v : BusM σ Unit) always := by
  intro w u w' hrun
  obtain ⟨bus, -, hrun⟩ := Option.bind_eq_some_iff.mp hrun
  cases hrun
  exact ⟨trivial, [_], rfl, rfl, by simp [Wire.clocks, busAccessClocks_ge]⟩

theorem makes_fetch8 (c : Exec) : Makes 0 (fetch8 c : BusM σ _) fun p => c.Reads 1 p.2 := by
  intro w p w' hrun
  obtain ⟨⟨v, bus⟩, -, hrun⟩ := Option.bind_eq_some_iff.mp hrun
  cases hrun
  refine ⟨⟨rfl, [_], rfl, rfl, ?_⟩, [], (List.append_nil _).symm, rfl, by simp⟩
  simp [Wire.clocks, busAccessClocks_ge]

theorem makes_fetch16 (c : Exec) : Makes 0 (fetch16 c : BusM σ _) fun p => c.Reads 2 p.2 :=
  (makes_fetch8 c).then fun p hp =>
    (makes_fetch8 p.2).then fun _ hq => .pure (hp.trans hq)

theorem makes_fetch24 (c : Exec) : Makes 0 (fetch24 c : BusM σ _) fun p => c.Reads 3 p.2 :=
  (makes_fetch16 c).then fun p hp =>
    (makes_fetch8 p.2).then fun _ hq => .pure (hp.trans hq)

theorem makes_rd (e : EA) (wide : Bool) :
    Makes (1 + wide.toNat) (rd e wide : BusM σ (BitVec 16)) always := by
  cases wide with
  | false => exact (makes_read8 _).then fun _ _ => .pure trivial
  | true =>
    exact (makes_read8 _).bind fun _ _ => (makes_read8 _).then fun _ _ => .pure trivial

theorem makes_wr (e : EA) (wide : Bool) (v : BitVec 16) :
    Makes (1 + wide.toNat) (wr e wide v : BusM σ Unit) always := by
  cases wide with
  | false => exact (makes_write8 _ _).then fun _ _ => .pure trivial
  | true => exact (makes_write8 _ _).bind fun _ _ => makes_write8 _ _

theorem makes_wrRmw (e : EA) (wide : Bool) (v : BitVec 16) :
    Makes (1 + wide.toNat) (wrRmw e wide v : BusM σ Unit) always := by
  cases wide with
  | false => exact makes_write8 _ _
  | true => exact (makes_write8 _ _).bind fun _ _ => makes_write8 _ _

theorem makes_rdBank0_16 (a : BitVec 16) : Makes 2 (rdBank0_16 a : BusM σ _) always :=
  (makes_read8 _).bind fun _ _ => (makes_read8 _).then fun _ _ => .pure trivial

theorem makes_rdBank0_24 (a : BitVec 16) : Makes 3 (rdBank0_24 a : BusM σ _) always :=
  (makes_rdBank0_16 _).bind fun _ _ => (makes_read8 _).then fun _ _ => .pure trivial

theorem makes_push (r : RegFile) (v : BitVec 8) : Makes 1 (push r v : BusM σ RegFile) always :=
  (makes_write8 _ _).then fun _ _ => .pure trivial

theorem makes_pushw (r : RegFile) (v : BitVec 16) : Makes 2 (pushw r v : BusM σ RegFile) always :=
  (makes_push _ _).bind fun _ _ => makes_push _ _

theorem makes_pull (r : RegFile) : Makes 1 (pull r : BusM σ _) fun p => p.2.e = r.e := by
  refine (makes_read8 _).then fun v _ => .pure ?_
  dsimp only
  split <;> rfl

theorem makes_pullw (r : RegFile) : Makes 2 (pullw r : BusM σ _) fun p => p.2.e = r.e :=
  (makes_pull _).bind fun _ h => (makes_pull _).then fun _ h' => .pure (h'.trans h)

/-! The interpreter's addressing and operands. -/

theorem makes_ea (c : Exec) (md : IMode) :
    Makes md.pointerReads (ea c md : BusM σ _) fun p => c.Reads md.operandBytes p.2 := by
  cases md with
  | imm => exact .fatal
  | dp => exact (makes_fetch8 c).then fun _ hp => hp.found _
  | dpX => exact (makes_fetch8 c).then fun _ hp => hp.found _
  | dpY => exact (makes_fetch8 c).then fun _ hp => hp.found _
  | sr => exact (makes_fetch8 c).then fun _ hp => hp.found _
  | abs => exact (makes_fetch16 c).then fun _ hp => hp.found _
  | absX =>
    exact (makes_fetch16 c).then fun _ hp => (makes_setCross _).then fun _ _ => hp.found _
  | absY =>
    exact (makes_fetch16 c).then fun _ hp => (makes_setCross _).then fun _ _ => hp.found _
  | long => exact (makes_fetch24 c).then fun _ hp => hp.found _
  | longX => exact (makes_fetch24 c).then fun _ hp => hp.found _
  | dpI =>
    exact ((makes_fetch8 c).bind fun _ hp =>
      (makes_rdBank0_16 _).then fun _ _ => hp.found _).of_eq (Nat.zero_add 2)
  | dpXI =>
    exact ((makes_fetch8 c).bind fun _ hp =>
      (makes_rdBank0_16 _).then fun _ _ => hp.found _).of_eq (Nat.zero_add 2)
  | srIY =>
    exact ((makes_fetch8 c).bind fun _ hp =>
      (makes_rdBank0_16 _).then fun _ _ => hp.found _).of_eq (Nat.zero_add 2)
  | dpIY =>
    exact ((makes_fetch8 c).bind fun _ hp => (makes_rdBank0_16 _).then fun _ _ =>
      (makes_setCross _).then fun _ _ => hp.found _).of_eq (Nat.zero_add 2)
  | dpIL =>
    exact ((makes_fetch8 c).bind fun _ hp =>
      (makes_rdBank0_24 _).then fun _ _ => hp.found _).of_eq (Nat.zero_add 3)
  | dpILY =>
    exact ((makes_fetch8 c).bind fun _ hp =>
      (makes_rdBank0_24 _).then fun _ _ => hp.found _).of_eq (Nat.zero_add 3)

theorem makes_operand_imm (c : Exec) (wide : Bool) :
    Makes 0 (operand c .imm wide : BusM σ _) fun p => c.Reads (1 + wide.toNat) p.2 := by
  cases wide with
  | false => exact (makes_fetch8 c).then fun p hp => .pure hp
  | true => exact makes_fetch16 c

theorem makes_operand (c : Exec) {md : IMode} (hmd : md ≠ .imm) (wide : Bool) :
    Makes (md.pointerReads + 1 + wide.toNat) (operand c md wide : BusM σ _)
      fun p => c.Reads md.operandBytes p.2 := by
  unfold operand
  rw [if_neg hmd]
  refine ((makes_ea c md).bind fun p hp => ?_).of_eq (Nat.add_assoc _ _ _).symm
  exact (makes_rd _ _).then fun _ _ => .pure hp

/-- Data accesses and fetches of an instruction that reads its operand. -/
def IMode.loadReads (md : IMode) (wide : Bool) : Nat :=
  if md = .imm then 0 else md.pointerReads + 1 + wide.toNat

def IMode.loadFetches (md : IMode) (wide : Bool) : Nat :=
  if md = .imm then 1 + wide.toNat else md.operandBytes

theorem makes_loaded (c : Exec) (md : IMode) (wide : Bool) {f : BitVec 16 × Exec → BusM σ Exec}
    (hf : ∀ p, Makes 0 (f p) (p.2.Fetches 0)) :
    Makes (md.loadReads wide) (operand c md wide >>= f) (c.Fetches (md.loadFetches wide)) := by
  unfold IMode.loadReads IMode.loadFetches
  by_cases hmd : md = .imm
  · rw [if_pos hmd, if_pos hmd, hmd]
    exact (makes_operand_imm c wide).then fun p hp => (hf p).mono fun _ h => hp.2.trans h
  · rw [if_neg hmd, if_neg hmd]
    exact (makes_operand c hmd wide).then fun p hp => (hf p).mono fun _ h => hp.2.trans h

theorem makes_stored (c : Exec) (md : IMode) {wide : Exec → Bool} (hw : ∀ c', c'.toRegFile =
    c.toRegFile → wide c' = wide c) (v : Exec → BitVec 16) :
    Makes (md.pointerReads + 1 + (wide c).toNat)
      (do let (e, c) ← ea c md; wr e (wide c) (v c); return c : BusM σ Exec)
      (c.Fetches md.operandBytes) := by
  refine ((makes_ea c md).bind fun p hp => ?_).of_eq (Nat.add_assoc _ _ _).symm
  rw [← hw p.2 hp.1]
  exact (makes_wr _ _ _).then fun _ _ => .pure hp.2

theorem aluBy_makes (c : Exec) (kind : Nat) (md : AddrMode) :
    Makes ((imode md).loadReads (!c.m)) (aluBy c kind (imode md) : BusM σ Exec)
      (c.Fetches ((imode md).loadFetches (!c.m))) :=
  makes_loaded c (imode md) (!c.m) fun p => (makes_aluValue _ _ _).then fun _ _ => .pure (.none p.2)

theorem makes_modified (c : Exec) (md : IMode) {x : EA × Exec → BusM σ Exec}
    (hx : ∀ p, c.Reads md.operandBytes p.2 →
      Makes (2 + 2 * (!c.m).toNat) (x p) (c.Fetches md.operandBytes)) :
    Makes (md.pointerReads + 2 + 2 * (!c.m).toNat) (ea c md >>= x) (c.Fetches md.operandBytes) :=
  ((makes_ea c md).bind hx).of_eq (Nat.add_assoc _ _ _).symm

theorem rmwMem_makes (c : Exec) (op : Rmw) (md : IMode) :
    Makes (md.pointerReads + 2 + 2 * (!c.m).toNat) (rmwMem c op md : BusM σ Exec)
      (c.Fetches md.operandBytes) := by
  refine makes_modified c md fun p hp => ?_
  have hm : p.2.m = c.m := congrArg RegFile.m hp.1
  rw [← hm]
  refine ((makes_rd _ _).bind fun v _ => (makes_wrRmw _ _ _).then fun _ _ => ?_).of_eq ?_
  · exact .pure hp.2
  · omega

theorem testBits_makes (c : Exec) (md : IMode) (reset : Bool) :
    Makes (md.pointerReads + 2 + 2 * (!c.m).toNat) (testBits c md reset : BusM σ Exec)
      (c.Fetches md.operandBytes) := by
  refine makes_modified c md fun p hp => ?_
  have hm : p.2.m = c.m := congrArg RegFile.m hp.1
  rw [← hm]
  refine ((makes_rd _ _).bind fun v _ => (makes_wrRmw _ _ _).then fun _ _ => ?_).of_eq ?_
  · exact .pure hp.2
  · omega

theorem pushReg_makes (c : Exec) (v : BitVec 16) (wide : Bool) :
    Makes (1 + wide.toNat) (pushReg c v wide : BusM σ Exec) (c.Fetches 0) := by
  cases wide with
  | false => exact (makes_push _ _).then fun _ _ => .pure (.none c)
  | true => exact (makes_pushw _ _).then fun _ _ => .pure (.none c)

theorem pullReg_makes (r : RegFile) (wide : Bool) :
    Makes (1 + wide.toNat) (pullReg r wide : BusM σ _) always := by
  cases wide with
  | false => exact (makes_pull _).then fun _ _ => .pure trivial
  | true => exact (makes_pullw _).mono fun _ _ => trivial

theorem branch_makes (c : Exec) (site : BitVec 24) (cond : Bool) :
    Makes 0 (branch c site cond : BusM σ Exec) (c.Fetches 1) := by
  refine (makes_fetch8 c).then fun p hp => .ite (fun _ => ?_) fun _ => .pure hp.2
  exact makes_setTaken.then fun _ _ => (makes_loopTick _ _).then fun _ _ => .pure hp.2

theorem blockMove_makes (c : Exec) (site : BitVec 24) (step : BitVec 16) :
    Makes 2 (blockMove c site step : BusM σ Exec) (c.Fetches 2) := by
  refine ((makes_fetch8 c).bind fun p hp => (makes_fetch8 p.2).bind fun q hq => ?_).of_eq
    (show 0 + (0 + 2) = 2 by rfl)
  have hboth := (hp.trans hq).2
  refine (makes_read8 _).bind fun v _ => (makes_write8 _ _).then fun _ _ => .pure ?_
  dsimp only
  split
  · split <;> exact hboth
  · split <;> exact hboth

theorem readTable_makes (c : Exec) (p : BitVec 16) :
    Makes 2 (readTable c p : BusM σ (BitVec 16)) always :=
  (makes_read8 _).bind fun _ _ => (makes_read8 _).then fun _ _ => .pure trivial

section

variable (md : IMode) (m x e : Bool)

theorem loadReads_m : md.loadReads m =
    (if md = .imm then Tally.const 0 else ⟨md.pointerReads + 1, 1, 0, 0⟩).at m x e := by
  unfold IMode.loadReads
  split <;> simp [Tally.at, Tally.const]

theorem loadReads_x : md.loadReads x =
    (if md = .imm then Tally.const 0 else ⟨md.pointerReads + 1, 0, 1, 0⟩).at m x e := by
  unfold IMode.loadReads
  split <;> simp [Tally.at, Tally.const]

theorem loadFetches_m : md.loadFetches m =
    (if md = .imm then ⟨1, 1, 0, 0⟩ else Tally.const md.operandBytes).at m x e := by
  unfold IMode.loadFetches
  split <;> simp [Tally.at, Tally.const]

theorem loadFetches_x : md.loadFetches x =
    (if md = .imm then ⟨1, 0, 1, 0⟩ else Tally.const md.operandBytes).at m x e := by
  unfold IMode.loadFetches
  split <;> simp [Tally.at, Tally.const]

end

@[simp] theorem Tally.at_const (n : Nat) (m x e : Bool) : (Tally.const n).at m x e = n := by
  simp [Tally.at, Tally.const]

section

variable (h : Host σ) (c : Exec) (site : BitVec 24) (md : AddrMode)

theorem alu_tallied {mn : Mnemonic} {kind : Nat} (hk : stepBy h c site mn md = aluBy c kind (imode md))
    (ha : accessTally mn md = accessTally .LDA md) (ho : operandTally mn md = operandTally .LDA md) :
    Tallied (stepBy h c site mn md) c mn md := by
  rw [hk]
  exact (aluBy_makes c kind md).tallied (by rw [ha]; exact loadReads_m _ _ _ _)
    (by rw [ho]; exact loadFetches_m _ _ _ _)

theorem rmw_tallied {mn : Mnemonic} {op : Rmw} (hk : stepBy h c site mn md = rmwBy c op md)
    (ha : accessTally mn md = accessTally .ASL md) (ho : operandTally mn md = operandTally .ASL md) :
    Tallied (stepBy h c site mn md) c mn md := by
  rw [hk]
  unfold rmwBy
  by_cases hacc : md = .acc
  · rw [if_pos hacc]
    refine Makes.tallied (n := 0) (k := 0) (.pure (.none c)) ?_ ?_
    · rw [ha]
      simp [accessTally, hacc]
    · rw [ho]
      simp [operandTally, hacc]
  · rw [if_neg hacc]
    refine (rmwMem_makes c op (imode md)).tallied ?_ ?_
    · rw [ha]
      simp [accessTally, hacc, Tally.at, Nat.mul_comm]
    · rw [ho]
      simp [operandTally, hacc]

theorem loadIndex_makes (ix : Index) (md : IMode) :
    Makes (md.loadReads (!c.x)) (loadIndex c ix md : BusM σ Exec)
      (c.Fetches (md.loadFetches (!c.x))) :=
  makes_loaded c md (!c.x) fun p => .pure (.none p.2)

theorem compareIndex_makes (ix : Index) (md : IMode) :
    Makes (md.loadReads (!c.x)) (compareIndex c ix md : BusM σ Exec)
      (c.Fetches (md.loadFetches (!c.x))) :=
  makes_loaded c md (!c.x) fun p => .pure (.none p.2)

theorem bitTest_makes (md : IMode) :
    Makes (md.loadReads (!c.m)) (bitTest c md : BusM σ Exec)
      (c.Fetches (md.loadFetches (!c.m))) :=
  makes_loaded c md (!c.m) fun p => .pure (.none p.2)

theorem sta_makes (md : IMode) :
    Makes (md.pointerReads + 1 + (!c.m).toNat) (sta c md : BusM σ Exec)
      (c.Fetches md.operandBytes) := by
  by_cases himm : md = .imm
  · intro w a w' hrun
    rw [himm] at hrun
    cases hrun
  · have hsta : (sta c md : BusM σ Exec) = do
        let (e, c) ← ea c md
        wr e (!c.m) (getA c.toRegFile)
        return c := by
      unfold sta
      rw [if_neg himm]
    rw [hsta]
    have hm (c' : Exec) (hc : c'.toRegFile = c.toRegFile) : (!c'.m) = !c.m := by rw [hc]
    exact makes_stored c md hm fun c => getA c.toRegFile

theorem storeIndex_makes (ix : Index) (md : IMode) :
    Makes (md.pointerReads + 1 + (!c.x).toNat) (storeIndex c ix md : BusM σ Exec)
      (c.Fetches md.operandBytes) := by
  have hx (c' : Exec) (hc : c'.toRegFile = c.toRegFile) : (!c'.x) = !c.x := by rw [hc]
  exact makes_stored c md hx fun c => ix.get c.toRegFile

theorem storeZero_makes (md : IMode) :
    Makes (md.pointerReads + 1 + (!c.m).toNat) (storeZero c md : BusM σ Exec)
      (c.Fetches md.operandBytes) := by
  have hm (c' : Exec) (hc : c'.toRegFile = c.toRegFile) : (!c'.m) = !c.m := by rw [hc]
  exact makes_stored c md hm fun _ => 0

theorem rts_makes (hsys : h.sys = true) : Makes 2 (rts h c : BusM σ Exec) (c.Fetches 0) := by
  refine (makes_pullw _).then fun p _ => (leaveShadow_makes h _ hsys _).mono fun c' hc => ?_
  rw [hc]
  exact .none c

theorem rtl_makes (hsys : h.sys = true) : Makes 3 (rtl h c : BusM σ Exec) (c.Fetches 0) := by
  refine (makes_pullw _).bind fun p _ => (makes_pull _).then fun q _ =>
    (leaveShadow_makes h _ hsys _).mono fun c' hc => ?_
  rw [hc]
  exact .none c

theorem unpackP_e (r : RegFile) (p : BitVec 8) : (unpackP r p).e = r.e := by
  unfold unpackP
  dsimp only
  split <;> split <;> rfl

theorem rti_makes (hsys : h.sys = true) :
    Makes (3 + (!c.e).toNat) (rti h c : BusM σ Exec) (c.Fetches 0) := by
  unfold rti
  rw [if_pos hsys]
  refine ((makes_pull _).bind fun p hp => (makes_pullw _).bind fun q hq => ?_).of_eq
    (show 1 + (2 + (!c.e).toNat) = _ by omega)
  have he : q.2.e = c.e := by rw [hq, unpackP_e, hp]
  dsimp only
  rw [← he]
  cases hqe : q.2.e with
  | true => exact .pure (.none c)
  | false => exact (makes_pull _).then fun _ _ => .pure (.none c)

theorem jsl_makes (hsys : h.sys = true) : Makes 3 (jsl h c site : BusM σ Exec) (c.Fetches 3) := by
  refine ((makes_fetch24 c).bind fun p hp => (makes_push _ _).bind fun r _ =>
    (makes_pushw _ _).bind fun r _ => (externHook_makes h hsys _ _).then fun hook hnone => ?_).of_eq
      (show 0 + (1 + 2) = 3 by rfl)
  rw [hnone]
  refine (enterShadow_makes h _ site hsys true).then fun c' hc => .pure ?_
  rw [hc]
  exact hp.2

theorem jmpAbs_makes : Makes 0 (do
    let (t, c) ← fetch16 c
    loopTick site t
    return { c with PC := t } : BusM σ Exec) (c.Fetches 2) :=
  (makes_fetch16 c).then fun _ hp => (makes_loopTick _ _).then fun _ _ => .pure hp.2

theorem jmpInd_makes : Makes 2 (do
    let (a, c) ← fetch16 c
    let t ← rdBank0_16 a
    return { c with PC := t } : BusM σ Exec) (c.Fetches 2) := by
  refine ((makes_fetch16 c).bind fun p hp => ?_).of_eq (Nat.zero_add 2)
  exact (makes_rdBank0_16 _).then fun _ _ => .pure hp.2

theorem jmpTable_makes (hsys : h.sys = true) :
    Makes 2 (jmpTable h c site : BusM σ Exec) (c.Fetches 2) := by
  refine ((tableIndex_makes h site _ hsys).bind fun _ _ => (makes_fetch16 c).bind fun p hp => ?_).of_eq
    (show 0 + (0 + 2) = 2 by rfl)
  exact (readTable_makes _ _).then fun _ _ => .pure hp.2

theorem jml_makes (hsys : h.sys = true) : Makes 0 (jml h c : BusM σ Exec) (c.Fetches 3) := by
  refine (makes_fetch24 c).then fun p hp => (externHook_makes h hsys _ _).then fun hook hnone => ?_
  rw [hnone]
  exact .pure hp.2

theorem jmlInd_makes : Makes 3 (do
    let (a, c) ← fetch16 c
    let t ← rdBank0_24 a
    return { c with PB := bank t, PC := low t } : BusM σ Exec) (c.Fetches 2) := by
  refine ((makes_fetch16 c).bind fun p hp => ?_).of_eq (Nat.zero_add 3)
  exact (makes_rdBank0_24 _).then fun _ _ => .pure hp.2

theorem jsr_makes (hsys : h.sys = true) : Makes 2 (jsr h c site : BusM σ Exec) (c.Fetches 2) := by
  refine ((makes_fetch16 c).bind fun p hp => (makes_pushw _ _).then fun r _ =>
    (externHook_makes h hsys _ _).then fun hook hnone => ?_).of_eq (Nat.zero_add 2)
  rw [hnone]
  refine (enterShadow_makes h _ site hsys false).then fun c' hc => .pure ?_
  rw [hc]
  exact hp.2

theorem jsrTable_makes (hsys : h.sys = true) :
    Makes 4 (jsrTable h c site : BusM σ Exec) (c.Fetches 2) := by
  refine ((makes_fetch16 c).bind fun p hp => (makes_pushw _ _).bind fun r _ =>
    (tableIndex_makes h site _ hsys).bind fun _ _ =>
    (enterShadow_makes h _ site hsys false).bind fun c' hc =>
    (readTable_makes _ _).then fun _ _ => .pure ?_).of_eq (show 0 + (2 + (0 + (0 + 2))) = 4 by rfl)
  rw [hc]
  exact hp.2

theorem jmp_tallied (hsys : h.sys = true) : Tallied (stepBy h c site .JMP md) c .JMP md := by
  unfold stepBy
  dsimp only
  split
  · exact (jmpAbs_makes c site).tallied rfl rfl
  · exact (jmpInd_makes c).tallied rfl rfl
  next hnot _ =>
    refine (jmpTable_makes h c site hsys).tallied ?_ rfl
    rw [accessTally, if_neg hnot]
    rfl

theorem jml_tallied (hsys : h.sys = true) : Tallied (stepBy h c site .JML md) c .JML md := by
  unfold stepBy
  dsimp only
  split
  · exact (jml_makes h c hsys).tallied rfl rfl
  next hnot =>
    refine (jmlInd_makes c).tallied ?_ ?_
    · rw [accessTally, if_neg hnot]
      rfl
    · rw [operandTally, if_neg hnot]
      rfl

theorem jsr_tallied (hsys : h.sys = true) : Tallied (stepBy h c site .JSR md) c .JSR md := by
  unfold stepBy
  dsimp only
  split
  · exact (jsr_makes h c site hsys).tallied rfl rfl
  next hnot =>
    refine (jsrTable_makes h c site hsys).tallied ?_ rfl
    rw [accessTally, if_neg hnot]
    rfl

/-- `step` makes the fetches and accesses of its tallies. -/
theorem stepBy_makes (mn : Mnemonic) (hsys : h.sys = true) :
    Tallied (stepBy h c site mn md) c mn md := by
  cases mn with
  | ORA => exact alu_tallied h c site md rfl rfl rfl
  | AND => exact alu_tallied h c site md rfl rfl rfl
  | EOR => exact alu_tallied h c site md rfl rfl rfl
  | ADC => exact alu_tallied h c site md rfl rfl rfl
  | LDA => exact alu_tallied h c site md rfl rfl rfl
  | CMP => exact alu_tallied h c site md rfl rfl rfl
  | SBC => exact alu_tallied h c site md rfl rfl rfl
  | BIT => exact (bitTest_makes c (imode md)).tallied (loadReads_m _ _ _ _) (loadFetches_m _ _ _ _)
  | STA =>
    exact (sta_makes c (imode md)).tallied (by simp [accessTally, Tally.at])
      (Tally.at_const _ _ _ _).symm
  | STZ =>
    exact (storeZero_makes c (imode md)).tallied (by simp [accessTally, Tally.at])
      (Tally.at_const _ _ _ _).symm
  | ASL => exact rmw_tallied h c site md rfl rfl rfl
  | ROL => exact rmw_tallied h c site md rfl rfl rfl
  | LSR => exact rmw_tallied h c site md rfl rfl rfl
  | ROR => exact rmw_tallied h c site md rfl rfl rfl
  | INC => exact rmw_tallied h c site md rfl rfl rfl
  | DEC => exact rmw_tallied h c site md rfl rfl rfl
  | TSB =>
    exact (testBits_makes c (imode md) false).tallied
      (by simp [accessTally, Tally.at, Nat.mul_comm]) (Tally.at_const _ _ _ _).symm
  | TRB =>
    exact (testBits_makes c (imode md) true).tallied
      (by simp [accessTally, Tally.at, Nat.mul_comm]) (Tally.at_const _ _ _ _).symm
  | LDX =>
    exact (loadIndex_makes c .X (imode md)).tallied (loadReads_x _ _ _ _) (loadFetches_x _ _ _ _)
  | LDY =>
    exact (loadIndex_makes c .Y (imode md)).tallied (loadReads_x _ _ _ _) (loadFetches_x _ _ _ _)
  | CPX =>
    exact (compareIndex_makes c .X (imode md)).tallied (loadReads_x _ _ _ _)
      (loadFetches_x _ _ _ _)
  | CPY =>
    exact (compareIndex_makes c .Y (imode md)).tallied (loadReads_x _ _ _ _)
      (loadFetches_x _ _ _ _)
  | STX =>
    exact (storeIndex_makes c .X (imode md)).tallied (by simp [accessTally, Tally.at])
      (Tally.at_const _ _ _ _).symm
  | STY =>
    exact (storeIndex_makes c .Y (imode md)).tallied (by simp [accessTally, Tally.at])
      (Tally.at_const _ _ _ _).symm
  | INX | INY | DEX | DEY | TAX | TAY | TXA | TYA | TXY | TYX | TSX | TXS | TCD | TDC | TCS | TSC
  | XBA | CLC | SEC | CLI | SEI | CLD | SED | CLV | XCE =>
    unfold stepBy
    exact (makes_onRegs c _).tallied rfl rfl
  | BPL | BMI | BVC | BVS | BCC | BCS | BNE | BEQ | BRA =>
    exact (branch_makes c site _).tallied rfl rfl
  | BRL =>
    exact Makes.tallied ((makes_fetch16 c).then fun p hp =>
      (makes_loopTick _ _).then fun _ _ => .pure hp.2) rfl rfl
  | PHA => exact (pushReg_makes c _ _).tallied (by simp [accessTally, Tally.at]) rfl
  | PHX => exact (pushReg_makes c _ _).tallied (by simp [accessTally, Tally.at]) rfl
  | PHY => exact (pushReg_makes c _ _).tallied (by simp [accessTally, Tally.at]) rfl
  | PLA =>
    exact Makes.tallied ((pullReg_makes _ _).then fun _ _ => .pure (.none c))
      (by simp [accessTally, Tally.at]) rfl
  | PLX =>
    exact Makes.tallied ((pullReg_makes _ _).then fun _ _ => .pure (.none c))
      (by simp [accessTally, Tally.at]) rfl
  | PLY =>
    exact Makes.tallied ((pullReg_makes _ _).then fun _ _ => .pure (.none c))
      (by simp [accessTally, Tally.at]) rfl
  | PHB => exact Makes.tallied ((makes_push _ _).then fun _ _ => .pure (.none c)) rfl rfl
  | PHK => exact Makes.tallied ((makes_push _ _).then fun _ _ => .pure (.none c)) rfl rfl
  | PHP => exact Makes.tallied ((makes_push _ _).then fun _ _ => .pure (.none c)) rfl rfl
  | PHD => exact (pushReg_makes c _ true).tallied rfl rfl
  | PLB => exact Makes.tallied ((makes_pull _).then fun _ _ => .pure (.none c)) rfl rfl
  | PLP => exact Makes.tallied ((makes_pull _).then fun _ _ => .pure (.none c)) rfl rfl
  | PLD => exact Makes.tallied ((makes_pullw _).then fun _ _ => .pure (.none c)) rfl rfl
  | PEA =>
    refine Makes.tallied (n := 0 + 2) (k := 2) ?_ rfl rfl
    exact (makes_fetch16 c).bind fun p hp =>
      (pushReg_makes p.2 _ true).mono fun _ hc => hp.2.trans hc
  | PER =>
    refine Makes.tallied (n := 0 + 2) (k := 2) ?_ rfl rfl
    exact (makes_fetch16 c).bind fun p hp =>
      (pushReg_makes p.2 _ true).mono fun _ hc => hp.2.trans hc
  | PEI =>
    refine Makes.tallied (n := 0 + (2 + 2)) (k := 1) ?_ rfl rfl
    exact (makes_fetch8 c).bind fun p hp => (makes_rdBank0_16 _).bind fun _ _ =>
      (pushReg_makes p.2 _ true).mono fun _ hc => hp.2.trans hc
  | REP =>
    refine Makes.tallied (n := 0) (k := 1) ?_ rfl rfl
    exact (makes_fetch8 c).then fun p hp => .pure hp.2
  | SEP =>
    refine Makes.tallied (n := 0) (k := 1) ?_ rfl rfl
    exact (makes_fetch8 c).then fun p hp => .pure hp.2
  | WDM =>
    refine Makes.tallied (n := 0) (k := 1) ?_ rfl rfl
    exact (makes_fetch8 c).then fun p hp => .pure hp.2
  | MVN => exact (blockMove_makes c site _).tallied rfl rfl
  | MVP => exact (blockMove_makes c site _).tallied rfl rfl
  | NOP => exact Makes.tallied (.pure (.none c)) rfl rfl
  | WAI => exact (wai_makes h c hsys).tallied rfl rfl
  | JMP => exact jmp_tallied h c site md hsys
  | JML => exact jml_tallied h c site md hsys
  | JSR => exact jsr_tallied h c site md hsys
  | JSL => exact (jsl_makes h c site hsys).tallied rfl rfl
  | RTS => exact (rts_makes h c hsys).tallied rfl rfl
  | RTL => exact (rtl_makes h c hsys).tallied rfl rfl
  | RTI => exact (rti_makes h c hsys).tallied (by simp [accessTally, Tally.at]) rfl
  | BRK => exact Makes.tallied .fatal rfl rfl
  | COP => exact Makes.tallied .fatal rfl rfl
  | STP => exact Makes.tallied .fatal rfl rfl

end

end

end CtRecomp
