import CtRecomp.ChargeRun

namespace CtRecomp

/-! What holds of the register file between instructions: index registers of eight bits when they
are narrow, and in emulation mode narrow registers and a stack in page 1. -/

structure RegFile.Ranged (r : RegFile) : Prop where
  narrow : r.Narrow
  emulation : r.e = true → r.m = true ∧ r.x = true ∧ 0x0100 ≤ r.S ∧ r.S ≤ 0x01FF

/-- What `Ranged` is about. -/
def RegFile.frame (r : RegFile) : BitVec 16 × BitVec 16 × BitVec 16 × Bool × Bool × Bool :=
  (r.X, r.Y, r.S, r.m, r.x, r.e)

theorem RegFile.Ranged.of_frame {r r' : RegFile} (h : r.Ranged) (hf : r'.frame = r.frame) :
    r'.Ranged := by
  simp only [RegFile.frame, Prod.mk.injEq] at hf
  obtain ⟨hX, hY, hS, hm, hx, he⟩ := hf
  refine ⟨?_, ?_⟩
  · unfold RegFile.Narrow
    rw [hX, hY, hx]
    exact h.narrow
  · rw [hS, hm, hx, he]
    exact h.emulation

section

variable {r : RegFile} {v : BitVec 16}

theorem RegFile.Ranged.setX (h : r.Ranged) (hv : r.x = true → v < 0x100) :
    ({ r with X := v } : RegFile).Ranged :=
  ⟨fun hx => ⟨hv hx, (h.narrow hx).2⟩, h.emulation⟩

theorem RegFile.Ranged.setY (h : r.Ranged) (hv : r.x = true → v < 0x100) :
    ({ r with Y := v } : RegFile).Ranged :=
  ⟨fun hx => ⟨(h.narrow hx).1, hv hx⟩, h.emulation⟩

theorem RegFile.Ranged.setS (h : r.Ranged) (hv : r.e = true → 0x0100 ≤ v ∧ v ≤ 0x01FF) :
    ({ r with S := v } : RegFile).Ranged :=
  ⟨h.narrow, fun he => ⟨(h.emulation he).1, (h.emulation he).2.1, hv he⟩⟩

theorem and_ff_lt (v : BitVec 16) : v &&& 0xFF < 0x100 := by
  rw [and_ff, BitVec.lt_def, BitVec.toNat_setWidth]
  have hlow := (v.extractLsb' 0 8).isLt
  exact Nat.lt_of_le_of_lt (Nat.mod_le _ _) hlow

theorem setWidth_lt (v : BitVec 8) : v.setWidth 16 < 0x100 := by
  rw [← setWidth_and_ff]
  exact and_ff_lt _

/-- `0x0100 | (v & 0xFF)` is in page 1. -/
theorem page_one (v : BitVec 16) : 0x0100 ≤ 0x0100 ||| (v &&& 0xFF) ∧
    0x0100 ||| (v &&& 0xFF) ≤ (0x01FF : BitVec 16) := by
  rw [and_ff]
  generalize v.extractLsb' 0 8 = b
  revert b
  decide

theorem idx_lt (v : BitVec 16) (hx : r.x = true) : idx r v < 0x100 := by
  rw [idx, if_pos hx]
  exact and_ff_lt v

theorem nz_frame (v : BitVec 16) (wide : Bool) : (nz r v wide).frame = r.frame := by
  cases wide with
  | false => rfl
  | true => rfl

theorem setA_frame (v : BitVec 16) : (setA r v).frame = r.frame := by
  unfold setA
  split
  · rfl
  · rfl

theorem compare_frame (a v : BitVec 16) (wide : Bool) : (compare r a v wide).frame = r.frame :=
  (nz_frame _ _).trans rfl

theorem rmw_frame (op : Rmw) (v : BitVec 16) (wide : Bool) :
    (rmw r op v wide).2.frame = r.frame := (nz_frame _ _).trans rfl

theorem bitValue_frame (v : BitVec 16) (imm : Bool) : (bitValue r v imm).frame = r.frame := by
  cases imm with
  | false => rfl
  | true => rfl

theorem testValue_frame (v : BitVec 16) (reset : Bool) :
    (testValue r v reset).2.frame = r.frame := rfl

theorem setIndex_ranged (h : r.Ranged) (ix : Index) (hv : r.x = true → v < 0x100) :
    (setIndex r ix v).Ranged := by
  cases ix with
  | X => exact (h.setX hv).of_frame (nz_frame _ _)
  | Y => exact (h.setY hv).of_frame (nz_frame _ _)

theorem indexWidth_ranged (h : r.e = true → r.m = true ∧ r.x = true ∧ 0x0100 ≤ r.S ∧ r.S ≤ 0x01FF) :
    (indexWidth r).Ranged := by
  unfold indexWidth
  split
  · exact ⟨fun _ => ⟨and_ff_lt _, and_ff_lt _⟩, h⟩
  next hx => exact ⟨fun hx' => absurd hx' hx, h⟩

/-- Whatever P is loaded, narrow registers are cut and emulation mode keeps its widths. -/
theorem setP_ranged (h : r.Ranged) (p : BitVec 8) : (setP r p).Ranged := by
  refine indexWidth_ranged fun he => ⟨?_, ?_, (h.emulation he).2.2⟩
  · change (p.getLsbD 5 || r.e) = true
    rw [show r.e = true from he, Bool.or_true]
  · change (p.getLsbD 4 || r.e) = true
    rw [show r.e = true from he, Bool.or_true]

theorem unpackP_ranged (h : r.Ranged) (p : BitVec 8) : (unpackP r p).Ranged := by
  rw [unpackP_eq]
  exact setP_ranged h p

theorem exchangeCE_ranged (h : r.Ranged) : (exchangeCE r).Ranged := by
  unfold exchangeCE
  dsimp only
  split
  · exact ⟨fun _ => ⟨and_ff_lt _, and_ff_lt _⟩, fun _ => ⟨rfl, rfl, page_one _⟩⟩
  next hc => exact ⟨h.narrow, fun he => absurd he hc⟩

end

/-! Every value a computation on the bus can end with. -/

section

variable {σ α β : Type}

def Yields (x : BusM σ α) (P : α → Prop) : Prop := ∀ w a w', x w = some (a, w') → P a

theorem Makes.yields {n : Nat} {x : BusM σ α} {P : α → Prop} (h : Makes n x P) : Yields x P :=
  fun w a w' hrun => (h w a w' hrun).1

theorem Yields.pure {P : α → Prop} {a : α} (h : P a) : Yields (pure a : BusM σ α) P :=
  (Makes.pure h).yields

theorem Yields.fatal {P : α → Prop} : Yields (ctFatal : BusM σ α) P := by
  intro w a w' hrun
  cases hrun

theorem Yields.bind {x : BusM σ α} {f : α → BusM σ β} {P : α → Prop} {Q : β → Prop}
    (hx : Yields x P) (hf : ∀ a, P a → Yields (f a) Q) : Yields (x >>= f) Q := by
  intro w b w' hrun
  obtain ⟨⟨a, w₁⟩, ha, hb⟩ := Option.bind_eq_some_iff.mp hrun
  exact hf a (hx w a w₁ ha) w₁ b w' hb

theorem Yields.mono {x : BusM σ α} {P Q : α → Prop} (hx : Yields x P) (h : ∀ a, P a → Q a) :
    Yields x Q := fun w a w' hrun => h a (hx w a w' hrun)

theorem Yields.ite {c : Prop} [Decidable c] {x y : BusM σ α} {P : α → Prop}
    (hx : c → Yields x P) (hy : ¬c → Yields y P) : Yields (if c then x else y) P := by
  by_cases h : c
  · rw [if_pos h]
    exact hx h
  · rw [if_neg h]
    exact hy h

/-- What a computation does to memory and to no register. -/
theorem Yields.any (x : BusM σ α) : Yields x always := fun _ _ _ _ => trivial

end

theorem aluValue_frame {σ : Type} (r : RegFile) (kind : Nat) (v : BitVec 16) :
    Yields (aluValue r kind v : BusM σ RegFile) fun r' => r'.frame = r.frame := by
  have hset (r' : RegFile) (a : BitVec 16) (wide : Bool) (t : BitVec 16) :
      (setA (nz r' a wide) t).frame = r'.frame := (setA_frame _).trans (nz_frame _ _)
  have hadd (a b : BitVec 16) (wide : Bool) :
      Yields (add r a b wide : BusM σ _) fun p => p.2.frame = r.frame :=
    .ite (fun _ => .fatal) fun _ => .pure ((nz_frame _ _).trans rfl)
  unfold aluValue
  dsimp only
  split
  · exact .pure (hset _ _ _ _)
  · exact .pure (hset _ _ _ _)
  · exact .pure (hset _ _ _ _)
  · exact (hadd _ _ _).bind fun p hp => .pure ((setA_frame _).trans hp)
  · exact .pure (hset _ _ _ _)
  · exact .pure (compare_frame _ _ _)
  · exact (hadd _ _ _).bind fun p hp => .pure ((setA_frame _).trans hp)

section

variable {σ : Type} [Board σ]

/-- A pushed byte moves S inside its page, or anywhere in native mode. -/
theorem push8_ranged {r : RegFile} (h : r.Ranged) (v : BitVec 8) :
    Yields (push8 r v : BusM σ RegFile) fun r' => r'.Ranged ∧ r'.x = r.x := by
  refine (Yields.any _).bind fun _ _ => .pure ⟨h.setS fun he => ?_, rfl⟩
  rw [if_pos he]
  exact page_one _

theorem pull8_ranged {r : RegFile} (h : r.Ranged) :
    Yields (pull8 r : BusM σ _) fun p => p.2.Ranged ∧ p.2.x = r.x := by
  refine (Yields.any _).bind fun v _ => .pure ⟨h.setS fun he => ?_, rfl⟩
  rw [if_pos he]
  exact page_one _

theorem push16_ranged {r : RegFile} (h : r.Ranged) (v : BitVec 16) :
    Yields (push16 r v : BusM σ RegFile) fun r' => r'.Ranged ∧ r'.x = r.x :=
  (push8_ranged h _).bind fun _ hr => (push8_ranged hr.1 _).mono fun _ hr' =>
    ⟨hr'.1, hr'.2.trans hr.2⟩

theorem pull16_ranged {r : RegFile} (h : r.Ranged) :
    Yields (pull16 r : BusM σ _) fun p => p.2.Ranged ∧ p.2.x = r.x :=
  (pull8_ranged h).bind fun _ hr => (pull8_ranged hr.1).bind fun _ hr' =>
    .pure ⟨hr'.1, hr'.2.trans hr.2⟩

theorem push_ranged {r : RegFile} (h : r.Ranged) (v : BitVec 8) :
    Yields (push r v : BusM σ RegFile) fun r' => r'.Ranged ∧ r'.x = r.x := by
  rw [push_eq]
  exact push8_ranged h v

theorem pull_ranged {r : RegFile} (h : r.Ranged) :
    Yields (pull r : BusM σ _) fun p => p.2.Ranged ∧ p.2.x = r.x := by
  rw [pull_eq]
  exact pull8_ranged h

theorem pushw_ranged {r : RegFile} (h : r.Ranged) (v : BitVec 16) :
    Yields (pushw r v : BusM σ RegFile) fun r' => r'.Ranged ∧ r'.x = r.x := by
  rw [pushw_eq]
  exact push16_ranged h v

theorem pullw_ranged {r : RegFile} (h : r.Ranged) :
    Yields (pullw r : BusM σ _) fun p => p.2.Ranged ∧ p.2.x = r.x := by
  rw [pullw_eq]
  exact pull16_ranged h

/-! The interpreter's instructions. -/

/-- An operand of one byte is below 256. -/
theorem rd_yields (e : EA) (wide : Bool) :
    Yields (rd e wide : BusM σ (BitVec 16)) fun v => wide = false → v < 0x100 := by
  refine (Yields.any _).bind fun lo _ => .ite (fun hw => ?_) fun _ => .pure fun _ => setWidth_lt lo
  exact (Yields.any _).bind fun _ _ => .pure fun hn => absurd (hn.symm.trans hw) (by decide)

theorem operand_yields (c : Exec) (md : IMode) (wide : Bool) :
    Yields (operand c md wide : BusM σ _) fun p =>
      p.2.toRegFile = c.toRegFile ∧ (wide = false → p.1 < 0x100) := by
  refine .ite (fun _ => .ite (fun hw => ?_) fun _ => ?_) fun _ => ?_
  · exact (makes_fetch16 c).yields.mono fun _ hp =>
      ⟨hp.1, fun hn => absurd (hn.symm.trans hw) (by decide)⟩
  · exact (makes_fetch8 c).yields.bind fun p hp => .pure ⟨hp.1, fun _ => setWidth_lt p.1⟩
  · exact (makes_ea c md).yields.bind fun _ hp => (rd_yields _ _).bind fun _ hv => .pure ⟨hp.1, hv⟩

theorem fetch16_regs (c : Exec) :
    Yields (fetch16 c : BusM σ _) fun p => p.2.toRegFile = c.toRegFile :=
  (makes_fetch16 c).yields.mono fun _ hp => hp.1

/-- An instruction that reads its operand and goes on with the registers as they were. -/
theorem loaded_yields {c : Exec} (md : IMode) (wide : Bool) {f : BitVec 16 × Exec → BusM σ Exec}
    {P : Exec → Prop} (hf : ∀ p, p.2.toRegFile = c.toRegFile → (wide = false → p.1 < 0x100) →
      Yields (f p) P) : Yields (operand c md wide >>= f) P :=
  (operand_yields c md wide).bind fun p hp => hf p hp.1 hp.2

section

variable {h : Host σ} {c : Exec} (hc : c.toRegFile.Ranged)
include hc

theorem aluBy_ranged (kind : Nat) (md : IMode) :
    Yields (aluBy c kind md : BusM σ Exec) (·.toRegFile.Ranged) :=
  loaded_yields md _ fun _ hp _ => (aluValue_frame _ _ _).bind fun _ hr =>
    .pure (hc.of_frame (hr.trans (congrArg RegFile.frame hp)))

theorem rmwBy_ranged (op : Rmw) (md : AddrMode) :
    Yields (rmwBy c op md : BusM σ Exec) (·.toRegFile.Ranged) := by
  refine .ite (fun _ => .pure (hc.of_frame ((setA_frame _).trans (rmw_frame op _ _)))) fun _ => ?_
  exact (makes_ea c _).yields.bind fun _ hp => (Yields.any _).bind fun _ _ =>
    (Yields.any _).bind fun _ _ =>
      .pure (hc.of_frame ((rmw_frame op _ _).trans (congrArg RegFile.frame hp.1)))

theorem testBits_ranged (md : IMode) (reset : Bool) :
    Yields (testBits c md reset : BusM σ Exec) (·.toRegFile.Ranged) :=
  (makes_ea c md).yields.bind fun _ hp => (Yields.any _).bind fun _ _ =>
    (Yields.any _).bind fun _ _ =>
      .pure (hc.of_frame ((testValue_frame _ reset).trans (congrArg RegFile.frame hp.1)))

theorem bitTest_ranged (md : IMode) :
    Yields (bitTest c md : BusM σ Exec) (·.toRegFile.Ranged) :=
  loaded_yields md _ fun _ hp _ =>
    .pure (hc.of_frame ((bitValue_frame _ _).trans (congrArg RegFile.frame hp)))

theorem compareIndex_ranged (ix : Index) (md : IMode) :
    Yields (compareIndex c ix md : BusM σ Exec) (·.toRegFile.Ranged) :=
  loaded_yields md _ fun _ hp _ =>
    .pure (hc.of_frame ((compare_frame _ _ _).trans (congrArg RegFile.frame hp)))

/-- Stores leave the registers. -/
theorem stored_ranged {x : EA × Exec → BusM σ Unit} (md : IMode) :
    Yields (ea c md >>= fun p => x p >>= fun _ => pure p.2 : BusM σ Exec)
      (·.toRegFile.Ranged) :=
  (makes_ea c md).yields.bind fun _ hp => (Yields.any _).bind fun _ _ =>
    .pure (hc.of_frame (congrArg RegFile.frame hp.1))

theorem sta_ranged (md : IMode) : Yields (sta c md : BusM σ Exec) (·.toRegFile.Ranged) := by
  unfold sta
  split
  · exact Yields.fatal.bind fun _ hfalse => hfalse
  · exact stored_ranged hc md

theorem loadIndex_ranged (ix : Index) (md : IMode) :
    Yields (loadIndex c ix md : BusM σ Exec) (·.toRegFile.Ranged) := by
  refine loaded_yields md _ fun p hp hv => .pure ?_
  change (setIndex p.2.toRegFile ix p.1).Ranged
  rw [hp]
  exact setIndex_ranged hc ix fun hx => hv (by rw [hx]; rfl)

theorem pushReg_ranged (v : BitVec 16) (wide : Bool) :
    Yields (pushReg c v wide : BusM σ Exec) (·.toRegFile.Ranged) := by
  have hpush : Yields (if wide then pushw c.toRegFile v else
      push c.toRegFile (v.extractLsb' 0 8) : BusM σ RegFile) fun r => r.Ranged :=
    .ite (fun _ => (pushw_ranged hc v).mono fun _ hr => hr.1)
      fun _ => (push_ranged hc _).mono fun _ hr => hr.1
  exact hpush.bind fun _ hr => .pure hr

theorem pullReg_ranged (wide : Bool) :
    Yields (pullReg c.toRegFile wide : BusM σ _) fun p =>
      p.2.Ranged ∧ p.2.x = c.x ∧ (wide = false → p.1 < 0x100) :=
  .ite (fun hw => (pullw_ranged hc).mono fun _ hp =>
      ⟨hp.1, hp.2, fun hn => absurd (hn.symm.trans hw) (by decide)⟩)
    fun _ => (pull_ranged hc).bind fun p hp => .pure ⟨hp.1, hp.2, fun _ => setWidth_lt p.1⟩

theorem pullIndex_ranged (ix : Index) :
    Yields (do
      let (v, r) ← pullReg c.toRegFile (!c.x)
      return c.setRegs (setIndex r ix v) : BusM σ Exec) (·.toRegFile.Ranged) :=
  (pullReg_ranged hc _).bind fun p hp =>
    .pure (setIndex_ranged hp.1 ix fun hx => hp.2.2 (by rw [← hp.2.1, hx]; rfl))

theorem branch_ranged (site : BitVec 24) (cond : Bool) :
    Yields (branch c site cond : BusM σ Exec) (·.toRegFile.Ranged) := by
  have hsame {p : BitVec 8 × Exec} (hp : c.Reads 1 p.2) : p.2.toRegFile.Ranged :=
    hc.of_frame (congrArg RegFile.frame hp.1)
  refine (makes_fetch8 c).yields.bind fun p hp => .ite (fun _ => ?_) fun _ => .pure (hsame hp)
  exact (Yields.any _).bind fun _ _ => (Yields.any _).bind fun _ _ => .pure (hsame hp)

/-- The block moves cut the index registers they step. -/
theorem blockMove_ranged (site : BitVec 24) (step : BitVec 16) :
    Yields (blockMove c site step : BusM σ Exec) (·.toRegFile.Ranged) := by
  refine (makes_fetch8 c).yields.bind fun p hp => (makes_fetch8 p.2).yields.bind fun q hq => ?_
  have hr : q.2.toRegFile.Ranged := hc.of_frame (congrArg RegFile.frame (hq.1.trans hp.1))
  refine (Yields.any _).bind fun _ _ => (Yields.any _).bind fun _ _ => .pure ?_
  have hcut := indexWidth_ranged (r := { q.2.toRegFile with
    DB := p.1, X := q.2.X + step, Y := q.2.Y + step }) hr.emulation
  have hwidth (c : Exec) : (if c.x then { c with X := c.X &&& 0xFF, Y := c.Y &&& 0xFF } else c
      : Exec).toRegFile = indexWidth c.toRegFile := by
    unfold indexWidth
    split <;> rfl
  have hagain (c : Exec) (pc : BitVec 16) :
      (if c.A ≠ 0xFFFF then { c with PC := pc } else c : Exec).toRegFile = c.toRegFile := by
    split <;> rfl
  have hmoved {c : Exec} {r : RegFile} (h : c.toRegFile = r) (a : BitVec 16) :
      ({ c with A := a } : Exec).toRegFile.frame = r.frame := by
    rw [← h]
    rfl
  exact hcut.of_frame ((congrArg RegFile.frame (hagain _ _)).trans (hmoved (hwidth _) _))

theorem same_ranged {c' : Exec} (hr : c'.toRegFile = c.toRegFile) : c'.toRegFile.Ranged :=
  hc.of_frame (congrArg RegFile.frame hr)

omit [Board σ] in
/-- A fetch, then a computation that leaves the registers. -/
theorem jumped_ranged {α β : Type} {x : BusM σ (α × Exec)} {y : α × Exec → BusM σ β}
    {f : α × Exec → β → Exec} (hx : Yields x fun p => p.2.toRegFile = c.toRegFile)
    (hf : ∀ p b, (f p b).toRegFile = p.2.toRegFile) :
    Yields (x >>= fun p => y p >>= fun b => pure (f p b) : BusM σ Exec) (·.toRegFile.Ranged) :=
  hx.bind fun p hp => (Yields.any _).bind fun b _ => .pure (same_ranged hc ((hf p b).trans hp))

theorem pushed_ranged (v : BitVec 8) :
    Yields (do
      let r ← push c.toRegFile v
      return c.setRegs r : BusM σ Exec) (·.toRegFile.Ranged) :=
  (push_ranged hc v).bind fun _ hr => .pure hr.1

theorem jsr_ranged (hsys : h.sys = true) (site : BitVec 24) :
    Yields (jsr h c site : BusM σ Exec) (·.toRegFile.Ranged) := by
  refine (makes_fetch16 c).yields.bind fun p hp =>
    (pushw_ranged (same_ranged hc hp.1) _).bind fun r hr =>
    (externHook_makes h hsys _ _).yields.bind fun hook hnone => ?_
  rw [hnone]
  refine (enterShadow_makes h _ site hsys false).yields.bind fun c' hc' => .pure ?_
  rw [hc']
  exact hr.1

theorem jsl_ranged (hsys : h.sys = true) (site : BitVec 24) :
    Yields (jsl h c site : BusM σ Exec) (·.toRegFile.Ranged) := by
  refine (makes_fetch24 c).yields.bind fun p hp =>
    (push_ranged (same_ranged hc hp.1) _).bind fun r hr => (pushw_ranged hr.1 _).bind fun r hr =>
    (externHook_makes h hsys _ _).yields.bind fun hook hnone => ?_
  rw [hnone]
  refine (enterShadow_makes h _ site hsys true).yields.bind fun c' hc' => .pure ?_
  rw [hc']
  exact hr.1

theorem jml_ranged (hsys : h.sys = true) : Yields (jml h c : BusM σ Exec) (·.toRegFile.Ranged) := by
  refine (makes_fetch24 c).yields.bind fun p hp =>
    (externHook_makes h hsys _ _).yields.bind fun hook hnone => ?_
  rw [hnone]
  exact .pure (same_ranged hc hp.1)

theorem jmpTable_ranged (site : BitVec 24) :
    Yields (jmpTable h c site : BusM σ Exec) (·.toRegFile.Ranged) :=
  (Yields.any _).bind fun _ _ => jumped_ranged hc (fetch16_regs c) fun _ _ => rfl

theorem jsrTable_ranged (hsys : h.sys = true) (site : BitVec 24) :
    Yields (jsrTable h c site : BusM σ Exec) (·.toRegFile.Ranged) := by
  refine (makes_fetch16 c).yields.bind fun p hp =>
    (pushw_ranged (same_ranged hc hp.1) _).bind fun r hr => (Yields.any _).bind fun _ _ =>
    (enterShadow_makes h _ site hsys false).yields.bind fun c' hc' =>
    (Yields.any _).bind fun _ _ => .pure ?_
  rw [hc']
  exact hr.1

theorem rts_ranged (hsys : h.sys = true) : Yields (rts h c : BusM σ Exec) (·.toRegFile.Ranged) := by
  refine (pullw_ranged hc).bind fun p hp =>
    (leaveShadow_makes h _ hsys _).yields.mono fun c' hc' => ?_
  rw [hc']
  exact hp.1

theorem rtl_ranged (hsys : h.sys = true) : Yields (rtl h c : BusM σ Exec) (·.toRegFile.Ranged) := by
  refine (pullw_ranged hc).bind fun p hp => (pull_ranged hp.1).bind fun q hq =>
    (leaveShadow_makes h _ hsys _).yields.mono fun c' hc' => ?_
  rw [hc']
  exact hq.1

theorem rti_ranged (hsys : h.sys = true) : Yields (rti h c : BusM σ Exec) (·.toRegFile.Ranged) := by
  unfold rti
  rw [if_pos hsys]
  refine (pull_ranged hc).bind fun p hp =>
    (pullw_ranged (unpackP_ranged hp.1 p.1)).bind fun q hq => .ite (fun _ => .pure hq.1) fun _ => ?_
  exact (pull_ranged hq.1).bind fun t ht => .pure ht.1

/-- Every instruction of the interpreter in system mode. -/
theorem stepBy_ranged (hsys : h.sys = true) (site : BitVec 24) (mn : Mnemonic) (md : AddrMode) :
    Yields (stepBy h c site mn md) (·.toRegFile.Ranged) := by
  have hindex (ix : Index) (v : BitVec 16) : (setIndex c.toRegFile ix (idx c.toRegFile v)).Ranged :=
    setIndex_ranged hc ix (idx_lt v)
  have hkept {r : RegFile} (hr : r.frame = c.toRegFile.frame) : r.Ranged := hc.of_frame hr
  cases mn with
  | ORA | AND | EOR | ADC | LDA | CMP | SBC => exact aluBy_ranged hc _ _
  | STA => exact sta_ranged hc _
  | ASL | ROL | LSR | ROR | INC | DEC => exact rmwBy_ranged hc _ _
  | TSB | TRB => exact testBits_ranged hc _ _
  | BIT => exact bitTest_ranged hc _
  | LDX | LDY => exact loadIndex_ranged hc _ _
  | STX | STY | STZ => exact stored_ranged hc _
  | CPX | CPY => exact compareIndex_ranged hc _ _
  | INX | INY | DEX | DEY | TAX | TAY | TSX => exact .pure (hindex _ _)
  | TXY => exact .pure (setIndex_ranged hc .Y fun hx => (hc.narrow hx).1)
  | TYX => exact .pure (setIndex_ranged hc .X fun hx => (hc.narrow hx).2)
  | TXA | TYA => exact .pure (hkept ((nz_frame _ _).trans (setA_frame _)))
  | TXS | TCS =>
    refine .pure (hc.setS fun he => ?_)
    rw [if_pos he]
    exact page_one _
  | TCD | TDC | TSC | XBA => exact .pure (hkept ((nz_frame _ _).trans rfl))
  | CLC | SEC | CLI | SEI | CLD | SED | CLV => exact .pure (hkept rfl)
  | XCE => exact .pure (exchangeCE_ranged hc)
  | BPL | BMI | BVC | BVS | BCC | BCS | BNE | BEQ | BRA => exact branch_ranged hc site _
  | BRL => exact jumped_ranged hc (fetch16_regs c) fun _ _ => rfl
  | PHA | PHX | PHY | PHD => exact pushReg_ranged hc _ _
  | PLA =>
    exact (pullReg_ranged hc _).bind fun p hp =>
      .pure (hp.1.of_frame ((nz_frame _ _).trans (setA_frame _)))
  | PLX | PLY => exact pullIndex_ranged hc _
  | PHB | PHK | PHP => exact pushed_ranged hc _
  | PLB => exact (pull_ranged hc).bind fun p hp => .pure (hp.1.of_frame ((nz_frame _ _).trans rfl))
  | PLP => exact (pull_ranged hc).bind fun p hp => .pure (unpackP_ranged hp.1 p.1)
  | PLD => exact (pullw_ranged hc).bind fun p hp => .pure (hp.1.of_frame ((nz_frame _ _).trans rfl))
  | PEA | PER =>
    exact (makes_fetch16 c).yields.bind fun p hp => pushReg_ranged (same_ranged hc hp.1) _ _
  | PEI =>
    exact (makes_fetch8 c).yields.bind fun p hp => (Yields.any _).bind fun _ _ =>
      pushReg_ranged (same_ranged hc hp.1) _ _
  | REP | SEP =>
    exact (makes_fetch8 c).yields.bind fun p hp =>
      .pure (unpackP_ranged (same_ranged hc hp.1) _)
  | WDM => exact (makes_fetch8 c).yields.bind fun p hp => .pure (same_ranged hc hp.1)
  | NOP => exact .pure hc
  | MVN | MVP => exact blockMove_ranged hc site _
  | WAI => exact (Yields.ite (fun _ => .pure hc) fun _ => .fatal)
  | JMP =>
    unfold stepBy
    dsimp only
    split
    · exact jumped_ranged hc (fetch16_regs c) fun _ _ => rfl
    · exact jumped_ranged hc (fetch16_regs c) fun _ _ => rfl
    · exact jmpTable_ranged hc site
  | JML =>
    unfold stepBy
    dsimp only
    split
    · exact jml_ranged hc hsys
    · exact jumped_ranged hc (fetch16_regs c) fun _ _ => rfl
  | JSR =>
    unfold stepBy
    dsimp only
    split
    · exact jsr_ranged hc hsys site
    · exact jsrTable_ranged hc hsys site
  | JSL => exact jsl_ranged hc hsys site
  | RTS => exact rts_ranged hc hsys
  | RTL => exact rtl_ranged hc hsys
  | RTI => exact rti_ranged hc hsys
  | BRK | COP | STP => exact .fatal

theorem interpStep_ranged (h : Host σ) :
    Yields (interpStep h c) fun p => p.2.toRegFile.Ranged := by
  refine .ite (fun _ => .fatal) fun _ => (makes_fetch8 c).yields.bind fun p hp =>
    .ite (fun _ => .fatal) fun _ => (Yields.any _).bind fun cur _ => ?_
  have hstep : Yields (step { h with sys := true } { p.2 with fetched := [] } c.pbpc p.1)
      (·.toRegFile.Ranged) := by
    have heq := step_eq_stepBy { h with sys := true } { p.2 with fetched := [] } c.pbpc p.1.toFin
    change step { h with sys := true } { p.2 with fetched := [] } c.pbpc p.1 = _ at heq
    have hr : ({ p.2 with fetched := [] } : Exec).toRegFile.Ranged := same_ranged hc hp.1
    rw [heq]
    exact stepBy_ranged hr rfl c.pbpc _ _
  exact hstep.bind fun _ hr => .pure hr

/-- An interrupt's pushes; I and D are not of the frame. -/
theorem interpInterrupt_ranged (nmi : Bool) :
    Yields (interpInterrupt c nmi : BusM σ _) fun p => p.2.toRegFile.Ranged := by
  refine .ite (fun _ => .fatal) fun _ => (Yields.any _).bind fun cur _ => ?_
  have henter : Yields (enterVector c nmi : BusM σ Exec) (·.toRegFile.Ranged) :=
    (push_ranged hc _).bind fun r hr => (pushw_ranged hr.1 _).bind fun r hr =>
      (push_ranged hr.1 _).bind fun r hr => (Yields.any _).bind fun _ _ =>
      (Yields.any _).bind fun _ _ => .pure (hr.1.of_frame rfl)
  exact henter.bind fun _ hr => .pure hr

end

/-! Resets. -/

/-- `cpu_init` -/
def cpuInit : Cpu where
  A := 0
  X := 0
  Y := 0
  S := 0x01FF
  DP := 0
  DB := 0
  PB := 0
  PC := 0
  n := false
  v := false
  m := true
  x := false
  d := false
  i := true
  z := false
  c := false
  e := false

/-- `read8(0xFFFC) | read8(0xFFFD) << 8` -/
def resetVector : BusM σ (BitVec 16) := do
  let lo ← read8 0xFFFC
  let hi ← read8 0xFFFD
  return hi ++ lo

def interpReset (c : Exec) : BusM σ Exec := do
  let cpu := { cpuInit with
    e := true, m := true, x := true, i := true, d := false, S := 0x01FF, DP := 0, DB := 0, PB := 0 }
  let pc ← resetVector
  return { c with toCpu := { cpu with PC := pc }, waiting := false }

/-- What `soft_reset` does to the CPU. -/
def softResetCpu (c : Exec) : BusM σ Exec := do
  let c := { c with
    e := true, m := true, x := true, i := true, d := false, DB := 0, DP := 0, PB := 0
    X := c.X &&& 0xFF, Y := c.Y &&& 0xFF, S := 0x0100 ||| (c.S &&& 0xFF) }
  let pc ← resetVector
  return { c with PC := pc, waiting := false }

/-- Whatever the registers held. -/
theorem interpReset_ranged (c : Exec) :
    Yields (interpReset c : BusM σ Exec) (·.toRegFile.Ranged) :=
  (Yields.any _).bind fun _ _ => .pure
    ⟨fun _ => ⟨(by decide : (0 : BitVec 16) < 0x100), (by decide : (0 : BitVec 16) < 0x100)⟩,
      fun _ => ⟨rfl, rfl, (by decide : (0x0100 : BitVec 16) ≤ 0x01FF),
        (by decide : (0x01FF : BitVec 16) ≤ 0x01FF)⟩⟩

theorem softReset_ranged (c : Exec) :
    Yields (softResetCpu c : BusM σ Exec) (·.toRegFile.Ranged) :=
  (Yields.any _).bind fun _ _ => .pure
    ⟨fun _ => ⟨and_ff_lt _, and_ff_lt _⟩, fun _ => ⟨rfl, rfl, page_one _⟩⟩

end

end CtRecomp
