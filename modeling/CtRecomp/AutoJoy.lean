import CtRecomp.Bench
import CtRecomp.CatchUp

namespace CtRecomp

open Loop CatchUp

/-! The auto joypad read as a machine of its own, each step at its own clock, and the one
`autojoy_update` brings up to date. -/

structure JoyPart where
  busy : Bool
  on : Bool
  step : Nat
  start : Nat
  buttons : Vector (BitVec 16) 4
  joy : Vector (BitVec 16) 4
deriving DecidableEq

/-- `k` bits read so far, B first. -/
def JoyPart.shifted (p : JoyPart) (k : Nat) : Vector (BitVec 16) 4 :=
  p.buttons.map fun b : BitVec 16 => b >>> (16 - k)

/-- One step; step 1 looks whether the read is enabled. -/
def JoyPart.fire (enabled : Bool) (p : JoyPart) : JoyPart where
  busy := if p.step = 34 then false else if p.step = 1 then enabled else p.busy
  on := if p.step = 1 then enabled else p.on
  step := p.step + 1
  start := p.start
  buttons := p.buttons
  joy := if p.step = 1 then if enabled then Vector.replicate 4 0 else p.joy
    else if p.step ≥ 4 ∧ p.step % 2 = 0 ∧ p.on then p.shifted ((p.step - 4) / 2 + 1) else p.joy

def joyMachine : CatchUp Bool JoyPart where
  due p := if p.step ≤ 34 then some (p.start + 128 * p.step) else none
  step := JoyPart.fire
  left p := 35 - p.step
  falls p c enabled h := by
    split at h
    next hstep =>
      change 35 - (p.step + 1) < 35 - p.step
      omega
    next => cases h

def Regs.joyPart (r : Regs) : JoyPart :=
  ⟨r.autojoyBusy, r.autojoyOn, r.autojoyStep, r.autojoyStart, r.autojoyPad, r.joy⟩

/-- $4218-$421F: the results, low byte first. -/
def joyByte (joy : Vector (BitVec 16) 4) (reg : Fin 8) : BitVec 8 :=
  (if reg.val % 2 = 1 then joy[reg.val / 2] >>> 8 else joy[reg.val / 2]).setWidth 8

def joyRead (reg : Fin 8) (at' : Nat) (r : Regs) : BitVec 8 × Regs :=
  let r := autojoyUpdate at' r
  (joyByte r.joy reg, r)

def Regs.joyEnabled (r : Regs) : Bool := r.nmitimen &&& 1 ≠ 0

/-- What the read is about in the scheduler's registers. -/
def Regs.joyState (r : Regs) : BitVec 8 × JoyPart := (r.nmitimen, r.joyPart)

theorem joyState_nmitimen {r r' : Regs} (h : r.joyState = r'.joyState) : r.nmitimen = r'.nmitimen :=
  congrArg Prod.fst h

theorem joyState_part {r r' : Regs} (h : r.joyState = r'.joyState) : r.joyPart = r'.joyPart :=
  congrArg Prod.snd h

theorem joyState_enabled {r r' : Regs} (h : r.joyState = r'.joyState) :
    r.joyEnabled = r'.joyEnabled := by
  simp only [Regs.joyEnabled, joyState_nmitimen h]

/-- `autojoy_update` changes nothing else. -/
def JoyOnly (r r' : Regs) : Prop :=
  ∃ autojoyBusy autojoyOn autojoyStep joy, r' = { r with autojoyBusy, autojoyOn, autojoyStep, joy }

theorem autojoyStepAt_only (r : Regs) : JoyOnly r (autojoyStepAt r) := by
  unfold autojoyStepAt
  dsimp only
  split
  next => exact ⟨_, _, _, _, rfl⟩
  next =>
  split
  next => exact ⟨_, _, _, _, rfl⟩
  next => exact ⟨_, _, _, _, rfl⟩

theorem autojoyLoop_only (now n : Nat) (r : Regs) : JoyOnly r (autojoyLoop now n r) := by
  induction n generalizing r with
  | zero => exact ⟨_, _, _, _, rfl⟩
  | succ n ih =>
    unfold autojoyLoop
    split
    next =>
      obtain ⟨busy, on, step, joy, hone⟩ := autojoyStepAt_only r
      obtain ⟨busy', on', step', joy', hrest⟩ := ih (autojoyStepAt r)
      refine ⟨busy', on', step', joy', ?_⟩
      rw [hrest, hone]
    next => exact ⟨_, _, _, _, rfl⟩

theorem autojoyUpdate_only (now : Nat) (r : Regs) : JoyOnly r (autojoyUpdate now r) :=
  autojoyLoop_only now _ r

theorem JoyOnly.nmitimen {r r' : Regs} (h : JoyOnly r r') : r'.nmitimen = r.nmitimen := by
  obtain ⟨busy, on, step, joy, h⟩ := h
  rw [h]

theorem autojoyStepAt_joyPart (r : Regs) :
    (autojoyStepAt r).joyPart = r.joyPart.fire r.joyEnabled := by
  unfold autojoyStepAt
  by_cases h1 : r.autojoyStep = 1
  · simp [h1, Regs.joyPart, JoyPart.fire, Regs.joyEnabled]
  · by_cases h4 : r.autojoyStep ≥ 4 ∧ r.autojoyStep % 2 = 0 ∧ r.autojoyOn = true
    · simp [h1, h4, Regs.joyPart, JoyPart.fire, JoyPart.shifted]
    · simp only [h1, h4, Regs.joyPart, JoyPart.fire, if_false]

theorem autojoyLoop_joyPart (now n : Nat) (r : Regs) : (autojoyLoop now n r).joyPart =
    joyMachine.run (fun _ => r.joyEnabled) now n r.joyPart := by
  induction n generalizing r with
  | zero => rfl
  | succ n ih =>
    have henabled : (autojoyStepAt r).joyEnabled = r.joyEnabled := by
      simp only [Regs.joyEnabled, (autojoyStepAt_only r).nmitimen]
    unfold autojoyLoop CatchUp.run
    by_cases hdue : r.autojoyStep ≤ 34
    · have hsome : joyMachine.due r.joyPart = some (r.autojoyStart + 128 * r.autojoyStep) :=
        if_pos hdue
      rw [hsome]
      by_cases hnow : r.autojoyStart + 128 * r.autojoyStep ≤ now
      · rw [if_pos ⟨hdue, hnow⟩, ih, henabled, autojoyStepAt_joyPart]
        exact (if_pos hnow).symm
      · rw [if_neg fun h => hnow h.2]
        exact (if_neg hnow).symm
    · have hnone : joyMachine.due r.joyPart = none := if_neg hdue
      rw [hnone, if_neg fun h => hdue h.1]

/-- `autojoy_update` catches the machine up with the enable bit it finds. -/
theorem autojoyUpdate_joyPart (now : Nat) (r : Regs) : (autojoyUpdate now r).joyPart =
    joyMachine.upTo (fun _ => r.joyEnabled) now r.joyPart := autojoyLoop_joyPart now _ r

theorem autojoyUpdate_joyState (now : Nat) {r r' : Regs} (h : r.joyState = r'.joyState) :
    (autojoyUpdate now r).joyState = (autojoyUpdate now r').joyState := by
  refine Prod.ext ?_ ?_
  · simp only [Regs.joyState, (autojoyUpdate_only now _).nmitimen, joyState_nmitimen h]
  · simp only [Regs.joyState, autojoyUpdate_joyPart, joyState_enabled h, joyState_part h]

/-! What the machine does from its arming on. -/

section Machine

variable {enabled enabled' : Nat → Bool} {now : Nat} {p : JoyPart}

/-- Where the machine armed as `p` stands; `on` was the enable bit at step 1. -/
structure JoyPart.From (p : JoyPart) (on : Bool) (now : Nat) (q : JoyPart) : Prop where
  start : q.start = p.start
  buttons : q.buttons = p.buttons
  step : q.step ≤ 35
  begun : q.step ≠ 0 → p.start + 128 * (q.step - 1) ≤ now
  before : q.step ≤ 1 → q.busy = p.busy ∧ q.joy = p.joy
  enabled : 2 ≤ q.step → q.on = on ∧ q.busy = (on && decide (q.step ≤ 34))
  joy : 2 ≤ q.step → q.joy = if on then p.shifted ((q.step - 1) / 2 - 1) else p.joy

theorem JoyPart.shifted_zero (p : JoyPart) : p.shifted 0 = Vector.replicate 4 0 := by
  ext i hi
  simp [JoyPart.shifted]

theorem JoyPart.shifted_all (p : JoyPart) : p.shifted 16 = p.buttons := by
  ext i hi
  simp [JoyPart.shifted]

theorem JoyPart.From.fire {on : Bool} {q : JoyPart} (h : p.From on now q) (hstep : q.step ≤ 34)
    (hdue : q.start + 128 * q.step ≤ now) (hon : q.step = 1 → enabled (q.start + 128) = on) :
    p.From on now (q.fire (enabled (q.start + 128 * q.step))) := by
  have hstart := h.start
  refine ⟨hstart, h.buttons, ?_, fun _ => ?_, fun hq => ?_, fun hq => ?_, fun hq => ?_⟩
  · exact Nat.succ_le_succ hstep
  · change p.start + 128 * (q.step + 1 - 1) ≤ now
    omega
  · have h0 : q.step = 0 := by
      have hq : q.step + 1 ≤ 1 := hq
      omega
    have hbefore := h.before (by omega)
    simp [JoyPart.fire, h0, hbefore]
  · by_cases h1 : q.step = 1
    · have heq := hon h1
      simp [JoyPart.fire, h1, heq]
    · have hq : 2 ≤ q.step + 1 := hq
      obtain ⟨hqon, hbusy⟩ := h.enabled (by omega)
      refine ⟨?_, ?_⟩
      · simp [JoyPart.fire, h1, hqon]
      · by_cases h34 : q.step = 34
        · simp [JoyPart.fire, h34]
        · have hnext : q.step + 1 ≤ 34 := by omega
          change (if q.step = 34 then false else if q.step = 1 then _ else q.busy) =
            (on && decide (q.step + 1 ≤ 34))
          rw [if_neg h34, if_neg h1, hbusy, decide_eq_true hstep, decide_eq_true hnext]
  · by_cases h1 : q.step = 1
    · have heq := hon h1
      simp [JoyPart.fire, h1, heq, JoyPart.shifted_zero, h.before (by omega)]
    · have hq : 2 ≤ q.step + 1 := hq
      obtain ⟨hqon, -⟩ := h.enabled (by omega)
      have hjoy := h.joy (by omega)
      have hbuttons : ∀ k, q.shifted k = p.shifted k := by
        intro k
        simp only [JoyPart.shifted, h.buttons]
      simp only [JoyPart.fire, h1, if_false, hqon, hjoy, hbuttons, Nat.add_sub_cancel]
      cases on with
      | false => simp
      | true =>
        by_cases h4 : q.step ≥ 4 ∧ q.step % 2 = 0
        · have hk : (q.step - 4) / 2 + 1 = q.step / 2 - 1 := by omega
          simp [h4, hk]
        · have hk : (q.step - 1) / 2 - 1 = q.step / 2 - 1 := by omega
          rw [if_neg fun h => h4 ⟨h.1, h.2.1⟩, if_pos rfl, if_pos rfl, hk]

/-- Up to any clock: step 1 decides, and busy ends with the last bit, at step 34. -/
theorem joyMachine_from (hp : p.step = 0) :
    p.From (enabled (p.start + 128)) now (joyMachine.upTo enabled now p) := by
  refine upTo_invariant (P := p.From (enabled (p.start + 128)) now) ?_ (fun q c hq hc hnow => ?_)
  · refine ⟨rfl, rfl, by omega, fun h => absurd hp h, fun _ => ⟨rfl, rfl⟩, fun h => ?_, fun h => ?_⟩
    · omega
    · omega
  · change (if q.step ≤ 34 then some (q.start + 128 * q.step) else none) = some c at hc
    split at hc
    next hstep =>
      cases hc
      exact hq.fire hstep hnow fun _ => by rw [hq.start]
    next => cases hc

/-- Inputs that agree where step 1 looks. -/
theorem joyMachine_congr (h : p.step ≤ 1 → p.start + 128 ≤ now →
    enabled (p.start + 128) = enabled' (p.start + 128)) :
    joyMachine.upTo enabled now p = joyMachine.upTo enabled' now p := by
  refine upTo_congr (fun q => q.start = p.start ∧ p.step ≤ q.step) ⟨rfl, Nat.le_refl _⟩
    (fun q c hq hc hnow => ?_)
  change (if q.step ≤ 34 then some (q.start + 128 * q.step) else none) = some c at hc
  split at hc
  next hstep =>
    cases hc
    refine ⟨?_, hq.1, Nat.le_succ_of_le hq.2⟩
    change q.fire _ = q.fire _
    by_cases h1 : q.step = 1
    · rw [h1, hq.1] at hnow ⊢
      rw [h (by omega) hnow]
    · unfold JoyPart.fire
      simp only [h1, if_false]
  next => cases hc

variable (enabled now p) in
/-- Steps only go on. -/
theorem joyMachine_grows : (joyMachine.upTo enabled now p).start = p.start ∧
    p.step ≤ (joyMachine.upTo enabled now p).step := by
  refine upTo_invariant (P := fun q : JoyPart => q.start = p.start ∧ p.step ≤ q.step) ⟨rfl, Nat.le_refl _⟩
    (fun q c hq hc hnow => ?_)
  exact ⟨hq.1, Nat.le_succ_of_le hq.2⟩

variable (enabled now) in
/-- The read happens if and only if it is enabled at step 1; once step 34 is over the results
are the buttons armed with. -/
theorem joyMachine_read (hp : p.step = 0) :
    (now < p.start + 128 → (joyMachine.upTo enabled now p).busy = p.busy ∧
      (joyMachine.upTo enabled now p).joy = p.joy) ∧
    (p.start + 128 ≤ now →
      (joyMachine.upTo enabled now p).busy =
        (enabled (p.start + 128) && decide (now < p.start + 128 * 34)) ∧
      (enabled (p.start + 128) = false → (joyMachine.upTo enabled now p).joy = p.joy) ∧
      (enabled (p.start + 128) = true → p.start + 128 * 34 ≤ now →
        (joyMachine.upTo enabled now p).joy = p.buttons)) := by
  have hfrom : p.From (enabled (p.start + 128)) now (joyMachine.upTo enabled now p) :=
    joyMachine_from hp
  have hlater : (joyMachine.upTo enabled now p).step ≤ 34 →
      now < p.start + 128 * (joyMachine.upTo enabled now p).step := by
    intro hstep
    have hdue : joyMachine.due (joyMachine.upTo enabled now p) =
        some ((joyMachine.upTo enabled now p).start + 128 * (joyMachine.upTo enabled now p).step) :=
      if_pos hstep
    have hnow := upTo_later _ hdue
    rw [hfrom.start] at hnow
    exact hnow
  obtain ⟨-, -, hmost, hbegun, hbefore, henabled, hjoy⟩ := hfrom
  generalize joyMachine.upTo enabled now p = q at *
  refine ⟨fun hearly => hbefore ?_, fun hlate => ?_⟩
  · refine Nat.le_of_not_lt fun hstep => ?_
    have hreached := hbegun (by omega)
    omega
  · have hstep : 2 ≤ q.step := by
      refine Nat.le_of_not_lt fun hfew => ?_
      have hnow := hlater (by omega)
      omega
    refine ⟨?_, fun hoff => ?_, fun hon hover => ?_⟩
    · rw [(henabled hstep).2]
      congr 1
      refine decide_eq_decide.mpr ⟨fun hfew => ?_, fun hnow => ?_⟩
      · have hnow := hlater hfew
        omega
      · have hreached := hbegun (by omega)
        omega
    · rw [hjoy hstep, hoff, if_neg Bool.false_ne_true]
    · have hall : q.step = 35 := by
        refine Nat.le_antisymm hmost (Nat.le_of_not_lt fun hfew => ?_)
        have hnow := hlater (by omega)
        omega
      rw [hjoy hstep, hon, if_pos rfl, hall]
      exact p.shifted_all

end Machine

/-! Runs: what $4200 held, and the machine last armed. -/

/-- Bit 0 of $4200 as it stands when clock `c` is reached. -/
def enabledAt : List SchedEvent → Nat → Bool
  | [], _ => false
  | .access t (.nmitimen _ _ v) :: tr, c => if t < c then v &&& 1 ≠ 0 else enabledAt tr c
  | _ :: tr, c => enabledAt tr c

/-- The line 225 begun last. -/
def lastArmed : List SchedEvent → Option (Clock × Regs)
  | [] => none
  | .begun clk regs :: tr =>
    if clk.line = schedVblankLine then some (clk, regs) else lastArmed tr
  | .access _ _ :: tr => lastArmed tr

/-- The machine as armed last, or as it was at power-on or reset. -/
def joyFrom : List SchedEvent → Option JoyPart
  | [] => none
  | .begun clk regs :: tr =>
    if clk.line = schedVblankLine then some regs.joyPart else some ((joyFrom tr).getD regs.joyPart)
  | .access _ _ :: tr => joyFrom tr

/-- Step 1's clock, where line 225 begins at `lineStart`. -/
def joyPoint (lineStart : Nat) : Nat := (lineStart + 130 + 255) / 256 * 256

/-- Where the line 225 to come begins. -/
def Clock.nextVblank (c : Clock) : Nat :=
  lineBegin ((if c.line < schedVblankLine then c.frames else c.frames + 1) - c.fieldBase)
    schedVblankLine

def JoyPart.arm (lineStart : Nat) (pad : Vector (BitVec 16) 4) (p : JoyPart) : JoyPart :=
  { p with step := 0, start := joyPoint lineStart - 128, buttons := pad }

/-- The machine at clock `t`, every step run at its own clock: also past a start of line 225
that `advance` has still to come to. -/
def eagerJoy {δ : Type} (tr : List SchedEvent) (s : Sched δ) (t : Nat) : Option JoyPart :=
  (joyFrom tr).map fun p =>
    let p := joyMachine.upTo (enabledAt tr) t p
    if t < s.clk.nextVblank then p
    else joyMachine.upTo (enabledAt tr) t (p.arm s.clk.nextVblank s.regs.pad)

theorem lastArmed_joyFrom {tr : List SchedEvent} {clk : Clock} {regs : Regs}
    (h : lastArmed tr = some (clk, regs)) : joyFrom tr = some regs.joyPart := by
  induction tr with
  | nil => cases h
  | cons e tr ih =>
    cases e with
    | access t a => exact ih h
    | begun clk' regs' =>
      unfold lastArmed at h
      unfold joyFrom
      by_cases hline : clk'.line = schedVblankLine
      · rw [if_pos hline] at h
        cases h
        exact if_pos hline
      · rw [if_neg hline] at h
        rw [if_neg hline, ih h, Option.getD_some]

/-- A $4200 write that changes bit 0 comes before step 1's clock, unless step 1 has been run:
of the read armed last, and of the one that the next line 225 arms. -/
def joyGood {δ : Type} (_tr : List SchedEvent) (s : Sched δ) (at' : Nat) : RegAccess → Prop
  | .nmitimen _ _ v => decide (v &&& 1 ≠ 0) = s.regs.joyEnabled ∨
      ((s.regs.autojoyStep ≤ 1 → at' < s.regs.autojoyStart + 128) ∧ at' < joyPoint s.clk.nextVblank)
  | .autojoy now => now = at'
  | _ => True

/-- The machine last armed and the scheduler's agree up to a clock gone by, and $4200 holds
what the steps to come will find. -/
structure JoyKept {δ : Type} (tr : List SchedEvent) (s : Sched δ) : Prop where
  caught : ∃ armed u, joyFrom tr = some armed ∧
    s.regs.joyPart = joyMachine.upTo (enabledAt tr) u armed ∧
    (u ≤ s.clk.now ∨ ∃ a, SchedEvent.access u a ∈ tr)
  pending : s.regs.autojoyStep ≤ 1 →
    enabledAt tr (s.regs.autojoyStart + 128) = s.regs.joyEnabled
  coming : ∀ c, joyPoint s.clk.nextVblank ≤ c → enabledAt tr c = s.regs.joyEnabled
  armed : ∀ clk regs, lastArmed tr = some (clk, regs) → regs.autojoyStep = 0 ∧
    regs.autojoyStart + 128 = joyPoint clk.lineStart ∧ regs.autojoyPad = regs.pad

section Kept

variable {δ : Type} {D : Devices δ} {tr : List SchedEvent} {s s' : Sched δ}

/-- The enable bit there is now is the one the steps due find. -/
theorem JoyKept.now (h : JoyKept tr s) (t : Nat) :
    joyMachine.upTo (fun _ => s.regs.joyEnabled) t s.regs.joyPart =
      joyMachine.upTo (enabledAt tr) t s.regs.joyPart :=
  joyMachine_congr fun hstep _ => (h.pending hstep).symm

/-- Brought up to date at `t`, it agrees up to `t`. -/
theorem JoyKept.updated (h : JoyKept tr s) (t : Nat) : ∃ armed u, joyFrom tr = some armed ∧
    (autojoyUpdate t s.regs).joyPart = joyMachine.upTo (enabledAt tr) u armed ∧ t ≤ u ∧
    (u = t ∨ u ≤ s.clk.now ∨ ∃ a, SchedEvent.access u a ∈ tr) := by
  obtain ⟨armed, u, harmed, hpart, hu⟩ := h.caught
  rw [autojoyUpdate_joyPart, h.now, hpart]
  rcases Nat.le_total u t with hle | hle
  · exact ⟨armed, t, harmed, upTo_upTo hle, Nat.le_refl _, .inl rfl⟩
  · exact ⟨armed, u, harmed, upTo_past hle, hle, .inr hu⟩

/-- Nothing about the read changes. -/
theorem JoyKept.same (h : JoyKept tr s) (hregs : s'.regs.joyState = s.regs.joyState)
    (hnow : s.clk.now ≤ s'.clk.now) (hnext : s'.clk.nextVblank = s.clk.nextVblank) :
    JoyKept tr s' := by
  have hpart := joyState_part hregs
  have henabled := joyState_enabled hregs
  have hstep : s'.regs.autojoyStep = s.regs.autojoyStep := congrArg JoyPart.step hpart
  have hstart : s'.regs.autojoyStart = s.regs.autojoyStart := congrArg JoyPart.start hpart
  obtain ⟨armed, u, harmed, hcaught, hu⟩ := h.caught
  refine ⟨⟨armed, u, harmed, hpart.trans hcaught, ?_⟩, ?_, ?_, h.armed⟩
  · exact hu.imp_left fun hle => Nat.le_trans hle hnow
  · rw [hstep, hstart, henabled]
    exact h.pending
  · rw [hnext, henabled]
    exact h.coming

/-- An access that is no $4200 write leaves the record of $4200 alone. -/
theorem JoyKept.record (h : JoyKept tr s) {e : SchedEvent} (henabled : enabledAt (e :: tr) = enabledAt tr)
    (hfrom : joyFrom (e :: tr) = joyFrom tr) (hlast : lastArmed (e :: tr) = lastArmed tr) :
    JoyKept (e :: tr) s := by
  obtain ⟨armed, u, harmed, hcaught, hu⟩ := h.caught
  refine ⟨⟨armed, u, hfrom.trans harmed, by rw [henabled]; exact hcaught, ?_⟩, ?_, ?_, ?_⟩
  · exact hu.imp_right fun ⟨a, ha⟩ => ⟨a, List.mem_cons_of_mem _ ha⟩
  · rw [henabled]
    exact h.pending
  · rw [henabled]
    exact h.coming
  · rw [hlast]
    exact h.armed

theorem nextVblank_same {c c' : Clock} (h : SameLine c c') : c'.nextVblank = c.nextVblank := by
  simp only [Clock.nextVblank, h.line, h.frames, h.fieldBase]

/-- Brought up to date at `t`, a clock gone by. -/
theorem JoyKept.update (h : JoyKept tr s) {t : Nat}
    (hregs : s'.regs.joyState = (autojoyUpdate t s.regs).joyState)
    (hnow : s.clk.now ≤ s'.clk.now) (hnext : s'.clk.nextVblank = s.clk.nextVblank)
    (ht : t ≤ s'.clk.now ∨ ∃ a, SchedEvent.access t a ∈ tr) : JoyKept tr s' := by
  have hpart := joyState_part hregs
  have henabled : s'.regs.joyEnabled = s.regs.joyEnabled := by
    rw [joyState_enabled hregs]
    simp only [Regs.joyEnabled, (autojoyUpdate_only t s.regs).nmitimen]
  obtain ⟨armed, u, harmed, hcaught, -, hu⟩ := h.updated t
  refine ⟨⟨armed, u, harmed, hpart.trans hcaught, ?_⟩, fun hstep => ?_, ?_, h.armed⟩
  · rcases hu with rfl | hu | hu
    · exact ht
    · exact .inl (Nat.le_trans hu hnow)
    · exact .inr hu
  · obtain ⟨hstart, hgrows⟩ := joyMachine_grows (fun _ => s.regs.joyEnabled) t s.regs.joyPart
    rw [← autojoyUpdate_joyPart, ← hpart] at hstart hgrows
    have hstart' : s'.regs.autojoyStart = s.regs.autojoyStart := hstart
    have hgrows' : s.regs.autojoyStep ≤ s'.regs.autojoyStep := hgrows
    rw [hstart', henabled]
    exact h.pending (Nat.le_trans hgrows' hstep)
  · rw [hnext, henabled]
    exact h.coming

/-- A $4200 write after everything so far. -/
theorem JoyKept.write (h : JoyKept tr s) {t : Nat} {inProgress : Bool} {busN : Nat} {v : BitVec 8}
    (hclk : s'.clk = s.clk) (hregs : s'.regs = nmitimenWrite inProgress busN v s.regs)
    (hlater : s.clk.now ≤ t) (horder : InOrder tr t)
    (hgood : joyGood tr s t (.nmitimen inProgress busN v)) :
    JoyKept (.access t (.nmitimen inProgress busN v) :: tr) s' := by
  have hpart : s'.regs.joyPart = s.regs.joyPart := by
    rw [hregs, nmitimenWrite]
    dsimp only
    split
    next => rfl
    next => rfl
  have henabled : s'.regs.joyEnabled = decide (v &&& 1 ≠ 0) := by
    rw [hregs, nmitimenWrite]
    dsimp only
    split
    next => rfl
    next => rfl
  have hstep : s'.regs.autojoyStep = s.regs.autojoyStep := congrArg JoyPart.step hpart
  have hstart : s'.regs.autojoyStart = s.regs.autojoyStart := congrArg JoyPart.start hpart
  have hrecord (c : Nat) : enabledAt (.access t (.nmitimen inProgress busN v) :: tr) c =
      if t < c then decide (v &&& 1 ≠ 0) else enabledAt tr c := rfl
  obtain ⟨armed, u, harmed, hcaught, hu⟩ := h.caught
  have hut : u ≤ t := by
    rcases hu with hu | ⟨a, ha⟩
    · exact Nat.le_trans hu hlater
    · exact horder u a ha
  refine ⟨⟨armed, u, harmed, ?_, ?_⟩, fun hfew => ?_, fun c hc => ?_, h.armed⟩
  · rw [hpart, hcaught]
    refine joyMachine_congr fun _ hdue => ?_
    rw [hrecord, if_neg (by omega)]
  · rw [hclk]
    exact hu.imp_right fun ⟨a, ha⟩ => ⟨a, List.mem_cons_of_mem _ ha⟩
  · rw [hstep] at hfew
    rw [hrecord, hstart, henabled]
    rcases hgood with hsame | ⟨hbefore, -⟩
    · split
      next => rfl
      next => rw [h.pending hfew, hsame]
    · rw [if_pos (hbefore hfew)]
  · rw [hclk] at hc
    rw [hrecord, henabled]
    rcases hgood with hsame | ⟨-, hbefore⟩
    · split
      next => rfl
      next => rw [h.coming c hc, hsame]
    · rw [if_pos (Nat.lt_of_lt_of_le hbefore hc)]

theorem newFrame_joyState (line : Nat) (r : Regs) : (r.newFrame line).joyState = r.joyState := by
  unfold Regs.newFrame
  split
  next => rfl
  next => rfl

/-- A line other than 225 begun. -/
theorem lineBegun_joyState {before : Regs} (h : LineBegun Regs.joyState before s)
    (hline : s.clk.line ≠ schedVblankLine) :
    s.regs.joyState = (autojoyUpdate s.clk.lineStart before).joyState := by
  obtain ⟨ended, called, hended, hcalled, hregs, -⟩ := h
  rw [Regs.vblankArmed, if_neg hline] at hregs
  rw [newFrame_joyState, hended] at hcalled
  exact hregs.trans (autojoyUpdate_joyState _ hcalled)

theorem autojoyUpdate_early {t : Nat} {r : Regs}
    (h : r.autojoyStep ≤ 34 → t < r.autojoyStart + 128 * r.autojoyStep) :
    autojoyUpdate t r = r := by
  unfold autojoyUpdate
  cases 35 - r.autojoyStep with
  | zero => rfl
  | succ n => exact if_neg fun hdue => Nat.not_le_of_lt (h hdue.1) hdue.2

/-- No step is due where the read is armed. -/
theorem autojoyUpdate_armed (t : Nat) (r : Regs) :
    autojoyUpdate t (autojoyArm t r) = autojoyArm t r := by
  refine autojoyUpdate_early fun _ => ?_
  change t < (t + 130 + 255) / 256 * 256 - 128 + 128 * 0
  omega

/-- Line 225 begun. -/
theorem lineBegun_armed {before : Regs} (h : LineBegun Regs.joyState before s)
    (hline : s.clk.line = schedVblankLine) : s.regs.joyEnabled = before.joyEnabled ∧
      ∃ called, s.regs = autojoyArm s.clk.lineStart called := by
  obtain ⟨ended, called, hended, hcalled, -, hregs⟩ := h
  have hnow := hregs (by rw [hline]; decide)
  rw [Regs.vblankArmed, if_pos hline, autojoyUpdate_armed] at hnow
  rw [newFrame_joyState, hended] at hcalled
  refine ⟨?_, called, hnow⟩
  rw [hnow]
  have hcalled := joyState_enabled hcalled
  exact hcalled

theorem joyPoint_mono {a b : Nat} (h : a ≤ b) : joyPoint a ≤ joyPoint b :=
  Nat.mul_le_mul_right _ (Nat.div_le_div_right (by omega))

theorem joyPoint_later (lineStart : Nat) : lineStart + 128 < joyPoint lineStart := by
  unfold joyPoint
  omega

theorem nextVblank_entered {c c' : Clock} (he : LineEnded c c') (hin : c'.InRaster)
    (hline : c'.line = schedVblankLine) : c.nextVblank = c'.lineStart := by
  have hnext := he.line
  have hframes := he.frames
  split at hnext
  next =>
    rw [hline] at hnext
    cases hnext
  next hlast =>
    rw [if_neg hlast] at hframes
    have hbefore : c.line < schedVblankLine := by omega
    rw [hin.lineStart, hline, hframes, he.fieldBase, Clock.nextVblank, if_pos hbefore]

theorem nextVblank_passed {c c' : Clock} (he : LineEnded c c')
    (hline : c'.line ≠ schedVblankLine) : c'.nextVblank = c.nextVblank := by
  have hnext := he.line
  have hframes := he.frames
  unfold Clock.nextVblank
  rw [he.fieldBase]
  split at hnext
  next hlast =>
    have hlow : c'.line < schedVblankLine := by
      rw [hnext]
      decide
    have hhigh : ¬c.line < schedVblankLine := by
      simp only [schedLines, schedVblankLine] at hlast ⊢
      omega
    rw [if_pos hlow, if_neg hhigh, hframes, if_pos hlast]
  next hlast =>
    rw [hframes, if_neg hlast, hnext]
    rw [hnext] at hline
    by_cases hlow : c.line < schedVblankLine
    · rw [if_pos hlow, if_pos (by omega)]
    · rw [if_neg hlow, if_neg (by omega)]

/-- Where line 225 begins the next one is further on. -/
theorem lineStart_le_nextVblank {c : Clock} (hin : c.InRaster) (hline : c.line = schedVblankLine) :
    c.lineStart ≤ c.nextVblank := by
  have hhigh : ¬c.line < schedVblankLine := by omega
  have hbase := hin.fieldBase
  rw [hin.lineStart, hline, Clock.nextVblank, if_neg hhigh]
  simp only [lineBegin, frameStart]
  split <;> split <;> omega

/-- Timing starts with no read under way. -/
theorem JoyKept.start (hline : s.clk.line = 0) (hstep : s.regs.autojoyStep = 35)
    (hoff : s.regs.nmitimen = 0) : JoyKept [.begun s.clk s.regs] s := by
  have hnot : s.clk.line ≠ schedVblankLine := by
    rw [hline]
    decide
  have hfrom : joyFrom [.begun s.clk s.regs] = some s.regs.joyPart := if_neg hnot
  have hlast : lastArmed [.begun s.clk s.regs] = none := if_neg hnot
  refine ⟨⟨_, 0, hfrom, ?_, .inl (Nat.zero_le _)⟩, fun hfew => ?_, fun c _ => ?_, ?_⟩
  · have hnone : joyMachine.due s.regs.joyPart = none := if_neg (by
      change ¬s.regs.autojoyStep ≤ 34
      omega)
    exact (upTo_none hnone).symm
  · omega
  · rw [Regs.joyEnabled, hoff]
    rfl
  · intro clk regs h
    rw [hlast] at h
    cases h

theorem JoyKept.begin {before : Sched δ} (hline : before.clk.line = 0)
    (hstep : before.regs.autojoyStep = 35) (hoff : before.regs.nmitimen = 0)
    (hD : D.Leaves Regs.joyState) (h : beginLine D before = .ok s) :
    JoyKept [.begun s.clk s.regs] s := by
  obtain ⟨irqAt, hc⟩ := beginLine_clk h
  have hzero : s.clk.line = 0 := by
    rw [hc]
    exact hline
  have hregs := lineBegun_joyState (beginLine_begun hD rfl h) (by rw [hzero]; decide)
  have hsame : autojoyUpdate s.clk.lineStart before.regs = before.regs :=
    autojoyUpdate_early fun hfew => by omega
  rw [hsame] at hregs
  refine .start hzero ?_ ?_
  · exact (congrArg JoyPart.step (joyState_part hregs)).trans hstep
  · exact (joyState_nmitimen hregs).trans hoff

/-- A line's end. -/
theorem JoyKept.lineEnd (h : JoyKept tr s) (hin : s'.clk.InRaster) (he : LineEnded s.clk s'.clk)
    (hb : LineBegun Regs.joyState s.regs s') : JoyKept (.begun s'.clk s'.regs :: tr) s' := by
  have hover := he.reached
  have hnow : s'.clk.now = s.clk.now := by
    unfold Clock.now
    rw [he.lineStart, he.hclock]
    omega
  by_cases hline : s'.clk.line = schedVblankLine
  · obtain ⟨henabled, called, hregs⟩ := lineBegun_armed hb hline
    have hfrom : joyFrom (.begun s'.clk s'.regs :: tr) = some s'.regs.joyPart := if_pos hline
    have hlast : lastArmed (.begun s'.clk s'.regs :: tr) = some (s'.clk, s'.regs) := if_pos hline
    have hpoint : s'.regs.autojoyStart + 128 = joyPoint s'.clk.lineStart := by
      rw [hregs]
      change (s'.clk.lineStart + 130 + 255) / 256 * 256 - 128 + 128 = joyPoint s'.clk.lineStart
      unfold joyPoint
      omega
    have hlater := joyPoint_later s'.clk.lineStart
    have hcoming := nextVblank_entered he hin hline
    have hfurther := lineStart_le_nextVblank hin hline
    refine ⟨⟨_, s'.clk.lineStart, hfrom, ?_, .inl (Nat.le_add_right _ _)⟩, fun _ => ?_,
      fun c hc => ?_, ?_⟩
    · refine (upTo_settled fun c hc => ?_).symm
      have hstep : s'.regs.autojoyStep = 0 := by
        rw [hregs]
        rfl
      change (if s'.regs.autojoyStep ≤ 34 then
        some (s'.regs.autojoyStart + 128 * s'.regs.autojoyStep) else none) = some c at hc
      rw [hstep, if_pos (by omega)] at hc
      cases hc
      omega
    · rw [hpoint, henabled]
      exact h.coming _ (hcoming ▸ Nat.le_refl _)
    · rw [henabled]
      exact h.coming c (Nat.le_trans (joyPoint_mono (hcoming ▸ hfurther)) hc)
    · intro clk regs heq
      rw [hlast] at heq
      cases heq
      rw [hregs] at hpoint ⊢
      exact ⟨rfl, hpoint, rfl⟩
  · have hregs := lineBegun_joyState hb hline
    have hsome : ∃ armed, joyFrom tr = some armed := by
      obtain ⟨armed, -, harmed, -⟩ := h.caught
      exact ⟨armed, harmed⟩
    obtain ⟨armed, harmed⟩ := hsome
    have hfrom : joyFrom (.begun s'.clk s'.regs :: tr) = joyFrom tr := by
      rw [joyFrom, if_neg hline, harmed, Option.getD_some]
    exact (h.record rfl hfrom (if_neg hline)).update hregs (Nat.le_of_eq hnow.symm)
      (nextVblank_passed he hline) (.inl (Nat.le_add_right _ _))

theorem traceRun_joyKept (hD : D.Leaves Regs.joyState) (h : TraceRun D joyGood tr s) :
    JoyKept tr s := by
  induction h with
  | powerOn h => exact .begin rfl rfl rfl hD h
  | reset h => exact .begin rfl rfl rfl hD h
  | pass pend _ same later ih =>
    refine ih.same rfl ?_ (nextVblank_same same)
    unfold Clock.now
    rw [same.lineStart]
    exact Nat.add_le_add_left later _
  | @turn tr s s' how run h ih =>
    have hin := (run.turn h).inRaster
    cases advanceStep_regs hD h with
    | set _ _ _ same hregs =>
      rw [lineBegun_same (by rw [same])]
      exact ih.same (by rw [hregs]; rfl) (same ▸ Nat.le_refl _) (by rw [same])
    | clear _ _ _ same hregs =>
      rw [lineBegun_same (by rw [same])]
      exact ih.same (by rw [hregs]; rfl) (same ▸ Nat.le_refl _) (by rw [same])
    | inside same later hregs =>
      obtain ⟨timeup, pend, hregs⟩ := hregs
      rw [lineBegun_same same.lineStart]
      refine ih.same hregs ?_ (nextVblank_same same)
      unfold Clock.now
      rw [same.lineStart]
      exact Nat.add_le_add_left later _
    | lineEnd ended begun _ _ =>
      rw [lineBegun_ended ended]
      exact ih.lineEnd hin ended begun
  | @access tr s at' a dev run idle later order holds ih =>
    cases a with
    | nmitimen inProgress busN v => exact ih.write rfl rfl later order holds
    | autojoy now =>
      have hnow : now = at' := holds
      have hrecord : JoyKept (.access at' (.autojoy now) :: tr) s := ih.record rfl rfl rfl
      refine hrecord.update (t := now) rfl (Nat.le_refl _) rfl (.inr ⟨.autojoy now, ?_⟩)
      rw [hnow]
      exact List.mem_cons_self
    | timer reg v =>
      refine JoyKept.same (ih.record rfl rfl rfl) ?_ (Nat.le_refl _) rfl
      change (htimeVtimeWrite reg v s.regs).joyState = s.regs.joyState
      unfold htimeVtimeWrite
      dsimp only
      split
      next => rfl
      next => rfl
    | rdnmi line ln h mdr =>
      refine JoyKept.same (ih.record rfl rfl rfl) ?_ (Nat.le_refl _) rfl
      change (rdnmiRead line ln h mdr s.regs).2.joyState = s.regs.joyState
      unfold rdnmiRead
      dsimp only
      split <;> split <;> split <;> rfl
    | timeup | dma busN sizes | joypad port buttons =>
      exact JoyKept.same (ih.record rfl rfl rfl) rfl (Nat.le_refl _) rfl

theorem upTo_view_early (enabled : Nat → Bool) (pad : Vector (BitVec 16) 4) (p : JoyPart)
    {lineStart t : Nat} (h : t < joyPoint lineStart) :
    (joyMachine.upTo enabled t (p.arm lineStart pad)).busy = p.busy ∧
      (joyMachine.upTo enabled t (p.arm lineStart pad)).joy = p.joy := by
  have hlater := joyPoint_later lineStart
  refine (joyMachine_read enabled t (p := p.arm lineStart pad) rfl).1 ?_
  change t < joyPoint lineStart - 128 + 128
  omega

end Kept

/-! `STA $4200` with bit 0 set on line 224, then idling into line 225. -/

theorem bench_leaves {β : Type} (f : Regs → β) : (wiredDevices bench).Leaves f := by
  intro c clk r dev r' dev' h
  cases c with
  | edgeHook => cases h; rfl
  | apuSync | ppuDrawTo | dmaDoHdma | dmaInitHdma | ppuBeginDrawing | ppuRunLine
      | oamVblankReload => cases h; rfl

def joyArmed : SchedM (Wired Bench) (Sched (Wired Bench)) := do
  let (s, _) ← charge (wiredDevices bench) false staBegun
    ⟨eveClock, nmitimenWrite true 1 1 eveRegs, ⟨blankBus, ⟨[], 0⟩, []⟩⟩ false
  idle (wiredDevices bench) 5 s

def joyArmedRegs : Regs :=
  { eveRegs with nmitimen := 1, rdnmi := 0x80, rdnmiSet := true, autojoyStep := 0, autojoyStart := 307072 }

theorem joyArmed_run : ∃ tr s, TraceRun (wiredDevices bench) joyGood tr s ∧ InOrder tr s.clk.now ∧
    nextEvent s.clk s.regs = none ∧ s.clk.now = 307474 ∧ s.clk.nextVblank = 664268 ∧
    s.regs = joyArmedRegs := by
  have hfacts : (match joyArmed with
      | .ok s => decide (s.clk.now = 307474 ∧ s.clk.nextVblank = 664268 ∧ s.regs = joyArmedRegs)
      | .error _ => false) = true := by decide +kernel
  match hrun : joyArmed with
  | .error e =>
    rw [hrun] at hfacts
    cases hfacts
  | .ok s =>
    rw [hrun] at hfacts
    obtain ⟨hnow, hnext, hregs⟩ := of_decide_eq_true hfacts
    obtain ⟨⟨q, takeIrq⟩, hq, hidle⟩ := bind_eq_ok_iff.mp hrun
    have hfirst : ∀ tr (s : Sched (Wired Bench)) t, joyGood tr s t (.joypad 4 0) :=
      fun _ _ _ => trivial
    obtain ⟨tr, heve, hpads⟩ := eve_trace hfirst
      ⟨blankBus, ⟨[], 0⟩, []⟩
    have hquiet : nextEvent eveClock eveRegs = none := by decide
    have hlate : eveClock.now ≤ 306144 := by decide
    have hgood : joyGood tr (⟨eveClock, eveRegs, ⟨blankBus, ⟨[], 0⟩, []⟩⟩ : Sched (Wired Bench))
        306144 (.nmitimen true 1 1) :=
      .inr ⟨fun hfew => absurd hfew (by decide), by
        change 306144 < joyPoint eveClock.nextVblank
        decide⟩
    have hset := heve.access (.nmitimen true 1 1) ⟨blankBus, ⟨[], 0⟩, []⟩ hquiet hlate
      (fun u a hmem => (hpads u a hmem).1 ▸ hlate) hgood
    have hcont := hset.charge hq
    obtain ⟨lines, htrace, hlines⟩ := hcont.idle hidle
    refine ⟨_, s, htrace, fun u a hmem => ?_, ?_, hnow, hnext, hregs⟩
    · rw [hnow]
      rcases List.mem_append.mp hmem with hmem | hmem
      · exact absurd hmem (hlines u a)
      · rcases List.mem_cons.mp hmem with heq | hmem
        · cases heq
          decide
        · rw [(hpads u a hmem).1]
          decide
    · exact idle_idle (charge_idle (by decide) hq) hidle

/-- Any $4200 write at all. -/
def joyAccess {δ : Type} (_tr : List SchedEvent) (_s : Sched δ) (at' : Nat) : RegAccess → Prop
  | .autojoy now => now = at'
  | _ => True

theorem joyGood_joyAccess {δ : Type} (tr : List SchedEvent) (s : Sched δ) (t : Nat) (a : RegAccess)
    (h : joyGood tr s t a) : joyAccess tr s t a := by
  cases a with
  | autojoy now => exact h
  | nmitimen | timer | rdnmi | timeup | dma | joypad => exact trivial

end CtRecomp
