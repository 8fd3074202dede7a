import CtRecomp.AutoJoy
import CtRecomp.RdnmiClock

namespace CtRecomp

open Loop

/-! The VBlank NMI flag of $4210, whichever of the read and `advance` comes to line 225
first. -/

/-- A $4210 read has been sampled at clock `u`. -/
def ReadAt (tr : List SchedEvent) (u : Nat) : Prop :=
  ∃ line ln h mdr, SchedEvent.access u (.rdnmi line ln h mdr) ∈ tr

/-- What a read at `t` is to find: `t` is in a window, and no read before took its flag. -/
def FlagAt (tr : List SchedEvent) (t : Nat) : Prop :=
  ∃ f, InWindow f t ∧ ∀ u, ReadAt tr u → InWindow f u → u < flagHeld f

/-- What a read at `t` finds in bit 7, with `mdr` on the bus. -/
def flagRead {δ : Type} (s : Sched δ) (t : Nat) (mdr : BitVec 8) : Bool :=
  (rdnmiRead s.clk.line (accessHv s.clk t).1 (accessHv s.clk t).2 mdr s.regs).1 &&& 0x80 ≠ 0

/-- The read comes later in an instruction begun at clock 0 or 1 of line 0, the flag still
raised, or of line 225, and on the next line. -/
def Misread {δ : Type} (s : Sched δ) (t : Nat) : Prop :=
  s.clk.hclock < 2 ∧
    ((s.clk.line = 0 ∧ s.regs.rdnmi ≠ 0 ∧ s.clk.lineStart + 2 ≤ t) ∨
      (s.clk.line = schedVblankLine ∧ s.regs.rdnmiSet = false ∧
        s.clk.lineStart + s.clk.lineClocks ≤ t))

/-- Reads are placed by `access_hv`, in instructions that cross one line end at most. -/
def rdnmiAccess {δ : Type} (_tr : List SchedEvent) (s : Sched δ) (at' : Nat) : RegAccess → Prop
  | .rdnmi line ln h _ => line = s.clk.line ∧ (ln, h) = accessHv s.clk at' ∧ s.clk.Near at'
  | _ => True

/-- And none is a misread. -/
def rdnmiGood {δ : Type} (tr : List SchedEvent) (s : Sched δ) (at' : Nat) (a : RegAccess) : Prop :=
  rdnmiAccess tr s at' a ∧ ∀ line ln h mdr, a = .rdnmi line ln h mdr → ¬Misread s at'

def Regs.flagState (r : Regs) : BitVec 8 × Bool × Bool := (r.rdnmi, r.rdnmiSet, r.rdnmiCleared)

/-! The flag's state against the reads there have been. -/

/-- A $4210 read has been sampled at `t` or later. -/
def ReadFrom (tr : List SchedEvent) (t : Nat) : Prop := ∃ u, ReadAt tr u ∧ t ≤ u

/-- A new frame's line 0 has not come to clock 2. -/
def Sched.Entering {δ : Type} (s : Sched δ) : Prop :=
  s.clk.line = 0 ∧ s.regs.rdnmiCleared = false

/-- The flag as the reads so far leave it: on entering a frame the last one's, then its own. -/
structure FlagKept {δ : Type} (tr : List SchedEvent) (s : Sched δ) : Prop where
  near : ∀ u, ReadAt tr u → s.clk.Near u
  bit : s.regs.rdnmi = 0 ∨ s.regs.rdnmi = 0x80
  cleared : s.clk.line = 0 → s.regs.rdnmiCleared = true → 2 ≤ s.clk.hclock
  entering : s.Entering → s.regs.rdnmiSet = false ∧
    (s.regs.rdnmi ≠ 0 ↔ 0 < s.clk.frame ∧ ¬ReadFrom tr (flagHeld (s.clk.frame - 1)))
  unset : ¬s.Entering → s.regs.rdnmiSet = false →
    s.clk.line ≤ 225 ∧ s.regs.rdnmi = 0 ∧ ¬ReadFrom tr (flagRaised s.clk.frame)
  set : ¬s.Entering → s.regs.rdnmiSet = true →
    (flagRaised s.clk.frame ≤ s.clk.now ∨ ReadFrom tr (flagRaised s.clk.frame)) ∧
      (s.regs.rdnmi ≠ 0 ↔ ¬ReadFrom tr (flagHeld s.clk.frame))

theorem ReadFrom.mono {tr : List SchedEvent} {t t' : Nat} (h : ReadFrom tr t) (hle : t' ≤ t) :
    ReadFrom tr t' := by
  obtain ⟨u, hu, hlate⟩ := h
  exact ⟨u, hu, Nat.le_trans hle hlate⟩

theorem flagRaised_le_held (f : Nat) : flagRaised f ≤ flagHeld f := by
  unfold flagRaised flagHeld
  omega

/-- What else happens is no read. -/
theorem readAt_cons {e : SchedEvent} {tr : List SchedEvent} {u : Nat}
    (he : ∀ u line ln h mdr, e ≠ .access u (.rdnmi line ln h mdr)) :
    ReadAt (e :: tr) u ↔ ReadAt tr u := by
  constructor
  · rintro ⟨line, ln, h, mdr, hmem⟩
    refine ⟨line, ln, h, mdr, (List.mem_cons.mp hmem).resolve_left fun heq => ?_⟩
    exact he u line ln h mdr heq.symm
  · rintro ⟨line, ln, h, mdr, hmem⟩
    exact ⟨line, ln, h, mdr, List.mem_cons_of_mem _ hmem⟩

theorem readAt_read {tr : List SchedEvent} {t u line ln h : Nat} {mdr : BitVec 8} :
    ReadAt (.access t (.rdnmi line ln h mdr) :: tr) u ↔ u = t ∨ ReadAt tr u := by
  constructor
  · rintro ⟨line', ln', h', mdr', hmem⟩
    rcases List.mem_cons.mp hmem with heq | hmem
    · cases heq
      exact .inl rfl
    · exact .inr ⟨line', ln', h', mdr', hmem⟩
  · rintro (rfl | ⟨line', ln', h', mdr', hmem⟩)
    · exact ⟨line, ln, h, mdr, List.mem_cons_self⟩
    · exact ⟨line', ln', h', mdr', List.mem_cons_of_mem _ hmem⟩

theorem readFrom_read {tr : List SchedEvent} {t t' line ln h : Nat} {mdr : BitVec 8} :
    ReadFrom (.access t (.rdnmi line ln h mdr) :: tr) t' ↔ t' ≤ t ∨ ReadFrom tr t' := by
  constructor
  · rintro ⟨u, hu, hlate⟩
    rcases readAt_read.mp hu with rfl | hu
    · exact .inl hlate
    · exact .inr ⟨u, hu, hlate⟩
  · rintro (hlate | ⟨u, hu, hlate⟩)
    · exact ⟨t, readAt_read.mpr (.inl rfl), hlate⟩
    · exact ⟨u, readAt_read.mpr (.inr hu), hlate⟩

section Kept

variable {δ : Type} {D : Devices δ} {tr : List SchedEvent} {s s' : Sched δ} {t : Nat}

/-- Inside a window, no read took the flag. -/
theorem flagAt_iff {f : Nat} (ht : InWindow f t) (horder : InOrder tr t) :
    FlagAt tr t ↔ ¬ReadFrom tr (flagHeld f) := by
  have hle := flagRaised_le_held f
  constructor
  · rintro ⟨g, hg, hnone⟩ ⟨u, hu, hlate⟩
    obtain rfl := hg.unique ht
    obtain ⟨line, ln, h, mdr, hmem⟩ := hu
    have hbefore := horder u _ hmem
    have hin : InWindow g u := ⟨Nat.le_trans hle hlate, Nat.lt_of_le_of_lt hbefore ht.2⟩
    exact Nat.not_lt_of_le hlate (hnone u ⟨line, ln, h, mdr, hmem⟩ hin)
  · intro hnone
    refine ⟨f, ht, fun u hu _ => ?_⟩
    by_contra hlate
    exact hnone ⟨u, hu, Nat.le_of_not_lt hlate⟩

theorem not_flagAt {f : Nat} (hfrom : frameStart f + 2 ≤ t) (hto : t < flagRaised f) :
    ¬FlagAt tr t := fun ⟨_, hin, _⟩ => not_inWindow hfrom hto hin

/-- Nothing about the flag changes. -/
theorem FlagKept.same (h : FlagKept tr s) {tr' : List SchedEvent}
    (hread : ∀ u, ReadAt tr' u ↔ ReadAt tr u) (hregs : s'.regs.flagState = s.regs.flagState)
    (hline : s'.clk.line = s.clk.line) (hframe : s'.clk.frame = s.clk.frame)
    (hstart : s'.clk.lineStart = s.clk.lineStart) (hlater : s.clk.hclock ≤ s'.clk.hclock)
    (hnear : ∀ u, s.clk.Near u → s'.clk.Near u) : FlagKept tr' s' := by
  have hnow : s.clk.now ≤ s'.clk.now := by
    unfold Clock.now
    rw [hstart]
    exact Nat.add_le_add_left hlater _
  have hfrom (t : Nat) : ReadFrom tr' t ↔ ReadFrom tr t := by simp only [ReadFrom, hread]
  have hrdnmi : s'.regs.rdnmi = s.regs.rdnmi := congrArg Prod.fst hregs
  have hset : s'.regs.rdnmiSet = s.regs.rdnmiSet := congrArg (fun p => p.2.1) hregs
  have hcleared : s'.regs.rdnmiCleared = s.regs.rdnmiCleared := congrArg (fun p => p.2.2) hregs
  have hentering : s'.Entering ↔ s.Entering := by rw [Sched.Entering, Sched.Entering, hline, hcleared]
  constructor
  · exact fun u hu => hnear u (h.near u ((hread u).mp hu))
  · rw [hrdnmi]
    exact h.bit
  · rw [hline, hcleared]
    exact fun hzero hdone => Nat.le_trans (h.cleared hzero hdone) hlater
  · rw [hentering, hset, hrdnmi, hframe, hfrom]
    exact h.entering
  · rw [hentering, hset, hrdnmi, hframe, hfrom, hline]
    exact h.unset
  · rw [hentering, hset, hrdnmi, hframe, hfrom, hfrom]
    intro hnot hon
    obtain ⟨hraised, hbit⟩ := h.set hnot hon
    exact ⟨hraised.imp_left fun hle => Nat.le_trans hle hnow, hbit⟩

/-- `advance` raises it. -/
theorem FlagKept.raise (h : FlagKept tr s) (hin : s.clk.InRaster)
    (hline : s.clk.line = schedVblankLine) (hreached : 2 ≤ s.clk.hclock)
    (hunset : s.regs.rdnmiSet = false) (hclk : s'.clk = s.clk)
    (hregs : s'.regs = { s.regs with rdnmi := 0x80, rdnmiSet := true }) : FlagKept tr s' := by
  have hnonzero : s.clk.line ≠ 0 := by
    rw [hline]
    decide
  have hout : ¬s.Entering := fun hentering => hnonzero hentering.1
  have hout' : ¬s'.Entering := fun hentering => hnonzero (hclk ▸ hentering.1)
  obtain ⟨-, -, hnone⟩ := h.unset hout hunset
  obtain ⟨hstart, -⟩ := hin.upper (by rw [hline]; decide)
  constructor
  · rw [hclk]
    exact h.near
  · rw [hregs]
    exact .inr rfl
  · exact fun hzero => absurd (hclk ▸ hzero) hnonzero
  · exact fun hentering => absurd hentering hout'
  · intro _ hoff
    rw [hregs] at hoff
    cases hoff
  · intro _ _
    rw [hclk, hregs]
    refine ⟨.inl ?_, fun _ => ?_, fun _ => (by decide : (0x80 : BitVec 8) ≠ 0)⟩
    · rw [flagRaised_eq, Clock.now, hstart, hline]
      change _ ≤ frameStart s.clk.frame + 1364 * 225 + _
      omega
    · exact fun hfrom => hnone (hfrom.mono (flagRaised_le_held _))

/-- `advance` drops it. -/
theorem FlagKept.drop (h : FlagKept tr s) (hin : s.clk.InRaster) (hline : s.clk.line = 0)
    (huncleared : s.regs.rdnmiCleared = false) (hreached : 2 ≤ s.clk.hclock) (hclk : s'.clk = s.clk)
    (hregs : s'.regs = { s.regs with rdnmi := 0, rdnmiCleared := true }) : FlagKept tr s' := by
  obtain ⟨hset, -⟩ := h.entering ⟨hline, huncleared⟩
  have hout' : ¬s'.Entering := by
    rintro ⟨-, hoff⟩
    rw [hregs] at hoff
    cases hoff
  constructor
  · rw [hclk]
    exact h.near
  · rw [hregs]
    exact .inl rfl
  · rw [hclk]
    exact fun _ _ => hreached
  · exact fun hentering => absurd hentering hout'
  · intro _ _
    rw [hclk, hregs]
    refine ⟨by omega, rfl, ?_⟩
    rintro ⟨u, hu, hlate⟩
    have hearly := hin.early (by omega) (h.near u hu)
    rw [flagRaised_eq] at hlate
    omega
  · intro _ hon
    rw [hregs] at hon
    exact absurd (hset.symm.trans hon) Bool.false_ne_true

theorem JoyOnly.flagState {r r' : Regs} (h : JoyOnly r r') : r'.flagState = r.flagState := by
  obtain ⟨busy, on, step, joy, h⟩ := h
  rw [h]
  rfl

theorem lineBegun_flagState {before : Regs} (h : LineBegun Regs.flagState before s) :
    s.regs.flagState = (before.newFrame s.clk.line).flagState := by
  obtain ⟨ended, called, hended, hcalled, hregs, -⟩ := h
  have harmed (line lineStart : Nat) (r : Regs) :
      (r.vblankArmed line lineStart).flagState = r.flagState := by
    unfold Regs.vblankArmed
    split <;> rfl
  have hnew (line : Nat) {r r' : Regs} (hr : r.flagState = r'.flagState) :
      (r.newFrame line).flagState = (r'.newFrame line).flagState := by
    have hrdnmi : r.rdnmi = r'.rdnmi := congrArg Prod.fst hr
    unfold Regs.newFrame
    split
    · exact congrArg (fun b : BitVec 8 => (b, false, false)) hrdnmi
    · exact hr
  rw [hregs, (autojoyUpdate_only _ _).flagState, harmed, hcalled, hnew _ hended]

theorem LineEnded.frame {c c' : Clock} (he : LineEnded c c') (hin : c.InRaster) :
    c'.frame = if c.line + 1 = schedLines then c.frame + 1 else c.frame := by
  have hbase := hin.fieldBase
  unfold Clock.frame
  rw [he.frames, he.fieldBase]
  split
  · omega
  · rfl

theorem LineEnded.near {c c' : Clock} (he : LineEnded c c') (ht : c.Near t) : c'.Near t := by
  have hlen : c'.lineClocks = c.nextLineClocks := by
    rw [← lineClocks_eq rfl, he.line, he.frames, he.fieldBase]
    rfl
  unfold Clock.Near at ht ⊢
  rw [hlen, he.lineStart]
  omega

/-- A line ends. -/
theorem FlagKept.lineEnd (h : FlagKept tr s) (hin : s.clk.InRaster) (he : LineEnded s.clk s'.clk)
    (hb : LineBegun Regs.flagState s.regs s')
    (hset : s.clk.line = schedVblankLine → s.regs.rdnmiSet = true)
    (hcleared : s.clk.line = 0 → s.regs.rdnmiCleared = true) :
    FlagKept (.begun s'.clk s'.regs :: tr) s' := by
  have hread (u : Nat) : ReadAt (.begun s'.clk s'.regs :: tr) u ↔ ReadAt tr u :=
    readAt_cons (fun _ _ _ _ _ => nofun)
  have hfrom (t : Nat) : ReadFrom (.begun s'.clk s'.regs :: tr) t ↔ ReadFrom tr t := by
    simp only [ReadFrom, hread]
  have hout : ¬s.Entering := by
    rintro ⟨hzero, hoff⟩
    exact absurd (hoff.symm.trans (hcleared hzero)) Bool.false_ne_true
  have hregs := lineBegun_flagState hb
  have hnow : s'.clk.now = s.clk.now := by
    have hover := he.reached
    unfold Clock.now
    rw [he.lineStart, he.hclock]
    omega
  have hframe := he.frame hin
  have hnear (u : Nat) (hu : ReadAt (.begun s'.clk s'.regs :: tr) u) : s'.clk.Near u :=
    he.near (h.near u ((hread u).mp hu))
  by_cases hlast : s.clk.line + 1 = schedLines
  · have hline : s'.clk.line = 0 := by
      rw [he.line, if_pos hlast]
    have hlast' : s.clk.line + 1 = 262 := hlast
    rw [if_pos hlast] at hframe
    rw [hline] at hregs
    have hnew : s'.regs.flagState = (s.regs.rdnmi, false, false) := hregs
    have hrdnmi : s'.regs.rdnmi = s.regs.rdnmi := congrArg Prod.fst hnew
    have hoff : s'.regs.rdnmiSet = false := congrArg (fun p => p.2.1) hnew
    have hcleared' : s'.regs.rdnmiCleared = false := congrArg (fun p => p.2.2) hnew
    have hentering : s'.Entering := ⟨hline, hcleared'⟩
    have hon : s.regs.rdnmiSet = true := by
      by_contra hunset
      obtain ⟨hbelow, -⟩ := h.unset hout (eq_false_of_ne_true hunset)
      omega
    refine ⟨hnear, hrdnmi ▸ h.bit, fun _ hdone => ?_, fun _ => ⟨hoff, ?_⟩,
      fun hnot => absurd hentering hnot, fun hnot => absurd hentering hnot⟩
    · exact absurd (hcleared'.symm.trans hdone) Bool.false_ne_true
    rw [hrdnmi, hframe, hfrom, (h.set hout hon).2]
    exact ⟨fun hnone => ⟨Nat.succ_pos _, hnone⟩, fun hboth => hboth.2⟩
  · have hline : s'.clk.line = s.clk.line + 1 := by
      rw [he.line, if_neg hlast]
    rw [if_neg hlast] at hframe
    rw [hline] at hregs
    have hsame : s'.regs.flagState = s.regs.flagState := hregs
    have hrdnmi : s'.regs.rdnmi = s.regs.rdnmi := congrArg Prod.fst hsame
    have hset' : s'.regs.rdnmiSet = s.regs.rdnmiSet := congrArg (fun p => p.2.1) hsame
    have hout' : ¬s'.Entering := fun hentering => by
      have hzero := hentering.1
      omega
    refine ⟨hnear, hrdnmi ▸ h.bit, fun hzero => by omega,
      fun hentering => absurd hentering hout', fun _ hoff => ?_, fun _ hon => ?_⟩
    · rw [hset'] at hoff
      rw [hrdnmi, hframe, hfrom, hline]
      obtain ⟨hbelow, hbits⟩ := h.unset hout hoff
      refine ⟨?_, hbits⟩
      by_contra habove
      have hvblank : s.clk.line = schedVblankLine := by
        change _ = 225
        omega
      exact absurd (hoff.symm.trans (hset hvblank)) Bool.false_ne_true
    · rw [hset'] at hon
      rw [hrdnmi, hframe, hfrom, hfrom, hnow]
      exact h.set hout hon

/-- Timing starts with the flag down. -/
theorem FlagKept.begin {before : Sched δ} (hline : before.clk.line = 0)
    (hframe : before.clk.frames = before.clk.fieldBase) (hrdnmi : before.regs.rdnmi = 0)
    (hD : D.Leaves Regs.flagState) (h : beginLine D before = .ok s) :
    FlagKept [.begun s.clk s.regs] s := by
  obtain ⟨irqAt, hc⟩ := beginLine_clk h
  have hzero : s.clk.line = 0 := by
    rw [hc]
    exact hline
  have hfirst : s.clk.frame = 0 := by
    rw [hc]
    change before.clk.frames - before.clk.fieldBase = 0
    omega
  have hregs := lineBegun_flagState (beginLine_begun hD rfl h)
  rw [hzero] at hregs
  have hnew : s.regs.flagState = (before.regs.rdnmi, false, false) := hregs
  have hbit : s.regs.rdnmi = 0 := (congrArg Prod.fst hnew).trans hrdnmi
  have hentering : s.Entering := ⟨hzero, congrArg (fun p => p.2.2) hnew⟩
  have hnone (u : Nat) : ¬ReadAt [.begun s.clk s.regs] u := by
    rintro ⟨line, ln, h, mdr, hmem⟩
    cases List.mem_singleton.mp hmem
  refine ⟨fun u hu => absurd hu (hnone u), .inl hbit,
    fun _ hdone => absurd (hentering.2.symm.trans hdone) Bool.false_ne_true,
    fun _ => ⟨congrArg (fun p => p.2.1) hnew, ?_⟩, fun hnot => absurd hentering hnot,
    fun hnot => absurd hentering hnot⟩
  rw [hbit, hfirst]
  exact ⟨fun hne => absurd rfl hne, fun hboth => absurd hboth.1 (Nat.lt_irrefl 0)⟩

/-- The flag a read at clock `h` of line `ln` finds. -/
def Regs.flagFound (line ln h : Nat) (r : Regs) : BitVec 8 :=
  if ln = 0 ∧ 2 ≤ h ∧ line ≠ 0 then 0
  else if ln = schedVblankLine ∧ 2 ≤ h ∧ r.rdnmiSet = false then 0x80 else r.rdnmi

theorem flagFound_bit {line ln h : Nat} {r : Regs} (hbit : r.rdnmi = 0 ∨ r.rdnmi = 0x80) :
    r.flagFound line ln h = 0 ∨ r.flagFound line ln h = 0x80 := by
  unfold Regs.flagFound
  split
  · exact .inl rfl
  · split
    · exact .inr rfl
    · exact hbit

/-- It reads the flag found in bit 7, and leaves it down but for the 4 clocks. -/
theorem rdnmiRead_found (line ln h : Nat) (mdr : BitVec 8) (r : Regs) :
    (rdnmiRead line ln h mdr r).1 = r.flagFound line ln h ||| 0x02 ||| (mdr &&& 0x70) ∧
      (rdnmiRead line ln h mdr r).2.flagState =
        (if ln = schedVblankLine ∧ h < 6 then r.flagFound line ln h else 0,
          r.rdnmiSet || decide (ln = schedVblankLine ∧ 2 ≤ h), r.rdnmiCleared) := by
  unfold rdnmiRead Regs.flagFound Regs.flagState
  dsimp only
  by_cases hraise : ln = schedVblankLine ∧ 2 ≤ h
  · have hnonzero : ¬(ln = 0 ∧ 2 ≤ h ∧ line ≠ 0) := by
      rintro ⟨hzero, -⟩
      exact absurd (hraise.1.symm.trans hzero) (by decide)
    rw [if_neg hnonzero, if_neg hnonzero, decide_eq_true hraise, Bool.or_true]
    cases hset : r.rdnmiSet with
    | false =>
      rw [if_pos ⟨hraise.1, hraise.2, rfl⟩, if_pos ⟨hraise.1, hraise.2, rfl⟩]
      refine ⟨rfl, ?_⟩
      split <;> rfl
    | true =>
      rw [if_neg fun h => Bool.false_ne_true h.2.2.symm, if_neg fun h => Bool.false_ne_true h.2.2.symm]
      refine ⟨rfl, ?_⟩
      split
      · rw [hset]
      · rw [hset]
  · have hquiet : ¬(ln = schedVblankLine ∧ 2 ≤ h ∧ r.rdnmiSet = false) := fun h => hraise ⟨h.1, h.2.1⟩
    rw [if_neg hquiet, if_neg hquiet, decide_eq_false hraise, Bool.or_false]
    split
    · refine ⟨rfl, ?_⟩
      split <;> rfl
    · refine ⟨rfl, ?_⟩
      split <;> rfl

theorem openBus_bit : ∀ mdr : BitVec 8,
    ((0 : BitVec 8) ||| 0x02 ||| (mdr &&& 0x70)) &&& 0x80 = 0 ∧
      ((0x80 : BitVec 8) ||| 0x02 ||| (mdr &&& 0x70)) &&& 0x80 ≠ 0 := by
  decide +kernel

/-- What a read at `t` finds, whatever else is on the bus. -/
theorem flagRead_found (hbit : s.regs.rdnmi = 0 ∨ s.regs.rdnmi = 0x80) (mdr : BitVec 8) :
    flagRead s t mdr = true ↔
      s.regs.flagFound s.clk.line (accessHv s.clk t).1 (accessHv s.clk t).2 ≠ 0 := by
  unfold flagRead
  rw [decide_eq_true_iff, (rdnmiRead_found _ _ _ mdr s.regs).1]
  rcases flagFound_bit hbit with hfound | hfound
  · rw [hfound]
    exact ⟨fun hne => absurd (openBus_bit mdr).1 hne, fun hne => absurd rfl hne⟩
  · rw [hfound]
    exact ⟨fun _ => by decide, fun _ => (openBus_bit mdr).2⟩

/-- With nothing left to `advance`, clock 2 has not come where the flag is still to change. -/
theorem idle_flag (hidle : nextEvent s.clk s.regs = none) :
    (s.clk.line = schedVblankLine → s.regs.rdnmiSet = false → s.clk.hclock < 2) ∧
      (s.clk.line = 0 → s.regs.rdnmiCleared = false → s.clk.hclock < 2) := by
  unfold nextEvent at hidle
  split at hidle
  next => cases hidle
  next hset =>
  split at hidle
  next => cases hidle
  next hclear =>
  exact ⟨fun hline hoff => Nat.lt_of_not_le fun hdue => hset ⟨hline, hoff, hdue⟩,
    fun hline hoff => Nat.lt_of_not_le fun hdue => hclear ⟨hline, hoff, hdue⟩⟩

/-- On entering a frame. -/
theorem FlagKept.read_entering (h : FlagKept tr s) (hin : s.clk.InRaster) (hentering : s.Entering)
    (hidle : nextEvent s.clk s.regs = none) (hlater : s.clk.now ≤ t) (horder : InOrder tr t)
    (hnear : s.clk.Near t) : (s.regs.rdnmi ≠ 0 ↔ FlagAt tr t) ↔ ¬Misread s t := by
  obtain ⟨hline, huncleared⟩ := hentering
  have hearly := (idle_flag hidle).2 hline huncleared
  obtain ⟨hoff, hbit⟩ := h.entering ⟨hline, huncleared⟩
  obtain ⟨hstart, -⟩ := hin.upper (by omega)
  have hbefore := hin.early (by omega) hnear
  rw [hline] at hstart
  have hstart : s.clk.lineStart = frameStart s.clk.frame := hstart
  have hfrom : s.clk.lineStart ≤ t := Nat.le_trans (Nat.le_add_right _ _) hlater
  have hvblank : s.clk.line ≠ schedVblankLine := by
    rw [hline]
    decide
  by_cases hlate : s.clk.lineStart + 2 ≤ t
  · have hnone : ¬FlagAt tr t := not_flagAt (f := s.clk.frame) (by omega) (by
      rw [flagRaised_eq]
      omega)
    have hmisread : Misread s t ↔ s.regs.rdnmi ≠ 0 :=
      ⟨fun hmis => (hmis.2.resolve_right fun hother => hvblank hother.1).2.1,
        fun hne => ⟨hearly, .inl ⟨hline, hne, hlate⟩⟩⟩
    rw [hmisread]
    exact ⟨fun hiff hne => hnone (hiff.mp hne), fun hnot => ⟨fun hne => absurd hne hnot,
      fun hflag => absurd hflag hnone⟩⟩
  · have hright : ¬Misread s t := fun hmis => by
      rcases hmis.2 with ⟨-, -, hpast⟩ | ⟨hother, -⟩
      · exact hlate hpast
      · exact hvblank hother
    refine ⟨fun _ => hright, fun _ => ?_⟩
    rw [hbit]
    by_cases hfirst : s.clk.frame = 0
    · have hzero : frameStart s.clk.frame = 0 := by
        rw [hfirst]
        rfl
      refine ⟨fun hboth => absurd hboth.1 (by omega), fun hflag => ?_⟩
      obtain ⟨g, ⟨hraised, -⟩, -⟩ := hflag
      rw [flagRaised_eq] at hraised
      omega
    · have hframe : s.clk.frame - 1 + 1 = s.clk.frame := by omega
      have hnext := frameStart_next (s.clk.frame - 1)
      rw [hframe] at hnext
      have hwindow : InWindow (s.clk.frame - 1) t := by
        constructor
        · rw [flagRaised_eq]
          omega
        · rw [flagDropped_eq, hframe]
          omega
      rw [flagAt_iff hwindow horder]
      exact ⟨fun hboth => hboth.2, fun hnone => ⟨Nat.pos_of_ne_zero hfirst, hnone⟩⟩

theorem readFrom_le (horder : InOrder tr t) {t' : Nat} (h : ReadFrom tr t') : t' ≤ t := by
  obtain ⟨u, ⟨line, ln, h, mdr, hmem⟩, hlate⟩ := h
  exact Nat.le_trans hlate (horder u _ hmem)

/-- Clock 2 of line 225 is met by the read, or missed. -/
theorem raised_at (hin : s.clk.InRaster) (hbelow : s.clk.line ≤ 225) (hfrom : s.clk.lineStart ≤ t)
    (hnear : s.clk.Near t) : flagRaised s.clk.frame ≤ t ↔
      ((accessHv s.clk t).1 = schedVblankLine ∧ 2 ≤ (accessHv s.clk t).2) ∨
        (s.clk.line = 225 ∧ s.clk.lineStart + s.clk.lineClocks ≤ t) := by
  obtain ⟨hstart, hlen⟩ := hin.upper (by omega)
  rw [flagRaised_eq]
  constructor
  · intro hraised
    by_contra hnot
    have hln := hin.vblank_at hbelow (by omega) hnear fun hline => by
      by_contra hpast
      exact hnot (.inr ⟨hline, Nat.le_of_not_lt hpast⟩)
    obtain ⟨hplace, -⟩ := hin.at_vblank hfrom hln
    exact hnot (.inl ⟨hln, by omega⟩)
  · rintro (⟨hln, htwo⟩ | ⟨hline, hpast⟩)
    · obtain ⟨hplace, -⟩ := hin.at_vblank hfrom hln
      omega
    · omega

theorem FlagKept.misread_iff (h : FlagKept tr s) (hout : ¬s.Entering)
    (hunset : s.regs.rdnmiSet = false) (hidle : nextEvent s.clk s.regs = none) :
    Misread s t ↔ s.clk.line = 225 ∧ s.clk.lineStart + s.clk.lineClocks ≤ t := by
  obtain ⟨-, hbit, -⟩ := h.unset hout hunset
  constructor
  · rintro ⟨-, ⟨-, hne, -⟩ | ⟨hline, -, hpast⟩⟩
    · exact absurd hbit hne
    · exact ⟨hline, hpast⟩
  · rintro ⟨hline, hpast⟩
    exact ⟨(idle_flag hidle).1 hline hunset, .inr ⟨hline, hunset, hpast⟩⟩

/-- Not raised so far, the flag is found where the read itself raises it. -/
theorem FlagKept.found_unset (h : FlagKept tr s) (hout : ¬s.Entering)
    (hunset : s.regs.rdnmiSet = false) {line ln hc : Nat} : s.regs.flagFound line ln hc =
      if ln = schedVblankLine ∧ 2 ≤ hc then 0x80 else 0 := by
  obtain ⟨-, hbit, -⟩ := h.unset hout hunset
  unfold Regs.flagFound
  by_cases hraise : ln = schedVblankLine ∧ 2 ≤ hc
  · rw [if_neg fun hzero => absurd (hraise.1.symm.trans hzero.1) (by decide),
      if_pos ⟨hraise.1, hraise.2, hunset⟩, if_pos hraise]
  · rw [if_neg hraise]
    split
    · rfl
    · rw [if_neg fun hset => hraise ⟨hset.1, hset.2.1⟩, hbit]

/-- Before the flag of the frame is raised. -/
theorem FlagKept.read_unset (h : FlagKept tr s) (hin : s.clk.InRaster) (hout : ¬s.Entering)
    (hunset : s.regs.rdnmiSet = false) (hidle : nextEvent s.clk s.regs = none)
    (hlater : s.clk.now ≤ t) (horder : InOrder tr t) (hnear : s.clk.Near t) :
    (s.regs.flagFound s.clk.line (accessHv s.clk t).1 (accessHv s.clk t).2 ≠ 0 ↔ FlagAt tr t) ↔
      ¬Misread s t := by
  obtain ⟨hbelow, hbit, hnone⟩ := h.unset hout hunset
  obtain ⟨hstart, hlen⟩ := hin.upper (by omega)
  have hnext := nextLineClocks_le s.clk
  have hframe := frameStart_next s.clk.frame
  have hfrom : s.clk.lineStart ≤ t := Nat.le_trans (Nat.le_add_right _ _) hlater
  have hdropped : t < flagDropped s.clk.frame := by
    rw [flagDropped_eq]
    unfold Clock.Near at hnear
    omega
  have hflag (hraised : flagRaised s.clk.frame ≤ t) : FlagAt tr t :=
    (flagAt_iff ⟨hraised, hdropped⟩ horder).mpr fun hheld =>
      hnone (hheld.mono (flagRaised_le_held _))
  have hplace := raised_at hin hbelow hfrom hnear
  rw [h.misread_iff hout hunset hidle, h.found_unset hout hunset]
  by_cases hraise : (accessHv s.clk t).1 = schedVblankLine ∧ 2 ≤ (accessHv s.clk t).2
  · obtain ⟨-, hwhere⟩ := hin.at_vblank hfrom hraise.1
    rw [if_pos hraise]
    exact ⟨fun _ => by omega, fun _ => ⟨fun _ => hflag (hplace.mpr (.inl hraise)), fun _ => by decide⟩⟩
  · rw [if_neg hraise]
    by_cases hraised : flagRaised s.clk.frame ≤ t
    · have hmissed := (hplace.mp hraised).resolve_left hraise
      exact ⟨fun hiff => absurd rfl (hiff.mpr (hflag hraised)), fun hnot => absurd hmissed hnot⟩
    · have hentered : frameStart s.clk.frame + 2 ≤ t := by
        by_cases hline : s.clk.line = 0
        · have hpast := h.cleared hline (by
            by_contra hoff
            exact hout ⟨hline, eq_false_of_ne_true hoff⟩)
          unfold Clock.now at hlater
          omega
        · omega
      have hno : ¬FlagAt tr t := not_flagAt hentered (Nat.lt_of_not_le hraised)
      exact ⟨fun _ hpast => hraised (hplace.mpr (.inr hpast)),
        fun _ => ⟨fun hne => absurd rfl hne, fun hyes => absurd hyes hno⟩⟩

/-- After it was raised. -/
theorem FlagKept.read_set (h : FlagKept tr s) (hin : s.clk.InRaster) (hout : ¬s.Entering)
    (hset : s.regs.rdnmiSet = true) (hlater : s.clk.now ≤ t) (horder : InOrder tr t)
    (hnear : s.clk.Near t) :
    (s.regs.flagFound s.clk.line (accessHv s.clk t).1 (accessHv s.clk t).2 ≠ 0 ↔ FlagAt tr t) ∧
      ¬Misread s t := by
  obtain ⟨hraised, hbit⟩ := h.set hout hset
  have hfrom : s.clk.lineStart ≤ t := Nat.le_trans (Nat.le_add_right _ _) hlater
  have hpast : flagRaised s.clk.frame ≤ t := hraised.elim (fun hnow => Nat.le_trans hnow hlater)
    fun hread => readFrom_le horder hread
  have hpast' := hpast
  rw [flagRaised_eq] at hpast'
  have hnonzero : s.clk.line ≠ 0 := by
    intro hline
    have hearly := hin.early (by omega) hnear
    omega
  constructor
  · by_cases hzero : (accessHv s.clk t).1 = 0 ∧ 2 ≤ (accessHv s.clk t).2
    · have hplace := hin.at_zero hfrom hnonzero hzero.1
      have hlast := hin.near_lt hnear
      have hno : ¬FlagAt tr t := not_flagAt (f := s.clk.frame + 1) (by omega) (by
        rw [flagRaised_eq]
        omega)
      unfold Regs.flagFound
      rw [if_pos ⟨hzero.1, hzero.2, hnonzero⟩]
      exact ⟨fun hne => absurd rfl hne, fun hyes => absurd hyes hno⟩
    · have hdropped : t < flagDropped s.clk.frame := by
        rw [flagDropped_eq]
        by_cases hln : (accessHv s.clk t).1 = 0
        · have hplace := hin.at_zero hfrom hnonzero hln
          have hfew : ¬2 ≤ (accessHv s.clk t).2 := fun htwo => hzero ⟨hln, htwo⟩
          omega
        · have hbefore := hin.before_zero hnear hln
          omega
      unfold Regs.flagFound
      rw [if_neg fun hclear => hzero ⟨hclear.1, hclear.2.1⟩,
        if_neg fun hraise => Bool.false_ne_true (hraise.2.2.symm.trans hset),
        flagAt_iff ⟨hpast, hdropped⟩ horder]
      exact hbit
  · rintro ⟨-, ⟨hline, -⟩ | ⟨-, hunset, -⟩⟩
    · exact hnonzero hline
    · exact absurd (hunset.symm.trans hset) Bool.false_ne_true

/-- A read on entering a frame leaves the flag down. -/
theorem FlagKept.read_enters (h : FlagKept tr s) (hin : s.clk.InRaster) (hentering : s.Entering)
    (hlater : s.clk.now ≤ t) (hnear : s.clk.Near t) {line ln hc : Nat} {mdr : BitVec 8}
    (hclk : s'.clk = s.clk) (hrdnmi : s'.regs.rdnmi = 0) (hset : s'.regs.rdnmiSet = false)
    (hcleared : s'.regs.rdnmiCleared = s.regs.rdnmiCleared) :
    FlagKept (.access t (.rdnmi line ln hc mdr) :: tr) s' := by
  obtain ⟨hline, huncleared⟩ := hentering
  obtain ⟨hstart, -⟩ := hin.upper (by omega)
  have hfrom : s.clk.lineStart ≤ t := Nat.le_trans (Nat.le_add_right _ _) hlater
  have hentering' : s'.Entering := by
    rw [Sched.Entering, hclk, hcleared]
    exact ⟨hline, huncleared⟩
  refine ⟨fun u hu => ?_, .inl hrdnmi, fun _ hdone => ?_, fun _ => ⟨hset, ?_⟩,
    fun hnot => absurd hentering' hnot, fun hnot => absurd hentering' hnot⟩
  · rw [hclk]
    rcases readAt_read.mp hu with rfl | hu
    · exact hnear
    · exact h.near u hu
  · exact absurd (hentering'.2.symm.trans hdone) Bool.false_ne_true
  · rw [hrdnmi, hclk, readFrom_read]
    refine ⟨fun hne => absurd rfl hne, fun hboth => absurd (.inl ?_) hboth.2⟩
    have hframe : s.clk.frame - 1 + 1 = s.clk.frame := by
      have hsome := hboth.1
      omega
    have hnext := frameStart_next (s.clk.frame - 1)
    rw [hframe] at hnext
    rw [flagHeld_eq]
    omega

/-- A read that is no misread keeps it. -/
theorem FlagKept.read (h : FlagKept tr s) (hin : s.clk.InRaster)
    (hidle : nextEvent s.clk s.regs = none) (hlater : s.clk.now ≤ t) (hnear : s.clk.Near t)
    (hright : ¬Misread s t) (horder : InOrder tr t) (mdr : BitVec 8) (hclk : s'.clk = s.clk)
    (hregs : s'.regs = (rdnmiRead s.clk.line (accessHv s.clk t).1 (accessHv s.clk t).2 mdr
      s.regs).2) :
    FlagKept (.access t (.rdnmi s.clk.line (accessHv s.clk t).1 (accessHv s.clk t).2 mdr) :: tr)
      s' := by
  have hfrom : s.clk.lineStart ≤ t := Nat.le_trans (Nat.le_add_right _ _) hlater
  have hstate := (rdnmiRead_found s.clk.line (accessHv s.clk t).1 (accessHv s.clk t).2 mdr s.regs).2
  rw [← hregs] at hstate
  have hrdnmi : s'.regs.rdnmi = _ := congrArg Prod.fst hstate
  have hset : s'.regs.rdnmiSet = _ := congrArg (fun p => p.2.1) hstate
  have hcleared : s'.regs.rdnmiCleared = s.regs.rdnmiCleared := congrArg (fun p => p.2.2) hstate
  by_cases hentering : s.Entering
  · have hquiet : (accessHv s.clk t).1 ≠ schedVblankLine := by
      intro hln
      obtain ⟨-, hwhere⟩ := hin.at_vblank hfrom hln
      have hline := hentering.1
      omega
    refine h.read_enters hin hentering hlater hnear hclk ?_ ?_ hcleared
    · rw [hrdnmi, if_neg fun hheld => hquiet hheld.1]
    · rw [hset, (h.entering hentering).1, decide_eq_false fun hraise => hquiet hraise.1]
      rfl
  have hout' : ¬s'.Entering := by
    rw [Sched.Entering, hclk, hcleared]
    exact hentering
  refine ⟨fun u hu => ?_, ?_, ?_, fun hentering' => absurd hentering' hout', fun _ hoff => ?_,
    fun _ hon => ?_⟩
  · rw [hclk]
    rcases readAt_read.mp hu with rfl | hu
    · exact hnear
    · exact h.near u hu
  · rw [hrdnmi]
    split
    · exact flagFound_bit h.bit
    · exact .inl rfl
  · rw [hclk, hcleared]
    exact h.cleared
  · rw [hset, Bool.or_eq_false_iff] at hoff
    obtain ⟨hunset, hno⟩ := hoff
    have hno := of_decide_eq_false hno
    obtain ⟨hbelow, -, hnone⟩ := h.unset hentering hunset
    rw [hrdnmi, h.found_unset hentering hunset, if_neg hno, ite_self, hclk, readFrom_read]
    refine ⟨hbelow, rfl, fun hraised => hraised.elim (fun hraised => ?_) hnone⟩
    rcases (raised_at hin hbelow hfrom hnear).mp hraised with hraise | hmissed
    · exact hno hraise
    · exact hright ((h.misread_iff hentering hunset hidle).mpr hmissed)
  · rw [hrdnmi, hclk, readFrom_read, readFrom_read]
    cases hon' : s.regs.rdnmiSet with
    | false =>
      rw [hset, hon', Bool.false_or, decide_eq_true_iff] at hon
      obtain ⟨hbelow, -, hnone⟩ := h.unset hentering hon'
      have hraised := (raised_at hin hbelow hfrom hnear).mpr (.inl hon)
      have hnone' : ¬ReadFrom tr (flagHeld s.clk.frame) := fun hheld =>
        hnone (hheld.mono (flagRaised_le_held _))
      have hheld := hin.held_iff hfrom hnear hraised
      rw [h.found_unset hentering hon', if_pos hon]
      refine ⟨.inr (.inl hraised), ?_⟩
      split
      next hplace =>
        have hbefore := hheld.mp hplace
        exact ⟨fun _ hor => hor.elim (Nat.not_le_of_lt hbefore) hnone',
          fun _ => (by decide : (0x80 : BitVec 8) ≠ 0)⟩
      next hplace =>
        have hafter := Nat.le_of_not_lt fun hbefore => hplace (hheld.mpr hbefore)
        exact ⟨fun hne => absurd rfl hne, fun hnot => absurd (.inl hafter) hnot⟩
    | true =>
      obtain ⟨hraised, hbit⟩ := h.set hentering hon'
      have hpast : flagRaised s.clk.frame ≤ t := hraised.elim
        (fun hnow => Nat.le_trans hnow hlater) fun hread => readFrom_le horder hread
      refine ⟨hraised.imp_right .inr, ?_⟩
      have hheld := hin.held_iff hfrom hnear hpast
      dsimp only
      split
      next hplace =>
        have hbefore := hheld.mp hplace
        have hfound : s.regs.flagFound s.clk.line (accessHv s.clk t).1 (accessHv s.clk t).2 =
            s.regs.rdnmi := by
          unfold Regs.flagFound
          rw [if_neg fun hzero => absurd (hplace.1.symm.trans hzero.1) (by decide),
            if_neg fun hraise => Bool.false_ne_true (hraise.2.2.symm.trans hon')]
        rw [hfound, hbit]
        exact ⟨fun hnone hor => hor.elim (Nat.not_le_of_lt hbefore) hnone,
          fun hnot hread => hnot (.inr hread)⟩
      next hplace =>
        have hafter := Nat.le_of_not_lt fun hbefore => hplace (hheld.mpr hbefore)
        exact ⟨fun hne => absurd rfl hne, fun hnot => absurd (.inl hafter) hnot⟩

/-- Accesses other than a $4210 read leave the flag alone. -/
theorem effect_flagState {a : RegAccess} (ha : ∀ line ln h mdr, a ≠ .rdnmi line ln h mdr)
    (r : Regs) : (a.effect r).flagState = r.flagState := by
  cases a with
  | rdnmi line ln h mdr => exact absurd rfl (ha line ln h mdr)
  | autojoy now => exact (autojoyUpdate_only now r).flagState
  | timer reg v =>
    change (htimeVtimeWrite reg v r).flagState = r.flagState
    unfold htimeVtimeWrite
    dsimp only
    split <;> rfl
  | nmitimen inProgress busN v =>
    change (nmitimenWrite inProgress busN v r).flagState = r.flagState
    unfold nmitimenWrite
    dsimp only
    split <;> rfl
  | timeup | dma | joypad => rfl

theorem near_same {c c' : Clock} (h : SameLine c c') (ht : c.Near t) : c'.Near t := by
  have hnext : c'.nextLineClocks = c.nextLineClocks := by
    simp only [Clock.nextLineClocks, h.line, h.frames, h.fieldBase]
  unfold Clock.Near at ht ⊢
  rw [h.lineStart, h.lineClocks, hnext]
  exact ht

theorem frame_same {c c' : Clock} (h : SameLine c c') : c'.frame = c.frame := by
  rw [Clock.frame, h.frames, h.fieldBase]
  rfl

theorem traceRun_flagKept (hD : D.Leaves Regs.flagState) (h : TraceRun D rdnmiGood tr s) :
    FlagKept tr s := by
  induction h with
  | powerOn h => exact .begin rfl rfl rfl hD h
  | reset h => exact .begin rfl rfl rfl hD h
  | pass pend _ same later ih =>
    exact ih.same (fun _ => .rfl) rfl same.line (frame_same same) same.lineStart later
      fun _ => near_same same
  | @turn tr s s' how run h ih =>
    have hin := run.inRaster
    cases advanceStep_regs hD h with
    | set hline hreached hunset same hregs =>
      rw [lineBegun_same (by rw [same])]
      exact ih.raise hin hline hreached hunset same hregs
    | clear hline hreached huncleared same hregs =>
      rw [lineBegun_same (by rw [same])]
      exact ih.drop hin hline huncleared hreached same hregs
    | inside same later hregs =>
      obtain ⟨timeup, pend, hregs⟩ := hregs
      rw [lineBegun_same same.lineStart]
      exact ih.same (fun _ => .rfl) hregs same.line (frame_same same) same.lineStart later
        fun _ => near_same same
    | lineEnd ended begun hset hcleared =>
      rw [lineBegun_ended ended]
      exact ih.lineEnd hin ended begun hset hcleared
  | @access tr s at' a dev run idle later order holds ih =>
    by_cases ha : ∃ line ln h mdr, a = .rdnmi line ln h mdr
    · obtain ⟨line, ln, h, mdr, rfl⟩ := ha
      obtain ⟨⟨rfl, hplace, hnear⟩, hright⟩ := holds
      obtain ⟨rfl, rfl⟩ := Prod.mk.inj hplace
      exact ih.read run.inRaster idle later hnear (hright _ _ _ _ rfl) order mdr rfl rfl
    · have hother (line ln h : Nat) (mdr : BitVec 8) : a ≠ .rdnmi line ln h mdr :=
        fun heq => ha ⟨line, ln, h, mdr, heq⟩
      refine ih.same (fun u => readAt_cons fun u line ln h mdr heq => ?_)
        (effect_flagState hother s.regs) rfl rfl rfl (Nat.le_refl _) fun _ hnear => hnear
      exact hother line ln h mdr (SchedEvent.access.inj heq).2

end Kept

/-! How often the flag is raised. -/

/-- The frame in which it has gone up since. -/
def Sched.raised {δ : Type} (before : Regs) (s : Sched δ) : List Nat :=
  if before.rdnmiSet = false ∧ s.regs.rdnmiSet = true then [s.clk.frame] else []

/-- Runs with the frames the flag was raised in, newest first. -/
inductive RaiseRun {δ : Type} (D : Devices δ)
    (good : List SchedEvent → Sched δ → Nat → RegAccess → Prop) :
    List Nat → List SchedEvent → Sched δ → Prop
  | powerOn {dev : δ} {s : Sched δ} (h : beginLine D (schedInit dev) = .ok s) :
      RaiseRun D good [] [.begun s.clk s.regs] s
  | reset {r s : Sched δ} {dev : δ} (h : beginLine D (softReset r dev) = .ok s) :
      RaiseRun D good [] [.begun s.clk s.regs] s
  | pass {raises : List Nat} {tr : List SchedEvent} {s : Sched δ} {clk : Clock} (pend : Pend)
      (run : RaiseRun D good raises tr s) (same : SameLine s.clk clk)
      (later : s.clk.hclock ≤ clk.hclock) :
      RaiseRun D good raises tr ⟨clk, { s.regs with pend }, s.dev⟩
  | turn {raises : List Nat} {tr : List SchedEvent} {s s' : Sched δ} {how : Commit}
      (run : RaiseRun D good raises tr s) (h : advanceStep D how s = .ok (some s')) :
      RaiseRun D good (s'.raised s.regs ++ raises) (s'.lineBegun s.clk ++ tr) s'
  | access {raises : List Nat} {tr : List SchedEvent} {s s' : Sched δ} {at' : Nat} (a : RegAccess)
      (run : RaiseRun D good raises tr s) (idle : nextEvent s.clk s.regs = none)
      (later : s.clk.now ≤ at') (order : InOrder tr at') (holds : good tr s at' a)
      (clk : s'.clk = s.clk) (regs : s'.regs = a.effect s.regs) :
      RaiseRun D good (s'.raised s.regs ++ raises) (.access at' a :: tr) s'

section Raises

variable {δ : Type} {D : Devices δ} {good : List SchedEvent → Sched δ → Nat → RegAccess → Prop}
  {raises : List Nat} {tr : List SchedEvent} {s s' : Sched δ}

theorem RaiseRun.traced (h : RaiseRun D good raises tr s) : TraceRun D good tr s := by
  induction h with
  | powerOn h => exact .powerOn h
  | reset h => exact .reset h
  | pass pend _ same later ih => exact ih.pass pend same later
  | turn _ h ih => exact ih.turn h
  | @access _ tr s s' at' a _ idle later order holds clk regs ih =>
    have hset := ih.access a s'.dev idle later order holds
    rw [← regs, ← clk] at hset
    exact hset

theorem TraceRun.raising (h : TraceRun D good tr s) : ∃ raises, RaiseRun D good raises tr s := by
  induction h with
  | powerOn h => exact ⟨_, .powerOn h⟩
  | reset h => exact ⟨_, .reset h⟩
  | pass pend _ same later ih =>
    obtain ⟨raises, hrun⟩ := ih
    exact ⟨_, hrun.pass pend same later⟩
  | turn _ h ih =>
    obtain ⟨raises, hrun⟩ := ih
    exact ⟨_, hrun.turn h⟩
  | access a dev _ idle later order holds ih =>
    obtain ⟨raises, hrun⟩ := ih
    exact ⟨_, hrun.access a idle later order holds rfl rfl⟩

/-- The frames so far, with the one under way where its flag has gone up. -/
def Sched.raisedFrames (s : Sched δ) : List Nat :=
  (List.range (s.clk.frame + s.regs.rdnmiSet.toNat)).reverse

theorem raised_same (hset : s'.regs.rdnmiSet = s.regs.rdnmiSet) (hframe : s'.clk.frame = s.clk.frame) :
    s'.raised s.regs ++ s.raisedFrames = s'.raisedFrames := by
  unfold Sched.raised Sched.raisedFrames
  rw [hset, hframe, if_neg fun hboth => Bool.false_ne_true (hboth.1.symm.trans hboth.2)]
  rfl

theorem raised_up (hunset : s.regs.rdnmiSet = false) (hset : s'.regs.rdnmiSet = true)
    (hframe : s'.clk.frame = s.clk.frame) :
    s'.raised s.regs ++ s.raisedFrames = s'.raisedFrames := by
  unfold Sched.raised Sched.raisedFrames
  rw [if_pos ⟨hunset, hset⟩, hset, hunset, hframe]
  simp [List.range_succ]

/-- A frame's end comes with its flag raised. -/
theorem raised_lineEnd (h : FlagKept tr s) (hin : s.clk.InRaster) (he : LineEnded s.clk s'.clk)
    (hb : LineBegun Regs.flagState s.regs s') :
    s'.raised s.regs ++ s.raisedFrames = s'.raisedFrames := by
  have hregs := lineBegun_flagState hb
  have hframe := he.frame hin
  by_cases hlast : s.clk.line + 1 = schedLines
  · have hlast' : s.clk.line + 1 = 262 := hlast
    have hon : s.regs.rdnmiSet = true := by
      by_contra hunset
      have hout : ¬s.Entering := fun hentering => by
        have hline := hentering.1
        omega
      obtain ⟨hbelow, -⟩ := h.unset hout (eq_false_of_ne_true hunset)
      omega
    have hline : s'.clk.line = 0 := by
      rw [he.line, if_pos hlast]
    rw [hline] at hregs
    have hoff : s'.regs.rdnmiSet = false := congrArg (fun p => p.2.1) hregs
    rw [if_pos hlast] at hframe
    unfold Sched.raised Sched.raisedFrames
    rw [hoff, hon, hframe, if_neg fun hboth => Bool.false_ne_true hboth.1.symm]
    rfl
  · have hline : s'.clk.line ≠ 0 := by
      rw [he.line, if_neg hlast]
      exact Nat.succ_ne_zero _
    rw [if_neg hlast] at hframe
    rw [Regs.newFrame, if_neg hline] at hregs
    exact raised_same (congrArg (fun p => p.2.1) hregs) hframe

/-- In every frame the flag goes up once. -/
theorem raiseRun_frames (hD : D.Leaves Regs.flagState) (h : RaiseRun D rdnmiGood raises tr s) :
    raises = s.raisedFrames := by
  have hbegun {before s : Sched δ} (hline : before.clk.line = 0)
      (hframe : before.clk.frames = before.clk.fieldBase) (h : beginLine D before = .ok s) :
      [] = s.raisedFrames := by
    obtain ⟨irqAt, hc⟩ := beginLine_clk h
    have hfirst : s.clk.frame = 0 := by
      rw [hc]
      change before.clk.frames - before.clk.fieldBase = 0
      omega
    have hregs := lineBegun_flagState (beginLine_begun hD rfl h)
    rw [Regs.newFrame, if_pos (by rw [hc]; exact hline)] at hregs
    have hoff : s.regs.rdnmiSet = false := congrArg (fun p => p.2.1) hregs
    rw [Sched.raisedFrames, hfirst, hoff]
    rfl
  induction h with
  | powerOn h => exact hbegun rfl rfl h
  | reset h => exact hbegun rfl rfl h
  | pass pend _ same _ ih =>
    rw [ih, Sched.raisedFrames, Sched.raisedFrames, frame_same same]
  | @turn _ tr s s' how run h ih =>
    rw [ih]
    cases advanceStep_regs hD h with
    | set _ _ hunset same hregs =>
      exact raised_up hunset (by rw [hregs]) (by rw [same])
    | clear _ _ _ same hregs => exact raised_same (by rw [hregs]) (by rw [same])
    | inside same _ hregs =>
      obtain ⟨timeup, pend, hregs⟩ := hregs
      exact raised_same (congrArg (fun p => p.2.1) hregs) (frame_same same)
    | lineEnd ended begun =>
      exact raised_lineEnd (traceRun_flagKept hD run.traced) run.traced.inRaster ended begun
  | @access _ tr s s' at' a run _ _ _ _ hclk hregs ih =>
    rw [ih]
    have hframe : s'.clk.frame = s.clk.frame := by rw [hclk]
    by_cases ha : ∃ line ln h mdr, a = .rdnmi line ln h mdr
    · obtain ⟨line, ln, h, mdr, rfl⟩ := ha
      have hstate := (rdnmiRead_found line ln h mdr s.regs).2
      have hread : s'.regs = (rdnmiRead line ln h mdr s.regs).2 := hregs
      rw [← hread] at hstate
      have hset : s'.regs.rdnmiSet = _ := congrArg (fun p => p.2.1) hstate
      cases hold : s.regs.rdnmiSet with
      | true => exact raised_same (by rw [hset, hold]; rfl) hframe
      | false =>
        cases hnew : s'.regs.rdnmiSet with
        | true => exact raised_up hold hnew hframe
        | false => exact raised_same (hnew.trans hold.symm) hframe
    · have hstate := effect_flagState (fun line ln h mdr heq => ha ⟨line, ln, h, mdr, heq⟩) s.regs
      rw [← hregs] at hstate
      exact raised_same (congrArg (fun p => p.2.1) hstate) hframe

end Raises

/-! Idling from line 224 on to clock 0 of the next line 0. -/

def frameEntered : SchedM (Wired Bench) (Sched (Wired Bench)) := do
  let (s, _) ← charge (wiredDevices bench) false nopBegun
    ⟨eveClock, eveRegs, ⟨blankBus, ⟨[], 0⟩, []⟩⟩ false
  let (s, _) ← charge (wiredDevices bench) false nopBegun s false
  idle (wiredDevices bench) 127 s

def Sched.JustEntered {δ : Type} (s : Sched δ) : Prop :=
  s.clk.line = 0 ∧ s.clk.hclock = 0 ∧ s.clk.lineStart = 357368 ∧ s.clk.frames = 1 ∧
    s.clk.fieldBase = 0 ∧ s.regs.rdnmi = 0x80 ∧ s.regs.rdnmiSet = false

instance decidableJustEntered {δ : Type} (s : Sched δ) : Decidable s.JustEntered :=
  inferInstanceAs (Decidable (_ ∧ _))

theorem frameEntered_run : ∃ tr s, TraceRun (wiredDevices bench) rdnmiGood tr s ∧
    InOrder tr 357368 ∧ (∀ u, ¬ReadAt tr u) ∧ nextEvent s.clk s.regs = none ∧ s.JustEntered := by
  have hfacts : (frameEntered.toOption.any fun s => s.JustEntered) = true := by decide +kernel
  cases hrun : frameEntered with
  | error e =>
    rw [hrun] at hfacts
    cases hfacts
  | ok s =>
    rw [hrun] at hfacts
    obtain ⟨⟨p, takeIrq⟩, hp, hrest⟩ := bind_eq_ok_iff.mp hrun
    obtain ⟨⟨q, takeIrq'⟩, hq, hidle⟩ := bind_eq_ok_iff.mp hrest
    have hfirst : ∀ tr (s : Sched (Wired Bench)) t, rdnmiGood tr s t (.joypad 4 0) :=
      fun _ _ _ => ⟨trivial, nofun⟩
    obtain ⟨tr, heve, hpads⟩ := eve_trace hfirst ⟨blankBus, ⟨[], 0⟩, []⟩
    obtain ⟨lines, hone, hlines⟩ := heve.charge hp
    obtain ⟨lines', htwo, hlines'⟩ := (hone.charge hq).idle hidle
    have hpad (u : Nat) (a : RegAccess) (hmem : .access u a ∈ lines' ++ (lines ++ tr)) :
        u = eveClock.now ∧ a = .joypad 4 0 := by
      rcases List.mem_append.mp hmem with hmem | hmem
      · exact absurd hmem (hlines' u a)
      · rcases List.mem_append.mp hmem with hmem | hmem
        · exact absurd hmem (hlines u a)
        · exact hpads u a hmem
    refine ⟨_, s, htwo, fun u a hmem => ?_, ?_, ?_, of_decide_eq_true hfacts⟩
    · rw [(hpad u a hmem).1]
      decide
    · rintro u ⟨line, ln, h, mdr, hmem⟩
      cases (hpad u _ hmem).2
    · exact idle_idle (charge_idle (charge_idle (by decide) hp) hq) hidle

end CtRecomp
