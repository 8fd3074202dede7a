import CtRecomp.AdvanceEvents

namespace CtRecomp

open Loop

variable {δ : Type}

/-! Runs with a record of what happened in them, event by event. -/

inductive SchedEvent
  /-- A line begun, with the clock and the registers it begins with. -/
  | begun (clk : Clock) (regs : Regs)
  /-- An access, at its own clock. -/
  | access (at' : Nat) (a : RegAccess)

def Clock.now (c : Clock) : Nat := c.lineStart + c.hclock

/-- No access so far was made after `t`. -/
def InOrder (tr : List SchedEvent) (t : Nat) : Prop := ∀ u a, .access u a ∈ tr → u ≤ t

/-- The line a turn has begun. -/
def Sched.lineBegun (before : Clock) (s : Sched δ) : List SchedEvent :=
  if s.clk.lineStart = before.lineStart then [] else [.begun s.clk s.regs]

/-- Runs, newest event first, from power-on or the last soft reset. The CPU makes its accesses
in order, and none before `advance` has nothing left to do. -/
inductive TraceRun (D : Devices δ) (good : List SchedEvent → Sched δ → Nat → RegAccess → Prop) :
    List SchedEvent → Sched δ → Prop
  | powerOn {dev : δ} {s : Sched δ} (h : beginLine D (schedInit dev) = .ok s) :
      TraceRun D good [.begun s.clk s.regs] s
  | reset {r s : Sched δ} {dev : δ} (h : beginLine D (softReset r dev) = .ok s) :
      TraceRun D good [.begun s.clk s.regs] s
  | pass {tr : List SchedEvent} {s : Sched δ} {clk : Clock} (pend : Pend)
      (run : TraceRun D good tr s) (same : SameLine s.clk clk)
      (later : s.clk.hclock ≤ clk.hclock) :
      TraceRun D good tr ⟨clk, { s.regs with pend }, s.dev⟩
  | turn {tr : List SchedEvent} {s s' : Sched δ} {how : Commit} (run : TraceRun D good tr s)
      (h : advanceStep D how s = .ok (some s')) : TraceRun D good (s'.lineBegun s.clk ++ tr) s'
  | access {tr : List SchedEvent} {s : Sched δ} {at' : Nat} (a : RegAccess) (dev : δ)
      (run : TraceRun D good tr s) (idle : nextEvent s.clk s.regs = none)
      (later : s.clk.now ≤ at') (order : InOrder tr at') (holds : good tr s at' a) :
      TraceRun D good (.access at' a :: tr) { s with regs := a.effect s.regs, dev }

theorem lineBegun_same {before : Clock} {s : Sched δ}
    (h : s.clk.lineStart = before.lineStart) : s.lineBegun before = [] := if_pos h

theorem lineBegun_ended {before : Clock} {s : Sched δ} (h : LineEnded before s.clk) :
    s.lineBegun before = [.begun s.clk s.regs] := by
  have hlen := before.lineClocks_ge
  have hstart := h.lineStart
  exact if_neg (by omega)

section TraceRun

variable {D : Devices δ} {good : List SchedEvent → Sched δ → Nat → RegAccess → Prop}
  {tr : List SchedEvent} {s s' : Sched δ}

theorem TraceRun.mono {good' : List SchedEvent → Sched δ → Nat → RegAccess → Prop}
    (h : TraceRun D good tr s) (imp : ∀ tr s t a, good tr s t a → good' tr s t a) :
    TraceRun D good' tr s := by
  induction h with
  | powerOn h => exact .powerOn h
  | reset h => exact .reset h
  | pass pend _ same later ih => exact ih.pass pend same later
  | turn _ h ih => exact ih.turn h
  | access a dev _ idle later order holds ih =>
    exact ih.access a dev idle later order (imp _ _ _ _ holds)

/-- The run goes on with lines begun only. -/
def Continues (D : Devices δ) (good : List SchedEvent → Sched δ → Nat → RegAccess → Prop)
    (tr : List SchedEvent) (s : Sched δ) : Prop :=
  ∃ lines, TraceRun D good (lines ++ tr) s ∧ ∀ u a, .access u a ∉ lines

theorem Continues.refl (h : TraceRun D good tr s) : Continues D good tr s :=
  ⟨[], h, fun _ _ => List.not_mem_nil⟩

theorem Continues.pass {clk : Clock} (pend : Pend) (h : Continues D good tr s)
    (same : SameLine s.clk clk) (later : s.clk.hclock ≤ clk.hclock) :
    Continues D good tr ⟨clk, { s.regs with pend }, s.dev⟩ := by
  obtain ⟨lines, hrun, hlines⟩ := h
  exact ⟨lines, hrun.pass pend same later, hlines⟩

theorem Continues.turn {how : Commit} (h : Continues D good tr s)
    (ht : advanceStep D how s = .ok (some s')) : Continues D good tr s' := by
  obtain ⟨lines, hrun, hlines⟩ := h
  refine ⟨s'.lineBegun s.clk ++ lines, ?_, fun u a hmem => ?_⟩
  · rw [List.append_assoc]
    exact hrun.turn ht
  · rcases List.mem_append.mp hmem with hmem | hmem
    · unfold Sched.lineBegun at hmem
      split at hmem
      next => cases hmem
      next => cases List.mem_singleton.mp hmem
    · exact hlines u a hmem

theorem Continues.advance {how : Commit} {clocks : Nat} (h : Continues D good tr s)
    (ha : advance D how clocks s = .ok s') : Continues D good tr s' := by
  refine measured_invariant (P := Continues D good tr) (fun a b hab ht => hab.turn ht) ?_ ha
  exact h.pass s.regs.pend (by constructor <;> rfl) (Nat.le_add_right _ _)

theorem Continues.walkCommit {w : Walk} {start t : Nat} (h : Continues D good tr s)
    (hc : walkCommit D w start t s = .ok s') : Continues D good tr s' := by
  obtain ⟨a, ha, hc⟩ := bind_eq_ok_iff.mp hc
  have hadvanced : Continues D good tr a := by
    refine Continues.advance (s := ⟨_, s.regs, s.dev⟩) (h.pass s.regs.pend ?_ ?_) ha
    · split <;> constructor <;> rfl
    · split <;> exact Nat.le_refl _
  cases hc
  split
  next => exact hadvanced.pass a.regs.pend (by constructor <;> rfl) (Nat.le_refl _)
  next => exact hadvanced

/-- Charging an instruction. -/
theorem TraceRun.charge {insnI takeIrq takeIrq' : Bool} {b : Begun} (h : TraceRun D good tr s)
    (hc : charge D insnI b s takeIrq = .ok (s', takeIrq')) : Continues D good tr s' := by
  have hpend (p : Pend) : Continues D good tr (s.setPend p) :=
    (Continues.refl h).pass p (by constructor <;> rfl) (Nat.le_refl _)
  unfold CtRecomp.charge at hc
  split at hc
  next =>
    cases hc
    exact .refl h
  next =>
  split at hc
  next =>
    obtain ⟨a, ha, hc⟩ := bind_eq_ok_iff.mp hc
    cases hc
    exact (hpend _).advance ha
  next =>
    obtain ⟨⟨w, smp⟩, -, hc⟩ := bind_eq_ok_iff.mp hc
    obtain ⟨a, ha, hc⟩ := bind_eq_ok_iff.mp hc
    cases hc
    exact (hpend _).walkCommit ha

/-- One idle cycle of `WAI`. -/
theorem Continues.waiCycle {i seen : Bool} (h : Continues D good tr s)
    (hc : waiCycle D i s = .ok (s', seen)) : Continues D good tr s' := by
  obtain ⟨a, ha, hc⟩ := bind_eq_ok_iff.mp hc
  obtain ⟨⟨w, seen⟩, -, hc⟩ := bind_eq_ok_iff.mp hc
  obtain ⟨b, hb, hc⟩ := bind_eq_ok_iff.mp hc
  cases hc
  have hran : Continues D good tr a :=
    onlyIf_invariant (Continues D good tr) h (fun _ hr => h.advance hr) ha
  exact (hran.pass w.pend (by constructor <;> rfl) (Nat.le_refl _)).walkCommit hb

theorem TraceRun.waiCycle {i seen : Bool} (h : TraceRun D good tr s)
    (hc : waiCycle D i s = .ok (s', seen)) : Continues D good tr s' :=
  (Continues.refl h).waiCycle hc

/-- From power-on. -/
theorem TraceRun.start {startDelay : Nat} {dev : δ} (h : schedStart D startDelay dev = .ok s) :
    ∃ tr, TraceRun D good tr s := by
  obtain ⟨r, hr, h⟩ := bind_eq_ok_iff.mp h
  have hbegun : TraceRun D good [.begun r.clk r.regs] r := .powerOn hr
  obtain ⟨lines, hrun, -⟩ := (Continues.refl hbegun).advance h
  exact ⟨_, hrun⟩

/-- From the reset button. -/
theorem TraceRun.restart {startDelay : Nat} {dev : δ} {r : Sched δ}
    (h : restart D startDelay dev r = .ok s) : ∃ tr, TraceRun D good tr s := by
  obtain ⟨r, hr, h⟩ := bind_eq_ok_iff.mp h
  have hbegun : TraceRun D good [.begun r.clk r.regs] r := .reset hr
  obtain ⟨lines, hrun, -⟩ := (Continues.refl hbegun).advance h
  exact ⟨_, hrun⟩

/-! After each of them `advance` has nothing left to do. -/

theorem advance_idle {how : Commit} {clocks : Nat} (h : advance D how clocks s = .ok s') :
    nextEvent s'.clk s'.regs = none := by
  have falls : ∀ a b : Sched δ, True → advanceStep D how a = .ok (some b) →
      True ∧ advanceMeasure b < advanceMeasure a := by
    intro a b _ ht
    cases advanceStep_turn ht with
    | event _ hfalls => exact ⟨trivial, hfalls⟩
  have hdone := measured_done falls trivial h
  rw [advanceStep_eq] at hdone
  cases hnext : nextEvent s'.clk s'.regs with
  | none => rfl
  | some e =>
    rw [hnext] at hdone
    obtain ⟨r, -, hr⟩ := map_eq_ok_iff.mp hdone
    cases hr

theorem nextEvent_noted {c : Clock} {r : Regs} (init nmi : Bool) (h : nextEvent c r = none) :
    nextEvent { c with initDone := init, nmiDone := c.nmiDone || nmi } r = none := by
  unfold nextEvent at h ⊢
  split at h
  next => cases h
  next hset =>
  split at h
  next => cases h
  next hclear =>
  split at h
  next => cases h
  next hnmi =>
  rw [if_neg hset, if_neg hclear, if_neg fun hdue => hnmi ⟨(Bool.or_eq_false_iff.mp hdue.1).1, hdue.2⟩]
  exact h

theorem walkCommit_idle {w : Walk} {start t : Nat} (h : walkCommit D w start t s = .ok s') :
    nextEvent s'.clk s'.regs = none := by
  obtain ⟨a, ha, h⟩ := bind_eq_ok_iff.mp h
  have hidle := advance_idle ha
  cases h
  split
  next => exact nextEvent_noted _ _ hidle
  next => exact hidle

theorem charge_idle {insnI takeIrq takeIrq' : Bool} {b : Begun}
    (hs : nextEvent s.clk s.regs = none) (h : charge D insnI b s takeIrq = .ok (s', takeIrq')) :
    nextEvent s'.clk s'.regs = none := by
  unfold charge at h
  split at h
  next =>
    cases h
    exact hs
  next =>
  split at h
  next =>
    obtain ⟨a, ha, h⟩ := bind_eq_ok_iff.mp h
    cases h
    exact advance_idle ha
  next =>
    obtain ⟨⟨w, smp⟩, -, h⟩ := bind_eq_ok_iff.mp h
    obtain ⟨a, ha, h⟩ := bind_eq_ok_iff.mp h
    cases h
    exact walkCommit_idle ha

theorem waiCycle_idle {i seen : Bool} (h : waiCycle D i s = .ok (s', seen)) :
    nextEvent s'.clk s'.regs = none := by
  obtain ⟨a, -, h⟩ := bind_eq_ok_iff.mp h
  obtain ⟨⟨w, seen⟩, -, h⟩ := bind_eq_ok_iff.mp h
  obtain ⟨b, hb, h⟩ := bind_eq_ok_iff.mp h
  cases h
  exact walkCommit_idle hb

/-- The line under way begins where the raster has it. -/
theorem TraceRun.inRaster (h : TraceRun D good tr s) : s.clk.InRaster := by
  induction h with
  | powerOn h =>
    obtain ⟨irqAt, hc⟩ := beginLine_clk h
    rw [hc]
    exact ⟨Nat.zero_lt_succ _, Nat.le_refl _, by simp [schedInit, lineBegin, frameStart]⟩
  | reset h =>
    obtain ⟨irqAt, hc⟩ := beginLine_clk h
    rw [hc]
    exact ⟨Nat.zero_lt_succ _, Nat.le_refl _, by simp [softReset, lineBegin, frameStart]⟩
  | pass _ _ same _ ih => exact inRaster_lineInvariant.inside _ _ same ih
  | turn _ h ih =>
    cases advanceStep_turn h with
    | event hclk _ =>
      cases hclk with
      | inside same => exact inRaster_lineInvariant.inside _ _ same ih
      | refresh hp => exact inRaster_lineInvariant.inside _ _ hp.same ih
      | lineEnd he => exact ih.lineEnd he
  | access _ _ _ _ _ _ _ ih => exact ih

end TraceRun

/-! What a line's end does to the registers, device calls apart. -/

/-- Device calls leave `f` of the registers alone. -/
def Devices.Leaves {β : Type} (D : Devices δ) (f : Regs → β) : Prop :=
  ∀ c clk r dev r' dev', D.call c clk r dev = .ok (r', dev') → f r' = f r

section Turns

variable {β : Type} {D : Devices δ} {f : Regs → β} {s s' : Sched δ}

theorem run_leaves (hD : D.Leaves f) {c : DeviceCall} (h : D.run c s = .ok s') :
    f s'.regs = f s.regs := by
  obtain ⟨⟨regs, dev⟩, hcall, h⟩ := bind_eq_ok_iff.mp h
  cases h
  exact hD _ _ _ _ _ _ (fatally_eq_ok.mp hcall)

/-- A new frame's line 0 forgets that the flag was raised and dropped. -/
def Regs.newFrame (line : Nat) (r : Regs) : Regs :=
  if line = 0 then { r with rdnmiSet := false, rdnmiCleared := false } else r

/-- Line 225 arms the read of the pads. -/
def Regs.vblankArmed (line lineStart : Nat) (r : Regs) : Regs :=
  if line = schedVblankLine then autojoyArm lineStart r else r

theorem startLine_regs (hD : D.Leaves f) (h : startLine D s = .ok s') :
    ∃ called, f called = f (s.regs.newFrame s.clk.line) ∧
      f s'.regs = f (autojoyUpdate s.clk.lineStart (called.vblankArmed s.clk.line s.clk.lineStart)) ∧
      (schedHeight < s.clk.line → s'.regs =
        autojoyUpdate s.clk.lineStart (called.vblankArmed s.clk.line s.clk.lineStart)) := by
  obtain ⟨framed, hf, h⟩ := bind_eq_ok_iff.mp h
  obtain ⟨blanked, hb, h⟩ := bind_eq_ok_iff.mp h
  have hframed : f framed.regs = f (s.regs.newFrame s.clk.line) ∧ framed.clk = s.clk := by
    unfold onlyIf at hf
    split at hf
    next hline =>
      refine ⟨?_, startFrame_clk hf⟩
      obtain ⟨drawn, hd, hf⟩ := bind_eq_ok_iff.mp hf
      rw [run_leaves hD hf, run_leaves hD hd, Regs.newFrame, if_pos hline]
    next hline =>
      cases hf
      exact ⟨by rw [Regs.newFrame, if_neg hline], rfl⟩
  obtain ⟨hkept, hclk⟩ := hframed
  have hblanked : ∃ called, f called = f framed.regs ∧
      blanked.regs = called.vblankArmed s.clk.line s.clk.lineStart ∧ blanked.clk = s.clk := by
    rw [hclk] at hb
    unfold onlyIf at hb
    split at hb
    next hline =>
      have hsame := startVblank_clk hb
      obtain ⟨drawn, hd, hb⟩ := bind_eq_ok_iff.mp hb
      split at hb
      next => cases hb
      next =>
        obtain ⟨reloaded, hr, hb⟩ := bind_eq_ok_iff.mp hb
        cases hb
        have hnow : reloaded.clk = s.clk := hsame.trans hclk
        refine ⟨reloaded.regs, (run_leaves hD hr).trans (run_leaves hD hd), ?_, hnow⟩
        rw [hnow, Regs.vblankArmed, if_pos hline]
    next hline =>
      cases hb
      exact ⟨framed.regs, rfl, by rw [Regs.vblankArmed, if_neg hline], hclk⟩
  obtain ⟨called, hcalled, hregs, hnow⟩ := hblanked
  refine ⟨called, hcalled.trans hkept, ?_, fun hbelow => ?_⟩
  · rw [hregs, hnow] at h
    unfold onlyIf at h
    dsimp only at h
    split at h
    next => exact run_leaves hD h
    next =>
      cases h
      rfl
  · rw [hregs, hnow] at h
    rw [onlyIf, if_neg (Nat.not_le_of_lt hbelow)] at h
    cases h
    rfl

theorem beginLine_regs (h : beginLine D s = .ok s') :
    ∃ started, startLine D s = .ok started ∧ s'.regs = started.regs := by
  obtain ⟨started, hs, h⟩ := bind_eq_ok_iff.mp h
  obtain ⟨irqAt, -, h⟩ := bind_eq_ok_iff.mp h
  cases h
  exact ⟨started, hs, rfl⟩

/-- A line begun: the registers the last line left, a new frame's flags, then the pads armed
and brought up to date at its start. -/
def LineBegun (f : Regs → β) (before : Regs) (s : Sched δ) : Prop :=
  ∃ ended called, f ended = f before ∧ f called = f (ended.newFrame s.clk.line) ∧
    f s.regs = f (autojoyUpdate s.clk.lineStart (called.vblankArmed s.clk.line s.clk.lineStart)) ∧
    (schedHeight < s.clk.line →
      s.regs = autojoyUpdate s.clk.lineStart (called.vblankArmed s.clk.line s.clk.lineStart))

theorem beginLine_begun (hD : D.Leaves f) {before : Regs} (hbefore : f s.regs = f before)
    (h : beginLine D s = .ok s') : LineBegun f before s' := by
  obtain ⟨irqAt, hc⟩ := beginLine_clk h
  obtain ⟨started, hs, hregs⟩ := beginLine_regs h
  obtain ⟨called, hcalled, hkept, hbelow⟩ := startLine_regs hD hs
  refine ⟨s.regs, called, hbefore, ?_, ?_, ?_⟩
  · rw [hc]
    exact hcalled
  · rw [hc, hregs]
    exact hkept
  · rw [hc, hregs]
    exact hbelow

theorem frameEdge_leaves (hD : D.Leaves f) {undoFrom : Option Nat}
    (h : frameEdge D undoFrom s = .ok s') : f s'.regs = f s.regs := by
  unfold frameEdge onlyIf at h
  dsimp only at h
  split at h
  next =>
    have hcall := run_leaves hD h
    exact hcall
  next =>
    cases h
    rfl

theorem endLine_begun (hD : D.Leaves f) {undoFrom : Option Nat} (h : endLine D undoFrom s = .ok s') :
    LineBegun f s.regs s' := by
  obtain ⟨synced, hs, h⟩ := bind_eq_ok_iff.mp h
  obtain ⟨wrapped, hw, h⟩ := bind_eq_ok_iff.mp h
  refine beginLine_begun hD ?_ h
  rw [← run_leaves hD hs]
  refine onlyIf_invariant (fun r => f r.regs = f synced.regs) rfl (fun r hr => ?_) hw
  have hedge := frameEdge_leaves hD hr
  exact hedge

/-- One turn of `advance` as the registers see it. -/
inductive RegsTurn (f : Regs → β) (s s' : Sched δ) : Prop
  | set (line : s.clk.line = schedVblankLine) (reached : 2 ≤ s.clk.hclock)
      (unset : s.regs.rdnmiSet = false) (same : s'.clk = s.clk)
      (regs : s'.regs = { s.regs with rdnmi := 0x80, rdnmiSet := true })
  | clear (line : s.clk.line = 0) (reached : 2 ≤ s.clk.hclock)
      (uncleared : s.regs.rdnmiCleared = false) (same : s'.clk = s.clk)
      (regs : s'.regs = { s.regs with rdnmi := 0, rdnmiCleared := true })
  | inside (same : SameLine s.clk s'.clk) (later : s.clk.hclock ≤ s'.clk.hclock)
      (regs : ∃ timeup pend, f s'.regs = f { s.regs with timeup, pend })
  | lineEnd (ended : LineEnded s.clk s'.clk) (begun : LineBegun f s.regs s')
      (set : s.clk.line = schedVblankLine → s.regs.rdnmiSet = true)
      (cleared : s.clk.line = 0 → s.regs.rdnmiCleared = true)

theorem hblank_leaves (hD : D.Leaves f) (h : hblank D s = .ok s') : f s'.regs = f s.regs := by
  obtain ⟨drawn, hd, h⟩ := bind_eq_ok_iff.mp h
  cases h
  refine onlyIf_invariant (fun r => f r.regs = f s.regs) rfl (fun r hr => ?_) hd
  obtain ⟨mid, hm, hr⟩ := bind_eq_ok_iff.mp hr
  exact (run_leaves hD hr).trans (run_leaves hD hm)

/-- The registers' side of `advanceStep_turn`. -/
theorem advanceStep_regs (hD : D.Leaves f) {how : Commit}
    (h : advanceStep D how s = .ok (some s')) : RegsTurn f s s' := by
  simp only [advanceStep] at h
  split at h
  next hd =>
    cases h
    exact .set hd.1 hd.2.2 hd.2.1 rfl rfl
  next hset =>
  split at h
  next hd =>
    cases h
    exact .clear hd.1 hd.2.2 hd.2.1 rfl rfl
  next hclear =>
  split at h
  next hd =>
    cases h
    exact .inside (by constructor <;> rfl) (Nat.le_refl _) ⟨_, _, rfl⟩
  next =>
  split at h
  next hd =>
    cases h
    unfold passRefresh
    split
    · exact .inside (by constructor <;> rfl) (Nat.le_refl _) ⟨_, _, rfl⟩
    · exact .inside (by constructor <;> rfl) (Nat.le_add_right _ _) ⟨_, _, rfl⟩
  next hrefresh =>
  split at h
  next hd =>
    cases h
    exact .inside (by constructor <;> rfl) (Nat.le_refl _) ⟨_, _, rfl⟩
  next =>
  split at h
  next hd =>
    obtain ⟨r, hr, hout⟩ := map_eq_ok_iff.mp h
    cases hout
    have hclk := hblank_clk hr
    refine .inside (by constructor <;> simp [hclk]) (by simp [hclk]) ⟨s.regs.timeup, s.regs.pend, ?_⟩
    exact hblank_leaves hD hr
  next =>
  split at h
  next hd =>
    cases h
    exact .inside (by constructor <;> rfl) (Nat.le_refl _) ⟨_, _, rfl⟩
  next =>
  split at h
  next hover =>
    obtain ⟨r, hr, hout⟩ := map_eq_ok_iff.mp h
    cases hout
    have hlen := s.clk.lineClocks_ge
    have hlate : 2 ≤ s.clk.hclock := by omega
    refine .lineEnd (endLine_clk hover ?_ hr) (endLine_begun hD hr) (fun hline => ?_) fun hline => ?_
    · cases hdone : s.clk.refreshDone with
      | true => exact .inl rfl
      | false => exact .inr (Nat.lt_of_not_le fun hat => hrefresh ⟨hdone, hat⟩)
    · exact eq_true_of_ne_false fun hoff => hset ⟨hline, hoff, hlate⟩
    · exact eq_true_of_ne_false fun hoff => hclear ⟨hline, hoff, hlate⟩
  next => cases h

end Turns

end CtRecomp
