import Mathlib.Algebra.Ring.Nat
import CtRecomp.SchedHooks

namespace CtRecomp

open Loop

variable {δ : Type}

/-! Charging whole, and the walk it skips. -/

def chargeWhole (D : Devices δ) (insnI : Bool) (b : Begun) (s : Sched δ) :
    SchedM δ (Sched δ × Bool) := do
  let prevIrq := s.regs.pend.irqLine && !insnI
  let s ← advance D ⟨false, none⟩ b.clocks (s.setPend { s.regs.pend with prevIrq })
  pure (s, prevIrq)

def chargeWalked (D : Devices δ) (insnI : Bool) (b : Begun) (s : Sched δ) :
    SchedM δ (Sched δ × Bool) := do
  let start := s.clk.lineStart + s.clk.hclock
  let (w, _) ← fatally (walkInsn D insnI b.cycles s)
  let s := s.setPend { w.pend with dmaAfter := none, nmiAfter := none }
  let s ← walkCommit D w start w.t s
  pure (s, w.pend.prevIrq)

theorem charge_eq (D : Devices δ) (insnI : Bool) (b : Begun) (s : Sched δ) (takeIrq : Bool)
    (hb : b.clocks ≠ 0) : charge D insnI b s takeIrq =
      if inside D b.clocks s = false then chargeWhole D insnI b s else chargeWalked D insnI b s := by
  unfold charge
  rw [if_neg hb]
  rfl

/-- Nothing is inside the next `clocks` clocks. -/
structure Outside (D : Devices δ) (clocks : Nat) (s : Sched δ) : Prop where
  transfer : s.regs.pend.transfer = false
  dmaAfter : s.regs.pend.dmaAfter = none
  nmiCount : s.regs.pend.nmiCount = 0
  nmiAfter : s.regs.pend.nmiAfter = none
  nmi : s.clk.nmiDone = true ∨ s.clk.hclock + clocks < 6
  irq : s.clk.irqDone = true ∨ ∀ at', s.clk.irqAt = some at' → s.clk.hclock + clocks < at'
  line : s.clk.hclock + clocks < s.clk.lineClocks
  refresh : s.clk.refreshDone = true ∨ s.clk.hclock + clocks < s.clk.refreshAt
  hdma : s.clk.hblankDone = true ∨ schedVblankLine ≤ s.clk.line ∨
    s.clk.hclock + clocks < schedHdmaClock ∨ D.hdmaEnabled s.dev = false
  init : s.clk.line ≠ 0 ∨ s.clk.initDone = true ∨
    s.clk.hclock + clocks < 12 + s.clk.lineStart % 8

theorem inside_false {D : Devices δ} {clocks : Nat} {s : Sched δ}
    (h : inside D clocks s = false) : Outside D clocks s := by
  simp only [inside, Bool.or_eq_false_iff, decide_eq_false_iff_not, not_and, Nat.not_le] at h
  obtain ⟨⟨⟨⟨⟨⟨⟨⟨⟨htransfer, hdma⟩, hcount⟩, hafter⟩, hnmi⟩, hirq⟩, hline⟩, hrefresh⟩, hhdma⟩, hinit⟩ := h
  refine ⟨htransfer, by simpa using hdma, by simpa using hcount, by simpa using hafter, ?_, ?_, hline,
    ?_, ?_, ?_⟩
  · cases hd : s.clk.nmiDone with
    | true => exact .inl rfl
    | false => exact .inr (hnmi hd)
  · cases hd : s.clk.irqDone with
    | true => exact .inl rfl
    | false =>
      refine .inr fun at' hat => ?_
      have hnot := hirq hd
      rw [hat] at hnot
      simpa using hnot
  · cases hd : s.clk.refreshDone with
    | true => exact .inl rfl
    | false => exact .inr (hrefresh hd)
  · cases hd : s.clk.hblankDone with
    | true => exact .inl rfl
    | false =>
      rcases Nat.lt_or_ge s.clk.line schedVblankLine with hlt | hge
      · rcases Nat.lt_or_ge (s.clk.hclock + clocks) schedHdmaClock with hbefore | hpast
        · exact .inr (.inr (.inl hbefore))
        · exact .inr (.inr (.inr (by simpa using hhdma hd hlt hpast)))
      · exact .inr (.inl hge)
  · by_cases hz : s.clk.line = 0
    · cases hd : s.clk.initDone with
      | true => exact .inr (.inl rfl)
      | false => exact .inr (.inr (hinit hz hd))
    · exact .inl hz

/-- An HDMA point comes on the lines above VBlank only. -/
def HdmaPoint (w : Walk) (e : WalkEvent × Nat) : Prop :=
  e.1 = .hdma → w.line < schedVblankLine ∧ e.2 = w.ls + schedHdmaClock

theorem walkNext_hdmaPoint (base : Nat) (w : Walk) : HdmaPoint w (walkNext base w) := by
  have other {k : WalkEvent} {clock : Nat} (hne : k ≠ .hdma) : HdmaPoint w (k, clock) :=
    fun hk => absurd hk hne
  unfold walkNext
  refine sooner_of (sooner_of (sooner_of ?_ ?_) ?_) fun h _ => ⟨h.2, rfl⟩
  · cases w.irqAt with
    | none => exact sooner_of (other (by decide)) fun _ => other (by decide)
    | some clock =>
      refine sooner_of ?_ fun _ => other (by decide)
      exact sooner_of (other (by decide)) fun _ => other (by decide)
  · exact fun _ => other (by decide)
  · exact fun _ => other (by decide)

/-- A walk that has met nothing but an HDMA point with no channel enabled: past it or
not, `pend` apart, only its clock has moved. -/
structure Unmet (D : Devices δ) (s : Sched δ) (w : Walk) : Prop where
  same : w = { walkInit s with t := w.t, hdmaDone := w.hdmaDone, pend := w.pend }
  hdma : w.hdmaDone = s.clk.hblankDone ∨ D.hdmaEnabled s.dev = false

section

variable {D : Devices δ} {s : Sched δ} {clocks : Nat} {w : Walk}

/-- The walk's next event is past the end, or an HDMA point. -/
theorem Unmet.next (hw : Unmet D s w) (ho : Outside D clocks s) (hat : s.clk.RefreshAtLine) :
    s.clk.lineStart + s.clk.hclock + clocks < (walkNext s.clk.fieldBase w).2 ∨
      (walkNext s.clk.fieldBase w).1 = .hdma := by
  have hline := ho.line
  have hrefreshAt : s.clk.refreshAt = 530 + 8 - s.clk.lineStart % 8 := hat
  rw [hw.same]
  let Later : WalkEvent × Nat → Prop := fun e =>
    s.clk.lineStart + s.clk.hclock + clocks < e.2 ∨ e.1 = .hdma
  change Later (walkNext _ _)
  unfold walkNext
  refine sooner_of (sooner_of (sooner_of ?_ ?_) ?_) fun _ => .inr rfl
  · have hend : s.clk.lineStart + s.clk.hclock + clocks <
        s.clk.lineStart + s.clk.lineClocks := by omega
    have hnmi : s.clk.line = schedVblankLine ∧ s.clk.nmiDone = false →
        s.clk.lineStart + s.clk.hclock + clocks < s.clk.lineStart + 6 ∨
          WalkEvent.nmi = .hdma := by
      rintro ⟨-, hdone⟩
      rcases ho.nmi with hd | hlt
      · rw [hdone] at hd
        cases hd
      · exact .inl (by omega)
    have hfirst : Later (sooner (s.clk.line = schedVblankLine ∧ s.clk.nmiDone = false) .nmi
        (s.clk.lineStart + 6) (.lineEnd, s.clk.lineStart + s.clk.lineClocks)) :=
      sooner_of (.inl hend) hnmi
    cases hirq : (walkInit s).irqAt with
    | none => exact hfirst
    | some at' =>
      refine sooner_of hfirst fun hdone => ?_
      rcases ho.irq with hd | hlt
      · have hcontra : s.clk.irqDone = false := hdone
        rw [hd] at hcontra
        cases hcontra
      · have hlt := hlt at' hirq
        exact .inl (by change _ < s.clk.lineStart + at'; omega)
  · rintro ⟨hz, hdone⟩
    rcases ho.init with hnz | hd | hlt
    · exact absurd hz hnz
    · have hcontra : s.clk.initDone = false := hdone
      rw [hd] at hcontra
      cases hcontra
    · exact .inl (by change _ < s.clk.lineStart + 12 + s.clk.lineStart % 8; omega)
  · intro hdone
    rcases ho.refresh with hd | hlt
    · have hcontra : s.clk.refreshDone = false := hdone
      rw [hd] at hcontra
      cases hcontra
    · exact .inl (by change _ < s.clk.lineStart + 538 - s.clk.lineStart % 8; omega)

theorem Unmet.init : Unmet D s (walkInit s) := ⟨rfl, .inl rfl⟩

theorem Unmet.moved (hw : Unmet D s w) (t : Nat) (p : Pend) :
    Unmet D s { w with t, pend := p } := by
  obtain ⟨hsame, hhdma⟩ := hw
  refine ⟨?_, hhdma⟩
  rw [hsame]

/-- A turn of the pass within the time charged. -/
theorem Unmet.turn (ho : Outside D clocks s) (hat : s.clk.RefreshAtLine) {p : Pass}
    (hw : Unmet D s p.w) (hend : p.endAt ≤ s.clk.lineStart + s.clk.hclock + clocks) :
    walkStep D s p = .ok none ∨
      ∃ w, walkStep D s p = .ok (some { p with w }) ∧ Unmet D s w ∧ w.t = p.w.t ∧
        w.pend = p.w.pend := by
  unfold walkStep
  by_cases hlater : p.endAt < (walkNext s.clk.fieldBase p.w).2
  · exact .inl (if_pos hlater)
  · right
    have hkind : (walkNext s.clk.fieldBase p.w).1 = .hdma :=
      (hw.next ho hat).resolve_left (by omega)
    have hopen := walkNext_open s.clk.fieldBase p.w
    simp only [WalkEvent.Open, hkind] at hopen
    have hoff : D.hdmaEnabled s.dev = false := by
      refine hw.hdma.elim (fun hsame => ?_) id
      rcases ho.hdma with hd | hline | hbefore | hoff
      · rw [hd, hopen.2] at hsame
        cases hsame
      · exact absurd (walkNext_hdmaPoint _ _ hkind).1 (by rw [hw.same]; exact Nat.not_lt.mpr hline)
      · have hpoint := (walkNext_hdmaPoint _ _ hkind).2
        have hls : p.w.ls = s.clk.lineStart := by rw [hw.same]; rfl
        omega
      · exact hoff
    refine ⟨{ p.w with hdmaDone := true }, ?_, ?_, rfl, rfl⟩
    · rw [if_neg hlater, hkind]
      simp only [walkEvent, Pass.change, hoff, Bool.false_eq_true, if_false]
      rfl
    · refine ⟨?_, .inr hoff⟩
      rw [hw.same]

theorem Unmet.pass (ho : Outside D clocks s) (hat : s.clk.RefreshAtLine) (hw : Unmet D s w)
    {n : Nat} (hend : w.t + n ≤ s.clk.lineStart + s.clk.hclock + clocks) (sample : Nat) :
    ∃ w' smp, walkPass D s n sample w = .ok (w', smp) ∧ Unmet D s w' ∧ w'.t = w.t + n ∧
      w'.pend = w.pend := by
  let Passing : Pass → Prop := fun p =>
    Unmet D s p.w ∧ p.endAt = w.t + n ∧ p.w.pend = w.pend
  have total : ∀ p, Passing p → ∃ next, walkStep D s p = .ok next := by
    rintro p ⟨hp, hp', -⟩
    rcases hp.turn ho hat (by omega) with h | ⟨w', h, -⟩
    · exact ⟨_, h⟩
    · exact ⟨_, h⟩
  have keep : ∀ p q, Passing p → walkStep D s p = .ok (some q) → Passing q := by
    rintro p q ⟨hp, hp', hpend⟩ hq
    rcases hp.turn ho hat (by omega) with h | ⟨w', h, hw', -, hpend'⟩
    · rw [h] at hq
      cases hq
    · rw [h] at hq
      cases hq
      exact ⟨hw', hp', hpend'.trans hpend⟩
  have hstart : Passing ⟨w, w.t + n, w.t + sample⟩ := ⟨hw, rfl, rfl⟩
  obtain ⟨p, hp⟩ : ∃ p, measured (walkStep D s) walkMeasure ⟨w, w.t + n, w.t + sample⟩ = .ok p :=
    iterate_total total keep hstart
  obtain ⟨hpw, hpend, hppend⟩ := measured_invariant keep hstart hp
  refine ⟨{ p.w with t := p.endAt }, p.smp, ?_, hpw.moved _ _, hpend, hppend⟩
  unfold walkPass
  rw [hp]
  rfl

/-- What a cycle leaves of `pend`: the IRQ line as its start saw it. -/
def Sched.sampled (s : Sched δ) (i : Bool) : Pend :=
  { s.regs.pend with prevIrq := s.regs.pend.irqLine && !i }

theorem Unmet.cycle (ho : Outside D clocks s) (hat : s.clk.RefreshAtLine) (hw : Unmet D s w)
    {prevIrq : Bool} (hpend : w.pend = { s.regs.pend with prevIrq }) (i : Bool) {c : Cycle}
    (hend : w.t + c.clk ≤ s.clk.lineStart + s.clk.hclock + clocks) :
    ∃ w' smp, walkCycle D s i c w = .ok (w', smp) ∧ Unmet D s w' ∧ w'.t = w.t + c.clk ∧
      w'.pend = s.sampled i := by
  have hquiet : w.pend.transfer = false := by rw [hpend]; exact ho.transfer
  have hsample : w.pend.sample false i = s.sampled i := by
    simp [Pend.sample, hpend, Sched.sampled, ho.nmiCount]
  have hstart : walkCycleStart D s c.clk i w = .ok (w.setPend (s.sampled i)) := by
    simp only [walkCycleStart, walkPending, hquiet, if_true, ok_bind, hsample]
    rfl
  obtain ⟨w', smp, hpass, hw', ht, hpend'⟩ := (hw.moved w.t (s.sampled i)).pass ho hat hend
    (if c.kind = .read then c.clk - 4 else c.clk)
  have hkept : w'.accessed c = w' := by
    have hedge : w'.edge = false := by rw [hw'.same]; rfl
    have hp : w'.pend = s.sampled i := hpend'
    have hdma : w'.pend.dmaAfter = none := by rw [hp]; exact ho.dmaAfter
    have hnmi : w'.pend.nmiAfter = none := by rw [hp]; exact ho.nmiAfter
    have haccess : w'.pend.access c = w'.pend := by
      cases hidx : c.idx <;> simp [Pend.access, hidx, hdma, hnmi]
    unfold Walk.accessed Walk.noteWrite
    rw [if_neg (by rw [hedge]; exact fun h => Bool.noConfusion h.1), haccess]
    rfl
  refine ⟨w', smp, ?_, hw', ht, hpend'⟩
  unfold walkCycle
  rw [hstart]
  change (walkPass D s c.clk _ (w.setPend (s.sampled i)) >>= _) = _
  change walkPass D s c.clk _ (w.setPend (s.sampled i)) = _ at hpass
  rw [hpass]
  change Except.ok (w'.accessed c, smp) = _
  rw [hkept]

theorem Unmet.cycles (ho : Outside D clocks s) (hat : s.clk.RefreshAtLine) (i : Bool)
    {cs : List Cycle} (hw : Unmet D s w) {prevIrq : Bool}
    (hpend : w.pend = { s.regs.pend with prevIrq })
    (hend : w.t + (cs.map Cycle.clk).sum ≤ s.clk.lineStart + s.clk.hclock + clocks) (smp : Nat) :
    ∃ w' smp', walkCycles D s i cs (w, smp) = .ok (w', smp') ∧ Unmet D s w' ∧
      w'.t = w.t + (cs.map Cycle.clk).sum ∧ (cs ≠ [] → w'.pend = s.sampled i) := by
  induction cs generalizing w prevIrq smp with
  | nil => exact ⟨w, smp, rfl, hw, rfl, fun h => absurd rfl h⟩
  | cons c cs ih =>
    rw [List.map_cons, List.sum_cons] at hend ⊢
    obtain ⟨v, smp₁, hv, hvw, hvt, hvpend⟩ := hw.cycle ho hat hpend i (c := c) (by omega)
    obtain ⟨w', smp', hw', hww, hwt, hwpend⟩ := ih hvw hvpend (by omega) smp₁
    refine ⟨w', smp', ?_, hww, by omega, fun _ => ?_⟩
    · simp only [walkCycles, hv, ok_bind]
      exact hw'
    · cases cs with
      | nil =>
        cases hw'
        exact hvpend
      | cons _ _ => exact hwpend (List.cons_ne_nil _ _)

/-- Where `advance` is when no event inside the time charged is left but the HDMA
point: the clock has moved on, the rest of it stands. -/
def Passing (s : Sched δ) (clocks : Nat) (r : Sched δ) : Prop :=
  r.clk = { s.clk with hclock := s.clk.hclock + clocks, hblankDone := r.clk.hblankDone }

theorem Passing.step (ho : Outside D clocks s) {r : Sched δ} (hr : Passing s clocks r)
    (how : Commit) : advanceStep D how r = advanceStep D ⟨false, none⟩ r ∧
      ∀ r', advanceStep D how r = .ok (some r') → Passing s clocks r' := by
  have hnmi : ¬(r.clk.nmiDone = false ∧ 6 ≤ r.clk.hclock) := by
    rw [hr]
    rintro ⟨hdone, hpast⟩
    rcases ho.nmi with hd | hlt
    · exact Bool.noConfusion (hd.symm.trans hdone)
    · exact absurd hpast (Nat.not_le.mpr hlt)
  have hrefresh : ¬(r.clk.refreshDone = false ∧ r.clk.refreshAt ≤ r.clk.hclock) := by
    rw [hr]
    rintro ⟨hdone, hpast⟩
    rcases ho.refresh with hd | hlt
    · exact Bool.noConfusion (hd.symm.trans hdone)
    · exact absurd hpast (Nat.not_le.mpr hlt)
  have hirq : ¬(r.clk.irqDone = false ∧ r.clk.irqAt.any (· ≤ r.clk.hclock)) := by
    rw [hr]
    rintro ⟨hdone, hany⟩
    rcases ho.irq with hd | hlt
    · exact Bool.noConfusion (hd.symm.trans hdone)
    · obtain ⟨at', hat', hpast⟩ := (Option.any_eq_true _ _).mp hany
      exact absurd (hlt at' hat') (Nat.not_lt.mpr (of_decide_eq_true hpast))
  have hearly : ¬(r.clk.irqDone = false ∧
      r.clk.irqAt.any (fun at' => at' < schedHdmaClock ∧ at' ≤ r.clk.hclock)) := by
    rintro ⟨hdone, hany⟩
    obtain ⟨at', hat', hpast⟩ := (Option.any_eq_true _ _).mp hany
    refine hirq ⟨hdone, (Option.any_eq_true _ _).mpr ⟨at', hat', ?_⟩⟩
    exact decide_eq_true (of_decide_eq_true hpast).2
  have hline : ¬r.clk.lineClocks ≤ r.clk.hclock := by
    have hlen : r.clk.lineClocks = s.clk.lineClocks := by rw [hr]; rfl
    rw [hlen, hr]
    exact Nat.not_le.mpr ho.line
  simp only [advanceStep, if_neg hnmi, if_neg hrefresh, if_neg hirq, if_neg hearly, if_neg hline]
  refine ⟨trivial, fun r' hstep => ?_⟩
  split at hstep
  next =>
    cases hstep
    exact hr
  next =>
  split at hstep
  next =>
    cases hstep
    exact hr
  next =>
  split at hstep
  next =>
    obtain ⟨r'', hblank, hout⟩ := map_eq_ok_iff.mp hstep
    cases hout
    have hclk := hblank_clk hblank
    unfold Passing
    rw [hclk, hr]
  next => cases hstep

/-- Committed from a walk or not, the charge is the same. -/
theorem Outside.advance (ho : Outside D clocks s) (p : Pend) (how : Commit) :
    advance D how clocks (s.setPend p) = advance D ⟨false, none⟩ clocks (s.setPend p) ∧
      ∀ r, CtRecomp.advance D how clocks (s.setPend p) = .ok r → Passing s clocks r := by
  have hstart : Passing s clocks { s.setPend p with
      clk := { s.clk with hclock := s.clk.hclock + clocks } } := rfl
  exact ⟨iterate_congr (fun r hr => (hr.step ho how).1)
      (fun r r' hr => (hr.step ho how).2 r') hstart,
    fun r h => measured_invariant (fun r r' hr => (hr.step ho how).2 r') hstart h⟩

/-- The commit of such a walk is the charge. -/
theorem Unmet.commit (hw : Unmet D s w) (ho : Outside D clocks s)
    (ht : w.t = s.clk.lineStart + s.clk.hclock + clocks)
    (p : Pend) : walkCommit D w (s.clk.lineStart + s.clk.hclock) w.t (s.setPend p) =
      CtRecomp.advance D ⟨false, none⟩ clocks (s.setPend p) := by
  have hdone : w.initDone = s.clk.initDone ∧ w.nmiDone = s.clk.nmiDone := by
    rw [hw.same]
    exact ⟨rfl, rfl⟩
  have hclk : w.refreshes = 0 ∧ w.dmaHi = 0 ∧ w.undoFrom = none := by
    rw [hw.same]
    exact ⟨rfl, rfl, rfl⟩
  have htime : w.t - (s.clk.lineStart + s.clk.hclock) = clocks := by omega
  obtain ⟨hsame, hpassing⟩ := ho.advance p ⟨true, none⟩
  unfold walkCommit
  rw [hclk.1, hclk.2.1, hclk.2.2, htime]
  change (CtRecomp.advance D ⟨true, none⟩ clocks (s.setPend p) >>= _) = _
  rw [hsame] at hpassing ⊢
  cases hrun : CtRecomp.advance D ⟨false, none⟩ clocks (s.setPend p) with
  | error e => rfl
  | ok r =>
    have hr : Passing s clocks r := hpassing r hrun
    have hflags : (r.clk.initDone || w.initDone) = r.clk.initDone ∧
        (r.clk.nmiDone || w.nmiDone) = r.clk.nmiDone := by
      rw [hdone.1, hdone.2, hr]
      exact ⟨Bool.or_self _, Bool.or_self _⟩
    rw [ok_bind, hflags.1, hflags.2]
    split <;> rfl

/-- The walk `charge` skips meets nothing, ends where the charge does with the IRQ line
sampled, and would have left the same. -/
def Skips (D : Devices δ) (insnI : Bool) (b : Begun) (s : Sched δ) : Prop :=
  ∃ w smp, walkInsn D insnI b.cycles s = .ok (w, smp) ∧ Unmet D s w ∧
    w.t = s.clk.lineStart + s.clk.hclock + b.clocks ∧ w.pend = s.sampled insnI ∧
    chargeWalked D insnI b s = chargeWhole D insnI b s

theorem skips_iff {b : Begun} (insnI : Bool) (ho : Outside D b.clocks s)
    (hat : s.clk.RefreshAtLine) (hsome : b.cycles ≠ [])
    (hle : (b.cycles.map Cycle.clk).sum ≤ b.clocks) :
    Skips D insnI b s ↔ (b.cycles.map Cycle.clk).sum = b.clocks := by
  have hend : (walkInit s).t + (b.cycles.map Cycle.clk).sum ≤
      s.clk.lineStart + s.clk.hclock + b.clocks := by
    change _ + _ + _ ≤ _
    omega
  have hsame : (walkInit s).pend = { s.regs.pend with prevIrq := s.regs.pend.prevIrq } := rfl
  obtain ⟨w, smp, hwalk, hw, ht, hpend⟩ :=
    Unmet.init.cycles ho hat insnI hsame hend (walkInit s).t
  have hstart : (walkInit s).t = s.clk.lineStart + s.clk.hclock := rfl
  rw [hstart] at ht
  change walkInsn D insnI b.cycles s = _ at hwalk
  constructor
  · rintro ⟨w', smp', hwalk', -, ht', -⟩
    have hsame : w' = w := by
      have heq := hwalk'.symm.trans hwalk
      cases heq
      rfl
    rw [hsame, ht] at ht'
    omega
  · intro hsum
    have hp := hpend hsome
    have htime : w.t = s.clk.lineStart + s.clk.hclock + b.clocks := by omega
    refine ⟨w, smp, hwalk, hw, htime, hp, ?_⟩
    have hpend' : ({ w.pend with dmaAfter := none, nmiAfter := none } : Pend) = s.sampled insnI := by
      rw [hp]
      simp [Sched.sampled, ho.dmaAfter, ho.nmiAfter]
    unfold chargeWalked
    rw [hwalk]
    change (walkCommit D w _ w.t (s.setPend { w.pend with
      dmaAfter := none, nmiAfter := none }) >>= fun r => pure (r, w.pend.prevIrq)) = _
    rw [hpend', hp, hw.commit ho htime]
    rfl

end

end CtRecomp
