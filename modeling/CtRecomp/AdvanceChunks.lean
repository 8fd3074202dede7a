import CtRecomp.AdvanceEvents

namespace CtRecomp

open Loop

variable {δ : Type}

/-! Cutting the time up: `advance(a)`, `advance(b)` against `advance(a + b)`. -/

/-- `s'` is `s` with its clock `n` further on, the devices alike up to `R`. -/
structure Ahead (R : δ → δ → Prop) (n : Nat) (s s' : Sched δ) : Prop where
  clk : s'.clk = s.clk.later n
  regs : s'.regs = s.regs
  dev : R s.dev s'.dev

section Fields

variable {R : δ → δ → Prop} {n : Nat} {s s' : Sched δ}

theorem Ahead.line (h : Ahead R n s s') : s'.clk.line = s.clk.line := by
  rw [h.clk]
  rfl

theorem Ahead.lineStart (h : Ahead R n s s') : s'.clk.lineStart = s.clk.lineStart := by
  rw [h.clk]
  rfl

theorem Ahead.refreshPaid (h : Ahead R n s s') : s'.clk.refreshPaid = s.clk.refreshPaid := by
  rw [h.clk]
  rfl

theorem Ahead.lineClocks (h : Ahead R n s s') : s'.clk.lineClocks = s.clk.lineClocks := by
  rw [h.clk]
  rfl

theorem Ahead.hclock (h : Ahead R n s s') : s'.clk.hclock = s.clk.hclock + n := by
  rw [h.clk]
  rfl

end Fields

/-- A soft reset sets the clock back wherever it stood. -/
inductive StopAhead (R : δ → δ → Prop) : Stop (Sched δ) → Stop (Sched δ) → Prop
  | fatal (msg : String) : StopAhead R (.fatal msg) (.fatal msg)
  | reset {n : Nat} {s s' : Sched δ} (h : Ahead R n s s') : StopAhead R (.reset s) (.reset s')

/-- The devices do the same wherever in its line the clock stands, up to `R`: how
far the APU is caught up follows the clock. -/
structure Devices.Steady (D : Devices δ) (R : δ → δ → Prop) : Prop where
  refl : ∀ dev, R dev dev
  trans : ∀ dev dev' dev'', R dev dev' → R dev' dev'' → R dev dev''
  call : ∀ c clk n r dev dev', R dev dev' →
    Related (· = ·) (fun p p' => p'.1 = p.1 ∧ R p.2 p'.2)
      (D.call c clk r dev) (D.call c (clk.later n) r dev')
  resetHook : ∀ n dev dev', R dev dev' → D.resetHook n dev' = D.resetHook n dev

theorem idleDevices_steady : idleDevices.Steady (fun _ _ => True) where
  refl _ := trivial
  trans _ _ _ _ _ := trivial
  call _ _ _ _ _ _ _ := .ok ⟨rfl, trivial⟩
  resetHook _ _ _ _ := rfl

section Ahead

variable {D : Devices δ} {R : δ → δ → Prop} {n : Nat} {s s' : Sched δ}

theorem fatally_related {α α' : Type} {Q : α → α' → Prop} {x : Except String α}
    {x' : Except String α'} (h : Related (· = ·) Q x x') :
    Related (StopAhead R) Q (fatally x) (fatally x') := by
  cases h with
  | ok h => exact .ok h
  | error h =>
    subst h
    exact .error (.fatal _)

theorem run_ahead (hD : D.Steady R) (c : DeviceCall) (h : Ahead R n s s') :
    Related (StopAhead R) (Ahead R n) (D.run c s) (D.run c s') := by
  obtain ⟨clk', regs', dev'⟩ := s'
  obtain ⟨hclk, hregs, hdev⟩ := h
  subst hclk hregs
  refine (fatally_related (hD.call c s.clk n s.regs s.dev dev' hdev)).bind ?_
  rintro ⟨r, d⟩ ⟨r', d'⟩ ⟨hr, hd⟩
  exact .ok ⟨rfl, hr, hd⟩

theorem startFrame_ahead (hD : D.Steady R) (h : Ahead R n s s') :
    Related (StopAhead R) (Ahead R n) (startFrame D s) (startFrame D s') := by
  have hcleared : Ahead R n
      { s with regs := { s.regs with rdnmiSet := false, rdnmiCleared := false } }
      { s' with regs := { s'.regs with rdnmiSet := false, rdnmiCleared := false } } := by
    refine ⟨h.clk, ?_, h.dev⟩
    rw [h.regs]
  exact (run_ahead hD _ hcleared).bind fun _ _ => run_ahead hD _

theorem startVblank_ahead (hD : D.Steady R) (h : Ahead R n s s') :
    Related (StopAhead R) (Ahead R n) (startVblank D s) (startVblank D s') := by
  unfold startVblank
  refine (run_ahead hD _ h).bind fun t t' ht => ?_
  have hreset : D.resetHook (t'.clk.frames + 1) t'.dev = D.resetHook (t.clk.frames + 1) t.dev := by
    rw [ht.clk]
    exact hD.resetHook _ _ _ ht.dev
  dsimp only
  rw [hreset]
  split
  · exact .error (.reset ht)
  · refine (run_ahead hD _ ht).bind fun u u' hu => .ok ⟨hu.clk, ?_, hu.dev⟩
    rw [hu.regs, hu.lineStart]

theorem startLine_ahead (hD : D.Steady R) (h : Ahead R n s s') :
    Related (StopAhead R) (Ahead R n) (startLine D s) (startLine D s') := by
  refine (onlyIf_related (by rw [h.line]) h (startFrame_ahead hD h)).bind fun t t' ht => ?_
  refine (onlyIf_related (by rw [ht.line]) ht (startVblank_ahead hD ht)).bind fun u u' hu => ?_
  have hjoy : Ahead R n { u with regs := autojoyUpdate u.clk.lineStart u.regs }
      { u' with regs := autojoyUpdate u'.clk.lineStart u'.regs } := by
    refine ⟨hu.clk, ?_, hu.dev⟩
    rw [hu.regs, hu.lineStart]
  exact onlyIf_related (by rw [hjoy.line]) hjoy (run_ahead hD _ hjoy)

theorem beginLine_ahead (hD : D.Steady R) (h : Ahead R n s s') :
    Related (StopAhead R) (Ahead R n) (beginLine D s) (beginLine D s') := by
  refine (startLine_ahead hD h).bind fun t t' ht => ?_
  have hirq : irqClockFor t'.regs t'.clk.line = irqClockFor t.regs t.clk.line := by
    rw [ht.regs, ht.line]
  rw [hirq]
  cases irqClockFor t.regs t.clk.line with
  | error msg => exact .error (.fatal msg)
  | ok irqAt =>
    refine .ok ⟨?_, ht.regs, ht.dev⟩
    simp only [ht.clk, Clock.later]

theorem frameEdge_ahead (hD : D.Steady R) {undoFrom : Option Nat} (h : Ahead R n s s') :
    Related (StopAhead R) (Ahead R n) (frameEdge D undoFrom s) (frameEdge D undoFrom s') := by
  have hedge : Ahead R n
      { s with clk := { s.clk with
        line := 0, frames := s.clk.frames + 1, frameClock := s.clk.lineStart, frameDone := true } }
      { s' with clk := { s'.clk with
        line := 0, frames := s'.clk.frames + 1, frameClock := s'.clk.lineStart, frameDone := true } } := by
    refine ⟨?_, h.regs, h.dev⟩
    simp only [h.clk, Clock.later]
  refine onlyIf_related Iff.rfl hedge (run_ahead hD _ ⟨?_, hedge.regs, hedge.dev⟩)
  simp only [h.clk, Clock.later]

theorem endLine_ahead (hD : D.Steady R) {undoFrom : Option Nat}
    (hend : s.clk.lineClocks ≤ s.clk.hclock) (h : Ahead R n s s') :
    Related (StopAhead R) (Ahead R n) (endLine D undoFrom s) (endLine D undoFrom s') := by
  have hsync := run_ahead hD .apuSync h
  have hclk : ∀ t, D.run .apuSync s = .ok t → t.clk = s.clk := fun t ht => run_clk ht
  unfold endLine
  cases hsync' : D.run .apuSync s with
  | error e =>
    rw [hsync'] at hsync
    cases hrun : D.run .apuSync s' with
    | error e' =>
      rw [hrun] at hsync
      cases hsync with
      | error he => exact .error he
    | ok t' =>
      rw [hrun] at hsync
      cases hsync
  | ok t =>
    rw [hsync'] at hsync
    cases hrun : D.run .apuSync s' with
    | error e' =>
      rw [hrun] at hsync
      cases hsync
    | ok t' =>
      rw [hrun] at hsync
      cases hsync with
      | ok ht =>
        have hover : t.clk.lineClocks ≤ t.clk.hclock := by rw [hclk t hsync']; exact hend
        have hnext : Ahead R n
            { t with clk := { t.clk with
              hclock := t.clk.hclock - t.clk.lineClocks
              lineStart := t.clk.lineStart + t.clk.lineClocks
              line := t.clk.line + 1 } }
            { t' with clk := { t'.clk with
              hclock := t'.clk.hclock - t'.clk.lineClocks
              lineStart := t'.clk.lineStart + t'.clk.lineClocks
              line := t'.clk.line + 1 } } := by
          refine ⟨?_, ht.regs, ht.dev⟩
          rw [ht.lineClocks]
          simp only [ht.clk, Clock.later, Clock.mk.injEq, true_and, and_true]
          omega
        refine (onlyIf_related ?_ hnext (frameEdge_ahead hD hnext)).bind
          fun _ _ => beginLine_ahead hD
        dsimp only
        rw [ht.line]

theorem hblank_ahead (hD : D.Steady R) (h : Ahead R n s s') :
    Related (StopAhead R) (Ahead R n) (hblank D s) (hblank D s') := by
  refine (onlyIf_related (by rw [h.line]) h
    ((run_ahead hD _ h).bind fun _ _ => run_ahead hD _)).bind fun t t' ht => ?_
  refine .ok ⟨?_, ht.regs, ht.dev⟩
  simp only [ht.clk, Clock.later]

/-- Any event but a line's end does the same further on; a line's end does once it
is due. -/
theorem fire_ahead (hD : D.Steady R) {how : Commit} {e : ClockEvent}
    (he : nextEvent s.clk s.regs = some e) (h : Ahead R n s s') :
    Related (StopAhead R) (Ahead R n) (e.fire D how s) (e.fire D how s') := by
  cases e with
  | rdnmiSet =>
    refine .ok ⟨h.clk, ?_, h.dev⟩
    rw [h.regs]
  | rdnmiClear =>
    refine .ok ⟨h.clk, ?_, h.dev⟩
    rw [h.regs]
  | nmi =>
    refine .ok ⟨?_, ?_, h.dev⟩
    · simp only [passNmi, h.clk, Clock.later]
    · simp only [passNmi, h.regs]
  | refresh =>
    refine .ok ?_
    unfold passRefresh
    rw [h.refreshPaid]
    split
    · refine ⟨?_, h.regs, h.dev⟩
      simp only [h.clk, Clock.later]
    · refine ⟨?_, h.regs, h.dev⟩
      simp only [h.clk, Clock.later, Clock.mk.injEq, true_and, and_true]
      omega
  | irq =>
    refine .ok ⟨?_, ?_, h.dev⟩
    · simp only [raiseIrq, h.clk, Clock.later]
    · simp only [raiseIrq, h.regs]
  | hdmaPoint => exact hblank_ahead hD h
  | lineEnd =>
    refine endLine_ahead hD ?_ h
    unfold nextEvent at he
    split at he
    · cases he
    split at he
    · cases he
    split at he
    · cases he
    split at he
    · cases he
    split at he
    · cases he
    split at he
    · cases he
    split at he
    · cases he
    split at he
    · assumption
    · cases he

end Ahead

end CtRecomp
