import CtRecomp.AdvanceChunks

namespace CtRecomp

open Loop

variable {δ : Type}

/-! The refresh and the H/V timer's clock inside their line. -/

structure Clock.Timed (c : Clock) : Prop where
  refreshAt : c.RefreshAtLine
  irqAt : ∀ at' ∈ c.irqAt, 10 ≤ at' ∧ at' ≤ 1362 ∧ at' % 2 = 0

theorem irqClockFor_bounds {r : Regs} {ln : Nat} {irqAt : Option Nat}
    (h : irqClockFor r ln = .ok irqAt) :
    ∀ at' ∈ irqAt, 10 ≤ at' ∧ at' ≤ 1362 ∧ at' % 2 = 0 := by
  unfold irqClockFor at h
  dsimp only at h
  split at h
  next => cases h; simp
  next =>
  split at h
  next =>
    cases h
    split
    next =>
      split
      all_goals simp
    next => simp
  next =>
  split at h
  next => cases h; simp
  next =>
  split at h
  next => cases h; simp
  next =>
  split at h
  next => cases h
  next hh =>
    cases h
    intro at' hat
    cases hat
    omega

section Timed

variable {D : Devices δ} {s s' : Sched δ}

theorem beginLine_timed (h : beginLine D s = .ok s') : s'.clk.Timed := by
  obtain ⟨started, -, h⟩ := bind_eq_ok_iff.mp h
  obtain ⟨irqAt, hirq, h⟩ := bind_eq_ok_iff.mp h
  cases h
  exact ⟨rfl, irqClockFor_bounds (fatally_eq_ok.mp hirq)⟩

theorem fire_timed {how : Commit} {e : ClockEvent} (hs : s.clk.Timed)
    (h : e.fire D how s = .ok s') : s'.clk.Timed := by
  cases e with
  | rdnmiSet => cases h; exact hs
  | rdnmiClear => cases h; exact hs
  | nmi => cases h; exact ⟨hs.refreshAt, hs.irqAt⟩
  | refresh =>
    cases h
    unfold passRefresh
    split
    · exact ⟨hs.refreshAt, hs.irqAt⟩
    · exact ⟨hs.refreshAt, hs.irqAt⟩
  | irq => cases h; exact ⟨hs.refreshAt, hs.irqAt⟩
  | hdmaPoint =>
    rw [hblank_clk h]
    exact ⟨hs.refreshAt, hs.irqAt⟩
  | lineEnd =>
    obtain ⟨synced, -, h⟩ := bind_eq_ok_iff.mp h
    obtain ⟨wrapped, -, h⟩ := bind_eq_ok_iff.mp h
    exact beginLine_timed h

/-- A turn of the loop fires its next event. -/
theorem advanceStep_some {how : Commit} :
    advanceStep D how s = .ok (some s') ↔
      ∃ e, nextEvent s.clk s.regs = some e ∧ e.fire D how s = .ok s' := by
  rw [advanceStep_eq]
  cases nextEvent s.clk s.regs with
  | none => simp
  | some e =>
    dsimp only
    rw [map_eq_ok_iff]
    simp

theorem advance_timed {how : Commit} {clocks : Nat} (hs : s.clk.Timed)
    (h : advance D how clocks s = .ok s') : s'.clk.Timed := by
  refine measured_invariant (P := fun r : Sched δ => r.clk.Timed) (fun a b ha hab => ?_) ?_ h
  · obtain ⟨e, -, hfire⟩ := advanceStep_some.mp hab
    exact fire_timed ha hfire
  · exact ⟨hs.refreshAt, hs.irqAt⟩

theorem walkCommit_timed {w : Walk} {start t : Nat}
    (hs : s.clk.Timed) (h : walkCommit D w start t s = .ok s') : s'.clk.Timed := by
  obtain ⟨a, ha, h⟩ := bind_eq_ok_iff.mp h
  have hadvanced : a.clk.Timed := by
    refine advance_timed ?_ ha
    dsimp only
    split
    · exact ⟨hs.refreshAt, hs.irqAt⟩
    · exact ⟨hs.refreshAt, hs.irqAt⟩
  cases h
  split
  · exact ⟨hadvanced.refreshAt, hadvanced.irqAt⟩
  · exact hadvanced

theorem charge_timed {insnI takeIrq takeIrq' : Bool} {b : Begun} (hs : s.clk.Timed)
    (h : charge D insnI b s takeIrq = .ok (s', takeIrq')) : s'.clk.Timed := by
  unfold charge at h
  split at h
  next =>
    cases h
    exact hs
  next =>
  split at h
  next =>
    obtain ⟨a, ha, h⟩ := bind_eq_ok_iff.mp h
    cases h
    refine advance_timed ?_ ha
    exact hs
  next =>
    obtain ⟨⟨w, smp⟩, -, h⟩ := bind_eq_ok_iff.mp h
    obtain ⟨a, ha, h⟩ := bind_eq_ok_iff.mp h
    cases h
    refine walkCommit_timed ?_ ha
    exact hs

theorem waiCycle_timed {i seen : Bool} (hs : s.clk.Timed)
    (h : waiCycle D i s = .ok (s', seen)) : s'.clk.Timed := by
  obtain ⟨a, ha, h⟩ := bind_eq_ok_iff.mp h
  obtain ⟨⟨w, seen⟩, -, h⟩ := bind_eq_ok_iff.mp h
  obtain ⟨b, hb, h⟩ := bind_eq_ok_iff.mp h
  cases h
  have hran : a.clk.Timed :=
    onlyIf_invariant (fun r => r.clk.Timed) hs (fun _ hr => advance_timed hs hr) ha
  refine walkCommit_timed ?_ hb
  exact hran

theorem restart_timed {startDelay : Nat} {dev : δ} (h : restart D startDelay dev s = .ok s') :
    s'.clk.Timed := by
  obtain ⟨r, hr, h⟩ := bind_eq_ok_iff.mp h
  exact advance_timed (beginLine_timed hr) h

/-- Every line of every run. -/
theorem hookRun_timed {good : Clock → RegAccess → Prop} (h : HookRun D good s) : s.clk.Timed := by
  induction h with
  | start h =>
    obtain ⟨r, hr, h⟩ := bind_eq_ok_iff.mp h
    exact advance_timed (beginLine_timed hr) h
  | step _ h ih =>
    cases h with
    | charge h => exact charge_timed ih h
    | wai h => exact waiCycle_timed ih h
    | access => exact ih
    | chargeReset _ again => exact restart_timed again
    | waiReset _ again => exact restart_timed again

end Timed

/-! Where looking at the clock only later finds another event first. -/

/-- The loop tries the refresh before the timer, which may be the earlier of the
two in the line; a line of 1360 clocks ends before its clock 1362. -/
inductive Cut (b : Nat) (c : Clock) (r : Regs) : Prop
  | refresh (next : nextEvent c r = some .irq) (pending : c.refreshDone = false)
      (reached : c.refreshAt ≤ c.hclock + b)
  | shortLine (next : nextEvent c r = some .lineEnd) (pending : c.irqDone = false)
      (reached : c.irqAt.any (· ≤ c.hclock + b))

theorem later_nextEvent_eq (b : Nat) (c : Clock) (r : Regs) : nextEvent (c.later b) r =
    if c.line = schedVblankLine ∧ r.rdnmiSet = false ∧ 2 ≤ c.hclock + b then some .rdnmiSet
    else if c.line = 0 ∧ r.rdnmiCleared = false ∧ 2 ≤ c.hclock + b then some .rdnmiClear
    else if c.nmiDone = false ∧ 6 ≤ c.hclock + b then some .nmi
    else if c.refreshDone = false ∧ c.refreshAt ≤ c.hclock + b then some .refresh
    else if c.irqDone = false ∧
      c.irqAt.any (fun at' => at' < schedHdmaClock ∧ at' ≤ c.hclock + b) then some .irq
    else if c.hblankDone = false ∧ schedHdmaClock ≤ c.hclock + b then some .hdmaPoint
    else if c.irqDone = false ∧ c.irqAt.any (· ≤ c.hclock + b) then some .irq
    else if c.lineClocks ≤ c.hclock + b then some .lineEnd
    else none := rfl

theorem nextEvent_later {c : Clock} {r : Regs} {e : ClockEvent} {b : Nat} (hc : c.Timed)
    (he : nextEvent c r = some e) (hcut : ¬Cut b c r) : nextEvent (c.later b) r = some e := by
  have hat : c.refreshAt = 538 - c.lineStart % 8 := hc.refreshAt
  have hirq := hc.irqAt
  have hlen := c.lineClocks_ge
  have hrefresh : e = .irq → c.refreshDone = false → ¬c.refreshAt ≤ c.hclock + b :=
    fun h hp hr => hcut (.refresh (h ▸ he) hp hr)
  have hshort : e = .lineEnd → c.irqDone = false → ¬c.irqAt.any (· ≤ c.hclock + b) = true :=
    fun h hp hr => hcut (.shortLine (h ▸ he) hp hr)
  have hlater : c.hclock ≤ c.hclock + b := Nat.le_add_right _ _
  rw [later_nextEvent_eq]
  unfold nextEvent at he
  generalize c.hclock + b = h' at *
  generalize c.irqAt = irqAt at *
  split at he
  next hset =>
    cases he
    rw [if_pos (by grind)]
  next hset =>
  split at he
  next hcleared =>
    cases he
    rw [if_neg (by grind), if_pos (by grind)]
  next hcleared =>
  split at he
  next hnmi =>
    cases he
    rw [if_neg (by grind), if_neg (by grind), if_pos (by grind)]
  next hnmi =>
  split at he
  next href =>
    cases he
    rw [if_neg (by grind), if_neg (by grind), if_neg (by grind), if_pos (by grind)]
  next href =>
  -- what comes first in the line is over by clock 10, the timer's earliest
  have hfirst : 10 ≤ c.hclock → ¬(c.line = schedVblankLine ∧ r.rdnmiSet = false ∧ 2 ≤ h') ∧
      ¬(c.line = 0 ∧ r.rdnmiCleared = false ∧ 2 ≤ h') ∧ ¬(c.nmiDone = false ∧ 6 ≤ h') := by
    grind
  cases irqAt with
  | none =>
    simp only [Option.any_none, Bool.false_eq_true, and_false, if_false] at he ⊢
    split at he
    next hpoint =>
      cases he
      obtain ⟨h1, h2, h3⟩ := hfirst (by grind)
      rw [if_neg h1, if_neg h2, if_neg h3, if_neg (by grind), if_pos (by grind)]
    next hpoint =>
    split at he
    next hend =>
      cases he
      obtain ⟨h1, h2, h3⟩ := hfirst (by grind)
      rw [if_neg h1, if_neg h2, if_neg h3, if_neg (by grind), if_neg (by grind), if_pos (by grind)]
    next => cases he
  | some a =>
    have hbounds := hirq a rfl
    simp only [Option.any_some, decide_eq_true_eq] at he hshort ⊢
    split at he
    next hearly =>
      cases he
      obtain ⟨h1, h2, h3⟩ := hfirst (by grind)
      rw [if_neg h1, if_neg h2, if_neg h3, if_neg (by grind), if_pos (by grind)]
    next hearly =>
    split at he
    next hpoint =>
      cases he
      obtain ⟨h1, h2, h3⟩ := hfirst (by grind)
      rw [if_neg h1, if_neg h2, if_neg h3, if_neg (by grind), if_neg (by grind), if_pos (by grind)]
    next hpoint =>
    split at he
    next hlate =>
      cases he
      obtain ⟨h1, h2, h3⟩ := hfirst (by grind)
      rw [if_neg h1, if_neg h2, if_neg h3, if_neg (by grind), if_neg (by grind),
        if_neg (by grind), if_pos (by grind)]
    next hlate =>
    split at he
    next hend =>
      cases he
      obtain ⟨h1, h2, h3⟩ := hfirst (by grind)
      rw [if_neg h1, if_neg h2, if_neg h3, if_neg (by grind), if_neg (by grind),
        if_neg (by grind), if_neg (by grind), if_pos (by grind)]
    next => cases he

theorem Cut.nextEvent_ne {b : Nat} {c : Clock} {r : Regs} (h : Cut b c r) :
    nextEvent (c.later b) r ≠ nextEvent c r := by
  cases h with
  | refresh next pending reached =>
    rw [next, later_nextEvent_eq]
    split
    · simp
    split
    · simp
    split
    · simp
    rw [if_pos ⟨pending, reached⟩]
    simp
  | shortLine next pending reached =>
    rw [next, later_nextEvent_eq]
    split
    · simp
    split
    · simp
    split
    · simp
    split
    · simp
    split
    · simp
    split
    · simp
    rw [if_pos ⟨pending, reached⟩]
    simp

/-- The timer's event, found next, is due, and the refresh is not. -/
theorem nextEvent_irq {c : Clock} {r : Regs} (h : nextEvent c r = some .irq) :
    (∃ at' ∈ c.irqAt, at' ≤ c.hclock) ∧ ¬(c.refreshDone = false ∧ c.refreshAt ≤ c.hclock) := by
  unfold nextEvent at h
  split at h
  · cases h
  split at h
  · cases h
  split at h
  · cases h
  split at h
  · cases h
  next hrefresh =>
  split at h
  next hirq =>
    refine ⟨?_, hrefresh⟩
    obtain ⟨at', hat, hdue⟩ := (Option.any_eq_true _ _).mp hirq.2
    exact ⟨at', hat, (of_decide_eq_true hdue).2⟩
  split at h
  · cases h
  split at h
  next hirq =>
    refine ⟨?_, hrefresh⟩
    obtain ⟨at', hat, hdue⟩ := (Option.any_eq_true _ _).mp hirq.2
    exact ⟨at', hat, of_decide_eq_true hdue⟩
  split at h
  · cases h
  · cases h

/-- A line's end, found next, has the timer's event after it. -/
theorem nextEvent_lineEnd {c : Clock} {r : Regs} (h : nextEvent c r = some .lineEnd) :
    c.lineClocks ≤ c.hclock ∧ ¬(c.irqDone = false ∧ c.irqAt.any (· ≤ c.hclock)) := by
  unfold nextEvent at h
  split at h
  · cases h
  split at h
  · cases h
  split at h
  · cases h
  split at h
  · cases h
  split at h
  · cases h
  split at h
  · cases h
  split at h
  · cases h
  next hirq =>
  split at h
  next hend => exact ⟨hend, hirq⟩
  · cases h

/-- Which clocks these are. -/
theorem Cut.clocks {b : Nat} {c : Clock} {r : Regs} (hc : c.Timed) (h : Cut b c r) :
    (∃ at' ∈ c.irqAt, at' ≤ c.hclock ∧ c.hclock < c.refreshAt ∧ c.refreshAt ≤ c.hclock + b) ∨
      c.lineClocks = 1360 ∧ c.irqAt = some 1362 ∧ c.hclock < 1362 ∧ 1362 ≤ c.hclock + b := by
  cases h with
  | refresh next pending reached =>
    obtain ⟨⟨at', hat, hdue⟩, hrefresh⟩ := nextEvent_irq next
    refine .inl ⟨at', hat, hdue, ?_, reached⟩
    exact Nat.lt_of_not_le fun hle => hrefresh ⟨pending, hle⟩
  | shortLine next pending reached =>
    obtain ⟨hend, hirq⟩ := nextEvent_lineEnd next
    cases hat : c.irqAt with
    | none =>
      rw [hat] at reached
      cases reached
    | some at' =>
      obtain ⟨-, hle, heven⟩ := hc.irqAt at' hat
      simp only [hat, Option.any_some, decide_eq_true_eq, pending, true_and] at reached hirq
      refine .inr ?_
      have hlen := c.lineClocks_ge
      have hlen' : c.lineClocks = 1360 ∨ c.lineClocks = 1364 := by
        unfold Clock.lineClocks
        split
        · exact .inl rfl
        · exact .inr rfl
      have hlast : at' = 1362 := by omega
      subst hlast
      exact ⟨by omega, rfl, by omega, reached⟩

/-! The two ways of passing the time. -/

/-- The same events, and the same state but for how far the devices are caught up. -/
structure SameOutcome (R : δ → δ → Prop) (x y : List Happening × SchedM δ (Sched δ)) : Prop where
  events : x.1 = y.1
  result : Related (StopAhead R) (Ahead R 0) x.2 y.2

/-- The states the loop goes through. -/
def Turns (D : Devices δ) (how : Commit) : Sched δ → Sched δ → Prop :=
  Relation.ReflTransGen (fun s s' => advanceStep D how s = .ok (some s'))

/-- No event of `advance(a)` would be found in another place `b` clocks later. -/
def Uncut (D : Devices δ) (how : Commit) (a b : Nat) (s : Sched δ) : Prop :=
  ∀ u, Turns D how (s.later a) u → ¬Cut b u.clk u.regs

/-- A trail with `advance(b)` after it. -/
def thenAdvance (D : Devices δ) (how : Commit) (b : Nat) (x : List Happening × SchedM δ (Sched δ)) :
    List Happening × SchedM δ (Sched δ) :=
  match x.2 with
  | .error e => (x.1, .error e)
  | .ok s => (x.1 ++ (advanceTrail D how b s).1, (advanceTrail D how b s).2)

theorem advanceTwice_eq (D : Devices δ) (how : Commit) (a b : Nat) (s : Sched δ) :
    advanceTwice D how a b s = thenAdvance D how b (fullTrail D how (s.later a)) := rfl

theorem later_later (a b : Nat) (s : Sched δ) : (s.later a).later b = s.later (a + b) := by
  simp [Sched.later, Clock.later, Nat.add_assoc]

section Chunks

variable {D : Devices δ} {R : δ → δ → Prop} {how : Commit} {s s' s'' : Sched δ}

theorem Ahead.trans (hD : D.Steady R) {n m : Nat} (h : Ahead R n s s') (h' : Ahead R m s' s'') :
    Ahead R (n + m) s s'' := by
  refine ⟨?_, h'.regs.trans h.regs, hD.trans _ _ _ h.dev h'.dev⟩
  rw [h'.clk, h.clk]
  simp [Clock.later, Nat.add_assoc]

theorem later_ahead (hD : D.Steady R) (n : Nat) (s : Sched δ) : Ahead R n s (s.later n) :=
  ⟨rfl, rfl, hD.refl _⟩

theorem SameOutcome.refl (hD : D.Steady R) (x : List Happening × SchedM δ (Sched δ)) :
    SameOutcome R x x := by
  refine ⟨rfl, ?_⟩
  have hahead (u : Sched δ) : Ahead R 0 u u := ⟨rfl, rfl, hD.refl _⟩
  cases x.2 with
  | ok u => exact .ok (hahead u)
  | error e =>
    cases e with
    | fatal msg => exact .error (.fatal msg)
    | reset u => exact .error (.reset (hahead u))

theorem SameOutcome.trans (hD : D.Steady R) {x y z : List Happening × SchedM δ (Sched δ)}
    (h : SameOutcome R x y) (h' : SameOutcome R y z) : SameOutcome R x z := by
  refine ⟨h.events.trans h'.events, ?_⟩
  have hxy := h.result
  have hyz := h'.result
  generalize x.2 = rx at *
  generalize y.2 = ry at *
  generalize z.2 = rz at *
  cases hxy with
  | ok hu =>
    cases hyz with
    | ok hv => exact .ok (hu.trans hD hv)
  | error hu =>
    cases hyz with
    | error hv =>
      cases hu with
      | fatal msg =>
        cases hv with
        | fatal => exact .error (.fatal msg)
      | reset hu =>
        cases hv with
        | reset hv => exact .error (.reset (hu.trans hD hv))

theorem SameOutcome.cons {x y : List Happening × SchedM δ (Sched δ)} (a : Happening)
    (h : SameOutcome R x y) : SameOutcome R (a :: x.1, x.2) (a :: y.1, y.2) :=
  ⟨by rw [h.events], h.result⟩

theorem thenAdvance_cons (b : Nat) (a : Happening) (x : List Happening × SchedM δ (Sched δ)) :
    thenAdvance D how b (a :: x.1, x.2) =
      (a :: (thenAdvance D how b x).1, (thenAdvance D how b x).2) := by
  unfold thenAdvance
  dsimp only
  cases x.2 with
  | ok u => rfl
  | error e => rfl

theorem Ahead.happening {n : Nat} (h : Ahead R n s s') (e : ClockEvent) :
    s'.happening e = s.happening e := by
  simp only [Sched.happening, h.clk, Clock.later]

theorem Ahead.nextEvent_zero (h : Ahead R 0 s s') :
    nextEvent s'.clk s'.regs = nextEvent s.clk s.regs := by
  rw [h.clk, h.regs]
  rfl

/-- One event of two states alike, if both find the same one. -/
theorem fullTrail_together (hD : D.Steady R) {n : Nat} {e : ClockEvent} (h : Ahead R n s s')
    (he : nextEvent s.clk s.regs = some e) (he' : nextEvent s'.clk s'.regs = some e) :
    (∃ x x', StopAhead R x x' ∧ e.fire D how s = .error x ∧
      fullTrail D how s = ([s.happening e], .error x) ∧
      fullTrail D how s' = ([s.happening e], .error x')) ∨
    ∃ u u', Ahead R n u u' ∧ e.fire D how s = .ok u ∧
      fullTrail D how s = (s.happening e :: (fullTrail D how u).1, (fullTrail D how u).2) ∧
      fullTrail D how s' = (s.happening e :: (fullTrail D how u').1, (fullTrail D how u').2) := by
  have hfire : Related (StopAhead R) (Ahead R n) (e.fire D how s) (e.fire D how s') :=
    fire_ahead hD he h
  cases hf : e.fire D how s with
  | error x =>
    cases hf' : e.fire D how s' with
    | ok u' =>
      rw [hf, hf'] at hfire
      cases hfire
    | error x' =>
      rw [hf, hf'] at hfire
      cases hfire with
      | error hx =>
        refine .inl ⟨x, x', hx, rfl, fullTrail_error he hf, ?_⟩
        rw [fullTrail_error he' hf', h.happening]
  | ok u =>
    cases hf' : e.fire D how s' with
    | error x' =>
      rw [hf, hf'] at hfire
      cases hfire
    | ok u' =>
      rw [hf, hf'] at hfire
      cases hfire with
      | ok hu =>
        refine .inr ⟨u, u', hu, rfl, fullTrail_ok he hf, ?_⟩
        rw [fullTrail_ok he' hf', h.happening]

/-- States alike go on alike. -/
theorem fullTrail_congr (hD : D.Steady R) (h : Ahead R 0 s s') :
    SameOutcome R (fullTrail D how s) (fullTrail D how s') := by
  induction hm : advanceMeasure s using Nat.strongRecOn generalizing s s' with
  | ind m ih =>
    cases he : nextEvent s.clk s.regs with
    | none =>
      rw [fullTrail_none he, fullTrail_none (h.nextEvent_zero.trans he)]
      exact ⟨rfl, .ok h⟩
    | some e =>
      rcases fullTrail_together hD h he (h.nextEvent_zero.trans he) with
        ⟨x, x', hx, -, hs, hs'⟩ | ⟨u, u', hu, hf, hs, hs'⟩
      · rw [hs, hs']
        exact ⟨rfl, .error hx⟩
      · have hfalls := fire_measure he hf
        rw [hs, hs']
        exact (ih _ (hm ▸ hfalls) hu rfl).cons _

/-- Passing the rest of the time after the events due now, or before them. -/
theorem thenAdvance_same (hD : D.Steady R) {b : Nat} (hs : s.clk.Timed)
    (huncut : ∀ u, Turns D how s u → ¬Cut b u.clk u.regs) :
    SameOutcome R (thenAdvance D how b (fullTrail D how s)) (fullTrail D how (s.later b)) := by
  induction hm : advanceMeasure s using Nat.strongRecOn generalizing s with
  | ind m ih =>
    cases he : nextEvent s.clk s.regs with
    | none =>
      rw [fullTrail_none he]
      exact .refl hD _
    | some e =>
      have he' : nextEvent (s.later b).clk (s.later b).regs = some e :=
        nextEvent_later hs he (huncut s .refl)
      rcases fullTrail_together hD (later_ahead hD b s) he he' with
        ⟨x, x', hx, -, hone, hother⟩ | ⟨u, u', hu, hf, hone, hother⟩
      · rw [hone, hother]
        exact ⟨rfl, .error hx⟩
      · rw [hone, hother, thenAdvance_cons]
        have hturn : advanceStep D how s = .ok (some u) := advanceStep_some.mpr ⟨e, he, hf⟩
        have hrest := ih _ (hm ▸ fire_measure he hf) (fire_timed hs hf)
          (fun v hv => huncut v (.head hturn hv)) rfl
        have hnow : Ahead R 0 (u.later b) u' := ⟨hu.clk, hu.regs, hu.dev⟩
        exact (hrest.trans hD (fullTrail_congr hD hnow)).cons _

theorem fullTrail_head {e : ClockEvent} (he : nextEvent s.clk s.regs = some e) :
    ∃ rest, (fullTrail D how s).1 = s.happening e :: rest := by
  cases hf : e.fire D how s with
  | error x => exact ⟨[], by rw [fullTrail_error he hf]⟩
  | ok u => exact ⟨_, by rw [fullTrail_ok he hf]⟩

theorem thenAdvance_head {b : Nat} {a : Happening} {rest : List Happening}
    {x : List Happening × SchedM δ (Sched δ)} (h : x.1 = a :: rest) :
    ∃ rest', (thenAdvance D how b x).1 = a :: rest' := by
  unfold thenAdvance
  cases x.2 with
  | error e => exact ⟨rest, h⟩
  | ok u => exact ⟨_, congrArg (· ++ _) h⟩

/-- At a cut the two find different events. -/
theorem thenAdvance_cut {b : Nat} (h : Cut b s.clk s.regs) :
    (thenAdvance D how b (fullTrail D how s)).1 ≠ (fullTrail D how (s.later b)).1 := by
  obtain ⟨e, he⟩ : ∃ e, nextEvent s.clk s.regs = some e := by
    cases h with
    | refresh next => exact ⟨_, next⟩
    | shortLine next => exact ⟨_, next⟩
  obtain ⟨rest, hrest⟩ : ∃ rest, (fullTrail D how s).1 = s.happening e :: rest :=
    fullTrail_head he
  obtain ⟨rest', hfirst⟩ :
      ∃ rest', (thenAdvance D how b (fullTrail D how s)).1 = s.happening e :: rest' :=
    thenAdvance_head hrest
  intro hsame
  have hne : nextEvent (s.later b).clk (s.later b).regs ≠ some e := he ▸ h.nextEvent_ne
  cases he' : nextEvent (s.later b).clk (s.later b).regs with
  | none =>
    rw [hfirst, fullTrail_none he'] at hsame
    cases hsame
  | some e' =>
    obtain ⟨rest₂, hrest₂⟩ :
        ∃ rest, (fullTrail D how (s.later b)).1 = (s.later b).happening e' :: rest :=
      fullTrail_head he'
    rw [hfirst, hrest₂] at hsame
    have hevent : e = e' := congrArg Happening.event (List.head_eq_of_cons_eq hsame)
    exact hne (hevent ▸ he')

theorem thenAdvance_uncut (hD : D.Steady R) {b : Nat} {u : Sched δ} (hs : s.clk.Timed)
    (hsame : (thenAdvance D how b (fullTrail D how s)).1 = (fullTrail D how (s.later b)).1)
    (hu : Turns D how s u) : ¬Cut b u.clk u.regs := by
  induction hu using Relation.ReflTransGen.head_induction_on with
  | refl => exact fun hcut => thenAdvance_cut hcut hsame
  | @head s v hturn _ ih =>
    by_cases hcut : Cut b s.clk s.regs
    · exact absurd hsame (thenAdvance_cut hcut)
    obtain ⟨e, he, hf⟩ := advanceStep_some.mp hturn
    have he' : nextEvent (s.later b).clk (s.later b).regs = some e := nextEvent_later hs he hcut
    rcases fullTrail_together hD (later_ahead hD b s) he he' with
      ⟨x, x', -, hstop, -⟩ | ⟨w, w', hw, hfw, hone, hother⟩
    · rw [hf] at hstop
      cases hstop
    · have hwv : w = v := Except.ok.inj (hfw.symm.trans hf)
      subst hwv
      have hnow : Ahead R 0 (w.later b) w' := ⟨hw.clk, hw.regs, hw.dev⟩
      have hrest : (fullTrail D how (w.later b)).1 = (fullTrail D how w').1 :=
        (fullTrail_congr hD hnow).events
      rw [hone, hother, thenAdvance_cons] at hsame
      exact ih (fire_timed hs hf) ((List.cons.inj hsame).2.trans hrest.symm)

/-- Two advances pass the time as one does if and only if no refresh lies between
the timer's clock and the whole time's end, and no line of 1360 clocks is left for
one whose clock 1362 the timer waits for. -/
theorem advance_chunks (hD : D.Steady R) {a b : Nat} (hs : s.clk.Timed) :
    SameOutcome R (advanceTwice D how a b s) (advanceTrail D how (a + b) s) ↔
      Uncut D how a b s := by
  have htimed : (s.later a).clk.Timed := ⟨hs.refreshAt, hs.irqAt⟩
  have hone : advanceTrail D how (a + b) s = fullTrail D how ((s.later a).later b) := by
    rw [later_later]
    rfl
  rw [advanceTwice_eq, hone]
  refine ⟨fun h u hu => thenAdvance_uncut hD htimed h.events hu, fun h => ?_⟩
  exact thenAdvance_same hD htimed h

end Chunks

/-- Line 240 of an odd frame, about to begin, with a V+H IRQ at HTIME 336 in it. -/
def shortLineNext : Sched Unit where
  clk := { (schedInit ()).clk with
    line := 240, frames := 1, lineStart := lineBegin 1 240, frameClock := frameStart 1 }
  regs := { (schedInit ()).regs with
    nmitimen := 0x30, htime := 336, vtime := 240, rdnmiSet := true, rdnmiCleared := true }
  dev := ()

/-- Its events with the time passed in two parts, and at once. -/
def shortLineEvents (a b : Nat) : Option (List Happening × List Happening) :=
  match beginLine idleDevices shortLineNext with
  | .error _ => none
  | .ok s => some ((advanceTwice idleDevices ⟨false, none⟩ a b s).1,
      (advanceTrail idleDevices ⟨false, none⟩ (a + b) s).1)

theorem shortLineEvents_some {a b : Nat} {x y : List Happening}
    (h : shortLineEvents a b = some (x, y)) : ∃ s, s.clk.Timed ∧
      (advanceTwice idleDevices ⟨false, none⟩ a b s).1 = x ∧
      (advanceTrail idleDevices ⟨false, none⟩ (a + b) s).1 = y := by
  unfold shortLineEvents at h
  split at h
  next => cases h
  next s hs =>
    cases h
    exact ⟨s, beginLine_timed hs, rfl, rfl⟩

/-- Where nothing is due there is nothing to cut. -/
theorem uncut_of_quiet {D : Devices δ} {how : Commit} {a b : Nat} {s : Sched δ}
    (h : nextEvent (s.later a).clk (s.later a).regs = none) : Uncut D how a b s := by
  intro u hu hcut
  have hhere : u = s.later a := by
    rcases Relation.ReflTransGen.cases_head hu with hsame | ⟨v, hturn, -⟩
    · exact hsame.symm
    · obtain ⟨e, he, -⟩ := advanceStep_some.mp hturn
      rw [h] at he
      cases he
  rw [hhere] at hcut
  cases hcut with
  | refresh next =>
    rw [h] at next
    cases next
  | shortLine next =>
    rw [h] at next
    cases next

theorem advance_chunks_quiet : ∃ s, beginLine idleDevices shortLineNext = .ok s ∧
    SameOutcome (fun _ _ => True) (advanceTwice idleDevices ⟨false, none⟩ 500 860 s)
      (advanceTrail idleDevices ⟨false, none⟩ 1360 s) := by
  have hs : beginLine idleDevices shortLineNext = .ok _ := rfl
  refine ⟨_, hs, ?_⟩
  exact (advance_chunks idleDevices_steady (beginLine_timed hs)).mpr (uncut_of_quiet rfl)

/-- `advance(1321)` ends line 240 at its clock 1361 and its IRQ at 1362 is never
raised; `advance(1331)` raises it. -/
theorem advance_irq_lost : ¬∀ (s : Sched Unit) (a b : Nat), s.clk.Timed →
    SameOutcome (fun _ _ => True) (advanceTwice idleDevices ⟨false, none⟩ a b s)
      (advanceTrail idleDevices ⟨false, none⟩ (a + b) s) := by
  intro hall
  have hevents : shortLineEvents 1321 10 = some
      ([⟨1, 240, .refresh⟩, ⟨1, 240, .hdmaPoint⟩, ⟨1, 240, .lineEnd⟩],
        [⟨1, 240, .refresh⟩, ⟨1, 240, .hdmaPoint⟩, ⟨1, 240, .irq⟩, ⟨1, 240, .lineEnd⟩]) := rfl
  obtain ⟨s, hs, htwice, honce⟩ := shortLineEvents_some hevents
  have hsame := (hall s 1321 10 hs).events
  rw [htwice, honce] at hsame
  simp at hsame

end CtRecomp
