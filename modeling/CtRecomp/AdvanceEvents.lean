import CtRecomp.SchedHooks

namespace CtRecomp

open Loop

variable {δ : Type}

/-! `advance` as a sequence of events, and two of them against a single one. -/

inductive ClockEvent
  | rdnmiSet
  | rdnmiClear
  | nmi
  | refresh
  | irq
  | hdmaPoint
  | lineEnd
deriving DecidableEq, Repr

/-- The branch `advance`'s loop takes. -/
def nextEvent (c : Clock) (r : Regs) : Option ClockEvent :=
  if c.line = schedVblankLine ∧ r.rdnmiSet = false ∧ 2 ≤ c.hclock then some .rdnmiSet
  else if c.line = 0 ∧ r.rdnmiCleared = false ∧ 2 ≤ c.hclock then some .rdnmiClear
  else if c.nmiDone = false ∧ 6 ≤ c.hclock then some .nmi
  else if c.refreshDone = false ∧ c.refreshAt ≤ c.hclock then some .refresh
  else if c.irqDone = false ∧ c.irqAt.any (fun at' => at' < schedHdmaClock ∧ at' ≤ c.hclock) then
    some .irq
  else if c.hblankDone = false ∧ schedHdmaClock ≤ c.hclock then some .hdmaPoint
  else if c.irqDone = false ∧ c.irqAt.any (· ≤ c.hclock) then some .irq
  else if c.lineClocks ≤ c.hclock then some .lineEnd
  else none

def ClockEvent.fire (D : Devices δ) (how : Commit) (s : Sched δ) : ClockEvent → SchedM δ (Sched δ)
  | .rdnmiSet => .ok { s with regs := { s.regs with rdnmi := 0x80, rdnmiSet := true } }
  | .rdnmiClear => .ok { s with regs := { s.regs with rdnmi := 0, rdnmiCleared := true } }
  | .nmi => .ok (passNmi how.walked s)
  | .refresh => .ok (passRefresh s)
  | .irq => .ok (raiseIrq s)
  | .hdmaPoint => hblank D s
  | .lineEnd => endLine D how.undoFrom s

theorem advanceStep_eq (D : Devices δ) (how : Commit) (s : Sched δ) :
    advanceStep D how s = match nextEvent s.clk s.regs with
      | none => .ok none
      | some e => some <$> e.fire D how s := by
  unfold advanceStep nextEvent
  dsimp only
  split
  · rfl
  split
  · rfl
  split
  · rfl
  split
  · rfl
  split
  · rfl
  split
  · rfl
  split
  · rfl
  split
  · rfl
  · rfl

/-- An event where it fires. -/
structure Happening where
  frame : Nat
  line : Nat
  event : ClockEvent
deriving DecidableEq, Repr

def Sched.happening (s : Sched δ) (e : ClockEvent) : Happening := ⟨s.clk.frames, s.clk.line, e⟩

/-- The events of `advance`, the one that stopped it included, and its outcome. -/
def trail (D : Devices δ) (how : Commit) : Nat → Sched δ → List Happening × SchedM δ (Sched δ)
  | 0, s => ([], .ok s)
  | n + 1, s =>
    match nextEvent s.clk s.regs with
    | none => ([], .ok s)
    | some e =>
      match e.fire D how s with
      | .error x => ([s.happening e], .error x)
      | .ok s' => (s.happening e :: (trail D how n s').1, (trail D how n s').2)

/-- The clock further on by `n`. -/
def Clock.later (n : Nat) (c : Clock) : Clock := { c with hclock := c.hclock + n }

def Sched.later (n : Nat) (s : Sched δ) : Sched δ := { s with clk := s.clk.later n }

/-- The whole trail from `s`. -/
def fullTrail (D : Devices δ) (how : Commit) (s : Sched δ) : List Happening × SchedM δ (Sched δ) :=
  trail D how (advanceMeasure s + 1) s

def advanceTrail (D : Devices δ) (how : Commit) (clocks : Nat) (s : Sched δ) :
    List Happening × SchedM δ (Sched δ) :=
  fullTrail D how (s.later clocks)

theorem trail_iterate (D : Devices δ) (how : Commit) (n : Nat) (s : Sched δ) :
    (trail D how n s).2 = iterate (advanceStep D how) n s := by
  induction n generalizing s with
  | zero => rfl
  | succ n ih =>
    unfold trail iterate
    rw [advanceStep_eq]
    cases nextEvent s.clk s.regs with
    | none => rfl
    | some e =>
      dsimp only
      cases e.fire D how s with
      | error x => rfl
      | ok s' => exact ih s'

/-- The trail ends as `advance` does. -/
theorem advanceTrail_snd (D : Devices δ) (how : Commit) (clocks : Nat) (s : Sched δ) :
    (advanceTrail D how clocks s).2 = advance D how clocks s :=
  trail_iterate D how _ _

/-- `advance(a)`, then `advance(b)`. -/
def advanceTwice (D : Devices δ) (how : Commit) (a b : Nat) (s : Sched δ) :
    List Happening × SchedM δ (Sched δ) :=
  match (advanceTrail D how a s).2 with
  | .error x => ((advanceTrail D how a s).1, .error x)
  | .ok s' => ((advanceTrail D how a s).1 ++ (advanceTrail D how b s').1, (advanceTrail D how b s').2)

section Trail

variable {D : Devices δ} {how : Commit}

theorem fire_measure {s s' : Sched δ} {e : ClockEvent} (he : nextEvent s.clk s.regs = some e)
    (h : e.fire D how s = .ok s') : advanceMeasure s' < advanceMeasure s := by
  have hstep : advanceStep D how s = .ok (some s') := by
    rw [advanceStep_eq, he]
    simp only [h]
    rfl
  cases advanceStep_turn hstep with
  | event _ hfalls => exact hfalls

/-- A trail is as long as its events, whatever the budget. -/
theorem trail_budget {n m : Nat} {s : Sched δ} (hn : advanceMeasure s < n)
    (hm : advanceMeasure s < m) : trail D how n s = trail D how m s := by
  induction n generalizing m s with
  | zero => omega
  | succ n ih =>
    cases m with
    | zero => omega
    | succ m =>
      unfold trail
      cases he : nextEvent s.clk s.regs with
      | none => rfl
      | some e =>
        dsimp only
        cases hf : e.fire D how s with
        | error x => rfl
        | ok s' =>
          have hfalls := fire_measure he hf
          have hrest := ih (m := m) (s := s') (by omega) (by omega)
          simp only [hrest]

theorem fullTrail_none {s : Sched δ} (he : nextEvent s.clk s.regs = none) :
    fullTrail D how s = ([], .ok s) := by
  unfold fullTrail trail
  rw [he]

theorem fullTrail_error {s : Sched δ} {e : ClockEvent} {x : Stop (Sched δ)}
    (he : nextEvent s.clk s.regs = some e) (h : e.fire D how s = .error x) :
    fullTrail D how s = ([s.happening e], .error x) := by
  unfold fullTrail trail
  rw [he]
  simp only [h]

theorem fullTrail_ok {s s' : Sched δ} {e : ClockEvent} (he : nextEvent s.clk s.regs = some e)
    (h : e.fire D how s = .ok s') : fullTrail D how s =
      (s.happening e :: (fullTrail D how s').1, (fullTrail D how s').2) := by
  have hfalls := fire_measure he h
  have hrest : trail D how (advanceMeasure s) s' = fullTrail D how s' :=
    trail_budget hfalls (Nat.lt_succ_self _)
  rw [← hrest]
  conv => lhs; unfold fullTrail trail
  rw [he]
  simp only [h]

end Trail

end CtRecomp
