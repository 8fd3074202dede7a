import CtRecomp.SchedTrace
import CtRecomp.Wiring

namespace CtRecomp

open Loop

/-! A frame of idling, up to its last line with HDMA, to run the end of it. -/

/-- A board with HDMA on one channel, the same accesses on every line. -/
structure Bench where
  hdma : List BusAccess
  cost : Nat

def bench : Peripherals Bench where
  call c _ regs _ rest := .ok (if c = .dmaDoHdma then rest.hdma else [], regs, rest)
  frameHook _ _ rest := rest
  hdmaEnabled rest := !rest.hdma.isEmpty
  hdmaCost _ rest := rest.cost
  hdmaInitCost _ _ := 16
  hasFrameHook := true
  resetHook _ _ _ := false
  dmaCount8 := false

def blankBus : WramBus where
  wram _ := 0
  wramPortAddr := 0x100
  busN := 0
  slots _ := none
  base _ := 0
  stores := []

/-- A CPU waiting, cycle after cycle. -/
def idle {δ : Type} (D : Devices δ) : Nat → Sched δ → SchedM δ (Sched δ)
  | 0, s => .ok s
  | n + 1, s => waiCycle D false s >>= fun p => idle D n p.1

theorem HookRun.idle {δ : Type} {D : Devices δ} {good : Clock → RegAccess → Prop} {n : Nat}
    {s s' : Sched δ} (hs : HookRun D good s) (h : idle D n s = .ok s') : HookRun D good s' := by
  induction n generalizing s with
  | zero =>
    cases h
    exact hs
  | succ n ih =>
    obtain ⟨⟨r, seen⟩, hr, h⟩ := bind_eq_ok_iff.mp h
    exact ih (hs.step (.wai hr)) h

def eveClock : Clock where
  line := 224
  hclock := 578
  lineStart := 305536
  frames := 0
  fieldBase := 0
  frameClock := 0
  frameDone := false
  irqAt := none
  irqDone := true
  hblankDone := false
  nmiDone := true
  initDone := true
  refreshAt := 538
  refreshDone := true
  refreshPaid := 0
  dmaLo := 0
  dmaHi := 0
  edgeInDma := false
  begun := ((List.range 225).map lineAt).reverse

def eveRegs : Regs := { (schedInit ()).regs with rdnmiCleared := true }

/-- From power-on to line 224. -/
theorem eve_idle : ∃ r s, schedStart (wiredDevices bench) 186 ⟨blankBus, ⟨[], 0⟩, []⟩ = .ok r ∧
    idle (wiredDevices bench) 1124 r = .ok s ∧ s.clk = eveClock ∧ s.regs = eveRegs := by
  have hidle : (match schedStart (wiredDevices bench) 186 ⟨blankBus, ⟨[], 0⟩, []⟩ >>=
      idle (wiredDevices bench) 1124 with
      | .ok s => decide (s.clk = eveClock ∧ s.regs = eveRegs)
      | .error _ => false) = true := by decide +kernel
  match hrun : schedStart (wiredDevices bench) 186 ⟨blankBus, ⟨[], 0⟩, []⟩ >>=
      idle (wiredDevices bench) 1124 with
  | .error e =>
    rw [hrun] at hidle
    cases hidle
  | .ok s =>
    rw [hrun] at hidle
    obtain ⟨r, hr, hrun⟩ := bind_eq_ok_iff.mp hrun
    exact ⟨r, s, hr, hrun, of_decide_eq_true hidle⟩

/-- No pad is on port 4. -/
theorem joypad_none (r : Regs) : (RegAccess.joypad 4 0).effect r = r := by
  change { r with pad := r.pad.setIfInBounds 4 0 } = r
  rw [Vector.setIfInBounds_eq_of_size_le (Nat.le_refl _)]

/-- Line 224, with anything done to the board meanwhile. -/
theorem eve_run {good : Clock → RegAccess → Prop} (hgood : good eveClock (.joypad 4 0))
    (dev : Wired Bench) : HookRun (wiredDevices bench) good ⟨eveClock, eveRegs, dev⟩ := by
  obtain ⟨r, s, hr, hrun, hclk, hregs⟩ := eve_idle
  have hs : HookRun (wiredDevices bench) good s := (HookRun.start hr).idle hrun
  have hset := hs.step (.access (.joypad 4 0) (hclk ▸ hgood) dev)
  rw [joypad_none, hclk, hregs] at hset
  exact hset

section Traced

variable {δ : Type} {D : Devices δ} {good : List SchedEvent → Sched δ → Nat → RegAccess → Prop}
  {tr : List SchedEvent}

theorem Continues.idle {n : Nat} {s s' : Sched δ} (hs : Continues D good tr s)
    (h : idle D n s = .ok s') : Continues D good tr s' := by
  induction n generalizing s with
  | zero =>
    cases h
    exact hs
  | succ n ih =>
    obtain ⟨⟨r, seen⟩, hr, h⟩ := bind_eq_ok_iff.mp h
    exact ih (hs.waiCycle hr) h

theorem idle_idle {n : Nat} {s s' : Sched δ} (hs : nextEvent s.clk s.regs = none)
    (h : idle D n s = .ok s') : nextEvent s'.clk s'.regs = none := by
  induction n generalizing s with
  | zero =>
    cases h
    exact hs
  | succ n ih =>
    obtain ⟨⟨r, seen⟩, hr, h⟩ := bind_eq_ok_iff.mp h
    exact ih (waiCycle_idle hr) h

/-- The same, with what has happened so far: lines begun, and nothing done to the pads. -/
theorem eve_trace {good : List SchedEvent → Sched (Wired Bench) → Nat → RegAccess → Prop}
    (hgood : ∀ tr s t, good tr s t (.joypad 4 0)) (dev : Wired Bench) :
    ∃ tr, TraceRun (wiredDevices bench) good tr ⟨eveClock, eveRegs, dev⟩ ∧
      ∀ u a, .access u a ∈ tr → u = eveClock.now ∧ a = .joypad 4 0 := by
  obtain ⟨r, s, hr, hrun, hclk, hregs⟩ := eve_idle
  obtain ⟨p, hp, ha⟩ := bind_eq_ok_iff.mp hr
  have hbegun : TraceRun (wiredDevices bench) good [.begun p.clk p.regs] p := .powerOn hp
  have hstart := (Continues.refl hbegun).advance ha
  obtain ⟨lines, htrace, hlines⟩ := hstart.idle hrun
  have hquiet := idle_idle (advance_idle ha) hrun
  have hnone : ∀ u a, .access u a ∉ lines ++ [SchedEvent.begun p.clk p.regs] := by
    intro u a hmem
    rcases List.mem_append.mp hmem with hmem | hmem
    · exact hlines u a hmem
    · cases List.mem_singleton.mp hmem
  have hset := htrace.access (.joypad 4 0) dev hquiet (Nat.le_refl _)
    (fun u a hmem => absurd hmem (hnone u a)) (hgood _ _ _)
  rw [joypad_none, hclk, hregs] at hset
  refine ⟨_, hset, fun u a hmem => ?_⟩
  rcases List.mem_cons.mp hmem with heq | hmem
  · cases heq
    exact ⟨rfl, rfl⟩
  · exact absurd hmem (hnone u a)

end Traced

end CtRecomp
