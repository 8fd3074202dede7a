import CtRecomp.SchedHooks

namespace CtRecomp

open Loop

/-! What the device calls of `advance` keep, also where a soft reset cuts it short. -/

section DevInvariant

variable {δ : Type} {D : Devices δ} {K : Clock → Prop} {undoFrom : Option Nat} {P : δ → Prop}
  {s : Sched δ}

/-- What the device calls of `advance` keep, the frame hook's in a clock that is `K` as its
line ends. -/
structure DevInvariant (D : Devices δ) (K : Clock → Prop) (undoFrom : Option Nat) (P : δ → Prop) :
    Prop where
  turn : ∀ c c', K c → ClockTurn c c' → K c'
  call : ∀ c clk regs dev regs' dev', (∀ k, c ≠ .edgeHook k) → P dev →
    D.call c clk regs dev = .ok (regs', dev') → P dev'
  edge : ∀ c clk regs dev regs' dev', K c → c.line + 1 = schedLines → c.lineClocks ≤ c.hclock →
    clk.lineStart = c.lineStart + c.lineClocks → P dev →
    D.call (.edgeHook undoFrom) clk regs dev = .ok (regs', dev') → P dev'

/-- A soft reset leaves `P` too. -/
def Resets (P : δ → Prop) (e : Stop (Sched δ)) : Prop := ∀ r, e = .reset r → P r.dev

theorem fatally_ends {α : Type} {x : Except String α} {Q : α → Prop} (h : ∀ a, x = .ok a → Q a) :
    Ends (Resets P) Q (fatally x : SchedM δ α) := by
  cases x with
  | ok a => exact h a rfl
  | error msg =>
    intro r hr
    cases hr

theorem run_ends {c : DeviceCall} (h : ∀ regs' dev', D.call c s.clk s.regs s.dev =
    .ok (regs', dev') → P dev') : Ends (Resets P) (fun r => P r.dev ∧ r.clk = s.clk) (D.run c s) :=
  (fatally_ends (Q := fun p : Regs × δ => P p.2) fun p hp => h p.1 p.2 hp).bind
    fun _ _ hdev => ⟨hdev, rfl⟩

namespace DevInvariant

theorem run (h : DevInvariant D K undoFrom P) {c : DeviceCall} (hc : ∀ k, c ≠ .edgeHook k)
    (hs : P s.dev) : Ends (Resets P) (fun r => P r.dev ∧ r.clk = s.clk) (D.run c s) :=
  run_ends fun regs' dev' => h.call c s.clk s.regs s.dev regs' dev' hc hs

theorem beginLine (h : DevInvariant D K undoFrom P) (hs : P s.dev) :
    Ends (Resets P) (fun r => P r.dev) (beginLine D s) := by
  have hframe : ∀ r : Sched δ, P r.dev → Ends (Resets P) (fun r => P r.dev) (startFrame D r) :=
    fun r hr => (h.run (c := .ppuBeginDrawing) nofun (by exact hr)).bind
      fun a _ ha => (h.run (c := .dmaInitHdma) nofun ha.1).mono fun _ hb => hb.1
  have hblank : ∀ r : Sched δ, P r.dev → Ends (Resets P) (fun r => P r.dev) (startVblank D r) := by
    refine fun r hr => (h.run (c := .ppuDrawTo) nofun hr).bind fun a _ ha => ?_
    by_cases hreset : D.resetHook (a.clk.frames + 1) a.dev = true
    · rw [if_pos hreset]
      intro b hb
      cases hb
      exact ha.1
    · rw [if_neg hreset]
      exact (h.run (c := .oamVblankReload) nofun ha.1).bind fun _ _ hb => hb.1
  have hline : Ends (Resets P) (fun r => P r.dev) (startLine D s) := by
    refine (onlyIf_ends (Q := fun r : Sched δ => P r.dev) hs fun _ => hframe s hs).bind
      fun a _ ha => ?_
    refine (onlyIf_ends (Q := fun r : Sched δ => P r.dev) ha fun _ => hblank a ha).bind
      fun b _ hb => ?_
    refine onlyIf_ends (Q := fun r : Sched δ => P r.dev) hb fun _ => ?_
    exact (h.run (c := .ppuRunLine) nofun (by exact hb)).mono fun _ hc => hc.1
  exact hline.bind fun a _ ha => (fatally_ends fun _ _ => trivial).bind fun _ _ _ => ha

theorem endLine (h : DevInvariant D K undoFrom P) (hK : K s.clk)
    (hover : s.clk.lineClocks ≤ s.clk.hclock) (hs : P s.dev) :
    Ends (Resets P) (fun r => P r.dev) (endLine D undoFrom s) := by
  refine (h.run (c := .apuSync) nofun hs).bind fun a _ ⟨ha, hclk⟩ => ?_
  dsimp only
  rw [hclk]
  refine Ends.bind (Q := fun r : Sched δ => P r.dev) (onlyIf_ends (by exact ha) fun hlast => ?_)
    fun b _ hb => h.beginLine hb
  refine onlyIf_ends (by exact ha) fun _ => ?_
  refine (run_ends fun regs' dev' hcall => ?_).mono fun _ hr => hr.1
  exact h.edge s.clk _ _ _ regs' dev' hK hlast hover rfl ha hcall

theorem hblank (h : DevInvariant D K undoFrom P) (hs : P s.dev) :
    Ends (Resets P) (fun r => P r.dev) (hblank D s) := by
  refine Ends.bind (Q := fun r : Sched δ => P r.dev) (onlyIf_ends hs fun _ => ?_)
    fun _ _ ha => ha
  exact (h.run (c := .ppuDrawTo) nofun hs).bind
    fun a _ ha => (h.run (c := .dmaDoHdma) nofun ha.1).mono fun _ hb => hb.1

theorem advanceStep (h : DevInvariant D K undoFrom P) {how : Commit} (hhow : how.undoFrom = undoFrom)
    (hK : K s.clk) (hs : P s.dev) :
    Ends (Resets P) (fun next => ∀ r, next = some r → P r.dev) (advanceStep D how s) := by
  have same {r : Sched δ} (hr : r.dev = s.dev) : ∀ r', some r = some r' → P r'.dev := by
    intro r' heq
    cases heq
    rw [hr]
    exact hs
  unfold CtRecomp.advanceStep
  dsimp only
  split
  next => exact same rfl
  next =>
  split
  next => exact same rfl
  next =>
  split
  next => exact same rfl
  next =>
  split
  next =>
    refine same ?_
    unfold passRefresh
    split
    all_goals rfl
  next =>
  split
  next => exact same rfl
  next =>
  split
  next => exact (h.hblank hs).map fun a ha r heq => Option.some.inj heq ▸ ha
  next =>
  split
  next => exact same rfl
  next =>
  split
  next hover =>
    rw [hhow]
    exact (h.endLine hK hover hs).map fun a ha r heq => Option.some.inj heq ▸ ha
  next =>
    intro r hr
    cases hr

theorem advance (h : DevInvariant D K undoFrom P) {how : Commit} (hhow : how.undoFrom = undoFrom)
    {clocks : Nat} (hK : K { s.clk with hclock := s.clk.hclock + clocks }) (hs : P s.dev) :
    Ends (Resets P) (fun r => P r.dev) (advance D how clocks s) := by
  have hloop : Ends (Resets P) (fun r : Sched δ => K r.clk ∧ P r.dev) (CtRecomp.advance D how clocks s) := by
    refine measured_ends (P := fun r : Sched δ => K r.clk ∧ P r.dev) (fun a ⟨hKa, ha⟩ => ?_)
      ⟨hK, hs⟩
    have hdev := h.advanceStep hhow hKa ha
    cases hstep : CtRecomp.advanceStep D how a with
    | error e =>
      rw [hstep] at hdev
      exact hdev
    | ok next =>
      rw [hstep] at hdev
      intro b hb
      refine ⟨?_, hdev b hb⟩
      rw [hb] at hstep
      cases advanceStep_turn hstep with
      | event hclk _ => exact h.turn _ _ hKa hclk
  exact hloop.mono fun _ hr => hr.2

end DevInvariant

end DevInvariant

end CtRecomp
