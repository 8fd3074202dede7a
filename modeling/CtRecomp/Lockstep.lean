import CtRecomp.Interrupts

namespace CtRecomp

open Loop

variable {δ ν : Type} {D : Devices δ} {P : Program δ ν}

/-! Native code and the interpreter in lockstep: a run with compiled functions,
seen at its instruction boundaries, is the run without them. -/

/-- `sched_set_native(0)`. -/
def Program.interpreted (P : Program δ ν) : Program δ ν := { P with nativeLookup := fun _ => none }

/-- The CPU is where a control point of native code expects it. -/
def Program.At (P : Program δ ν) (mxe : ν → Bool × Bool × Bool) (n : ν) (c : Cpu) : Prop :=
  c.pbpc = P.addr n ∧ c.mxe = mxe n

/-- The registers at the boundary after a native instruction. -/
def Program.arrived (P : Program δ ν) (c : Cpu) : After ν → Cpu
  | .insn n => c.setPbpc (P.addr n)
  | _ => c

/-- Each native instruction has the interpreter's effect and charge at its
address, in the M/X/E it was compiled for, and hands on to the next. -/
structure Faithful (P : Program δ ν) (mxe : ν → Bool × Bool × Bool) : Prop where
  lookup : ∀ c n, P.nativeLookup c = some n → P.At mxe n c
  body : ∀ n c clk regs dev r after, P.At mxe n c →
    P.body n c clk regs dev = .ok (r, after) →
    P.interpStep c clk regs dev = .ok ({ r with cpu := P.arrived r.cpu after }, P.op n, false) ∧
      ∀ n', after = .insn n' → r.cpu.mxe = mxe n'
  resume : ∀ k c n, P.resume k c = .ok (.insn n) → P.At mxe n c

/-- A waiting CPU is run by `exec_one`, so native code never meets one. -/
def Config.Attended (c : Config δ ν) : Prop := c.machine.waiting = true → c.executes

theorem attended_of_awake {c : Config δ ν} (h : c.machine.waiting = false) : c.Attended := by
  intro hw
  rw [h] at hw
  cases hw

/-- `executes` looks at the stack, S and the interrupt depth. -/
theorem executes_congr {m m' : Machine δ} {stack : List (Frame ν)} (hS : m'.cpu.S = m.cpu.S)
    (hdepth : m'.intDepth = m.intDepth) (h : (⟨m, stack⟩ : Config δ ν).executes) :
    (⟨m', stack⟩ : Config δ ν).executes := by
  cases stack with
  | nil => trivial
  | cons frame stack =>
    cases frame with
    | ready => exact h
    | tick n depth before =>
      simp only [Config.executes] at h ⊢
      rw [hdepth]
      exact h
    | hook u k =>
      simp only [Config.executes, ctExecDone] at h ⊢
      rw [hS]
      exact h

/-- What charging leaves alone. -/
structure Charged (m m' : Machine δ) : Prop where
  cpu : m'.cpu = m.cpu
  waiting : m'.waiting = m.waiting
  intDepth : m'.intDepth = m.intDepth
  skipCheck : m'.skipCheck = m.skipCheck

theorem charge_charged {m m' : Machine δ} {b : Begun} (h : m.charge D b = .ok m') :
    Charged m m' := by
  obtain ⟨⟨sched, takeIrq⟩, -, h⟩ := bind_eq_ok_iff.mp h
  cases h
  exact ⟨rfl, rfl, rfl, rfl⟩

theorem wait_attended {m m' : Machine δ} {stack : List (Frame ν)} (h : m.wait D = .ok m')
    (hx : (⟨m, stack⟩ : Config δ ν).executes) : (⟨m', stack⟩ : Config δ ν).executes := by
  obtain ⟨⟨sched, seen⟩, -, h⟩ := bind_eq_ok_iff.mp h
  cases h
  dsimp only
  split
  next => exact executes_congr rfl rfl hx
  next => exact executes_congr rfl rfl hx

theorem interpret_attended {m m' : Machine δ} {stack : List (Frame ν)}
    (h : m.interpret D P = .ok m') (hx : (⟨m, stack⟩ : Config δ ν).executes) :
    (⟨m', stack⟩ : Config δ ν).Attended := by
  intro hw
  obtain ⟨⟨r, op, waiting⟩, hr, h⟩ := bind_eq_ok_iff.mp h
  have hc := charge_charged h
  have hwaiting : waiting = true := hc.waiting.symm.trans hw
  subst hwaiting
  obtain ⟨hop, hS⟩ := P.interpStep_waiting (fatally_eq_ok.mp hr)
  refine executes_congr ?_ ?_ hx
  · rw [hc.cpu]
    exact hS
  · rw [hc.intDepth]
    exact if_neg hop

theorem arrive_waiting (P : Program δ ν) (m : Machine δ) (after : After ν) :
    (m.arrive P after).waiting = m.waiting := by
  cases after <;> rfl

theorem native_awake {m m' : Machine δ} {n : ν} {after : After ν}
    (h : m.native D P n = .ok (m', after)) : m'.waiting = m.waiting := by
  obtain ⟨⟨r, a⟩, -, h⟩ := bind_eq_ok_iff.mp h
  obtain ⟨charged, hc, h⟩ := bind_eq_ok_iff.mp h
  cases h
  rw [(charge_charged hc).waiting, arrive_waiting]
  rfl

theorem stepped_attended {c c' : Config δ ν} {label : Option Label} (h : c.Attended)
    (hstep : Stepped D P c label c') : c'.Attended := by
  have hnative : ∀ {n stack}, c.stack = .ready n :: stack → c.machine.waiting = false := by
    intro n stack hc
    exact Bool.eq_false_iff.mpr fun hw => executes_not_ready (h hw) hc
  cases hstep with
  | entry _ _ _ _ hm => exact attended_of_awake (interrupt_entered hm).awake
  | tickEntry _ _ hm => exact attended_of_awake (interrupt_entered hm).awake
  | wait hx _ hm => exact fun _ => wait_attended hm (executes_congr rfl rfl hx)
  | dispatch _ hw => exact attended_of_awake hw
  | interpret hx _ _ _ hm => exact interpret_attended hm (executes_congr rfl rfl hx)
  | native hc _ hm => exact attended_of_awake ((native_awake hm).trans (hnative hc))
  | back hc hd _ =>
    refine attended_of_awake (Bool.eq_false_iff.mpr fun hw => ?_)
    have hx := h hw
    simp only [Config.executes, hc] at hx
    omega
  | resume hc hd _ =>
    have hawake : c.machine.waiting = false := by
      refine Bool.eq_false_iff.mpr fun hw => ?_
      have hx := h hw
      simp only [Config.executes, hc] at hx
      rw [hd] at hx
      cases hx
    exact attended_of_awake ((arrive_waiting P _ _).trans hawake)

/-! The simulation. -/

/-- A frame that waits for another to finish. -/
def Frame.Waits (P : Program δ ν) (mxe : ν → Bool × Bool × Bool) : Frame ν → Prop
  | .ready _ => False
  | .tick n _ before => P.At mxe n before
  | .hook _ _ => True

/-- The interpreter's machine beside a configuration with native code. In front
of a native instruction the dispatcher has cleared `skip_check` already. -/
inductive Locked (P : Program δ ν) (mxe : ν → Bool × Bool × Bool) :
    Config δ ν → Machine δ → Prop
  | loops {m : Machine δ} {stack : List (Frame ν)} (waits : ∀ f ∈ stack, f.Waits P mxe) :
      Locked P mxe ⟨m, stack⟩ m
  | native {m : Machine δ} {n : ν} {stack : List (Frame ν)} (skip : Bool)
      (at_ : P.At mxe n m.cpu) (awake : m.waiting = false) (clear : m.skipCheck = false)
      (quiet : skip = true → m.pending = false) (waits : ∀ f ∈ stack, f.Waits P mxe) :
      Locked P mxe ⟨m, .ready n :: stack⟩ { m with skipCheck := skip }

variable {mxe : ν → Bool × Bool × Bool}

theorem At.arrive {n : ν} {m : Machine δ} (h : P.At mxe n m.cpu) :
    m.arrive P (.insn n) = m := by
  simp only [Machine.arrive, ← h.1, Cpu.setPbpc_pbpc]

theorem At.of_sameContext {n : ν} {c before : Cpu} (h : P.At mxe n before)
    (hc : c.sameContext before) : P.At mxe n c :=
  ⟨hc.1.trans h.1, hc.2.2.trans h.2⟩

theorem locked_ready {m : Machine δ} {n : ν} {stack : List (Frame ν)} (hat : P.At mxe n m.cpu)
    (awake : m.waiting = false) (clear : m.skipCheck = false)
    (waits : ∀ f ∈ stack, f.Waits P mxe) : Locked P mxe ⟨m, .ready n :: stack⟩ m := by
  have hquiet : m.skipCheck = true → m.pending = false := by
    intro hs
    rw [clear] at hs
    cases hs
  have h := Locked.native m.skipCheck hat awake clear hquiet waits
  exact h

/-- What native code does next takes it to a control point it is at, or back to
a loop. -/
theorem locked_after {m : Machine δ} {after : After ν} {stack : List (Frame ν)}
    (hat : ∀ n, after = .insn n → P.At mxe n m.cpu) (awake : m.waiting = false)
    (clear : m.skipCheck = false) (waits : ∀ f ∈ stack, f.Waits P mxe) :
    Locked P mxe ⟨m, after.push stack⟩ m := by
  cases after with
  | insn n => exact locked_ready (hat n rfl) awake clear waits
  | ret => exact .loops waits
  | hook u k =>
    refine .loops fun f hf => ?_
    rcases List.mem_cons.mp hf with rfl | hf
    · trivial
    · exact waits f hf

/-- A native instruction is the interpreter's. -/
theorem native_interpret (hP : Faithful P mxe) {m m' : Machine δ} {n : ν} {after : After ν}
    (hat : P.At mxe n m.cpu) (awake : m.waiting = false)
    (h : m.native D P n = .ok (m', after)) :
    m.interpret D P.interpreted = .ok m' ∧ ∀ n', after = .insn n' → P.At mxe n' m'.cpu := by
  obtain ⟨⟨r, a⟩, hr, h⟩ := bind_eq_ok_iff.mp h
  obtain ⟨charged, hc, h⟩ := bind_eq_ok_iff.mp h
  cases h
  obtain ⟨hstep, hnext⟩ := hP.body _ _ _ _ _ _ _ hat (fatally_eq_ok.mp hr)
  constructor
  · refine bind_eq_ok_iff.mpr ⟨_, fatally_eq_ok.mpr hstep, ?_⟩
    cases after with
    | insn n' => simpa [Machine.arrive, Machine.ran, Program.arrived, awake] using hc
    | ret => simpa [Machine.arrive, Machine.ran, Program.arrived, awake] using hc
    | hook u k => simpa [Machine.arrive, Machine.ran, Program.arrived, awake] using hc
  · rintro n' rfl
    rw [(charge_charged hc).cpu]
    exact ⟨Cpu.pbpc_setPbpc _ _, hnext n' rfl⟩

/-! The interpreter's steps. -/

theorem interpreted_entry {m m' : Machine δ} (hs : m.skipCheck = false) (hw : m.waiting = false)
    (hp : m.pending = true) (h : m.interrupt D P = .ok m') :
    dispatchStep D P.interpreted ⟨m, []⟩ =
      .ok (some (.entry m.sched.regs.pend.needNmi m.cpu.pbpc), ⟨m', []⟩) := by
  have h' : m.interrupt D P.interpreted = .ok m' := h
  simp only [dispatchStep, execOne, hs, hw, hp, and_self, if_true, h', ok_bind, pure_eq_ok]

theorem interpreted_wait {m m' : Machine δ} (hw : m.waiting = true)
    (h : ({ m with skipCheck := false } : Machine δ).wait D = .ok m') :
    dispatchStep D P.interpreted ⟨m, []⟩ = .ok (some .wai, ⟨m', []⟩) := by
  have hnot : ¬ (m.skipCheck = false ∧ m.waiting = false ∧ m.pending = true) := by
    rintro ⟨-, hawake, -⟩
    rw [hw] at hawake
    cases hawake
  simp only [dispatchStep]
  unfold execOne
  rw [if_neg hnot]
  dsimp only
  rw [if_pos hw, h]
  rfl

theorem interpreted_insn {m m' : Machine δ} (hw : m.waiting = false)
    (hu : m.skipCheck = true ∨ m.pending = false)
    (h : ({ m with skipCheck := false } : Machine δ).interpret D P.interpreted = .ok m') :
    dispatchStep D P.interpreted ⟨m, []⟩ = .ok (some (.insn m.cpu.pbpc), ⟨m', []⟩) := by
  have hnot : ¬ (m.skipCheck = false ∧ m.waiting = false ∧ m.pending = true) := by
    rintro ⟨hs, -, hp⟩
    rcases hu with hu | hu
    · rw [hs] at hu
      cases hu
    · rw [hp] at hu
      cases hu
  have hnot' : ¬ m.waiting = true := by simp [hw]
  simp only [dispatchStep]
  unfold execOne
  rw [if_neg hnot]
  dsimp only
  rw [if_neg hnot', h]
  rfl

/-- One step: the interpreter's machine stays where it is, or makes the same step. -/
inductive Kept (D : Devices δ) (P : Program δ ν) (mxe : ν → Bool × Bool × Bool) (m : Machine δ) :
    Option Label → Config δ ν → Prop
  | silent {c' : Config δ ν} (h : Locked P mxe c' m) : Kept D P mxe m none c'
  | same {c' : Config δ ν} {l : Label} {m' : Machine δ}
      (h : dispatchStep D P.interpreted ⟨m, []⟩ = .ok (some l, ⟨m', []⟩)) (locked : Locked P mxe c' m') :
      Kept D P mxe m (some l) c'

theorem loops_kept (hP : Faithful P mxe) {m : Machine δ} {stack : List (Frame ν)}
    {label : Option Label} {c' : Config δ ν} (waits : ∀ f ∈ stack, f.Waits P mxe)
    (hprompt : (⟨m, stack⟩ : Config δ ν).Prompt P) (hfresh : (⟨m, stack⟩ : Config δ ν).SkipFresh)
    (hatt : (⟨m, stack⟩ : Config δ ν).Attended) (hstep : Stepped D P ⟨m, stack⟩ label c') :
    Kept D P mxe m label c' := by
  cases hstep with
  | entry _ hs hw hp hm => exact .same (interpreted_entry hs hw hp hm) (.loops waits)
  | wait _ hw hm => exact .same (interpreted_wait hw hm) (.loops waits)
  | dispatch _ hw hu hl =>
    have hat := hP.lookup _ _ hl
    have harrive := At.arrive (P := P) (m := { m with skipCheck := false }) hat
    have hquiet : m.skipCheck = true → m.pending = false :=
      fun hs => dispatch_quiet hprompt hfresh hs hl
    rw [harrive]
    exact .silent (.native m.skipCheck hat hw rfl hquiet waits)
  | interpret _ hw hu _ hm => exact .same (interpreted_insn hw hu hm) (.loops waits)
  | tickEntry hc =>
    cases hc
    exact absurd (waits _ (List.mem_cons_self)) id
  | native hc =>
    cases hc
    exact absurd (waits _ (List.mem_cons_self)) id
  | back hc hd hctx =>
    cases hc
    have clear : m.skipCheck = false := Bool.eq_false_iff.mpr fun hs =>
      absurd ((hfresh hs).2.2.2 _ _ _ _ rfl) (Int.not_lt.mpr hd)
    have awake : m.waiting = false := Bool.eq_false_iff.mpr fun hw =>
      absurd (hatt hw) (Int.not_lt.mpr hd)
    have hat := At.of_sameContext (waits _ List.mem_cons_self) hctx
    have hrest := fun f hf => waits f (List.mem_cons_of_mem _ hf)
    exact .silent (locked_ready hat awake clear hrest)
  | resume hc hd hr =>
    cases hc
    have clear : m.skipCheck = false := by
      refine Bool.eq_false_iff.mpr fun hs => ?_
      have hnot := (hprompt hs).2 _ _ _ rfl
      rw [hd] at hnot
      cases hnot
    have awake : m.waiting = false := by
      refine Bool.eq_false_iff.mpr fun hw => ?_
      have hx : ctExecDone m.cpu _ = false := hatt hw
      rw [hd] at hx
      cases hx
    have hrest := fun f hf => waits f (List.mem_cons_of_mem _ hf)
    have hat := fun n hn => hP.resume _ _ n (hr.trans (congrArg _ hn))
    have hlocked := locked_after hat awake clear hrest
    rename_i after
    cases after with
    | insn n =>
      rw [At.arrive (hat n rfl)]
      exact .silent hlocked
    | ret => exact .silent hlocked
    | hook u k => exact .silent hlocked

theorem native_kept (hP : Faithful P mxe) {m : Machine δ} {n : ν} {stack : List (Frame ν)}
    {skip : Bool} {label : Option Label} {c' : Config δ ν} (hat : P.At mxe n m.cpu)
    (awake : m.waiting = false) (clear : m.skipCheck = false)
    (quiet : skip = true → m.pending = false) (waits : ∀ f ∈ stack, f.Waits P mxe)
    (hstep : Stepped D P ⟨m, .ready n :: stack⟩ label c') :
    Kept D P mxe { m with skipCheck := skip } label c' := by
  have hm : ({ m with skipCheck := false } : Machine δ) = m := by rw [← clear]
  cases hstep with
  | entry hx | wait hx | dispatch hx | interpret hx => exact absurd hx id
  | back hc => cases hc
  | resume hc => cases hc
  | tickEntry hc hp hi =>
    cases hc
    have hskip : skip = false := by
      refine Bool.eq_false_iff.mpr fun hs => ?_
      have hq := quiet hs
      rw [show m.pending = true from hp] at hq
      cases hq
    subst hskip
    rw [hm]
    refine .same (interpreted_entry clear awake hp hi) (.loops fun f hf => ?_)
    rcases List.mem_cons.mp hf with rfl | hf
    · exact hat
    · exact waits f hf
  | native hc hq hn =>
    cases hc
    obtain ⟨hinterp, hnext⟩ := native_interpret hP hat awake hn
    have hstep := interpreted_insn (m := { m with skipCheck := skip }) awake (.inr hq)
      (hm.symm ▸ hinterp)
    exact .same hstep (locked_after hnext ((native_awake hn).trans awake)
      ((native_skipCheck hn).trans clear) waits)

/-- The invariant of a run from a machine `m₀`. -/
structure InStep (D : Devices δ) (P : Program δ ν) (mxe : ν → Bool × Bool × Bool)
    (m₀ : Machine δ) (trace : List Label) (c : Config δ ν) : Prop where
  orderly : Orderly trace c
  attended : c.Attended
  lockstep : ∃ m, Run D P.interpreted (fun _ => True) ⟨m₀, []⟩ trace ⟨m, []⟩ ∧ Locked P mxe c m

theorem stepped_inStep (hP : Faithful P mxe) {m₀ : Machine δ} {trace : List Label}
    {c c' : Config δ ν} {label : Option Label} (h : InStep D P mxe m₀ trace c)
    (hprompt : c.Prompt P) (hstep : Stepped D P c label c') :
    InStep D P mxe m₀ (trace ++ label.toList) c' := by
  obtain ⟨horderly, hatt, m, hrun, hlocked⟩ := h
  refine ⟨stepped_orderly horderly hprompt hstep, stepped_attended hatt hstep, ?_⟩
  have hkept : Kept D P mxe m label c' := by
    cases hlocked with
    | loops waits => exact loops_kept hP waits hprompt horderly.fresh hatt hstep
    | native skip hat awake clear quiet waits => exact native_kept hP hat awake clear quiet waits hstep
  cases hkept with
  | silent h =>
    rw [Option.toList_none, List.append_nil]
    exact ⟨m, hrun, h⟩
  | same h locked => exact ⟨_, .step hrun trivial h, locked⟩

theorem irqProgram_faithful : Faithful (irqProgram true) (fun _ => (true, true, false)) := by
  refine ⟨fun c n h => ?_, fun n c clk regs dev r after hat h => ?_, fun k c n h => ?_⟩
  · simp only [irqProgram, true_and] at h
    split at h
    next hc => exact hc
    next => cases h
  · have hpc : c.PC = 0x9000 := by
      have h : (c.setPbpc c.pbpc).PC = c.PC := by rw [Cpu.setPbpc_pbpc]
      rw [← h, hat.1]
      rfl
    have hnop : irqRomStep c clk regs dev =
        .ok (⟨{ c with PC := c.PC + 1 }, regs, dev, ⟨14, [opcodeFetch, internal]⟩⟩, 0xEA, false) := by
      have hop : irqRom c.PC = 0xEA := by
        rw [hpc]
        decide
      simp only [irqRomStep, hop]
      rfl
    obtain ⟨⟨r', op, waiting⟩, hr, hout⟩ := map_eq_ok_iff.mp h
    rw [hnop] at hr
    cases hr
    cases hout
    exact ⟨hnop, fun _ hn => by cases hn⟩
  · cases h

/-- Without native code every interrupt entry is followed by an instruction. -/
theorem interpreted_spaced {m : Machine δ} {c : Config δ ν} {trace : List Label}
    (hs : m.skipCheck = false) (h : Run D P.interpreted (fun _ => True) ⟨m, []⟩ trace c) :
    Spaced trace := by
  have hprompt : Run D P.interpreted (Config.Prompt P.interpreted) ⟨m, []⟩ trace c ∧
      c.stack = [] := by
    induction h with
    | refl => exact ⟨.refl, rfl⟩
    | @step _ a b _ _ _ hstep ih =>
      obtain ⟨hrun, hstack⟩ := ih
      have hgood : a.Prompt P.interpreted := by
        refine fun _ => ⟨fun _ => rfl, fun u k stack hc => ?_⟩
        rw [hstack] at hc
        cases hc
      refine ⟨.step hrun hgood hstep, ?_⟩
      cases step_stepped hstep with
      | entry | wait | interpret => exact hstack
      | dispatch _ _ _ hl => cases hl
      | tickEntry hc | native hc | back hc | resume hc =>
        rw [hstack] at hc
        cases hc
  exact run_spaced hs hprompt.1

/-- Line 225, two clocks in, NMI enabled and an IRQ due at $8000. -/
def irqAtVblank : Machine Unit :=
  { Machine.init irqCpu { schedInit () with
      clk := { (schedInit ()).clk with
        line := 225
        hclock := 2
        lineStart := 306900
        irqDone := true
        initDone := true
        nmiDone := false
        refreshAt := 534 }
      regs := { (schedInit ()).regs with nmitimen := 0xB0 } } with
    takeIrq := true }

theorem irqAtVblank_run : ∃ c, Run idleDevices (irqProgram true) (fun _ => True) ⟨irqAtVblank, []⟩
    [.entry false 0x8000, .entry true 0x9000] c := by
  have h : ((steps idleDevices (irqProgram true) 3 ⟨irqAtVblank, []⟩).map Prod.fst) =
      some [.entry false 0x8000, .entry true 0x9000] := by decide +kernel
  obtain ⟨⟨trace, c⟩, hrun, htrace⟩ := Option.map_eq_some_iff.mp h
  cases htrace
  exact ⟨c, steps_run hrun⟩

end CtRecomp
