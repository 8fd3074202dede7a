import Mathlib.Data.List.Chain
import CtRecomp.Dispatch

namespace CtRecomp

open Loop

variable {δ ν : Type} {D : Devices δ} {P : Program δ ν}

/-! The IRQ is not taken again right after an interrupt entry: `prev_irq` is
sampled at the entry's last cycle start, with I set. -/

theorem walkEvent_prevIrq {s : Sched δ} {e : Nat} {p q : Pass} {k : WalkEvent}
    (h : walkEvent D s e p k = .ok q) : q.w.pend.prevIrq = p.w.pend.prevIrq := by
  cases k with
  | refresh | irq =>
    cases h
    rfl
  | hdma | init | nmi =>
    cases h
    simp only [Pass.change]
    split <;> rfl
  | lineEnd =>
    obtain ⟨w, hw, hout⟩ := map_eq_ok_iff.mp h
    cases hout
    obtain ⟨irqAt, -, hw⟩ := bind_eq_ok_iff.mp hw
    cases hw
    dsimp only
    split <;> rfl

theorem walkPass_prevIrq {s : Sched δ} {clocks sample smp : Nat} {w w' : Walk}
    (h : walkPass D s clocks sample w = .ok (w', smp)) : w'.pend.prevIrq = w.pend.prevIrq := by
  obtain ⟨p, hp, hout⟩ := bind_eq_ok_iff.mp h
  cases hout
  have keep : ∀ a b : Pass, a.w.pend.prevIrq = w.pend.prevIrq → walkStep D s a = .ok (some b) →
      b.w.pend.prevIrq = w.pend.prevIrq := by
    intro a b ha hab
    simp only [walkStep] at hab
    split at hab
    next => cases hab
    next =>
      obtain ⟨q, hq, hout⟩ := map_eq_ok_iff.mp hab
      cases hout
      exact (walkEvent_prevIrq hq).trans ha
  have hkept := measured_invariant keep rfl hp
  exact hkept

theorem access_prevIrq (c : Cycle) (p : Pend) : (p.access c).prevIrq = p.prevIrq := by
  unfold Pend.access
  dsimp only
  split <;> split <;> rfl

theorem walkCycle_prevIrq {s : Sched δ} {c : Cycle} {w w' : Walk} {smp : Nat}
    (h : walkCycle D s true c w = .ok (w', smp)) : w'.pend.prevIrq = false := by
  obtain ⟨u, hu, h⟩ := bind_eq_ok_iff.mp h
  obtain ⟨⟨v, smp'⟩, hv, h⟩ := bind_eq_ok_iff.mp h
  cases h
  obtain ⟨⟨x, lock⟩, -, hu⟩ := bind_eq_ok_iff.mp hu
  cases hu
  have hpass := walkPass_prevIrq hv
  have hsample : (x.pend.sample lock true).prevIrq = false := by simp [Pend.sample]
  simp only [Walk.accessed, Walk.setPend, access_prevIrq]
  exact hpass.trans hsample

theorem walkCycles_prevIrq {s : Sched δ} {cs : List Cycle} {w w' : Walk} {smp smp' : Nat}
    (hw : w.pend.prevIrq = false) (h : walkCycles D s true cs (w, smp) = .ok (w', smp')) :
    w'.pend.prevIrq = false := by
  induction cs generalizing w smp with
  | nil =>
    cases h
    exact hw
  | cons c cs ih =>
    obtain ⟨⟨v, smp₁⟩, hv, h⟩ := bind_eq_ok_iff.mp h
    exact ih (walkCycle_prevIrq hv) h

/-- Charged with I set, an instruction of at least one cycle leaves no IRQ to take. -/
theorem charge_takeIrq {b : Begun} {s s' : Sched δ} {takeIrq : Bool} (hb : b.cycles ≠ [])
    (h : charge D true b s false = .ok (s', takeIrq)) : takeIrq = false := by
  unfold charge at h
  split at h
  next =>
    cases h
    rfl
  next =>
  split at h
  next =>
    obtain ⟨a, -, h⟩ := bind_eq_ok_iff.mp h
    cases h
    simp
  next =>
    obtain ⟨⟨w, smp⟩, hw, h⟩ := bind_eq_ok_iff.mp h
    obtain ⟨a, -, h⟩ := bind_eq_ok_iff.mp h
    cases h
    have hwalk := fatally_eq_ok.mp hw
    cases hcs : b.cycles with
    | nil => exact absurd hcs hb
    | cons c cs =>
      rw [hcs] at hwalk
      obtain ⟨⟨v, smp₁⟩, hv, hrest⟩ := bind_eq_ok_iff.mp hwalk
      exact walkCycles_prevIrq (walkCycle_prevIrq hv) hrest

/-- An interrupt entry. -/
structure Entered (m m' : Machine δ) : Prop where
  skipCheck : m'.skipCheck = true
  awake : m'.waiting = false
  takeIrq : m'.takeIrq = false
  intDepth : m'.intDepth = m.intDepth + 1

theorem acknowledge_intDepth (m : Machine δ) : m.acknowledge.intDepth = m.intDepth + 1 := by
  unfold Machine.acknowledge
  split <;> rfl

theorem interrupt_entered {m m' : Machine δ} (h : m.interrupt D P = .ok m') : Entered m m' := by
  obtain ⟨r, hr, h⟩ := bind_eq_ok_iff.mp h
  obtain ⟨charged, hc, h⟩ := bind_eq_ok_iff.mp h
  obtain ⟨⟨sched, takeIrq⟩, hcharge, hc⟩ := bind_eq_ok_iff.mp hc
  cases hc
  cases h
  have hcycles := P.interpInterrupt_cycles (fatally_eq_ok.mp hr)
  exact ⟨rfl, rfl, charge_takeIrq hcycles hcharge, acknowledge_intDepth m⟩

/-! An interrupt entry is followed by at least one instruction of the handler,
unless native code starts while an NMI is waiting. -/

/-- Right after an interrupt entry no native code starts with an NMI waiting,
and none resumes. -/
def Config.Prompt (P : Program δ ν) (c : Config δ ν) : Prop :=
  c.machine.skipCheck = true →
    (c.machine.sched.regs.pend.needNmi = true → P.nativeLookup c.machine.cpu = none) ∧
    ∀ u k stack, c.stack = .hook u k :: stack → ctExecDone c.machine.cpu u = false

/-- `skip_check` is set right after an entry only, and the next `exec_one`
clears it. -/
def Config.SkipFresh (c : Config δ ν) : Prop :=
  c.machine.skipCheck = true →
    c.machine.waiting = false ∧ c.machine.takeIrq = false ∧
    (∀ n stack, c.stack ≠ .ready n :: stack) ∧
    ∀ n depth before stack, c.stack = .tick n depth before :: stack → depth < c.machine.intDepth

/-- No instruction of the handler has run, and no interrupt will be taken
before one has. -/
def Config.Committed (c : Config δ ν) : Prop :=
  c.machine.skipCheck = true ∨
    (∃ n stack, c.stack = .ready n :: stack) ∧ c.machine.pending = false

def Label.isEntry : Label → Bool
  | .entry _ _ => true
  | _ => false

def Label.isInsn : Label → Bool
  | .insn _ => true
  | _ => false

/-- Every entry is followed by an instruction, if by anything. -/
def Spaced (trace : List Label) : Prop :=
  List.IsChain (fun a b => a.isEntry = true → b.isInsn = true) trace

/-! `skip_check` is set by interrupt entries alone. -/

theorem charge_skipCheck {m m' : Machine δ} {b : Begun} (h : m.charge D b = .ok m') :
    m'.skipCheck = m.skipCheck := by
  obtain ⟨⟨sched, takeIrq⟩, -, h⟩ := bind_eq_ok_iff.mp h
  cases h
  rfl

theorem interpret_skipCheck {m m' : Machine δ} (h : m.interpret D P = .ok m') :
    m'.skipCheck = m.skipCheck := by
  obtain ⟨⟨r, op, waiting⟩, -, h⟩ := bind_eq_ok_iff.mp h
  have hcharge := charge_skipCheck h
  exact hcharge

theorem wait_skipCheck {m m' : Machine δ} (h : m.wait D = .ok m') :
    m'.skipCheck = m.skipCheck := by
  obtain ⟨⟨sched, seen⟩, -, h⟩ := bind_eq_ok_iff.mp h
  cases h
  dsimp only
  split <;> rfl

theorem arrive_skipCheck (P : Program δ ν) (m : Machine δ) (after : After ν) :
    (m.arrive P after).skipCheck = m.skipCheck := by
  cases after <;> rfl

theorem native_skipCheck {m m' : Machine δ} {n : ν} {after : After ν}
    (h : m.native D P n = .ok (m', after)) : m'.skipCheck = m.skipCheck := by
  obtain ⟨⟨r, a⟩, -, h⟩ := bind_eq_ok_iff.mp h
  obtain ⟨charged, hc, h⟩ := bind_eq_ok_iff.mp h
  cases h
  rw [charge_skipCheck hc, arrive_skipCheck]
  rfl

theorem skipFresh_of_clear {c : Config δ ν} (h : c.machine.skipCheck = false) : c.SkipFresh := by
  intro hs
  rw [h] at hs
  cases hs

/-- The invariant of a run. -/
structure Orderly (trace : List Label) (c : Config δ ν) : Prop where
  spaced : Spaced trace
  fresh : c.SkipFresh
  committed : ∀ l ∈ trace.getLast?, l.isEntry = true → c.Committed

variable {trace : List Label} {c : Config δ ν} {l : Label}

theorem Spaced.concat (h : Spaced trace)
    (hl : ∀ a ∈ trace.getLast?, a.isEntry = true → l.isInsn = true) : Spaced (trace ++ [l]) := by
  refine List.IsChain.append h (List.isChain_singleton l) fun a ha b hb => ?_
  cases hb
  exact hl a ha

theorem executes_not_ready (h : c.executes) {n : ν} {stack : List (Frame ν)} :
    c.stack ≠ .ready n :: stack := by
  intro hc
  simp [Config.executes, hc] at h

/-- A committed configuration that runs `exec_one` has just entered an interrupt. -/
theorem Config.Committed.skip (h : c.Committed) (hx : c.executes) : c.machine.skipCheck = true := by
  rcases h with hs | ⟨⟨n, stack, hc⟩, -⟩
  · exact hs
  · exact absurd hc (executes_not_ready hx)

theorem entry_orderly (h : Orderly trace c) (hx : c.executes) (hs : c.machine.skipCheck = false)
    {m : Machine δ} {nmi : Bool} {pc : BitVec 24} (he : Entered c.machine m) :
    Orderly (trace ++ [.entry nmi pc]) ⟨m, c.stack⟩ := by
  refine ⟨h.spaced.concat fun a ha hentry => ?_, fun _ => ⟨he.awake, he.takeIrq, ?_, ?_⟩, ?_⟩
  · have hskip := (h.committed a ha hentry).skip hx
    rw [hs] at hskip
    cases hskip
  · exact fun n stack => executes_not_ready hx
  · intro n depth before stack (hc : c.stack = _)
    simp only [Config.executes, hc] at hx
    simp only [he.intDepth]
    omega
  · exact fun _ _ _ => .inl he.skipCheck

theorem tickEntry_orderly (h : Orderly trace c) {n : ν} {stack : List (Frame ν)}
    (hc : c.stack = .ready n :: stack) (hp : c.machine.pending = true) {m : Machine δ} {nmi : Bool}
    {pc : BitVec 24} (he : Entered c.machine m) :
    Orderly (trace ++ [.entry nmi pc])
      (⟨m, .tick n c.machine.intDepth c.machine.cpu :: stack⟩ : Config δ ν) := by
  refine ⟨h.spaced.concat fun a ha hentry => ?_, fun _ => ⟨he.awake, he.takeIrq, ?_, ?_⟩, ?_⟩
  · rcases h.committed a ha hentry with hs | ⟨-, hquiet⟩
    · exact absurd hc ((h.fresh hs).2.2.1 n stack)
    · rw [hp] at hquiet
      cases hquiet
  · simp
  · intro n' depth before stack' hcons
    cases hcons
    simp only [he.intDepth]
    omega
  · exact fun _ _ _ => .inl he.skipCheck

/-- A step that is no entry, and leaves `skip_check` clear. -/
theorem Orderly.concat (h : Orderly trace c) {c' : Config δ ν} (hl : l.isEntry = false)
    (hs : c'.machine.skipCheck = false)
    (hbefore : ∀ a ∈ trace.getLast?, a.isEntry = true → l.isInsn = true) :
    Orderly (trace ++ [l]) c' := by
  refine ⟨h.spaced.concat hbefore, skipFresh_of_clear hs, fun a ha hentry => ?_⟩
  have hlast : a = l := by simpa using ha.symm
  rw [hlast, hl] at hentry
  cases hentry

theorem dispatch_quiet (hprompt : c.Prompt P) (hfresh : c.SkipFresh)
    (hs : c.machine.skipCheck = true) {n : ν} (hl : P.nativeLookup c.machine.cpu = some n) :
    c.machine.pending = false := by
  have htake := (hfresh hs).2.1
  have hnmi : c.machine.sched.regs.pend.needNmi = false := by
    refine Bool.eq_false_iff.mpr fun hneed => ?_
    have hnone := (hprompt hs).1 hneed
    rw [hl] at hnone
    cases hnone
  simp [Machine.pending, htake, hnmi]

theorem stepped_orderly {c' : Config δ ν} {label : Option Label} (h : Orderly trace c)
    (hprompt : c.Prompt P) (hstep : Stepped D P c label c') :
    Orderly (trace ++ label.toList) c' := by
  cases hstep with
  | entry hx hs _ _ hm => exact entry_orderly h hx hs (interrupt_entered hm)
  | wait hx hw hm =>
    refine h.concat rfl (wait_skipCheck hm) fun a ha hentry => ?_
    have hawake := (h.fresh ((h.committed a ha hentry).skip hx)).1
    rw [hw] at hawake
    cases hawake
  | dispatch hx hw _ hl =>
    rw [Option.toList_none, List.append_nil]
    refine ⟨h.spaced, skipFresh_of_clear rfl, fun a ha hentry => .inr ⟨⟨_, _, rfl⟩, ?_⟩⟩
    have hquiet := dispatch_quiet hprompt h.fresh ((h.committed a ha hentry).skip hx) hl
    exact hquiet
  | interpret _ _ _ _ hm => exact h.concat rfl (interpret_skipCheck hm) fun _ _ _ => rfl
  | tickEntry hc hp hm => exact tickEntry_orderly h hc hp (interrupt_entered hm)
  | native hc _ hm =>
    have hs : c.machine.skipCheck = false :=
      Bool.eq_false_iff.mpr fun hs => (h.fresh hs).2.2.1 _ _ hc
    exact h.concat rfl ((native_skipCheck hm).trans hs) fun _ _ _ => rfl
  | back hc hd _ =>
    have hs : c.machine.skipCheck = false :=
      Bool.eq_false_iff.mpr fun hs => absurd ((h.fresh hs).2.2.2 _ _ _ _ hc) (Int.not_lt.mpr hd)
    rw [Option.toList_none, List.append_nil]
    refine ⟨h.spaced, skipFresh_of_clear hs, fun a ha hentry => ?_⟩
    rcases h.committed a ha hentry with hskip | ⟨⟨n, stack, hready⟩, -⟩
    · rw [hs] at hskip
      cases hskip
    · rw [hc] at hready
      cases hready
  | resume hc hd _ =>
    have hs : c.machine.skipCheck = false := by
      refine Bool.eq_false_iff.mpr fun hs => ?_
      have hnot := (hprompt hs).2 _ _ _ hc
      rw [hd] at hnot
      cases hnot
    rw [Option.toList_none, List.append_nil]
    refine ⟨h.spaced, skipFresh_of_clear ((arrive_skipCheck P _ _).trans hs), fun a ha hentry => ?_⟩
    rcases h.committed a ha hentry with hskip | ⟨⟨n, stack, hready⟩, -⟩
    · rw [hs] at hskip
      cases hskip
    · rw [hc] at hready
      cases hready

/-! An NMI seen during an IRQ entry, with a compiled IRQ handler. -/

/-- VTIME=224, HTIME=330, NMITIMEN=$B0 (NMI, H+V IRQ), CLI, WAI; NOP everywhere
else, the handlers at $9000 (IRQ) and $9100 (NMI) included. -/
def irqRom (pc : BitVec 16) : BitVec 8 :=
  let code : List (BitVec 8) :=
    [0xA9, 0xE0, 0x8D, 0x09, 0x42, 0xA9, 0x00, 0x8D, 0x0A, 0x42, 0xA9, 0x4A, 0x8D, 0x07, 0x42,
      0xA9, 0x01, 0x8D, 0x08, 0x42, 0xA9, 0xB0, 0x8D, 0x00, 0x42, 0x58, 0xCB]
  code.getD (pc - 0x8000).toNat 0xEA

def opcodeFetch : Cycle := ⟨8, .read, none⟩

def internal : Cycle := ⟨6, .idle, none⟩

/-- The interpreter on the opcodes of `irqRom`, with M=1. -/
def irqRomStep (c : Cpu) (_ : Clock) (regs : Regs) (dev : Unit) :
    Except String (Ran Unit × BitVec 8 × Bool) :=
  let op := irqRom c.PC
  let next (n : Nat) : Cpu := { c with PC := c.PC + n }
  if op = 0xA9 then
    let cpu := { next 2 with A := (irqRom (c.PC + 1)).setWidth 16 }
    .ok (⟨cpu, regs, dev, ⟨16, [opcodeFetch, opcodeFetch]⟩⟩, op, false)
  else if op = 0x8D then
    let a := irqRom (c.PC + 2) ++ irqRom (c.PC + 1)
    let v := c.A.setWidth 8
    let regs := if a = 0x4200 then nmitimenWrite true 1 v regs else htimeVtimeWrite a v regs
    let cycles := [opcodeFetch, opcodeFetch, opcodeFetch, ⟨6, .write, some 0⟩]
    .ok (⟨next 3, regs, dev, ⟨30, cycles⟩⟩, op, false)
  else if op = 0x58 then
    .ok (⟨{ next 1 with i := false }, regs, dev, ⟨14, [opcodeFetch, internal]⟩⟩, op, false)
  else if op = 0xCB then
    .ok (⟨next 1, regs, dev, ⟨20, [opcodeFetch, internal, internal]⟩⟩, op, true)
  else if op = 0xEA then
    .ok (⟨next 1, regs, dev, ⟨14, [opcodeFetch, internal]⟩⟩, op, false)
  else .error "not in this ROM"

theorem irqRomStep_waiting {cpu : Cpu} {clk : Clock} {regs : Regs} {dev : Unit} {ran : Ran Unit}
    {op : BitVec 8} (h : irqRomStep cpu clk regs dev = .ok (ran, op, true)) :
    op ≠ 0x40 ∧ ran.cpu.S = cpu.S := by
  unfold irqRomStep at h
  dsimp only at h
  split at h
  next => cases h
  next =>
  split at h
  next => cases h
  next =>
  split at h
  next => cases h
  next =>
  split at h
  next hop =>
    rw [hop] at h
    cases h
    exact ⟨by decide, rfl⟩
  next =>
  split at h
  next => cases h
  next => cases h

def irqRomEntry (nmi : Bool) (c : Cpu) (_ : Clock) (regs : Regs) (dev : Unit) :
    Except String (Ran Unit) :=
  let cycles := [opcodeFetch, internal, ⟨8, .write, some 0⟩, ⟨8, .write, some 1⟩,
    ⟨8, .write, some 2⟩, ⟨8, .write, some 3⟩, ⟨8, .read, some 4⟩, ⟨8, .read, some 5⟩]
  let cpu := { c with
    PB := 0, PC := if nmi then 0x9100 else 0x9000, S := c.S - 4, i := true, d := false }
  .ok ⟨cpu, regs, dev, ⟨62, cycles⟩⟩

/-- `irqRom`, with its IRQ handler's first instruction compiled or not. -/
def irqProgram (compiled : Bool) : Program Unit Unit where
  interpStep := irqRomStep
  interpInterrupt := irqRomEntry
  interpInterrupt_cycles h := by
    cases h
    exact List.cons_ne_nil _ _
  interpStep_waiting h := irqRomStep_waiting h
  nativeLookup c := if compiled ∧ c.pbpc = 0x009000 ∧ c.mxe = (true, true, false) then some () else none
  addr _ := 0x009000
  op _ := 0xEA
  body _ c clk regs dev := (fun r => (r.1, .ret)) <$> irqRomStep c clk regs dev
  resume _ _ := .ok .ret

def irqCpu : Cpu where
  A := 0
  X := 0
  Y := 0
  S := 0x1FF
  DP := 0
  DB := 0
  PB := 0
  PC := 0x8000
  n := false
  v := false
  m := true
  x := true
  d := false
  i := true
  z := false
  c := false
  e := false

/-- In every run whose interrupt entries are not followed at once by native code
with an NMI waiting, the handler gets its first instruction. -/
theorem run_spaced {c' : Config δ ν} (hs : c.machine.skipCheck = false)
    (h : Run D P (Config.Prompt P) c trace c') : Spaced trace := by
  have hstart : Orderly [] c := ⟨List.IsChain.nil, skipFresh_of_clear hs, by simp⟩
  exact (h.invariant Orderly hstart fun _ _ _ _ => stepped_orderly).spaced

theorem prompt_of_quiet {c : Config δ ν} (hn : c.machine.sched.regs.pend.needNmi = false)
    (hs : c.stack = []) : c.Prompt P := by
  intro _
  refine ⟨fun hneed => ?_, fun u k stack hc => ?_⟩
  · rw [hn] at hneed
    cases hneed
  · rw [hs] at hc
    cases hc

/-- An IRQ due at $8000. -/
def irqDue : Config Unit Unit := ⟨{ Machine.init irqCpu beforeRefresh with takeIrq := true }, []⟩

theorem irqDue_run : ∃ trace c,
    Run idleDevices (irqProgram true) (Config.Prompt (irqProgram true)) irqDue trace c ∧
    trace = [.entry false 0x8000, .insn 0x9000] := by
  refine ⟨_, _, .step (.step (.step .refl ?_ rfl) ?_ rfl) ?_ rfl, rfl⟩
  · exact prompt_of_quiet rfl rfl
  · exact prompt_of_quiet rfl rfl
  · exact fun hskip => by cases hskip

theorem run_spaced_irq : ∃ trace c,
    Run idleDevices (irqProgram true) (Config.Prompt (irqProgram true)) irqDue trace c ∧
    trace = [.entry false 0x8000, .insn 0x9000] ∧ Spaced trace := by
  obtain ⟨trace, c, hrun, htrace⟩ := irqDue_run
  exact ⟨trace, c, hrun, htrace, run_spaced rfl hrun⟩

/-- Where 1143 steps from power-on lead: the IRQ is entered at the WAI's end, and
the NMI at the handler's first instruction. -/
theorem irqProgram_steps : ((schedStart idleDevices 0 ()).toOption.bind fun s =>
    (steps idleDevices (irqProgram true) 1143 ⟨Machine.init irqCpu s, []⟩).map fun r =>
      r.1.drop 1140) = some [.entry false 0x00801B, .entry true 0x009000] := by
  decide +kernel

/-- The NMI is taken before the first instruction of the compiled IRQ handler. -/
theorem run_not_spaced : ∃ s trace c, schedStart idleDevices 0 () = .ok s ∧
    Run idleDevices (irqProgram true) (fun _ => True) ⟨Machine.init irqCpu s, []⟩ trace c ∧
    ¬ Spaced trace := by
  have h := irqProgram_steps
  cases hs : schedStart idleDevices 0 () with
  | error e => simp [hs, Except.toOption] at h
  | ok s =>
    simp only [hs, Except.toOption, Option.bind_some] at h
    obtain ⟨⟨trace, c⟩, hrun, hlast⟩ := Option.map_eq_some_iff.mp h
    refine ⟨s, trace, c, rfl, steps_run hrun, fun hspaced => ?_⟩
    have hend := hspaced.drop 1140
    simp only at hlast
    rw [hlast] at hend
    have hinsn := (List.isChain_cons_cons.mp hend).1 rfl
    cases hinsn

end CtRecomp
