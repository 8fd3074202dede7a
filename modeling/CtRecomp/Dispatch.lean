import CtRecomp.Cpu
import CtRecomp.SchedRun

namespace CtRecomp

open Loop

/-! The dispatcher (sched.c `exec_one`, `tick`, `exec_hook`) over any CPU and
any native code. Its C stack is explicit: native code waits in `tick` while an
interrupt runs, and in `exec_hook` while code that isn't compiled does. -/

/-- An instruction or interrupt entry, run but not charged. -/
structure Ran (δ : Type) where
  cpu : Cpu
  regs : Regs
  dev : δ
  begun : Begun

/-- `ct_exec_until`; no `back` is `ct_interp_rest`. -/
structure Until where
  back : Option (BitVec 24)
  s : BitVec 16
deriving DecidableEq

def ctExecDone (c : Cpu) (u : Until) : Bool :=
  if u.back = none then u.s < c.S else u.s ≤ c.S

/-- Where native code goes after an instruction: to its next one (`ct_insn`),
back to the dispatcher, or into `ct_exec_hook`. -/
inductive After (ν : Type)
  | insn (n : ν)
  | ret
  | hook (u : Until) (k : ν)

/-- The CPU: the interpreter, and native code by its control points `ν`. An
access may run register hooks, which see the clock but cannot move it. -/
structure Program (δ ν : Type) where
  interpStep : Cpu → Clock → Regs → δ → Except String (Ran δ × BitVec 8 × Bool)
  interpInterrupt : Bool → Cpu → Clock → Regs → δ → Except String (Ran δ)
  -- a fetch, an internal cycle, the pushes and the vector reads
  interpInterrupt_cycles : ∀ {nmi cpu clk regs dev ran},
    interpInterrupt nmi cpu clk regs dev = .ok ran → ran.begun.cycles ≠ []
  -- WAI, which alone leaves the CPU waiting, is no RTI and keeps S
  interpStep_waiting : ∀ {cpu clk regs dev ran op},
    interpStep cpu clk regs dev = .ok (ran, op, true) → op ≠ 0x40 ∧ ran.cpu.S = cpu.S
  nativeLookup : Cpu → Option ν
  addr : ν → BitVec 24
  op : ν → BitVec 8
  body : ν → Cpu → Clock → Regs → δ → Except String (Ran δ × After ν)
  resume : ν → Cpu → Except String (After ν)

structure Machine (δ : Type) where
  cpu : Cpu
  waiting : Bool
  sched : Sched δ
  insnI : Bool
  takeIrq : Bool
  waiOver : Bool
  skipCheck : Bool
  intDepth : Int
  nmis : Nat

inductive Frame (ν : Type)
  -- at a `ct_insn`, the instruction before it charged
  | ready (n : ν)
  -- in `tick` of `n`, until the interrupt it took has returned
  | tick (n : ν) (depth : Int) (before : Cpu)
  | hook (u : Until) (k : ν)

structure Config (δ ν : Type) where
  machine : Machine δ
  stack : List (Frame ν)

/-- What a boundary leads to: an interrupt entry or an instruction at PB:PC, or
an idle cycle of WAI. -/
inductive Label
  | entry (nmi : Bool) (pc : BitVec 24)
  | insn (pc : BitVec 24)
  | wai
deriving DecidableEq, Repr

variable {δ ν : Type}

def Machine.pending (m : Machine δ) : Bool := m.sched.regs.pend.needNmi || m.takeIrq

def Machine.ran (m : Machine δ) (r : Ran δ) : Machine δ :=
  { m with cpu := r.cpu, sched := { m.sched with regs := r.regs, dev := r.dev } }

def Machine.charge (D : Devices δ) (m : Machine δ) (b : Begun) : SchedM δ (Machine δ) := do
  let (sched, takeIrq) ← CtRecomp.charge D m.insnI b m.sched m.takeIrq
  pure { m with sched, takeIrq }

/-- `need_nmi` consumed, `take_irq` dropped. -/
def Machine.acknowledge (m : Machine δ) : Machine δ :=
  let m := if m.sched.regs.pend.needNmi
    then { m with
      sched := m.sched.setPend { m.sched.regs.pend with needNmi := false }
      nmis := m.nmis + 1 }
    else m
  { m with takeIrq := false, intDepth := m.intDepth + 1, insnI := true }

/-- An interrupt entry, from `exec_one` or from `tick`. -/
def Machine.interrupt (D : Devices δ) (P : Program δ ν) (m : Machine δ) :
    SchedM δ (Machine δ) := do
  let nmi := m.sched.regs.pend.needNmi
  let m := m.acknowledge
  let r ← fatally (P.interpInterrupt nmi m.cpu m.sched.clk m.sched.regs m.sched.dev)
  let m ← (m.ran r).charge D r.begun
  pure { m with skipCheck := true, waiting := false }

def Machine.interpret (D : Devices δ) (P : Program δ ν) (m : Machine δ) :
    SchedM δ (Machine δ) := do
  let m := { m with insnI := m.cpu.i }
  let (r, op, waiting) ← fatally (P.interpStep m.cpu m.sched.clk m.sched.regs m.sched.dev)
  let m := m.ran r
  let m := { m with
    waiting
    waiOver := if waiting then false else m.waiOver
    intDepth := if op = 0x40 then m.intDepth - 1 else m.intDepth }
  m.charge D r.begun

def Machine.wait (D : Devices δ) (m : Machine δ) : SchedM δ (Machine δ) := do
  let wasOver := m.waiOver
  let (sched, seen) ← waiCycle D m.cpu.i m.sched
  let m := { m with sched, waiOver := m.waiOver || seen }
  pure <| if wasOver then
      { m with waiOver := false, waiting := false, takeIrq := m.sched.regs.pend.prevIrq }
    else m

/-- `tick` sets PB:PC at the next `ct_insn`. -/
def Machine.arrive (P : Program δ ν) (m : Machine δ) : After ν → Machine δ
  | .insn n => { m with cpu := m.cpu.setPbpc (P.addr n) }
  | _ => m

def After.push (after : After ν) (stack : List (Frame ν)) : List (Frame ν) :=
  match after with
  | .insn n => .ready n :: stack
  | .ret => stack
  | .hook u k => .hook u k :: stack

/-- The instruction at a `ct_insn`, and its charge at the next one. -/
def Machine.native (D : Devices δ) (P : Program δ ν) (n : ν) (m : Machine δ) :
    SchedM δ (Machine δ × After ν) := do
  let m := { m with
    intDepth := if P.op n = 0x40 then m.intDepth - 1 else m.intDepth
    insnI := m.cpu.i }
  let (r, after) ← fatally (P.body n m.cpu m.sched.clk m.sched.regs m.sched.dev)
  let m ← ((m.ran r).arrive P after).charge D r.begun
  pure (m, after)

/-- `sched_init`'s state of the dispatcher, the scheduler started. -/
def Machine.init (cpu : Cpu) (sched : Sched δ) : Machine δ where
  cpu
  waiting := false
  sched
  insnI := true
  takeIrq := false
  waiOver := false
  skipCheck := false
  intDepth := 0
  nmis := 0

/-- `exec_one`; entering native code is a step of its own, without a label. -/
def execOne (D : Devices δ) (P : Program δ ν) (m : Machine δ) (stack : List (Frame ν)) :
    SchedM δ (Option Label × Config δ ν) :=
  if m.skipCheck = false ∧ m.waiting = false ∧ m.pending = true then do
    let m' ← m.interrupt D P
    pure (some (.entry m.sched.regs.pend.needNmi m.cpu.pbpc), ⟨m', stack⟩)
  else
    let m := { m with skipCheck := false }
    if m.waiting then do
      let m' ← m.wait D
      pure (some .wai, ⟨m', stack⟩)
    else match P.nativeLookup m.cpu with
      | some n => .ok (none, ⟨m.arrive P (.insn n), .ready n :: stack⟩)
      | none => do
        let m' ← m.interpret D P
        pure (some (.insn m.cpu.pbpc), ⟨m', stack⟩)

/-- `tick`, from its loop on, and the instruction after it. -/
def tick (D : Devices δ) (P : Program δ ν) (n : ν) (m : Machine δ) (stack : List (Frame ν)) :
    SchedM δ (Option Label × Config δ ν) :=
  if m.pending then do
    let m' ← m.interrupt D P
    pure (some (.entry m.sched.regs.pend.needNmi m.cpu.pbpc),
      ⟨m', .tick n m.intDepth m.cpu :: stack⟩)
  else do
    let (m', after) ← m.native D P n
    pure (some (.insn m.cpu.pbpc), ⟨m', after.push stack⟩)

/-- What an interrupt must bring back to the native code it interrupted. -/
def Cpu.sameContext (c c' : Cpu) : Prop := c.pbpc = c'.pbpc ∧ c.S = c'.S ∧ c.mxe = c'.mxe

instance (c c' : Cpu) : Decidable (c.sameContext c') :=
  inferInstanceAs (Decidable (_ ∧ _ ∧ _))

def dispatchStep (D : Devices δ) (P : Program δ ν) (c : Config δ ν) :
    SchedM δ (Option Label × Config δ ν) :=
  match c.stack with
  | [] => execOne D P c.machine []
  | .ready n :: stack => tick D P n c.machine stack
  | .tick n depth before :: stack =>
    if depth < c.machine.intDepth then execOne D P c.machine c.stack
    else if c.machine.cpu.sameContext before then .ok (none, ⟨c.machine, .ready n :: stack⟩)
    else .error (.fatal "did not return to the interrupted native code")
  | .hook u k :: stack =>
    if ctExecDone c.machine.cpu u = false then execOne D P c.machine c.stack
    else do
      let after ← fatally (P.resume k c.machine.cpu)
      pure (none, ⟨c.machine.arrive P after, after.push stack⟩)

/-- The innermost loop on the C stack is one that calls `exec_one`, and it goes on. -/
def Config.executes (c : Config δ ν) : Prop :=
  match c.stack with
  | [] => True
  | .ready _ :: _ => False
  | .tick _ depth _ :: _ => depth < c.machine.intDepth
  | .hook u _ :: _ => ctExecDone c.machine.cpu u = false

/-- All that one step can do. -/
inductive Stepped (D : Devices δ) (P : Program δ ν) (c : Config δ ν) :
    Option Label → Config δ ν → Prop
  | entry {m : Machine δ} (executes : c.executes) (skip : c.machine.skipCheck = false)
      (awake : c.machine.waiting = false) (due : c.machine.pending = true)
      (h : c.machine.interrupt D P = .ok m) :
      Stepped D P c (some (.entry c.machine.sched.regs.pend.needNmi c.machine.cpu.pbpc)) ⟨m, c.stack⟩
  | wait {m : Machine δ} (executes : c.executes) (asleep : c.machine.waiting = true)
      (h : ({ c.machine with skipCheck := false } : Machine δ).wait D = .ok m) :
      Stepped D P c (some .wai) ⟨m, c.stack⟩
  | dispatch {n : ν} (executes : c.executes) (awake : c.machine.waiting = false)
      (unchecked : c.machine.skipCheck = true ∨ c.machine.pending = false)
      (found : P.nativeLookup c.machine.cpu = some n) :
      Stepped D P c none ⟨({ c.machine with skipCheck := false } : Machine δ).arrive P (.insn n),
        .ready n :: c.stack⟩
  | interpret {m : Machine δ} (executes : c.executes) (awake : c.machine.waiting = false)
      (unchecked : c.machine.skipCheck = true ∨ c.machine.pending = false)
      (none : P.nativeLookup c.machine.cpu = none)
      (h : ({ c.machine with skipCheck := false } : Machine δ).interpret D P = .ok m) :
      Stepped D P c (some (.insn c.machine.cpu.pbpc)) ⟨m, c.stack⟩
  | tickEntry {n : ν} {stack : List (Frame ν)} {m : Machine δ} (top : c.stack = .ready n :: stack)
      (due : c.machine.pending = true) (h : c.machine.interrupt D P = .ok m) :
      Stepped D P c (some (.entry c.machine.sched.regs.pend.needNmi c.machine.cpu.pbpc))
        ⟨m, .tick n c.machine.intDepth c.machine.cpu :: stack⟩
  | native {n : ν} {stack : List (Frame ν)} {m : Machine δ} {after : After ν}
      (top : c.stack = .ready n :: stack) (quiet : c.machine.pending = false)
      (h : c.machine.native D P n = .ok (m, after)) :
      Stepped D P c (some (.insn c.machine.cpu.pbpc)) ⟨m, after.push stack⟩
  | back {n : ν} {stack : List (Frame ν)} {depth : Int} {before : Cpu}
      (top : c.stack = .tick n depth before :: stack) (returned : c.machine.intDepth ≤ depth)
      (context : c.machine.cpu.sameContext before) :
      Stepped D P c none ⟨c.machine, .ready n :: stack⟩
  | resume {u : Until} {k : ν} {stack : List (Frame ν)} {after : After ν}
      (top : c.stack = .hook u k :: stack) (done : ctExecDone c.machine.cpu u = true)
      (h : P.resume k c.machine.cpu = .ok after) :
      Stepped D P c none ⟨c.machine.arrive P after, after.push stack⟩

theorem execOne_stepped {D : Devices δ} {P : Program δ ν} {c c' : Config δ ν}
    {label : Option Label} (hx : c.executes)
    (h : execOne D P c.machine c.stack = .ok (label, c')) : Stepped D P c label c' := by
  unfold execOne at h
  split at h
  next hdue =>
    obtain ⟨m, hm, h⟩ := bind_eq_ok_iff.mp h
    cases h
    exact .entry hx hdue.1 hdue.2.1 hdue.2.2 hm
  next hnot =>
  dsimp only at h
  split at h
  next hw =>
    obtain ⟨m, hm, h⟩ := bind_eq_ok_iff.mp h
    cases h
    exact .wait hx hw hm
  next hw =>
  have hawake : c.machine.waiting = false := by simpa using hw
  have hunchecked : c.machine.skipCheck = true ∨ c.machine.pending = false := by
    cases hs : c.machine.skipCheck with
    | true => exact .inl rfl
    | false =>
      refine .inr (Bool.eq_false_iff.mpr fun hp => hnot ⟨hs, hawake, hp⟩)
  split at h
  next n hl =>
    cases h
    exact .dispatch hx hawake hunchecked hl
  next hl =>
    obtain ⟨m, hm, h⟩ := bind_eq_ok_iff.mp h
    cases h
    exact .interpret hx hawake hunchecked hl hm

theorem tick_stepped {D : Devices δ} {P : Program δ ν} {c c' : Config δ ν} {n : ν}
    {stack : List (Frame ν)} {label : Option Label} (hc : c.stack = .ready n :: stack)
    (h : tick D P n c.machine stack = .ok (label, c')) : Stepped D P c label c' := by
  unfold tick at h
  split at h
  next hdue =>
    obtain ⟨m, hm, h⟩ := bind_eq_ok_iff.mp h
    cases h
    exact .tickEntry hc hdue hm
  next hquiet =>
    obtain ⟨⟨m, after⟩, hm, h⟩ := bind_eq_ok_iff.mp h
    cases h
    exact .native hc (by simpa using hquiet) hm

theorem step_stepped {D : Devices δ} {P : Program δ ν} {c c' : Config δ ν} {label : Option Label}
    (h : dispatchStep D P c = .ok (label, c')) : Stepped D P c label c' := by
  unfold dispatchStep at h
  split at h
  next hc => exact execOne_stepped (by simp [Config.executes, hc]) (hc ▸ h)
  next n stack hc => exact tick_stepped hc h
  next n depth before stack hc =>
    split at h
    next hd => exact execOne_stepped (by simpa [Config.executes, hc] using hd) h
    next hd =>
    split at h
    next hctx =>
      cases h
      exact .back hc (Int.not_lt.mp hd) hctx
    next => cases h
  next u k stack hc =>
    split at h
    next hd => exact execOne_stepped (by simpa [Config.executes, hc] using hd) h
    next hd =>
      obtain ⟨after, ha, h⟩ := bind_eq_ok_iff.mp h
      cases h
      exact .resume hc (by simpa using hd) (fatally_eq_ok.mp ha)

/-- A run whose steps all start in a `good` configuration, with what happened at
its boundaries. -/
inductive Run (D : Devices δ) (P : Program δ ν) (good : Config δ ν → Prop) (c : Config δ ν) :
    List Label → Config δ ν → Prop
  | refl : Run D P good c [] c
  | step {trace : List Label} {c' c'' : Config δ ν} {label : Option Label}
      (run : Run D P good c trace c') (holds : good c') (h : dispatchStep D P c' = .ok (label, c'')) :
      Run D P good c (trace ++ label.toList) c''

theorem Run.cons {D : Devices δ} {P : Program δ ν} {good : Config δ ν → Prop}
    {c c' c'' : Config δ ν} {trace : List Label} {label : Option Label} (holds : good c)
    (h : dispatchStep D P c = .ok (label, c')) (run : Run D P good c' trace c'') :
    Run D P good c (label.toList ++ trace) c'' := by
  induction run with
  | refl =>
    have hone := Run.step (.refl (D := D)) holds h
    simpa using hone
  | step _ hgood hstep ih =>
    rw [← List.append_assoc]
    exact .step ih hgood hstep

/-- `n` steps, and what happened in them. -/
def steps (D : Devices δ) (P : Program δ ν) : Nat → Config δ ν → Option (List Label × Config δ ν)
  | 0, c => some ([], c)
  | n + 1, c =>
    match dispatchStep D P c with
    | .ok (label, c') => (steps D P n c').map fun r => (label.toList ++ r.1, r.2)
    | .error _ => none

theorem steps_run {D : Devices δ} {P : Program δ ν} {n : Nat} {c c' : Config δ ν}
    {trace : List Label} (h : steps D P n c = some (trace, c')) :
    Run D P (fun _ => True) c trace c' := by
  induction n generalizing c trace with
  | zero =>
    cases h
    exact .refl
  | succ n ih =>
    unfold steps at h
    split at h
    next label next hstep =>
      obtain ⟨⟨rest, last⟩, hrest, hout⟩ := Option.map_eq_some_iff.mp h
      cases hout
      exact .cons trivial hstep (ih hrest)
    next => cases h

/-- What each step keeps of trace and configuration, a run keeps. -/
theorem Run.invariant {D : Devices δ} {P : Program δ ν} {good : Config δ ν → Prop}
    {c c' : Config δ ν} {trace : List Label} (I : List Label → Config δ ν → Prop) (start : I [] c)
    (keep : ∀ trace a label b, I trace a → good a → Stepped D P a label b →
      I (trace ++ label.toList) b) (h : Run D P good c trace c') : I trace c' := by
  induction h with
  | refl => exact start
  | step _ holds h ih => exact keep _ _ _ _ ih holds (step_stepped h)

end CtRecomp
