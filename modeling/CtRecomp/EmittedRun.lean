import CtRecomp.ChargeRun
import CtRecomp.EmitProgram

namespace CtRecomp

/-! Compiled code as it runs in the frame scheduler (`ct_exec_hook` set): its C functions, the
calls and tail calls between them, the system executor for what is not compiled, and interrupts
at any boundary of instructions. Of the ticks the clocks and events are left out. -/

/-- How control leaves an instruction's statements. -/
inductive Exit
  | next
  /-- The next byte of a block move. -/
  | again
  | goto (dest : Key)
  /-- `ct_run`, and the statements behind it. -/
  | call (f : CName) (rest : List Stmt)
  | tail (f : CName)
  | ret
  /-- `ct_call_interp`, with its target in PB:PC. -/
  | dispatch (back : BitVec 24) (n : Nat) (mx : MxCheck) (rest : List Stmt)
  /-- `ct_tail_rest` -/
  | rest

def Cpu.setRegs (c : Cpu) (r : RegFile) : Cpu := { c with toRegFile := r }

def Cpu.setPC (c : Cpu) (v : BitVec 16) : Cpu := { c with PC := v }

/-- A case of a `switch`, with the statements behind it. -/
def TableCase.exit (c : Cpu) (rest : List Stmt) : TableCase → Cpu × Exit
  | .interpCall target back mx | .hookedCall target back mx _ =>
    (c.setPbpc target, .dispatch back 2 mx rest)
  | .interpJump target | .hookedJump target _ => (c.setPC (low target), .rest)
  | .run f => (c, .call f rest)
  | .tail f => (c, .tail f)

section

variable {σ : Type} [Board σ]

/-- A template's statements. -/
def opStmt (i : Insn) (r : RegFile) : BusM σ RegFile :=
  match i.width.bind (templates i.opcode) with
  | some (.body f) => f i r
  | _ => ctFatal

/-- `mvn16` up to its next byte. -/
def moveStmt (i : Insn) (r : RegFile) : BusM σ RegFile :=
  mvnByte (i.operand.extractLsb' 0 8) (i.operand.extractLsb' 8 8)
    { r with DB := i.operand.extractLsb' 0 8 }

def retStmt (i : Insn) : Cpu → BusM σ Cpu :=
  if i.opcode = 0x40 then opRti true
  else
    match i.width.bind (templates i.opcode) with
    | some (.ret f) => f
    | _ => fun _ => ctFatal

/-- The target in a table of unknown length. -/
def targetStmt (i : Insn) (r : RegFile) : BusM σ (BitVec 24) := do
  let p := i.lo16 + r.X
  let lo ← read8 (bank i.addr ++ p)
  let hi ← read8 (bank i.addr ++ (p + 1))
  return bank i.addr ++ (hi ++ lo)

/-- A block's statements, `t` the target read; `ct_fatal` ends the program. -/
def runStmts : List Stmt → BitVec 24 → Cpu → BusM σ (Cpu × Exit)
  | [], _, c => return (c, .next)
  | .op i :: rest, t, c =>
    if i.opcode = 0x54 then do
      let r ← moveStmt i c.toRegFile
      if r.A = 0xFFFF then runStmts rest t (c.setRegs r) else return (c.setRegs r, .again)
    else do
      let r ← opStmt i c.toRegFile
      runStmts rest t (c.setRegs r)
  | .branch i dest :: rest, t, c =>
    match branchCond i.mnemonic with
    | none => ctFatal
    | some cond =>
      if cond c.toRegFile then do
        markTaken i
        ctLoop i i.branchTarget
        return (c, .goto dest)
      else runStmts rest t c
  | .jump i dest :: _, _, c => do
    ctLoop i i.jumpTarget
    return (c, .goto dest)
  | .ret i :: _, _, c => do
    let c ← retStmt i c
    return (c, .ret)
  | .push8 v :: rest, t, c => do
    let r ← push8 c.toRegFile v
    runStmts rest t (c.setRegs r)
  | .push16 v :: rest, t, c => do
    let r ← push16 c.toRegFile v
    runStmts rest t (c.setRegs r)
  | .setPB v :: rest, t, c => runStmts rest t { c with PB := v }
  | .setPC v :: rest, t, c => runStmts rest t (c.setPC v)
  | .strictRest _ :: rest, t, c => runStmts rest t c
  | .readTarget i :: rest, _, c => do
    let t ← targetStmt i c.toRegFile
    runStmts rest t c
  | .callRead back mx :: rest, t, c => return (c.setPbpc t, .dispatch back 2 mx rest)
  | .jumpRead :: _, t, c => return (c.setPC (low t), .rest)
  | .callInterp target back n mx :: rest, _, c | .externCall target back n mx _ _ :: rest, _, c =>
    return (c.setPbpc target, .dispatch back n mx rest)
  | .run f :: rest, _, c => return (c, .call f rest)
  | .tail f :: _, _, c => return (c, .tail f)
  | .rest :: _, _, c | .restIfHook :: _, _, c => return (c, .rest)
  | .check (.short _ expect) :: rest, t, c =>
    if c.PC = expect then runStmts rest t c else ctFatal
  | .check (.long _ expect) :: rest, t, c =>
    if c.pbpc = expect then runStmts rest t c else ctFatal
  | .externTail target _ :: _, _, c => return (c.setPbpc target, .rest)
  | .switch _ cases :: rest, _, c =>
    match cases.lookup c.X with
    | some case => return case.exit c rest
    | none => ctFatal
  | .checkMx _ m x :: rest, t, c =>
    if c.m = m ∧ c.x = x then runStmts rest t c else ctFatal
  | .gotoMode m x dest :: rest, t, c =>
    if c.m = m ∧ c.x = x then return (c, .goto dest) else runStmts rest t c
  | .goto dest :: _, _, c => return (c, .goto dest)
  | .fatal _ :: _, _, _ => ctFatal

end

/-- A C function under way: its S at entry, the block it is in, and those behind. -/
structure BlockPlace where
  E : EmittedFn
  s0 : BitVec 16
  b : Block
  after : List Block

/-- How long the executor goes on: `ct_call_interp`'s `ct_exec_until`, `ct_interp_rest`'s, and
the loop of `tick`, down to its `int_depth`. -/
inductive ExecUntil
  | call (s : BitVec 16)
  | rest (s : BitVec 16)
  | irq (depth : Int)

/-- `ct_exec_done`, and `tick`'s -/
def ExecUntil.done (r : RegFile) (depth : Int) : ExecUntil → Bool
  | .call s => s ≤ r.S
  | .rest s => s < r.S
  | .irq d => depth ≤ d

/-- What waits for a function or the executor to return. -/
inductive EmittedFrame
  | run (a : BlockPlace) (rest : List Stmt)
  | call (a : BlockPlace) (back : BitVec 24) (mx : MxCheck) (rest : List Stmt)
  /-- The executor's loop, in a function it runs natively. -/
  | loop (u : ExecUntil)
  /-- An instruction that was interrupted. -/
  | irq (a : BlockPlace) (before : Cpu)

inductive Control
  | block (a : BlockPlace)
  /-- A function has returned. -/
  | back
  | exec (u : ExecUntil)

structure EmittedMachine (σ : Type) where
  cpu : Cpu
  bus : Bus σ
  ctl : Control
  frames : List EmittedFrame
  /-- `int_depth` -/
  depth : Int

/-- At a label. -/
def EmittedFn.place (E : EmittedFn) (s0 : BitVec 16) (key : Key) : Option BlockPlace :=
  match E.blocks.dropWhile fun b => b.i.key ≠ key with
  | [] => none
  | b :: after => some ⟨E, s0, b, after⟩

/-- `cpu_enter`, and on to the entry's label. -/
def EmittedFn.enter (E : EmittedFn) (r : RegFile) : Option BlockPlace :=
  if r.e = false ∧ E.fn.state.m = some r.m ∧ E.fn.state.x = some r.x then
    E.place r.S (E.fn.entry, E.fn.state.key)
  else none

/-- Into one of the ROM's functions. -/
def Generated.call (p : Generated) (f : CName) (r : RegFile) : Option BlockPlace :=
  (p.rom.find? fun E => E.name = f).bind fun E => E.enter r

/-- `ct_tail_rest` and return: the executor's own loop goes on with it. -/
def handOver (s0 : BitVec 16) : List EmittedFrame → Control × List EmittedFrame
  | .loop u :: fs => (.exec u, fs)
  | fs => (.exec (.rest s0), fs)

/-- Where an exit leads. -/
def Exit.go (p : Generated) (a : BlockPlace) (r : RegFile) (fs : List EmittedFrame) :
    Exit → Option (Control × List EmittedFrame)
  | .next =>
    match a.after with
    | [] => none
    | b :: after => some (.block { a with b, after }, fs)
  | .again => some (.block a, fs)
  | .goto dest => (a.E.place a.s0 dest).map fun a => (.block a, fs)
  | .call f more => (p.call f r).map fun a' => (.block a', .run a more :: fs)
  | .tail f => (p.call f r).map fun a' => (.block a', fs)
  | .ret => some (.back, fs)
  | .dispatch back n mx more =>
    some (.exec (.call (r.S + BitVec.ofNat 16 n)), .call a back mx more :: fs)
  | .rest => some (handOver a.s0 fs)

def MxCheck.Holds (mx : MxCheck) (r : RegFile) : Prop :=
  (∀ m, mx.1 = some m → r.m = m) ∧ ∀ x, mx.2 = some x → r.x = x

/-- `ct_call_interp` is nonzero, and M and X as checked. -/
def CameBack (c : Cpu) (s : BitVec 16) (back : BitVec 24) (mx : MxCheck) : Prop :=
  c.S = s ∧ c.pbpc = back ∧ mx.Holds c.toRegFile

/-- An interrupt has returned to the native code, as `tick` checks. -/
def Interrupted (before c : Cpu) : Prop :=
  c.PB = before.PB ∧ c.PC = before.PC ∧ c.S = before.S ∧ c.m = before.m ∧ c.x = before.x ∧
    c.e = before.e

/-- `int_depth` after an instruction: an RTI leaves an interrupt. -/
def rtiDepth (opcode : BitVec 8) (depth : Int) : Int :=
  if opcode = 0x40 then depth - 1 else depth

section

variable {σ : Type} [Board σ]

/-- Between two instructions: no accesses yet, and no step budget. -/
def startWire (b : Bus σ) (mdr : BitVec 8) : Wire σ := ⟨b, mdr, [], false, false, 0⟩

/-- On through a function's statements. -/
def BlockPlace.goOn (p : Generated) (a : BlockPlace) (body : List Stmt) (c : Cpu) (w : Wire σ)
    (fs : List EmittedFrame) (d : Int) : Option (EmittedMachine σ) := do
  let ((c, x), w) ← runStmts body 0 c w
  let (ctl, fs) ← x.go p a c.toRegFile fs
  some ⟨c, w.bus, ctl, fs, d⟩

def systemHost : Host σ := ⟨true, [], []⟩

/-- The interpreter on the instruction at PB:PC, whose opcode is in RAM or ROM. -/
def execute (c : Cpu) (b : Bus σ) : Option (Cpu × Bus σ) :=
  if (b.mem c.pbpc).isSome then
    (interpStep systemHost ⟨c, false, [], []⟩ (startWire b 0)).map fun p => (p.1.2.toCpu, p.2.bus)
  else none

/-- `interp_interrupt` -/
def interrupt (nmi : Bool) (c : Cpu) (b : Bus σ) : Option (Cpu × Bus σ) :=
  (interpInterrupt ⟨c, false, [], []⟩ nmi (startWire b 0)).map fun p => (p.1.2.toCpu, p.2.bus)

/-- What comes next: an instruction, or an interrupt. -/
inductive Move
  | insn
  | interrupt (nmi : Bool)
deriving DecidableEq

def Move.run : Move → Cpu → Bus σ → Option (Cpu × Bus σ)
  | .insn => execute
  | .interrupt nmi => CtRecomp.interrupt nmi

/-- The interpreter on its own. -/
def executes (moves : List Move) (c : Cpu) (b : Bus σ) : Option (Cpu × Bus σ) :=
  moves.foldlM (fun r move => move.run r.1 r.2) (c, b)

/-- One step, and what it runs. -/
inductive EmittedMachine.Step (p : Generated) :
    EmittedMachine σ → List Move → EmittedMachine σ → Prop
  | block {a : BlockPlace} {c : Cpu} {b : Bus σ} {fs : List EmittedFrame} {d : Int}
      {M : EmittedMachine σ}
      (h : a.goOn p a.b.body (c.setPbpc a.b.i.addr) (startWire b a.b.i.last) fs
        (rtiDepth a.b.i.opcode d) = some M) :
      Step p ⟨c, b, .block a, fs, d⟩ [.insn] M
  /-- In `tick`, ahead of an instruction. -/
  | interrupted {a : BlockPlace} {nmi : Bool} {c c' : Cpu} {b b' : Bus σ} {fs : List EmittedFrame}
      {d : Int} (h : interrupt nmi (c.setPbpc a.b.i.addr) b = some (c', b')) :
      Step p ⟨c, b, .block a, fs, d⟩ [.interrupt nmi]
        ⟨c', b', .exec (.irq d), .irq a (c.setPbpc a.b.i.addr) :: fs, d + 1⟩
  | returned {a : BlockPlace} {rest : List Stmt} {c : Cpu} {b : Bus σ} {fs : List EmittedFrame}
      {d : Int} {M : EmittedMachine σ} (h : a.goOn p rest c (startWire b 0) fs d = some M) :
      Step p ⟨c, b, .back, .run a rest :: fs, d⟩ [] M
  | loop {u : ExecUntil} {c : Cpu} {b : Bus σ} {fs : List EmittedFrame} {d : Int} :
      Step p ⟨c, b, .back, .loop u :: fs, d⟩ [] ⟨c, b, .exec u, fs, d⟩
  | insn {u : ExecUntil} {opcode : BitVec 8} {c c' : Cpu} {b b' : Bus σ} {fs : List EmittedFrame}
      {d : Int} (hmore : u.done c.toRegFile d = false) (hop : b.mem c.pbpc = some opcode)
      (h : execute c b = some (c', b')) :
      Step p ⟨c, b, .exec u, fs, d⟩ [.insn] ⟨c', b', .exec u, fs, rtiDepth opcode d⟩
  /-- In `exec_one`. -/
  | taken {u : ExecUntil} {nmi : Bool} {c c' : Cpu} {b b' : Bus σ} {fs : List EmittedFrame}
      {d : Int} (hmore : u.done c.toRegFile d = false) (h : interrupt nmi c b = some (c', b')) :
      Step p ⟨c, b, .exec u, fs, d⟩ [.interrupt nmi] ⟨c', b', .exec u, fs, d + 1⟩
  /-- The executor finds native code at PB:PC. -/
  | native {u : ExecUntil} {f : CName} {a : BlockPlace} {c : Cpu} {b : Bus σ}
      {fs : List EmittedFrame} {d : Int} (hmore : u.done c.toRegFile d = false)
      (h : p.call f c.toRegFile = some a) (hat : a.E.fn.entry = c.pbpc) :
      Step p ⟨c, b, .exec u, fs, d⟩ [] ⟨c, b, .block a, .loop u :: fs, d⟩
  | rested {s : BitVec 16} {c : Cpu} {b : Bus σ} {fs : List EmittedFrame} {d : Int}
      (hdone : (ExecUntil.rest s).done c.toRegFile d = true) :
      Step p ⟨c, b, .exec (.rest s), fs, d⟩ [] ⟨c, b, .back, fs, d⟩
  | came {s : BitVec 16} {a : BlockPlace} {back : BitVec 24} {mx : MxCheck} {rest : List Stmt}
      {c : Cpu} {b : Bus σ} {fs : List EmittedFrame} {d : Int} {M : EmittedMachine σ}
      (hdone : (ExecUntil.call s).done c.toRegFile d = true) (hback : CameBack c s back mx)
      (h : a.goOn p rest c (startWire b 0) fs d = some M) :
      Step p ⟨c, b, .exec (.call s), .call a back mx rest :: fs, d⟩ [] M
  /-- It came back elsewhere, or in another mode. -/
  | missed {s : BitVec 16} {a : BlockPlace} {back : BitVec 24} {mx : MxCheck} {rest : List Stmt}
      {c : Cpu} {b : Bus σ} {fs : List EmittedFrame} {d : Int}
      (hdone : (ExecUntil.call s).done c.toRegFile d = true) (hback : ¬CameBack c s back mx) :
      Step p ⟨c, b, .exec (.call s), .call a back mx rest :: fs, d⟩ []
        ⟨c, b, (handOver a.s0 fs).1, (handOver a.s0 fs).2, d⟩
  | resumed {d' : Int} {a : BlockPlace} {before c : Cpu} {b : Bus σ} {fs : List EmittedFrame}
      {d : Int} (hdone : (ExecUntil.irq d').done c.toRegFile d = true)
      (hsame : Interrupted before c) :
      Step p ⟨c, b, .exec (.irq d'), .irq a before :: fs, d⟩ [] ⟨c, b, .block a, fs, d⟩

/-- `native_lookup`, among the functions that take no hook. -/
def Generated.native (p : Generated) (c : Cpu) : Option BlockPlace :=
  p.rom.findSome? fun E =>
    if E.fn.entry = c.pbpc ∧ (E.name, false) ∈ p.table then
      (p.call E.name c.toRegFile).filter fun a => a.E.fn.entry = c.pbpc
    else none

instance mxHolds (mx : MxCheck) (r : RegFile) : Decidable (mx.Holds r) :=
  inferInstanceAs (Decidable (_ ∧ _))

instance cameBack (c : Cpu) (s : BitVec 16) (back : BitVec 24) (mx : MxCheck) :
    Decidable (CameBack c s back mx) := inferInstanceAs (Decidable (_ ∧ _))

instance interrupted (before c : Cpu) : Decidable (Interrupted before c) :=
  inferInstanceAs (Decidable (_ ∧ _))

/-- The executor's next: an interrupt, the instruction, or native code for PB:PC. -/
def execNext (p : Generated) (irq : Option Bool) (u : ExecUntil) (c : Cpu) (b : Bus σ)
    (fs : List EmittedFrame) (d : Int) : Option (List Move × EmittedMachine σ) :=
  match irq with
  | some nmi => do
    let (c, b) ← interrupt nmi c b
    some ([.interrupt nmi], ⟨c, b, .exec u, fs, d + 1⟩)
  | none =>
    match p.native c with
    | some a => some ([], ⟨c, b, .block a, .loop u :: fs, d⟩)
    | none => do
      let opcode ← b.mem c.pbpc
      let (c, b) ← execute c b
      some ([.insn], ⟨c, b, .exec u, fs, rtiDepth opcode d⟩)

/-- What waits for the executor goes on. -/
def doneNext (p : Generated) (c : Cpu) (b : Bus σ) (d : Int) :
    ExecUntil → List EmittedFrame → Option (EmittedMachine σ)
  | .rest _, fs => some ⟨c, b, .back, fs, d⟩
  | .call s, .call a back mx rest :: fs =>
    if CameBack c s back mx then a.goOn p rest c (startWire b 0) fs d
    else some ⟨c, b, (handOver a.s0 fs).1, (handOver a.s0 fs).2, d⟩
  | .irq _, .irq a before :: fs =>
    if Interrupted before c then some ⟨c, b, .block a, fs, d⟩ else none
  | .call _, _ | .irq _, _ => none

/-- At an instruction of compiled code. -/
def BlockPlace.next (p : Generated) (irq : Option Bool) (a : BlockPlace) (c : Cpu) (b : Bus σ)
    (fs : List EmittedFrame) (d : Int) : Option (List Move × EmittedMachine σ) :=
  match irq with
  | some nmi => do
    let (c', b) ← interrupt nmi (c.setPbpc a.b.i.addr) b
    some ([.interrupt nmi],
      ⟨c', b, .exec (.irq d), .irq a (c.setPbpc a.b.i.addr) :: fs, d + 1⟩)
  | none =>
    (a.goOn p a.b.body (c.setPbpc a.b.i.addr) (startWire b a.b.i.last) fs
      (rtiDepth a.b.i.opcode d)).map ([.insn], ·)

/-- The step that the scheduler takes, an interrupt if there is one. -/
def EmittedMachine.next (p : Generated) (irq : Option Bool) (M : EmittedMachine σ) :
    Option (List Move × EmittedMachine σ) :=
  match M.ctl, M.frames with
  | .block a, fs => a.next p irq M.cpu M.bus fs M.depth
  | .back, .run a rest :: fs => (a.goOn p rest M.cpu (startWire M.bus 0) fs M.depth).map ([], ·)
  | .back, .loop u :: fs => some ([], ⟨M.cpu, M.bus, .exec u, fs, M.depth⟩)
  | .back, _ => none
  | .exec u, fs =>
    if u.done M.cpu.toRegFile M.depth then (doneNext p M.cpu M.bus M.depth u fs).map ([], ·)
    else execNext p irq u M.cpu M.bus fs M.depth

end

/-- M and X as far as the mode knows them, in native mode. -/
structure InMode (r : RegFile) (k : Mode) : Prop where
  m : ∀ b, k.1 = some b → r.m = b
  x : ∀ b, k.2.1 = some b → r.x = b
  native : r.e = false

instance inMode (r : RegFile) (k : Mode) : Decidable (InMode r k) :=
  decidable_of_iff ((∀ b, k.1 = some b → r.m = b) ∧ (∀ b, k.2.1 = some b → r.x = b) ∧ r.e = false)
    ⟨fun h => ⟨h.1, h.2.1, h.2.2⟩, fun h => ⟨h.m, h.x, h.native⟩⟩

/-- A callee came back as its caller was compiled for: into its bank, in native mode, and where
it can come back in one mode only, which nothing checks, in that one. -/
structure BlockPlace.ComesBack (a : BlockPlace) (c : Cpu) : Prop where
  bank : c.PB = bank a.b.i.addr
  native : c.e = false
  mode : a.E.fn.callExits.lookup a.b.i.key = none → InMode c.toRegFile (a.E.fn.postOf a.b.i.key)

instance comesBack (a : BlockPlace) (c : Cpu) : Decidable (a.ComesBack c) :=
  decidable_of_iff (c.PB = bank a.b.i.addr ∧ c.e = false ∧
      (a.E.fn.callExits.lookup a.b.i.key = none → InMode c.toRegFile (a.E.fn.postOf a.b.i.key)))
    ⟨fun h => ⟨h.1, h.2.1, h.2.2⟩, fun h => ⟨h.bank, h.native, h.mode⟩⟩

/-- What compiled code takes for granted: XCE leaves emulation mode off, and callees come back
as their callers were compiled for. -/
def EmittedMachine.Regular {σ : Type} (M : EmittedMachine σ) : Prop :=
  match M.ctl, M.frames with
  | .block a, _ => a.b.i.mnemonic = .XCE → M.cpu.c = false
  | .back, .run a _ :: _ => a.ComesBack M.cpu
  | .exec (.call s), .call a back mx _ :: _ => CameBack M.cpu s back mx → a.ComesBack M.cpu
  | _, _ => True

instance regular {σ : Type} : (M : EmittedMachine σ) → Decidable M.Regular
  | ⟨c, _, .block a, _, _⟩ => inferInstanceAs (Decidable (a.b.i.mnemonic = .XCE → c.c = false))
  | ⟨c, _, .back, .run a _ :: _, _⟩ => inferInstanceAs (Decidable (a.ComesBack c))
  | ⟨c, _, .exec (.call s), .call a back mx _ :: _, _⟩ =>
    inferInstanceAs (Decidable (CameBack c s back mx → a.ComesBack c))
  | ⟨_, _, .back, [], _⟩ | ⟨_, _, .back, .call _ _ _ _ :: _, _⟩ | ⟨_, _, .back, .loop _ :: _, _⟩
  | ⟨_, _, .back, .irq _ _ :: _, _⟩ | ⟨_, _, .exec (.rest _), _, _⟩
  | ⟨_, _, .exec (.irq _), _, _⟩ | ⟨_, _, .exec (.call _), [], _⟩
  | ⟨_, _, .exec (.call _), .run _ _ :: _, _⟩ | ⟨_, _, .exec (.call _), .loop _ :: _, _⟩
  | ⟨_, _, .exec (.call _), .irq _ _ :: _, _⟩ =>
    .isTrue trivial

section

variable {σ : Type} [Board σ]

/-- A run whose states are regular, and what it runs. -/
inductive EmittedMachine.Run (p : Generated) (M : EmittedMachine σ) :
    List Move → EmittedMachine σ → Prop
  | start : Run p M [] M
  | step {moves more : List Move} {M' M'' : EmittedMachine σ} (hrun : Run p M moves M')
      (hregular : M'.Regular) (hstep : M'.Step p more M'') : Run p M (moves ++ more) M''

/-- The CPU as the interpreter has it: `tick` sets PB:PC at the start of a compiled instruction. -/
def Control.view (c : Cpu) : Control → Cpu
  | .block a => c.setPbpc a.b.i.addr
  | .back | .exec _ => c

def EmittedMachine.view (M : EmittedMachine σ) : Cpu := M.ctl.view M.cpu

/-- The scheduler's own steps, while its states are regular: with the interrupts it takes. -/
def EmittedMachine.nexts (p : Generated) (irqs : List (Option Bool)) (M : EmittedMachine σ) :
    Option (List Move × EmittedMachine σ) :=
  irqs.foldlM (fun r irq => do
    if r.2.Regular then
      let (more, M) ← r.2.next p irq
      some (r.1 ++ more, M)
    else none) ([], M)

variable {p : Generated} {M M' : EmittedMachine σ} {irq : Option Bool} {moves : List Move}
  {c : Cpu} {b : Bus σ} {fs : List EmittedFrame} {d : Int}

theorem execNext_step {u : ExecUntil} (hmore : u.done c.toRegFile d = false)
    (h : execNext p irq u c b fs d = some (moves, M')) :
    EmittedMachine.Step p ⟨c, b, .exec u, fs, d⟩ moves M' := by
  unfold execNext at h
  split at h
  next nmi =>
    obtain ⟨⟨c', b'⟩, hirq, h⟩ := Option.bind_eq_some_iff.mp h
    cases h
    exact .taken hmore hirq
  next =>
    split at h
    next a hnative =>
      cases h
      unfold Generated.native at hnative
      obtain ⟨E, -, hE⟩ := List.exists_of_findSome?_eq_some hnative
      split at hE
      next =>
        obtain ⟨hcall, hat⟩ := Option.filter_eq_some_iff.mp hE
        exact .native hmore hcall (of_decide_eq_true hat)
      next => cases hE
    next =>
      obtain ⟨opcode, hop, h⟩ := Option.bind_eq_some_iff.mp h
      obtain ⟨⟨c', b'⟩, hexec, h⟩ := Option.bind_eq_some_iff.mp h
      cases h
      exact .insn hmore hop hexec

theorem blockNext_step {a : BlockPlace} (h : a.next p irq c b fs d = some (moves, M')) :
    EmittedMachine.Step p ⟨c, b, .block a, fs, d⟩ moves M' := by
  unfold BlockPlace.next at h
  split at h
  next nmi =>
    obtain ⟨⟨c', b'⟩, hirq, h⟩ := Option.bind_eq_some_iff.mp h
    cases h
    exact .interrupted hirq
  next =>
    obtain ⟨M, hgo, h⟩ := Option.map_eq_some_iff.mp h
    cases h
    exact .block hgo

theorem doneNext_step {u : ExecUntil} (hdone : u.done c.toRegFile d = true)
    (h : doneNext p c b d u fs = some M') : EmittedMachine.Step p ⟨c, b, .exec u, fs, d⟩ [] M' := by
  unfold doneNext at h
  split at h
  next =>
    cases h
    exact .rested hdone
  next =>
    split at h
    next hback => exact .came hdone hback h
    next hback =>
      cases h
      exact .missed hdone hback
  next =>
    split at h
    next hsame =>
      cases h
      exact .resumed hdone hsame
    next => cases h
  next => cases h
  next => cases h

theorem next_step (h : M.next p irq = some (moves, M')) : M.Step p moves M' := by
  obtain ⟨c, b, ctl, fs, d⟩ := M
  cases ctl with
  | block a => exact blockNext_step h
  | back =>
    cases fs with
    | nil => cases h
    | cons f fs =>
      cases f with
      | run a rest =>
        obtain ⟨M, hgo, h⟩ := Option.map_eq_some_iff.mp h
        cases h
        exact .returned hgo
      | call a back mx rest => cases h
      | loop u =>
        cases h
        exact .loop
      | irq a before => cases h
  | exec u =>
    cases hdone : u.done c.toRegFile d with
    | false =>
      have hnext : execNext p irq u c b fs d = some (moves, M') := by
        simpa only [EmittedMachine.next, hdone, Bool.false_eq_true, ↓reduceIte] using h
      exact execNext_step hdone hnext
    | true =>
      simp only [EmittedMachine.next, hdone, ↓reduceIte] at h
      obtain ⟨M, hgo, h⟩ := Option.map_eq_some_iff.mp h
      cases h
      exact doneNext_step hdone hgo

theorem nexts_run {irqs : List (Option Bool)} (h : M.nexts p irqs = some (moves, M')) :
    M.Run p moves M' := by
  induction irqs using List.reverseRecOn generalizing moves M' with
  | nil =>
    cases h
    exact .start
  | append_singleton irqs irq ih =>
    unfold EmittedMachine.nexts at h
    rw [List.foldlM_append] at h
    obtain ⟨⟨moves₁, M₁⟩, hrun, h⟩ := Option.bind_eq_some_iff.mp h
    obtain ⟨r, hstep, h⟩ := Option.bind_eq_some_iff.mp h
    cases h
    dsimp only at hstep
    split at hstep
    next hregular =>
      obtain ⟨⟨more, M₂⟩, hnext, h⟩ := Option.bind_eq_some_iff.mp hstep
      cases h
      exact .step (ih hrun) hregular (next_step hnext)
    next => cases hstep

end

end CtRecomp
