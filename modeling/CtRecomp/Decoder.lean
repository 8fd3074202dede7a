import Mathlib.Data.Finset.Basic
import Mathlib.Data.List.Sort
import CtRecomp.Isa
import CtRecomp.Raise

namespace CtRecomp

/-! The decoder with static M/X/E tracking (decode.py). -/

/-- `read_byte`: none where nothing is mapped. -/
abbrev Image := BitVec 24 → Option (BitVec 8)

inductive CallKind
  | JSR | JSL | JML
deriving DecidableEq, Repr

/-- What `DecodeError` and its subclasses are raised for. -/
inductive DecodeError
  | notRom (addr : BitVec 24)
  | operandNotRom (addr : BitVec 24)
  | immediateWidth (addr : BitVec 24)
  | stackWidth (addr : BitVec 24)
  | carryUnknown (addr : BitVec 24)
  | intoEmulation (addr : BitVec 24)
  | indexWidth (addr : BitVec 24)
  | notCode (addr : BitVec 24)
  | unsupported (addr : BitVec 24)
  | noTable (site : BitVec 24)
  | tableNotRom (site : BitVec 24)
  | externKind (site target : BitVec 24)
  | exits (site target : BitVec 24)
  | unknownExit (site target : BitVec 24)
  | missingTarget (site target : BitVec 24) (st : State)
  | needAssumption (key : Key)
  | notConverging (key : Key)
  /-- `sorted` compares an unknown M or X: no `DecodeError`, nothing catches it. -/
  | unordered (site : BitVec 24)
  /-- The model's own: out of fuel. -/
  | outOfFuel
deriving DecidableEq, Repr

/-- `except DecodeError` catches it. -/
def DecodeError.caught : DecodeError → Bool
  | .unordered _ | .outOfFuel => false
  | _ => true

/-! Instructions. -/

/-- The operand's first `n` bytes, which wrap within the bank. -/
def readOperand (mem : Image) (addr : BitVec 24) : Nat → Option (BitVec 24)
  | 0 => some 0
  | n + 1 => do
    let v ← readOperand mem addr n
    let b ← mem (bank addr ++ (low addr + 1 + BitVec.ofNat 16 n))
    some (v ||| b.setWidth 24 <<< (8 * n))

def decodeInsn (mem : Image) (addr : BitVec 24) (st : State) : Except DecodeError Insn :=
  match mem addr with
  | none => .error (.notRom addr)
  | some opcode =>
    let (mnemonic, mode) := opcodes opcode
    match operandBytes mode st.m st.x with
    | none => .error (.immediateWidth addr)
    | some n =>
      match readOperand mem addr n with
      | none => .error (.operandNotRom addr)
      | some operand => .ok ⟨addr, opcode, mnemonic, mode, operand, 1 + n, st.m, st.x, st.e⟩

/-! State transfer. -/

/-- Bytes moved: by M's or X's width, or always as many. -/
inductive StackKind
  | m | x
  | bytes (n : Nat)

def stackPush : Mnemonic → Option StackKind
  | .PHA => some .m
  | .PHX | .PHY => some .x
  | .PHB | .PHK | .PHP => some (.bytes 1)
  | .PHD | .PEA | .PEI | .PER => some (.bytes 2)
  | _ => none

def stackPull : Mnemonic → Option StackKind
  | .PLA => some .m
  | .PLX | .PLY => some .x
  | .PLB | .PLP => some (.bytes 1)
  | .PLD => some (.bytes 2)
  | _ => none

def stackSize (kind : StackKind) (st : State) (addr : BitVec 24) : Except DecodeError Nat :=
  match kind with
  | .bytes n => .ok n
  | .m => match st.m with
    | none => .error (.stackWidth addr)
    | some m => .ok (if m then 1 else 2)
  | .x => match st.x with
    | none => .error (.stackWidth addr)
    | some x => .ok (if x then 1 else 2)

def State.rep (st : State) (v : BitVec 24) : State :=
  if st.e then st
  else { st with
    m := if v.getLsbD 5 then some false else st.m
    x := if v.getLsbD 4 then some false else st.x }

def State.sep (st : State) (v : BitVec 24) : State :=
  { st with
    m := if v.getLsbD 5 then some true else st.m
    x := if v.getLsbD 4 then some true else st.x }

/-- M and X as PLP restores them: from a PHP byte of this function's. -/
def State.plp (st : State) (top : Option (Option Bool × Option Bool)) : Option Bool × Option Bool :=
  if st.e then (some true, some true) else top.getD (none, none)

def State.pull (st : State) (mn : Mnemonic) (size : Nat) : State :=
  if st.stack.length < size then
    -- bytes pushed before entry
    let (m, x) := if mn = .PLP then st.plp none else (st.m, st.x)
    { st with m, x, stack := [], stackLost := true }
  else
    let stack := st.stack.take (st.stack.length - size)
    let popped := st.stack.drop (st.stack.length - size)
    let top := if st.stackLost then none else popped.head?.join
    let (m, x) := if mn = .PLP then st.plp top else (st.m, st.x)
    { st with m, x, stack }

/-- `_next_state` -/
def nextState' (i : Insn) (st : State) : Except DecodeError State :=
  match i.mnemonic with
  | .REP => .ok (st.rep i.operand)
  | .SEP => .ok (st.sep i.operand)
  | .XCE =>
    match st.ck with
    | none => .error (.carryUnknown i.addr)
    | some true => .error (.intoEmulation i.addr)
    | some false =>
      .ok { st with
        m := if st.e then some true else st.m
        x := if st.e then some true else st.x
        e := false }
  | mn =>
    match stackPush mn, stackPull mn with
    | some kind, _ => do
      let size ← stackSize kind st i.addr
      let item := if mn = .PHP then some (st.m, st.x) else none
      return { st with stack := st.stack ++ List.replicate size item }
    | none, some kind => do
      let size ← stackSize kind st i.addr
      return st.pull mn size
    | none, none => .ok st

def nextState (i : Insn) (st : State) : Except DecodeError State := do
  let nxt ← nextState' i st
  let ck := match i.mnemonic with
    | .CLC => some false
    | .SEC => some true
    | _ => none
  return { nxt with ck }

/-! Functions. -/

/-- How a function returns (none: unknown), and M and X then. -/
abbrev ExitState := Option Mnemonic × Option Bool × Option Bool

/-- `Function`; what is kept by instruction key has the latest entry first. -/
structure Func where
  entry : BitVec 24
  state : State
  insns : List Insn
  exitStates : Finset ExitState
  /-- JSR/JSL: target and entry state. -/
  calls : List (Key × BitVec 24 × State)
  tails : List (Key × BitVec 24 × State)
  /-- (abs,X): targets and entry state. -/
  tables : List (Key × List (BitVec 24) × State)
  /-- (m, x, e) after the instruction. -/
  post : List (Key × Mode)
  /-- Where a call comes back in none or in several. -/
  callExits : List (Key × List Mode)
  /-- Calls of code that isn't compiled. -/
  interpCalls : List (Key × BitVec 24 × State)
  /-- Jumps and calls through a table of unknown length. -/
  dynTables : List (Key × State)
  interpTails : List (Key × BitVec 24 × State)
  /-- A table's targets that aren't compiled. -/
  tableInterp : List (Key × List (BitVec 24))
deriving DecidableEq

def Func.start (entry : BitVec 24) (st : State) : Func :=
  ⟨entry, st, [], ∅, [], [], [], [], [], [], [], [], []⟩

/-- What one instruction adds to its function. -/
structure Added where
  exitStates : Finset ExitState
  call : Option (BitVec 24 × State)
  tail : Option (BitVec 24 × State)
  table : Option (List (BitVec 24) × State)
  /-- Where it is not the state after the instruction itself. -/
  post : Option Mode
  callExits : Option (List Mode)
  interpCall : Option (BitVec 24 × State)
  dynTable : Option State
  interpTail : Option (BitVec 24 × State)
  tableInterp : Option (List (BitVec 24))
deriving DecidableEq

def Added.none : Added :=
  ⟨∅, .none, .none, .none, .none, .none, .none, .none, .none, .none⟩

def keyed {α : Type} (k : Key) (new : Option α) (kept : List (Key × α)) : List (Key × α) :=
  match new with
  | some v => (k, v) :: kept
  | none => kept

def Func.add (fn : Func) (i : Insn) (nxt : State) (a : Added) : Func where
  entry := fn.entry
  state := fn.state
  insns := i :: fn.insns
  exitStates := fn.exitStates ∪ a.exitStates
  calls := keyed i.key a.call fn.calls
  tails := keyed i.key a.tail fn.tails
  tables := keyed i.key a.table fn.tables
  post := (i.key, a.post.getD nxt.key) :: fn.post
  callExits := keyed i.key a.callExits fn.callExits
  interpCalls := keyed i.key a.interpCall fn.interpCalls
  dynTables := keyed i.key a.dynTable fn.dynTables
  interpTails := keyed i.key a.interpTail fn.interpTails
  tableInterp := keyed i.key a.tableInterp fn.tableInterp

/-- What a decoder step may do besides: raise, and change what its resolver keeps. -/
abbrev DecM (S : Type) := RaiseM DecodeError S

/-- `resolve`, as `decode_function` uses it. -/
structure Resolver (S : Type) where
  missing : BitVec 24 → State → CallKind → Bool
  /-- (M, X) of a callee's returns. -/
  resolve : BitVec 24 → BitVec 24 → State → CallKind → DecM S (Finset (Option Bool × Option Bool))
  tail : BitVec 24 → BitVec 24 → State → DecM S (Option (Finset ExitState))
  tailRequired : BitVec 24 → BitVec 24 → State → DecM S (Finset ExitState)
  /-- Listed in funcs.toml. -/
  jumptables : BitVec 24 → Bool
  tableTargets : Insn → Except DecodeError (List (BitVec 24))

/-- `p < q` or `q < p` compares no unknown flag. -/
def ordered (p q : Option Bool × Option Bool) : Bool :=
  if p.1 = q.1 then p.2.isSome && q.2.isSome else p.1.isSome && q.1.isSome

/-- `sorted(exits)` -/
def sortedExits (site : BitVec 24) (exits : Finset (Option Bool × Option Bool)) :
    Except DecodeError (List (Option Bool × Option Bool)) :=
  let flags : List (Option Bool) := [none, some false, some true]
  let states := (flags.product flags).filter (· ∈ exits)
  if states.Pairwise fun p q => ordered p q then .ok states else .error (.unordered site)

def State.withMx (st : State) (mx : Option Bool × Option Bool) : State :=
  { st with m := mx.1, x := mx.2, ck := none }

/-- Paths still to follow, the next first. -/
abbrev Paths := List (BitVec 24 × State)

/-- `_continue`, with the paths it goes on with. -/
def Added.continueCall (a : Added) (i : Insn) (nxt : State)
    (exits : Finset (Option Bool × Option Bool)) : Except DecodeError (Added × Paths) := do
  let states := (← sortedExits i.addr exits).map nxt.withMx
  match states with
  | [] => return ({ a with callExits := some [] }, [])
  | s :: rest =>
    let a := if rest = [] then a else { a with callExits := some (states.map State.key) }
    return ({ a with post := some s.key },
      (i.nextAddr, s) :: rest.reverse.map fun s => (i.nextAddr, s))

/-- `State(nxt.m, nxt.x, nxt.e)` -/
def State.atEntry (st : State) : State := .of st.m st.x st.e

def Insn.jumpTo (i : Insn) : BitVec 24 := bank i.addr ++ i.lo16

section

variable {S : Type} (R : Resolver S)

/-- The exits of a call: none where it is run by the interpreter. -/
def Resolver.callExits (site target : BitVec 24) (cst : State) (kind : CallKind) :
    DecM S (Option (Finset (Option Bool × Option Bool))) :=
  if R.missing target cst kind then pure none
  else tryCatch (some <$> R.resolve site target cst kind) fun ex =>
    match ex with
    | .unknownExit _ _ => pure none
    | ex => throw ex

/-- JSR abs, JSL long. -/
def Insn.followCall (i : Insn) (nxt : State) (kind : CallKind) : DecM S (Added × Paths) := do
  let target := if kind = .JSR then i.jumpTo else i.operand
  let cst := nxt.atEntry
  match ← R.callExits i.addr target cst kind with
  | some exits => raised ({ Added.none with call := some (target, cst) }.continueCall i nxt exits)
  | none =>
    raised ({ Added.none with interpCall := some (target, cst) }.continueCall i nxt
      {(nxt.m, nxt.x)})

/-- The exits of a listed table's JSR targets, and those run by the interpreter. -/
def Resolver.tableCalls (site : BitVec 24) (cst : State) (own : Option Bool × Option Bool) :
    List (BitVec 24) → DecM S (Finset (Option Bool × Option Bool) × List (BitVec 24))
  | [] => pure (∅, [])
  | tg :: targets => do
    let found ← R.callExits site tg cst .JSR
    let (exits, interp) ← Resolver.tableCalls site cst own targets
    match found with
    | some e => return (e ∪ exits, interp)
    | none => return ({own} ∪ exits, tg :: interp)

def Resolver.jumpExits (site : BitVec 24) (cst : State) (tg : BitVec 24) :
    DecM S (Finset ExitState) :=
  if R.missing tg cst .JML then pure {(none, none, none)} else R.tailRequired site tg cst

/-- The exits of a listed table's JMP targets. -/
def Resolver.tableJumps (site : BitVec 24) (cst : State) :
    List (BitVec 24) → DecM S (Finset ExitState)
  | [] => pure ∅
  | tg :: targets => do
    let exits ← R.jumpExits site cst tg
    let rest ← Resolver.tableJumps site cst targets
    return exits ∪ rest

/-- A set of targets, kept where there are any. -/
def someInterp (interp : List (BitVec 24)) : Option (List (BitVec 24)) :=
  if interp = [] then none else some interp

/-- JSR and JMP (abs,X). -/
def Insn.followTable (i : Insn) (nxt : State) : DecM S (Added × Paths) :=
  let cst := nxt.atEntry
  if cst.x = none then throw (.indexWidth i.addr)
  else if R.jumptables i.addr = false then
    let a := { Added.none with dynTable := some cst }
    if i.mnemonic = .JMP then return ({ a with exitStates := {(none, none, none)} }, [])
    else raised (a.continueCall i nxt {(nxt.m, nxt.x)})
  else do
    let targets ← raised (R.tableTargets i)
    let a := { Added.none with table := some (targets, cst) }
    let once := targets.eraseDups
    if i.mnemonic = .JMP then
      let exits ← R.tableJumps i.addr cst once
      let interp := once.filter fun tg => R.missing tg cst .JML
      return ({ a with exitStates := exits, tableInterp := someInterp interp }, [])
    else
      let (exits, interp) ← R.tableCalls i.addr cst (nxt.m, nxt.x) once
      raised ({ a with tableInterp := someInterp interp }.continueCall i nxt exits)

/-- JML long. -/
def Insn.followFar (i : Insn) (nxt : State) : DecM S (Added × Paths) :=
  let cst := nxt.atEntry
  if R.missing i.operand cst .JML then
    return ({ Added.none with
      interpTail := some (i.operand, cst)
      exitStates := {(none, none, none)} }, [])
  else do
    let exits ← R.tailRequired i.addr i.operand cst
    return ({ Added.none with tail := some (i.operand, cst), exitStates := exits }, [])

/-- A jump to its own entry in its entry state is a loop, not a tail call. -/
def Insn.tailExits (entry : BitVec 24) (st : State) (i : Insn) (cst : State) :
    DecM S (Option (Finset ExitState)) :=
  if i.jumpTo = entry ∧ cst.key = st.key then pure none else R.tail i.addr i.jumpTo cst

/-- JMP abs, in the function with this entry and entry state. -/
def Insn.followJump (entry : BitVec 24) (st : State) (i : Insn) (nxt : State) :
    DecM S (Added × Paths) := do
  let cst := nxt.atEntry
  match ← i.tailExits R entry st cst with
  | some exits =>
    return ({ Added.none with tail := some (i.jumpTo, cst), exitStates := exits }, [])
  | none => return (Added.none, [(i.jumpTo, nxt)])

/-- What an instruction adds to its function, and where its path goes on. -/
def Insn.follow (entry : BitVec 24) (st : State) (i : Insn) (nxt : State) :
    DecM S (Added × Paths) :=
  match i.mnemonic, i.mode with
  | .RTS, _ | .RTL, _ | .RTI, _ =>
    return ({ Added.none with exitStates := {(some i.mnemonic, nxt.m, nxt.x)} }, [])
  | .BPL, _ | .BMI, _ | .BVC, _ | .BVS, _ | .BCC, _ | .BCS, _ | .BNE, _ | .BEQ, _ =>
    return (Added.none, [(i.nextAddr, nxt), (i.branchTarget, nxt)])
  | .BRA, _ | .BRL, _ => return (Added.none, [(i.branchTarget, nxt)])
  | .JML, .long => i.followFar R nxt
  | .JMP, .abs => i.followJump R entry st nxt
  | .JSR, .abs => i.followCall R nxt .JSR
  | .JSL, .long => i.followCall R nxt .JSL
  | .JSR, .absXInd | .JMP, .absXInd => i.followTable R nxt
  | .WDM, _ => throw (.notCode i.addr)
  | .BRK, _ | .COP, _ | .STP, _ | .WAI, _ => return (Added.none, [])
  | .JSR, _ | .JSL, _ | .JMP, _ | .JML, _ => throw (.unsupported i.addr)
  | _, _ => return (Added.none, [(i.nextAddr, nxt)])

structure Decoding where
  fn : Func
  seen : List Key
  work : Paths

/-- One instruction of the worklist's. -/
def Decoding.step (mem : Image) (d : Decoding) : DecM S Decoding :=
  match d.work with
  | [] => pure d
  | (addr, cur) :: work =>
    if (addr, cur.key) ∈ d.seen then pure { d with work }
    else do
      let i ← raised (decodeInsn mem addr cur)
      let nxt ← raised (nextState i cur)
      let (a, next) ← i.follow R d.fn.entry d.fn.state nxt
      return ⟨d.fn.add i nxt a, i.key :: d.seen, next ++ work⟩

def Decoding.run (mem : Image) : Nat → Decoding → DecM S Decoding
  | 0, _ => throw .outOfFuel
  | n + 1, d =>
    if d.work = [] then pure d
    else do
      let d ← d.step R mem
      Decoding.run mem n d

/-- The order the instructions are emitted in: by address, then `str(m)` and `str(x)`. -/
def Insn.before (i j : Insn) : Bool :=
  let rank (flag : Option Bool) : Nat := match flag with
    | some false => 0
    | none => 1
    | some true => 2
  let place (i : Insn) : Nat :=
    ((i.addr.toNat * 3 + rank i.m) * 3 + rank i.x) * 2 + i.e.toNat
  place i ≤ place j

def decodeFunction (n : Nat) (mem : Image) (entry : BitVec 24) (st : State) : DecM S Func := do
  let d ← Decoding.run R mem n ⟨Func.start entry st, [], [(entry, st)]⟩
  return { d.fn with insns := d.fn.insns.reverse.insertionSort fun i j => i.before j }

end

end CtRecomp
