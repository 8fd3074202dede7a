import CtRecomp.Registry
import CtRecomp.AssumedCalls
import CtRecomp.Templates

namespace CtRecomp

/-! The C code emitted for a function (emit.py). -/

/-- A C function: `f_ADDR_mMxX`, with an overlay's name for code of its own, or an extern's
`ct_hook_*`. -/
inductive CName
  | fn (overlay : Option String) (addr : BitVec 24) (m x : Option Bool)
  | hook (name : String)
deriving DecidableEq

/-- `cpu_check_return`, `cpu_check_return_long` -/
inductive ReturnCheck
  | short (site : BitVec 24) (expect : BitVec 16)
  | long (site : BitVec 24) (expect : BitVec 24)
deriving DecidableEq

/-- `cpu->m != … || cpu->x != …`, as far as they are known. -/
abbrev MxCheck := Option Bool × Option Bool

/-- A case of a jump table. -/
inductive TableCase
  /-- `if (!ct_call_interp(…) || …) { ct_tail_rest(cpu, s0); return; } break;` -/
  | interpCall (target back : BitVec 24) (mx : MxCheck)
  /-- `cpu->PC = …; ct_tail_rest(cpu, s0); return;` -/
  | interpJump (target : BitVec 24)
  /-- The same under `if (ct_exec_hook)`, else `ct_run`, `ct_tail`. -/
  | hookedCall (target back : BitVec 24) (mx : MxCheck) (f : CName)
  | hookedJump (target : BitVec 24) (f : CName)
  | run (f : CName)
  | tail (f : CName)
deriving DecidableEq

/-- Labels are by address and (m, x, e). -/
inductive Stmt
  /-- The statements of the instruction's template. -/
  | op (i : Insn)
  /-- `if (cond) { … goto dest; }` -/
  | branch (i : Insn) (dest : Key)
  /-- JMP inside the function. -/
  | jump (i : Insn) (dest : Key)
  /-- `op_rts(cpu); return;`, `op_rtl`, `op_rti` -/
  | ret (i : Insn)
  | push8 (v : BitVec 8)
  | push16 (v : BitVec 16)
  | setPB (v : BitVec 8)
  | setPC (v : BitVec 16)
  /-- `if (!ct_exec_hook) { cpu->PB = …; cpu->PC = …; ct_tail_rest(cpu, s0); return; }` -/
  | strictRest (at_ : BitVec 24)
  /-- `t`: the target read from a table of unknown length. -/
  | readTarget (i : Insn)
  /-- `if (!ct_call_interp(cpu, t, back, 2) || …) { ct_tail_rest(cpu, s0); return; }` -/
  | callRead (back : BitVec 24) (mx : MxCheck)
  /-- `cpu->PC = (uint16_t)t; ct_tail_rest(cpu, s0); return;` -/
  | jumpRead
  | callInterp (target back : BitVec 24) (n : Nat) (mx : MxCheck)
  /-- `ct_run(cpu, f);` -/
  | run (f : CName)
  /-- `ct_tail(cpu, f); return;` -/
  | tail (f : CName)
  /-- `ct_tail_rest(cpu, s0); return;` -/
  | rest
  | check (c : ReturnCheck)
  /-- `extern_call` -/
  | externCall (target back : BitVec 24) (n : Nat) (mx : MxCheck) (f : CName) (c : ReturnCheck)
  /-- `extern_tail` -/
  | externTail (target : BitVec 24) (f : CName)
  | switch (site : BitVec 24) (cases : List (BitVec 16 × TableCase))
  | checkMx (site : BitVec 24) (m x : Bool)
  /-- `if (ct_exec_hook) { ct_tail_rest(cpu, s0); return; }` -/
  | restIfHook
  /-- `if (cpu->m == … && cpu->x == …) goto dest;` -/
  | gotoMode (m x : Bool) (dest : Key)
  | goto (dest : Key)
  | fatal (site : BitVec 24)
deriving DecidableEq

/-- An instruction's label, `ct_insn` and statements. -/
structure Block where
  i : Insn
  body : List Stmt
deriving DecidableEq

/-- An emitted C function. -/
structure EmittedFn where
  name : CName
  fn : Func
  /-- `const uint16_t s0 = cpu->S;` -/
  keepsS : Bool
  blocks : List Block

/-! What a function's code can run, by `ct_run` or `ct_tail`, with `ct_exec_hook` set or not. -/

def TableCase.edges (hook : Bool) : TableCase → List CName
  | .interpCall _ _ _ | .interpJump _ => []
  | .hookedCall _ _ _ f | .hookedJump _ f => if hook then [] else [f]
  | .run f | .tail f => [f]

def Stmt.edges (hook : Bool) : Stmt → List CName
  | .run f | .tail f => [f]
  | .externCall _ _ _ _ f _ | .externTail _ f => if hook then [] else [f]
  | .switch _ cases => cases.flatMap fun c => c.2.edges hook
  | _ => []

def EmittedFn.edges (hook : Bool) (E : EmittedFn) : List CName :=
  E.blocks.flatMap fun b => b.body.flatMap (Stmt.edges hook)

/-! Emission. -/

inductive EmitError
  | decode (e : DecodeError)
  | notDecoded (site : BitVec 24)
  | widthUnknown (site : BitVec 24)
  | notImplemented (site : BitVec 24)
  | unknownPlp (site : BitVec 24)
  /-- `int(None)`: no `EmitError`, nothing catches it. -/
  | unknownFlag (site : BitVec 24)
  | noModule (name : String)
  | outsideImage (addr : BitVec 24)
  | takesHook (addr : BitVec 24)
deriving DecidableEq

/-- `except (DecodeError, EmitError)` catches it. -/
def EmitError.caught : EmitError → Bool
  | .decode e => e.caught
  | .unknownFlag _ => false
  | _ => true

/-- The registry's state and `_HOOK_MEMO`. -/
structure EmitState where
  reg : RegState
  memo : Key → Option Bool

abbrev EmitM := RaiseM EmitError EmitState

def EmitState.setMemo (s : EmitState) (key : Key) (b : Bool) : EmitState :=
  { s with memo := Function.update s.memo key (some b) }

def fromRegistry {α : Type} (m : RegM α) : EmitM α := fun s =>
  match m s.reg with
  | (.ok a, reg) => (.ok a, { s with reg })
  | (.error e, reg) => (.error (.decode e), { s with reg })

def noreturn (reg : Registry) (target : BitVec 24) : Bool :=
  match reg.externs target with
  | some ext => ext.noreturn
  | none => false

/-- Does it take a hook itself, even in the scheduler: a call of or jump to a noreturn extern,
or an extern in a table's cases? -/
def takesHook (reg : Registry) (fn : Func) : Bool :=
  (fn.calls.any fun c => noreturn reg c.2.1) || (fn.tails.any fun c => noreturn reg c.2.1) ||
    fn.tables.any fun c => c.2.1.any fun t => (reg.externs t).isSome

/-- Where it can go on by `ct_run` or `ct_tail`, in the order noted. -/
def Func.callees (fn : Func) : List (BitVec 24 × State) :=
  fn.calls.reverse.map (·.2) ++ fn.tails.reverse.map (·.2) ++
    fn.tables.reverse.flatMap fun c => c.2.1.map fun t => (t, c.2.2)

/-- `any(…)`, which stops at the first. -/
def anyOf {E S α : Type} (f : α → RaiseM E S Bool) : List α → RaiseM E S Bool
  | [] => pure false
  | a :: as => do
    if ← f a then return true
    else anyOf f as

section

variable (reg : Registry)

/-- Can this function reach an extern hook it would take even in the scheduler? -/
def callsExtern (fuel : Nat) : Nat → BitVec 24 → State → EmitM Bool
  | 0, _, _ => throw (.decode .outOfFuel)
  | n + 1, addr, st => do
    let key : Key := (addr, st.key)
    match (← get).memo key with
    | some b => return b
    | none =>
      modify fun s => s.setMemo key false   -- a cycle adds nothing
      let fn ← fromRegistry (reg.function fuel addr st)
      let further := fn.callees.filter fun c => (reg.externs c.1).isNone
      let reached ← anyOf (fun c => callsExtern fuel n c.1 c.2)
        (if takesHook reg fn then [] else further)
      let result := takesHook reg fn || reached
      modify fun s => s.setMemo key result
      return result

/-- `_via_dispatch` -/
def viaDispatch (fuel : Nat) (target : BitVec 24) (cst : State) : EmitM Bool :=
  if (reg.externs target).isSome then pure false else callsExtern reg fuel fuel target cst

/-- An extern that returns: its real code runs in the scheduler. -/
def routed (target : BitVec 24) : Bool :=
  match reg.externs target with
  | some ext => !ext.noreturn
  | none => false

/-- `_routed(target) or _via_dispatch(target, cst)` -/
def dispatched (fuel : Nat) (target : BitVec 24) (cst : State) : EmitM Bool :=
  if routed reg target then pure true else viaDispatch reg fuel target cst

/-- An overlay's name marks its WRAM functions. -/
def cName (overlay : Option String) (addr : BitVec 24) (st : State) : CName :=
  .fn (if bank addr = 0x7E ∨ bank addr = 0x7F then overlay.filter fun name => name ≠ "" else none)
    addr st.m st.x

def callee (overlay : Option String) (target : BitVec 24) (st : State) : CName :=
  match reg.externs target with
  | some ext => .hook ext.hook
  | none => cName overlay target st

/-- The label of an instruction decoded. -/
def label (fn : Func) (site : BitVec 24) (key : Key) : EmitM Key :=
  if key ∈ fn.insns.map (·.key) then pure key else throw (.notDecoded site)

/-- A call pushes the address of its own last byte. -/
def Insn.lastAddr (i : Insn) : BitVec 16 := low i.addr + BitVec.ofNat 16 (i.size - 1)

/-- Where a call comes back to. -/
def Insn.back (i : Insn) : BitVec 24 := bank i.addr ++ (i.lastAddr + 1)

def Insn.shortCheck (i : Insn) : ReturnCheck := .short i.addr (i.lastAddr + 1)

def Insn.longCheck (i : Insn) : ReturnCheck := .long i.addr i.back

def State.mx (st : State) : MxCheck := (st.m, st.x)

/-- A call or jump through a table of unknown length. -/
def dynTableBody (i : Insn) (cst : State) : List Stmt :=
  if i.opcode = 0x7C then [.strictRest i.addr, .readTarget i, .jumpRead]
  else [.strictRest i.addr, .push16 i.lastAddr, .readTarget i, .callRead i.back cst.mx]

def interpCallBody (i : Insn) (target : BitVec 24) (cst : State) : List Stmt :=
  if i.opcode = 0x22 then
    [.strictRest i.addr, .push8 (bank i.addr), .push16 i.lastAddr,
      .callInterp target i.back 3 cst.mx]
  else [.strictRest i.addr, .push16 i.lastAddr, .callInterp target i.back 2 cst.mx]

variable (fuel : Nat) (overlay : Option String) (fn : Func)

def jsrBody (i : Insn) (target : BitVec 24) (cst : State) : EmitM (List Stmt) := do
  let f := callee reg overlay target cst
  if ← dispatched reg fuel target cst then
    return [.push16 i.lastAddr, .externCall target i.back 2 cst.mx f i.shortCheck]
  else return [.push16 i.lastAddr, .run f, .check i.shortCheck]

def jslBody (i : Insn) (target : BitVec 24) (cst : State) : EmitM (List Stmt) := do
  let f := callee reg overlay target cst
  let pushes : List Stmt := [.push8 (bank i.addr), .push16 i.lastAddr, .setPB (bank target)]
  if ← dispatched reg fuel target cst then
    return pushes ++ [.externCall target i.back 3 cst.mx f i.longCheck]
  else return pushes ++ [.run f, .check i.longCheck]

def tailBody (target : BitVec 24) (cst : State) : EmitM (List Stmt) := do
  let f := callee reg overlay target cst
  if ← dispatched reg fuel target cst then return [.externTail target f] else return [.tail f]

/-- The case of one entry of a listed table. -/
def caseBody (i : Insn) (cst : State) (interp : List (BitVec 24)) (target : BitVec 24) :
    EmitM TableCase := do
  let isCall := i.opcode = 0xFC
  let f := callee reg overlay target cst
  if target ∈ interp then
    return if isCall then .interpCall target i.back cst.mx else .interpJump target
  else if ← viaDispatch reg fuel target cst then
    return if isCall then .hookedCall target i.back cst.mx f else .hookedJump target f
  else return if isCall then .run f else .tail f

def casesBody (i : Insn) (cst : State) (interp : List (BitVec 24)) :
    Nat → List (BitVec 24) → EmitM (List (BitVec 16 × TableCase))
  | _, [] => pure []
  | n, t :: ts => do
    let c ← caseBody reg fuel overlay i cst interp t
    let cs ← casesBody i cst interp (n + 1) ts
    return (BitVec.ofNat 16 (2 * n), c) :: cs

def tableBody (i : Insn) (targets : List (BitVec 24)) (cst : State) : EmitM (List Stmt) := do
  let interp := (fn.tableInterp.lookup i.key).getD []
  let cases ← casesBody reg fuel overlay i cst interp 0 targets
  let strict : List Stmt := if interp = [] then [] else [.strictRest i.addr]
  if i.opcode = 0xFC then
    return strict ++ [.push16 i.lastAddr, .switch i.addr cases, .check i.shortCheck]
  else return strict ++ [.switch i.addr cases]

@[reducible] def noBoard : Board Unit where
  rom _ := 0
  hwRd _ := none
  hwWr _ := none
  fastrom _ := false

/-- What `TEMPLATES` has for the instruction. -/
def templateBody (i : Insn) (w : Width) : EmitM (List Stmt) :=
  match @templates Unit noBoard i.opcode w with
  | none => throw (.notImplemented i.addr)
  | some (.ret _) => pure [.ret i]
  | some _ => pure [.op i]

/-- The statements of one instruction, before those for where it goes on. -/
def insnBody (i : Insn) (post : Mode) : EmitM (List Stmt) :=
  match i.width with
  | none => throw (.widthUnknown i.addr)
  | some w =>
    if i.opcode = 0x40 then pure [.ret i]
    else if i.opcode = 0xFC ∨ i.opcode = 0x7C then
      match fn.dynTables.lookup i.key, fn.tables.lookup i.key with
      | some cst, _ => pure (dynTableBody i cst)
      | none, some (targets, cst) => tableBody reg fuel overlay fn i targets cst
      | none, none => throw (.notImplemented i.addr)
    else if i.opcode = 0x20 ∨ i.opcode = 0x22 then
      match fn.interpCalls.lookup i.key, fn.calls.lookup i.key with
      | some (target, cst), _ => pure (interpCallBody i target cst)
      | none, some (target, cst) =>
        if i.opcode = 0x20 then jsrBody reg fuel overlay i target cst
        else jslBody reg fuel overlay i target cst
      | none, none => throw (.notImplemented i.addr)
    else if i.opcode = 0x5C then
      match fn.interpTails.lookup i.key, fn.tails.lookup i.key with
      | some (target, _), _ => pure [.setPB (bank target), .setPC (low target), .rest]
      | none, some (target, cst) => do
        let body ← tailBody reg fuel overlay target cst
        return .setPB (bank target) :: body
      | none, none => throw (.notImplemented i.addr)
    else if i.opcode = 0x4C then
      match fn.tails.lookup i.key with
      | some (target, cst) => tailBody reg fuel overlay target cst
      | none => do
        let dest ← label fn i.addr (i.jumpTo, post)
        return [.jump i dest]
    else if i.mnemonic.isBranch ∨ i.mnemonic = .BRA ∨ i.mnemonic = .BRL then do
      let dest ← label fn i.addr (i.branchTarget, post)
      return [.branch i dest]
    else templateBody i w

/-- `'ct_call_interp' in body` -/
def Stmt.callsInterp : Stmt → Bool
  | .callRead _ _ | .callInterp _ _ _ _ | .externCall _ _ _ _ _ _ => true
  | .switch _ cases => cases.any fun c => match c.2 with
    | .interpCall _ _ _ | .hookedCall _ _ _ _ => true
    | _ => false
  | _ => false

/-- `int(…)` of a flag. -/
def intFlag (site : BitVec 24) : Option Bool → EmitM Bool
  | some b => pure b
  | none => throw (.unknownFlag site)

def gotoModes (i : Insn) : List Mode → EmitM (List Stmt)
  | [] => pure []
  | k :: ks => do
    let m ← intFlag i.addr k.1
    let x ← intFlag i.addr k.2.1
    let dest ← label fn i.addr (i.nextAddr, k)
    let rest ← gotoModes i ks
    return .gotoMode m x dest :: rest

/-- `NO_FALLTHROUGH` -/
def Mnemonic.fallsThrough (mn : Mnemonic) : Bool :=
  !(mn.isReturn || mn.isStop || mn = .BRA || mn = .BRL || mn = .JMP || mn = .JML)

/-- Where the instruction goes on, past what its statements did. -/
def onward (i : Insn) (post : Mode) (body : List Stmt) (nxt : Option Insn) :
    EmitM (List Stmt) :=
  match fn.callExits.lookup i.key with
  | some [] =>
    pure ((if body.any Stmt.callsInterp then [.restIfHook] else []) ++ [.fatal i.addr])
  | some exits => do
    let gotos ← gotoModes fn i exits
    return gotos ++ [.fatal i.addr]
  | none =>
    if i.mnemonic.fallsThrough ∧ nxt.map (·.key) ≠ some (i.nextAddr, post) then do
      let dest ← label fn i.addr (i.nextAddr, post)
      return [.goto dest]
    else pure []

def plpCheck (i : Insn) (post : Mode) : EmitM (List Stmt) :=
  if i.mnemonic = .PLP then
    match post.1, post.2.1 with
    | some m, some x => pure [.checkMx i.addr m x]
    | _, _ => throw (.unknownPlp i.addr)
  else pure []

def emitInsn (i : Insn) (nxt : Option Insn) : EmitM Block := do
  let post := fn.postOf i.key
  let body ← insnBody reg fuel overlay fn i post
  let plp ← plpCheck i post
  let next ← onward fn i post (body ++ plp) nxt
  return ⟨i, body ++ plp ++ next⟩

def emitInsns : List Insn → EmitM (List Block)
  | [] => pure []
  | i :: is => do
    let b ← emitInsn reg fuel overlay fn i is.head?
    let bs ← emitInsns is
    return b :: bs

/-- Every edge's `_routed` or `_via_dispatch`: does any go through the dispatcher? -/
def externEdges : EmitM Bool := do
  let calls := fn.calls.reverse.map (·.2) ++ fn.tails.reverse.map (·.2)
  let direct ← calls.mapM fun c => dispatched reg fuel c.1 c.2
  let tables := fn.tables.reverse.flatMap fun c => c.2.1.map fun t => (t, c.2.2)
  let cases ← tables.mapM fun c => viaDispatch reg fuel c.1 c.2
  return direct.any id || cases.any id

def emitFunction : EmitM EmittedFn := do
  let edges ← externEdges reg fuel fn
  let _ ← label fn fn.entry (fn.entry, fn.state.key)
  let blocks ← emitInsns reg fuel overlay fn fn.insns
  let keepsS := edges || !fn.interpCalls.isEmpty || !fn.dynTables.isEmpty ||
    !fn.interpTails.isEmpty || !fn.tableInterp.isEmpty
  return ⟨cName overlay fn.entry fn.state, fn, keepsS, blocks⟩

end

end CtRecomp
