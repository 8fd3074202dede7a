import Mathlib.Data.Finset.Image
import CtRecomp.Decoder

namespace CtRecomp

/-! funcs.toml's entries, and what calls of them return with (funcs.py). -/

/-- A call boundary: a runtime hook stands in for the code there. -/
structure ExternMeta where
  /-- How it is entered. -/
  kind : CallKind
  hook : String
  noreturn : Bool
  /-- A JML boundary must be noreturn. -/
  jml : kind = .JML → noreturn = true

structure FuncMeta where
  name : String
  addr : BitVec 24
  /-- Its entry states' M and X. -/
  states : List (Bool × Bool)
  moduleName : String
  manual : Bool

def FuncMeta.has (fm : FuncMeta) (st : State) : Bool :=
  fm.states.any fun (m, x) => st.m = some m && st.x = some x

def FuncMeta.entryStates (fm : FuncMeta) : List State :=
  fm.states.map fun (m, x) => .of (some m) (some x) false

structure Registry where
  rom : Image
  metas : List FuncMeta
  /-- site -> entry count -/
  jumptables : BitVec 24 → Option Nat
  externs : BitVec 24 → Option ExternMeta

/-- The later of two entries with one address counts. -/
def Registry.byAddr (reg : Registry) (target : BitVec 24) : Option FuncMeta :=
  reg.metas.reverse.find? fun fm => fm.addr = target

def Registry.registered (reg : Registry) (target : BitVec 24) (st : State) : Bool :=
  match reg.byAddr target with
  | some fm => fm.has st
  | none => false

structure RegState where
  cache : Key → Option Func
  active : List Key
  /-- Recursive key -> assumed exits. -/
  assume : Key → Option (Finset ExitState)

def RegState.init : RegState := ⟨fun _ => none, [], fun _ => none⟩

abbrev RegM := DecM RegState

def RegState.setAssume (s : RegState) (key : Key) (exits : Option (Finset ExitState)) : RegState :=
  { s with assume := Function.update s.assume key exits }

def RegState.setCache (s : RegState) (key : Key) (fn : Func) : RegState :=
  { s with cache := Function.update s.cache key (some fn) }

/-- `del` of what the cache holds beyond `before`. -/
def RegState.forget (s : RegState) (before : Key → Option Func) : RegState :=
  { s with cache := fun k => if (before k).isSome then s.cache k else none }

namespace Registry

variable (reg : Registry)

/-- Not compiled for `st`: not registered so, and no extern. -/
def missing (target : BitVec 24) (st : State) : Bool :=
  (reg.externs target).isNone && !reg.registered target st

/-- Targets of an (abs,X) table, one for each even index. -/
def tableTargets (i : Insn) : Except DecodeError (List (BitVec 24)) :=
  match reg.jumptables i.addr with
  | none => .error (.noTable i.addr)
  | some count => (List.range count).mapM fun k => do
    let at_ (n : Nat) := bank i.addr ++ (i.lo16 + BitVec.ofNat 16 n)
    match reg.rom (at_ (2 * k)), reg.rom (at_ (2 * k + 1)) with
    | some lo, some hi => .ok (bank i.addr ++ (hi ++ lo))
    | _, _ => .error (.tableNotRom i.addr)

/-- Exit states of a registered entry: what is assumed of it, or found. -/
def exitStates (function : BitVec 24 → State → RegM Func) (target : BitVec 24) (st : State) :
    RegM (Finset ExitState) := do
  match (← get).assume (target, st.key) with
  | some exits => return exits
  | none =>
    let fn ← function target st
    return fn.exitStates

/-- Exit states of a jump's target, if it is a registered entry for `st`. -/
def tail (function : BitVec 24 → State → RegM Func) (site target : BitVec 24) (st : State) :
    RegM (Option (Finset ExitState)) :=
  match reg.externs target with
  | some ext =>
    if ext.kind ≠ .JML ∨ ext.noreturn = false then throw (.externKind site target)
    else pure (some ∅)
  | none =>
    if reg.registered target st then some <$> exitStates function target st
    else pure none

def tailRequired (function : BitVec 24 → State → RegM Func) (site target : BitVec 24)
    (st : State) : RegM (Finset ExitState) := do
  match ← reg.tail function site target st with
  | some exits => return exits
  | none => throw (.missingTarget site target st)

/-- What a call may come back in; the callee must return by RTS or RTL alone. -/
def callResult (site target : BitVec 24) (kind : CallKind) (exits : Finset ExitState) :
    Except DecodeError (Finset (Option Bool × Option Bool)) :=
  let ret : Mnemonic := if kind = .JSR then .RTS else .RTL
  if ∃ s ∈ exits, s.2.1 = none ∨ s.2.2 = none then .error (.unknownExit site target)
  else if ∃ s ∈ exits, s.1 ≠ some ret then .error (.exits site target)
  else .ok (exits.image fun s => s.2)

def resolve (function : BitVec 24 → State → RegM Func) (site target : BitVec 24) (st : State)
    (kind : CallKind) : RegM (Finset (Option Bool × Option Bool)) :=
  match reg.externs target with
  | some ext =>
    if ext.kind ≠ kind then throw (.externKind site target)
    else pure (if ext.noreturn then ∅ else {(st.m, st.x)})
  | none =>
    if reg.registered target st then do
      let exits ← exitStates function target st
      raised (callResult site target kind exits)
    else throw (.missingTarget site target st)

def resolver (function : BitVec 24 → State → RegM Func) : Resolver RegState where
  missing target st _ := reg.missing target st
  resolve := reg.resolve function
  tail := reg.tail function
  tailRequired := reg.tailRequired function
  jumptables a := (reg.jumptables a).isSome
  tableTargets := reg.tableTargets

/-- The rounds of `_fixpoint`. -/
def rounds (decode : RegM Func) (key : Key) : Nat → RegM Func
  | 0 => throw (.notConverging key)
  | n + 1 => do
    let s ← get
    let fn ← decode
    if (← get).assume key = some fn.exitStates then return fn
    else do
      modify fun s' => (s'.setAssume key (some fn.exitStates)).forget s.cache
      rounds decode key n

/-- Least fixpoint of a recursive routine's exit states, from none. -/
def fixpoint (decode : RegM Func) (key : Key) : RegM Func := do
  modify fun s => s.setAssume key (some ∅)
  (rounds decode key 16).finally fun s => s.setAssume key none

/-- Decode an entry, or take it from the cache. -/
def function : Nat → BitVec 24 → State → RegM Func
  | 0, _, _ => throw .outOfFuel
  | n + 1, addr, st => do
    let key : Key := (addr, st.key)
    let s ← get
    match s.cache key with
    | some fn => return fn
    | none =>
      if key ∈ s.active then throw (.needAssumption key)
      else do
        modify fun s => { s with active := key :: s.active }
        let decode := decodeFunction (reg.resolver (function n)) n reg.rom addr st
        let fn ← RaiseM.finally
          (tryCatch decode fun ex =>
            if ex = .needAssumption key then fixpoint decode key else throw ex)
          fun s => { s with active := s.active.erase key }
        modify fun s => s.setCache key fn
        return fn

end Registry

end CtRecomp
