import CtRecomp.AssumedCalls
import CtRecomp.RegistryEnds

namespace CtRecomp

/-! New entries from what the compiled code calls (discover.py). -/

/-- M and X, `?` where unknown. -/
abbrev State.tag (st : State) : Flags := (st.m, st.x)

/-- An entry with its states as written, `m?x?`. -/
structure GraphEntry where
  name : String
  addr : BitVec 24
  states : List Flags
  moduleName : String
deriving DecidableEq

/-- `parse_state` takes no `?`. -/
def GraphEntry.toMeta (fm : GraphEntry) : Option FuncMeta := do
  let states ← fm.states.mapM fun tag => do
    let m ← tag.1
    let x ← tag.2
    return (m, x)
  return ⟨fm.name, fm.addr, states, fm.moduleName, false⟩

/-- What `close_graph` changes. `cands` is keyed by address. -/
structure Graph where
  metas : List GraphEntry
  cands : List GraphEntry
  addStates : List (String × Flags)
  usedNames : List String

/-- The registry's entries. -/
def Graph.entries (g : Graph) : Option (List FuncMeta) :=
  (g.metas ++ g.cands).mapM GraphEntry.toMeta

/-- `d[k] = v` -/
def assign {κ α : Type} [DecidableEq κ] (k : κ) (v : α) (d : List (κ × α)) : List (κ × α) :=
  (k, v) :: d.filter fun e => e.1 ≠ k

/-! What a pass finds. -/

/-- A target called or jumped to in a state it is not compiled for, and the name of the entry there. -/
structure MissingKey where
  target : BitVec 24
  tag : Flags
  known : Option String
deriving DecidableEq

structure Scanned where
  missing : List (MissingKey × Nat)
  failures : List ((String × Flags) × DecodeError)

def Registry.nameOf (reg : Registry) (target : BitVec 24) : Option String :=
  (reg.byAddr target).map FuncMeta.name

def Scanned.miss (reg : Registry) (target : BitVec 24) (cst : State) (sc : Scanned) : Scanned :=
  let k : MissingKey := ⟨target, cst.tag, reg.nameOf target⟩
  { sc with missing := assign k ((sc.missing.lookup k).getD 0 + 1) sc.missing }

/-- The function's interpreter calls, but for those whose M and X are a guess. -/
def Scanned.calls (reg : Registry) (fn : Func) (sc : Scanned) : Scanned :=
  fn.interpCalls.foldl (fun sc c =>
    if c.1 ∈ fn.assumedCalls then sc else sc.miss reg c.2.1 c.2.2) sc

def scanEntry (reg : Registry) (fuel : Nat) (fm : FuncMeta) (w : Bool × Bool) (sc : Scanned) :
    RegM Scanned :=
  let st : State := .of (some w.1) (some w.2) false
  tryCatch (do
    let fn ← reg.function fuel fm.addr st
    return sc.calls reg fn) fun ex =>
      match ex with
      | .missingTarget _ target cst => return sc.miss reg target cst
      | ex =>
        if ex.caught then return { sc with failures := assign (fm.name, st.tag) ex sc.failures }
        else throw ex

def scanEntries (reg : Registry) (fuel : Nat) :
    List (FuncMeta × (Bool × Bool)) → Scanned → RegM Scanned
  | [], sc => return sc
  | e :: es, sc => do
    let sc ← scanEntry reg fuel e.1 e.2 sc
    scanEntries reg fuel es sc

def withStates (entries : List FuncMeta) : List (FuncMeta × (Bool × Bool)) :=
  entries.flatMap fun fm => fm.states.map fun w => (fm, w)

/-! What a pass adds. -/

/-- In the order of `'0' < '1' < '?'`. -/
def flagRank : Option Bool → Nat
  | some false => 0
  | some true => 1
  | none => 2

def MissingKey.before (k k' : MissingKey) : Bool :=
  let r (k : MissingKey) := (k.target.toNat * 3 + flagRank k.tag.1) * 3 + flagRank k.tag.2
  r k ≤ r k'

structure Placing extends Graph where
  interpKnown : List ((String × Flags) × Nat)
  new : Nat

/-- `by_name[known].states` -/
def Graph.statesOf (g : Graph) (name : String) : List Flags :=
  ((g.metas.reverse.find? fun m => m.name = name).map GraphEntry.states).getD []

/-- An entry with one more state, where `is` picks it. -/
def addState (is : GraphEntry → Prop) [DecidablePred is] (tag : Flags) (fms : List GraphEntry) :
    List GraphEntry :=
  fms.map fun fm => if is fm then { fm with states := fm.states ++ [tag] } else fm

def newEntry (names : BitVec 24 → Option String) (used : List String) (target : BitVec 24)
    (tag : Flags) : GraphEntry :=
  let hex := target.toHex.toUpper
  let name := (names target).getD ("Sub_" ++ hex)
  ⟨if name ∈ used then name ++ "_" ++ hex else name, target, [tag], "bank" ++ (bank target).toHex⟩

/-- One missing pair. An empty name is as no name (`if known and …`). -/
def Placing.place (names : BitVec 24 → Option String) (limit : Nat) (p : Placing)
    (k : MissingKey × Nat) : Placing :=
  match k.1.known.filter (· ≠ ""), p.cands.find? fun c => c.addr = k.1.target with
  | some known, none =>
    if k.1.tag ∈ p.statesOf known then
      { p with interpKnown := assign (known, k.1.tag) k.2 p.interpKnown }
    else
      { p with
        addStates := (known, k.1.tag) :: p.addStates
        metas := addState (fun m => m.name = known) k.1.tag p.metas
        new := p.new + 1 }
  | _, some fm =>
    if k.1.tag ∈ fm.states then p
    else { p with
      cands := addState (fun c => c.addr = k.1.target) k.1.tag p.cands
      new := p.new + 1 }
  | none, none =>
    if limit ≤ p.cands.length then p
    else
      let fm := newEntry names p.usedNames k.1.target k.1.tag
      { p with
        usedNames := fm.name :: p.usedNames
        cands := p.cands ++ [fm]
        new := p.new + 1 }

def Graph.start (g : Graph) : Placing := { g with interpKnown := [], new := 0 }

/-! The passes. -/

section

variable (reg : Registry) (names : BitVec 24 → Option String) (limit fuel : Nat)

/-- `sorted(missing.items())` -/
def Scanned.sorted (sc : Scanned) : List (MissingKey × Nat) :=
  sc.missing.insertionSort fun k k' => k.1.before k'.1

/-- None where an entry's state is not one. -/
def closePass (g : Graph) : RegM (Option (Scanned × Placing)) :=
  match g.entries with
  | none => return none
  | some entries => do
    set RegState.init
    let sc ← scanEntries { reg with metas := entries } fuel (withStates entries) ⟨[], []⟩
    return some (sc, sc.sorted.foldl (Placing.place names limit) g.start)

inductive Closed
  | settled (g : Graph) (interpKnown : List ((String × Flags) × Nat))
    (failures : List ((String × Flags) × DecodeError))
  /-- `parse_state`'s `DecodeError`, caught by nothing. -/
  | badState
  /-- `SystemExit` -/
  | noFixedPoint

def closeLoop : Nat → Graph → RegM Closed
  | 0, _ => return .noFixedPoint
  | n + 1, g => do
    match ← closePass reg names limit fuel g with
    | none => return .badState
    | some (sc, p) =>
      if p.new = 0 then return .settled p.toGraph p.interpKnown sc.failures
      else closeLoop n p.toGraph

/-- `MAX_PASSES` -/
def maxPasses : Nat := 200

def closeGraph (g : Graph) : RegM Closed := closeLoop reg names limit fuel maxPasses g

end

end CtRecomp
