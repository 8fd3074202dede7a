import CtRecomp.RegistryEnds
import CtRecomp.Shrink

namespace CtRecomp

/-! Symbols of other disassemblies, checked against the decoder before they become entries
(sync_symbols.py). -/

/-- M and X of an entry state, `m?x?`. -/
abbrev Widths := Bool × Bool

def Widths.state (w : Widths) : State := .of (some w.1) (some w.2) false

structure Candidate where
  addr : BitVec 24
  name : String
  src : String
  states : List Widths
deriving DecidableEq

/-! What its callers call a routine with, as far as a walk of each without the registry tells. -/

/-- The states at the call sites of each target. -/
abbrev Sites := List (BitVec 24 × List Widths)

def Sites.add (target : BitVec 24) (w : Widths) : Sites → Sites
  | [] => [(target, [w])]
  | (t, ws) :: found =>
    if t = target then (t, if w ∈ ws then ws else ws ++ [w]) :: found
    else (t, ws) :: Sites.add target w found

/-- The walk's loops; the path it is on is the first of `work`, and `n` is what the guard leaves. -/
def siteWalk (mem : Image) :
    Nat → List (BitVec 24 × State) → List Key → Sites → Except DecodeError Sites
  | 0, _, _, found => .ok found
  | _ + 1, [], _, found => .ok found
  | n + 1, (addr, cur) :: work, seen, found =>
    let key : Key := (addr, cur.key)
    if key ∈ seen then siteWalk mem n work seen found
    else
      match decodeInsn mem addr cur with
      | .error _ => siteWalk mem n work (key :: seen) found
      | .ok i => do
        -- outside the `try`: what it raises, the walk raises
        let nxt ← nextState i cur
        let next := (i.nextAddr, nxt)
        if i.mnemonic.isReturn then siteWalk mem n work (key :: seen) found
        else if i.mnemonic.isBranch then
          siteWalk mem n (next :: (i.branchTarget, nxt) :: work) (key :: seen) found
        else if i.mnemonic = .BRA ∨ i.mnemonic = .BRL then
          siteWalk mem n ((i.branchTarget, nxt) :: work) (key :: seen) found
        else if (i.mnemonic = .JSR ∨ i.mnemonic = .JSL) ∧ (i.mode = .abs ∨ i.mode = .long) then
          let target := if i.mnemonic = .JSR then i.jumpTo else i.operand
          siteWalk mem n (next :: work) (key :: seen) <| match nxt.m, nxt.x with
            | some m, some x => found.add target (m, x)
            | _, _ => found
        else if i.mnemonic = .JML ∧ i.mode = .long ∨ i.mnemonic = .JMP ∧ i.mode = .abs ∨
            (i.mnemonic = .JSR ∨ i.mnemonic = .JMP) ∧ i.mode = .absXInd ∨ i.mnemonic.isStop then
          siteWalk mem n work (key :: seen) found
        else siteWalk mem n (next :: work) (key :: seen) found

/-- `_call_site_states` -/
def callSiteStates (mem : Image) (entry : BitVec 24) (w : Widths) : Except DecodeError Sites :=
  siteWalk mem 19999 [(entry, w.state)] [] []

/-! Propagation. -/

/-- `tuple(sorted(set(…)))` -/
def sortedStates (ws : List Widths) : List Widths :=
  [(false, false), (false, true), (true, false), (true, true)].filter (· ∈ ws)

/-- With the states it lacks. -/
def Candidate.withStates (c : Candidate) (ws : List Widths) : Candidate :=
  if ∀ w ∈ ws, w ∈ c.states then c else { c with states := sortedStates (c.states ++ ws) }

/-- The candidates, and the entries to walk next. -/
abbrev Gained := List Candidate × List (BitVec 24 × Widths)

def gain (target : BitVec 24) (tags : List Widths) (g : Gained) : Gained :=
  match g.1.find? fun c => c.addr = target with
  | none => g
  | some c =>
    (g.1.map fun c' => if c'.addr = target then c'.withStates tags else c',
      g.2 ++ (tags.filter (· ∉ c.states)).map fun w => (target, w))

/-- One round over the entries `todo`. -/
def propagateRound (mem : Image) : List (BitVec 24 × Widths) → List (BitVec 24 × Widths) →
    Gained → Except DecodeError (Gained × List (BitVec 24 × Widths))
  | [], walked, g => .ok (g, walked)
  | wk :: todo, walked, g =>
    if wk ∈ walked then propagateRound mem todo walked g
    else do
      let found ← callSiteStates mem wk.1 wk.2
      propagateRound mem todo (wk :: walked) (found.foldl (fun g f => gain f.1 f.2 g) g)

def propagateLoop (mem : Image) : Nat → List (BitVec 24 × Widths) → List (BitVec 24 × Widths) →
    List Candidate → Except DecodeError (List Candidate)
  | 0, _, _, _ => .error .outOfFuel
  | n + 1, known, walked, cands => do
    let ((cands, new), walked) ← propagateRound mem known walked (cands, [])
    if new = [] then return cands else propagateLoop mem n new walked cands

def propagate (mem : Image) (existing : List FuncMeta) (cands : List Candidate) (fuel : Nat) :
    Except DecodeError (List Candidate) :=
  propagateLoop mem fuel (existing.flatMap (fun fm => fm.states.map fun w => (fm.addr, w)) ++
    cands.flatMap fun c => c.states.map fun w => (c.addr, w)) [] cands

/-! Validation. -/

/-- `KNOWN_BAD`: found wrong at run time. -/
def knownBad : List (BitVec 24) := [0xC0AF4E, 0xC0B096]

inductive Reason
  | knownBad
  | noState
  | undecoded (e : DecodeError)

structure SyncResult where
  validated : List FuncMeta
  unresolved : List (Candidate × Reason)
  /-- With the entry that has the address. -/
  conflicts : List (Candidate × FuncMeta)

def Candidate.toMeta (moduleName : String) (c : Candidate) : FuncMeta :=
  ⟨c.name, c.addr, c.states, moduleName, false⟩

def Registry.withMetas (reg : Registry) (metas : List FuncMeta) : Registry :=
  { reg with metas := reg.metas ++ metas }

/-- How a candidate starts. -/
inductive Standing
  | registered (ex : FuncMeta)
  | withheld (r : Reason)
  | live

def Registry.standing (reg : Registry) (c : Candidate) : Standing :=
  match reg.byAddr c.addr with
  | some ex => .registered ex
  | none =>
    if c.addr ∈ knownBad then .withheld .knownBad
    else if c.states = [] then .withheld .noState
    else .live

def Registry.live (reg : Registry) (cands : List Candidate) : List Candidate :=
  cands.filter fun c => match reg.standing c with
    | .live => true
    | _ => false

section

variable (reg : Registry) (fuel : Nat)

/-- Every state of a candidate. -/
def tryStates (addr : BitVec 24) : List Widths → RegM Unit
  | [] => pure ()
  | w :: ws => do
    let _ ← reg.function fuel addr w.state
    tryStates addr ws

def tryCandidate (c : Candidate) : RegM (Option DecodeError) :=
  tryCatch ((fun _ => none) <$> tryStates reg fuel c.addr c.states) fun ex =>
    if ex.caught then pure (some ex) else throw ex

/-- The candidates with a state that raises, and what the first raised. -/
def findFailed : List Candidate → RegM (List (BitVec 24 × DecodeError))
  | [] => pure []
  | c :: cs => do
    let ex ← tryCandidate reg fuel c
    let failed ← findFailed cs
    return ex.toList.map (fun ex => (c.addr, ex)) ++ failed

/-- The loop: each round on a registry of its own. -/
def settle (moduleName : String) : Nat → List Candidate → List (BitVec 24 × DecodeError) →
    RegM (List Candidate × List (BitVec 24 × DecodeError))
  | 0, _, _ => throw .outOfFuel
  | n + 1, live, reasons => do
    set RegState.init
    let failed ← findFailed (reg.withMetas (live.map (Candidate.toMeta moduleName))) fuel live
    let left := Shrink.without Candidate.addr live (failed.map Prod.fst)
    if failed = [] then return (live, reasons) else settle moduleName n left (reasons ++ failed)

/-- What is withheld from the start, and what was dropped. -/
def unresolvedOf (cands : List Candidate) (reasons : List (BitVec 24 × DecodeError)) :
    List (Candidate × Reason) :=
  cands.filterMap (fun c => match reg.standing c with
    | .withheld r => some (c, r)
    | _ => none) ++
  cands.filterMap fun c =>
    if (reg.byAddr c.addr).isSome then none
    else (reasons.lookup c.addr).map fun e => (c, .undecoded e)

def conflictsOf (cands : List Candidate) : List (Candidate × FuncMeta) :=
  cands.filterMap fun c => match reg.standing c with
    | .registered ex => if ex.name ≠ c.name then some (c, ex) else none
    | _ => none

def validate (moduleName : String) (cands : List Candidate) : RegM SyncResult := do
  let live := reg.live cands
  let (kept, reasons) ← settle reg fuel moduleName (live.length + 1) live []
  return {
    validated := (kept.map (Candidate.toMeta moduleName)).insertionSort fun a b => a.addr ≤ b.addr
    unresolved := (unresolvedOf reg cands reasons).insertionSort fun a b => a.1.addr ≤ b.1.addr
    conflicts := (conflictsOf reg cands).insertionSort fun a b => a.1.addr ≤ b.1.addr }

end

end CtRecomp
