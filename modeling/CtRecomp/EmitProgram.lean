import CtRecomp.Emit

namespace CtRecomp

/-! All that one run of emit.py writes. -/

/-- An [[overlay]] of the manifest: code the game puts in WRAM. -/
structure OverlaySource where
  name : String
  /-- `dst` -/
  base : BitVec 24
  data : List (BitVec 8)
  /-- Addresses, and M and X on entry. -/
  entries : List (BitVec 24 × List (Bool × Bool))

def OverlaySource.covers (ov : OverlaySource) (a : BitVec 24) : Bool :=
  ov.base.toNat ≤ a.toNat && a.toNat < ov.base.toNat + ov.data.length

/-- `Image.byte` -/
def OverlaySource.image (ov : OverlaySource) (reg : Registry) : Image := fun a =>
  if ov.covers a then ov.data[a.toNat - ov.base.toNat]? else reg.rom a

/-- `ct_funcs[]` with `calls_extern`, and the code behind it. -/
structure Generated where
  rom : List EmittedFn
  table : List (CName × Bool)
  overlays : List EmittedFn

section

variable (reg : Registry) (fuel : Nat)

def FuncMeta.function (fm : FuncMeta) (st : State) : EmitM Func :=
  fromRegistry (reg.function fuel fm.addr st)

/-- The entry states of a manual root that decode, or the first error. -/
def FuncMeta.decodes (fm : FuncMeta) : EmitM Unit := do
  let _ ← fm.entryStates.mapM fun st => fm.function reg fuel st
  return ()

/-- `split_emittable`: a manual root that does not decode yet is held back. -/
def splitEmittable : List FuncMeta → EmitM (List FuncMeta)
  | [] => pure []
  | fm :: metas => do
    let kept ← tryCatch
      (do
        if fm.manual then fm.decodes reg fuel
        return [fm])
      fun e => if e.caught then pure [] else throw e
    let rest ← splitEmittable metas
    return kept ++ rest

def entryPoints (metas : List FuncMeta) : List (FuncMeta × State) :=
  metas.flatMap fun fm => fm.entryStates.map fun st => (fm, st)

def emitEntry (fm : FuncMeta) (st : State) : EmitM EmittedFn := do
  let fn ← fm.function reg fuel st
  emitFunction reg fuel none fn

def emitModule (metas : List FuncMeta) (name : String) : EmitM (List EmittedFn) :=
  let sel := metas.filter fun fm => fm.moduleName = name
  if sel = [] then throw (.noModule name)
  else (entryPoints sel).mapM fun e => emitEntry reg fuel e.1 e.2

/-- `emit_prototypes`: a function's name and whether it takes a hook. -/
def emitPrototype (fm : FuncMeta) (st : State) : EmitM (CName × Bool) := do
  let fn ← fm.function reg fuel st
  return (cName none fm.addr st, takesHook reg fn)

/-- An entry of an overlay: kept if it decodes, stays in its image, takes no hook and emits. -/
def emitOverlayEntry (ov : OverlaySource) (addr : BitVec 24) (st : State) : EmitM EmittedFn := do
  let fn ← fromRegistry
    (decodeFunction (reg.resolver (reg.function fuel)) fuel (ov.image reg) addr st)
  if fn.insns.all fun i => ov.covers i.addr then
    if takesHook reg fn then throw (.takesHook addr)
    else emitFunction reg fuel (some ov.name) fn
  else throw (.outsideImage addr)

def emitOverlays : List (OverlaySource × BitVec 24 × State) → EmitM (List EmittedFn)
  | [] => pure []
  | (ov, addr, st) :: rest => do
    let kept ← tryCatch (do return [← emitOverlayEntry reg fuel ov addr st])
      fun e => if e.caught then pure [] else throw e
    let others ← emitOverlays rest
    return kept ++ others

def overlayEntries (ovs : List OverlaySource) : List (OverlaySource × BitVec 24 × State) :=
  ovs.flatMap fun ov => ov.entries.flatMap fun e => e.2.map fun mx =>
    (ov, e.1, .of (some mx.1) (some mx.2) false)

/-- `modules(metas)` -/
def modules (metas : List FuncMeta) : List String :=
  (metas.map (·.moduleName)).eraseDups.insertionSort fun a b => a ≤ b

/-- `--module` -/
def emitted (only : Option String) (metas : List FuncMeta) : List String :=
  match only with
  | some name => [name]
  | none => modules metas

/-- `main`: one module or all of them, the table, the overlays. -/
def emitMain (only : Option String) (ovs : List OverlaySource) : EmitM Generated := do
  let metas ← splitEmittable reg fuel reg.metas
  let rom ← (emitted only metas).mapM fun name => emitModule reg fuel metas name
  let table ← (entryPoints metas).mapM fun e => emitPrototype reg fuel e.1 e.2
  let overlays ← emitOverlays reg fuel (overlayEntries ovs)
  return ⟨rom.flatten, table, overlays⟩

def EmitState.init : EmitState := ⟨.init, fun _ => none⟩

end

def Generated.code (p : Generated) : List EmittedFn := p.rom ++ p.overlays

/-- What the frame scheduler may run natively: the table's functions that take no hook
(`native_build`), and the overlays' entries. -/
def Generated.Native (p : Generated) (E : EmittedFn) : Prop :=
  E ∈ p.rom ∧ (E.name, false) ∈ p.table ∨ E ∈ p.overlays

/-- One call, table case or jump of a function's code, under `ct_exec_hook` or not. -/
def Generated.Goes (p : Generated) (hook : Bool) (E E' : EmittedFn) : Prop :=
  E' ∈ p.code ∧ E'.name ∈ E.edges hook

end CtRecomp
