import Mathlib.Algebra.BigOperators.Group.List.Basic
import Mathlib.Algebra.Order.BigOperators.Group.List
import CtRecomp.Overlay

namespace CtRecomp

/-! Native overlay code run by the scheduler (sched.c `tick`, `overlay_bail`,
`run_overlay`), with the C stack it runs on. -/

/-- `tick`'s check, before the instruction begins (which starts a new journal). -/
def Overlays.tick (s : Overlays) : Option Nat × Overlays :=
  if s.hit then ({ s with journal := [], hit := false } : Overlays).staleActive
  else (none, { s with journal := [] })

inductive OvlFrame
  /-- A loop of `exec_one`: `cpu_main`'s, `exec_hook`'s, or `tick`'s for an interrupt. -/
  | exec
  /-- Compiled code of ROM. -/
  | rom
  /-- Entry `n`'s function, in `run_overlay`. -/
  | overlay (n : Nat)
  /-- The same, its rest handed over: it only returns. -/
  | spent (n : Nat)
  /-- `overlay_bail` for entry `n`, one of `active` entries then. -/
  | bail (n active : Nat)
deriving DecidableEq

def OvlFrame.Native : OvlFrame → Prop
  | .rom | .overlay _ => True
  | _ => False

def OvlFrame.Loops : OvlFrame → Prop
  | .exec | .bail _ _ => True
  | _ => False

/-- `__builtin_longjmp` to entry `n`'s `run_overlay`, which leaves it. -/
def unwind (n : Nat) : List OvlFrame → List OvlFrame
  | [] => []
  | fr :: outer => if fr = .overlay n ∨ fr = .spent n then outer else unwind n outer

structure OvlMachine where
  ovl : Overlays
  /-- Innermost first. -/
  stack : List OvlFrame

/-- Fewer than 2^32 writes to the function's pages since its last check. -/
def Overlays.Fresh (s : Overlays) (f : OverlayFunc) (k : Nat) : Prop :=
  ∀ c, s.cache k = some c → (f.pages.map s.stores).sum < (f.pages.map c.stores).sum + 2 ^ 32

/-- So for every function `tick` is about to check. -/
def Overlays.Timely (s : Overlays) : Prop :=
  s.hit = true → ∀ a ∈ s.act, a.dormant = false → s.Fresh a.f a.idx

/-- A step of the scheduler's, whatever the program: a write, the end of a frame, an
instruction boundary of compiled code, or a change of what is running. `timely` asks that
checks come in time. -/
inductive OvlStep (table : List OverlayFunc) (strict : Bool) (timely : Prop) :
    OvlMachine → OvlMachine → Prop
  | store (m : OvlMachine) (off : BitVec 17) (v : BitVec 8) (journaled : Bool) :
      OvlStep table strict timely m { m with ovl := m.ovl.store off v journaled }
  | edge (m : OvlMachine) (undoFrom : Nat) :
      OvlStep table strict timely m { m with ovl := m.ovl.edge undoFrom }
  | begins {o o' : Overlays} {fr : OvlFrame} {outer : List OvlFrame} (native : fr.Native)
      (fresh : timely → o.Timely)
      (h : o.tick = (none, o')) :
      OvlStep table strict timely ⟨o, fr :: outer⟩ ⟨o', fr :: outer⟩
  | bails {o o' : Overlays} {fr : OvlFrame} {outer : List OvlFrame} {n : Nat} (native : fr.Native)
      (fresh : timely → o.Timely)
      (h : o.tick = (some n, o')) (hs : strict = false) :
      OvlStep table strict timely ⟨o, fr :: outer⟩ ⟨o', .bail n o.act.length :: fr :: outer⟩
  | longjmp {o : Overlays} {n active : Nat} {outer : List OvlFrame} :
      OvlStep table strict timely ⟨o, .bail n active :: outer⟩ ⟨o.leave n, unwind n outer⟩
  -- `exec_one`: interpreted, or compiled
  | interpret {o o' : Overlays} {fr : OvlFrame} {outer : List OvlFrame} (c : Cpu) (loops : fr.Loops)
      (fresh : timely → ∀ e ∈ overlayCandidates table c, o.Fresh e.1 e.2)
      (h : ({ o with journal := [] } : Overlays).lookup table c = (none, o')) :
      OvlStep table strict timely ⟨o, fr :: outer⟩ ⟨o', fr :: outer⟩
  | dispatchRom {o : Overlays} {fr : OvlFrame} {outer : List OvlFrame} (loops : fr.Loops) :
      OvlStep table strict timely ⟨o, fr :: outer⟩ ⟨o, .rom :: fr :: outer⟩
  | dispatch {o o' entered : Overlays} {fr : OvlFrame} {outer : List OvlFrame} {f : OverlayFunc}
      {k : Nat} (c : Cpu) (loops : fr.Loops)
      (fresh : timely → ∀ e ∈ overlayCandidates table c, o.Fresh e.1 e.2)
      (h : ({ o with journal := [] } : Overlays).lookup table c = (some (f, k), o'))
      (he : o'.enter f k c.S = some entered) :
      OvlStep table strict timely ⟨o, fr :: outer⟩ ⟨entered, .overlay o'.act.length :: fr :: outer⟩
  -- `ct_run` of ROM code; `exec_hook`, or an interrupt taken in `tick`
  | call {o : Overlays} {fr : OvlFrame} {outer : List OvlFrame} (native : fr.Native) :
      OvlStep table strict timely ⟨o, fr :: outer⟩ ⟨o, .rom :: fr :: outer⟩
  | hook {o : Overlays} {fr : OvlFrame} {outer : List OvlFrame} (runs : ¬fr.Loops) :
      OvlStep table strict timely ⟨o, fr :: outer⟩ ⟨o, .exec :: fr :: outer⟩
  | rest {o : Overlays} {n : Nat} {outer : List OvlFrame} :
      OvlStep table strict timely ⟨o, .overlay n :: outer⟩ ⟨o.goDormant, .spent n :: outer⟩
  | ret {o : Overlays} {fr : OvlFrame} {outer : List OvlFrame} (h : fr = .rom ∨ fr = .exec) :
      OvlStep table strict timely ⟨o, fr :: outer⟩ ⟨o, outer⟩
  | leave {o : Overlays} {n : Nat} {fr : OvlFrame} {outer : List OvlFrame}
      (h : fr = .overlay n ∨ fr = .spent n) :
      OvlStep table strict timely ⟨o, fr :: outer⟩ ⟨o.leave n, outer⟩
  | reset (m : OvlMachine) : OvlStep table strict timely m
      ⟨{ m.ovl.resetActive with journal := [] }, [.exec]⟩

/-- Nothing has run yet. -/
def OvlMachine.start (wram : BitVec 17 → BitVec 8) (stores : BitVec 9 → Nat) : OvlMachine :=
  ⟨⟨wram, stores, ⟨0, 0⟩, false, fun _ => none, [], []⟩, [.exec]⟩

inductive OvlRun (table : List OverlayFunc) (strict : Bool) (timely : Prop) : OvlMachine → Prop
  | start (wram : BitVec 17 → BitVec 8) (stores : BitVec 9 → Nat) :
      OvlRun table strict timely (.start wram stores)
  | step {m m' : OvlMachine} (run : OvlRun table strict timely m)
      (h : OvlStep table strict timely m m') : OvlRun table strict timely m'

/-- The bail-out under way, the innermost. -/
def bailing : List OvlFrame → Option (Nat × Nat)
  | [] => none
  | .bail n active :: _ => some (n, active)
  | _ :: outer => bailing outer

/-- Entry `j` runs no more: it is, or was entered after, the one being bailed out. -/
def Dropped (stack : List OvlFrame) (j : Nat) : Prop :=
  ∃ n active, bailing stack = some (n, active) ∧ n ≤ j ∧ j < active

end CtRecomp
