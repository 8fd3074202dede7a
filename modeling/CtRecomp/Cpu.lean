namespace CtRecomp

/-- 65816 register file (cpu.h), PB and PC apart: compiled code keeps those in
its own control flow. -/
structure RegFile where
  A : BitVec 16
  X : BitVec 16
  Y : BitVec 16
  S : BitVec 16
  DP : BitVec 16
  DB : BitVec 8
  n : Bool
  v : Bool
  m : Bool
  x : Bool
  d : Bool
  i : Bool
  z : Bool
  c : Bool
  e : Bool
deriving DecidableEq, Repr

structure Cpu extends RegFile where
  PB : BitVec 8
  PC : BitVec 16
deriving DecidableEq, Repr

/-- `PB << 16 | PC` -/
def Cpu.pbpc (c : Cpu) : BitVec 24 := c.PB ++ c.PC

def Cpu.setPbpc (c : Cpu) (pc : BitVec 24) : Cpu :=
  { c with PB := pc.extractLsb' 16 8, PC := pc.extractLsb' 0 16 }

@[simp] theorem Cpu.pbpc_setPbpc (c : Cpu) (pc : BitVec 24) : (c.setPbpc pc).pbpc = pc := by
  have happend : pc.extractLsb' 16 8 ++ pc.extractLsb' 0 16 = pc.extractLsb' 0 (8 + 16) :=
    BitVec.extractLsb'_append_extractLsb'_eq_extractLsb' rfl
  exact happend.trans BitVec.extractLsb'_eq_self

@[simp] theorem Cpu.setPbpc_pbpc (c : Cpu) : c.setPbpc c.pbpc = c := by
  have hpb : c.pbpc.extractLsb' 16 8 = c.PB := BitVec.extractLsb'_append_eq_left
  have hpc : c.pbpc.extractLsb' 0 16 = c.PC := BitVec.extractLsb'_append_eq_right
  unfold Cpu.setPbpc
  rw [hpb, hpc]

/-- What a compiled function's entry and code depend on besides data. -/
def Cpu.mxe (c : Cpu) : Bool × Bool × Bool := (c.m, c.x, c.e)

@[simp] theorem Cpu.mxe_setPbpc (c : Cpu) (pc : BitVec 24) : (c.setPbpc pc).mxe = c.mxe := rfl

end CtRecomp
