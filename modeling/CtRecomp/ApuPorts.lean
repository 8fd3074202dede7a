import CtRecomp.PostedLog
import Mathlib.Data.Rat.Floor
import Mathlib.Tactic.Linarith

namespace CtRecomp

open PostedLog

/-! $2140-$217F and the SPC700's side of them (snes_adapter.c, spc700_host.cpp). -/

abbrev Ports : Type := Vector (BitVec 8) 4

/-- One SPC700 cycle as the core asks for it. -/
inductive SpcAccess
  | idle
  | read (address : BitVec 16)
  | write (address : BitVec 16) (data : BitVec 8)

/-- `cycle` is the host's count of cycles run. -/
structure ApuPorts where
  portNew : Ports
  portVis : Ports
  portPending : Bool
  cycle : Nat

/-- Two cycles are spent on the reset vector. -/
def apuPortsReset : ApuPorts := ⟨Vector.replicate 4 0, Vector.replicate 4 0, false, 2⟩

def spcCycleEnd (s : ApuPorts) : ApuPorts :=
  if s.portPending then { s with portVis := s.portNew, portPending := false } else s

/-- Both of a pair. -/
def clearPair (p : Ports) (low high : Bool) : Ports :=
  let p := if low then (p.set 0 0).set 1 0 else p
  if high then (p.set 2 0).set 3 0 else p

def spcWrite (address : BitVec 16) (data : BitVec 8) (s : ApuPorts) : ApuPorts :=
  if address ≠ 0xF1 then s
  else
    let low := data.getLsbD 4
    let high := data.getLsbD 5
    { s with portNew := clearPair s.portNew low high, portVis := clearPair s.portVis low high }

/-- What a read of this cycle gives at $F4-$F7. -/
def inportRead (s : ApuPorts) (port : Fin 4) : BitVec 8 := s.portVis[port]

/-- The host's `idle`, `read` and `write`: the access lands after the tick. -/
def spcCycle (access : SpcAccess) (s : ApuPorts) : ApuPorts :=
  let s := { s with cycle := s.cycle + 1 }
  match access with
  | .idle => spcCycleEnd s
  | .read _ => spcCycleEnd s
  | .write address data => spcCycleEnd (spcWrite address data s)

/-- Cycles `snes_apu_catch_up` runs; `rate` is half-cycles a master clock. -/
def catchUpCycles (rate : ℚ) (master : Nat) (s : ApuPorts) : Nat :=
  let target := (master * rate).floor - 1
  let half := 2 * (s.cycle : Int)
  if half < target then ((target - half + 1) / 2).toNat % 2 ^ 32 else 0

/-- `reg & 3` -/
def portOf (reg : BitVec 16) : Fin 4 := ⟨reg.toNat % 4, Nat.mod_lt _ (by decide)⟩

/-- `apu_reg_write` past the catch-up. -/
def apuStore (rate : ℚ) (reg : BitVec 16) (v : BitVec 8) (master : Nat) (s : ApuPorts) : ApuPorts :=
  let p := portOf reg
  if s.portNew[p] = v then s
  else if master * rate - 2 * s.cycle ≤ 1 then
    { s with portNew := s.portNew.set p v, portVis := s.portVis.set p v }
  else { s with portNew := s.portNew.set p v, portPending := true }

/-- What changes the ports. -/
inductive PortPost
  | write (p : Fin 4) (v : BitVec 8)
  | clear (low high : Bool)

def PortPost.apply (p : Ports) : PortPost → Ports
  | .write k v => p.set k v
  | .clear low high => clearPair p low high

/-- The $F1 write of a cycle. -/
def SpcAccess.posts : SpcAccess → List PortPost
  | .write address data =>
    if address ≠ 0xF1 then [] else [.clear (data.getLsbD 4) (data.getLsbD 5)]
  | _ => []

/-- The ports, the CPU writes and $F1 clears so far, and what each cycle found at $F4-$F7. -/
structure ApuTrace where
  ports : ApuPorts
  log : List PortPost
  cycles : List (Reading Ports)

def ApuTrace.cycle (access : SpcAccess) (t : ApuTrace) : ApuTrace :=
  let ports := spcCycle access t.ports
  let log := t.log ++ access.posts
  { ports, log, cycles := t.cycles ++ [⟨t.ports.portVis, ports.portVis, log.length⟩] }

/-- `n` cycles, the accesses by cycle number. -/
def ApuTrace.spcRun (access : Nat → SpcAccess) : Nat → ApuTrace → ApuTrace
  | 0, t => t
  | n + 1, t => spcRun access n (t.cycle (access t.ports.cycle))

def ApuTrace.catchUp (rate : ℚ) (access : Nat → SpcAccess) (master : Nat) (t : ApuTrace) :
    ApuTrace :=
  t.spcRun access (catchUpCycles rate master t.ports)

/-- CPU accesses at their master clocks, and `snes_apu_run`. -/
inductive ApuOp
  | write (reg : BitVec 16) (v : BitVec 8) (master : Nat)
  | read (reg : BitVec 16) (master : Nat)
  | run (cycles : Nat)

def ApuOp.step (rate : ℚ) (access : Nat → SpcAccess) (t : ApuTrace) : ApuOp → ApuTrace
  | .write reg v master =>
    let t := t.catchUp rate access master
    { t with
      ports := apuStore rate reg v master t.ports
      log := t.log ++ [.write (portOf reg) v] }
  | .read _ master => t.catchUp rate access master
  | .run cycles => t.spcRun access cycles

def apuRun (rate : ℚ) (access : Nat → SpcAccess) (ops : List ApuOp) : ApuTrace :=
  ops.foldl (ApuOp.step rate access) ⟨apuPortsReset, [], []⟩

/-- Master clock of a CPU write. -/
def ApuOp.writeClock : ApuOp → Option Nat
  | .write _ _ master => some master
  | _ => none

/-- The ports after some of the posts. -/
abbrev portsAfter (log : List PortPost) (n : Nat) : Ports :=
  after PortPost.apply (Vector.replicate 4 0) log n

/-- `now` is the clock of the last CPU write. -/
structure ApuTrace.Kept (rate : ℚ) (now : Nat) (t : ApuTrace) : Prop where
  portNew : t.ports.portNew = portsAfter t.log t.log.length
  portVis : ∃ n, lastPosted 0 t.cycles ≤ n ∧ n ≤ t.log.length ∧
    t.ports.portVis = portsAfter t.log n ∧ (t.ports.portPending = false → n = t.log.length)
  /-- Since a write was put off no cycle has run. -/
  portPending : t.ports.portPending = true → 1 < now * rate - 2 * t.ports.cycle
  cycles : InOrder PortPost.apply (Vector.replicate 4 0) t.log 0 t.cycles

theorem spcCycleEnd_ports (s : ApuPorts) (h : s.portPending = false → s.portVis = s.portNew) :
    (spcCycleEnd s).portNew = s.portNew ∧ (spcCycleEnd s).portVis = s.portNew ∧
      (spcCycleEnd s).portPending = false := by
  unfold spcCycleEnd
  cases hp : s.portPending with
  | true => exact ⟨rfl, rfl, rfl⟩
  | false => exact ⟨rfl, h hp, hp⟩

/-- A cycle ends with all posts shown, its own clear among them. -/
theorem spcCycle_ports {s : ApuPorts} (access : SpcAccess)
    (h : s.portPending = false → s.portVis = s.portNew) :
    (spcCycle access s).portNew = access.posts.foldl PortPost.apply s.portNew ∧
      (spcCycle access s).portVis = (spcCycle access s).portNew ∧
      (spcCycle access s).portPending = false := by
  have hend : ∀ s' : ApuPorts, (s'.portPending = false → s'.portVis = s'.portNew) →
      (spcCycleEnd s').portNew = s'.portNew ∧ (spcCycleEnd s').portVis = (spcCycleEnd s').portNew ∧
        (spcCycleEnd s').portPending = false := fun s' hs => by
    obtain ⟨hnew, hvis, hpending⟩ := spcCycleEnd_ports s' hs
    exact ⟨hnew, hvis.trans hnew.symm, hpending⟩
  cases access with
  | idle => exact hend _ h
  | read address => exact hend _ h
  | write address data =>
    unfold spcCycle spcWrite SpcAccess.posts
    dsimp only
    by_cases haddress : address ≠ 0xF1
    · rw [if_pos haddress, if_pos haddress]
      exact hend _ h
    · rw [if_neg haddress, if_neg haddress]
      exact hend _ fun hp => congrArg (clearPair · _ _) (h hp)

namespace ApuTrace.Kept

variable {rate : ℚ} {now : Nat} {t : ApuTrace}

theorem shown (h : t.Kept rate now) (hp : t.ports.portPending = false) :
    t.ports.portVis = t.ports.portNew := by
  obtain ⟨n, -, -, hvis, hall⟩ := h.portVis
  rw [hvis, hall hp, h.portNew]

theorem cycle (h : t.Kept rate now) (access : SpcAccess) : (t.cycle access).Kept rate now := by
  obtain ⟨hnew, hvis, hpending⟩ := spcCycle_ports access h.shown
  obtain ⟨n, hlast, hn, hlanding, -⟩ := h.portVis
  have hlen : t.log.length ≤ (t.log ++ access.posts).length := by
    rw [List.length_append]
    exact Nat.le_add_right _ _
  have hall : (spcCycle access t.ports).portNew =
      portsAfter (t.log ++ access.posts) (t.log ++ access.posts).length := by
    rw [hnew, h.portNew, portsAfter, portsAfter, after_length, after_length, List.foldl_append]
  refine ⟨hall, ⟨(t.log ++ access.posts).length, ?_, Nat.le_refl _, hvis.trans hall, fun _ => rfl⟩,
    ?_, ?_⟩
  · exact Nat.le_of_eq (lastPosted_snoc _ _ _)
  · intro hp
    exact absurd (hpending.symm.trans hp) Bool.false_ne_true
  · exact h.cycles.post.snoc hlast (Nat.le_trans hn hlen) (Nat.le_refl _)
      (hlanding.trans (after_append hn).symm) (hvis.trans hall)

theorem spcRun (h : t.Kept rate now) (access : Nat → SpcAccess) (n : Nat) :
    (t.spcRun access n).Kept rate now := by
  induction n generalizing t with
  | zero => exact h
  | succ n ih => exact ih (h.cycle _)

/-- A write no earlier than the last. -/
theorem store (h : t.Kept rate now) (hrate : 0 < rate) {reg : BitVec 16} {v : BitVec 8}
    {master : Nat} (hnow : now ≤ master) :
    Kept rate master
      { t with
        ports := apuStore rate reg v master t.ports
        log := t.log ++ [.write (portOf reg) v] } := by
  obtain ⟨n, hlast, hn, hvis, hall⟩ := h.portVis
  have hlater : t.ports.portPending = true → 1 < master * rate - 2 * t.ports.cycle := fun hp => by
    have hle : (now : ℚ) * rate ≤ master * rate :=
      mul_le_mul_of_nonneg_right (by exact_mod_cast hnow) hrate.le
    have := h.portPending hp
    linarith
  unfold apuStore
  have hlen : (t.log ++ [PortPost.write (portOf reg) v]).length = t.log.length + 1 := List.length_append
  have hnew : t.ports.portNew.set (portOf reg) v = portsAfter (t.log ++ [.write (portOf reg) v])
      (t.log ++ [PortPost.write (portOf reg) v]).length := by
    rw [portsAfter, after_post, h.portNew]
    rfl
  have hbehind : t.ports.portVis = portsAfter (t.log ++ [.write (portOf reg) v]) n :=
    hvis.trans (after_append hn).symm
  dsimp only
  by_cases hsame : t.ports.portNew[portOf reg] = v
  · -- The value is there already, shown or not.
    have hset : t.ports.portNew.set (portOf reg) v = t.ports.portNew := by
      rw [← hsame]
      exact Vector.set_getElem_self ..
    rw [if_pos hsame]
    refine ⟨hset.symm.trans hnew, ?_, hlater, h.cycles.post⟩
    cases hpending : t.ports.portPending with
    | true => exact ⟨n, hlast, by dsimp only; omega, hbehind, fun hf => absurd hf (by simp)⟩
    | false =>
      refine ⟨_, ?_, Nat.le_refl _, ?_, fun _ => rfl⟩
      · dsimp only
        omega
      · exact (h.shown hpending).trans (hset.symm.trans hnew)
  · rw [if_neg hsame]
    by_cases hsoon : (master : ℚ) * rate - 2 * t.ports.cycle ≤ 1
    · have hpending : t.ports.portPending = false :=
        Bool.eq_false_iff.mpr fun hp => absurd (hlater hp) (not_lt.mpr hsoon)
      rw [if_pos hsoon]
      refine ⟨hnew, ⟨_, ?_, Nat.le_refl _, ?_, fun _ => rfl⟩, hlater, h.cycles.post⟩
      · dsimp only
        omega
      · rw [h.shown hpending]
        exact hnew
    · rw [if_neg hsoon]
      exact ⟨hnew, ⟨n, hlast, by dsimp only; omega, hbehind, fun hf => absurd hf (by simp)⟩,
        fun _ => not_le.mp hsoon, h.cycles.post⟩

end ApuTrace.Kept

/-- The clock after an access. -/
theorem apuRun_kept {rate : ℚ} (hrate : 0 < rate) (access : Nat → SpcAccess) {ops : List ApuOp}
    {now : Nat} {t : ApuTrace} (ht : t.Kept rate now)
    (hclock : (now :: ops.filterMap ApuOp.writeClock).Pairwise (· ≤ ·)) :
    ∃ now', (ops.foldl (ApuOp.step rate access) t).Kept rate now' := by
  induction ops generalizing now t with
  | nil => exact ⟨now, ht⟩
  | cons op ops ih =>
    cases op with
    | read reg master => exact ih (ht.spcRun access _) hclock
    | run cycles => exact ih (ht.spcRun access _) hclock
    | write reg v master =>
      have hrest := List.pairwise_cons.mp hclock
      exact ih ((ht.spcRun access _).store hrate (hrest.1 _ List.mem_cons_self)) hrest.2

/-- Whatever the SPC700 does and whenever the CPU writes, at clocks that never go back: each
cycle's read finds the ports some of the posts make, never fewer than the cycle before ended
with, and each cycle ends with all posts shown. -/
theorem apu_ports_in_order (rate : ℚ) (hrate : 0 < rate) (access : Nat → SpcAccess)
    (ops : List ApuOp) (hclock : (ops.filterMap ApuOp.writeClock).Pairwise (· ≤ ·)) :
    let t := apuRun rate access ops
    InOrder PortPost.apply (Vector.replicate 4 0) t.log 0 t.cycles ∧
      ∃ n, lastPosted 0 t.cycles ≤ n ∧ n ≤ t.log.length ∧ t.ports.portVis = portsAfter t.log n := by
  have hstart : ApuTrace.Kept rate 0 ⟨apuPortsReset, [], []⟩ :=
    ⟨rfl, ⟨0, Nat.le_refl _, Nat.le_refl _, rfl, fun _ => rfl⟩,
      fun hp => absurd hp Bool.false_ne_true, trivial⟩
  have hclock' : (0 :: ops.filterMap ApuOp.writeClock).Pairwise (· ≤ ·) :=
    List.pairwise_cons.mpr ⟨fun _ _ => Nat.zero_le _, hclock⟩
  obtain ⟨now, hkept⟩ := apuRun_kept hrate access hstart hclock'
  obtain ⟨n, hlast, hn, hvis, -⟩ := hkept.portVis
  exact ⟨hkept.cycles, n, hlast, hn, hvis⟩

/-- Half-cycles a master clock, as `SPC_HALF_PER_MASTER` has it. -/
def spcHalfPerMaster : ℚ := 32040 * 64 / 21477270

/-- Two writes a cycle apart: the first is put off, the second finds it shown. -/
theorem apu_ports_put_off :
    let ops : List ApuOp := [.write 0x2140 0x5A 60, .run 1, .write 0x2145 0x77 61]
    let t := apuRun spcHalfPerMaster (fun _ => .idle) ops
    t.ports.portVis = #v[0x5A, 0x77, 0, 0] ∧
      InOrder PortPost.apply (Vector.replicate 4 0) t.log 0 t.cycles :=
  ⟨by decide +kernel, (apu_ports_in_order spcHalfPerMaster (by decide +kernel) (fun _ => .idle)
    [.write 0x2140 0x5A 60, .run 1, .write 0x2145 0x77 61] (by decide +kernel)).1⟩

end CtRecomp
