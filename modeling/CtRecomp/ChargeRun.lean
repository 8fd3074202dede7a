import CtRecomp.ChargeWhole
import CtRecomp.CycleAgree

namespace CtRecomp

/-! What has just been executed when `charge` is called, with the cycles it is charged
by. -/

section

variable {σ : Type} [Board σ]

/-- `cyc_begin_interrupt` in its place. -/
def cycStartInterrupt (c : Cpu) : BusM σ Cur := fun w =>
  some (cycBeginInterrupt w.bus c, { w with log := [], cross := false, taken := false })

/-- The pushes and the vector reads of `interp_interrupt`. -/
def enterVector (c : Exec) (nmi : Bool) : BusM σ Exec := do
  let r ← push c.toRegFile c.PB
  let r ← pushw r c.PC
  let r ← push r (packP r)
  let vec : BitVec 24 := if nmi then 0xFFEA else 0xFFEE
  let lo ← read8 vec
  let hi ← read8 (vec + 1)
  return { c with toCpu := ⟨{ r with i := true, d := false }, 0, hi ++ lo⟩, waiting := false }

/-- `interp_interrupt`: what was begun, and the state after. -/
def interpInterrupt (c : Exec) (nmi : Bool) : BusM σ (Cur × Exec) :=
  if c.e then ctFatal
  else do
    let cur ← cycStartInterrupt c.toCpu
    let c' ← enterVector c nmi
    return (cur, c')

/-- Its clocks: a fetch, an internal cycle, and the bus accesses. -/
def interruptClocks (cur : Cur) (log : List LogEntry) : Nat :=
  cur.speed + 6 + (log.map LogEntry.clocks).sum

/-- An instruction, interpreted or compiled, or an interrupt entry has just run as `b`;
`fits` unless it is compiled and does not suit the CPU's M, X and E. -/
inductive JustRun (σ : Type) [Board σ] : Bool → Begun → Prop
  | interp {h : Host σ} {c c' : Exec} {w w' : Wire σ} {cur : Cur} {log : List LogEntry}
      {clocks : Nat} (run : interpStep h c w = some ((cur, c'), w'))
      (hlog : BusLog c'.fetched w'.log log)
      (hclocks : modelClocks cur w'.cross w'.taken log = some clocks) :
      JustRun σ true ⟨clocks, cycCycles cur w'.cross w'.taken log none⟩
  | compiled {i : Insn} {f : RegFile → BusM σ RegFile} {r r' : RegFile} {w w' : Wire σ}
      {cur : Cur} {log : List LogEntry} {clocks : Nat} (hd : i.Decoded) (he : Emitted i f)
      (start : w.log = []) (run : f r w = some (r', w')) (hlog : BusLog [] w'.log log)
      (begun : cycBeginCompiled w.bus r i.addr i.opcode = cur)
      (hclocks : modelClocks cur w'.cross w'.taken log = some clocks) :
      JustRun σ (decide (i.Suits r))
        ⟨clocks, cycCycles cur w'.cross w'.taken log none⟩
  | interrupt {c c' : Exec} {nmi : Bool} {w w' : Wire σ} {cur : Cur} {log : List LogEntry}
      (run : interpInterrupt c nmi w = some ((cur, c'), w')) (hlog : BusLog [] w'.log log) :
      JustRun σ true
        ⟨interruptClocks cur log, cycCycles cur w'.cross w'.taken log none⟩

theorem enterVector_makes (c : Exec) (nmi : Bool) :
    Makes 6 (enterVector c nmi : BusM σ Exec) always :=
  (makes_push _ _).bind fun _ _ => (makes_pushw _ _).bind fun _ _ => (makes_push _ _).bind fun _ _ =>
    (makes_read8 _).bind fun _ _ => (makes_read8 _).then fun _ _ => .pure trivial

/-- What `interp_interrupt` is, where it ends. -/
theorem interpInterrupt_runs {c c' : Exec} {nmi : Bool} {w w' : Wire σ} {cur : Cur}
    (hrun : interpInterrupt c nmi w = some ((cur, c'), w')) :
    cur = cycBeginInterrupt w.bus c.toCpu ∧ w'.log.length = 6 ∧ ∀ a ∈ w'.log, 6 ≤ a.clocks := by
  unfold interpInterrupt at hrun
  by_cases he : c.e
  · rw [if_pos he] at hrun
    cases hrun
  rw [if_neg he] at hrun
  change (enterVector c nmi { w with log := [], cross := false, taken := false }).bind _ = _ at hrun
  obtain ⟨⟨c₁, w₁⟩, henter, hrun⟩ := Option.bind_eq_some_iff.mp hrun
  cases hrun
  obtain ⟨-, l, hl, hlen, hclk⟩ := enterVector_makes c nmi _ _ _ henter
  rw [hl, List.nil_append]
  exact ⟨rfl, hlen, hclk⟩

theorem slots_interrupt (cur : Cur) (cross taken : Bool) :
    tmplInt.filterMap (cur.slot cross taken) =
      [.fetch, .idle, .logged false, .logged false, .logged false, .logged false, .logged false,
        .logged false] := rfl

/-- The cycles of an entry are its clocks. -/
theorem interrupt_sum {cur : Cur} {data : List Access} {log : List LogEntry}
    (hint : cur.interrupt = true) (hlog : BusLog [] data log) (hlen : data.length = 6)
    (cross taken : Bool) :
    ((cycCycles cur cross taken log none).map Cycle.clk).sum = interruptClocks cur log := by
  have hlength : log.length = 6 := by
    rw [hlog.length, hlen]
    rfl
  obtain ⟨-, hclocks⟩ := filter_fetch log
  have hfetches : log.filter (fun e => e.fetch == true) = [] := hlog.fetches
  have hsum := cycleLoop_sum cur (tmplInt.filterMap (cur.slot cross taken)) log.zipIdx log.zipIdx
    (by rw [kindOf_length, hlog.fetch_length]; rfl)
  rw [slots_interrupt] at hsum
  have hdata : (kindOf false log.zipIdx).length = 6 := by
    rw [kindOf_length, hlog.data_length, hlen]
  have hcount : List.count (Slot.logged false) [.fetch, .idle, .logged false, .logged false,
    .logged false, .logged false, .logged false, .logged false] = 6 := rfl
  rw [hcount, List.take_of_length_le (Nat.le_of_eq hdata), hdata, kindOf_clocks, kindOf_clocks,
    hfetches] at hsum
  unfold cycCycles interruptClocks
  rw [hint, if_pos rfl, List.take_of_length_le (by rw [hlength, ctBusLog]; decide)]
  dsimp only
  rw [slots_interrupt, hsum, ← hclocks, hfetches]
  simp

theorem modelClocks_pos {cur : Cur} {cross taken : Bool} {log : List LogEntry} {n : Nat}
    (hspeed : 6 ≤ cur.speed) (h : modelClocks cur cross taken log = some n) : n ≠ 0 := by
  unfold modelClocks at h
  dsimp only at h
  by_cases hz : cur.count cross taken = 0
  · rw [if_pos hz] at h
    cases h
  · rw [if_neg hz] at h
    have hpos : 0 < cur.speed * (1 + if cur.compiled then cur.size - 1 else 0) :=
      Nat.mul_pos (by omega) (by omega)
    have heq := Option.some.inj h
    omega

theorem interruptClocks_pos (cur : Cur) (log : List LogEntry) : interruptClocks cur log ≠ 0 := by
  unfold interruptClocks
  omega

/-- The cycles listed against the clocks charged. -/
theorem JustRun.cycles {fits : Bool} {b : Begun} (h : JustRun σ fits b) :
    b.clocks ≠ 0 ∧ b.cycles ≠ [] ∧ (b.cycles.map Cycle.clk).sum ≤ b.clocks ∧
      (fits = true → (b.cycles.map Cycle.clk).sum = b.clocks) := by
  have listed {cur : Cur} {cross taken : Bool} {log : List LogEntry} {n : Nat}
      (hl : CyclesListed cur cross taken log) (hn : modelClocks cur cross taken log = some n) :
      ((cycCycles cur cross taken log none).map Cycle.clk).sum = n :=
    Option.some.inj (hl.sum.symm.trans hn)
  cases h with
  | interp run hlog hclocks =>
    have hl := interpStep_listed run hlog (by rw [hclocks]; exact Option.some_ne_none _)
    obtain ⟨c₁, w₁, op, hcur, -⟩ := interpStep_runs run
    have hsum := listed hl hclocks
    refine ⟨modelClocks_pos ?_ hclocks, hl.nonempty, Nat.le_of_eq hsum, fun _ => hsum⟩
    rw [hcur]
    exact cycMasterPerCycle_ge _ _ _
  | compiled hd he start run hlog begun hclocks =>
    have hlisted := emitted_listed hd he start run hlog
    obtain ⟨hsome, hle⟩ := emitted_le hd he start run hlog begun
    rw [begun] at hlisted
    refine ⟨modelClocks_pos ?_ hclocks, hsome, hle _ hclocks, fun hfits => ?_⟩
    · rw [← begun]
      exact cycMasterPerCycle_ge _ _ _
    · exact listed (hlisted.mpr (of_decide_eq_true hfits)) hclocks
  | @interrupt _ _ _ _ w' cur log run hlog =>
    obtain ⟨hcur, hlen, -⟩ := interpInterrupt_runs run
    have hint := congrArg Cur.interrupt hcur
    have hsum := interrupt_sum hint hlog hlen w'.cross w'.taken
    have hpos := interruptClocks_pos cur log
    refine ⟨hpos, fun hnil => hpos ?_, Nat.le_of_eq hsum, fun _ => hsum⟩
    have hnone : cycCycles cur w'.cross w'.taken log none = [] := hnil
    rw [hnone] at hsum
    exact hsum.symm

end

section

variable {δ : Type} {D : Devices δ} {good : Clock → RegAccess → Prop} {s : Sched δ} {σ : Type}
  [Board σ]

theorem JustRun.skips_iff {fits : Bool} {b : Begun} (insnI : Bool) (hb : JustRun σ fits b)
    (hs : HookRun D good s) (hquiet : inside D b.clocks s = false) :
    Skips D insnI b s ↔ (b.cycles.map Cycle.clk).sum = b.clocks := by
  obtain ⟨-, hsome, hle, -⟩ := hb.cycles
  exact CtRecomp.skips_iff insnI (inside_false hquiet) (hookRun_rested hs).refreshAt hsome hle

/-- Where nothing is inside, the walk skipped is the charge exactly when the cycles listed
add up to the clocks; so for an interpreted instruction, an interrupt entry, and a
compiled instruction that suits the CPU. -/
theorem charge_whole {fits : Bool} {b : Begun} (insnI : Bool) (hs : HookRun D good s)
    (hb : JustRun σ fits b) (hquiet : inside D b.clocks s = false) (takeIrq : Bool) :
    charge D insnI b s takeIrq = chargeWhole D insnI b s ∧
      (Skips D insnI b s ↔ (b.cycles.map Cycle.clk).sum = b.clocks) ∧
      (fits = true → (b.cycles.map Cycle.clk).sum = b.clocks) := by
  obtain ⟨hpos, -, -, hfits⟩ := hb.cycles
  refine ⟨?_, hb.skips_iff insnI hs hquiet, hfits⟩
  rw [charge_eq D insnI b s takeIrq hpos, if_pos hquiet]

end

/-- Once an instruction has been walked, the first line is quiet. -/
def startQuiet (clocks : Nat) : Bool :=
  match HookOp.runs idleDevices (fun _ _ => True) 186 () [.charge nopBegun] with
  | .ok s => !inside idleDevices clocks s
  | .error _ => false

theorem startQuiet_run {clocks : Nat} (h : startQuiet clocks = true) :
    ∃ s, HookRun idleDevices (fun _ _ => True) s ∧ inside idleDevices clocks s = false := by
  unfold startQuiet at h
  split at h
  next s hs => exact ⟨s, HookOp.runs_run hs, Bool.not_eq_true' _ ▸ h⟩
  next => cases h

theorem justRun_tsb : ∃ b, JustRun Probe true b ∧ b.clocks = 46 :=
  ⟨_, @JustRun.interp _ _ ⟨true, [], []⟩ (probeExec 0xC00001) _ probeWire _ _
    (tsbLog [⟨8, false, true⟩, ⟨8, false, true⟩]) 46 rfl ⟨by rfl, by rfl⟩ (by decide +kernel), rfl⟩

theorem charge_whole_tsb : ∃ s b, HookRun idleDevices (fun _ _ => True) s ∧ JustRun Probe true b ∧
    charge idleDevices false b s false = chargeWhole idleDevices false b s ∧
    Skips idleDevices false b s := by
  obtain ⟨b, hb, hclocks⟩ := justRun_tsb
  obtain ⟨s, hs, hquiet⟩ := @startQuiet_run 46 (by decide +kernel)
  rw [← hclocks] at hquiet
  obtain ⟨hwhole, hskips, hsum⟩ := charge_whole false hs hb hquiet false
  exact ⟨s, b, hs, hb, hwhole, hskips.mpr (hsum rfl)⟩

/-- `LDA $0010` compiled for a 16-bit A and run with M = 1: two accesses charged, one
listed. -/
theorem justRun_wide : ∃ b, JustRun Probe false b ∧ b.clocks = 40 ∧
    (b.cycles.map Cycle.clk).sum = 32 :=
  ⟨_, @JustRun.compiled _ _ wideInsn _ probeRegs _ probeWire _ _
    [⟨8, false, false⟩, ⟨8, false, false⟩] 40 ⟨rfl, rfl, by decide⟩ (.plain rfl (by decide)) rfl rfl
    ⟨by rfl, by rfl⟩ rfl (by decide +kernel), rfl, by decide +kernel⟩

/-- The walk of such an instruction ends eight clocks short of the charge. -/
theorem charge_whole_short : ¬∀ (s : Sched Unit) (fits : Bool) (b : Begun) (insnI : Bool),
    HookRun idleDevices (fun _ _ => True) s → JustRun Probe fits b →
    inside idleDevices b.clocks s = false → Skips idleDevices insnI b s := by
  intro hall
  obtain ⟨b, hb, hclocks, hsum⟩ := justRun_wide
  obtain ⟨s, hs, hquiet⟩ := @startQuiet_run 40 (by decide +kernel)
  rw [← hclocks] at hquiet
  have hskips := hall s false b false hs hb hquiet
  have heq := (hb.skips_iff false hs hquiet).mp hskips
  omega

end CtRecomp
