import CtRecomp.CycleEmitted

namespace CtRecomp

/-! The cycles listed for an instruction, in the interpreter and in compiled code. -/

/-- The bus log of these operand fetches and these data accesses, in the order they
were made. -/
structure BusLog (fetched : List Nat) (data : List Access) (log : List LogEntry) : Prop where
  fetches : log.filter (fun e => e.fetch == true) = fetched.map fun k => ⟨k, false, true⟩
  data : log.filter (fun e => e.fetch == false) = data.map fun a => ⟨a.clocks, a.write, false⟩

section

variable {σ : Type} [Board σ]

/-- `emulation_ok` -/
def emulationOk (op : BitVec 8) : Bool :=
  op ∈ [0x18, 0x38, 0x58, 0x78, 0xD8, 0xF8, 0xB8, 0xFB, 0xEA, 0xC2, 0xE2, 0xA9, 0xA2, 0xA0, 0x4C,
    0x5C, 0x10, 0x30, 0x50, 0x70, 0x90, 0xB0, 0xD0, 0xF0, 0x80]

/-- `cyc_begin` in its place: the bus log and the cycle flags start over. -/
def cycStart (c : RegFile) (site : BitVec 24) (op : BitVec 8) : BusM σ Cur := fun w =>
  some (cycBegin w.bus c site op, { w with log := [], cross := false, taken := false })

/-- `interp_step` until `cyc_finish`: what was begun, and the state after. -/
def interpStep (h : Host σ) (c : Exec) : BusM σ (Cur × Exec) :=
  if c.waiting then ctFatal
  else do
    let (op, c') ← fetch8 c
    if c'.e && !emulationOk op then ctFatal
    else
      let cur ← cycStart c'.toRegFile c.pbpc op
      let c' ← step { h with sys := true } { c' with fetched := [] } c.pbpc op
      return (cur, c')

/-- The instruction was not compiled for a wider M or X than the CPU has, nor for
native mode when the CPU is in emulation mode, as far as its data accesses go. -/
structure Insn.Suits (i : Insn) (c : RegFile) : Prop where
  m : 0 < (accessTally i.mnemonic i.mode).m → i.m = some false → c.m = false
  x : 0 < (accessTally i.mnemonic i.mode).x → i.x = some false → c.x = false
  e : 0 < (accessTally i.mnemonic i.mode).native → c.e = false

instance (i : Insn) (c : RegFile) : Decidable (i.Suits c) :=
  decidable_of_iff
    ((0 < (accessTally i.mnemonic i.mode).m → i.m = some false → c.m = false) ∧
      (0 < (accessTally i.mnemonic i.mode).x → i.x = some false → c.x = false) ∧
      (0 < (accessTally i.mnemonic i.mode).native → c.e = false))
    ⟨fun ⟨hm, hx, he⟩ => ⟨hm, hx, he⟩, fun ⟨hm, hx, he⟩ => ⟨hm, hx, he⟩⟩

end

section

variable {fetched : List Nat} {data : List Access} {log : List LogEntry}

theorem BusLog.fetch_length (h : BusLog fetched data log) :
    (log.filter fun e => e.fetch == true).length = fetched.length := by
  rw [h.fetches, List.length_map]

theorem BusLog.data_length (h : BusLog fetched data log) :
    (log.filter fun e => e.fetch == false).length = data.length := by
  rw [h.data, List.length_map]

theorem BusLog.length (h : BusLog fetched data log) :
    log.length = fetched.length + data.length := by
  rw [← h.fetch_length, ← h.data_length]
  exact (filter_fetch log).1.symm

theorem BusLog.clocks (h : BusLog fetched data log) (hf : ∀ k ∈ fetched, 6 ≤ k)
    (hd : ∀ a ∈ data, 6 ≤ a.clocks) : ∀ e ∈ log, 6 ≤ e.clocks := by
  intro e he
  cases hfetch : e.fetch with
  | true =>
    have hmem : e ∈ log.filter fun e => e.fetch == true :=
      List.mem_filter.mpr ⟨he, by rw [hfetch]; rfl⟩
    rw [h.fetches] at hmem
    obtain ⟨k, hk, rfl⟩ := List.mem_map.mp hmem
    exact hf k hk
  | false =>
    have hmem : e ∈ log.filter fun e => e.fetch == false :=
      List.mem_filter.mpr ⟨he, by rw [hfetch]; rfl⟩
    rw [h.data] at hmem
    obtain ⟨a, ha, rfl⟩ := List.mem_map.mp hmem
    exact hd a ha

end

section

variable {cur : Cur} {t : List CycleLetter}

theorem accessTally_eq {mn : Mnemonic} {md : AddrMode} (ht : tmpl cur.op = some t)
    (hop : opcodes cur.op = (mn, md)) :
    (accessTally mn md).at cur.m16 cur.x16 cur.native = cur.accesses t := by
  have hagree := tmpl_agrees ht
  unfold opcodeAgrees at hagree
  rw [hop] at hagree
  rw [hagree.2.2.1]
  rfl

theorem operandTally_eq {mn : Mnemonic} {md : AddrMode} (ht : tmpl cur.op = some t)
    (hop : opcodes cur.op = (mn, md)) :
    (operandTally mn md).at cur.m16 cur.x16 cur.native = cur.operands t := by
  have hagree := tmpl_agrees ht
  unfold opcodeAgrees at hagree
  rw [hop] at hagree
  rw [hagree.2.1]
  simp [Tally.at, Cur.operands]

theorem curSize_eq (ht : tmpl cur.op = some t) :
    curSize cur.op cur.m16 cur.x16 - 1 = cur.operands t := by
  obtain ⟨-, -, -, hsize, hp, hq, -⟩ := tmpl_agrees ht
  unfold curSize Cur.operands
  rw [hsize, ← hp, ← hq]
  cases cur.m16 <;> cases cur.x16 <;> simp <;> omega

end

section

variable {σ : Type} [Board σ]

theorem cycMasterPerCycle_ge (fastrom : Bool) (pb : BitVec 8) (pc : BitVec 16) :
    6 ≤ cycMasterPerCycle fastrom pb pc := by
  unfold cycMasterPerCycle
  dsimp only
  split <;> omega

theorem step_tallied (h : Host σ) (hsys : h.sys = true) (c : Exec) (site : BitVec 24)
    (op : BitVec 8) : Tallied (step h c site op) c (opcodes op).1 (opcodes op).2 := by
  have hs := step_eq_stepBy h c site op.toFin
  change step h c site op = stepBy h c site (opcodes op).1 (opcodes op).2 at hs
  rw [hs]
  exact stepBy_makes h c site _ _ hsys

/-- What `interp_step` is, where it ends. -/
theorem interpStep_runs {h : Host σ} {c c' : Exec} {w w' : Wire σ} {cur : Cur}
    (hrun : interpStep h c w = some ((cur, c'), w')) :
    ∃ (c₁ : Exec) (w₁ : Wire σ) (op : BitVec 8),
      cur = cycBegin w₁.bus c₁.toRegFile c.pbpc op ∧
      step { h with sys := true } { c₁ with fetched := [] } c.pbpc op
        { w₁ with log := [], cross := false, taken := false } = some (c', w') := by
  unfold interpStep at hrun
  by_cases hw : c.waiting
  · rw [if_pos hw] at hrun
    cases hrun
  rw [if_neg hw] at hrun
  obtain ⟨⟨⟨op, c₁⟩, w₁⟩, -, hrun⟩ := Option.bind_eq_some_iff.mp hrun
  dsimp only at hrun
  by_cases he : c₁.e && !emulationOk op
  · rw [if_pos he] at hrun
    cases hrun
  rw [if_neg he] at hrun
  obtain ⟨⟨c₂, w₂⟩, hstep, hrun⟩ := Option.bind_eq_some_iff.mp hrun
  cases hrun
  exact ⟨c₁, w₁, op, rfl, hstep⟩

/-- The interpreter's half. -/
theorem interpStep_listed {h : Host σ} {c c' : Exec} {w w' : Wire σ} {cur : Cur}
    {log : List LogEntry} (hrun : interpStep h c w = some ((cur, c'), w'))
    (hlog : BusLog c'.fetched w'.log log)
    (hclocks : modelClocks cur w'.cross w'.taken log ≠ none) :
    CyclesListed cur w'.cross w'.taken log := by
  obtain ⟨t, ht⟩ := tmpl_of_clocks hclocks
  obtain ⟨c₁, w₁, op, hcur, hstep⟩ := interpStep_runs hrun
  obtain ⟨⟨l, hl, hlen, hlclk⟩, data, hdata, hdlen, hdclk⟩ :=
    step_tallied { h with sys := true } rfl { c₁ with fetched := [] } c.pbpc op _ _ _ hstep
  change c'.fetched = [] ++ l at hl
  change w'.log = [] ++ data at hdata
  rw [List.nil_append] at hl hdata
  rw [hl, hdata] at hlog
  have hop : cur.op = op := by rw [hcur]; rfl
  have hpair : opcodes cur.op = ((opcodes op).1, (opcodes op).2) := by rw [hop]
  have hm : cur.m16 = !c₁.m := by rw [hcur]; rfl
  have hx : cur.x16 = !c₁.x := by rw [hcur]; rfl
  have hn : cur.native = !c₁.e := by rw [hcur]; rfl
  have hcomp : cur.compiled = false := by rw [hcur]; rfl
  have hops := operandTally_eq ht hpair
  have haccs := accessTally_eq ht hpair
  rw [hm, hx, hn] at hops haccs
  refine cyclesListed ht (by rw [hcur]; rfl) ?_ (hlog.clocks hlclk hdclk) ?_ ?_ ?_ _ _
  · rw [hcur]
    exact cycMasterPerCycle_ge _ _ _
  · rw [hlog.fetch_length, hlen, hcomp, Bool.not_false, Bool.toNat_true, Nat.one_mul]
    exact hops
  · rw [hlog.data_length, hdlen]
    exact Nat.le_of_eq haccs
  · rw [hcomp]
    exact fun hc => Bool.noConfusion hc

/-- The statements of an instruction fit its template. -/
theorem suits_iff {i : Insn} {c : RegFile} {n : Nat}
    (hn : n = i.made ∨ accessTally i.mnemonic i.mode = .const (n + 2)) :
    n ≤ (accessTally i.mnemonic i.mode).at (!c.m) (!c.x) (!c.e) ↔ i.Suits c := by
  rcases hn with rfl | hconst
  · have hf := tallyFacts i.mnemonic i.mode
    unfold Insn.made Tally.at
    cases hdep : widthDependency i.mnemonic with
    | none =>
      obtain ⟨hm, hx⟩ := hf.none hdep
      rw [hm, hx]
      refine ⟨fun h => ⟨by simp [hm], by simp [hx], fun hpos => ?_⟩, fun h => ?_⟩
      · cases he : c.e with
        | false => rfl
        | true =>
          simp [he] at h
          omega
      · rcases Nat.eq_zero_or_pos (accessTally i.mnemonic i.mode).native with hz | hpos
        · simp [hz]
        · simp [h.e hpos]
    | some dep =>
      cases dep with
      | m =>
        obtain ⟨hx, hn⟩ := hf.m hdep
        rw [hx, hn]
        refine ⟨fun h => ⟨fun hpos him => ?_, by simp [hx], by simp [hn]⟩, fun h => ?_⟩
        · cases hm : c.m with
          | false => rfl
          | true =>
            simp [him, hm] at h
            omega
        · rcases Nat.eq_zero_or_pos (accessTally i.mnemonic i.mode).m with hz | hpos
          · simp [hz]
          · by_cases him : i.m = some false
            · simp [him, h.m hpos him]
            · simp [him]
      | x =>
        obtain ⟨hm, hn⟩ := hf.x hdep
        rw [hm, hn]
        refine ⟨fun h => ⟨by simp [hm], fun hpos hix => ?_, by simp [hn]⟩, fun h => ?_⟩
        · cases hx : c.x with
          | false => rfl
          | true =>
            simp [hix, hx] at h
            omega
        · rcases Nat.eq_zero_or_pos (accessTally i.mnemonic i.mode).x with hz | hpos
          · simp [hz]
          · by_cases hix : i.x = some false
            · simp [hix, h.x hpos hix]
            · simp [hix]
  · rw [hconst, Tally.at_const]
    refine ⟨fun _ => ⟨?_, ?_, ?_⟩, fun _ => by omega⟩ <;> rw [hconst] <;> intro hpos <;>
      exact absurd hpos (Nat.lt_irrefl 0)

theorem uncounted_ops : ∀ op, tmpl op = none → op = 0x00 ∨ op = 0x02 ∨ op = 0x42 := by
  decide +kernel

/-- BRK and COP stop, WDM is not emitted. -/
theorem uncounted_stuck {i : Insn}
    (hop : i.opcode = 0x00 ∨ i.opcode = 0x02 ∨ i.opcode = 0x42)
    {body : RegFile → BusM σ (RegFile × Flow)} (hb : plainBody i = some body) {r r' : RegFile}
    {w w' : Wire σ} (hrun : (do let (r, _) ← body r; return r : BusM σ RegFile) w = some (r', w')) :
    False := by
  unfold plainBody at hb
  split at hb
  next hjmp =>
    rw [hjmp] at hop
    revert hop
    decide
  next =>
    obtain ⟨wd, hwd, hb⟩ := Option.bind_eq_some_iff.mp hb
    obtain ⟨t, ht, hb'⟩ := Option.bind_eq_some_iff.mp hb
    rcases hop with hop | hop | hop
    · rw [hop] at ht
      cases wd <;> cases ht
      cases hb'
      cases hrun
    · rw [hop] at ht
      cases wd <;> cases ht
      cases hb'
      cases hrun
    · rw [hop] at ht
      cases wd <;> cases ht

/-- Nothing without a template is emitted. -/
theorem emitted_tmpl {i : Insn} {f : RegFile → BusM σ RegFile} {r r' : RegFile} {w w' : Wire σ}
    (he : Emitted i f) (hrun : f r w = some (r', w')) :
    ∃ t, tmpl i.opcode = some t := by
  cases ht : tmpl i.opcode with
  | some t => exact ⟨t, rfl⟩
  | none =>
    exfalso
    have hop := uncounted_ops i.opcode ht
    have hnot {op : BitVec 8} (h : i.opcode = op) : ¬(op = 0x00 ∨ op = 0x02 ∨ op = 0x42) → False :=
      fun hne => hne (h ▸ hop)
    cases he with
    | plain h hmvn => exact uncounted_stuck hop h hrun
    | move h => exact hnot h (by decide)
    | ret h pb pc =>
      rcases ret_templates h with ⟨h, -⟩ | ⟨h, -⟩
      · exact hnot h (by decide)
      · exact hnot h (by decide)
    | rti h pb pc => exact hnot h (by decide)
    | call h => exact hnot h (by decide)
    | callLong h => exact hnot h (by decide)
    | tail h =>
      rcases h with h | h
      · exact hnot h (by decide)
      · exact hnot h (by decide)
    | tableJump h => exact hnot h (by decide)
    | tableCall h => exact hnot h (by decide)
    | dynJump h => exact hnot h (by decide)
    | dynCall h => exact hnot h (by decide)

/-- No instruction overruns the bus log. -/
theorem made_le {i : Insn} {t : List CycleLetter} (hd : i.Decoded)
    (ht : tmpl i.opcode = some t) : i.made ≤ 9 := by
  let cur : Cur := ⟨i.opcode, i.m = some false, i.x = some false, false, true, false, true, 6, 0⟩
  obtain ⟨-, -, -, hd'⟩ := slots_count cur false false t
  have htmpl : tmpl cur.op = some t := ht
  have hmade : i.made = cur.accesses t := accessTally_eq htmpl hd.op
  rw [hmade, ← hd']
  have hcount := List.count_le_length (a := Slot.logged false)
    (l := t.filterMap (cur.slot false false))
  exact Nat.le_trans hcount
    (Nat.le_trans (List.length_filterMap_le _ _) (tmpl_agrees ht).2.2.2.2.2.2)

/-- The data accesses compiled code makes for an instruction. -/
theorem emitted_log {i : Insn} {f : RegFile → BusM σ RegFile} {r r' : RegFile} {w w' : Wire σ}
    (hd : i.Decoded) (he : Emitted i f) (hstart : w.log = []) (hrun : f r w = some (r', w')) :
    ∃ t, tmpl i.opcode = some t ∧ w'.log.length ≤ 9 ∧ (∀ a ∈ w'.log, 6 ≤ a.clocks) ∧
      (w'.log.length = i.made ∨
        accessTally i.mnemonic i.mode = .const (w'.log.length + 2)) := by
  obtain ⟨t, ht⟩ := emitted_tmpl he hrun
  obtain ⟨n, hmakes, hn⟩ := emitted_makes hd he r
  obtain ⟨-, data, hdata, rfl, hclk⟩ := hmakes w r' w' hrun
  rw [hstart, List.nil_append] at hdata
  rw [hdata]
  refine ⟨t, ht, ?_, hclk, hn⟩
  have hmade := made_le hd ht
  rcases hn with heq | hconst
  · omega
  · have hconst' : i.made = data.length + 2 := by rw [Insn.made, hconst, Tally.at_const]
    omega

/-- Compiled code's half. -/
theorem emitted_listed {i : Insn} {f : RegFile → BusM σ RegFile} {r r' : RegFile} {w w' : Wire σ}
    {log : List LogEntry} (hd : i.Decoded) (he : Emitted i f) (hstart : w.log = [])
    (hrun : f r w = some (r', w')) (hlog : BusLog [] w'.log log) :
    CyclesListed (cycBeginCompiled w.bus r i.addr i.opcode) w'.cross w'.taken log ↔ i.Suits r := by
  obtain ⟨t, ht, hlen, hclk, hn⟩ := emitted_log hd he hstart hrun
  generalize hcur : cycBeginCompiled w.bus r i.addr i.opcode = cur
  have hop : cur.op = i.opcode := by rw [← hcur]; rfl
  have hcomp : cur.compiled = true := by rw [← hcur]; rfl
  have hint : cur.interrupt = false := by rw [← hcur]; rfl
  have hspeed : 6 ≤ cur.speed := by
    rw [← hcur]
    exact cycMasterPerCycle_ge _ _ _
  have hsize : cur.size = curSize cur.op cur.m16 cur.x16 := by rw [← hcur]; rfl
  have hwidths : cur.m16 = (!r.m) ∧ cur.x16 = (!r.x) ∧ cur.native = (!r.e) := by
    rw [← hcur]
    exact ⟨rfl, rfl, rfl⟩
  rw [← hop] at ht
  have haccs := accessTally_eq ht (hop ▸ hd.op)
  rw [hwidths.1, hwidths.2.1, hwidths.2.2] at haccs
  rw [← suits_iff hn, haccs]
  constructor
  · intro hlisted
    rw [← hlog.data_length]
    refine cyclesListed_data_le ht hint ?_ hlisted
    rw [hlog.length, List.length_nil, ctBusLog]
    omega
  · intro hfits
    refine cyclesListed ht hint hspeed (hlog.clocks (by simp) hclk) ?_ ?_ ?_ _ _
    · rw [hlog.fetch_length, hcomp]
      simp
    · rw [hlog.data_length]
      exact hfits
    · intro _
      rw [hsize]
      exact curSize_eq ht

/-- Suited or not, the cycles listed for a compiled instruction are no longer than its
count. -/
theorem emitted_le {i : Insn} {f : RegFile → BusM σ RegFile} {r r' : RegFile} {w w' : Wire σ}
    {log : List LogEntry} (hd : i.Decoded) (he : Emitted i f) (hstart : w.log = [])
    (hrun : f r w = some (r', w')) (hlog : BusLog [] w'.log log) {cur : Cur}
    (hcur : cycBeginCompiled w.bus r i.addr i.opcode = cur) :
    cycCycles cur w'.cross w'.taken log none ≠ [] ∧
      ∀ n, modelClocks cur w'.cross w'.taken log = some n →
        ((cycCycles cur w'.cross w'.taken log none).map Cycle.clk).sum ≤ n := by
  obtain ⟨t, ht, hlen, hclk, -⟩ := emitted_log hd he hstart hrun
  have hop : cur.op = i.opcode := by rw [← hcur]; rfl
  have hcomp : cur.compiled = true := by rw [← hcur]; rfl
  have hsize : cur.size = curSize cur.op cur.m16 cur.x16 := by rw [← hcur]; rfl
  have hspeed : 6 ≤ cur.speed := by
    rw [← hcur]
    exact cycMasterPerCycle_ge _ _ _
  rw [← hop] at ht
  refine cycles_le ht (by rw [← hcur]; rfl) hspeed (hlog.clocks (by simp) hclk) ?_ ?_ ?_ _ _
  · rw [hlog.length, List.length_nil, ctBusLog]
    omega
  · rw [hlog.fetch_length, hcomp]
    exact (Nat.zero_mul _).symm
  · intro _
    rw [hsize]
    exact curSize_eq ht

/-- An interpreted instruction is listed cycle by cycle as it is counted; a compiled one
exactly when it suits the CPU's M, X and E. -/
theorem cycles_listed :
    (∀ (h : Host σ) (c c' : Exec) (w w' : Wire σ) (cur : Cur) (log : List LogEntry),
      interpStep h c w = some ((cur, c'), w') → BusLog c'.fetched w'.log log →
      modelClocks cur w'.cross w'.taken log ≠ none → CyclesListed cur w'.cross w'.taken log) ∧
    ∀ (i : Insn) (f : RegFile → BusM σ RegFile) (r r' : RegFile) (w w' : Wire σ)
      (log : List LogEntry), i.Decoded → Emitted i f → w.log = [] → f r w = some (r', w') →
      BusLog [] w'.log log →
      (CyclesListed (cycBeginCompiled w.bus r i.addr i.opcode) w'.cross w'.taken log ↔ i.Suits r) :=
  ⟨fun _ _ _ _ _ _ _ hrun hlog hclocks => interpStep_listed hrun hlog hclocks,
    fun _ _ _ _ _ _ _ hd he hstart hrun hlog => emitted_listed hd he hstart hrun hlog⟩

end

/-- The accesses of `TSB $0010` with an 8-bit A. -/
def tsbLog (fetches : List LogEntry) : List LogEntry := fetches ++ [⟨8, false, false⟩, ⟨8, true, false⟩]

theorem cycles_listed_tsb :
    (∃ cur c' w', interpStep ⟨true, [], []⟩ (probeExec 0xC00001) probeWire = some ((cur, c'), w') ∧
      CyclesListed cur w'.cross w'.taken (tsbLog [⟨8, false, true⟩, ⟨8, false, true⟩])) ∧
    ∃ f r' w', Emitted (σ := Probe) tsbInsn f ∧ f probeRegs probeWire = some (r', w') ∧
      CyclesListed (cycBeginCompiled probeWire.bus probeRegs tsbInsn.addr tsbInsn.opcode) w'.cross
        w'.taken (tsbLog []) := by
  refine ⟨⟨_, _, _, rfl, ?_⟩, _, _, _, .plain rfl (by decide), rfl, ?_⟩
  · exact cycles_listed.1 ⟨true, [], []⟩ (probeExec 0xC00001) _ probeWire _ _ _ rfl
      ⟨by rfl, by rfl⟩ (by decide +kernel)
  · exact (cycles_listed.2 tsbInsn _ probeRegs _ probeWire _ _ ⟨rfl, rfl, by decide⟩
      (.plain rfl (by decide)) rfl rfl ⟨by rfl, by rfl⟩).mpr (by decide)

/-- `LDA $0010` compiled for a 16-bit A. -/
def wideInsn : Insn := ⟨0xC00001, 0xAD, .LDA, .abs, 0x10, 3, some false, some false, false⟩

/-- Run with M = 1, it makes an access that is not listed. -/
theorem cycles_unlisted_wide : ¬∀ (i : Insn) (f : RegFile → BusM Probe RegFile) (r r' : RegFile)
    (w w' : Wire Probe) (log : List LogEntry), i.Decoded → Emitted i f → w.log = [] →
    f r w = some (r', w') → BusLog [] w'.log log →
    CyclesListed (cycBeginCompiled w.bus r i.addr i.opcode) w'.cross w'.taken log := by
  intro hall
  have hlisted := hall wideInsn _ probeRegs _ probeWire _ [⟨8, false, false⟩, ⟨8, false, false⟩]
    ⟨rfl, rfl, by decide⟩ (.plain rfl (by decide)) rfl rfl ⟨by rfl, by rfl⟩
  have hsum := hlisted.sum
  revert hsum
  decide +kernel

end CtRecomp
