import CtRecomp.Cycles
import CtRecomp.StepBy

namespace CtRecomp

/-! The templates against the counts, and against what the instructions do. -/

/-- A number that may grow with M, X and E. -/
structure Tally where
  base : Nat
  m : Nat
  x : Nat
  native : Nat
deriving DecidableEq, Repr

def Tally.at (t : Tally) (m16 x16 native : Bool) : Nat :=
  t.base + m16.toNat * t.m + x16.toNat * t.x + (native.toNat * t.native)

def Tally.const (n : Nat) : Tally := ⟨n, 0, 0, 0⟩

def IMode.operandBytes : IMode → Nat
  | .abs | .absX | .absY => 2
  | .long | .longX => 3
  | _ => 1

/-- Reads of the pointer. -/
def IMode.pointerReads : IMode → Nat
  | .dpI | .dpXI | .dpIY | .srIY => 2
  | .dpIL | .dpILY => 3
  | _ => 0

/-- Operand bytes an instruction fetches. -/
def operandTally (mn : Mnemonic) (md : AddrMode) : Tally :=
  match mn with
  | .ORA | .AND | .EOR | .ADC | .LDA | .CMP | .SBC | .BIT =>
    if imode md = .imm then ⟨1, 1, 0, 0⟩ else .const (imode md).operandBytes
  | .LDX | .LDY | .CPX | .CPY =>
    if imode md = .imm then ⟨1, 0, 1, 0⟩ else .const (imode md).operandBytes
  | .STA | .STZ | .STX | .STY | .TSB | .TRB => .const (imode md).operandBytes
  | .ASL | .ROL | .LSR | .ROR | .INC | .DEC =>
    .const (if md = .acc then 0 else (imode md).operandBytes)
  | .BPL | .BMI | .BVC | .BVS | .BCC | .BCS | .BNE | .BEQ | .BRA | .REP | .SEP | .PEI | .WDM =>
    .const 1
  | .BRL | .PER | .PEA | .JMP | .JSR | .MVN | .MVP => .const 2
  | .JML => .const (if md = .long then 3 else 2)
  | .JSL => .const 3
  | _ => .const 0

/-- Data accesses it makes. -/
def accessTally (mn : Mnemonic) (md : AddrMode) : Tally :=
  match mn with
  | .ORA | .AND | .EOR | .ADC | .LDA | .CMP | .SBC | .BIT =>
    if imode md = .imm then .const 0 else ⟨(imode md).pointerReads + 1, 1, 0, 0⟩
  | .STA | .STZ => ⟨(imode md).pointerReads + 1, 1, 0, 0⟩
  | .LDX | .LDY | .CPX | .CPY =>
    if imode md = .imm then .const 0 else ⟨(imode md).pointerReads + 1, 0, 1, 0⟩
  | .STX | .STY => ⟨(imode md).pointerReads + 1, 0, 1, 0⟩
  | .ASL | .ROL | .LSR | .ROR | .INC | .DEC =>
    if md = .acc then .const 0 else ⟨(imode md).pointerReads + 2, 2, 0, 0⟩
  | .TSB | .TRB => ⟨(imode md).pointerReads + 2, 2, 0, 0⟩
  | .PHA | .PLA => ⟨1, 1, 0, 0⟩
  | .PHX | .PHY | .PLX | .PLY => ⟨1, 0, 1, 0⟩
  | .PHB | .PHK | .PHP | .PLB | .PLP => .const 1
  | .PHD | .PLD | .PEA | .PER | .RTS | .MVN | .MVP => .const 2
  | .PEI => .const 4
  | .JMP => .const (if md = .abs then 0 else 2)
  | .JML => .const (if md = .long then 0 else 3)
  | .JSR => .const (if md = .abs then 2 else 4)
  | .JSL | .RTL => .const 3
  | .RTI => ⟨3, 0, 0, 1⟩
  | _ => .const 0

/-- An opcode's template, its count and the opcode table are about the same cycles. -/
def opcodeAgrees (op : BitVec 8) (row : Nat × List Penalty) (t : List CycleLetter) : Prop :=
  let (mn, md) := opcodes op
  (row.1 = 1 + t.count .O + t.count .D + t.count .I ∧ t.count .F = 1 ∧
    row.2.count .M + 2 * row.2.count .M2 = t.count .m + t.count .p ∧
    row.2.count .X = t.count .w + t.count .q ∧ row.2.count .DL = t.count .d ∧
    row.2.count .IDX = t.count .x ∧ row.2.count .BR = t.count .b ∧
    row.2.count .RTI = t.count .n) ∧
  operandTally mn md = ⟨t.count .O, t.count .p, t.count .q, 0⟩ ∧
  accessTally mn md = ⟨t.count .D, t.count .m, t.count .w, t.count .n⟩ ∧
  opSizes.getD op.toNat 0 = 1 + t.count .O ∧
  (decide (op &&& 0x1F = 0x09)).toNat = t.count .p ∧
  (decide (op ∈ [0xA0, 0xA2, 0xC0, 0xE0])).toNat = t.count .q ∧ t.length ≤ 9

instance (op : BitVec 8) (row : Nat × List Penalty) (t : List CycleLetter) :
    Decidable (opcodeAgrees op row t) := by
  unfold opcodeAgrees
  infer_instance

theorem opcodeAgrees_all :
    ∀ e ∈ (cycleTable.zip templateTable).zipIdx, ∀ t ∈ e.1.2,
      opcodeAgrees (BitVec.ofNat 8 e.2) e.1.1 t := by
  decide +kernel

theorem assigned_length {α : Type} (init : α) (rows : List (Nat × α)) :
    (assigned init rows).length = 256 := by
  have hkeep (table : List α) : (rows.foldl (fun table row => table.set row.1 row.2) table).length =
      table.length := by
    induction rows generalizing table with
    | nil => rfl
    | cons row rows ih =>
      rw [List.foldl_cons, ih]
      exact List.length_set
  exact (hkeep _).trans List.length_replicate

theorem getElem?_table {α : Type} (init : α) (rows : List (Nat × α)) (d : α) (op : BitVec 8) :
    (assigned init rows)[op.toNat]? = some ((assigned init rows).getD op.toNat d) := by
  have hlt : op.toNat < (assigned init rows).length := by
    rw [assigned_length]
    exact op.isLt
  rw [List.getD, List.getElem?_eq_getElem hlt]
  rfl

theorem agrees_of_tables {rows : List (Nat × List Penalty)} {ts : List (Option (List CycleLetter))}
    (hall : ∀ e ∈ (rows.zip ts).zipIdx, ∀ t ∈ e.1.2, opcodeAgrees (BitVec.ofNat 8 e.2) e.1.1 t)
    {op : BitVec 8} {row : Nat × List Penalty} {t : List CycleLetter}
    (hrow : rows[op.toNat]? = some row) (ht : ts[op.toNat]? = some (some t)) :
    opcodeAgrees op row t := by
  have hmem : ((row, some t), op.toNat) ∈ (rows.zip ts).zipIdx := by
    rw [List.mem_zipIdx_iff_getElem?, List.getElem?_zip_eq_some]
    exact ⟨hrow, ht⟩
  have h := hall _ hmem t rfl
  rwa [BitVec.ofNat_toNat, BitVec.setWidth_eq] at h

/-- The check of one opcode. -/
theorem tmpl_agrees {op : BitVec 8} {t : List CycleLetter} (ht : tmpl op = some t) :
    opcodeAgrees op (cycleRow op) t := by
  refine agrees_of_tables opcodeAgrees_all (getElem?_table _ _ _ op) ?_
  rw [← ht]
  exact getElem?_table _ _ _ op

/-- Operand letters in use. -/
def Cur.operands (cur : Cur) (t : List CycleLetter) : Nat :=
  t.count .O + cur.m16.toNat * t.count .p + cur.x16.toNat * t.count .q

/-- Data letters in use. -/
def Cur.accesses (cur : Cur) (t : List CycleLetter) : Nat :=
  t.count .D + cur.m16.toNat * t.count .m + cur.x16.toNat * t.count .w +
    cur.native.toNat * t.count .n

/-- Internal ones. -/
def Cur.idles (cur : Cur) (cross taken : Bool) (t : List CycleLetter) : Nat :=
  t.count .I + cur.dl.toNat * t.count .d + (cross || cur.x16).toNat * t.count .x +
    taken.toNat * t.count .b

theorem slots_count (cur : Cur) (cross taken : Bool) (t : List CycleLetter) :
    (t.filterMap (cur.slot cross taken)).count .fetch =
        t.count .F + cur.compiled.toNat * cur.operands t ∧
      (t.filterMap (cur.slot cross taken)).count .idle = cur.idles cross taken t ∧
      (t.filterMap (cur.slot cross taken)).count (.logged true) =
        (!cur.compiled).toNat * cur.operands t ∧
      (t.filterMap (cur.slot cross taken)).count (.logged false) = cur.accesses t := by
  unfold Cur.operands Cur.accesses Cur.idles
  induction t with
  | nil => simp
  | cons l t ih =>
    obtain ⟨hf, hi, ho, hd⟩ := ih
    cases l with
    | F | I | D =>
      simp [Cur.slot, hf, hi, ho, hd]
      try omega
    | O | p | q =>
      cases hc : cur.compiled <;> cases hm : cur.m16 <;> cases hx : cur.x16 <;>
        simp [Cur.slot, hc, hm, hx] at hf hi ho hd ⊢ <;> omega
    | m => cases hm : cur.m16 <;> simp [Cur.slot, hm] at hf hi ho hd ⊢ <;> omega
    | w => cases hx : cur.x16 <;> simp [Cur.slot, hx] at hf hi ho hd ⊢ <;> omega
    | n => cases hn : cur.native <;> simp [Cur.slot, hn] at hf hi ho hd ⊢ <;> omega
    | d => cases hl : cur.dl <;> simp [Cur.slot, hl] at hf hi ho hd ⊢ <;> omega
    | b => cases taken <;> simp [Cur.slot] at hf hi ho hd ⊢ <;> omega
    | x =>
      cases hc : cross <;> cases hx : cur.x16 <;> simp [Cur.slot, hc, hx] at hf hi ho hd ⊢ <;> omega

theorem penalty_sum (cur : Cur) (cross taken : Bool) (pen : List Penalty) :
    (pen.map (cur.penalty cross taken)).sum =
      cur.m16.toNat * (pen.count .M + 2 * pen.count .M2) + cur.x16.toNat * pen.count .X +
        cur.dl.toNat * pen.count .DL + (cross || cur.x16).toNat * pen.count .IDX +
        taken.toNat * pen.count .BR + cur.native.toNat * pen.count .RTI := by
  induction pen with
  | nil => simp
  | cons a pen ih =>
    rw [List.map_cons, List.sum_cons, ih]
    cases a <;> simp [Cur.penalty, Nat.mul_add] <;> omega

/-- The count of an opcode is the number of its cycles. -/
theorem count_eq {cur : Cur} {t : List CycleLetter} (ht : tmpl cur.op = some t)
    (cross taken : Bool) :
    cur.count cross taken = 1 + cur.operands t + cur.accesses t + cur.idles cross taken t := by
  obtain ⟨⟨hbase, -, hm, hx, hd, hi, hb, hr⟩, -⟩ := tmpl_agrees ht
  unfold Cur.count Cur.operands Cur.accesses Cur.idles
  rw [penalty_sum, hbase, hm, hx, hd, hi, hb, hr]
  simp only [Nat.mul_add]
  omega

/-! The loop over the slots. -/

/-- The entries of one kind from a cursor on. -/
def kindOf (operand : Bool) (rest : List (LogEntry × Nat)) : List (LogEntry × Nat) :=
  rest.filter fun e => e.1.fetch == operand

theorem seek_nil {operand : Bool} {rest : List (LogEntry × Nat)} (h : seek operand rest = []) :
    kindOf operand rest = [] := by
  induction rest with
  | nil => rfl
  | cons a rest ih =>
    unfold seek at h ih
    unfold kindOf at ih ⊢
    rw [List.dropWhile_cons] at h
    rw [List.filter_cons]
    by_cases ha : a.1.fetch = operand
    · simp [ha] at h
    · simp only [bne_iff_ne, ne_eq, ha, not_false_eq_true, if_true] at h
      simp only [beq_iff_eq, ha, if_false]
      exact ih h

theorem seek_cons {operand : Bool} {rest rest' : List (LogEntry × Nat)} {e : LogEntry × Nat}
    (h : seek operand rest = e :: rest') :
    kindOf operand rest = e :: kindOf operand rest' := by
  induction rest with
  | nil => cases h
  | cons a rest ih =>
    unfold seek at h ih
    unfold kindOf at ih ⊢
    rw [List.dropWhile_cons] at h
    rw [List.filter_cons]
    by_cases ha : a.1.fetch = operand
    · simp only [ha, bne_self_eq_false, Bool.false_eq_true, if_false, List.cons.injEq] at h
      simp only [ha, beq_self_eq_true, if_true]
      rw [h.1, h.2]
    · simp only [bne_iff_ne, ne_eq, ha, not_false_eq_true, if_true] at h
      simp only [beq_iff_eq, ha, if_false]
      exact ih h

/-- What the loop makes of the log: the operands have their slots, the data as far as
there are slots for it. -/
theorem cycleLoop_sum (cur : Cur) (slots : List Slot) (fe da : List (LogEntry × Nat))
    (ho : (kindOf true fe).length = slots.count (.logged true)) :
    ((cycleLoop cur none slots fe da).map Cycle.clk).sum =
      cur.speed * slots.count .fetch + 6 * slots.count .idle +
        ((kindOf true fe).map fun e => e.1.clocks).sum +
        (((kindOf false da).take (slots.count (.logged false))).map fun e => e.1.clocks).sum +
        6 * (slots.count (.logged false) - (kindOf false da).length) := by
  induction slots generalizing fe da with
  | nil =>
    simp only [List.count_nil, List.length_eq_zero_iff] at ho
    simp [cycleLoop, ho]
  | cons slot slots ih =>
    cases slot with
    | fetch =>
      have h := ih fe da (by simpa using ho)
      simp only [cycleLoop, List.map_cons, List.sum_cons, h]
      simp [Nat.mul_add]
      omega
    | idle =>
      have h := ih fe da (by simpa using ho)
      simp only [cycleLoop, List.map_cons, List.sum_cons, h]
      simp
      omega
    | logged operand =>
      unfold cycleLoop
      cases operand with
      | true =>
        simp only [if_true]
        cases hs : seek true fe with
        | nil =>
          rw [seek_nil hs] at ho
          simp at ho
        | cons e rest =>
          obtain ⟨e, n⟩ := e
          rw [seek_cons hs] at ho ⊢
          have h := ih rest da (by simpa using ho)
          simp only [reduceCtorEq, if_false, List.map_cons, List.sum_cons, h]
          simp [LogEntry.cycle]
          omega
      | false =>
        simp only [Bool.false_eq_true, if_false]
        cases hs : seek false da with
        | nil =>
          have hnone := seek_nil hs
          have h := ih fe [] (by simpa using ho)
          simp only [Option.isSome_none, Bool.false_eq_true, if_false, List.map_cons,
            List.sum_cons, h, hnone]
          simp [kindOf]
          omega
        | cons e rest =>
          obtain ⟨e, n⟩ := e
          rw [seek_cons hs]
          have h := ih fe rest (by simpa using ho)
          simp only [reduceCtorEq, if_false, List.map_cons, List.sum_cons, h]
          simp [LogEntry.cycle]
          omega

/-- Entry `n` of the log is a data access. -/
def dataAt (log : List LogEntry) (n : Nat) : Bool := log[n]?.any fun e => !e.fetch

theorem mem_seek {operand : Bool} {rest rest' : List (LogEntry × Nat)} {e : LogEntry × Nat}
    (h : seek operand rest = e :: rest') : e.1.fetch = operand ∧ ∀ a ∈ e :: rest', a ∈ rest := by
  refine ⟨?_, fun a ha => ?_⟩
  · have hmem : e ∈ kindOf operand rest := by
      rw [seek_cons h]
      exact List.mem_cons_self
    exact beq_iff_eq.mp (List.mem_filter.mp hmem).2
  · rw [← h] at ha
    exact (List.dropWhile_sublist _).subset ha

/-- The logged data accesses have their cycles, in order, as far as there are slots. -/
theorem cycleLoop_data {log : List LogEntry} (cur : Cur) (slots : List Slot)
    (fe da : List (LogEntry × Nat)) (hfe : ∀ e ∈ fe, log[e.2]? = some e.1)
    (hda : ∀ e ∈ da, log[e.2]? = some e.1) :
    (cycleLoop cur none slots fe da).filter (fun c => c.idx.any (dataAt log)) =
      ((kindOf false da).take (slots.count (.logged false))).map fun e => e.1.cycle e.2 := by
  induction slots generalizing fe da with
  | nil => simp [cycleLoop]
  | cons slot slots ih =>
    cases slot with
    | fetch =>
      have h := ih fe da hfe hda
      simpa [cycleLoop] using h
    | idle =>
      have h := ih fe da hfe hda
      simpa [cycleLoop] using h
    | logged operand =>
      unfold cycleLoop
      cases operand with
      | true =>
        simp only [if_true]
        cases hs : seek true fe with
        | nil =>
          have h := ih [] da (by simp) hda
          simpa using h
        | cons e rest =>
          obtain ⟨e, n⟩ := e
          obtain ⟨hfetch, hmem⟩ := mem_seek hs
          have hlog := hfe _ (hmem _ List.mem_cons_self)
          have hnot : dataAt log n = false := by
            unfold dataAt
            rw [hlog, Option.any_some, hfetch]
            rfl
          have h := ih rest da (fun a ha => hfe a (hmem a (List.mem_cons_of_mem _ ha))) hda
          simpa [LogEntry.cycle, hnot] using h
      | false =>
        simp only [Bool.false_eq_true, if_false]
        cases hs : seek false da with
        | nil =>
          rw [seek_nil hs]
          have h := ih fe [] hfe (by simp)
          simpa [kindOf] using h
        | cons e rest =>
          obtain ⟨e, n⟩ := e
          obtain ⟨hfetch, hmem⟩ := mem_seek hs
          rw [seek_cons hs]
          have hlog := hda _ (hmem _ List.mem_cons_self)
          have hdata : dataAt log n = true := by
            unfold dataAt
            rw [hlog, Option.any_some, hfetch]
            rfl
          have h := ih fe rest hfe (fun a ha => hda a (hmem a (List.mem_cons_of_mem _ ha)))
          simpa [LogEntry.cycle, hdata] using h

theorem cycleLoop_clk {cur : Cur} {upto : Option Nat} {slots : List Slot}
    {fe da : List (LogEntry × Nat)} (hspeed : 6 ≤ cur.speed) (hfe : ∀ e ∈ fe, 6 ≤ e.1.clocks)
    (hda : ∀ e ∈ da, 6 ≤ e.1.clocks) : ∀ c ∈ cycleLoop cur upto slots fe da, 6 ≤ c.clk := by
  induction slots generalizing fe da with
  | nil => simp [cycleLoop]
  | cons slot slots ih =>
    cases slot with
    | fetch => 
      simp only [cycleLoop, List.forall_mem_cons]
      exact ⟨hspeed, ih hfe hda⟩
    | idle => 
      simp only [cycleLoop, List.forall_mem_cons]
      exact ⟨Nat.le_refl _, ih hfe hda⟩
    | logged operand =>
      unfold cycleLoop
      cases hs : seek operand (if operand = true then fe else da) with
      | nil =>
        dsimp only
        split
        · simp
        · rw [List.forall_mem_cons]
          refine ⟨Nat.le_refl _, ih ?_ ?_⟩
          · split
            · simp
            · exact hfe
          · split
            · exact hda
            · simp
      | cons e rest =>
        obtain ⟨e, n⟩ := e
        obtain ⟨-, hmem⟩ := mem_seek hs
        have hall : ∀ a ∈ (e, n) :: rest, 6 ≤ a.1.clocks := by
          intro a ha
          have hin := hmem a ha
          split at hin
          · exact hfe a hin
          · exact hda a hin
        rw [List.forall_mem_cons] at hall
        dsimp only
        rw [List.forall_mem_cons]
        refine ⟨hall.1, ?_⟩
        split
        · simp
        · refine ih ?_ ?_
          · split
            · exact hall.2
            · exact hfe
          · split
            · exact hda
            · exact hall.2

/-- What `cyc_cycles` lists of an instruction, with its bus log and its facts. -/
structure CyclesListed (cur : Cur) (cross taken : Bool) (log : List LogEntry) : Prop where
  sum : modelClocks cur cross taken log =
    some ((cycCycles cur cross taken log none).map Cycle.clk).sum
  accesses : (cycCycles cur cross taken log none).filter (fun c => c.idx.any (dataAt log)) =
    (log.zipIdx.filter fun e => !e.1.fetch).map fun e => e.1.cycle e.2
  clk : ∀ c ∈ cycCycles cur cross taken log none, 6 ≤ c.clk
  nonempty : cycCycles cur cross taken log none ≠ []

theorem kindOf_zipIdx (operand : Bool) (log : List LogEntry) :
    (kindOf operand log.zipIdx).map Prod.fst = log.filter fun e => e.fetch == operand := by
  have h := List.filter_map (f := Prod.fst) (l := log.zipIdx)
    (p := fun e : LogEntry => e.fetch == operand)
  rw [List.zipIdx_map_fst] at h
  exact h.symm

theorem kindOf_length (operand : Bool) (log : List LogEntry) :
    (kindOf operand log.zipIdx).length = (log.filter fun e => e.fetch == operand).length := by
  rw [← kindOf_zipIdx, List.length_map]

theorem kindOf_clocks (operand : Bool) (log : List LogEntry) :
    ((kindOf operand log.zipIdx).map fun e => e.1.clocks).sum =
      ((log.filter fun e => e.fetch == operand).map LogEntry.clocks).sum := by
  rw [← kindOf_zipIdx, List.map_map]
  rfl

/-- Fetches and data, counted apart. -/
theorem filter_fetch (log : List LogEntry) :
    (log.filter fun e => e.fetch == true).length + (log.filter fun e => e.fetch == false).length =
        log.length ∧
      ((log.filter fun e => e.fetch == true).map LogEntry.clocks).sum +
        ((log.filter fun e => e.fetch == false).map LogEntry.clocks).sum =
          (log.map LogEntry.clocks).sum := by
  induction log with
  | nil => exact ⟨rfl, rfl⟩
  | cons e log ih =>
    obtain ⟨hlen, hsum⟩ := ih
    cases he : e.fetch with
    | true =>
      simp [he] at hlen hsum ⊢
      omega
    | false =>
      simp [he] at hlen hsum ⊢
      omega

theorem cycCycles_eq {cur : Cur} {t : List CycleLetter} {log : List LogEntry}
    (ht : tmpl cur.op = some t) (hint : cur.interrupt = false) (hlen : log.length ≤ ctBusLog)
    (cross taken : Bool) : cycCycles cur cross taken log none =
      cycleLoop cur none (t.filterMap (cur.slot cross taken)) log.zipIdx log.zipIdx := by
  unfold cycCycles
  rw [hint, if_neg Bool.false_ne_true, ht, List.take_of_length_le hlen]

theorem mem_zipIdx {log : List LogEntry} : ∀ e ∈ log.zipIdx, log[e.2]? = some e.1 := fun _ he =>
  List.mem_zipIdx_iff_getElem?.mp he

/-- A template fits an instruction whose log has its operand fetches (compiled code
makes none) and no more data accesses than the template. -/
theorem cyclesListed {cur : Cur} {t : List CycleLetter} {log : List LogEntry}
    (ht : tmpl cur.op = some t) (hint : cur.interrupt = false) (hspeed : 6 ≤ cur.speed)
    (hclk : ∀ e ∈ log, 6 ≤ e.clocks)
    (hops : (log.filter fun e => e.fetch == true).length = (!cur.compiled).toNat * cur.operands t)
    (hdata : (log.filter fun e => e.fetch == false).length ≤ cur.accesses t)
    (hsize : cur.compiled = true → cur.size - 1 = cur.operands t) (cross taken : Bool) :
    CyclesListed cur cross taken log := by
  obtain ⟨hf, hi, ho, hd⟩ := slots_count cur cross taken t
  obtain ⟨hboth, hclocks⟩ := filter_fetch log
  have hslots : (t.filterMap (cur.slot cross taken)).length ≤ 9 :=
    Nat.le_trans (List.length_filterMap_le _ _) (tmpl_agrees ht).2.2.2.2.2.2
  have hlen : log.length ≤ ctBusLog := by
    have h1 := List.count_le_length (a := Slot.logged true) (l := t.filterMap (cur.slot cross taken))
    have h2 := List.count_le_length (a := Slot.logged false) (l := t.filterMap (cur.slot cross taken))
    simp only [ctBusLog]
    omega
  have hcycles := cycCycles_eq ht hint hlen cross taken
  have hzipClk : ∀ e ∈ log.zipIdx, 6 ≤ e.1.clocks := fun e he =>
    hclk e.1 (List.mem_of_getElem? (mem_zipIdx e he))
  have hF : t.count .F = 1 := (tmpl_agrees ht).1.2.1
  have hsum := cycleLoop_sum cur (t.filterMap (cur.slot cross taken)) log.zipIdx log.zipIdx
    (by rw [kindOf_length, ho]; exact hops)
  rw [List.take_of_length_le (by rw [kindOf_length, hd]; exact hdata), kindOf_clocks,
    kindOf_clocks, kindOf_length, hf, hi, hd, hF] at hsum
  refine ⟨?_, ?_, ?_, ?_⟩
  · have hcount := count_eq ht cross taken
    unfold modelClocks
    rw [hcount, hcycles, hsum, ← hclocks]
    rw [if_neg (by omega)]
    refine congrArg Option.some ?_
    cases hc : cur.compiled with
    | true =>
      have hsz := hsize hc
      simp only [hc, Bool.not_true, Bool.toNat_false, Nat.zero_mul] at hops
      simp only [if_true, hsz, Bool.toNat_true, Nat.one_mul]
      omega
    | false =>
      simp only [hc, Bool.not_false, Bool.toNat_true, Nat.one_mul] at hops
      simp only [Bool.false_eq_true, if_false, Bool.toNat_false, Nat.zero_mul]
      omega
  · rw [hcycles, cycleLoop_data cur _ _ _ mem_zipIdx mem_zipIdx,
      List.take_of_length_le (by rw [kindOf_length, hd]; exact hdata)]
    refine congrArg (List.map _) (List.filter_congr fun e _ => ?_)
    cases e.1.fetch <;> rfl
  · rw [hcycles]
    exact cycleLoop_clk hspeed hzipClk hzipClk
  · intro hnil
    rw [← hcycles, hnil] at hsum
    simp only [List.map_nil, List.sum_nil] at hsum
    have hpos : 0 < cur.speed * (1 + cur.compiled.toNat * cur.operands t) :=
      Nat.mul_pos (by omega) (by omega)
    omega

theorem sum_take_le {l : List Nat} (hl : ∀ a ∈ l, 6 ≤ a) (k : Nat) :
    (l.take k).sum + 6 * (l.length - k) ≤ l.sum := by
  induction l generalizing k with
  | nil => simp
  | cons a l ih =>
    obtain ⟨ha, hrest⟩ := List.forall_mem_cons.mp hl
    cases k with
    | zero =>
      have h := ih hrest 0
      simp at h ⊢
      omega
    | succ k =>
      have h := ih hrest k
      simp
      omega

/-- Whatever data the log has, the cycles listed are no longer than the count. -/
theorem cycles_le {cur : Cur} {t : List CycleLetter} {log : List LogEntry}
    (ht : tmpl cur.op = some t) (hint : cur.interrupt = false) (hspeed : 6 ≤ cur.speed)
    (hclk : ∀ e ∈ log, 6 ≤ e.clocks) (hlen : log.length ≤ ctBusLog)
    (hops : (log.filter fun e => e.fetch == true).length = (!cur.compiled).toNat * cur.operands t)
    (hsize : cur.compiled = true → cur.size - 1 = cur.operands t) (cross taken : Bool) :
    cycCycles cur cross taken log none ≠ [] ∧ ∀ n, modelClocks cur cross taken log = some n →
      ((cycCycles cur cross taken log none).map Cycle.clk).sum ≤ n := by
  obtain ⟨hf, hi, ho, hd⟩ := slots_count cur cross taken t
  obtain ⟨hboth, hclocks⟩ := filter_fetch log
  have hF : t.count .F = 1 := (tmpl_agrees ht).1.2.1
  have hcycles := cycCycles_eq ht hint hlen cross taken
  have hsum := cycleLoop_sum cur (t.filterMap (cur.slot cross taken)) log.zipIdx log.zipIdx
    (by rw [kindOf_length, ho]; exact hops)
  have hdata := sum_take_le
    (l := (kindOf false log.zipIdx).map fun e => e.1.clocks) (k := cur.accesses t) (by
      intro k hk
      obtain ⟨e, he, rfl⟩ := List.mem_map.mp hk
      exact hclk e.1 (List.mem_of_getElem? (mem_zipIdx e (List.mem_of_mem_filter he))))
  rw [← List.map_take, List.length_map, kindOf_length, kindOf_clocks] at hdata
  rw [← hcycles, kindOf_clocks, kindOf_length, hf, hi, hd, hF] at hsum
  refine ⟨fun hnil => ?_, fun n hn => ?_⟩
  · rw [hnil] at hsum
    simp only [List.map_nil, List.sum_nil] at hsum
    have hpos : 0 < cur.speed * (1 + cur.compiled.toNat * cur.operands t) :=
      Nat.mul_pos (by omega) (by omega)
    omega
  · rw [hsum]
    unfold modelClocks at hn
    rw [count_eq ht cross taken, ← hclocks, if_neg (by omega)] at hn
    rw [← Option.some.inj hn]
    cases hc : cur.compiled with
    | true =>
      have hsz := hsize hc
      simp only [hc, Bool.not_true, Bool.toNat_false, Nat.zero_mul] at hops
      simp only [if_true, hsz, Bool.toNat_true, Nat.one_mul]
      omega
    | false =>
      simp only [hc, Bool.not_false, Bool.toNat_true, Nat.one_mul] at hops
      simp only [Bool.false_eq_true, if_false, Bool.toNat_false, Nat.zero_mul]
      omega

/-- The listing has no more data accesses than the template has letters for them. -/
theorem cyclesListed_data_le {cur : Cur} {t : List CycleLetter} {cross taken : Bool}
    {log : List LogEntry} (ht : tmpl cur.op = some t) (hint : cur.interrupt = false)
    (hlen : log.length ≤ ctBusLog) (h : CyclesListed cur cross taken log) :
    (log.filter fun e => e.fetch == false).length ≤ cur.accesses t := by
  obtain ⟨-, -, -, hd⟩ := slots_count cur cross taken t
  have hcycles := cycCycles_eq ht hint hlen cross taken
  have hlisted := congrArg List.length h.accesses
  rw [hcycles, cycleLoop_data cur _ _ _ mem_zipIdx mem_zipIdx, hd, List.length_map, List.length_map,
    List.length_take, kindOf_length] at hlisted
  have hall := kindOf_length false log
  have hsame : (log.zipIdx.filter fun e => !e.1.fetch) = kindOf false log.zipIdx :=
    List.filter_congr fun e _ => by cases e.1.fetch <;> rfl
  rw [hsame, hall] at hlisted
  omega

theorem uncounted_all : ∀ e ∈ cycleTable.zip templateTable, e.2 = none → e.1 = (0, []) := by
  decide +kernel

theorem uncounted_of_tables {rows : List (Nat × List Penalty)}
    {ts : List (Option (List CycleLetter))} (hall : ∀ e ∈ rows.zip ts, e.2 = none → e.1 = (0, []))
    {k : Nat} {row : Nat × List Penalty} (hrow : rows[k]? = some row) (ht : ts[k]? = some none) :
    row = (0, []) := by
  have hmem : (row, none) ∈ rows.zip ts :=
    List.mem_of_getElem? (List.getElem?_zip_eq_some.mpr ⟨hrow, ht⟩)
  exact hall _ hmem rfl

/-- Opcodes with no template have no count. -/
theorem tmpl_of_clocks {cur : Cur} {cross taken : Bool} {log : List LogEntry}
    (h : modelClocks cur cross taken log ≠ none) : ∃ t, tmpl cur.op = some t := by
  cases ht : tmpl cur.op with
  | some t => exact ⟨t, rfl⟩
  | none =>
    refine absurd ?_ h
    have hnone : templateTable[cur.op.toNat]? = some none := by
      rw [← ht]
      exact getElem?_table _ _ _ cur.op
    have hrow : cycleRow cur.op = (0, []) :=
      uncounted_of_tables uncounted_all (getElem?_table _ _ _ cur.op) hnone
    have hcount : cur.count cross taken = 0 := by
      rw [Cur.count, hrow]
      rfl
    unfold modelClocks
    rw [hcount]
    rfl

end CtRecomp
