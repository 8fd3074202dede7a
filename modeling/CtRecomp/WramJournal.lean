import Mathlib.Data.List.Basic
import CtRecomp.Cycles
import CtRecomp.UndoLog

namespace CtRecomp

open UndoLog

/-! The journal of WRAM writes the bus keeps of the instruction under way (bus.c), and its
stores as they were made. -/

inductive Writer
  | cpu
  | dma
  | hdma
  /-- The redo that follows a frame hook. -/
  | redo
deriving DecidableEq, Repr

/-- A WRAM store, made at bus access `access`. -/
structure WramTag where
  writer : Writer
  access : Nat
deriving DecidableEq, Repr

abbrev WramStore := Store (BitVec 17) (BitVec 8) WramTag

abbrev JournalEntry := Entry (BitVec 17) (BitVec 8)

structure WramBus where
  wram : BitVec 17 → BitVec 8
  wramPortAddr : BitVec 17
  /-- `ct_bus_n` -/
  busN : Nat
  /-- `ct_bus_wram_off`, `_old` and `_new`; `none` where the offset is 0. -/
  slots : Nat → Option JournalEntry
  -- not in bus.c: memory as the instruction begins, and the stores since
  base : BitVec 17 → BitVec 8
  stores : List WramStore

/-- An access as far as WRAM sees it. -/
inductive BusOp
  | read (a : BitVec 24)
  | write (a : BitVec 24) (v : BitVec 8)
deriving DecidableEq, Repr

def BusOp.isWrite : BusOp → Bool
  | .read _ => false
  | .write _ _ => true

/-- An access with its clocks; `fetch`, an operand fetch. A $420B write runs a general DMA,
whose accesses are not counted. -/
structure BusAccess where
  op : BusOp
  clocks : Nat
  fetch : Bool
  dma : List BusOp
deriving DecidableEq, Repr

def BusAccess.entry (a : BusAccess) : LogEntry where
  clocks := a.clocks
  write := a.op.isWrite
  fetch := a.fetch && !a.op.isWrite

namespace WramBus

def wramStore (writer : Writer) (off : BitVec 17) (v : BitVec 8) (w : WramBus) : WramBus :=
  { w with
    wram := Function.update w.wram off v
    slots := if 1 ≤ w.busN ∧ w.busN ≤ ctBusLog then
        Function.update w.slots (w.busN - 1) (some ⟨off, w.wram off, v⟩)
      else w.slots
    stores := w.stores ++ [⟨off, v, ⟨writer, w.busN - 1⟩⟩] }

/-- `wram_port_write` -/
def portWrite (writer : Writer) (reg : BitVec 16) (v : BitVec 8) (w : WramBus) : WramBus :=
  if reg = 0x2180 then
    { w.wramStore writer w.wramPortAddr v with wramPortAddr := w.wramPortAddr + 1 }
  else if reg = 0x2181 then
    { w with wramPortAddr := (w.wramPortAddr &&& 0x1FF00) ||| v.setWidth 17 }
  else if reg = 0x2182 then
    { w with wramPortAddr := (w.wramPortAddr &&& 0x100FF) ||| (v.setWidth 17 <<< 8) }
  else if reg = 0x2183 then
    { w with wramPortAddr := (w.wramPortAddr &&& 0x0FFFF) ||| ((v &&& 1).setWidth 17 <<< 16) }
  else w

/-- The access is counted, and its slot in the journal cleared. -/
def counted (w : WramBus) : WramBus :=
  { w with
    slots := if w.busN < ctBusLog then Function.update w.slots w.busN none else w.slots
    busN := w.busN + 1 }

/-- What `read8` and `write8` do to WRAM. -/
def op (writer : Writer) (o : BusOp) (w : WramBus) : WramBus :=
  let w := w.counted
  match o with
  | .read a =>
    if decodeAddr a = .hw 0x2180 then { w with wramPortAddr := w.wramPortAddr + 1 } else w
  | .write a v =>
    match decodeAddr a with
    | .wram off => w.wramStore writer off v
    | .hw reg => w.portWrite writer reg v
    | _ => w

def ops (writer : Writer) (l : List BusOp) (w : WramBus) : WramBus :=
  l.foldl (fun w o => w.op writer o) w

def access (writer : Writer) (a : BusAccess) (w : WramBus) : WramBus :=
  let w := w.op writer a.op
  { w.ops .dma a.dma with busN := w.busN }

def accesses (writer : Writer) (l : List BusAccess) (w : WramBus) : WramBus :=
  l.foldl (fun w a => w.access writer a) w

/-- `cyc_begin` -/
def begin (w : WramBus) : WramBus := { w with busN := 0, base := w.wram, stores := [] }

/-- The entries from bus access `k` on, as `edge_hook` goes through them. -/
def rolledBack (k : Nat) (w : WramBus) : List JournalEntry :=
  ((List.range (min w.busN ctBusLog)).filter (k ≤ ·)).filterMap w.slots

end WramBus

/-- Stores whose slot of the journal is theirs for good: a DMA's accesses are not counted. -/
def inJournal (s : WramStore) : Bool :=
  (s.tag.writer = .cpu || s.tag.writer = .hdma) && s.tag.access < ctBusLog

/-- The slots up to `ct_bus_n` are the journal of the stores made since the instruction
began. -/
structure WramBus.Kept (w : WramBus) : Prop where
  wram : w.wram = run w.base w.stores
  slots : (List.range (min w.busN ctBusLog)).filterMap (fun k => (w.slots k).map (Prod.mk k)) =
    (journal inJournal w.base w.stores).map fun e => (e.1.access, e.2)

namespace WramBus

variable {w : WramBus} {writer : Writer}

theorem begin_kept (w : WramBus) : w.begin.Kept := ⟨rfl, rfl⟩

theorem Kept.rolledBack (h : w.Kept) (k : Nat) : w.rolledBack k =
    (journal (fun s => inJournal s && decide (k ≤ s.tag.access)) w.base w.stores).map Prod.snd := by
  have hslots : w.rolledBack k =
      (((List.range (min w.busN ctBusLog)).filterMap fun i => (w.slots i).map (Prod.mk i)).filter
        fun e => k ≤ e.1).map Prod.snd := by
    rw [List.filter_filterMap, List.map_filterMap, WramBus.rolledBack, List.filterMap_filter]
    congr 1
    funext i
    cases w.slots i with
    | none => simp
    | some e =>
      rw [Option.map_some, Option.filter_some]
      by_cases hi : k ≤ i
      · simp [hi]
      · simp [hi]
  rw [hslots, h.slots, List.filter_map, List.map_map,
    journal_filter (fun t : WramTag => decide (k ≤ t.access))]
  rfl

/-! What the accesses keep of it. -/

/-- Slots of accesses not counted are anyone's. -/
theorem range_slots_congr {w' : WramBus} (hn : w'.busN = w.busN)
    (h : ∀ k < w.busN, w'.slots k = w.slots k) :
    (List.range (min w'.busN ctBusLog)).filterMap (fun k => (w'.slots k).map (Prod.mk k)) =
      (List.range (min w.busN ctBusLog)).filterMap fun k => (w.slots k).map (Prod.mk k) := by
  rw [hn]
  refine List.filterMap_congr fun k hk => ?_
  rw [h k (Nat.lt_of_lt_of_le (List.mem_range.mp hk) (Nat.min_le_left _ _))]

theorem range_slots_counted (w : WramBus) :
    (List.range (min w.counted.busN ctBusLog)).filterMap
        (fun k => (w.counted.slots k).map (Prod.mk k)) =
      (List.range (min w.busN ctBusLog)).filterMap fun k => (w.slots k).map (Prod.mk k) := by
  have hn : w.counted.busN = w.busN + 1 := rfl
  by_cases hlt : w.busN < ctBusLog
  · have hslots : w.counted.slots = Function.update w.slots w.busN none := if_pos hlt
    rw [hn, hslots, Nat.min_eq_left hlt, Nat.min_eq_left (Nat.le_of_lt hlt), List.range_succ,
      List.filterMap_append]
    simp only [List.filterMap_cons, Function.update_self, Option.map_none, List.filterMap_nil,
      List.append_nil]
    refine List.filterMap_congr fun k hk => ?_
    rw [Function.update_of_ne (Nat.ne_of_lt (List.mem_range.mp hk))]
  · have hslots : w.counted.slots = w.slots := if_neg hlt
    rw [hn, hslots, Nat.min_eq_right (by omega), Nat.min_eq_right (by omega)]

/-- An access moves the port's address and stores at most one byte. -/
theorem op_cases (writer : Writer) (o : BusOp) (w : WramBus) :
    (∃ p, w.op writer o = { w.counted with wramPortAddr := p }) ∨
    ∃ p off v, w.op writer o = { w.counted.wramStore writer off v with wramPortAddr := p } := by
  cases o with
  | read a =>
    left
    by_cases ha : decodeAddr a = .hw 0x2180
    · exact ⟨_, if_pos ha⟩
    · exact ⟨_, if_neg ha⟩
  | write a v =>
    simp only [op]
    cases decodeAddr a with
    | wram off => exact .inr ⟨_, off, v, rfl⟩
    | hw reg =>
      dsimp only
      unfold portWrite
      split
      next => exact .inr ⟨_, _, v, rfl⟩
      next =>
        left
        split
        next => exact ⟨_, rfl⟩
        next =>
        split
        next => exact ⟨_, rfl⟩
        next =>
        split
        next => exact ⟨_, rfl⟩
        next => exact ⟨_, rfl⟩
    | sram | rom | openBus => exact .inl ⟨_, rfl⟩

/-- What any access does to the bus. -/
structure Did (writer : Writer) (w w' : WramBus) (made : List WramStore) : Prop where
  base : w'.base = w.base
  stores : w'.stores = w.stores ++ made
  wram : w'.wram = run w.wram made
  busN : w'.busN = w.busN + 1
  tag : ∀ s ∈ made, s.tag = ⟨writer, w.busN⟩
  slots : ∀ k < w.busN, w'.slots k = w.slots k

theorem counted_slots (w : WramBus) {k : Nat} (hk : k ≠ w.busN) : w.counted.slots k = w.slots k := by
  unfold counted
  dsimp only
  split
  next => exact Function.update_of_ne hk _ _
  next => rfl

theorem wramStore_slots (writer : Writer) (off : BitVec 17) (v : BitVec 8) (w : WramBus) {k : Nat}
    (hk : k ≠ w.busN - 1) : (w.wramStore writer off v).slots k = w.slots k := by
  unfold wramStore
  dsimp only
  split
  next => exact Function.update_of_ne hk _ _
  next => rfl

theorem op_did (writer : Writer) (o : BusOp) (w : WramBus) :
    ∃ made, Did writer w (w.op writer o) made := by
  obtain ⟨p, h⟩ | ⟨p, off, v, h⟩ := op_cases writer o w
  · refine ⟨[], ?_⟩
    rw [h]
    exact ⟨rfl, (List.append_nil _).symm, rfl, rfl, nofun,
      fun k hk => counted_slots w (Nat.ne_of_lt hk)⟩
  · refine ⟨[⟨off, v, ⟨writer, w.busN⟩⟩], ?_⟩
    rw [h]
    refine ⟨rfl, rfl, rfl, rfl, fun s hs => ?_, fun k hk => ?_⟩
    · rw [List.mem_singleton.mp hs]
    · have hne : k ≠ w.busN := Nat.ne_of_lt hk
      exact (wramStore_slots writer off v w.counted hne).trans (counted_slots w hne)

theorem Kept.counted (h : w.Kept) : w.counted.Kept :=
  ⟨h.wram, (range_slots_counted w).trans h.slots⟩

/-- A store takes the slot its access has just cleared, if there is one. -/
theorem Kept.store (h : w.Kept) (hwriter : writer = .cpu ∨ writer = .hdma) (off : BitVec 17)
    (v : BitVec 8) : (w.counted.wramStore writer off v).Kept := by
  have hc := h.counted
  refine ⟨?_, ?_⟩
  · change Function.update w.wram off v = run w.base (w.stores ++ _)
    rw [run_append, ← h.wram]
    rfl
  have hjournal : journal inJournal w.base (w.stores ++ [⟨off, v, ⟨writer, w.busN⟩⟩]) =
      journal inJournal w.base w.stores ++ if w.busN < ctBusLog then
        [(⟨writer, w.busN⟩, ⟨off, w.wram off, v⟩)] else [] := by
    rw [journal_append, ← h.wram, journal, journal, List.append_nil]
    congr 1
    by_cases hlt : w.busN < ctBusLog
    · rw [if_pos hlt, if_pos]
      rcases hwriter with rfl | rfl
      · simp [inJournal, hlt]
      · simp [inJournal, hlt]
    · rw [if_neg hlt, if_neg]
      simp [inJournal, hlt]
  change _ = (journal inJournal w.base (w.stores ++ [⟨off, v, ⟨writer, w.busN⟩⟩])).map _
  rw [hjournal, List.map_append, ← h.slots]
  by_cases hlt : w.busN < ctBusLog
  · have hlast : (w.counted.wramStore writer off v).slots w.busN = some ⟨off, w.wram off, v⟩ := by
      have hroom : 1 ≤ w.counted.busN ∧ w.counted.busN ≤ ctBusLog := ⟨Nat.le_add_left _ _, hlt⟩
      unfold wramStore
      dsimp only
      rw [if_pos hroom]
      exact Function.update_self _ _ _
    have hn : min (w.counted.wramStore writer off v).busN ctBusLog = w.busN + 1 := Nat.min_eq_left hlt
    rw [hn, Nat.min_eq_left (Nat.le_of_lt hlt), List.range_succ, List.filterMap_append, if_pos hlt]
    congr 1
    · refine List.filterMap_congr fun k hk => ?_
      have hne : k ≠ w.busN := Nat.ne_of_lt (List.mem_range.mp hk)
      rw [wramStore_slots _ _ _ _ hne, counted_slots w hne]
    · simp only [List.filterMap_cons, hlast, Option.map_some, List.filterMap_nil, List.map_cons,
        List.map_nil]
  · have hfull : ¬(1 ≤ w.counted.busN ∧ w.counted.busN ≤ ctBusLog) := fun hroom => hlt hroom.2
    have hslots : (w.counted.wramStore writer off v).slots = w.counted.slots := if_neg hfull
    rw [if_neg hlt, List.map_nil, List.append_nil, hslots]
    exact range_slots_counted w

theorem Kept.op (h : w.Kept) (hwriter : writer = .cpu ∨ writer = .hdma) (o : BusOp) :
    (w.op writer o).Kept := by
  obtain ⟨p, ho⟩ | ⟨p, off, v, ho⟩ := op_cases writer o w
  · rw [ho]
    exact ⟨h.counted.wram, h.counted.slots⟩
  · rw [ho]
    have hs := h.store hwriter off v
    exact ⟨hs.wram, hs.slots⟩

/-- A DMA's accesses store past the slots counted. -/
theorem ops_dma (l : List BusOp) (w : WramBus) : ∃ made, (w.ops .dma l).base = w.base ∧
    (w.ops .dma l).stores = w.stores ++ made ∧ (w.ops .dma l).wram = run w.wram made ∧
    (∀ s ∈ made, s.tag.writer = .dma) ∧ ∀ k < w.busN, (w.ops .dma l).slots k = w.slots k := by
  induction l generalizing w with
  | nil => exact ⟨[], rfl, (List.append_nil _).symm, rfl, nofun, fun _ _ => rfl⟩
  | cons o l ih =>
    obtain ⟨one, hone⟩ := op_did .dma o w
    obtain ⟨rest, hbase, hstores, hwram, htag, hslots⟩ := ih (w.op .dma o)
    refine ⟨one ++ rest, hbase.trans hone.base, ?_, ?_, fun s hs => ?_, fun k hk => ?_⟩
    · exact hstores.trans (by rw [hone.stores, List.append_assoc])
    · exact hwram.trans (by rw [hone.wram, run_append])
    · rcases List.mem_append.mp hs with hs | hs
      · rw [hone.tag s hs]
      · exact htag s hs
    · exact (hslots k (by rw [hone.busN]; omega)).trans (hone.slots k hk)

/-- Some accesses made: memory is what it was with their stores, and they are no others'. -/
structure Made (writer : Writer) (w w' : WramBus) : Prop where
  kept : w.Kept → w'.Kept
  base : w'.base = w.base
  stores : ∃ made, w'.stores = w.stores ++ made ∧
    ∀ s ∈ made, s.tag.writer = writer ∨ s.tag.writer = .dma

theorem Made.refl (w : WramBus) : Made writer w w :=
  ⟨id, rfl, [], (List.append_nil _).symm, nofun⟩

theorem Made.trans {w' w'' : WramBus} (h : Made writer w w') (h' : Made writer w' w'') :
    Made writer w w'' := by
  obtain ⟨one, hone, htag⟩ := h.stores
  obtain ⟨rest, hrest, htags⟩ := h'.stores
  refine ⟨fun hw => h'.kept (h.kept hw), h'.base.trans h.base, one ++ rest, ?_, fun s hs => ?_⟩
  · rw [hrest, hone, List.append_assoc]
  · rcases List.mem_append.mp hs with hs | hs
    · exact htag s hs
    · exact htags s hs

theorem access_made (hwriter : writer = .cpu ∨ writer = .hdma) (a : BusAccess) (w : WramBus) :
    Made writer w (w.access writer a) := by
  obtain ⟨one, hone⟩ := op_did writer a.op w
  obtain ⟨rest, hbase, hstores, hwram, htag, hslots⟩ := ops_dma a.dma (w.op writer a.op)
  refine ⟨fun hw => ?_, hbase.trans hone.base, one ++ rest, ?_, fun s hs => ?_⟩
  · have hop := hw.op hwriter a.op
    have hcongr := @range_slots_congr (w.op writer a.op) (w.access writer a) rfl hslots
    refine ⟨?_, hcongr.trans (hop.slots.trans ?_)⟩
    · change ((w.op writer a.op).ops .dma a.dma).wram =
        run ((w.op writer a.op).ops .dma a.dma).base ((w.op writer a.op).ops .dma a.dma).stores
      rw [hwram, hop.wram, hbase, hstores, run_append]
    · change _ = (journal inJournal ((w.op writer a.op).ops .dma a.dma).base
        ((w.op writer a.op).ops .dma a.dma).stores).map _
      have hnone : ∀ s ∈ rest, inJournal s = false := fun s hs => by simp [inJournal, htag s hs]
      rw [hbase, hstores, journal_append, journal_none hnone, List.append_nil]
  · change ((w.op writer a.op).ops .dma a.dma).stores = _
    rw [hstores, hone.stores, List.append_assoc]
  · rcases List.mem_append.mp hs with hs | hs
    · exact .inl (congrArg WramTag.writer (hone.tag s hs))
    · exact .inr (htag s hs)

theorem accesses_made (hwriter : writer = .cpu ∨ writer = .hdma) (l : List BusAccess) (w : WramBus) :
    Made writer w (w.accesses writer l) := by
  induction l generalizing w with
  | nil => exact .refl w
  | cons a l ih => exact (access_made hwriter a w).trans (ih _)

end WramBus

end CtRecomp
