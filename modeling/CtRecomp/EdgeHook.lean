import CtRecomp.AdvanceKeeps
import CtRecomp.ChargeWhole
import CtRecomp.Landings
import CtRecomp.Bench

namespace CtRecomp

open Loop UndoLog

variable {ε : Type}

/-! What is rolled back. -/

def rolls (undoFrom : Option Nat) (s : WramStore) : Bool :=
  inJournal s && undoFrom.any fun k => decide (k ≤ s.tag.access)

/-- The stores to be kept: all but the CPU's that land at or after the edge. -/
def keeps (landed : List (Nat × Nat)) (edge : Nat) (s : WramStore) : Bool :=
  match s.tag.writer with
  | .cpu => !landed.any fun e => e.1 = s.tag.access && decide (edge ≤ e.2)
  | .dma => true
  | .hdma => true
  | .redo => false

variable {w w' : WramBus} {undoFrom : Option Nat}

theorem WramBus.Kept.undone (h : w.Kept) (undoFrom : Option Nat) : w.undone undoFrom =
    (journal (rolls undoFrom) w.base w.stores).map Prod.snd := by
  cases undoFrom with
  | none =>
    have hnone : ∀ s ∈ w.stores, rolls none s = false := fun s _ => Bool.and_false _
    rw [journal_none hnone]
    rfl
  | some k => exact h.rolledBack k

/-- The bus of the instruction that began with `start`: whatever has been stored since, the
CPU has stored no more, and a redo only what is rolled back. -/
structure WramBus.Since (start : WramBus) (undoFrom : Option Nat) (w : WramBus) : Prop where
  kept : w.Kept
  base : w.base = start.base
  stores : ∃ later, w.stores = start.stores ++ later ∧ ∀ s ∈ later, s.tag.writer ≠ .cpu
  redone : ∀ s ∈ w.stores, s.tag.writer = .redo → Named (rolls undoFrom) w.stores s.key

namespace WramBus

variable {start : WramBus}

theorem Since.accesses (h : Since start undoFrom w) (l : List BusAccess) :
    Since start undoFrom (w.accesses .hdma l) := by
  have hmade := accesses_made (.inr rfl) l w
  obtain ⟨made, hstores, htag⟩ := hmade.stores
  obtain ⟨later, hlater, hcpu⟩ := h.stores
  refine ⟨hmade.kept h.kept, hmade.base.trans h.base, ⟨later ++ made, ?_, fun s hs => ?_⟩,
    fun s hs hredo => ?_⟩
  · rw [hstores, hlater, List.append_assoc]
  · rcases List.mem_append.mp hs with hs | hs
    · exact hcpu s hs
    · rcases htag s hs with ht | ht
      · rw [ht]
        exact nofun
      · rw [ht]
        exact nofun
  · rw [hstores] at hs ⊢
    rcases List.mem_append.mp hs with hs | hs
    · obtain ⟨r, hr, hroll⟩ := h.redone s hs hredo
      exact ⟨r, List.mem_append_left _ hr, hroll⟩
    · rcases htag s hs with ht | ht
      · exact nomatch ht.symm.trans hredo
      · exact nomatch ht.symm.trans hredo

theorem Since.hooked (h : Since start undoFrom w) : Since start undoFrom (w.hooked undoFrom) := by
  obtain ⟨later, hlater, hcpu⟩ := h.stores
  have hundone := h.kept.undone undoFrom
  have hredo : ∀ (j : List JournalEntry) (m : BitVec 17 → BitVec 8),
      run m (j.map fun e => (⟨e.key, e.new, ⟨.redo, 0⟩⟩ : WramStore)) = redo j m := fun j m =>
    List.foldl_map
  refine ⟨⟨?_, ?_⟩, h.base, ⟨later ++ (w.undone undoFrom).map fun e => ⟨e.key, e.new, ⟨.redo, 0⟩⟩,
    ?_, fun s hs => ?_⟩, fun s hs hw => ?_⟩
  · change redo (w.undone undoFrom) (undo (w.undone undoFrom) w.wram) = run w.base (w.stores ++ _)
    rw [run_append, ← h.kept.wram, hredo, hundone, h.kept.wram, redo_undo, redo_journal]
  · change _ = (journal inJournal w.base (w.stores ++ _)).map _
    rw [journal_append, journal_none (l := List.map _ _), List.append_nil]
    · exact h.kept.slots
    · intro s hs
      obtain ⟨e, -, rfl⟩ := List.mem_map.mp hs
      rfl
  · change w.stores ++ _ = _
    rw [hlater, List.append_assoc]
  · rcases List.mem_append.mp hs with hs | hs
    · exact hcpu s hs
    · obtain ⟨e, -, rfl⟩ := List.mem_map.mp hs
      exact nofun
  · have hnamed : Named (rolls undoFrom) w.stores s.key := by
      rcases List.mem_append.mp hs with hs | hs
      · exact h.redone s hs hw
      · obtain ⟨e, he, rfl⟩ := List.mem_map.mp hs
        rw [hundone] at he
        obtain ⟨a, ha, rfl⟩ := List.mem_map.mp he
        exact mem_journal ha
    obtain ⟨r, hr, hroll⟩ := hnamed
    exact ⟨r, List.mem_append_left _ hr, hroll⟩

end WramBus

/-- A frame hook's call of the instruction that began with `start`, on an edge at `first`
or later. -/
structure HookCall.Of (start : WramBus) (undoFrom : Option Nat) (first : Nat) (v : HookCall) :
    Prop where
  edge : first ≤ v.edge
  bus : start.Since undoFrom v.bus
  seen : v.seen = v.bus.seen undoFrom
  left : v.left = (v.bus.hooked undoFrom).wram

/-- The devices while the instruction is charged, with the frame hook's calls made before. -/
structure Wired.During (start : WramBus) (calls : List HookCall) (undoFrom : Option Nat)
    (first : Nat) (d : Wired ε) : Prop where
  bus : start.Since undoFrom d.bus
  calls : ∃ new, d.hookCalls = calls ++ new ∧ ∀ v ∈ new, v.Of start undoFrom first

variable {P : Peripherals ε} {good : Clock → RegAccess → Prop} {s r : Sched (Wired ε)}
  {start : WramBus} {calls : List HookCall} {first : Nat}

theorem wired_call {c : DeviceCall} (hc : ∀ k, c ≠ .edgeHook k) {clk : Clock} {regs regs' : Regs}
    {d d' : Wired ε} (h : (wiredDevices P).call c clk regs d = .ok (regs', d')) :
    d'.hookCalls = d.hookCalls ∧ ∃ l, d'.bus = d.bus.accesses .hdma l := by
  have hcall : d.call P c clk regs = .ok (regs', d') := by
    cases c with
    | edgeHook k => exact absurd rfl (hc k)
    | apuSync | ppuDrawTo | dmaDoHdma | dmaInitHdma | ppuBeginDrawing | ppuRunLine
      | oamVblankReload => exact h
  obtain ⟨⟨l, regs'', rest⟩, -, hd⟩ := bind_eq_ok_iff.mp hcall
  cases hd
  exact ⟨rfl, l, rfl⟩

theorem during_invariant {K : Clock → Prop} (turn : ∀ c c', K c → ClockTurn c c' → K c')
    (edge : ∀ c, K c → c.line + 1 = schedLines → c.lineClocks ≤ c.hclock →
      first ≤ c.lineStart + c.lineClocks) :
    DevInvariant (wiredDevices P) K undoFrom (Wired.During start calls undoFrom first) where
  turn := turn
  call c clk regs d regs' d' hc hd h := by
    obtain ⟨hcalls, l, hbus⟩ := wired_call hc h
    refine ⟨?_, ?_⟩
    · rw [hbus]
      exact hd.bus.accesses l
    · rw [hcalls]
      exact hd.calls
  edge c clk regs d regs' d' hK hlast hover hclk hd h := by
    have hd' : d' = d.edgeHook P undoFrom clk := by
      cases h
      rfl
    obtain ⟨new, hnew, hall⟩ := hd.calls
    have hedge : first ≤ clk.lineStart := by
      rw [hclk]
      exact edge c hK hlast hover
    rw [hd']
    refine ⟨hd.bus.hooked, new ++ [d.hookCall undoFrom clk], ?_, fun v hv => ?_⟩
    · change d.hookCalls ++ _ = _
      rw [hnew, List.append_assoc]
    · rcases List.mem_append.mp hv with hv | hv
      · exact hall v hv
      · rw [List.mem_singleton.mp hv]
        exact ⟨hedge, hd.bus, rfl, rfl⟩

theorem lineInvariant_turn {K : Clock → Prop} (hK : LineInvariant K) :
    ∀ c c', K c → ClockTurn c c' → K c' := by
  intro c c' hc ht
  cases ht with
  | inside same => exact hK.inside _ _ same hc
  | refresh hp => exact hK.inside _ _ hp.same hc
  | lineEnd he => exact hK.lineEnd _ _ he hc

/-- Frame edges to come are at `first` or later. -/
def Clock.EdgeFrom (first : Nat) (c : Clock) : Prop := c.InRaster ∧ first ≤ c.nextFrame

theorem edgeFrom_lineInvariant (first : Nat) : LineInvariant (Clock.EdgeFrom first) where
  inside c c' hsame hc := by
    refine ⟨inRaster_lineInvariant.inside c c' hsame hc.1, ?_⟩
    rw [Clock.nextFrame, hsame.frames, hsame.fieldBase]
    exact hc.2
  lineEnd c c' he hc := by
    refine ⟨hc.1.lineEnd he, Nat.le_trans hc.2 (frameStart_mono ?_)⟩
    have hframes := he.frames
    have hbase := he.fieldBase
    split at hframes <;> omega

theorem Clock.EdgeFrom.edge {c : Clock} (hc : c.EdgeFrom first) (hlast : c.line + 1 = schedLines) :
    first ≤ c.lineStart + c.lineClocks := by
  have hlen : c.lineClocks = lineLength (c.frames - c.fieldBase) c.line := (lineClocks_eq rfl).symm
  have hbase := hc.1.fieldBase
  have hnext : c.frames + 1 - c.fieldBase = c.frames - c.fieldBase + 1 := by omega
  have hfirst := hc.2
  rw [Clock.nextFrame, hnext, frameStart_succ] at hfirst
  rw [hlen, hc.1.lineStart, Nat.succ.inj hlast]
  exact hfirst

/-- An instruction charged whole ends no line. -/
theorem settled_turn : ∀ c c', Clock.Settled c → ClockTurn c c' → Clock.Settled c' := by
  intro c c' hc ht
  cases ht with
  | inside same hclock hdone hpaid =>
    refine ⟨?_, ?_⟩
    · rw [hclock, same.lineClocks]
      exact hc.inLine
    · rw [hdone, hclock, same.refreshAt]
      exact hc.refresh
  | refresh hp =>
    obtain ⟨hdone, hat⟩ := hp.due
    rcases hc.refresh with hd | hlt
    · exact absurd (hd.symm.trans hdone) nofun
    · omega
  | lineEnd he =>
    have hlt := hc.inLine
    have hover := he.reached
    omega

/-- What a charge leaves behind, also where the reset button cuts it short. -/
def Leaves {δ : Type} (x : SchedM δ (Sched δ × Bool)) (r : Sched δ) : Prop :=
  (∃ takeIrq, x = .ok (r, takeIrq)) ∨ x = .error (.reset r)

theorem Ends.leaves {δ : Type} {Q : δ → Prop} {x : SchedM δ (Sched δ × Bool)} {r : Sched δ}
    (hx : Ends (Resets Q) (fun p => Q p.1.dev) x) (h : Leaves x r) : Q r.dev := by
  obtain ⟨takeIrq, h⟩ | h := h
  · rw [h] at hx
    exact hx
  · rw [h] at hx
    exact hx r rfl

/-- The clocks at which the writes of an instruction land. -/
def landed {δ : Type} (D : Devices δ) (s : Sched δ) (i : Bool) (cycles : List Cycle) :
    List (Nat × Nat) :=
  match landings D s i cycles (walkInit s) with
  | .ok ls => ls
  | .error _ => []

/-- The frame hook's calls in a charge: those of `HookCall.Of`, rolling back from the first
write past the frame. -/
theorem charge_calls {b : Begun} {insnI takeIrq : Bool} (hin : s.clk.InRaster)
    (hbus : s.dev.bus.Kept) (hcpu : ∀ x ∈ s.dev.bus.stores, x.tag.writer ≠ .redo)
    (hr : Leaves (charge (wiredDevices P) insnI b s takeIrq) r) :
    ∃ new, r.dev.hookCalls = s.dev.hookCalls ++ new ∧ ∀ v ∈ new, v.Of s.dev.bus
      (firstLate s.clk.nextFrame (landed (wiredDevices P) s insnI b.cycles)) s.clk.nextFrame := by
  have hnone {r : Sched (Wired ε)} (h : r.dev.hookCalls = s.dev.hookCalls) :
      ∃ new, r.dev.hookCalls = s.dev.hookCalls ++ new ∧ ∀ v ∈ new, v.Of s.dev.bus
        (firstLate s.clk.nextFrame (landed (wiredDevices P) s insnI b.cycles)) s.clk.nextFrame :=
    ⟨[], h.trans (List.append_nil _).symm, nofun⟩
  by_cases hclocks : b.clocks = 0
  · obtain ⟨t, h⟩ | h := hr
    · rw [charge, if_pos hclocks] at h
      cases h
      exact hnone rfl
    · rw [charge, if_pos hclocks] at h
      cases h
  rw [charge_eq _ _ _ _ _ hclocks] at hr
  by_cases hinside : inside (wiredDevices P) b.clocks s = false
  · rw [if_pos hinside] at hr
    have ho := inside_false hinside
    refine hnone (Ends.leaves (Q := fun d => d.hookCalls = s.dev.hookCalls) ?_ hr)
    have hkeep : DevInvariant (wiredDevices P) Clock.Settled none
        (fun d => d.hookCalls = s.dev.hookCalls) :=
      { turn := settled_turn
        call := fun c clk regs d regs' d' hc hd h => (wired_call hc h).1.trans hd
        edge := fun c _ _ _ _ _ hc _ hover _ _ _ => absurd hover (Nat.not_le.mpr hc.inLine) }
    have hrun (p : Pend) : Ends (Resets fun d => d.hookCalls = s.dev.hookCalls)
        (fun r => r.dev.hookCalls = s.dev.hookCalls)
        (advance (wiredDevices P) ⟨false, none⟩ b.clocks (s.setPend p)) :=
      hkeep.advance rfl ⟨ho.line, ho.refresh⟩ rfl
    exact (hrun _).bind fun a _ ha => ha
  · rw [if_neg hinside] at hr
    refine (Ends.leaves (Q := Wired.During s.dev.bus s.dev.hookCalls _ s.clk.nextFrame) ?_ hr).calls
    refine (fatally_ends (Q := fun p => walkInsn (wiredDevices P) insnI b.cycles s = .ok p)
      fun p hp => hp).bind fun p _ hwalk => ?_
    obtain ⟨w, smp⟩ := p
    obtain ⟨ls, hls, hundo⟩ := walkCycles_undoFrom (edgeNoted_init hin) (Nat.le_add_right _ _) hwalk
    have hlanded : landed (wiredDevices P) s insnI b.cycles = ls := by
      unfold landed
      rw [hls]
    have hfrom : w.undoFrom = firstLate s.clk.nextFrame ls := hundo
    rw [hlanded]
    have hkeep : DevInvariant (wiredDevices P) (Clock.EdgeFrom s.clk.nextFrame) w.undoFrom
        (Wired.During s.dev.bus s.dev.hookCalls w.undoFrom s.clk.nextFrame) :=
      during_invariant (lineInvariant_turn (edgeFrom_lineInvariant _))
        fun c hc hlast _ => hc.edge hlast
    have hstart : Wired.During s.dev.bus s.dev.hookCalls w.undoFrom s.clk.nextFrame s.dev := by
      refine ⟨⟨hbus, rfl, ⟨[], (List.append_nil _).symm, ?_⟩, fun x hx hw => absurd hw (hcpu x hx)⟩,
        [], (List.append_nil _).symm, ?_⟩
      · exact fun x hx => absurd hx List.not_mem_nil
      · exact fun x hx => absurd hx List.not_mem_nil
    rw [← hfrom]
    refine Ends.bind (Q := fun r : Sched (Wired ε) =>
      Wired.During s.dev.bus s.dev.hookCalls w.undoFrom s.clk.nextFrame r.dev) ?_ fun a _ ha => ha
    refine (hkeep.advance rfl ?_ (by exact hstart)).bind fun a _ ha => ?_
    · refine (edgeFrom_lineInvariant s.clk.nextFrame).inside s.clk _ ?_ ⟨hin, Nat.le_refl _⟩
      split <;> constructor <;> rfl
    · dsimp only
      split
      next => exact ha
      next => exact ha

theorem accesses_notRedo {bus : WramBus} {l : List BusAccess} :
    ∀ x ∈ (bus.begin.accesses .cpu l).stores, x.tag.writer ≠ .redo := by
  obtain ⟨made, hstores, htag⟩ := (WramBus.accesses_made (.inl rfl) l bus.begin).stores
  intro x hx
  rw [hstores] at hx
  rcases htag x hx with h | h
  · rw [h]
    exact nofun
  · rw [h]
    exact nofun

/-- In a charge every call of the frame hook sees exactly the memory without the CPU's
writes that land at or after its edge, and leaves memory as it was, if and only if what is
rolled back is harmless: HDMA's writes before the edge are in the same journal. -/
theorem edgeHook_exact (hs : HookRun (wiredDevices P) good s) {bus : WramBus} {l : List BusAccess}
    (hbus : s.dev.bus = bus.begin.accesses .cpu l) {b : Begun} {cur : Cur} {cross taken : Bool}
    (hb : b.cycles = cycCycles cur cross taken (l.map BusAccess.entry) none) {insnI takeIrq : Bool}
    (hr : Leaves (charge (wiredDevices P) insnI b s takeIrq) r) :
    ∃ new, r.dev.hookCalls = s.dev.hookCalls ++ new ∧ ∀ v ∈ new, v.bus.base = bus.wram ∧
      (∃ later, v.bus.stores = s.dev.bus.stores ++ later ∧ ∀ x ∈ later, x.tag.writer ≠ .cpu) ∧
      v.bus.wram = run v.bus.base v.bus.stores ∧
      ((v.seen = run v.bus.base (v.bus.stores.filter
            (keeps (landed (wiredDevices P) s insnI b.cycles) v.edge)) ∧
          v.left = v.bus.wram) ↔
        Harmless (rolls (firstLate s.clk.nextFrame (landed (wiredDevices P) s insnI b.cycles)))
          (keeps (landed (wiredDevices P) s insnI b.cycles) v.edge) v.bus.base v.bus.stores) := by
  have hin := hookRun_inRaster hs
  have hmade := WramBus.accesses_made (.inl rfl) l bus.begin
  have hkept : s.dev.bus.Kept := hbus ▸ hmade.kept (WramBus.begin_kept bus)
  obtain ⟨new, hnew, hall⟩ := charge_calls hin hkept (hbus ▸ accesses_notRedo) hr
  have hlisted := (cycCycles_writes cur cross taken (l.map BusAccess.entry)
    (fun e he hfetch => by
      obtain ⟨a, -, rfl⟩ := List.mem_map.mp he
      exact Bool.not_eq_true' _ ▸ (Bool.and_eq_true_iff.mp hfetch).2) none)
  rw [← hb] at hlisted
  refine ⟨new, hnew, fun v hv => ?_⟩
  obtain ⟨hedge, hsince, hseen, hleft⟩ := hall v hv
  refine ⟨hsince.base.trans ?_, hsince.stores, hsince.kept.wram, ?_⟩
  · rw [hbus]
    exact hmade.base
  generalize hls : landed (wiredDevices P) s insnI b.cycles = ls at *
  have hkeys : ls.map Prod.fst = [] ∨ ls.map Prod.fst = b.cycles.filterMap Cycle.writes := by
    rw [← hls]
    unfold landed
    split
    next hok => exact .inr (landings_keys hok)
    next => exact .inl rfl
  have hsorted : (ls.map Prod.fst).Pairwise (· < ·) ∧ ∀ k ∈ ls.map Prod.fst, k < ctBusLog := by
    rcases hkeys with h | h
    · rw [h]
      exact ⟨List.Pairwise.nil, nofun⟩
    · rw [h]
      exact hlisted
  rw [hseen, hleft]
  unfold WramBus.hooked WramBus.seen
  dsimp only
  rw [hsince.kept.undone, hsince.kept.wram]
  refine undo_redo_iff fun x hx => ?_
  cases hw : x.tag.writer with
  | dma | hdma =>
    left
    simp [keeps, hw]
  | redo => exact .inr (hsince.redone x hx hw)
  | cpu =>
    by_cases hlate : ls.any (fun e => e.1 = x.tag.access && decide (v.edge ≤ e.2)) = true
    · right
      obtain ⟨e, he, hland⟩ := List.any_eq_true.mp hlate
      obtain ⟨haccess, hpast⟩ := Bool.and_eq_true_iff.mp hland
      obtain ⟨f, hf, hfe⟩ := firstLate_le hsorted.1 he
        (Nat.le_trans hedge (of_decide_eq_true hpast))
      have hroom : x.tag.access < ctBusLog :=
        of_decide_eq_true haccess ▸ hsorted.2 e.1 (List.mem_map_of_mem he)
      refine ⟨x, hx, ?_, rfl⟩
      rw [of_decide_eq_true haccess] at hfe
      simp [rolls, inJournal, hw, hroom, hf, hfe]
    · left
      simp only [keeps, hw]
      exact Bool.not_eq_true' _ ▸ Bool.eq_false_iff.mpr hlate

/-! HDMA's byte lost at the end of line 224. -/

/-- `STA $10` compiled, DP = 0. -/
def staDp : Cur := ⟨0x85, false, false, false, true, false, true, 8, 2⟩

def staDpAccess : BusAccess := ⟨.write 0x000010 1, 8, false, []⟩

def staDpBegun : Begun := ⟨24, cycCycles staDp false false [staDpAccess.entry] none⟩

theorem staDpBegun_cycles : staDpBegun.cycles =
    cycCycles staDp false false ([staDpAccess].map BusAccess.entry) none := by
  unfold staDpBegun
  rw [List.map_cons, List.map_nil]

/-- HDMA that stores 7 through $2180. -/
def portHdma : Bench := ⟨[⟨.write 0x002180 7, 8, false, []⟩], 24⟩

/-- Memory once `STA $10` has stored. -/
def staDpDone (hooks : List HookCall) : Wired Bench :=
  ⟨blankBus.begin.accesses .cpu [staDpAccess], portHdma, hooks⟩

/-- `STA $420B` on line 224, 6500 bytes, then `STA $10`, into which the DMA's time falls. -/
def edgeRun : SchedM (Wired Bench) (Sched (Wired Bench) × Sched (Wired Bench)) := do
  let s ← (HookOp.sta (.dma 1 [6500])).foldlM (HookOp.run (wiredDevices bench) fun _ _ => True)
    ⟨eveClock, eveRegs, ⟨blankBus, portHdma, []⟩⟩
  let s := { s with dev := staDpDone s.dev.hookCalls }
  let (r, _) ← charge (wiredDevices bench) false staDpBegun s false
  pure (s, r)

def hdmaStore : WramStore := ⟨0x100, 7, ⟨.hdma, 1⟩⟩

/-- Of a run up to `STA $10` and over it: its one call of the hook saw a zero at $100. -/
def sawZero (run : SchedM (Wired Bench) (Sched (Wired Bench) × Sched (Wired Bench))) : Bool :=
  match run with
  | .ok (s, r) => match r.dev.hookCalls with
    | [v] => decide (s.dev.hookCalls.length = 0 ∧ v.bus.base 0x100 = 0 ∧ v.seen 0x100 = 0 ∧
        v.bus.stores = [⟨0x10, 1, ⟨.cpu, 0⟩⟩, hdmaStore])
    | _ => false
  | .error _ => false

theorem edgeRun_sawZero : sawZero edgeRun = true := by decide +kernel

/-- The frame hook of that run does not see HDMA's byte. -/
theorem edgeRun_seen : ∃ s r v, HookRun (wiredDevices bench) (fun _ _ => True) s ∧
    s.dev.bus = blankBus.begin.accesses .cpu [staDpAccess] ∧
    Leaves (charge (wiredDevices bench) false staDpBegun s false) r ∧
    s.dev.hookCalls = [] ∧ r.dev.hookCalls = [v] ∧ v.bus.base 0x100 = 0 ∧ v.seen 0x100 = 0 ∧
    v.bus.stores = [⟨0x10, 1, ⟨.cpu, 0⟩⟩, hdmaStore] := by
  have hseen := edgeRun_sawZero
  generalize hrun : edgeRun = run at hseen
  cases run with
  | error e => cases hseen
  | ok sr =>
    obtain ⟨s, r⟩ := sr
    obtain ⟨a, ha, hrest⟩ := bind_eq_ok_iff.mp hrun
    obtain ⟨⟨q, takeIrq⟩, hq, hout⟩ := bind_eq_ok_iff.mp hrest
    cases hout
    have heve : HookRun (wiredDevices bench) (fun _ _ => True)
        ⟨eveClock, eveRegs, ⟨blankBus, portHdma, []⟩⟩ := eve_run trivial _
    have hstart := heve.ops ha
    have hset := hstart.step (.access (.joypad 4 0) trivial (staDpDone a.dev.hookCalls))
    rw [joypad_none] at hset
    dsimp only [sawZero] at hseen
    split at hseen
    next v hcalls =>
      obtain ⟨hnone, hbase, hv, hstores⟩ := of_decide_eq_true hseen
      exact ⟨_, r, v, hset, rfl, .inl ⟨takeIrq, hq⟩, List.eq_nil_of_length_eq_zero hnone, hcalls,
        hbase, hv, hstores⟩
    next => cases hseen

/-- Whatever lands past the edge, HDMA's byte is to be kept. -/
theorem keeps_hdmaStore (m : BitVec 17 → BitVec 8) (landed : List (Nat × Nat)) (edge : Nat) :
    run m (([⟨0x10, 1, ⟨.cpu, 0⟩⟩, hdmaStore] : List WramStore).filter (keeps landed edge)) 0x100 =
      7 := by
  have hkept : keeps landed edge hdmaStore = true := rfl
  rw [List.filter_cons, List.filter_cons_of_pos hkept, List.filter_nil]
  split
  next => rfl
  next => rfl

theorem edgeHook_exact_hdma : ∃ s r v, HookRun (wiredDevices bench) (fun _ _ => True) s ∧
    Leaves (charge (wiredDevices bench) false staDpBegun s false) r ∧ v ∈ r.dev.hookCalls ∧
    ¬Harmless (rolls (firstLate s.clk.nextFrame
        (landed (wiredDevices bench) s false staDpBegun.cycles)))
      (keeps (landed (wiredDevices bench) s false staDpBegun.cycles) v.edge) v.bus.base
      v.bus.stores := by
  obtain ⟨s, r, v, hs, hbus, hr, hnone, hcalls, -, hv, hstores⟩ := edgeRun_seen
  obtain ⟨new, hnew, hall⟩ := edgeHook_exact hs hbus staDpBegun_cycles hr
  rw [hnone, hcalls, List.nil_append] at hnew
  obtain ⟨-, -, -, hiff⟩ := hall v (hnew ▸ List.mem_singleton_self v)
  refine ⟨s, r, v, hs, hr, hcalls ▸ List.mem_singleton_self v, fun hharmless => ?_⟩
  have hsaw := congrFun (hiff.mpr hharmless).1 0x100
  rw [hv, hstores, keeps_hdmaStore] at hsaw
  exact absurd hsaw (by decide)

/-- The frame hook does not always see what HDMA wrote before the edge. -/
theorem edgeHook_loses_hdma : ¬∀ (s r : Sched (Wired Bench)) (bus : WramBus) (l : List BusAccess)
    (b : Begun) (cur : Cur) (cross taken insnI takeIrq : Bool),
    HookRun (wiredDevices bench) (fun _ _ => True) s → s.dev.bus = bus.begin.accesses .cpu l →
    b.cycles = cycCycles cur cross taken (l.map BusAccess.entry) none →
    Leaves (charge (wiredDevices bench) insnI b s takeIrq) r →
    ∀ v ∈ r.dev.hookCalls.drop s.dev.hookCalls.length,
      v.seen = run v.bus.base (v.bus.stores.filter
          (keeps (landed (wiredDevices bench) s insnI b.cycles) v.edge)) ∧
        v.left = v.bus.wram := by
  intro hall
  obtain ⟨s, r, v, hs, hbus, hr, hnone, hcalls, -, hv, hstores⟩ := edgeRun_seen
  have hmem : v ∈ r.dev.hookCalls.drop s.dev.hookCalls.length := by
    rw [hnone, hcalls]
    exact List.mem_singleton_self v
  obtain ⟨hseen, -⟩ := hall s r blankBus [staDpAccess] staDpBegun staDp false false false false hs
    hbus staDpBegun_cycles hr v hmem
  have hsaw := congrFun hseen 0x100
  rw [hv, hstores, keeps_hdmaStore] at hsaw
  exact absurd hsaw (by decide)

end CtRecomp
