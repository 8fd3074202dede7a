import CtRecomp.CycleTables
import CtRecomp.SchedHooks
import CtRecomp.WalkKeeps

namespace CtRecomp

open Loop

/-! Where the writes of an instruction land. -/

section Landings

variable {δ : Type} {D : Devices δ} {s : Sched δ} {i : Bool}

/-- The bus access number of a write cycle. -/
def Cycle.writes (c : Cycle) : Option Nat := if c.kind = .write then c.idx else none

/-- The clock each write lands at, by its bus access number. -/
def landings (D : Devices δ) (s : Sched δ) (i : Bool) : List Cycle → Walk → Except String (List (Nat × Nat))
  | [], _ => .ok []
  | c :: cs, w => do
    let (w, smp) ← walkCycle D s i c w
    let rest ← landings D s i cs w
    pure ((c.writes.map fun k => (k, smp)).toList ++ rest)

/-- The walk of an instruction is in the raster, and `edge` is set once its frame is over. -/
structure Walk.EdgeNoted (s : Sched δ) (w : Walk) : Prop where
  inFrame : w.line < 262
  fieldBase : s.clk.fieldBase ≤ s.clk.frames
  ls : w.ls = lineBegin (w.frame - s.clk.fieldBase) w.line
  frame : s.clk.frames ≤ w.frame
  edge : w.edge = true ↔ s.clk.frames < w.frame

theorem edgeNoted_init (hs : s.clk.InRaster) : (walkInit s).EdgeNoted s :=
  ⟨hs.inFrame, hs.fieldBase, hs.lineStart, Nat.le_refl _,
    ⟨nofun, fun h => absurd h (Nat.lt_irrefl _)⟩⟩

theorem walkLineEnd_edge {e : Nat} {w w' : Walk} (h : walkLineEnd s.regs e w = .ok w') :
    w'.edge = if w.line + 1 = schedLines then true else w.edge := by
  obtain ⟨irqAt, -, h⟩ := bind_eq_ok_iff.mp h
  cases h
  dsimp only
  split
  next => rfl
  next => rfl

theorem Walk.EdgeNoted.lineEnd {w w' : Walk} (hw : w.EdgeNoted s)
    (h : walkLineEnd s.regs (w.ls + lineLength (w.frame - s.clk.fieldBase) w.line) w = .ok w') :
    w'.EdgeNoted s := by
  have hbeam := walkLineEnd_beam h
  have hedge := walkLineEnd_edge h
  have hline : w'.line = if w.line + 1 = 262 then 0 else w.line + 1 := congrArg Beam.line hbeam
  have hframe : w'.frame = if w.line + 1 = 262 then w.frame + 1 else w.frame :=
    congrArg Beam.frame hbeam
  have hls : w'.ls = w.ls + lineLength (w.frame - s.clk.fieldBase) w.line :=
    congrArg Beam.lineStart hbeam
  have hin := hw.inFrame
  have hbase := hw.fieldBase
  have hle := hw.frame
  rw [hw.ls] at hls
  by_cases hlast : w.line + 1 = 262
  · rw [if_pos hlast] at hline hframe hedge
    have hfield : w.frame + 1 - s.clk.fieldBase = w.frame - s.clk.fieldBase + 1 := by omega
    refine ⟨by omega, hbase, ?_, by omega, ⟨fun _ => by omega, fun _ => hedge⟩⟩
    rw [hls, hline, hframe, hfield, lineBegin_zero, frameStart_succ, Nat.succ.inj hlast]
  · rw [if_neg hlast] at hline hframe hedge
    refine ⟨by omega, hbase, ?_, by omega, by rw [hedge, hframe]; exact hw.edge⟩
    rw [hls, hline, hframe, lineBegin_succ (by omega)]

theorem edgeNoted_walkInvariant (D : Devices δ) (s : Sched δ) :
    WalkInvariant D s (Walk.EdgeNoted s) where
  time _ _ hw := ⟨hw.inFrame, hw.fieldBase, hw.ls, hw.frame, hw.edge⟩
  span _ _ _ hw := ⟨hw.inFrame, hw.fieldBase, hw.ls, hw.frame, hw.edge⟩
  transfer _ _ _ _ _ hw := ⟨hw.inFrame, hw.fieldBase, hw.ls, hw.frame, hw.edge⟩
  sample _ _ _ hw := ⟨hw.inFrame, hw.fieldBase, hw.ls, hw.frame, hw.edge⟩
  accessed w c hw := by
    unfold Walk.accessed Walk.noteWrite
    split
    next => exact ⟨hw.inFrame, hw.fieldBase, hw.ls, hw.frame, hw.edge⟩
    next => exact ⟨hw.inFrame, hw.fieldBase, hw.ls, hw.frame, hw.edge⟩
  event p p' hw h := by
    simp only [walkStep] at h
    split at h
    next => cases h
    next =>
    obtain ⟨q, hq, hout⟩ := map_eq_ok_iff.mp h
    cases hout
    cases hk : (walkNext s.clk.fieldBase p.w).1 with
    | lineEnd =>
      rw [hk, (walkNext_lineEnd hk).2] at hq
      obtain ⟨w, hend, hout⟩ := map_eq_ok_iff.mp hq
      cases hout
      exact hw.lineEnd hend
    | refresh | hdma | init | nmi | irq =>
      rw [hk] at hq
      cases hq
      exact ⟨hw.inFrame, hw.fieldBase, hw.ls, hw.frame, hw.edge⟩

/-- A write samples at its cycle's end. -/
theorem walkPass_end {n smp : Nat} {w w' : Walk} (h : walkPass D s n n w = .ok (w', smp)) :
    smp = w'.t := by
  obtain ⟨p, hp, hout⟩ := bind_eq_ok_iff.mp h
  cases hout
  refine measured_invariant (P := fun p : Pass => p.smp = p.endAt) (fun a b ha hab => ?_) rfl hp
  simp only [walkStep] at hab
  split at hab
  next => cases hab
  next hdue =>
  obtain ⟨q, hq, hout⟩ := map_eq_ok_iff.mp hab
  cases hout
  cases hk : (walkNext s.clk.fieldBase a.w).1 with
  | refresh =>
    rw [hk] at hq
    cases hq
    dsimp only
    rw [if_pos (ha ▸ Nat.le_of_not_lt hdue), ha]
  | lineEnd =>
    rw [hk] at hq
    obtain ⟨w, -, hout⟩ := map_eq_ok_iff.mp hq
    cases hout
    exact ha
  | hdma | init | nmi | irq =>
    rw [hk] at hq
    cases hq
    exact ha

theorem undoFrom_passInvariant (D : Devices δ) (s : Sched δ) (u : Option Nat) :
    PassInvariant D s (fun w => w.undoFrom = u) where
  time _ _ hw := hw
  span _ _ _ hw := hw
  transfer _ _ _ _ _ hw := hw
  sample _ _ _ hw := hw
  event p p' hw h := by
    simp only [walkStep] at h
    split at h
    next => cases h
    next =>
    obtain ⟨q, hq, hout⟩ := map_eq_ok_iff.mp h
    cases hout
    cases hk : (walkNext s.clk.fieldBase p.w).1 with
    | lineEnd =>
      rw [hk] at hq
      obtain ⟨w, hend, hout⟩ := map_eq_ok_iff.mp hq
      obtain ⟨irqAt, -, hend⟩ := bind_eq_ok_iff.mp hend
      cases hout
      cases hend
      dsimp only
      split
      next => exact hw
      next => exact hw
    | refresh | hdma | init | nmi | irq =>
      rw [hk] at hq
      cases hq
      exact hw

/-- A cycle notes its write once the frame is over. -/
theorem walkCycle_undoFrom {c : Cycle} {w w' : Walk} {smp : Nat}
    (h : walkCycle D s i c w = .ok (w', smp)) : w'.undoFrom =
      if w'.edge = true ∧ w.undoFrom = none then c.writes else w.undoFrom := by
  obtain ⟨u, hu, h⟩ := bind_eq_ok_iff.mp h
  obtain ⟨⟨v, smp'⟩, hv, h⟩ := bind_eq_ok_iff.mp h
  cases h
  have hkeep := undoFrom_passInvariant D s w.undoFrom
  have hsame : v.undoFrom = w.undoFrom := hkeep.pass (hkeep.cycleStart rfl hu) hv
  have hedge : (v.accessed c).edge = v.edge := by
    unfold Walk.accessed Walk.noteWrite
    split
    next => rfl
    next => rfl
  rw [hedge, ← hsame]
  unfold Walk.accessed Walk.noteWrite Cycle.writes
  by_cases hold : v.edge = true ∧ v.undoFrom = none
  · rw [if_pos hold]
    by_cases hwrite : c.kind = .write
    · cases hidx : c.idx with
      | none => simp [hold.2, Walk.setPend]
      | some k => simp [hold, hwrite, Walk.setPend]
    · simp [hold.2, hwrite, Walk.setPend]
  · rw [if_neg hold, if_neg fun hn => hold ⟨hn.1, hn.2.1⟩]
    rfl

/-- Where the frame after the one under way begins. -/
def Clock.nextFrame (c : Clock) : Nat := frameStart (c.frames + 1 - c.fieldBase)

theorem walkCycle_noted {c : Cycle} {w w' : Walk} {smp : Nat} (hw : w.EdgeNoted s) (hls : w.ls ≤ w.t)
    (h : walkCycle D s i c w = .ok (w', smp)) :
    w'.EdgeNoted s ∧ w'.ls ≤ w'.t ∧ (w'.edge = true ↔ s.clk.nextFrame ≤ w'.t) := by
  have hnoted := (edgeNoted_walkInvariant D s).cycle hw h
  have hout := walkCycle_out h
  have hbegun : w'.ls ≤ w'.t := by
    refine hout.walked.fires.invariant (P := fun b : Beam => b.lineStart ≤ w'.t) (fun b hb hdue => ?_)
      (Nat.le_trans hls hout.walked.later)
    simp only [raster] at hdue ⊢
    split at hdue
    next hr =>
      rw [if_pos hr]
      exact hdue
    next hr =>
      rw [if_neg hr]
      exact hb
  have hbase := hnoted.fieldBase
  have hle := hnoted.frame
  refine ⟨hnoted, hbegun, fun hedge => ?_, fun hpast => ?_⟩
  · have hstart : frameStart (w'.frame - s.clk.fieldBase) ≤ w'.ls := by
      rw [hnoted.ls]
      unfold lineBegin
      split <;> omega
    have hframe := hnoted.edge.mp hedge
    have hmono : s.clk.nextFrame ≤ frameStart (w'.frame - s.clk.fieldBase) :=
      frameStart_mono (by omega)
    omega
  · by_contra hno
    have hframe : w'.frame = s.clk.frames :=
      Nat.le_antisymm (Nat.le_of_not_lt fun hlt => hno (hnoted.edge.mpr hlt)) hle
    have hsettled : w'.t < (raster s.clk.fieldBase).due w'.beam := hout.settled
    have hend : (raster s.clk.fieldBase).due w'.beam ≤
        w'.ls + lineLength (w'.frame - s.clk.fieldBase) w'.line := by
      simp only [raster, Walk.beam]
      split
      next => exact Nat.le_refl _
      next => exact Nat.le_of_lt (refreshPoint_lt _ _ _)
    have hline := lineBegin_le (w'.frame - s.clk.fieldBase) hnoted.inFrame
    have hnext : s.clk.frames - s.clk.fieldBase + 1 = s.clk.frames + 1 - s.clk.fieldBase := by omega
    rw [← hnoted.ls, hframe, hnext] at hline
    rw [hframe] at hend
    unfold Clock.nextFrame at hpast
    omega

theorem walkCycle_writes {c : Cycle} {w w' : Walk} {smp k : Nat} (hc : c.writes = some k)
    (h : walkCycle D s i c w = .ok (w', smp)) : smp = w'.t := by
  obtain ⟨u, hu, h⟩ := bind_eq_ok_iff.mp h
  obtain ⟨⟨v, smp'⟩, hv, h⟩ := bind_eq_ok_iff.mp h
  have hkind : c.kind = .write := by
    by_contra hno
    rw [Cycle.writes, if_neg hno] at hc
    cases hc
  rw [hkind] at hv
  cases h
  rw [(accessed_beam c v).2]
  exact walkPass_end hv

theorem landings_keys {cs : List Cycle} {w : Walk} {ls : List (Nat × Nat)}
    (h : landings D s i cs w = .ok ls) : ls.map Prod.fst = cs.filterMap Cycle.writes := by
  induction cs generalizing w ls with
  | nil =>
    cases h
    rfl
  | cons c cs ih =>
    obtain ⟨⟨v, smp⟩, hv, h⟩ := bind_eq_ok_iff.mp h
    obtain ⟨rest, hrest, h⟩ := bind_eq_ok_iff.mp h
    cases h
    rw [List.map_append, ih hrest, List.filterMap_cons]
    cases c.writes with
    | none => rfl
    | some k => rfl

/-- The first write past the frame, by its bus access number. -/
def firstLate (edge : Nat) : List (Nat × Nat) → Option Nat
  | [] => none
  | (k, t) :: ls => if edge ≤ t then some k else firstLate edge ls

/-- `undo_from` is the first write that lands past the frame. -/
theorem walkCycles_undoFrom {cs : List Cycle} {w w' : Walk} {smp smp' : Nat} (hw : w.EdgeNoted s)
    (hin : w.ls ≤ w.t) (h : walkCycles D s i cs (w, smp) = .ok (w', smp')) :
    ∃ ls, landings D s i cs w = .ok ls ∧
      w'.undoFrom = w.undoFrom.or (firstLate s.clk.nextFrame ls) := by
  induction cs generalizing w smp with
  | nil =>
    cases h
    exact ⟨[], rfl, (Option.or_none).symm⟩
  | cons c cs ih =>
    obtain ⟨⟨v, smp₁⟩, hv, h⟩ := bind_eq_ok_iff.mp h
    obtain ⟨hvw, hvin, hedge⟩ := walkCycle_noted hw hin hv
    obtain ⟨ls, hls, hrest⟩ := ih hvw hvin h
    refine ⟨(c.writes.map fun k => (k, smp₁)).toList ++ ls, ?_, ?_⟩
    · unfold landings
      rw [hv]
      change (landings D s i cs v >>= _) = _
      rw [hls]
      rfl
    · rw [hrest, walkCycle_undoFrom hv]
      cases hc : c.writes with
      | none =>
        cases hu : w.undoFrom with
        | none =>
          rw [ite_self]
          rfl
        | some f =>
          rw [if_neg (by simp)]
          rfl
      | some k =>
        have hsmp := walkCycle_writes hc hv
        rw [hsmp]
        cases hu : w.undoFrom with
        | some f =>
          rw [if_neg (by simp)]
          rfl
        | none =>
          rw [Option.none_or, Option.map_some, Option.toList_some, List.singleton_append, firstLate]
          by_cases hpast : s.clk.nextFrame ≤ v.t
          · rw [if_pos ⟨hedge.mpr hpast, rfl⟩, if_pos hpast]
            rfl
          · rw [if_neg fun hset => hpast (hedge.mp hset.1), if_neg hpast]
            rfl

/-- A write past the frame comes no earlier than the first. -/
theorem firstLate_le {edge : Nat} {ls : List (Nat × Nat)} (hsorted : (ls.map Prod.fst).Pairwise (· < ·))
    {e : Nat × Nat} (he : e ∈ ls) (hlate : edge ≤ e.2) : ∃ f, firstLate edge ls = some f ∧ f ≤ e.1 := by
  induction ls with
  | nil => cases he
  | cons a ls ih =>
    obtain ⟨hfirst, hrest⟩ := List.pairwise_cons.mp hsorted
    rw [firstLate]
    by_cases ha : edge ≤ a.2
    · rw [if_pos ha]
      refine ⟨a.1, rfl, ?_⟩
      rcases List.mem_cons.mp he with rfl | he
      · exact Nat.le_refl _
      · exact Nat.le_of_lt (hfirst _ (List.mem_map_of_mem he))
    · rw [if_neg ha]
      rcases List.mem_cons.mp he with rfl | he
      · exact absurd hlate ha
      · exact ih hrest he

end Landings

/-! The writes `cyc_cycles` lists are in the order of their accesses. -/

theorem cycleLoop_writes (cur : Cur) (upto : Option Nat) (slots : List Slot)
    {fe : List (LogEntry × Nat)} (hfe : ∀ e ∈ fe, e.1.fetch = true → e.1.write = false)
    (da : List (LogEntry × Nat)) :
    ((cycleLoop cur upto slots fe da).filterMap Cycle.writes).Sublist
      ((kindOf false da).map Prod.snd) := by
  induction slots generalizing fe da with
  | nil => exact List.nil_sublist _
  | cons slot slots ih =>
    cases slot with
    | fetch | idle => exact ih hfe da
    | logged operand =>
      unfold cycleLoop
      cases hs : seek operand (if operand then fe else da) with
      | nil =>
        cases upto with
        | some _ => exact List.nil_sublist _
        | none =>
          cases operand with
          | true => exact ih (List.forall_mem_nil _) da
          | false => exact (ih hfe []).trans (List.nil_sublist _)
      | cons e rest =>
        obtain ⟨e, n⟩ := e
        have stop {l : List Cycle} {k : List Nat} (h : (l.filterMap Cycle.writes).Sublist k) :
            ((if upto = some n then [] else l).filterMap Cycle.writes).Sublist k := by
          split
          next => exact List.nil_sublist _
          next => exact h
        cases operand with
        | true =>
          obtain ⟨hfetch, hmem⟩ := mem_seek hs
          have hread : (e.cycle n).writes = none := by
            have hno : e.write = false := hfe _ (hmem _ List.mem_cons_self) hfetch
            simp [Cycle.writes, LogEntry.cycle, hno]
          dsimp only
          rw [List.filterMap_cons_none hread]
          exact stop (ih (fun a ha => hfe a (hmem a (List.mem_cons_of_mem _ ha))) da)
        | false =>
          have hkind : kindOf false da = (e, n) :: kindOf false rest := seek_cons hs
          have hrest := ih hfe rest
          dsimp only
          rw [List.filterMap_cons, hkind, List.map_cons]
          by_cases hw : e.write = true
          · have hsome : (e.cycle n).writes = some n := by simp [Cycle.writes, LogEntry.cycle, hw]
            rw [hsome]
            exact (stop hrest).cons_cons n
          · have hnone : (e.cycle n).writes = none := by simp [Cycle.writes, LogEntry.cycle, hw]
            rw [hnone]
            exact (stop hrest).cons n

theorem cycCycles_writes (cur : Cur) (cross taken : Bool) (log : List LogEntry)
    (hlog : ∀ e ∈ log, e.fetch = true → e.write = false) (upto : Option Nat) :
    ((cycCycles cur cross taken log upto).filterMap Cycle.writes).Pairwise (· < ·) ∧
      ∀ k ∈ (cycCycles cur cross taken log upto).filterMap Cycle.writes, k < ctBusLog := by
  have hindices : ((log.take ctBusLog).zipIdx.map Prod.snd) = List.range' 0 (log.take ctBusLog).length :=
    List.zipIdx_map_snd 0 _
  have hlisted : ((cycCycles cur cross taken log upto).filterMap Cycle.writes).Sublist
      (List.range' 0 (log.take ctBusLog).length) := by
    unfold cycCycles
    split
    next => exact List.nil_sublist _
    next =>
      refine (cycleLoop_writes _ _ _ (fun e he => ?_) _).trans ?_
      · exact hlog _ (List.mem_of_mem_take (List.fst_mem_of_mem_zipIdx he))
      · rw [← hindices]
        exact List.filter_sublist.map _
  refine ⟨(List.pairwise_lt_range' 1).sublist hlisted, fun k hk => ?_⟩
  have hmem := List.mem_range'_1.mp (hlisted.subset hk)
  have hlen : (log.take ctBusLog).length ≤ ctBusLog := List.length_take_le _ _
  omega

end CtRecomp
