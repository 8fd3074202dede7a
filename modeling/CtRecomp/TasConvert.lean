import CtRecomp.Replay

namespace CtRecomp

open Scan

/-! The script of a movie's buttons (tas_convert.py). -/

/-- `start` is none up to the first frame pressed. -/
structure TasLoop where
  out : List ReplaySpan
  start : Option Int

/-- `frames[k]`, and nothing held past the end. -/
def tasFrame (frames : List (BitVec 16)) (k : Nat) : BitVec 16 := frames[k]?.getD 0

/-- `frames[k - 1]`, and nothing held before the first. -/
def tasPrev (frames : List (BitVec 16)) (k : Nat) : BitVec 16 :=
  if 0 < k then tasFrame frames (k - 1) else 0

/-- One turn of the loop of `spans`. -/
def tasStep (frames : List (BitVec 16)) (offset : Int) (s : TasLoop) (k : Nat) : TasLoop :=
  let cur := tasFrame frames k
  let prev := tasPrev frames k
  let out :=
    if 0 < k ∧ cur ≠ prev ∧ prev ≠ 0 then
      s.out ++ [⟨s.start.getD 0 + offset, k + offset, prev⟩]   -- index k-1 is frame k
    else s.out
  if cur ≠ prev then ⟨out, some (k + 1)⟩ else ⟨out, s.start⟩

/-- `spans` -/
def tasSpans (frames : List (BitVec 16)) (offset : Int) : List ReplaySpan :=
  ((List.range (frames.length + 1)).foldl (tasStep frames offset) ⟨[], none⟩).out

/-- `fmt` -/
def tasFmt (mask : BitVec 16) : List Char :=
  List.intercalate ['+'] ((replayNames.filter fun n => mask &&& n.2 ≠ 0).map Prod.fst)

/-- `f"{lo}-{hi}:{fmt(m)}"`, a line each. -/
def tasLines (spans : List ReplaySpan) : List Char :=
  (spans.map fun s =>
    printLong s.start ++ ['-'] ++ printLong s.stop ++ [':'] ++ tasFmt s.buttons ++ ['\n']).flatten

/-- The mask of the movie's frame, from 1 on. -/
def movieMask (frames : List (BitVec 16)) (f : Int) : BitVec 16 :=
  if 1 ≤ f then tasFrame frames (f - 1).toNat else 0

section

variable {frames : List (BitVec 16)} {offset : Int}

theorem tasLines_eq (spans : List ReplaySpan) : tasLines spans = spanLines spans := by
  have hfmt (mask : BitVec 16) : tasFmt mask = printButtons mask [] replayNames := by
    rw [printButtons_eq]
    by_cases hnone : heldNames mask replayNames = []
    · rw [if_pos hnone]
      unfold heldNames at hnone
      rw [tasFmt, hnone]
      rfl
    · rw [if_neg hnone]
      rfl
  unfold tasLines spanLines spanText
  simp only [hfmt]

/-- The turns taken: the movie's frames up to `k` are in the spans, but for the run of those
held the same up to there. -/
structure TasLoop.Turned (frames : List (BitVec 16)) (offset : Int) (k : Nat) (s : TasLoop) :
    Prop where
  masks : ∀ f : Int, (if f ≤ k then movieMask frames f else 0) =
    replayButtons ⟨s.out, []⟩ (f + offset) |||
      (if s.start.getD 0 ≤ f ∧ f ≤ k then tasPrev frames k else 0)
  start : tasPrev frames k ≠ 0 → 1 ≤ s.start.getD 0 ∧ s.start.getD 0 ≤ k
  order : s.out.Pairwise fun p q => p.stop < q.start
  before : ∀ p ∈ s.out, p.stop ≤ k + offset ∧
    (tasPrev frames k ≠ 0 → p.stop < s.start.getD 0 + offset)
  runs : ∀ p ∈ s.out, p.start ≤ p.stop ∧ 1 + offset ≤ p.start ∧ p.buttons ≠ 0 ∧
    p.buttons ∈ frames

theorem tasFrame_mem {k : Nat} (h : tasFrame frames k ≠ 0) : tasFrame frames k ∈ frames := by
  unfold tasFrame at h ⊢
  cases hk : frames[k]? with
  | none =>
    rw [hk] at h
    exact absurd rfl h
  | some m => exact List.mem_of_getElem? hk

theorem tasPrev_succ (k : Nat) : tasPrev frames (k + 1) = tasFrame frames k := by
  rw [tasPrev, if_pos (Nat.succ_pos k), Nat.add_sub_cancel]

theorem movieMask_succ (k : Nat) : movieMask frames (k + 1) = tasFrame frames k := by
  have hk : ((k : Int) + 1 - 1).toNat = k := by omega
  rw [movieMask, if_pos (by omega), hk]

theorem TasLoop.Turned.step {k : Nat} {s : TasLoop} (h : s.Turned frames offset k) :
    (tasStep frames offset s k).Turned frames offset (k + 1) := by
  have hmask (f : Int) : (if f ≤ (k + 1 : Nat) then movieMask frames f else 0) =
      (if f ≤ k then movieMask frames f else 0) |||
        (if f = k + 1 then tasFrame frames k else 0) := by
    by_cases hf : f = k + 1
    · subst hf
      rw [if_pos (by omega), if_neg (by omega), if_pos rfl, none_held, movieMask_succ]
    · have hle : f ≤ (k + 1 : Nat) ↔ f ≤ k := by omega
      rw [if_neg hf, held_none]
      simp only [hle]
  unfold tasStep
  by_cases hsame : tasFrame frames k = tasPrev frames k
  · -- The run goes on.
    have hflush : ¬(0 < k ∧ tasFrame frames k ≠ tasPrev frames k ∧ tasPrev frames k ≠ 0) :=
      fun hc => hc.2.1 hsame
    dsimp only
    rw [if_neg hflush, if_neg (not_not.mpr hsame)]
    refine ⟨fun f => ?_, fun hne => ?_, h.order, fun p hp => ?_, h.runs⟩
    · rw [hmask, h.masks, tasPrev_succ, hsame]
      dsimp only
      by_cases hf : f = k + 1
      · have hrun : tasPrev frames k ≠ 0 → s.start.getD 0 ≤ f := fun hne => by
          have := (h.start hne).2
          omega
        rw [if_neg (by omega : ¬(s.start.getD 0 ≤ f ∧ f ≤ k)), if_pos hf, held_none]
        by_cases hne : tasPrev frames k = 0
        · simp [hne]
        · rw [if_pos ⟨hrun hne, by omega⟩]
      · have hle : (s.start.getD 0 ≤ f ∧ f ≤ (k + 1 : Nat)) ↔ (s.start.getD 0 ≤ f ∧ f ≤ k) := by
          omega
        rw [if_neg hf, held_none]
        simp only [hle]
    · rw [tasPrev_succ, hsame] at hne
      have := h.start hne
      exact ⟨this.1, by dsimp only; omega⟩
    · obtain ⟨hstop, hrun⟩ := h.before p hp
      rw [tasPrev_succ, hsame]
      exact ⟨by omega, hrun⟩
  · -- It ends, as a span if anything was held, and another starts.
    dsimp only
    rw [if_pos hsame]
    have hspan : ∃ out, (if 0 < k ∧ tasFrame frames k ≠ tasPrev frames k ∧ tasPrev frames k ≠ 0
          then s.out ++ [⟨s.start.getD 0 + offset, k + offset, tasPrev frames k⟩]
          else s.out) = out ∧
        (∀ f, replayButtons ⟨out, []⟩ (f + offset) = replayButtons ⟨s.out, []⟩ (f + offset) |||
          (if s.start.getD 0 ≤ f ∧ f ≤ k then tasPrev frames k else 0)) ∧
        out.Pairwise (fun p q => p.stop < q.start) ∧ (∀ p ∈ out, p.stop ≤ k + offset) ∧
        ∀ p ∈ out, p.start ≤ p.stop ∧ 1 + offset ≤ p.start ∧ p.buttons ≠ 0 ∧
          p.buttons ∈ frames := by
      by_cases hnone : tasPrev frames k = 0
      · refine ⟨s.out, if_neg fun hc => hc.2.2 hnone, fun f => ?_, h.order,
          fun p hp => (h.before p hp).1, h.runs⟩
        rw [hnone, ite_self, held_none]
      · have hpos : 0 < k := by
          rcases Nat.eq_zero_or_pos k with rfl | hpos
          · exact absurd rfl hnone
          · exact hpos
        obtain ⟨hone, hle⟩ := h.start hnone
        have hmem : tasPrev frames k ∈ frames := by
          unfold tasPrev at hnone ⊢
          rw [if_pos hpos] at hnone ⊢
          exact tasFrame_mem hnone
        refine ⟨_, if_pos ⟨hpos, hsame, hnone⟩, fun f => ?_, ?_, fun p hp => ?_, fun p hp => ?_⟩
        · rw [replayButtons_snoc]
          have hin : (f + offset ≥ s.start.getD 0 + offset ∧ f + offset ≤ k + offset) ↔
              (s.start.getD 0 ≤ f ∧ f ≤ k) := by omega
          simp only [hin]
        · refine List.pairwise_append.mpr ⟨h.order, List.pairwise_singleton _ _, fun p hp q hq => ?_⟩
          rw [List.mem_singleton.mp hq]
          exact (h.before p hp).2 hnone
        · rcases List.mem_append.mp hp with hp | hp
          · exact (h.before p hp).1
          · exact Int.le_of_eq (congrArg ReplaySpan.stop (List.mem_singleton.mp hp))
        · rcases List.mem_append.mp hp with hp | hp
          · exact h.runs p hp
          · rw [List.mem_singleton.mp hp]
            exact ⟨by dsimp only; omega, by dsimp only; omega, hnone, hmem⟩
    obtain ⟨out, hout, hbuttons, horder, hstop, hruns⟩ := hspan
    rw [hout]
    refine ⟨fun f => ?_, fun _ => ⟨by dsimp only [Option.getD_some]; omega,
      by dsimp only [Option.getD_some]; omega⟩, horder, fun p hp => ?_, hruns⟩
    · rw [hmask, h.masks, ← hbuttons, tasPrev_succ]
      have hlast : (f = k + 1) ↔ ((some ((k : Int) + 1)).getD 0 ≤ f ∧ f ≤ (k + 1 : Nat)) := by
        dsimp only [Option.getD_some]
        omega
      simp only [hlast]
    · have := hstop p hp
      exact ⟨by omega, fun _ => by dsimp only [Option.getD_some]; omega⟩

theorem tasLoop_turned (frames : List (BitVec 16)) (offset : Int) (k : Nat) :
    ((List.range k).foldl (tasStep frames offset) ⟨[], none⟩).Turned frames offset k := by
  induction k with
  | zero =>
    change TasLoop.Turned frames offset 0 ⟨[], none⟩
    refine ⟨fun f => ?_, fun hne => absurd rfl hne, List.Pairwise.nil,
      fun p hp => absurd hp List.not_mem_nil, fun p hp => absurd hp List.not_mem_nil⟩
    have hprev : tasPrev frames 0 = 0 := rfl
    have hempty : replayButtons ⟨[], []⟩ (f + offset) = 0 := rfl
    rw [hprev, ite_self, hempty, held_none]
    by_cases hf : f ≤ (0 : Nat)
    · rw [if_pos hf, movieMask, if_neg (by omega)]
    · rw [if_neg hf]
  | succ k ih =>
    rw [List.range_succ, List.foldl_append]
    exact ih.step

end

/-- The lines of a movie whose first span starts at 1 or later and whose last ends in a `long`
all load as its spans, in order and apart, and hold at every script frame what the movie holds
at that frame less the offset. -/
theorem tas_convert_loads (frames : List (BitVec 16)) (offset : Int)
    (hpad : ∀ m ∈ frames, m &&& 0xFFF0 = m)
    (hfirst : ∀ s ∈ (tasSpans frames offset).head?, 1 ≤ s.start)
    (hlast : ∀ s ∈ (tasSpans frames offset).getLast?, s.stop < 2 ^ 63) (r : Replay) :
    replayLoad r (tasLines (tasSpans frames offset)) =
        (0, { r with spans := r.spans ++ tasSpans frames offset }) ∧
      (tasSpans frames offset).Pairwise (fun p q => p.stop < q.start) ∧
      ∀ k : Int, replayButtons ⟨tasSpans frames offset, []⟩ (k + offset) = movieMask frames k := by
  have hturned := tasLoop_turned frames offset (frames.length + 1)
  have horder : (tasSpans frames offset).Pairwise (fun p q => p.stop < q.start) := hturned.order
  have hgood : ∀ s ∈ tasSpans frames offset, s.Good := by
    intro s hs
    obtain ⟨hle, -, hne, hmem⟩ := hturned.runs s hs
    refine ⟨?_, hle, ?_, hpad _ hmem, hne⟩
    · cases hspans : tasSpans frames offset with
      | nil =>
        rw [hspans] at hs
        cases hs
      | cons p rest =>
        have hp := hfirst p (by rw [hspans]; rfl)
        rw [hspans] at hs horder
        rcases List.mem_cons.mp hs with rfl | hs'
        · exact hp
        · have hlt := (List.pairwise_cons.mp horder).1 s hs'
          have hple := (hturned.runs p (by
            change p ∈ tasSpans frames offset
            rw [hspans]
            exact List.mem_cons_self)).1
          omega
    · rcases List.eq_nil_or_concat (tasSpans frames offset) with hspans | ⟨init, p, hspans⟩
      · rw [hspans] at hs
        cases hs
      · rw [List.concat_eq_append] at hspans
        have hp := hlast p (by rw [hspans]; simp)
        rw [hspans] at hs horder
        rcases List.mem_append.mp hs with hs' | hs'
        · have hlt := (List.pairwise_append.mp horder).2.2 s hs' p (by simp)
          have hple := (hturned.runs p (by
            change p ∈ tasSpans frames offset
            rw [hspans]
            simp)).1
          omega
        · rw [List.mem_singleton.mp hs']
          exact hp
  refine ⟨?_, horder, fun k => ?_⟩
  · have hload := replayLines_spans hgood r []
    rw [List.append_nil] at hload
    unfold replayLoad
    rw [tasLines_eq, hload]
    rfl
  · have hmask := hturned.masks k
    have hprev : tasPrev frames (frames.length + 1) = 0 := by
      rw [tasPrev_succ, tasFrame, List.getElem?_eq_none (Nat.le_refl _)]
      rfl
    rw [hprev, ite_self, held_none] at hmask
    refine hmask.symm.trans ?_
    by_cases hk : k ≤ (frames.length + 1 : Nat)
    · rw [if_pos hk]
    · rw [if_neg hk, movieMask, if_pos (by omega), tasFrame, List.getElem?_eq_none (by omega)]
      rfl

/-- B on frames 1 and 2, then B and A. -/
def bMovie : List (BitVec 16) := [0x8000, 0x8000, 0x8080, 0]

theorem tas_convert_loads_b :
    replayLoad ⟨[], []⟩ (tasLines (tasSpans bMovie 5)) = (0, ⟨[] ++ tasSpans bMovie 5, []⟩) ∧
      (tasSpans bMovie 5).Pairwise (fun p q => p.stop < q.start) ∧
      ∀ k : Int, replayButtons ⟨tasSpans bMovie 5, []⟩ (k + 5) = movieMask bMovie k :=
  tas_convert_loads bMovie 5 (by simp [bMovie]) (by decide +kernel) (by decide +kernel) ⟨[], []⟩

/-- Past the last `long` the line's frames are both read as that. -/
theorem tas_convert_clamped : ¬∀ (frames : List (BitVec 16)) (offset : Int),
    (∀ m ∈ frames, m &&& 0xFFF0 = m) →
    (∀ s ∈ (tasSpans frames offset).head?, 1 ≤ s.start) →
    ∃ r, replayLoad ⟨[], []⟩ (tasLines (tasSpans frames offset)) = (0, r) ∧
      ∀ k : Int, -2 ^ 63 ≤ k + offset → k + offset < 2 ^ 63 →
        replayButtons r (k + offset) = movieMask frames k := by
  intro hall
  obtain ⟨r, hr, hbuttons⟩ := hall [0x8000] 9223372036854775808 (by simp) (by decide +kernel)
  have hread : replayButtons (replayLoad ⟨[], []⟩
      (tasLines (tasSpans [0x8000] 9223372036854775808))).2 9223372036854775807 = 0x8000 := by
    decide +kernel
  have hframe := hbuttons (-1) (by omega) (by omega)
  have hat : (-1 + 9223372036854775808 : Int) = 9223372036854775807 := by omega
  have hmask : movieMask [0x8000] (-1) = 0 := by decide
  rw [hr] at hread
  rw [hat, hread, hmask] at hframe
  exact absurd hframe (by decide)

end CtRecomp
