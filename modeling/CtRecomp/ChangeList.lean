import Mathlib.Algebra.Ring.Int.Defs
import Mathlib.Data.Finset.Sort
import Mathlib.Data.Nat.BitIndices
import CtRecomp.ChangeLog
import CtRecomp.Replay

namespace CtRecomp

open ChangeLog

/-! The button changes a script gives the reference emulator (mesen_ref.py). -/

/-- A frame, with what is appended to its events: a mask pressed (1) or released (-1). -/
abbrev PadEvent := Int × BitVec 16 × Int

def spanEvents (s : ReplaySpan) : List PadEvent :=
  [(s.start, s.buttons, 1), (s.stop + 1, s.buttons, -1)]

/-- `events`, as all that is appended. -/
def padEvents (spans : List ReplaySpan) : List PadEvent := spans.flatMap spanEvents

/-- `events[f]` -/
def eventsAt (spans : List ReplaySpan) (f : Int) : List (BitVec 16 × Int) :=
  ((padEvents spans).filter (·.1 = f)).map Prod.snd

/-- Spans holding each bit, after one more event. -/
def countHeld (held : Nat → Int) (e : BitVec 16 × Int) : Nat → Int :=
  fun b => if e.1.getLsbD b then held b + e.2 else held b

/-- `sum(1 << b for b in range(16) if held[b])` -/
def heldMask (held : Nat → Int) : BitVec 16 :=
  BitVec.ofNat 16 (((List.range 16).filter (held · ≠ 0)).map fun b => 2 ^ b).sum

structure PadSweep where
  held : Nat → Int
  out : List (Int × BitVec 16)
  prev : BitVec 16

def sweepFrame (spans : List ReplaySpan) (s : PadSweep) (f : Int) : PadSweep :=
  let held := (eventsAt spans f).foldl countHeld s.held
  let m := heldMask held
  if m ≠ s.prev then ⟨held, s.out ++ [(f, m)], m⟩ else { s with held }

/-- `sorted(events)` -/
def eventFrames (spans : List ReplaySpan) : List Int :=
  ((padEvents spans).map Prod.fst).toFinset.sort

def changes (spans : List ReplaySpan) : List (Int × BitVec 16) :=
  ((eventFrames spans).foldl (sweepFrame spans) ⟨fun _ => 0, [], 0⟩).out

/-- `buttons` of the script generated. -/
def padAt (log : List (Int × BitVec 16)) (f : Int) : BitVec 16 := latest 0 log f

/-! The counters. -/

/-- What events add to the counter of a bit. -/
def weight (events : List PadEvent) (b : Nat) : Int :=
  (events.map fun e => if e.2.1.getLsbD b then e.2.2 else 0).sum

theorem weight_cons (e : PadEvent) (events : List PadEvent) (b : Nat) :
    weight (e :: events) b = (if e.2.1.getLsbD b then e.2.2 else 0) + weight events b := by
  rw [weight, List.map_cons, List.sum_cons]
  rfl

theorem foldl_countHeld (events : List PadEvent) (held : Nat → Int) (b : Nat) :
    (events.map Prod.snd).foldl countHeld held b = held b + weight events b := by
  induction events generalizing held with
  | nil => exact (Int.add_zero _).symm
  | cons e events ih =>
    rw [List.map_cons, List.foldl_cons, ih, weight_cons, countHeld]
    split <;> omega

/-- The events of one more frame. -/
theorem weight_frame {ks : List Int} {k : Int} (hk : k ∉ ks) (events : List PadEvent) (b : Nat) :
    weight (events.filter (·.1 ∉ k :: ks)) b + weight (events.filter (·.1 = k)) b =
      weight (events.filter (·.1 ∉ ks)) b := by
  induction events with
  | nil => rfl
  | cons e events ih =>
    by_cases heq : e.1 = k
    · have hmem : e.1 ∉ ks := fun h => hk (heq ▸ h)
      rw [List.filter_cons_of_neg (by simp [heq]), List.filter_cons_of_pos (by simp [heq]),
        List.filter_cons_of_pos (by simpa using hmem), weight_cons, weight_cons, ← ih]
      omega
    · by_cases hmem : e.1 ∈ ks
      · rw [List.filter_cons_of_neg (by simp [hmem]), List.filter_cons_of_neg (by simp [heq]),
          List.filter_cons_of_neg (by simp [hmem])]
        exact ih
      · rw [List.filter_cons_of_pos (by simp [heq, hmem]), List.filter_cons_of_neg (by simp [heq]),
          List.filter_cons_of_pos (by simpa using hmem), weight_cons, weight_cons, ← ih]
        omega

/-- The counters once the events up to a frame are counted. -/
def heldAt (spans : List ReplaySpan) (f : Int) : Nat → Int :=
  weight ((padEvents spans).filter (·.1 ≤ f))

def ReplaySpan.Holds (s : ReplaySpan) (f : Int) (b : Nat) : Prop :=
  s.start ≤ f ∧ f ≤ s.stop ∧ s.buttons.getLsbD b = true

instance (s : ReplaySpan) (f : Int) (b : Nat) : Decidable (s.Holds f b) := by
  unfold ReplaySpan.Holds
  infer_instance

/-- A counter counts the spans that hold its bit. -/
theorem heldAt_count {spans : List ReplaySpan} (h : ∀ s ∈ spans, s.start ≤ s.stop) (f : Int)
    (b : Nat) : heldAt spans f b = spans.countP fun s => decide (s.Holds f b) := by
  unfold heldAt
  induction spans with
  | nil => rfl
  | cons s spans ih =>
    have hs := h s List.mem_cons_self
    have hrest := ih fun s hs => h s (List.mem_cons_of_mem _ hs)
    have hevents : padEvents (s :: spans) =
        (s.start, s.buttons, 1) :: (s.stop + 1, s.buttons, -1) :: padEvents spans := rfl
    rw [hevents, List.countP_cons, Int.natCast_add, ← hrest]
    by_cases hstop : s.stop + 1 ≤ f
    · -- The span is over: its two events cancel.
      have hout : ¬s.Holds f b := fun hin => by
        have := hin.2.1
        omega
      rw [List.filter_cons_of_pos (by simp only [decide_eq_true_eq]; omega),
        List.filter_cons_of_pos (by simpa using hstop), weight_cons, weight_cons]
      simp only [hout, decide_false, Bool.false_eq_true, if_false]
      split <;> omega
    · by_cases hstart : s.start ≤ f
      · rw [List.filter_cons_of_pos (by simpa using hstart),
          List.filter_cons_of_neg (by simpa using hstop), weight_cons]
        by_cases hbit : s.buttons.getLsbD b = true
        · have hin : s.Holds f b := ⟨hstart, by omega, hbit⟩
          simp only [hin, hbit, decide_true, if_true]
          omega
        · have hout : ¬s.Holds f b := fun hin => hbit hin.2.2
          simp only [hout, hbit, decide_false, Bool.false_eq_true, if_false]
          omega
      · have hout : ¬s.Holds f b := fun hin => hstart hin.1
        rw [List.filter_cons_of_neg (by simpa using hstart),
          List.filter_cons_of_neg (by simpa using hstop)]
        simp only [hout, decide_false, Bool.false_eq_true, if_false]
        omega

theorem heldMask_bit (held : Nat → Int) (b : Nat) :
    (heldMask held).getLsbD b = (decide (b < 16) && decide (held b ≠ 0)) := by
  have hsorted : ((List.range 16).filter (held · ≠ 0)).SortedLT :=
    (List.pairwise_lt_range.filter _).sortedLT
  have hbit : (((List.range 16).filter (held · ≠ 0)).map fun b => 2 ^ b).sum.testBit b =
      decide (b ∈ (List.range 16).filter (held · ≠ 0)) := by
    rw [← Nat.bitIndices_sum_map_two_pow hsorted]
    simp
  rw [heldMask, BitVec.getLsbD_ofNat, hbit]
  by_cases hb : b < 16
  · simp [hb]
  · simp [hb]

theorem replayButtons_bit (r : Replay) (f : Int) (b : Nat) :
    (replayButtons r f).getLsbD b = true ↔ ∃ s ∈ r.spans, s.Holds f b := by
  have hfold (spans : List ReplaySpan) (m : BitVec 16) :
      (spans.foldl (fun m s => if f ≥ s.start ∧ f ≤ s.stop then m ||| s.buttons else m)
        m).getLsbD b = true ↔ m.getLsbD b = true ∨ ∃ s ∈ spans, s.Holds f b := by
    induction spans generalizing m with
    | nil => simp
    | cons s spans ih =>
      rw [List.foldl_cons, ih]
      by_cases hin : f ≥ s.start ∧ f ≤ s.stop
      · rw [if_pos hin, BitVec.getLsbD_or, Bool.or_eq_true, List.exists_mem_cons_iff, or_assoc]
        simp [ReplaySpan.Holds, hin.1, hin.2]
      · rw [if_neg hin, List.exists_mem_cons_iff]
        have hout : ¬s.Holds f b := fun h => hin ⟨h.1, h.2.1⟩
        simp [hout]
  unfold replayButtons
  rw [hfold]
  simp

/-- The counters' mask is what the script holds. -/
theorem heldMask_at {r : Replay} (h : ∀ s ∈ r.spans, s.start ≤ s.stop) (f : Int) :
    heldMask (heldAt r.spans f) = replayButtons r f := by
  refine BitVec.eq_of_getLsbD_eq fun b hb => ?_
  rw [heldMask_bit, Bool.eq_iff_iff, replayButtons_bit, heldAt_count h]
  simp [hb, List.countP_eq_zero]

/-! The sweep. -/

theorem mem_eventFrames {spans : List ReplaySpan} {f : Int} :
    f ∈ eventFrames spans ↔ ∃ e ∈ padEvents spans, e.1 = f := by
  simp [eventFrames]

/-- What the sweep has counted is what the frames left do not have. -/
theorem sweep_record {spans : List ReplaySpan} {ks : List Int} (hks : ks.Pairwise (· < ·))
    (hleft : ∀ e ∈ padEvents spans, e.1 ∈ ks ∨ ∀ k ∈ ks, e.1 < k) {s : PadSweep}
    (hheld : ∀ b, s.held b = weight ((padEvents spans).filter (·.1 ∉ ks)) b) :
    (ks.foldl (sweepFrame spans) s).out =
      s.out ++ record (fun f => heldMask (heldAt spans f)) s.prev ks := by
  induction ks generalizing s with
  | nil => exact (List.append_nil _).symm
  | cons k ks ih =>
    obtain ⟨hk, hks⟩ := List.pairwise_cons.mp hks
    have hnot : k ∉ ks := fun hmem => absurd (hk k hmem) (lt_irrefl k)
    have hleft' : ∀ e ∈ padEvents spans, e.1 ∈ ks ∨ ∀ k ∈ ks, e.1 < k := fun e he => by
      rcases hleft e he with hmem | hlt
      · rcases List.mem_cons.mp hmem with heq | hmem
        · exact Or.inr fun k' hk' => heq ▸ hk k' hk'
        · exact Or.inl hmem
      · exact Or.inr fun k' hk' => hlt k' (List.mem_cons_of_mem _ hk')
    have hcount : ∀ b, (eventsAt spans k).foldl countHeld s.held b =
        weight ((padEvents spans).filter (·.1 ∉ ks)) b := fun b => by
      rw [eventsAt, foldl_countHeld, hheld, weight_frame hnot]
    have hupto : (padEvents spans).filter (·.1 ∉ ks) = (padEvents spans).filter (·.1 ≤ k) := by
      refine List.filter_congr fun e he => decide_eq_decide.mpr ⟨fun hmem => ?_, fun hle hmem => ?_⟩
      · rcases hleft e he with hin | hlt
        · rcases List.mem_cons.mp hin with heq | hin
          · exact heq.le
          · exact absurd hin hmem
        · exact (hlt k List.mem_cons_self).le
      · exact absurd (hk e.1 hmem) (not_lt.mpr hle)
    have hmask : heldMask ((eventsAt spans k).foldl countHeld s.held) =
        heldMask (heldAt spans k) := by
      refine congrArg heldMask (funext fun b => ?_)
      rw [hcount, hupto]
      rfl
    rw [List.foldl_cons]
    unfold record
    by_cases hchange : heldMask (heldAt spans k) ≠ s.prev
    · have hframe : sweepFrame spans s k = ⟨(eventsAt spans k).foldl countHeld s.held,
          s.out ++ [(k, heldMask (heldAt spans k))], heldMask (heldAt spans k)⟩ := by
        rw [sweepFrame, hmask, if_pos hchange]
      rw [if_pos hchange, hframe, ih hks hleft' hcount]
      simp
    · have hframe : sweepFrame spans s k =
          { s with held := (eventsAt spans k).foldl countHeld s.held } := by
        rw [sweepFrame, hmask, if_neg hchange]
      rw [if_neg hchange, hframe, ih hks hleft' hcount]

theorem eventFrames_increase (spans : List ReplaySpan) : (eventFrames spans).Pairwise (· < ·) :=
  (Finset.sortedLT_sort _).pairwise

theorem changes_record (spans : List ReplaySpan) :
    changes spans = record (fun f => heldMask (heldAt spans f)) 0 (eventFrames spans) := by
  have hall : ∀ e ∈ padEvents spans, e.1 ∈ eventFrames spans := fun e he =>
    mem_eventFrames.mpr ⟨e, he, rfl⟩
  have hnone : (padEvents spans).filter (·.1 ∉ eventFrames spans) = [] :=
    List.filter_eq_nil_iff.mpr fun e he => by simp [hall e he]
  rw [changes, sweep_record (eventFrames_increase spans) (fun e he => Or.inl (hall e he))
    fun b => by rw [hnone]; rfl]
  rfl

/-- Between two event frames the counters stand still. -/
theorem heldAt_same {spans : List ReplaySpan} {k f : Int} (hle : k ≤ f)
    (hmax : ∀ k' ∈ eventFrames spans, k' ≤ f → k' ≤ k) : heldAt spans f = heldAt spans k := by
  unfold heldAt
  refine congrArg weight (List.filter_congr fun e he => decide_eq_decide.mpr ⟨fun hf => ?_, fun hk => ?_⟩)
  · exact hmax e.1 (mem_eventFrames.mpr ⟨e, he, rfl⟩) hf
  · exact hk.trans hle

/-- At every frame the last change is what the script holds, all the spans that contain the
frame together; the frames increase and each mask differs from the one before, none held at
first. -/
theorem changes_buttons (r : Replay) (h : ∀ s ∈ r.spans, s.start ≤ s.stop) :
    (∀ f, padAt (changes r.spans) f = replayButtons r f ∧
      ∀ b, (padAt (changes r.spans) f).getLsbD b = true ↔
        ∃ s ∈ r.spans, s.start ≤ f ∧ f ≤ s.stop ∧ s.buttons.getLsbD b = true) ∧
    (changes r.spans).Pairwise (fun p q => p.1 < q.1) ∧
    (0 :: (changes r.spans).map Prod.snd).IsChain (· ≠ ·) := by
  have hsorted := eventFrames_increase r.spans
  have hpad (f : Int) : padAt (changes r.spans) f = replayButtons r f := by
    rw [padAt, changes_record, latest_changes hsorted]
    · exact heldMask_at h f
    · intro hbefore
      have hnone : (padEvents r.spans).filter (·.1 ≤ f) = [] :=
        List.filter_eq_nil_iff.mpr fun e he => by
          have := hbefore e.1 (mem_eventFrames.mpr ⟨e, he, rfl⟩)
          simpa using this
      rw [heldAt, hnone]
      decide
    · exact fun k _ hle hmax => congrArg heldMask (heldAt_same hle hmax)
  refine ⟨fun f => ⟨hpad f, fun b => ?_⟩, ?_, ?_⟩
  · rw [hpad, replayButtons_bit]
    rfl
  · rw [changes_record]
    exact record_increases hsorted
  · rw [changes_record]
    exact record_differs

/-- Two spans that share a bit, and one within them. -/
theorem changes_buttons_overlap :
    let r : Replay := ⟨[⟨3, 6, 0x8080⟩, ⟨5, 9, 0x8000⟩, ⟨5, 5, 0x0010⟩], []⟩
    (∀ f, padAt (changes r.spans) f = replayButtons r f ∧
      ∀ b, (padAt (changes r.spans) f).getLsbD b = true ↔
        ∃ s ∈ r.spans, s.start ≤ f ∧ f ≤ s.stop ∧ s.buttons.getLsbD b = true) ∧
    (changes r.spans).Pairwise (fun p q => p.1 < q.1) ∧
    (0 :: (changes r.spans).map Prod.snd).IsChain (· ≠ ·) :=
  changes_buttons _ (by decide)

end CtRecomp
