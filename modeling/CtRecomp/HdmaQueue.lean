import Mathlib.Algebra.Group.Action.Defs
import Mathlib.Algebra.Order.BigOperators.Group.List
import Mathlib.Algebra.Order.Ring.Nat
import CtRecomp.ChargeWhole
import CtRecomp.Dma
import CtRecomp.Landings
import CtRecomp.Pause

namespace CtRecomp

open Loop

/-! What is made pending in a walk, and how long it waits. -/

def snesHdmaEnabled (chs : Vector DmaChannel 8) : Bool := chs.toList.any (·.hdmaActive)

/-- `snes_hdma_cost`'s first loop: the bytes transferred on this line. -/
def hdmaTransfers (chs : List DmaChannel) : Nat :=
  ((chs.filter fun ch => ch.inUse && ch.doTransfer).map fun ch => 8 * hdmaLen ch.mode).sum

/-- Its second: the line counters and indirect addresses read. -/
def hdmaReloads (peek : BitVec 24 → BitVec 8) : List DmaChannel → Nat
  | [] => 0
  | ch :: later =>
    if !ch.inUse then hdmaReloads peek later
    else if (ch.repCount - 1) &&& 0x7F ≠ 0 ∨ ch.indirect = false then 8 + hdmaReloads peek later
    else
      let len := if ch.doTransfer && !ch.indirect then hdmaLen ch.mode else 0
      let next := peek (ch.aBank ++ (ch.tableAdr + BitVec.ofNat 16 len))
      let last := later.all fun d => !d.inUse
      8 + (if next = 0 ∧ last = true then 8 else 16) + hdmaReloads peek later

def snesHdmaCost (peek : BitVec 24 → BitVec 8) (chs : Vector DmaChannel 8) : Nat :=
  8 + hdmaTransfers chs.toList + hdmaReloads peek chs.toList

def snesHdmaInitCost (peek : BitVec 24 → BitVec 8) (chs : Vector DmaChannel 8) : Nat :=
  8 + ((chs.toList.filter (·.hdmaActive)).map fun ch =>
    8 + if ch.indirect then if peek (ch.aBank ++ ch.aAdr) = 0 then 8 else 16 else 0).sum

theorem hdmaLen_le : ∀ mode, hdmaLen mode ≤ 4 := by decide

/-- A sum over the channels some test picks. -/
theorem picked_sum_le {f : DmaChannel → Nat} {b : Nat} (hf : ∀ ch, f ch ≤ b)
    (p : DmaChannel → Bool) (chs : List DmaChannel) :
    ((chs.filter p).map f).sum ≤ chs.length * b := by
  have hsum := List.sum_le_card_nsmul ((chs.filter p).map f) b fun n hn => by
    obtain ⟨ch, -, rfl⟩ := List.mem_map.mp hn
    exact hf ch
  rw [List.length_map, smul_eq_mul] at hsum
  exact Nat.le_trans hsum (Nat.mul_le_mul_right b (List.length_filter_le p chs))

theorem hdmaTransfers_le (chs : List DmaChannel) : hdmaTransfers chs ≤ chs.length * 32 := by
  refine picked_sum_le (fun ch => ?_) _ chs
  have hlen := hdmaLen_le ch.mode
  omega

theorem hdmaReloads_le (peek : BitVec 24 → BitVec 8) (chs : List DmaChannel) :
    hdmaReloads peek chs ≤ chs.length * 24 := by
  induction chs with
  | nil => exact Nat.le_refl _
  | cons ch later ih =>
    unfold hdmaReloads
    rw [List.length_cons]
    split
    next => omega
    next =>
    split
    next => omega
    next =>
      have hread (c : Prop) [Decidable c] : (if c then 8 else 16) ≤ 16 := by split <;> decide
      have hlast := hread (peek (ch.aBank ++ (ch.tableAdr + BitVec.ofNat 16
        (if ch.doTransfer && !ch.indirect then hdmaLen ch.mode else 0))) = 0 ∧
          (later.all fun d => !d.inUse) = true)
      dsimp only
      omega

theorem snesHdmaCost_le (peek : BitVec 24 → BitVec 8) (chs : Vector DmaChannel 8) :
    snesHdmaCost peek chs ≤ 456 := by
  have htransfers := hdmaTransfers_le chs.toList
  have hreloads := hdmaReloads_le peek chs.toList
  rw [Vector.length_toList] at htransfers hreloads
  unfold snesHdmaCost
  omega

theorem snesHdmaInitCost_le (peek : BitVec 24 → BitVec 8) (chs : Vector DmaChannel 8) :
    snesHdmaInitCost peek chs ≤ 200 := by
  have hsum := picked_sum_le (b := 24) (f := fun ch : DmaChannel =>
    8 + if ch.indirect then if peek (ch.aBank ++ ch.aAdr) = 0 then 8 else 16 else 0)
    (fun ch => ?_) (·.hdmaActive) chs.toList
  · rw [Vector.length_toList] at hsum
    unfold snesHdmaInitCost
    omega
  · split
    next => split <;> decide
    next => decide

/-- The scheduler's devices have HDMA channels that cost what snes_adapter.c says. -/
structure Devices.HasHdma {δ : Type} (D : Devices δ) (channels : δ → Vector DmaChannel 8)
    (peek : δ → BitVec 24 → BitVec 8) : Prop where
  enabled : ∀ d, D.hdmaEnabled d = snesHdmaEnabled (channels d)
  cost : ∀ d, D.hdmaCost d = snesHdmaCost (peek d) (channels d)
  initCost : ∀ d, D.hdmaInitCost d = snesHdmaInitCost (peek d) (channels d)

section Points

variable {δ : Type} {D : Devices δ} {s : Sched δ} {w w' : Walk} {n k : Nat}

/-! The points a walk has passed. Every line above VBlank has one for HDMA, every frame one
for its init. -/

def hdmaPoints (w : Walk) : Nat :=
  225 * w.frame + min w.line 225 + (decide (w.line < 225) && w.hdmaDone).toNat

def initPoints (w : Walk) : Nat :=
  w.frame + (decide (w.line ≠ 0) || w.initDone).toNat

/-- No event of the walk's line is due: where it stands between two passes. Only the first
init point after a reset may be late, by the reset's own clocks. -/
structure Walk.Placed (s : Sched δ) (w : Walk) : Prop where
  inFrame : w.line < 262
  inLine : w.t < w.ls + lineLength (w.frame - s.clk.fieldBase) w.line
  refresh : w.refreshDone = false → w.t < refreshPoint w.ls
  hdma : w.line < 225 → (w.hdmaDone = true ↔ w.ls + 1104 ≤ w.t)
  init : w.line = 0 → w.initDone = false → w.t ≤ w.ls + 210

/-- Up to `p` a pass from `w` has passed an HDMA point if `point`, an init point if `start`,
and it is still in its first line. -/
structure Here (w : Walk) (n : Nat) (p : Pass) (point start : Bool) : Prop where
  line : p.w.line = w.line
  frame : p.w.frame = w.frame
  ls : p.w.ls = w.ls
  endAt : p.endAt + 40 * owed p.w.refreshDone = w.t + n + 40 * owed w.refreshDone
  owed : owed p.w.refreshDone ≤ owed w.refreshDone
  hdmaDone : p.w.hdmaDone = (w.hdmaDone || point)
  initDone : p.w.initDone = (w.initDone || start)
  hdma : point = true → w.hdmaDone = false ∧ w.line < 225 ∧ w.ls + 1104 ≤ p.endAt ∧
    (w.line = 0 → p.w.initDone = true)
  init : start = true → w.initDone = false ∧ w.line = 0

/-- In its second. -/
structure There (s : Sched δ) (w : Walk) (n : Nat) (p : Pass) (point start : Bool) : Prop where
  line : p.w.line = if w.line + 1 = 262 then 0 else w.line + 1
  frame : p.w.frame = if w.line + 1 = 262 then w.frame + 1 else w.frame
  ls : p.w.ls = w.ls + lineLength (w.frame - s.clk.fieldBase) w.line
  inLine : p.w.ls ≤ p.endAt
  endAt : p.endAt = w.t + n + 40 * owed w.refreshDone
  refreshDone : p.w.refreshDone = false
  hdmaDone : p.w.hdmaDone = false
  initDone : p.w.initDone = (decide (w.line ≠ 0) && start)
  passed : w.line < 225 → (w.hdmaDone || point) = true
  started : w.line = 0 → (w.initDone || start) = true
  hdma : point = true → w.hdmaDone = false ∧ w.line < 225
  init : start = true → w.line = 0 ∧ w.initDone = false ∨ w.line = 261

/-- What the points passed have made pending. -/
structure Made (D : Devices δ) (s : Sched δ) (w w' : Walk) (point start : Bool) : Prop where
  hdma : w'.pend.hdma = (w.pend.hdma || point && D.hdmaEnabled s.dev)
  init : w'.pend.init = (w.pend.init || start && D.hdmaEnabled s.dev)
  delay : w'.pend.delay = (w.pend.delay || start || point && D.hdmaEnabled s.dev)

/-- What `walkNext` says of the event it picks, and what is not due before it. -/
theorem walkNext_init (base : Nat) (hline : w.line = 0) (hdone : w.initDone = false) :
    (walkNext base w).2 ≤ w.ls + 12 + w.ls % 8 := by
  unfold walkNext
  refine Nat.le_trans (sooner_le _ _ _) (Nat.le_trans (sooner_le _ _ _) ?_)
  exact sooner_le_clock ⟨hline, hdone⟩ _ _ _

theorem walkNext_hdma (base : Nat) (hline : w.line < 225) (hdone : w.hdmaDone = false) :
    (walkNext base w).2 ≤ w.ls + 1104 := by
  unfold walkNext
  exact sooner_le_clock ⟨hdone, hline⟩ _ _ _

/-- The HDMA init's point comes in line 0 only. -/
def InitPoint (w : Walk) (e : WalkEvent × Nat) : Prop := e.1 = .init → w.line = 0

theorem walkNext_initPoint (base : Nat) (w : Walk) : InitPoint w (walkNext base w) := by
  have other {k : WalkEvent} {clock : Nat} (hne : k ≠ .init) : InitPoint w (k, clock) :=
    fun hk => absurd hk hne
  unfold walkNext
  refine sooner_of (sooner_of (sooner_of ?_ fun h _ => h.1) fun _ => other (by decide))
    fun _ => other (by decide)
  cases w.irqAt with
  | none => exact sooner_of (other (by decide)) fun _ => other (by decide)
  | some clock =>
    refine sooner_of ?_ fun _ => other (by decide)
    exact sooner_of (other (by decide)) fun _ => other (by decide)

/-- Up to here in a pass of `n` clocks from `w`. -/
def Along (D : Devices δ) (s : Sched δ) (w : Walk) (n : Nat) (p : Pass) : Prop :=
  ∃ point start, (Here w n p point start ∨ There s w n p point start) ∧
    Made D s w p.w point start

theorem along_start : Along D s w n ⟨w, w.t + n, k⟩ :=
  ⟨false, false, .inl ⟨rfl, rfl, rfl, rfl, Nat.le_refl _, (Bool.or_false _).symm,
    (Bool.or_false _).symm, nofun, nofun⟩, by simp, by simp, by simp⟩

variable {p p' : Pass} {point start : Bool}

theorem walkLineEnd_fields {regs : Regs} {e : Nat} {v : Walk} (h : walkLineEnd regs e w = .ok v) :
    v.hdmaDone = false ∧ v.initDone = false ∧ v.pend = w.pend := by
  obtain ⟨irqAt, -, h⟩ := bind_eq_ok_iff.mp h
  cases h
  dsimp only
  split
  next => exact ⟨rfl, rfl, rfl⟩
  next => exact ⟨rfl, rfl, rfl⟩

/-- A line does not end before its points have passed. -/
theorem walkNext_passed {base : Nat} (h : (walkNext base w).1 = .lineEnd) :
    (w.line < 225 → w.hdmaDone = true) ∧ (w.line = 0 → w.initDone = true) := by
  obtain ⟨-, he⟩ := walkNext_lineEnd h
  have hlen := lineLength_ge (w.frame - base) w.line
  constructor
  · intro hline
    by_contra hnot
    have hle := walkNext_hdma base hline (Bool.eq_false_iff.mpr hnot)
    omega
  · intro hline
    by_contra hnot
    have hle := walkNext_init base hline (Bool.eq_false_iff.mpr hnot)
    omega

theorem Here.step (hp : Here w n p point start) (hm : Made D s w p.w point start)
    (h : walkStep D s p = .ok (some p')) : Along D s w n p' := by
  obtain ⟨hdue, h⟩ := walkStep_some h
  have hopen := walkNext_open s.clk.fieldBase p.w
  cases hk : (walkNext s.clk.fieldBase p.w).1 with
  | refresh =>
    simp only [WalkEvent.Open, hk] at hopen
    rw [hk] at h
    cases h
    have hend := hp.endAt
    rw [hopen.2.1, owed_false] at hend
    refine ⟨point, start, .inl ⟨hp.line, hp.frame, hp.ls, ?_, Nat.zero_le _, hp.hdmaDone,
      hp.initDone, ?_, hp.init⟩, hm.hdma, hm.init, hm.delay⟩
    · simp only [owed_true, refreshClocks]
      omega
    · intro hpoint
      obtain ⟨hdone, hline, hat, hinit⟩ := hp.hdma hpoint
      exact ⟨hdone, hline, Nat.le_trans hat (Nat.le_add_right _ _), hinit⟩
  | hdma =>
    simp only [WalkEvent.Open, hk] at hopen
    obtain ⟨hline, he⟩ := walkNext_hdmaPoint s.clk.fieldBase p.w hk
    change _ = p.w.ls + 1104 at he
    rw [hk] at h
    cases h
    have hdone := hp.hdmaDone
    rw [hopen.2] at hdone
    obtain ⟨hbefore, rfl⟩ := Bool.or_eq_false_iff.mp hdone.symm
    refine ⟨true, start, .inl ⟨hp.line, hp.frame, hp.ls, hp.endAt, hp.owed, by simp [Pass.change],
      hp.initDone, fun _ => ⟨hbefore, hp.line ▸ hline, ?_, fun hzero => ?_⟩, hp.init⟩, ?_⟩
    · rw [← hp.ls, ← he]
      exact hdue
    · by_contra hnot
      have hle := walkNext_init s.clk.fieldBase (hp.line.trans hzero)
        (Bool.eq_false_iff.mpr hnot)
      rw [he] at hle
      omega
    · by_cases hon : D.hdmaEnabled s.dev = true
      · exact ⟨by simp [Pass.change, hon], by simp [Pass.change, hon, hm.init],
          by simp [Pass.change, hon]⟩
      · exact ⟨by simp [Pass.change, hon, hm.hdma], by simp [Pass.change, hon, hm.init],
          by simp [Pass.change, hon, hm.delay]⟩
  | init =>
    simp only [WalkEvent.Open, hk] at hopen
    have hline := walkNext_initPoint s.clk.fieldBase p.w hk
    rw [hk] at h
    cases h
    have hdone := hp.initDone
    rw [hopen.2] at hdone
    obtain ⟨hbefore, rfl⟩ := Bool.or_eq_false_iff.mp hdone.symm
    refine ⟨point, true, .inl ⟨hp.line, hp.frame, hp.ls, hp.endAt, hp.owed, hp.hdmaDone,
      by simp [Pass.change], fun hpoint => ?_, fun _ => ⟨hbefore, hp.line ▸ hline⟩⟩, ?_⟩
    · obtain ⟨hdone, hline, hat, -⟩ := hp.hdma hpoint
      exact ⟨hdone, hline, hat, fun _ => rfl⟩
    · by_cases hon : D.hdmaEnabled s.dev = true
      · exact ⟨by simp [Pass.change, hon, hm.hdma], by simp [Pass.change, hon],
          by simp [Pass.change, hon]⟩
      · exact ⟨by simp [Pass.change, hon, hm.hdma], by simp [Pass.change, hon, hm.init],
          by simp [Pass.change, hon]⟩
  | nmi =>
    rw [hk] at h
    cases h
    refine ⟨point, start, .inl ⟨hp.line, hp.frame, hp.ls, hp.endAt, hp.owed, hp.hdmaDone, hp.initDone,
      hp.hdma, hp.init⟩, ?_⟩
    dsimp only [Pass.change]
    split
    next => exact ⟨hm.hdma, hm.init, hm.delay⟩
    next => exact ⟨hm.hdma, hm.init, hm.delay⟩
  | irq =>
    rw [hk] at h
    cases h
    exact ⟨point, start, .inl ⟨hp.line, hp.frame, hp.ls, hp.endAt, hp.owed, hp.hdmaDone, hp.initDone,
      hp.hdma, hp.init⟩, hm.hdma, hm.init, hm.delay⟩
  | lineEnd =>
    obtain ⟨hrefreshed, he⟩ := walkNext_lineEnd hk
    obtain ⟨hpassed, hstarted⟩ := walkNext_passed hk
    rw [he] at hdue
    rw [hk, he] at h
    obtain ⟨v, hv, hout⟩ := map_eq_ok_iff.mp h
    cases hout
    have hbeam := walkLineEnd_beam hv
    obtain ⟨hnone, hnot, hpend⟩ := walkLineEnd_fields hv
    have hend := hp.endAt
    rw [hrefreshed, owed_true] at hend
    have hls : v.ls = p.w.ls + lineLength (p.w.frame - s.clk.fieldBase) p.w.line :=
      congrArg Beam.lineStart hbeam
    have hline : v.line = if p.w.line + 1 = 262 then 0 else p.w.line + 1 := congrArg Beam.line hbeam
    have hframe : v.frame = if p.w.line + 1 = 262 then p.w.frame + 1 else p.w.frame :=
      congrArg Beam.frame hbeam
    have hrefresh : v.refreshDone = false := congrArg Beam.refreshed hbeam
    rw [hp.ls, hp.frame, hp.line] at hls
    rw [hp.line] at hline hframe hpassed hstarted
    rw [hp.hdmaDone] at hpassed
    rw [hp.initDone] at hstarted
    refine ⟨point, start, .inr ⟨hline, hp.frame ▸ hframe, hls, ?_, hend, hrefresh, hnone, ?_,
      hpassed, hstarted, fun hpoint => ⟨(hp.hdma hpoint).1, (hp.hdma hpoint).2.1⟩,
      fun hstart => .inl ⟨(hp.init hstart).2, (hp.init hstart).1⟩⟩, ?_⟩
    · dsimp only
      rw [hls, ← hp.ls, ← hp.frame, ← hp.line]
      exact hdue
    · dsimp only
      rw [hnot]
      cases start with
      | false => rw [Bool.and_false]
      | true => simp [(hp.init rfl).2]
    · exact ⟨by rw [hpend]; exact hm.hdma, by rw [hpend]; exact hm.init, by rw [hpend]; exact hm.delay⟩

/-- The second line's refresh, HDMA point and end are out of a short pass's reach. -/
theorem There.step (hw : w.Placed s) (hn : n ≤ 460) (hp : There s w n p point start)
    (hm : Made D s w p.w point start) (h : walkStep D s p = .ok (some p')) :
    Along D s w n p' := by
  obtain ⟨hdue, h⟩ := walkStep_some h
  have hopen := walkNext_open s.clk.fieldBase p.w
  have hsoon : p.endAt < p.w.ls + 500 := by
    have hend := hp.endAt
    have hls := hp.ls
    have hin := hw.inLine
    have howed := owed_le w.refreshDone
    omega
  cases hk : (walkNext s.clk.fieldBase p.w).1 with
  | refresh =>
    simp only [WalkEvent.Open, hk, refreshPoint] at hopen
    omega
  | hdma =>
    obtain ⟨hline, he⟩ := walkNext_hdmaPoint s.clk.fieldBase p.w hk
    change _ = p.w.ls + 1104 at he
    omega
  | lineEnd =>
    obtain ⟨-, he⟩ := walkNext_lineEnd hk
    have hlen := lineLength_ge (p.w.frame - s.clk.fieldBase) p.w.line
    omega
  | init =>
    simp only [WalkEvent.Open, hk] at hopen
    have hline := walkNext_initPoint s.clk.fieldBase p.w hk
    rw [hk] at h
    cases h
    have hlast : w.line = 261 := by
      have hnext := hp.line
      rw [hline] at hnext
      split at hnext
      next hlast => exact Nat.succ.inj hlast
      next => omega
    have hdone := hp.initDone
    rw [hopen.2, hlast] at hdone
    obtain rfl : start = false := by simpa using hdone.symm
    refine ⟨point, true, .inr ⟨hp.line, hp.frame, hp.ls, hp.inLine, hp.endAt, hp.refreshDone,
      hp.hdmaDone, ?_, hp.passed, fun hzero => ?_, hp.hdma, fun _ => .inr hlast⟩, ?_⟩
    · simp [Pass.change, hlast]
    · omega
    · by_cases hon : D.hdmaEnabled s.dev = true
      · exact ⟨by simp [Pass.change, hon, hm.hdma], by simp [Pass.change, hon],
          by simp [Pass.change, hon]⟩
      · exact ⟨by simp [Pass.change, hon, hm.hdma], by simp [Pass.change, hon, hm.init],
          by simp [Pass.change, hon]⟩
  | nmi =>
    rw [hk] at h
    cases h
    refine ⟨point, start, .inr ⟨hp.line, hp.frame, hp.ls, hp.inLine, hp.endAt, hp.refreshDone,
      hp.hdmaDone, hp.initDone, hp.passed, hp.started, hp.hdma, hp.init⟩, ?_⟩
    dsimp only [Pass.change]
    split
    next => exact ⟨hm.hdma, hm.init, hm.delay⟩
    next => exact ⟨hm.hdma, hm.init, hm.delay⟩
  | irq =>
    rw [hk] at h
    cases h
    exact ⟨point, start, .inr ⟨hp.line, hp.frame, hp.ls, hp.inLine, hp.endAt, hp.refreshDone,
      hp.hdmaDone, hp.initDone, hp.passed, hp.started, hp.hdma, hp.init⟩, hm.hdma, hm.init,
      hm.delay⟩

theorem Along.later (hp : Along D s w n p) : w.t + n ≤ p.endAt := by
  obtain ⟨point, start, hplace, -⟩ := hp
  rcases hplace with hp | hp
  · have hend := hp.endAt
    have howed := hp.owed
    omega
  · have hend := hp.endAt
    omega

/-- Once nothing is due any more the walk is placed again. -/
theorem Along.placed (hw : w.Placed s) (hp : Along D s w n p) (h : walkStep D s p = .ok none) :
    ({ p.w with t := p.endAt } : Walk).Placed s := by
  have hnext : p.endAt < (walkNext s.clk.fieldBase p.w).2 := by
    simp only [walkStep] at h
    split at h
    next hlt => exact hlt
    next =>
      obtain ⟨_, _, hout⟩ := map_eq_ok_iff.mp h
      cases hout
  have hdue := Nat.lt_of_lt_of_le hnext (walkNext_le_due s.clk.fieldBase p.w)
  have hlater := hp.later
  refine ⟨?_, ?_, fun hrefresh => ?_, fun hline => ⟨fun hdone => ?_, fun hpast => ?_⟩,
    fun hline hdone => ?_⟩
  · have hin := hw.inFrame
    obtain ⟨point, start, hplace, -⟩ := hp
    rcases hplace with hp | hp
    · exact hp.line ▸ hin
    · have hline := hp.line
      dsimp only
      split at hline
      next => omega
      next => omega
  · refine Nat.lt_of_lt_of_le hdue ?_
    have hbefore := refreshPoint_lt (p.w.frame - s.clk.fieldBase) p.w.line p.w.ls
    simp only [raster, Walk.beam]
    split
    next => exact Nat.le_refl _
    next => exact Nat.le_of_lt hbefore
  · have hrefresh : p.w.refreshDone = false := hrefresh
    simpa [raster, Walk.beam, hrefresh] using hdue
  · have hdone : p.w.hdmaDone = true := hdone
    obtain ⟨point, start, hplace, -⟩ := hp
    rcases hplace with hp | hp
    · dsimp only
      rw [hp.ls]
      rcases Bool.or_eq_true_iff.mp (hp.hdmaDone.symm.trans hdone) with hbefore | hpoint
      · have hpast := (hw.hdma (hp.line ▸ hline)).mp hbefore
        omega
      · exact (hp.hdma hpoint).2.2.1
    · exact absurd (hp.hdmaDone.symm.trans hdone) Bool.false_ne_true
  · by_contra hnot
    have hle := walkNext_hdma s.clk.fieldBase (w := p.w) hline (Bool.eq_false_iff.mpr hnot)
    have hpast : p.w.ls + 1104 ≤ p.endAt := hpast
    omega
  · have hle := walkNext_init s.clk.fieldBase (w := p.w) hline hdone
    dsimp only
    omega

theorem walkPass_along {sample smp : Nat} (hw : w.Placed s) (hn : n ≤ 460)
    (h : walkPass D s n sample w = .ok (w', smp)) :
    Along D s w n ⟨w', w'.t, smp⟩ ∧ w'.Placed s := by
  obtain ⟨p, hp, hout⟩ := bind_eq_ok_iff.mp h
  cases hout
  have halong : Along D s w n p := by
    refine measured_invariant (P := Along D s w n) (fun a b ha hab => ?_) along_start hp
    obtain ⟨point, start, hplace, hm⟩ := ha
    rcases hplace with ha | ha
    · exact ha.step hm hab
    · exact ha.step hw hn hm hab
  have falls : ∀ a b : Pass, True → walkStep D s a = .ok (some b) →
      True ∧ walkMeasure b < walkMeasure a :=
    fun a b _ hab => ⟨trivial, (walkStep_turn hab).falls⟩
  refine ⟨?_, halong.placed hw (measured_done falls trivial hp)⟩
  obtain ⟨point, start, hplace, hm⟩ := halong
  refine ⟨point, start, ?_, hm.hdma, hm.init, hm.delay⟩
  rcases hplace with ha | ha
  · exact .inl ⟨ha.line, ha.frame, ha.ls, ha.endAt, ha.owed, ha.hdmaDone, ha.initDone, ha.hdma, ha.init⟩
  · exact .inr ⟨ha.line, ha.frame, ha.ls, ha.inLine, ha.endAt, ha.refreshDone, ha.hdmaDone,
      ha.initDone, ha.passed, ha.started, ha.hdma, ha.init⟩

/-! Nothing is made pending twice. -/

/-- HDMA waits since at most `a` clocks after its point, in that line or the next, init since
`a` clocks after its own. -/
structure Walk.Queued (a : Nat) (w : Walk) : Prop where
  hdma : w.pend.hdma = true →
    w.line < 225 ∧ (w.line = 0 → w.initDone = true) ∧ w.ls + 1104 ≤ w.t ∧ w.t ≤ w.ls + 1104 + a ∨
    1 ≤ w.line ∧ w.line ≤ 225 ∧ w.t + 260 ≤ w.ls + a
  init : w.pend.init = true → w.line = 0 ∧ w.initDone = true ∧ w.t ≤ w.ls + 210 + a

def Walk.idle (w : Walk) : Prop := w.pend.hdma = false ∧ w.pend.init = false

theorem Walk.idle.queued (h : w.idle) (a : Nat) : w.Queued a :=
  ⟨fun hp => absurd (h.1.symm.trans hp) Bool.false_ne_true,
    fun hp => absurd (h.2.symm.trans hp) Bool.false_ne_true⟩

theorem Walk.Queued.mono {a b : Nat} (h : w.Queued a) (hab : a ≤ b) : w.Queued b where
  hdma hp := by
    rcases h.hdma hp with ⟨hline, hinit, hpast, ht⟩ | ⟨hlo, hhi, ht⟩
    · exact .inl ⟨hline, hinit, hpast, by omega⟩
    · exact .inr ⟨hlo, hhi, by omega⟩
  init hp := by
    obtain ⟨hline, hinit, ht⟩ := h.init hp
    exact ⟨hline, hinit, by omega⟩

/-- HDMA and init do not wait at the same time. -/
theorem Walk.Queued.one {a : Nat} (h : w.Queued a) (ha : a ≤ 800) (hp : w.pend.hdma = true) :
    w.pend.init = false := by
  by_contra hnot
  obtain ⟨hline, -, ht⟩ := h.init ((Bool.not_eq_false _).mp hnot)
  rcases h.hdma hp with ⟨-, -, hpast, -⟩ | ⟨hlo, -, -⟩
  · omega
  · omega

/-- While something waits, a pass meets neither an HDMA nor an init point. -/
theorem quiet_of_queued {a : Nat} (hw : w.Placed s) (hq : w.Queued a) (ha : a + n + 40 ≤ 800)
    (hp : Here w n p point start ∨ There s w n p point start) (hwait : ¬w.idle) :
    point = false ∧ start = false := by
  have howed := owed_le w.refreshDone
  have hlen := lineLength_ge (w.frame - s.clk.fieldBase) w.line
  have hwaits : w.pend.hdma = true ∨ w.pend.init = true := by
    by_contra hnone
    rw [not_or] at hnone
    exact hwait ⟨Bool.eq_false_iff.mpr hnone.1, Bool.eq_false_iff.mpr hnone.2⟩
  have hclock : w.line < 225 → w.hdmaDone = false → w.t < w.ls + 1104 := fun hline hdone => by
    by_contra hpast
    have hset := (hw.hdma hline).mpr (Nat.le_of_not_lt hpast)
    exact absurd (hdone.symm.trans hset) Bool.false_ne_true
  constructor
  · by_contra hpoint
    have hpoint := (Bool.not_eq_false _).mp hpoint
    rcases hp with hp | hp
    · obtain ⟨hdone, hline, hat, -⟩ := hp.hdma hpoint
      have hbefore := hclock hline hdone
      have hend := hp.endAt
      rcases hwaits with hh | hi
      · rcases hq.hdma hh with ⟨-, -, hpast, -⟩ | ⟨-, -, ht⟩
        · omega
        · omega
      · obtain ⟨-, -, ht⟩ := hq.init hi
        omega
    · obtain ⟨hdone, hline⟩ := hp.hdma hpoint
      have hbefore := hclock hline hdone
      have hend := hp.endAt
      have hin := hp.inLine
      have hls := hp.ls
      rcases hwaits with hh | hi
      · rcases hq.hdma hh with ⟨-, -, hpast, -⟩ | ⟨-, -, ht⟩
        · omega
        · omega
      · obtain ⟨-, -, ht⟩ := hq.init hi
        omega
  · by_contra hstart
    have hstart := (Bool.not_eq_false _).mp hstart
    have hnot (hline : w.line = 0) (hdone : w.initDone = false) : False := by
      rcases hwaits with hh | hi
      · rcases hq.hdma hh with ⟨-, hinit, -, -⟩ | ⟨hlo, -, -⟩
        · exact Bool.false_ne_true (hdone.symm.trans (hinit hline))
        · omega
      · obtain ⟨-, hinit, -⟩ := hq.init hi
        exact Bool.false_ne_true (hdone.symm.trans hinit)
    rcases hp with hp | hp
    · obtain ⟨hdone, hline⟩ := hp.init hstart
      exact hnot hline hdone
    · rcases hp.init hstart with ⟨hline, hdone⟩ | hlast
      · exact hnot hline hdone
      · rcases hwaits with hh | hi
        · rcases hq.hdma hh with ⟨hline, -, -, -⟩ | ⟨-, hhi, -⟩
          · omega
          · omega
        · obtain ⟨hline, -, -⟩ := hq.init hi
          omega

theorem hdmaPoints_along (hw : w.Placed s)
    (hp : Here w n ⟨w', w'.t, k⟩ point start ∨ There s w n ⟨w', w'.t, k⟩ point start) :
    hdmaPoints w' = hdmaPoints w + point.toNat := by
  have hin := hw.inFrame
  unfold hdmaPoints
  rcases hp with hp | hp
  · have hline : w'.line = w.line := hp.line
    have hframe : w'.frame = w.frame := hp.frame
    have hdone : w'.hdmaDone = (w.hdmaDone || point) := hp.hdmaDone
    rw [hline, hframe, hdone]
    cases point with
    | false => simp
    | true =>
      obtain ⟨hbefore, habove, -, -⟩ := hp.hdma rfl
      simp [hbefore, habove]
  · have hdone : w'.hdmaDone = false := hp.hdmaDone
    have hline : w'.line = if w.line + 1 = 262 then 0 else w.line + 1 := hp.line
    have hframe : w'.frame = if w.line + 1 = 262 then w.frame + 1 else w.frame := hp.frame
    rw [hdone, Bool.and_false, Bool.toNat_false, Nat.add_zero]
    by_cases habove : w.line < 225
    · have hpassed := hp.passed habove
      rw [if_neg (by omega)] at hline hframe
      rw [hline, hframe, decide_eq_true habove, Bool.true_and, Nat.min_eq_left (by omega),
        Nat.min_eq_left (by omega)]
      cases point with
      | false =>
        rw [Bool.or_false] at hpassed
        rw [hpassed]
        rfl
      | true =>
        rw [(hp.hdma rfl).1]
        rfl
    · have hpoint : point = false := by
        by_contra hnot
        exact habove (hp.hdma ((Bool.not_eq_false _).mp hnot)).2
      rw [hpoint, decide_eq_false habove, Bool.false_and, Bool.toNat_false,
        Nat.min_eq_right (Nat.le_of_not_lt habove)]
      by_cases hlast : w.line + 1 = 262
      · rw [if_pos hlast] at hline hframe
        rw [hline, hframe]
        omega
      · rw [if_neg hlast] at hline hframe
        rw [hline, hframe]
        omega

theorem initPoints_along (hw : w.Placed s)
    (hp : Here w n ⟨w', w'.t, k⟩ point start ∨ There s w n ⟨w', w'.t, k⟩ point start) :
    initPoints w' = initPoints w + start.toNat := by
  have hin := hw.inFrame
  unfold initPoints
  rcases hp with hp | hp
  · have hline : w'.line = w.line := hp.line
    have hframe : w'.frame = w.frame := hp.frame
    have hdone : w'.initDone = (w.initDone || start) := hp.initDone
    rw [hline, hframe, hdone]
    cases start with
    | false => simp
    | true =>
      obtain ⟨hbefore, hzero⟩ := hp.init rfl
      simp [hbefore, hzero]
  · have hdone : w'.initDone = (decide (w.line ≠ 0) && start) := hp.initDone
    have hline : w'.line = if w.line + 1 = 262 then 0 else w.line + 1 := hp.line
    have hframe : w'.frame = if w.line + 1 = 262 then w.frame + 1 else w.frame := hp.frame
    by_cases hlast : w.line + 1 = 262
    · rw [if_pos hlast] at hline hframe
      have hend : w.line ≠ 0 := by omega
      rw [hline, hframe, hdone]
      simp [hend]
    · rw [if_neg hlast] at hline hframe
      rw [hline, hframe]
      by_cases hzero : w.line = 0
      · have hstarted := hp.started hzero
        cases start with
        | false =>
          rw [Bool.or_false] at hstarted
          simp [hzero, hstarted]
        | true =>
          have hbefore : w.initDone = false := by
            rcases hp.init rfl with ⟨-, hbefore⟩ | hend
            · exact hbefore
            · omega
          simp [hzero, hbefore]
      · have hstart : start = false := by
          by_contra hnot
          rcases hp.init ((Bool.not_eq_false _).mp hnot) with ⟨hz, -⟩ | hend
          · exact hzero hz
          · omega
        simp [hzero, hstart]

/-- What became pending between two places of a walk. -/
def made (D : Devices δ) (s : Sched δ) (points : Walk → Nat) (w w' : Walk) : Nat :=
  if D.hdmaEnabled s.dev then points w' - points w else 0

/-- Whatever was pending or became so has run, or is pending still. -/
structure Lossless (D : Devices δ) (s : Sched δ) (w : Walk) (ps : List Part) (w' : Walk) : Prop where
  onward : hdmaPoints w ≤ hdmaPoints w' ∧ initPoints w ≤ initPoints w'
  hdma : w.pend.hdma.toNat + made D s hdmaPoints w w' =
    ps.countP Part.isHdma + w'.pend.hdma.toNat
  init : w.pend.init.toNat + made D s initPoints w w' =
    ps.countP Part.isInit + w'.pend.init.toNat

theorem made_add {points : Walk → Nat} {u : Walk} (h : points w ≤ points u)
    (h' : points u ≤ points w') :
    made D s points w w' = made D s points w u + made D s points u w' := by
  unfold made
  split
  next => omega
  next => rfl

theorem Lossless.append {ps qs : List Part} {u : Walk} (h : Lossless D s w ps u)
    (h' : Lossless D s u qs w') : Lossless D s w (ps ++ qs) w' where
  onward := ⟨Nat.le_trans h.onward.1 h'.onward.1, Nat.le_trans h.onward.2 h'.onward.2⟩
  hdma := by
    have hfirst := h.hdma
    have hnext := h'.hdma
    rw [made_add h.onward.1 h'.onward.1, List.countP_append]
    omega
  init := by
    have hfirst := h.init
    have hnext := h'.init
    rw [made_add h.onward.2 h'.onward.2, List.countP_append]
    omega

theorem Lossless.of_eq (hpend : w'.pend.hdma = w.pend.hdma ∧ w'.pend.init = w.pend.init)
    (hplace : hdmaPoints w' = hdmaPoints w ∧ initPoints w' = initPoints w) :
    Lossless D s w [] w' where
  onward := ⟨Nat.le_of_eq hplace.1.symm, Nat.le_of_eq hplace.2.symm⟩
  hdma := by
    rw [hpend.1, made, hplace.1, Nat.sub_self, ite_self]
    exact Nat.add_comm _ _
  init := by
    rw [hpend.2, made, hplace.2, Nat.sub_self, ite_self]
    exact Nat.add_comm _ _

/-- What a pass does to the transfers waiting: it leaves those there are alone, and what it
makes pending is delayed. -/
structure Waited (D : Devices δ) (s : Sched δ) (a n : Nat) (w w' : Walk) : Prop where
  placed : w'.Placed s
  lossless : Lossless D s w [] w'
  waits : ¬w.idle → w'.pend.hdma = w.pend.hdma ∧ w'.pend.init = w.pend.init ∧
    w'.pend.delay = w.pend.delay ∧ w'.Queued (a + n + 40)
  fresh : w.idle → (¬w'.idle → w'.pend.delay = true) ∧ w'.Queued (n + 40)

theorem made_points {points : Walk → Nat} {b : Bool} (h : points w' = points w + b.toNat) :
    made D s points w w' = (b && D.hdmaEnabled s.dev).toNat := by
  rw [made, h, Nat.add_sub_cancel_left]
  cases D.hdmaEnabled s.dev with
  | false => rw [Bool.and_false]; rfl
  | true => rw [Bool.and_true]; rfl

theorem toNat_or {a b : Bool} (h : ¬(a = true ∧ b = true)) :
    a.toNat + b.toNat = (a || b).toNat := by
  cases a with
  | false => rw [Bool.toNat_false, Nat.zero_add, Bool.false_or]
  | true =>
    cases b with
    | false => rfl
    | true => exact absurd ⟨rfl, rfl⟩ h

/-- What waited at the start of a pass waits on. -/
theorem Walk.Queued.pass {a : Nat} (hq : w.Queued a) (ha : a + n + 40 ≤ 800)
    (hp : Here w n ⟨w', w'.t, k⟩ false false ∨ There s w n ⟨w', w'.t, k⟩ false false)
    (hh : w'.pend.hdma = w.pend.hdma) (hi : w'.pend.init = w.pend.init) :
    w'.Queued (a + n + 40) := by
  have howed := owed_le w.refreshDone
  have hlen := lineLength_ge (w.frame - s.clk.fieldBase) w.line
  rcases hp with hp | hp
  · have hline : w'.line = w.line := hp.line
    have hls : w'.ls = w.ls := hp.ls
    have hend : w'.t + 40 * owed w'.refreshDone = w.t + n + 40 * owed w.refreshDone := hp.endAt
    have hdone : w'.initDone = w.initDone := hp.initDone.trans (Bool.or_false _)
    have hlater : owed w'.refreshDone ≤ owed w.refreshDone := hp.owed
    refine ⟨fun hwait => ?_, fun hwait => ?_⟩
    · rcases hq.hdma (hh ▸ hwait) with ⟨habove, hinit, hpast, ht⟩ | ⟨hlo, hhi, ht⟩
      · exact .inl ⟨hline ▸ habove, fun hzero => hdone.trans (hinit (hline ▸ hzero)), by omega,
          by omega⟩
      · exact .inr ⟨hline ▸ hlo, hline ▸ hhi, by omega⟩
    · obtain ⟨hzero, hinit, ht⟩ := hq.init (hi ▸ hwait)
      exact ⟨hline.trans hzero, hdone.trans hinit, by omega⟩
  · have hline : w'.line = if w.line + 1 = 262 then 0 else w.line + 1 := hp.line
    have hls : w'.ls = w.ls + lineLength (w.frame - s.clk.fieldBase) w.line := hp.ls
    have hend : w'.t = w.t + n + 40 * owed w.refreshDone := hp.endAt
    have hin : w'.ls ≤ w'.t := hp.inLine
    refine ⟨fun hwait => ?_, fun hwait => ?_⟩
    · rcases hq.hdma (hh ▸ hwait) with ⟨habove, -, -, ht⟩ | ⟨-, -, ht⟩
      · rw [if_neg (by omega)] at hline
        have hwhole : lineLength (w.frame - s.clk.fieldBase) w.line = 1364 :=
          if_neg fun hshort => by omega
        exact .inr ⟨by omega, by omega, by omega⟩
      · omega
    · obtain ⟨-, -, ht⟩ := hq.init (hi ▸ hwait)
      omega

/-- What a pass makes pending has waited no longer than the pass took. -/
theorem queued_fresh (hw : w.Placed s) (hn : n ≤ 460) (hidle : w.idle)
    (hp : Here w n ⟨w', w'.t, k⟩ point start ∨ There s w n ⟨w', w'.t, k⟩ point start)
    (hm : Made D s w w' point start) : w'.Queued (n + 40) := by
  have howed := owed_le w.refreshDone
  have hlen := lineLength_ge (w.frame - s.clk.fieldBase) w.line
  have hh := hm.hdma
  have hi := hm.init
  rw [hidle.1, Bool.false_or] at hh
  rw [hidle.2, Bool.false_or] at hi
  have hclock : w.line < 225 → w.hdmaDone = false → w.t < w.ls + 1104 := fun hline hdone => by
    by_contra hpast
    have hset := (hw.hdma hline).mpr (Nat.le_of_not_lt hpast)
    exact absurd (hdone.symm.trans hset) Bool.false_ne_true
  refine ⟨fun hwait => ?_, fun hwait => ?_⟩
  · have hpoint := (Bool.and_eq_true_iff.mp (hh.symm.trans hwait)).1
    rcases hp with hp | hp
    · obtain ⟨hdone, habove, hat, hinit⟩ := hp.hdma hpoint
      have hbefore := hclock habove hdone
      have hline : w'.line = w.line := hp.line
      have hls : w'.ls = w.ls := hp.ls
      have hend : w'.t + 40 * owed w'.refreshDone = w.t + n + 40 * owed w.refreshDone := hp.endAt
      exact .inl ⟨hline ▸ habove, fun hzero => hinit (hline ▸ hzero), hls ▸ hat, by omega⟩
    · obtain ⟨hdone, habove⟩ := hp.hdma hpoint
      have hbefore := hclock habove hdone
      have hline : w'.line = if w.line + 1 = 262 then 0 else w.line + 1 := hp.line
      have hls : w'.ls = w.ls + lineLength (w.frame - s.clk.fieldBase) w.line := hp.ls
      have hend : w'.t = w.t + n + 40 * owed w.refreshDone := hp.endAt
      have hwhole : lineLength (w.frame - s.clk.fieldBase) w.line = 1364 :=
        if_neg fun hshort => by omega
      rw [if_neg (by omega)] at hline
      exact .inr ⟨by omega, by omega, by omega⟩
  · have hstart := (Bool.and_eq_true_iff.mp (hi.symm.trans hwait)).1
    rcases hp with hp | hp
    · obtain ⟨hdone, hzero⟩ := hp.init hstart
      have hsoon := hw.init hzero hdone
      have hls : w'.ls = w.ls := hp.ls
      have hinit : w'.initDone = (w.initDone || start) := hp.initDone
      have hend : w'.t + 40 * owed w'.refreshDone = w.t + n + 40 * owed w.refreshDone := hp.endAt
      exact ⟨hp.line.trans hzero, by rw [hinit, hstart, Bool.or_true], by omega⟩
    · have hline : w'.line = if w.line + 1 = 262 then 0 else w.line + 1 := hp.line
      have hls : w'.ls = w.ls + lineLength (w.frame - s.clk.fieldBase) w.line := hp.ls
      have hend : w'.t = w.t + n + 40 * owed w.refreshDone := hp.endAt
      have hin : w'.ls ≤ w'.t := hp.inLine
      have hinit : w'.initDone = (decide (w.line ≠ 0) && start) := hp.initDone
      have hplace := hw.inLine
      rcases hp.init hstart with ⟨hzero, hdone⟩ | hlast
      · have hsoon := hw.init hzero hdone
        omega
      · rw [if_pos (by omega)] at hline
        refine ⟨hline, ?_, by omega⟩
        rw [hinit, hstart, hlast]
        rfl

theorem walkPass_waited {a sample smp : Nat} (hw : w.Placed s) (hq : w.Queued a) (hn : n ≤ 460)
    (ha : a + n + 40 ≤ 800) (h : walkPass D s n sample w = .ok (w', smp)) :
    Waited D s a n w w' := by
  obtain ⟨⟨point, start, hplace, hm⟩, hplaced⟩ := walkPass_along hw hn h
  have hpoints := hdmaPoints_along hw hplace
  have hstarts := initPoints_along hw hplace
  have hm : Made D s w w' point start := hm
  have hh := hm.hdma
  have hi := hm.init
  have hd := hm.delay
  have hquiet := quiet_of_queued hw hq ha hplace
  refine ⟨hplaced, ⟨⟨by omega, by omega⟩, ?_, ?_⟩, fun hwait => ?_, fun hidle => ⟨fun hnew => ?_, ?_⟩⟩
  · rw [made_points hpoints, hh, List.countP_nil, Nat.zero_add]
    refine toNat_or fun hboth => ?_
    have hnone := (hquiet fun hidle => Bool.false_ne_true (hidle.1.symm.trans hboth.1)).1
    rw [hnone] at hboth
    exact Bool.false_ne_true hboth.2
  · rw [made_points hstarts, hi, List.countP_nil, Nat.zero_add]
    refine toNat_or fun hboth => ?_
    have hnone := (hquiet fun hidle => Bool.false_ne_true (hidle.2.symm.trans hboth.1)).2
    rw [hnone] at hboth
    exact Bool.false_ne_true hboth.2
  · obtain ⟨rfl, rfl⟩ := hquiet hwait
    rw [Bool.false_and, Bool.or_false] at hh hi hd
    rw [Bool.or_false] at hd
    exact ⟨hh, hi, hd, hq.pass ha hplace hh hi⟩
  · rw [hidle.1, Bool.false_or] at hh
    rw [hidle.2, Bool.false_or] at hi
    rw [hd]
    by_cases hpoint : (point && D.hdmaEnabled s.dev) = true
    · rw [hpoint, Bool.or_true]
    · have hno := Bool.eq_false_iff.mpr hpoint
      have hstart : (start && D.hdmaEnabled s.dev) = true := by
        by_contra hnot
        exact hnew ⟨hh.trans hno, hi.trans (Bool.eq_false_iff.mpr hnot)⟩
      rw [(Bool.and_eq_true_iff.mp hstart).1, Bool.or_true, Bool.true_or]
  · exact queued_fresh hw hn hidle hplace hm

theorem walkFor_waited {a : Nat} (hw : w.Placed s) (hq : w.Queued a) (hn : n ≤ 460)
    (ha : a + n + 40 ≤ 800) (h : walkFor D s n w = .ok w') : Waited D s a n w w' := by
  obtain ⟨⟨v, smp⟩, hpass, hout⟩ := map_eq_ok_iff.mp h
  cases hout
  exact walkPass_waited hw hq hn ha hpass

end Points

end CtRecomp
