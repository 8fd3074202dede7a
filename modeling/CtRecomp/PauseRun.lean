import CtRecomp.IrqLine
import CtRecomp.PauseParts
import CtRecomp.SchedTrace
import CtRecomp.WaiRun

namespace CtRecomp

open Loop

/-! Runs from power-on: in every pause, whatever waits is taken into account. -/

/-- The HDMA and init waiting, as only walks change them. -/
def Regs.queue (r : Regs) : Bool × Bool × Bool × Nat × Nat :=
  (r.pend.delay, r.pend.hdma, r.pend.init, r.pend.hdmaCost, r.pend.initCost)

/-- Where the clock stands against the points of its line. -/
structure Clock.Pointed (c : Clock) : Prop where
  hdma : c.hblankDone = true ↔ schedHdmaClock ≤ c.hclock
  init : c.line = 0 → c.initDone = false → c.hclock ≤ 210

section Queue

variable {δ : Type} {D : Devices δ} {s s' : Sched δ}

theorem autojoyUpdate_queue (now : Nat) (r : Regs) : (autojoyUpdate now r).queue = r.queue := by
  have hpend := (autojoyLoop_keeps now (35 - r.autojoyStep) r).2.2
  unfold Regs.queue autojoyUpdate
  rw [hpend]

theorem effect_queue (a : RegAccess) (r : Regs) : (a.effect r).queue = r.queue := by
  cases a with
  | nmitimen inProgress busN v =>
    dsimp only [RegAccess.effect, nmitimenWrite]
    split <;> split
    all_goals first | rfl | (split <;> rfl)
  | timer reg v =>
    dsimp only [RegAccess.effect, htimeVtimeWrite]
    split <;> rfl
  | rdnmi line ln h mdr =>
    dsimp only [RegAccess.effect, rdnmiRead]
    split
    all_goals split
    all_goals split
    all_goals rfl
  | autojoy now => exact autojoyUpdate_queue now r
  | timeup | dma | joypad => rfl

theorem hooked_queue (hD : D.Hooked fun _ _ => True) : D.Leaves Regs.queue := by
  intro c clk r dev r' dev' h
  have hall := hD c clk r dev r' dev' h
  clear h
  induction hall with
  | refl => rfl
  | access _ a _ ih => exact (effect_queue a _).trans ih

theorem LineBegun.queue {before : Regs} (h : LineBegun Regs.queue before s) :
    s.regs.queue = before.queue := by
  obtain ⟨ended, called, hended, hcalled, hregs, -⟩ := h
  rw [hregs, autojoyUpdate_queue, ← hended]
  have harmed : (called.vblankArmed s.clk.line s.clk.lineStart).queue = called.queue := by
    unfold Regs.vblankArmed
    split <;> rfl
  have hframe : (ended.newFrame s.clk.line).queue = ended.queue := by
    unfold Regs.newFrame
    split <;> rfl
  rw [harmed, hcalled, hframe]

theorem fire_queue (hD : D.Leaves Regs.queue) {how : Commit} {e : ClockEvent}
    (h : e.fire D how s = .ok s') : s'.regs.queue = s.regs.queue := by
  cases e with
  | rdnmiSet | rdnmiClear | irq =>
    cases h
    rfl
  | nmi =>
    cases h
    dsimp only [passNmi]
    split <;> rfl
  | refresh =>
    cases h
    unfold passRefresh
    split <;> rfl
  | hdmaPoint => exact hblank_leaves hD h
  | lineEnd => exact (endLine_begun hD h).queue

/-- What every event keeps, `advance` keeps. -/
theorem advance_fires {P : Sched δ → Prop} {how : Commit} {clocks : Nat}
    (fires : ∀ a b e, P a → nextEvent a.clk a.regs = some e → e.fire D how a = .ok b → P b)
    (hs : P (s.later clocks)) (h : advance D how clocks s = .ok s') : P s' := by
  refine measured_invariant (P := P) (fun a b ha hab => ?_) hs h
  rw [advanceStep_eq] at hab
  cases he : nextEvent a.clk a.regs with
  | none =>
    rw [he] at hab
    cases hab
  | some e =>
    rw [he] at hab
    obtain ⟨r, hr, hout⟩ := map_eq_ok_iff.mp hab
    cases hout
    exact fires a b e ha he hr

theorem advance_queue (hD : D.Leaves Regs.queue) {how : Commit} {clocks : Nat}
    (h : advance D how clocks s = .ok s') : s'.regs.queue = s.regs.queue :=
  advance_fires (P := fun r : Sched δ => r.regs.queue = s.regs.queue)
    (fun _ _ _ ha _ hfire => (fire_queue hD hfire).trans ha) rfl h

theorem walkCommit_queue (hD : D.Leaves Regs.queue) {w : Walk} {start t : Nat}
    (h : walkCommit D w start t s = .ok s') : s'.regs.queue = s.regs.queue := by
  obtain ⟨a, ha, h⟩ := bind_eq_ok_iff.mp h
  have hadvanced := advance_queue hD ha
  cases h
  split
  next => exact hadvanced
  next => exact hadvanced

/-! The HDMA point is passed exactly when the clock is there. -/

theorem nextEvent_hdmaPoint {c : Clock} {r : Regs} (h : nextEvent c r = some .hdmaPoint) :
    schedHdmaClock ≤ c.hclock := by
  unfold nextEvent at h
  split at h
  · cases h
  split at h
  · cases h
  split at h
  · cases h
  split at h
  · cases h
  split at h
  · cases h
  split at h
  next hdue => exact hdue.2
  split at h
  · cases h
  split at h
  · cases h
  · cases h

/-- With nothing due, the HDMA point is not. -/
theorem nextEvent_none_hdma {c : Clock} {r : Regs} (h : nextEvent c r = none)
    (hpast : schedHdmaClock ≤ c.hclock) : c.hblankDone = true := by
  unfold nextEvent at h
  split at h
  · cases h
  split at h
  · cases h
  split at h
  · cases h
  split at h
  · cases h
  split at h
  · cases h
  split at h
  · cases h
  next hnot =>
    by_contra hdone
    exact hnot ⟨Bool.eq_false_iff.mpr hdone, hpast⟩

theorem endLine_hblank {undoFrom : Option Nat} (h : endLine D undoFrom s = .ok s') :
    s'.clk.hblankDone = false := by
  obtain ⟨synced, -, h⟩ := bind_eq_ok_iff.mp h
  obtain ⟨wrapped, -, h⟩ := bind_eq_ok_iff.mp h
  obtain ⟨irqAt, hc⟩ := beginLine_clk h
  rw [hc]

theorem advance_hblank {how : Commit} {clocks : Nat}
    (hs : s.clk.hblankDone = true → schedHdmaClock ≤ s.clk.hclock)
    (h : advance D how clocks s = .ok s') :
    s'.clk.hblankDone = true ↔ schedHdmaClock ≤ s'.clk.hclock := by
  refine ⟨?_, nextEvent_none_hdma (advance_idle h)⟩
  refine advance_fires
    (P := fun r : Sched δ => r.clk.hblankDone = true → schedHdmaClock ≤ r.clk.hclock)
    (fun a b e ha he hfire => ?_) (fun hdone => Nat.le_trans (hs hdone) (Nat.le_add_right _ _)) h
  cases e with
  | rdnmiSet | rdnmiClear | irq | nmi =>
    cases hfire
    exact ha
  | refresh =>
    cases hfire
    unfold passRefresh
    split
    next => exact ha
    next => exact fun hdone => Nat.le_trans (ha hdone) (Nat.le_add_right _ _)
  | hdmaPoint =>
    have hclock : b.clk.hclock = a.clk.hclock := by rw [hblank_clk hfire]
    exact fun _ => hclock ▸ nextEvent_hdmaPoint he
  | lineEnd => exact fun hdone => absurd ((endLine_hblank hfire).symm.trans hdone) Bool.false_ne_true

theorem walkCommit_hblank {w : Walk} {start t : Nat}
    (hs : s.clk.hblankDone = true → schedHdmaClock ≤ s.clk.hclock)
    (h : walkCommit D w start t s = .ok s') :
    s'.clk.hblankDone = true ↔ schedHdmaClock ≤ s'.clk.hclock := by
  obtain ⟨a, ha, h⟩ := bind_eq_ok_iff.mp h
  have hadvanced : a.clk.hblankDone = true ↔ schedHdmaClock ≤ a.clk.hclock := by
    refine advance_hblank ?_ ha
    split
    next => exact hs
    next => exact hs
  cases h
  split
  next => exact hadvanced
  next => exact hadvanced

/-! The init point, too. -/

/-- The scheduler starts on the line it begins, before its first refresh. -/
theorem beginLine_pointed {startDelay : Nat} {r : Sched δ} (hline : s.clk.line = 0)
    (hclock : s.clk.hclock = 0) (hb : beginLine D s = .ok r) (soon : startDelay ≤ 210)
    (h : advance D ⟨false, none⟩ startDelay r = .ok s') : s'.clk.Pointed := by
  obtain ⟨irqAt, hc⟩ := beginLine_clk hb
  have hfresh : r.clk.line = 0 ∧ r.clk.hclock = 0 ∧ r.clk.hblankDone = false ∧
      531 ≤ r.clk.refreshAt := by
    rw [hc]
    exact ⟨hline, hclock, rfl, by dsimp only; omega⟩
  obtain ⟨hzero, hat, hdone, hrefresh⟩ := hfresh
  have hkept : s'.clk.hclock ≤ 210 ∧ 531 ≤ s'.clk.refreshAt := by
    refine advance_invariant (fun c => c.hclock ≤ 210 ∧ 531 ≤ c.refreshAt)
      (fun c c' hc turn => ?_) ⟨?_, hrefresh⟩ h
    · obtain ⟨hsoon, hlate⟩ := hc
      cases turn with
      | inside same hclock => exact ⟨hclock ▸ hsoon, same.refreshAt ▸ hlate⟩
      | refresh hp =>
        have hdue := hp.due.2
        omega
      | lineEnd he =>
        have hend := he.reached
        have hlen := c.lineClocks_ge
        omega
    · rw [hat, Nat.zero_add]
      exact soon
  exact ⟨advance_hblank (fun hp => absurd (hdone.symm.trans hp) Bool.false_ne_true) h,
    fun _ _ => hkept.1⟩

/-- A walk from a clock so placed is placed. -/
theorem walkInit_placed (hs : Rested s.clk) (hr : s.clk.InRaster) (hp : s.clk.Pointed) :
    (walkInit s).Placed s := by
  have hin := hs.settled.inLine
  have hlength := lineClocks_eq (c := s.clk) rfl
  have hat := hs.refreshAt
  unfold Clock.RefreshAtLine at hat
  refine ⟨hr.inFrame, ?_, fun hrefresh => ?_, fun _ => ?_, fun hline hdone => ?_⟩
  · dsimp only [walkInit]
    omega
  · have hbefore : s.clk.hclock < s.clk.refreshAt := by
      have hrefresh : s.clk.refreshDone = false := hrefresh
      simpa [hrefresh] using hs.settled.refresh
    dsimp only [walkInit, refreshPoint]
    omega
  · refine hp.hdma.trans ?_
    dsimp only [walkInit, schedHdmaClock]
    omega
  · have hsoon := hp.init hline hdone
    dsimp only [walkInit]
    omega

/-- Where the commit leaves the clock, against what its walk has passed. -/
theorem walkCommit_pointed {regs : Regs} {dev : δ} {w : Walk} (hs : Rested s.clk)
    (hp : s.clk.Pointed) (hw : Walks D s w) (hplaced : w.Placed s)
    (h : walkCommit D w (s.clk.lineStart + s.clk.hclock) w.t { s with regs, dev } = .ok s') :
    s'.clk.Pointed ∧ (w.initDone = true → s'.clk.initDone = true) := by
  have hagrees := committed_walk_agrees hs.refreshPaid hs.refreshAt hw h
  have hhblank := walkCommit_hblank (s := { s with regs, dev }) hp.hdma.mp h
  have hnoted : w.initDone = true → s'.clk.initDone = true := by
    intro hdone
    obtain ⟨a, -, h⟩ := bind_eq_ok_iff.mp h
    have hline := hagrees.line
    cases h
    split at hline
    next hsame =>
      rw [if_pos hsame]
      dsimp only
      rw [hdone, Bool.or_true]
    next hother => exact absurd hline hother
  refine ⟨⟨hhblank, fun hline hdone => ?_⟩, hnoted⟩
  have hnot : w.initDone = false := by
    by_contra hset
    exact Bool.false_ne_true (hdone.symm.trans (hnoted ((Bool.not_eq_false _).mp hset)))
  have hsoon := hplaced.init (hagrees.line ▸ hline) hnot
  have hclock := hagrees.hclock
  omega

end Queue

/-! The walk of what a charge begins. -/

section Cycles

variable {δ : Type} {D : Devices δ} {s s' : Sched δ} {w w' : Walk}

theorem dmaAfter_passInvariant (D : Devices δ) (s : Sched δ) (a : Option Nat) :
    PassInvariant D s (fun w => w.pend.dmaAfter = a) where
  time _ _ hw := hw
  span _ _ _ hw := hw
  transfer _ _ _ _ _ hw := hw
  event p p' hw h := by
    obtain ⟨-, h⟩ := walkStep_some h
    cases hk : (walkNext s.clk.fieldBase p.w).1 with
    | lineEnd =>
      rw [hk] at h
      obtain ⟨v, hv, hout⟩ := map_eq_ok_iff.mp h
      cases hout
      obtain ⟨-, -, hpend⟩ := walkLineEnd_fields hv
      exact (congrArg Pend.dmaAfter hpend).trans hw
    | hdma | init | nmi =>
      rw [hk] at h
      cases h
      dsimp only [Pass.change]
      split
      next => exact hw
      next => exact hw
    | refresh | irq =>
      rw [hk] at h
      cases h
      exact hw
  sample w lock i hw := by
    unfold Pend.sample
    dsimp only [Walk.setPend]
    split
    next => split <;> exact hw
    next => exact hw

/-- What waits at the start of a cycle has not waited for long. -/
theorem walkPending_waits {d speed : Nat} {lock : Bool} (hquirk : D.dmaCount8 = false)
    (hcheap : D.Cheap s) (hlo : 600 ≤ d) (hhi : d ≤ 652) (hspeed : 0 < speed) (hfast : speed ≤ 12)
    (hw : w.Waits s d 704) (h : walkPending D s speed w = .ok (w', lock)) :
    w'.Waits s 548 d := by
  cases lock with
  | true =>
    obtain ⟨ps, -, hkeeps⟩ := walkPending_parts hquirk hspeed h
    obtain ⟨hwaits, -⟩ := hkeeps hcheap hfast (hw.mono hhi (Nat.le_refl _))
    exact hwaits.mono (Nat.le_refl _) (by omega)
  | false =>
    unfold walkPending at h
    split at h
    next hnone =>
      cases h
      simp only [Pend.transfer, Bool.or_eq_false_iff] at hnone
      obtain ⟨⟨⟨-, hh⟩, hi⟩, -⟩ := hnone
      exact hw.placed.waits ⟨hh, hi⟩
    next =>
    split at h
    next hdelay =>
      cases h
      have hqueued := hw.queued
      rw [if_pos hdelay] at hqueued
      have hplace := hw.placed
      exact ⟨⟨hplace.inFrame, hplace.inLine, hplace.refresh, hplace.hdma, hplace.init⟩,
        ⟨hqueued.hdma, hqueued.init⟩, ⟨hw.short.hdma, hw.short.init⟩⟩
    next =>
      obtain ⟨u, -, h⟩ := bind_eq_ok_iff.mp h
      obtain ⟨⟨v, count⟩, -, h⟩ := bind_eq_ok_iff.mp h
      obtain ⟨x, -, h⟩ := bind_eq_ok_iff.mp h
      cases h

/-- At the end of a cycle. A DMA still to start will delay what waits once more. -/
def Walk.Due (s : Sched δ) (w : Walk) : Prop :=
  w.Waits s (if w.pend.dmaAfter.isSome then 600 else 652) 704

theorem Walk.Due.waits (h : w.Due s) : w.Waits s 652 704 :=
  h.mono (by split <;> decide) (Nat.le_refl _)

theorem accessed_placed {c : Cycle} (h : w.Placed s) : (w.accessed c).Placed s := by
  unfold Walk.accessed Walk.noteWrite
  split
  next => exact ⟨h.inFrame, h.inLine, h.refresh, h.hdma, h.init⟩
  next => exact ⟨h.inFrame, h.inLine, h.refresh, h.hdma, h.init⟩

/-- An access leaves the queue alone, but the $420B write delays it. -/
theorem access_pend (c : Cycle) (p : Pend) :
    (p.access c).hdma = p.hdma ∧ (p.access c).init = p.init ∧
      (p.access c).hdmaCost = p.hdmaCost ∧ (p.access c).initCost = p.initCost ∧
      ((p.access c).delay = p.delay ∧ (p.access c).dmaAfter = p.dmaAfter ∨
        c.idx.isSome ∧ c.idx = p.dmaAfter ∧ (p.access c).delay = true ∧
          (p.access c).dmaAfter = none) := by
  unfold Pend.access
  split
  next hdma =>
    dsimp only
    split
    next => exact ⟨rfl, rfl, rfl, rfl, .inr ⟨hdma.1, hdma.2, rfl, rfl⟩⟩
    next => exact ⟨rfl, rfl, rfl, rfl, .inr ⟨hdma.1, hdma.2, rfl, rfl⟩⟩
  next =>
    dsimp only
    split
    next => exact ⟨rfl, rfl, rfl, rfl, .inl ⟨rfl, rfl⟩⟩
    next => exact ⟨rfl, rfl, rfl, rfl, .inl ⟨rfl, rfl⟩⟩

theorem accessed_due {d : Nat} {c : Cycle} (hlo : 600 ≤ d) (hhi : d ≤ 652)
    (hw : w.Waits s 600 (d + 52))
    (hd : w.pend.dmaAfter.isSome = true → c.idx.isSome = true → d = 600) : (w.accessed c).Due s := by
  obtain ⟨hh, hi, hhc, hic, hdelay⟩ := access_pend c w.pend
  have hpend : (w.accessed c).pend = w.pend.access c := rfl
  have hqueued : (w.accessed c).Queued (if w.pend.delay then 600 else d + 52) := by
    have hold := hw.queued
    have hplace : (w.accessed c).line = w.line ∧ (w.accessed c).ls = w.ls ∧ (w.accessed c).t = w.t ∧
        (w.accessed c).initDone = w.initDone := by
      unfold Walk.accessed Walk.noteWrite
      split
      next => exact ⟨rfl, rfl, rfl, rfl⟩
      next => exact ⟨rfl, rfl, rfl, rfl⟩
    obtain ⟨hline, hls, ht, hdone⟩ := hplace
    refine ⟨fun hwait => ?_, fun hwait => ?_⟩
    · rw [hpend, hh] at hwait
      rw [hline, hls, ht, hdone]
      exact hold.hdma hwait
    · rw [hpend, hi] at hwait
      rw [hline, ht, hls, hdone]
      exact hold.init hwait
  refine ⟨accessed_placed hw.placed, hqueued.mono ?_, ⟨fun hwait => ?_, fun hwait => ?_⟩⟩
  · rw [hpend]
    rcases hdelay with ⟨hsame, hafter⟩ | ⟨hidx, hmatch, hset, hnone⟩
    · rw [hsame]
      split
      next => split <;> omega
      next => omega
    · have hnow := hd (hmatch ▸ hidx) hidx
      rw [hset, hnone]
      change _ ≤ 652
      split <;> omega
  · rw [hpend] at hwait ⊢
    rw [hhc]
    exact hw.short.hdma (hh ▸ hwait)
  · rw [hpend] at hwait ⊢
    rw [hic]
    exact hw.short.init (hi ▸ hwait)

theorem sample_waits {d k : Nat} (lock i : Bool) (hw : w.Waits s d k) :
    (w.setPend (w.pend.sample lock i)).Waits s d k := by
  have hkept : (w.pend.sample lock i).delay = w.pend.delay ∧
      (w.pend.sample lock i).hdma = w.pend.hdma ∧ (w.pend.sample lock i).init = w.pend.init ∧
      (w.pend.sample lock i).hdmaCost = w.pend.hdmaCost ∧
      (w.pend.sample lock i).initCost = w.pend.initCost := by
    unfold Pend.sample
    dsimp only
    split
    next => split <;> exact ⟨rfl, rfl, rfl, rfl, rfl⟩
    next => exact ⟨rfl, rfl, rfl, rfl, rfl⟩
  obtain ⟨hdelay, hh, hi, hhc, hic⟩ := hkept
  have hplace := hw.placed
  have hqueued := hw.queued
  refine ⟨⟨hplace.inFrame, hplace.inLine, hplace.refresh, hplace.hdma, hplace.init⟩, ?_, ?_⟩
  · change Walk.Queued (if (w.pend.sample lock i).delay then d else k) _
    rw [hdelay]
    exact ⟨fun hwait => hqueued.hdma (hh ▸ hwait), fun hwait => hqueued.init (hi ▸ hwait)⟩
  · refine ⟨fun hwait => ?_, fun hwait => ?_⟩
    · have hcost := hw.short.hdma (hh ▸ hwait)
      exact hhc ▸ hcost
    · have hcost := hw.short.init (hi ▸ hwait)
      exact hic ▸ hcost

theorem walkCycle_due {d smp : Nat} {i : Bool} {c : Cycle} (hquirk : D.dmaCount8 = false)
    (hcheap : D.Cheap s) (hlo : 600 ≤ d) (hhi : d ≤ 652) (hpos : 0 < c.clk) (hfast : c.clk ≤ 12)
    (hw : w.Waits s d 704) (hd : w.pend.dmaAfter.isSome = true → c.idx.isSome = true → d = 600)
    (h : walkCycle D s i c w = .ok (w', smp)) : w'.Due s := by
  obtain ⟨u, hu, h⟩ := bind_eq_ok_iff.mp h
  obtain ⟨⟨v, smp'⟩, hv, h⟩ := bind_eq_ok_iff.mp h
  cases h
  have hkeep := dmaAfter_passInvariant D s w.pend.dmaAfter
  have hafter : v.pend.dmaAfter = w.pend.dmaAfter := hkeep.pass (hkeep.cycleStart rfl hu) hv
  obtain ⟨⟨x, lock⟩, hx, hu⟩ := bind_eq_ok_iff.mp hu
  cases hu
  have hstarted := sample_waits lock i (walkPending_waits hquirk hcheap hlo hhi hpos hfast hw hx)
  obtain ⟨hpassed, -⟩ := hstarted.pass hcheap hfast (by omega) (by omega) hv
  refine accessed_due hlo hhi (hpassed.mono (by omega) (by omega)) ?_
  rw [hafter]
  exact hd

theorem walkCycles_due {i : Bool} {cs : List Cycle} {smp smp' : Nat} (hquirk : D.dmaCount8 = false)
    (hcheap : D.Cheap s) (hclk : ∀ c ∈ cs, 0 < c.clk ∧ c.clk ≤ 12) (hw : w.Due s)
    (h : walkCycles D s i cs (w, smp) = .ok (w', smp')) : w'.Due s := by
  induction cs generalizing w smp with
  | nil =>
    cases h
    exact hw
  | cons c cs ih =>
    obtain ⟨⟨v, smp₁⟩, hv, h⟩ := bind_eq_ok_iff.mp h
    obtain ⟨hpos, hfast⟩ := hclk c List.mem_cons_self
    refine ih (fun c' hc' => hclk c' (List.mem_cons_of_mem c hc')) ?_ h
    refine walkCycle_due hquirk hcheap ?_ ?_ hpos hfast hw (fun hsome _ => if_pos hsome) hv
    · split <;> decide
    · split <;> decide

/-- The cycles cycles.c lists: a fetch first, which is no data access, and none longer than a
slow one. -/
structure Begun.Listed (b : Begun) : Prop where
  fetched : ∃ c cs, b.cycles = c :: cs ∧ c.idx = Option.none
  clk : ∀ c ∈ b.cycles, 0 < c.clk ∧ c.clk ≤ 12

theorem cycleLoop_le {cur : Cur} {slots : List Slot} {fe da : List (LogEntry × Nat)}
    (hspeed : cur.speed ≤ 12) (hfe : ∀ e ∈ fe, e.1.clocks ≤ 12) (hda : ∀ e ∈ da, e.1.clocks ≤ 12) :
    ∀ c ∈ cycleLoop cur none slots fe da, c.clk ≤ 12 := by
  induction slots generalizing fe da with
  | nil => exact List.forall_mem_nil _
  | cons slot slots ih =>
    cases slot with
    | fetch => exact List.forall_mem_cons.mpr ⟨hspeed, ih hfe hda⟩
    | idle => exact List.forall_mem_cons.mpr ⟨by decide, ih hfe hda⟩
    | logged operand =>
      simp only [cycleLoop]
      cases hfound : seek operand (if operand then fe else da) with
      | nil =>
        refine List.forall_mem_cons.mpr ⟨by decide, ih ?_ ?_⟩
        · split
          next => exact List.forall_mem_nil _
          next => exact hfe
        · split
          next => exact hda
          next => exact List.forall_mem_nil _
      | cons e rest =>
        have hall : ∀ a ∈ e :: rest, a.1.clocks ≤ 12 := fun a ha => by
          have hin := (mem_seek hfound).2 a ha
          split at hin
          next => exact hfe a hin
          next => exact hda a hin
        obtain ⟨hfirst, hrest⟩ := List.forall_mem_cons.mp hall
        refine List.forall_mem_cons.mpr ⟨hfirst, ih ?_ ?_⟩
        · split
          next => exact hrest
          next => exact hfe
        · split
          next => exact hda
          next => exact hrest

theorem tmpl_fetch : ∀ op t, tmpl op = some t → t.head? = some .F := by decide +kernel

/-- So are the cycles of whatever `cyc_cycles` has a template for, as no access is slower
than 12 clocks. -/
theorem cycCycles_listed {cur : Cur} {cross taken : Bool} {log : List LogEntry} (clocks : Nat)
    (hspeed : 6 ≤ cur.speed ∧ cur.speed ≤ 12) (hlog : ∀ e ∈ log, 6 ≤ e.clocks ∧ e.clocks ≤ 12)
    (hsome : cycCycles cur cross taken log none ≠ []) :
    (⟨clocks, cycCycles cur cross taken log none⟩ : Begun).Listed := by
  have htmpl : ∀ t, (if cur.interrupt then some tmplInt else tmpl cur.op) = some t →
      t.head? = some .F := by
    intro t ht
    split at ht
    next =>
      cases ht
      rfl
    next => exact tmpl_fetch _ t ht
  have hentries : ∀ e ∈ (log.take ctBusLog).zipIdx, 6 ≤ e.1.clocks ∧ e.1.clocks ≤ 12 := by
    intro e he
    exact hlog e.1 (List.mem_of_mem_take (List.fst_mem_of_mem_zipIdx he))
  have hlo : ∀ e ∈ (log.take ctBusLog).zipIdx, 6 ≤ e.1.clocks := fun e he => (hentries e he).1
  have hhi : ∀ e ∈ (log.take ctBusLog).zipIdx, e.1.clocks ≤ 12 := fun e he => (hentries e he).2
  unfold cycCycles at hsome ⊢
  cases ht : (if cur.interrupt then some tmplInt else tmpl cur.op) with
  | none =>
    rw [ht] at hsome
    exact absurd rfl hsome
  | some t =>
    obtain ⟨letters, rfl⟩ := List.head?_eq_some_iff.mp (htmpl t ht)
    refine ⟨⟨_, _, rfl, rfl⟩, fun c hc => ⟨?_, cycleLoop_le hspeed.2 hhi hhi c hc⟩⟩
    have hsix := cycleLoop_clk hspeed.1 hlo hlo c hc
    omega

theorem walkPrefix_due {i : Bool} {b : Begun} {pre post : List Cycle} {smp smp' : Nat}
    (hquirk : D.dmaCount8 = false) (hcheap : D.Cheap s) (hb : b.Listed)
    (hsplit : b.cycles = pre ++ post) (hs : w.Waits s 652 704)
    (h : walkCycles D s i pre (w, smp) = .ok (w', smp')) : w'.Waits s 652 704 := by
  cases pre with
  | nil =>
    cases h
    exact hs
  | cons c cs =>
    obtain ⟨c', cs', hcycles, hidx⟩ := hb.fetched
    have hfirst : c = c' := (List.cons.inj (hsplit.symm.trans hcycles)).1
    have hclk : ∀ e ∈ c :: cs, 0 < e.clk ∧ e.clk ≤ 12 := fun e he =>
      hb.clk e (hsplit ▸ List.mem_append_left post he)
    obtain ⟨⟨v, smp₁⟩, hv, h⟩ := bind_eq_ok_iff.mp h
    obtain ⟨hpos, hfast⟩ := hclk c List.mem_cons_self
    have hdue := walkCycle_due hquirk hcheap (by decide) (Nat.le_refl _) hpos hfast hs
      (fun _ hsome => absurd (hfirst ▸ hidx) (Option.isSome_iff_ne_none.mp hsome)) hv
    exact (walkCycles_due hquirk hcheap (fun e he => hclk e (List.mem_cons_of_mem c he)) hdue h).waits

end Cycles

/-! The runs. -/

/-- The scheduler starts no later than 210 clocks into line 0, and charges cycles so listed. -/
inductive PauseRun {δ : Type} (D : Devices δ) : Sched δ → Prop
  | start {startDelay : Nat} {dev : δ} {s : Sched δ} (soon : startDelay ≤ 210)
      (h : schedStart D startDelay dev = .ok s) : PauseRun D s
  | charge {insnI takeIrq takeIrq' : Bool} {b : Begun} {s s' : Sched δ} (run : PauseRun D s)
      (listed : b.Listed) (h : charge D insnI b s takeIrq = .ok (s', takeIrq')) : PauseRun D s'
  | wai {i seen : Bool} {s s' : Sched δ} (run : PauseRun D s)
      (h : waiCycle D i s = .ok (s', seen)) : PauseRun D s'
  | access {s : Sched δ} (run : PauseRun D s) (a : RegAccess) (dev : δ) :
      PauseRun D { s with regs := a.effect s.regs, dev }
  | chargeReset {insnI takeIrq : Bool} {b : Begun} {startDelay : Nat} {dev : δ} {s r s' : Sched δ}
      (run : PauseRun D s) (soon : startDelay ≤ 210)
      (h : CtRecomp.charge D insnI b s takeIrq = .error (.reset r))
      (again : restart D startDelay dev r = .ok s') : PauseRun D s'
  | waiReset {i : Bool} {startDelay : Nat} {dev : δ} {s r s' : Sched δ} (run : PauseRun D s)
      (soon : startDelay ≤ 210) (h : waiCycle D i s = .error (.reset r))
      (again : restart D startDelay dev r = .ok s') : PauseRun D s'

section Runs

variable {δ : Type} {D : Devices δ} {s s' : Sched δ} {w w' : Walk}

theorem PauseRun.hookRun (h : PauseRun D s) : HookRun D (fun _ _ => True) s := by
  induction h with
  | start _ h => exact .start h
  | charge _ _ h ih => exact ih.step (.charge h)
  | wai _ h ih => exact ih.step (.wai h)
  | access _ a dev ih => exact ih.step (.access a trivial dev)
  | chargeReset _ _ h again ih => exact ih.step (.chargeReset h again)
  | waiReset _ _ h again ih => exact ih.step (.waiReset h again)

/-- What a run keeps between two charges. -/
structure Sched.Queued (s : Sched δ) : Prop where
  rested : Rested s.clk
  inRaster : s.clk.InRaster
  pointed : s.clk.Pointed
  waits : (walkInit s).Waits s 652 704

/-- With nothing waiting. -/
theorem Sched.Queued.idle (hrest : Rested s.clk) (hin : s.clk.InRaster) (hp : s.clk.Pointed)
    (hidle : s.regs.pend.hdma = false ∧ s.regs.pend.init = false) : s.Queued :=
  ⟨hrest, hin, hp, (walkInit_placed hrest hin hp).waits hidle⟩

theorem queue_idle {r r' : Regs} (h : r'.queue = r.queue)
    (hidle : r.pend.hdma = false ∧ r.pend.init = false) :
    r'.pend.hdma = false ∧ r'.pend.init = false :=
  ⟨(congrArg (fun q => q.2.1) h).trans hidle.1, (congrArg (fun q => q.2.2.1) h).trans hidle.2⟩

/-- The queue waits on while the clock stands still. -/
theorem Sched.Queued.queue (h : s.Queued) {regs : Regs} {dev : δ}
    (hqueue : regs.queue = s.regs.queue) : ({ s with regs, dev } : Sched δ).Queued := by
  obtain ⟨hplaced, hqueued, hshort⟩ := h.waits
  simp only [Regs.queue, Prod.mk.injEq] at hqueue
  obtain ⟨hdelay, hh, hi, hhc, hic⟩ := hqueue
  refine ⟨h.rested, h.inRaster, h.pointed,
    ⟨hplaced.inFrame, hplaced.inLine, hplaced.refresh, hplaced.hdma, hplaced.init⟩, ?_, ?_⟩
  · change Walk.Queued (if regs.pend.delay then 652 else 704) _
    rw [hdelay]
    exact ⟨fun hwait => hqueued.hdma (hh ▸ hwait), fun hwait => hqueued.init (hi ▸ hwait)⟩
  · refine ⟨fun hwait => ?_, fun hwait => ?_⟩
    · have hcost := hshort.hdma (hh ▸ hwait)
      exact hhc ▸ hcost
    · have hcost := hshort.init (hi ▸ hwait)
      exact hic ▸ hcost

/-- A walk committed: the scheduler takes its queue over where it stands. -/
theorem Sched.Queued.commit (hD : D.Leaves Regs.queue) (hs : s.Queued) (hwalk : Walks D s w)
    (hw : w.Waits s 652 704) {regs : Regs} {dev : δ}
    (hqueue : regs.queue = { s.regs with pend := w.pend }.queue)
    (h : walkCommit D w (s.clk.lineStart + s.clk.hclock) w.t { s with regs, dev } = .ok s') :
    s'.Queued := by
  have hagrees := committed_walk_agrees hs.rested.refreshPaid hs.rested.refreshAt hwalk h
  have hrested := walkCommit_rested (s := s) (r := { s with regs, dev }) rfl hs.rested hwalk.out h
  have hin : s'.clk.InRaster :=
    inRaster_lineInvariant.walkCommit (s := { s with regs, dev }) hs.inRaster h
  obtain ⟨hpointed, hnoted⟩ := walkCommit_pointed hs.rested hs.pointed hwalk hw.placed h
  have hkept := (walkCommit_queue hD h).trans hqueue
  simp only [Regs.queue, Prod.mk.injEq] at hkept
  obtain ⟨hdelay, hh, hi, hhc, hic⟩ := hkept
  have hqueued := hw.queued
  have hclock := hagrees.hclock
  have hafter := hagrees.inLine
  have hnow : (walkInit s').t = w.t := by
    change s'.clk.lineStart + s'.clk.hclock = w.t
    rw [hagrees.lineStart]
    omega
  have hline : (walkInit s').line = w.line := hagrees.line
  have hls : (walkInit s').ls = w.ls := hagrees.lineStart
  refine ⟨hrested, hin, hpointed, walkInit_placed hrested hin hpointed, ?_, ?_⟩
  · change Walk.Queued (if s'.regs.pend.delay then 652 else 704) _
    rw [hdelay]
    refine ⟨fun hwait => ?_, fun hwait => ?_⟩
    · rw [hline, hls, hnow]
      rcases hqueued.hdma (hh ▸ hwait) with ⟨habove, hinit, hpast⟩ | hnext
      · exact .inl ⟨habove, fun hzero => hnoted (hinit hzero), hpast⟩
      · exact .inr hnext
    · rw [hline, hls, hnow]
      obtain ⟨hzero, hdone, hsoon⟩ := hqueued.init (hi ▸ hwait)
      exact ⟨hzero, hnoted hdone, hsoon⟩
  · refine ⟨fun hwait => ?_, fun hwait => ?_⟩
    · have hcost := hw.short.hdma (hh ▸ hwait)
      exact hhc ▸ hcost
    · have hcost := hw.short.init (hi ▸ hwait)
      exact hic ▸ hcost

/-- Time passes with nothing inside. -/
theorem Sched.Queued.outside (hD : D.Leaves Regs.queue) (hs : s.Queued) {n : Nat}
    (ho : Outside D n s) {p : Pend} (hp : { s.regs with pend := p }.queue = s.regs.queue)
    (h : advance D ⟨false, none⟩ n (s.setPend p) = .ok s') : s'.Queued := by
  have hpassing : Passing s n s' := (ho.advance p ⟨false, none⟩).2 s' h
  have hrested := advance_rested (s := s.setPend p) hs.rested.refreshPaid hs.rested.refreshAt h
  have hin : s'.clk.InRaster := inRaster_lineInvariant.advance (s := s.setPend p) hs.inRaster h
  have hidle : s.regs.pend.hdma = false ∧ s.regs.pend.init = false := by
    have hnone := ho.transfer
    simp only [Pend.transfer, Bool.or_eq_false_iff] at hnone
    exact ⟨hnone.1.1.2, hnone.1.2⟩
  refine .idle hrested hin ⟨advance_hblank (s := s.setPend p) hs.pointed.hdma.mp h,
    fun hline hdone => ?_⟩ (queue_idle ((advance_queue hD h).trans hp) hidle)
  rw [hpassing] at hline hdone ⊢
  dsimp only at hline hdone ⊢
  rcases ho.init with hother | hset | hsoon
  · exact absurd hline hother
  · exact absurd (hdone.symm.trans hset) Bool.false_ne_true
  · omega

theorem charge_queued {insnI takeIrq takeIrq' : Bool} {b : Begun} (hD : D.Leaves Regs.queue)
    (hquirk : D.dmaCount8 = false) (hcheap : D.Cheap s) (hb : b.Listed) (hs : s.Queued)
    (h : charge D insnI b s takeIrq = .ok (s', takeIrq')) : s'.Queued := by
  unfold charge at h
  split at h
  next =>
    cases h
    exact hs
  next =>
  split at h
  next hquiet =>
    obtain ⟨a, ha, h⟩ := bind_eq_ok_iff.mp h
    cases h
    exact hs.outside hD (inside_false hquiet) (by rfl) ha
  next =>
    obtain ⟨⟨w, smp⟩, hw, h⟩ := bind_eq_ok_iff.mp h
    obtain ⟨a, ha, h⟩ := bind_eq_ok_iff.mp h
    cases h
    have hwalk := fatally_eq_ok.mp hw
    obtain ⟨c, cs, hcycles, -⟩ := hb.fetched
    have hsome : b.cycles ≠ [] := by
      rw [hcycles]
      exact List.cons_ne_nil c cs
    have hwaits := walkPrefix_due hquirk hcheap hb (List.append_nil _).symm hs.waits hwalk
    exact hs.commit hD (.insn hsome hwalk) hwaits (by rfl) ha

theorem waiRun_queued (hD : D.Leaves Regs.queue) (hs : s.Queued) (h : waiRun D s = .ok s') :
    s'.Queued := by
  unfold waiRun onlyIf at h
  dsimp only at h
  split at h
  next hquiet =>
    obtain ⟨hq, hsoon⟩ := hquiet
    have hcalm : Calm (6 * ((waiNext s.clk - s.clk.hclock) / 6 - 1)) s.clk :=
      calm_of_waiNext (by omega)
    have hlater : (s.setPend { s.regs.pend with dmaAfter := none, nmiAfter := none }).Queued :=
      hs.queue (by rfl)
    exact hlater.outside hD (hcalm.outside hq) (p := s.regs.pend) (by rfl) h
  next =>
    cases h
    exact hs

theorem waiCycle_queued {i seen : Bool} (hD : D.Leaves Regs.queue) (hquirk : D.dmaCount8 = false)
    (hcheap : ∀ s, D.Cheap s) (hs : s.Queued) (h : waiCycle D i s = .ok (s', seen)) :
    s'.Queued := by
  obtain ⟨r, hr, h⟩ := bind_eq_ok_iff.mp h
  obtain ⟨⟨w, seen'⟩, hw, h⟩ := bind_eq_ok_iff.mp h
  obtain ⟨a, ha, h⟩ := bind_eq_ok_iff.mp h
  cases h
  have hran := waiRun_queued hD hs hr
  have hwalk := fatally_eq_ok.mp hw
  obtain ⟨u, hu, hpass⟩ := bind_eq_ok_iff.mp hwalk
  obtain ⟨⟨v, smp⟩, hv, hpass⟩ := bind_eq_ok_iff.mp hpass
  cases hpass
  obtain ⟨⟨x, lock⟩, hx, hu⟩ := bind_eq_ok_iff.mp hu
  cases hu
  have hstarted := sample_waits lock i
    (walkPending_waits hquirk (hcheap r) (by decide) (Nat.le_refl _) (by decide) (by decide)
      hran.waits hx)
  obtain ⟨hwaits, -⟩ := hstarted.pass (hcheap r) (by decide) (by decide) (by decide) hv
  exact hran.commit hD (.wai hwalk) (hwaits.mono (by decide) (by decide)) (by rfl) ha

theorem start_queued {startDelay : Nat} {r : Sched δ} (hD : D.Leaves Regs.queue)
    (hline : s.clk.line = 0) (hclock : s.clk.hclock = 0)
    (hpend : s.regs.pend = pendReset) (hrest : Rested s'.clk) (hin : s'.clk.InRaster)
    (hb : beginLine D s = .ok r) (soon : startDelay ≤ 210)
    (h : advance D ⟨false, none⟩ startDelay r = .ok s') : s'.Queued := by
  have hbegun := (beginLine_begun hD rfl hb).queue
  refine .idle hrest hin (beginLine_pointed hline hclock hb soon h)
    (queue_idle ((advance_queue hD h).trans hbegun) ?_)
  rw [hpend]
  exact ⟨rfl, rfl⟩

theorem pauseRun_queued (hD : D.Leaves Regs.queue) (hquirk : D.dmaCount8 = false)
    (hcheap : ∀ s, D.Cheap s) (h : PauseRun D s) : s.Queued := by
  have hrested := hookRun_rested h.hookRun
  have hin := hookRun_inRaster h.hookRun
  induction h with
  | start soon h =>
    obtain ⟨r, hr, h⟩ := bind_eq_ok_iff.mp h
    exact start_queued hD rfl rfl rfl hrested hin hr soon h
  | charge run listed h ih =>
    have hbefore := ih (hookRun_rested run.hookRun) (hookRun_inRaster run.hookRun)
    exact charge_queued hD hquirk (hcheap _) listed hbefore h
  | wai run h ih =>
    have hbefore := ih (hookRun_rested run.hookRun) (hookRun_inRaster run.hookRun)
    exact waiCycle_queued hD hquirk hcheap hbefore h
  | access run a dev ih =>
    have hbefore := ih (hookRun_rested run.hookRun) (hookRun_inRaster run.hookRun)
    exact hbefore.queue (effect_queue a _)
  | chargeReset run soon h again ih =>
    obtain ⟨r, hr, again⟩ := bind_eq_ok_iff.mp again
    exact start_queued hD rfl rfl rfl hrested hin hr soon again
  | waiReset run soon h again ih =>
    obtain ⟨r, hr, again⟩ := bind_eq_ok_iff.mp again
    exact start_queued hD rfl rfl rfl hrested hin hr soon again

/-- Where a CPU cycle of `speed` clocks starts: in an instruction or interrupt entry, or
waiting. The walk is one of `r`. -/
inductive CycleStart (D : Devices δ) (s : Sched δ) : Sched δ → Nat → Walk → Prop
  | insn {b : Begun} {insnI : Bool} {pre post : List Cycle} {c : Cycle} {w : Walk} {smp : Nat}
      (listed : b.Listed) (split : b.cycles = pre ++ c :: post)
      (h : walkCycles D s insnI pre (walkInit s, (walkInit s).t) = .ok (w, smp)) :
      CycleStart D s s c.clk w
  | wai {r : Sched δ} (h : waiRun D s = .ok r) : CycleStart D s r 6 (walkInit r)

end Runs

/-- One channel of HDMA, to a single register. -/
def oneChannel : Vector DmaChannel 8 := Vector.ofFn fun i =>
  { DmaChannel.reset with
    hdmaActive := i.val = 0, mode := 0, indirect := false, aBank := 0x7E, tableAdr := 0x2001 }

def hdmaDevices : Devices Unit :=
  { idleDevices with
    hdmaEnabled _ := snesHdmaEnabled oneChannel
    hdmaCost _ := snesHdmaCost (fun _ => 0) oneChannel
    hdmaInitCost _ := snesHdmaInitCost (fun _ => 0) oneChannel }

def threeReads : Begun := ⟨24, List.replicate 3 ⟨8, .read, none⟩⟩

end CtRecomp
