import CtRecomp.HdmaQueue

namespace CtRecomp

open Loop

section Stretches

variable {δ : Type} {D : Devices δ} {s : Sched δ} {w u v w' : Walk} {ps qs own own' : List Part}
  {count count' n : Nat}

/-- HDMA and its init take no longer than a third of a line. -/
def Devices.Cheap (D : Devices δ) (s : Sched δ) : Prop :=
  D.hdmaCost s.dev ≤ 456 ∧ D.hdmaInitCost s.dev ≤ 200

/-- So do those waiting. -/
structure Walk.Short (w : Walk) : Prop where
  hdma : w.pend.hdma = true → w.pend.hdmaCost ≤ 456
  init : w.pend.init = true → w.pend.initCost ≤ 200

/-- How long what waits may have waited, delayed or not. -/
structure Walk.Waits (s : Sched δ) (d k : Nat) (w : Walk) : Prop where
  placed : w.Placed s
  queued : w.Queued (if w.pend.delay then d else k)
  short : w.Short

theorem Devices.HasHdma.cheap {channels : δ → Vector DmaChannel 8}
    {peek : δ → BitVec 24 → BitVec 8} (h : D.HasHdma channels peek) : D.Cheap s :=
  ⟨h.cost s.dev ▸ snesHdmaCost_le _ _, h.initCost s.dev ▸ snesHdmaInitCost_le _ _⟩

theorem Queues.short (hcheap : D.Cheap s) (h : Queues D s w w') (hw : w.Short) : w'.Short where
  hdma hp := by
    rcases h.hdma with ⟨hp', hc⟩ | ⟨-, hc⟩
    · exact hc ▸ hw.hdma (hp' ▸ hp)
    · exact hc ▸ hcheap.1
  init hp := by
    rcases h.init with ⟨hp', hc⟩ | ⟨-, hc⟩
    · exact hc ▸ hw.init (hp' ▸ hp)
    · exact hc ▸ hcheap.2

theorem Walk.idle.short (h : w.idle) : w.Short :=
  ⟨fun hp => absurd (h.1.symm.trans hp) Bool.false_ne_true,
    fun hp => absurd (h.2.symm.trans hp) Bool.false_ne_true⟩

theorem Walk.Placed.waits {d k : Nat} (h : w.Placed s) (hidle : w.idle) : w.Waits s d k :=
  ⟨h, hidle.queued _, hidle.short⟩

theorem Walk.Waits.mono {d k d' k' : Nat} (h : w.Waits s d k) (hd : d ≤ d') (hk : k ≤ k') :
    w.Waits s d' k' := by
  refine ⟨h.placed, h.queued.mono ?_, h.short⟩
  split
  next => exact hd
  next => exact hk

/-- A short pass, whatever waits. -/
theorem Walk.Waits.pass {d k sample smp : Nat} (hcheap : D.Cheap s) (h : w.Waits s d k) (hn : n ≤ 12)
    (hd : d + n + 40 ≤ 800) (hk : k + n + 40 ≤ 800)
    (hpass : walkPass D s n sample w = .ok (w', smp)) :
    w'.Waits s (d + n + 40) (k + n + 40) ∧ Lossless D s w [] w' := by
  have hwaited := walkPass_waited h.placed h.queued (by omega) (by split <;> omega) hpass
  refine ⟨⟨hwaited.placed, ?_, (walkPass_queues hpass).short hcheap h.short⟩, hwaited.lossless⟩
  by_cases hidle : w.idle
  · obtain ⟨hdelay, hqueued⟩ := hwaited.fresh hidle
    refine hqueued.mono ?_
    split
    next => omega
    next => omega
  · obtain ⟨-, -, hdelay, hqueued⟩ := hwaited.waits hidle
    rw [hdelay]
    refine hqueued.mono ?_
    split
    next => exact Nat.le_refl _
    next => exact Nat.le_refl _

theorem Walk.Waits.passFor {d k : Nat} (hcheap : D.Cheap s) (h : w.Waits s d k) (hn : n ≤ 12)
    (hd : d + n + 40 ≤ 800) (hk : k + n + 40 ≤ 800) (hpass : walkFor D s n w = .ok w') :
    w'.Waits s (d + n + 40) (k + n + 40) ∧ Lossless D s w [] w' := by
  obtain ⟨⟨x, smp⟩, hx, hout⟩ := map_eq_ok_iff.mp hpass
  cases hout
  exact h.pass hcheap hn hd hk hx

/-- A pass with nothing waiting: what waits after it is delayed. -/
theorem Walk.Placed.passIdle (hcheap : D.Cheap s) (h : w.Placed s) (hidle : w.idle) (hn : n ≤ 456)
    (hpass : walkFor D s n w = .ok w') : (∀ k, w'.Waits s 496 k) ∧ Lossless D s w [] w' := by
  have hwaited := walkFor_waited h (hidle.queued 0) (by omega) (by omega) hpass
  obtain ⟨hdelay, hqueued⟩ := hwaited.fresh hidle
  refine ⟨fun k => ⟨hwaited.placed, ?_, (walkFor_queues hpass).short hcheap hidle.short⟩,
    hwaited.lossless⟩
  by_cases hnew : w'.idle
  · exact hnew.queued _
  · rw [if_pos (hdelay hnew)]
    exact hqueued.mono (by omega)

/-- HDMA starts: it is off the queue. -/
theorem hdma_idle {a : Nat} (hq : w.Queued a) (ha : a ≤ 800) (hp : w.pend.hdma = true) :
    (w.setPend { w.pend with hdma := false }).idle := ⟨rfl, hq.one ha hp⟩

theorem Lossless.ranHdma {cost : Nat} (hp : w.pend.hdma = true)
    (h : Lossless D s (w.setPend { w.pend with hdma := false }) [] w') :
    Lossless D s w [.hdma cost] w' where
  onward := h.onward
  hdma := by
    have hrest := h.hdma
    rw [hp]
    simp only [Walk.setPend, Bool.toNat_false] at hrest
    rw [List.countP_cons_of_pos rfl]
    change 1 + made D s hdmaPoints w w' = _
    change 0 + made D s hdmaPoints w w' = _ at hrest
    omega
  init := h.init

theorem Lossless.ranInit {cost : Nat} (hp : w.pend.init = true)
    (h : Lossless D s (w.setPend { w.pend with init := false }) [] w') :
    Lossless D s w [.init cost] w' where
  onward := h.onward
  hdma := h.hdma
  init := by
    have hrest := h.init
    rw [hp]
    rw [List.countP_cons_of_pos rfl]
    change 1 + made D s initPoints w w' = _
    change 0 + made D s initPoints w w' = _ at hrest
    omega

theorem Lossless.recount (h : Lossless D s w ps w')
    (hh : qs.countP Part.isHdma = ps.countP Part.isHdma)
    (hi : qs.countP Part.isInit = ps.countP Part.isInit) : Lossless D s w qs w' :=
  ⟨h.onward, by rw [h.hdma, hh], by rw [h.init, hi]⟩

/-- A part of the pause's own. -/
theorem Lossless.ownPart {part : Part} (hown : part.isRun = false) (h : Lossless D s w ps w') :
    Lossless D s w (part :: ps) w' := by
  obtain ⟨hh, hi⟩ := Bool.or_eq_false_iff.mp hown
  refine h.recount (List.countP_cons_of_neg ?_) (List.countP_cons_of_neg ?_)
  · rw [hh]
    exact Bool.false_ne_true
  · rw [hi]
    exact Bool.false_ne_true

/-- HDMA or init runs, whatever the queue held. -/
theorem Walk.Waits.runHdma {d k a : Nat} (hcheap : D.Cheap s) (h : w.Waits s d k) (hd : d ≤ 800)
    (hk : k ≤ 800) (hp : w.pend.hdma = true)
    (hpass : walkFor D s w.pend.hdmaCost (w.setPend { w.pend with hdma := false }) = .ok w') :
    w'.Waits s 496 a ∧ Lossless D s w [.hdma w.pend.hdmaCost] w' := by
  have hqueued : w.Queued 800 := h.queued.mono (by split <;> omega)
  have hplaced : (w.setPend { w.pend with hdma := false }).Placed s :=
    ⟨h.placed.inFrame, h.placed.inLine, h.placed.refresh, h.placed.hdma, h.placed.init⟩
  obtain ⟨hwaits, hloss⟩ :=
    hplaced.passIdle hcheap (hdma_idle hqueued (Nat.le_refl _) hp) (h.short.hdma hp) hpass
  exact ⟨hwaits a, hloss.ranHdma hp⟩

theorem Walk.Waits.runInit {d k a : Nat} (hcheap : D.Cheap s) (h : w.Waits s d k)
    (hno : w.pend.hdma = false) (hp : w.pend.init = true)
    (hpass : walkFor D s w.pend.initCost (w.setPend { w.pend with init := false }) = .ok w') :
    w'.Waits s 496 a ∧ Lossless D s w [.init w.pend.initCost] w' := by
  have hplaced : (w.setPend { w.pend with init := false }).Placed s :=
    ⟨h.placed.inFrame, h.placed.inLine, h.placed.refresh, h.placed.hdma, h.placed.init⟩
  have hcost := h.short.init hp
  obtain ⟨hwaits, hloss⟩ := hplaced.passIdle hcheap ⟨hno, rfl⟩ (by omega) hpass
  exact ⟨hwaits a, hloss.ranInit hp⟩

/-! The parts of a general DMA. -/

/-- One stretch of a DMA: parts with the DMA's own among them, and the count that goes with
them. -/
structure Stretch (D : Devices δ) (s : Sched δ) (w : Walk) (count : Nat) (own : List Part)
    (ps : List Part) (w' : Walk) (count' : Nat) : Prop where
  parts : Parts D s w ps w'
  own : ps.filter (!·.isRun) = own
  count : count' = count + Part.total ps
  recorded : w'.Recorded D s
  sizes : w'.pend.dmaSizes = w.pend.dmaSizes
  keeps : D.Cheap s → w.Waits s 496 544 → w'.Waits s 496 544 ∧ Lossless D s w ps w'

theorem Stretch.nil (hw : w.Recorded D s) : Stretch D s w count [] [] w count :=
  ⟨.done w, rfl, rfl, hw, rfl, fun _ hwaits => ⟨hwaits, .of_eq ⟨rfl, rfl⟩ ⟨rfl, rfl⟩⟩⟩

theorem Stretch.append {mid : Nat} (h : Stretch D s w count own ps u mid)
    (h' : Stretch D s u mid own' qs w' count') :
    Stretch D s w count (own ++ own') (ps ++ qs) w' count' where
  parts := h.parts.append h'.parts
  own := by rw [List.filter_append, h.own, h'.own]
  count := by
    rw [Part.total_append, h'.count, h.count]
    omega
  recorded := h'.recorded
  sizes := h'.sizes.trans h.sizes
  keeps hcheap hwaits := by
    obtain ⟨hmid, hloss⟩ := h.keeps hcheap hwaits
    obtain ⟨hend, hloss'⟩ := h'.keeps hcheap hmid
    exact ⟨hend, hloss.append hloss'⟩

/-- The count may start anywhere. -/
theorem Stretch.recount {c c' : Nat} (h : Stretch D s w c own ps w' c')
    (hcount : count' = count + Part.total ps) : Stretch D s w count own ps w' count' :=
  { h with count := hcount }

/-- What `walkDmaPending` runs, a short pass after the last one. -/
theorem walkDmaPending_stretch (hw : w.Recorded D s)
    (h : walkDmaPending D s w count = .ok (w', count')) :
    ∃ ps, Parts D s w ps w' ∧ ps.filter (!·.isRun) = [] ∧ count' = count + Part.total ps ∧
      w'.Recorded D s ∧ w'.pend.dmaSizes = w.pend.dmaSizes ∧
      (D.Cheap s → w.Waits s 544 592 → w'.Waits s 496 544 ∧ Lossless D s w ps w') := by
  unfold walkDmaPending at h
  split at h
  next hdelay =>
    cases h
    refine ⟨[], .set false w.pend.dma w.dmaLo w.dmaHi (.done _), rfl, rfl, ⟨hw.hdma, hw.init⟩, rfl,
      fun _ hwaits => ⟨⟨⟨hwaits.placed.inFrame, hwaits.placed.inLine, hwaits.placed.refresh,
        hwaits.placed.hdma, hwaits.placed.init⟩, ?_, ⟨hwaits.short.hdma, hwaits.short.init⟩⟩,
        .of_eq ⟨rfl, rfl⟩ ⟨rfl, rfl⟩⟩⟩
    have hqueued := hwaits.queued
    rw [if_pos hdelay] at hqueued
    exact ⟨hqueued.hdma, hqueued.init⟩
  next hdelay =>
  split at h
  next hp =>
    obtain ⟨v, hv, h⟩ := bind_eq_ok_iff.mp h
    cases h
    have hq := walkFor_queues hv
    refine ⟨[.hdma w.pend.hdmaCost], .hdma hp hv (.done _), rfl, ?_, hq.recorded ⟨nofun, hw.init⟩,
      hq.sizes, fun hcheap hwaits => hwaits.runHdma hcheap (by decide) (by decide) hp hv⟩
    rw [walkFor_hdmaCost hv (hw.hdma hp)]
    rfl
  next hno =>
  have hnone := Bool.eq_false_iff.mpr hno
  split at h
  next hp =>
    obtain ⟨v, hv, h⟩ := bind_eq_ok_iff.mp h
    cases h
    have hq := walkFor_queues hv
    refine ⟨[.init w.pend.initCost], .init hnone hp hv (.done _), rfl, ?_,
      hq.recorded ⟨hw.hdma, nofun⟩, hq.sizes,
      fun hcheap hwaits => hwaits.runInit hcheap hnone hp hv⟩
    rw [walkFor_initCost hv (hw.init hp)]
    rfl
  next hnot =>
    cases h
    have hidle : w.idle := ⟨hnone, Bool.eq_false_iff.mpr hnot⟩
    exact ⟨[], .done _, rfl, rfl, hw, rfl, fun _ hwaits =>
      ⟨hwaits.placed.waits hidle, .of_eq ⟨rfl, rfl⟩ ⟨rfl, rfl⟩⟩⟩

/-- Eight clocks of the DMA's own and what runs after them. -/
theorem walkDmaSlot_stretch (part : Part) (hown : part.isRun = false) (hclocks : part.clocks = 8)
    (hw : w.Recorded D s) (hpass : walkFor D s 8 w = .ok u)
    (h : walkDmaPending D s u count = .ok (w', count')) :
    ∃ ps, Stretch D s w count [part] ps w' (count' + 8) := by
  have hqueues := walkFor_queues hpass
  obtain ⟨ps, hparts, hrest, hcount, hrecorded, hsizes, hkeeps⟩ :=
    walkDmaPending_stretch (hqueues.recorded hw) h
  rw [← hclocks] at hpass
  refine ⟨part :: ps, .pass part hown hpass hparts, ?_, ?_, hrecorded, hsizes.trans hqueues.sizes,
    fun hcheap hwaits => ?_⟩
  · rw [List.filter_cons_of_pos (by rw [hown]; rfl), hrest]
  · rw [Part.total_cons, hcount, hclocks]
    omega
  · rw [hclocks] at hpass
    obtain ⟨hu, hloss⟩ := hwaits.passFor hcheap (by decide) (by decide) (by decide) hpass
    obtain ⟨hend, hloss'⟩ := hkeeps hcheap hu
    exact ⟨hend, (hloss.append hloss').ownPart hown⟩

/-- The bytes' own clocks are counted with their channel. -/
theorem walkDmaBytes_stretch (hw : w.Recorded D s)
    (h : walkDmaBytes D s n w count = .ok (w', count')) :
    ∃ ps, Stretch D s w count (List.replicate n .byte) ps w' (count' + 8 * n) := by
  induction n generalizing w count with
  | zero =>
    cases h
    exact ⟨[], .nil hw⟩
  | succ n ih =>
    obtain ⟨u, hu, h⟩ := bind_eq_ok_iff.mp h
    obtain ⟨⟨v, c⟩, hv, h⟩ := bind_eq_ok_iff.mp h
    obtain ⟨qs, hslot⟩ := walkDmaSlot_stretch .byte rfl rfl hw hu hv
    obtain ⟨rs, hrest⟩ := ih hslot.recorded h
    have hlater : Stretch D s v (c + 8) (List.replicate n .byte) rs w' (count' + 8 * (n + 1)) :=
      hrest.recount (by have := hrest.count; omega)
    exact ⟨qs ++ rs, hslot.append hlater⟩

theorem walkDmaChannels_stretch {sizes : List Nat} (hquirk : D.dmaCount8 = false)
    (hw : w.Recorded D s) (h : walkDmaChannels D s sizes w count = .ok (w', count')) :
    ∃ ps, Stretch D s w count
      ((sizes.filter (· ≠ 0)).flatMap fun n => .channel :: List.replicate n .byte) ps w' count' := by
  induction sizes generalizing w count with
  | nil =>
    cases h
    exact ⟨[], .nil hw⟩
  | cons size sizes ih =>
    unfold walkDmaChannels at h
    split at h
    next hzero =>
      rw [List.filter_cons_of_neg (by simp [hzero])]
      exact ih hw h
    next hsize =>
      obtain ⟨u, hu, h⟩ := bind_eq_ok_iff.mp h
      obtain ⟨⟨v, c⟩, hv, h⟩ := bind_eq_ok_iff.mp h
      obtain ⟨⟨x, d⟩, hx, h⟩ := bind_eq_ok_iff.mp h
      obtain ⟨qs, hslot⟩ := walkDmaSlot_stretch .channel rfl rfl hw hu hv
      have hchannel : Stretch D s w count [.channel] qs v c :=
        hslot.recount (by have := hslot.count; omega)
      obtain ⟨rs, hbytes⟩ := walkDmaBytes_stretch hslot.recorded hx
      dsimp only at h
      rw [hquirk, if_neg Bool.false_ne_true] at h
      obtain ⟨ts, hrest⟩ := ih hbytes.recorded h
      rw [List.filter_cons_of_pos (by simp [hsize]), List.flatMap_cons]
      exact ⟨_, (hchannel.append hbytes).append hrest⟩

theorem walkDma_stretch (hquirk : D.dmaCount8 = false) (hidle : w.idle)
    (h : walkDma D s w count = .ok (w', count')) :
    ∃ ps, Parts D s w ps w' ∧ ps.filter (!·.isRun) = dmaParts w.pend.dmaSizes ∧
      count' = count + Part.total ps ∧
      (D.Cheap s → w.Placed s → w'.Waits s 496 544 ∧ Lossless D s w ps w') := by
  obtain ⟨u, hu, h⟩ := bind_eq_ok_iff.mp h
  obtain ⟨⟨v, c⟩, hv, h⟩ := bind_eq_ok_iff.mp h
  obtain ⟨⟨x, d⟩, hx, h⟩ := bind_eq_ok_iff.mp h
  cases h
  have hstart : ({ w.setPend { w.pend with dma := false } with dmaLo := w.t } : Walk).Recorded D s :=
    ⟨fun hp => absurd (hidle.1.symm.trans hp) Bool.false_ne_true,
      fun hp => absurd (hidle.2.symm.trans hp) Bool.false_ne_true⟩
  obtain ⟨qs, hslot⟩ := walkDmaSlot_stretch .overhead rfl rfl hstart hu hv
  have hoverhead : Stretch D s _ count [.overhead] qs v c :=
    hslot.recount (by have := hslot.count; omega)
  obtain ⟨rs, hchannels⟩ := walkDmaChannels_stretch hquirk hslot.recorded hx
  rw [hslot.sizes] at hchannels
  have hall := hoverhead.append hchannels
  have hend : Parts D s x [] { x with dmaHi := x.t } :=
    .set x.pend.delay x.pend.dma x.dmaLo x.t (.done _)
  refine ⟨_, .set w.pend.delay false w.t w.dmaHi (hall.parts.append hend), ?_, ?_, ?_⟩
  · rw [List.append_nil, hall.own]
    rfl
  · rw [List.append_nil, hall.count]
  · intro hcheap hplaced
    obtain ⟨⟨hplace, hqueued, hshort⟩, hloss⟩ := hall.keeps hcheap
      (Walk.Placed.waits ⟨hplaced.inFrame, hplaced.inLine, hplaced.refresh, hplaced.hdma,
        hplaced.init⟩ ⟨hidle.1, hidle.2⟩)
    rw [List.append_nil]
    exact ⟨⟨⟨hplace.inFrame, hplace.inLine, hplace.refresh, hplace.hdma, hplace.init⟩,
      ⟨hqueued.hdma, hqueued.init⟩, ⟨hshort.hdma, hshort.init⟩⟩, hloss.onward, hloss.hdma,
      hloss.init⟩

/-! The pause as a whole. -/

/-- What runs in a pause: HDMA before init before the general DMA. -/
def Walk.Runs (w : Walk) (body : List Part) : Prop :=
  if w.pend.hdma then body = [.hdma w.pend.hdmaCost]
  else if w.pend.init then body = [.init w.pend.initCost]
  else w.pend.dma = true ∧ body.filter (!·.isRun) = dmaParts w.pend.dmaSizes

/-- A sync to a multiple of 8 clocks, what is first by then, and a wait to a whole number of
the resuming cycle's clocks. -/
structure IsPause (D : Devices δ) (s : Sched δ) (speed : Nat) (w : Walk) (ps : List Part)
    (w' : Walk) : Prop where
  parts : Parts D s w ps w'
  shape : ∃ sync u body wait, ps = .sync sync :: (body ++ [.wait wait]) ∧
    walkFor D s sync w = .ok u ∧ 1 ≤ sync ∧ sync ≤ 8 ∧ 8 ∣ w.t + sync ∧ u.Runs body ∧
    1 ≤ wait ∧ wait ≤ speed
  whole : speed ∣ Part.total ps

theorem walkTransfer_parts (hquirk : D.dmaCount8 = false)
    (hsome : w.idle → w.pend.dma = true)
    (h : walkTransfer D s w count = .ok (w', count')) :
    ∃ body, Parts D s w body w' ∧ w.Runs body ∧ count' = count + Part.total body ∧
      (D.Cheap s → w.Waits s 800 800 → w'.Waits s 496 544 ∧ Lossless D s w body w') := by
  unfold walkTransfer at h
  split at h
  next hh =>
    obtain ⟨v, hv, h⟩ := bind_eq_ok_iff.mp h
    cases h
    exact ⟨_, .hdma hh hv (.done _), by rw [Walk.Runs, if_pos hh], rfl,
      fun hcheap hwaits => hwaits.runHdma hcheap (Nat.le_refl _) (Nat.le_refl _) hh hv⟩
  next hh =>
  have hno := Bool.eq_false_iff.mpr hh
  split at h
  next hi =>
    obtain ⟨v, hv, h⟩ := bind_eq_ok_iff.mp h
    cases h
    exact ⟨_, .init hno hi hv (.done _), by rw [Walk.Runs, if_neg hh, if_pos hi], rfl,
      fun hcheap hwaits => hwaits.runInit hcheap hno hi hv⟩
  next hi =>
    have hidle : w.idle := ⟨hno, Bool.eq_false_iff.mpr hi⟩
    obtain ⟨ps, hparts, hown, hcount, hkeeps⟩ := walkDma_stretch hquirk hidle h
    refine ⟨ps, hparts, ?_, hcount, fun hcheap hwaits => hkeeps hcheap hwaits.placed⟩
    rw [Walk.Runs, if_neg hh, if_neg hi]
    exact ⟨hsome hidle, hown⟩

theorem sum_wait_dvd {speed count : Nat} (hspeed : 0 < speed) :
    speed ∣ count + (speed - count % speed) := by
  have hlt := Nat.mod_lt count hspeed
  have hsplit := Nat.mod_add_div count speed
  refine ⟨count / speed + 1, ?_⟩
  rw [Nat.mul_add, Nat.mul_one]
  omega

theorem walkPending_parts (hquirk : D.dmaCount8 = false) {speed : Nat} (hspeed : 0 < speed)
    (h : walkPending D s speed w = .ok (w', true)) :
    ∃ ps, IsPause D s speed w ps w' ∧ (D.Cheap s → speed ≤ 12 → w.Waits s 652 704 →
      w'.Waits s 548 596 ∧ Lossless D s w ps w') := by
  unfold walkPending at h
  split at h
  next => cases h
  next htransfer =>
  split at h
  next => cases h
  next hdelay =>
    obtain ⟨u, hu, h⟩ := bind_eq_ok_iff.mp h
    obtain ⟨⟨v, count⟩, hv, h⟩ := bind_eq_ok_iff.mp h
    obtain ⟨x, hx, h⟩ := bind_eq_ok_iff.mp h
    cases h
    have hqueues := walkFor_queues hu
    have hsome : u.idle → u.pend.dma = true := by
      rintro ⟨hh, hi⟩
      have hh' : w.pend.hdma = false := Bool.eq_false_iff.mpr fun hp =>
        Bool.false_ne_true (hh.symm.trans (hqueues.hdma_of_true hp))
      have hi' : w.pend.init = false := Bool.eq_false_iff.mpr fun hp =>
        Bool.false_ne_true (hi.symm.trans (hqueues.init_of_true hp))
      rw [hqueues.dma]
      simpa [Pend.transfer, hh', hi', Bool.eq_false_iff.mpr hdelay] using htransfer
    obtain ⟨body, hbody, hruns, hcount, hkeeps⟩ := walkTransfer_parts hquirk hsome hv
    have hmod := Nat.mod_lt count hspeed
    have hsync : Parts D s w [.sync (8 - w.t % 8)] u := .one rfl hu
    have hwait : Parts D s v [.wait (speed - count % speed)] w' := .one rfl hx
    refine ⟨_, ⟨hsync.append (hbody.append hwait), ?_, ?_⟩, fun hcheap hfast hwaits => ?_⟩
    · exact ⟨_, u, body, _, rfl, hu, by omega, by omega, by omega, hruns, by omega, by omega⟩
    · have htotal : Part.total ([.sync (8 - w.t % 8)] ++ (body ++ [.wait (speed - count % speed)])) =
          count + (speed - count % speed) := by
        rw [Part.total_append, Part.total_append, hcount]
        exact (Nat.add_assoc _ _ _).symm
      rw [htotal]
      exact sum_wait_dvd hspeed
    · obtain ⟨hsynced, hloss⟩ := hwaits.passFor hcheap (by omega) (by omega) (by omega) hu
      obtain ⟨hran, hloss'⟩ := hkeeps hcheap (hsynced.mono (by omega) (by omega))
      obtain ⟨hend, hloss''⟩ := hran.passFor hcheap (by omega) (by omega) (by omega) hx
      have hlate : Lossless D s v [.wait (speed - count % speed)] w' := hloss''.ownPart rfl
      exact ⟨hend.mono (by omega) (by omega), (hloss.append (hloss'.append hlate)).ownPart rfl⟩

end Stretches

end CtRecomp
