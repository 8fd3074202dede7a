import Mathlib.Algebra.Ring.Nat
import CtRecomp.WalkKeeps
import CtRecomp.SchedCommit

namespace CtRecomp

open Loop

/-! What the pause of a transfer is made of. -/

inductive Part
  | sync (clocks : Nat)
  | overhead
  | channel
  | byte
  | hdma (cost : Nat)
  | init (cost : Nat)
  | wait (clocks : Nat)
deriving DecidableEq, Repr

namespace Part

def clocks : Part → Nat
  | .sync n | .hdma n | .init n | .wait n => n
  | .overhead | .channel | .byte => 8

def isHdma : Part → Bool
  | .hdma _ => true
  | _ => false

def isInit : Part → Bool
  | .init _ => true
  | _ => false

/-- An HDMA or an HDMA init. -/
def isRun (p : Part) : Bool := p.isHdma || p.isInit

/-- The clocks of a pause, refreshes aside. -/
def total (ps : List Part) : Nat := (ps.map clocks).sum

theorem total_append (ps qs : List Part) : total (ps ++ qs) = total ps + total qs := by
  rw [total, List.map_append, List.sum_append]
  rfl

theorem total_cons (p : Part) (ps : List Part) : total (p :: ps) = p.clocks + total ps := by
  rw [total, List.map_cons, List.sum_cons]
  rfl

end Part

/-- A general DMA on its own: 8, and for every active channel 8 and 8 for each byte. -/
def dmaParts (sizes : List Nat) : List Part :=
  .overhead :: (sizes.filter (· ≠ 0)).flatMap fun n => .channel :: List.replicate n .byte

section Parts

variable {δ : Type} {D : Devices δ} {s : Sched δ} {w u w' : Walk} {ps qs : List Part}

/-- The walk passes the parts one after another. HDMA or init runs when it is pending, for
the cost recorded with it; between the parts only `delay`, `dma` and the DMA's span are set. -/
inductive Parts (D : Devices δ) (s : Sched δ) : Walk → List Part → Walk → Prop
  | done (w : Walk) : Parts D s w [] w
  | set {w w' : Walk} {ps : List Part} (delay dma : Bool) (dmaLo dmaHi : Nat)
      (h : Parts D s { w.setPend { w.pend with delay, dma } with dmaLo, dmaHi } ps w') :
      Parts D s w ps w'
  | pass {w u w' : Walk} {ps : List Part} (part : Part) (own : part.isRun = false)
      (hpass : walkFor D s part.clocks w = .ok u) (h : Parts D s u ps w') :
      Parts D s w (part :: ps) w'
  | hdma {w u w' : Walk} {ps : List Part} (pending : w.pend.hdma = true)
      (hpass : walkFor D s w.pend.hdmaCost (w.setPend { w.pend with hdma := false }) = .ok u)
      (h : Parts D s u ps w') : Parts D s w (.hdma w.pend.hdmaCost :: ps) w'
  | init {w u w' : Walk} {ps : List Part} (first : w.pend.hdma = false)
      (pending : w.pend.init = true)
      (hpass : walkFor D s w.pend.initCost (w.setPend { w.pend with init := false }) = .ok u)
      (h : Parts D s u ps w') : Parts D s w (.init w.pend.initCost :: ps) w'

theorem Parts.append (h : Parts D s w ps u) (h' : Parts D s u qs w') :
    Parts D s w (ps ++ qs) w' := by
  induction h with
  | done => exact h'
  | set delay dma dmaLo dmaHi _ ih => exact .set delay dma dmaLo dmaHi (ih h')
  | pass part own hpass _ ih => exact .pass part own hpass (ih h')
  | hdma pending hpass _ ih => exact .hdma pending hpass (ih h')
  | init first pending hpass _ ih => exact .init first pending hpass (ih h')

theorem Parts.one {part : Part} (own : part.isRun = false)
    (hpass : walkFor D s part.clocks w = .ok u) : Parts D s w [part] u :=
  .pass part own hpass (.done u)

/-! The time a walk takes: what it is given, and its refreshes. -/

theorem walkStep_some {p p' : Pass} (h : walkStep D s p = .ok (some p')) :
    (walkNext s.clk.fieldBase p.w).2 ≤ p.endAt ∧
      walkEvent D s (walkNext s.clk.fieldBase p.w).2 p (walkNext s.clk.fieldBase p.w).1 =
        .ok p' := by
  simp only [walkStep] at h
  split at h
  next => cases h
  next hdue =>
    obtain ⟨q, hq, hout⟩ := map_eq_ok_iff.mp h
    cases hout
    exact ⟨Nat.le_of_not_lt hdue, hq⟩

theorem walkStep_time {p p' : Pass} (h : walkStep D s p = .ok (some p')) :
    p'.endAt + 40 * p.w.refreshes = p.endAt + 40 * p'.w.refreshes := by
  obtain ⟨-, h⟩ := walkStep_some h
  cases hk : (walkNext s.clk.fieldBase p.w).1 with
  | refresh =>
    rw [hk] at h
    cases h
    simp only [refreshClocks]
    omega
  | lineEnd =>
    rw [hk, (walkNext_lineEnd hk).2] at h
    obtain ⟨w, hw, hout⟩ := map_eq_ok_iff.mp h
    cases hout
    have hcount : w.refreshes = p.w.refreshes := congrArg Beam.refreshes (walkLineEnd_beam hw)
    dsimp only
    rw [hcount]
  | hdma | init | nmi | irq =>
    rw [hk] at h
    cases h
    rfl

theorem walkFor_time {n : Nat} (h : walkFor D s n w = .ok w') :
    w'.t + 40 * w.refreshes = w.t + n + 40 * w'.refreshes := by
  obtain ⟨⟨v, smp⟩, hpass, hout⟩ := map_eq_ok_iff.mp h
  cases hout
  obtain ⟨p, hp, hout⟩ := bind_eq_ok_iff.mp hpass
  cases hout
  refine measured_invariant
    (P := fun p : Pass => p.endAt + 40 * w.refreshes = w.t + n + 40 * p.w.refreshes)
    (fun a b ha hab => ?_) rfl hp
  have hstep := walkStep_time hab
  omega

theorem Parts.time (h : Parts D s w ps w') :
    w'.t + 40 * w.refreshes = w.t + Part.total ps + 40 * w'.refreshes := by
  induction h with
  | done => rfl
  | set delay dma dmaLo dmaHi _ ih => exact ih
  | @pass w _ _ _ part _ hpass _ ih =>
    have htime := walkFor_time hpass
    rw [Part.total_cons]
    omega
  | @hdma w _ _ _ _ hpass _ ih =>
    have htime := walkFor_time hpass
    simp only [Walk.setPend] at htime
    rw [Part.total_cons, Part.clocks]
    omega
  | @init w _ _ _ _ _ hpass _ ih =>
    have htime := walkFor_time hpass
    simp only [Walk.setPend] at htime
    rw [Part.total_cons, Part.clocks]
    omega

/-! The costs the walk's HDMA points record are the same all through a pause. -/

/-- What is pending has been recorded with the costs as they are. -/
structure Walk.Recorded (D : Devices δ) (s : Sched δ) (w : Walk) : Prop where
  hdma : w.pend.hdma = true → w.pend.hdmaCost = D.hdmaCost s.dev
  init : w.pend.init = true → w.pend.initCost = D.hdmaInitCost s.dev

/-- What an event makes of the transfers waiting. -/
structure Queues (D : Devices δ) (s : Sched δ) (w w' : Walk) : Prop where
  dma : w'.pend.dma = w.pend.dma
  sizes : w'.pend.dmaSizes = w.pend.dmaSizes
  hdma : w'.pend.hdma = w.pend.hdma ∧ w'.pend.hdmaCost = w.pend.hdmaCost ∨
    w'.pend.hdma = true ∧ w'.pend.hdmaCost = D.hdmaCost s.dev
  init : w'.pend.init = w.pend.init ∧ w'.pend.initCost = w.pend.initCost ∨
    w'.pend.init = true ∧ w'.pend.initCost = D.hdmaInitCost s.dev

theorem Queues.refl : Queues D s w w := ⟨rfl, rfl, .inl ⟨rfl, rfl⟩, .inl ⟨rfl, rfl⟩⟩

theorem Queues.trans (h : Queues D s w u) (h' : Queues D s u w') : Queues D s w w' where
  dma := h'.dma.trans h.dma
  sizes := h'.sizes.trans h.sizes
  hdma := by
    rcases h'.hdma with ⟨hp, hc⟩ | hnew
    · rcases h.hdma with ⟨hp', hc'⟩ | ⟨hp', hc'⟩
      · exact .inl ⟨hp.trans hp', hc.trans hc'⟩
      · exact .inr ⟨hp.trans hp', hc.trans hc'⟩
    · exact .inr hnew
  init := by
    rcases h'.init with ⟨hp, hc⟩ | hnew
    · rcases h.init with ⟨hp', hc'⟩ | ⟨hp', hc'⟩
      · exact .inl ⟨hp.trans hp', hc.trans hc'⟩
      · exact .inr ⟨hp.trans hp', hc.trans hc'⟩
    · exact .inr hnew

theorem Queues.recorded (h : Queues D s w w') (hw : w.Recorded D s) : w'.Recorded D s where
  hdma hp := by
    rcases h.hdma with ⟨hp', hc⟩ | ⟨-, hc⟩
    · exact hc.trans (hw.hdma (hp' ▸ hp))
    · exact hc
  init hp := by
    rcases h.init with ⟨hp', hc⟩ | ⟨-, hc⟩
    · exact hc.trans (hw.init (hp' ▸ hp))
    · exact hc

/-- A pass takes nothing off. -/
theorem Queues.hdma_of_true (h : Queues D s w w') (hp : w.pend.hdma = true) :
    w'.pend.hdma = true := by
  rcases h.hdma with ⟨hsame, -⟩ | ⟨hnew, -⟩
  · exact hsame.trans hp
  · exact hnew

theorem Queues.init_of_true (h : Queues D s w w') (hp : w.pend.init = true) :
    w'.pend.init = true := by
  rcases h.init with ⟨hsame, -⟩ | ⟨hnew, -⟩
  · exact hsame.trans hp
  · exact hnew

theorem walkStep_queues {p p' : Pass} (h : walkStep D s p = .ok (some p')) :
    Queues D s p.w p'.w := by
  obtain ⟨-, h⟩ := walkStep_some h
  cases hk : (walkNext s.clk.fieldBase p.w).1 with
  | hdma =>
    rw [hk] at h
    cases h
    by_cases hon : D.hdmaEnabled s.dev = true
    · exact ⟨by simp [Pass.change, hon], by simp [Pass.change, hon],
        .inr (by simp [Pass.change, hon]), .inl (by simp [Pass.change, hon])⟩
    · exact ⟨by simp [Pass.change, hon], by simp [Pass.change, hon],
        .inl (by simp [Pass.change, hon]), .inl (by simp [Pass.change, hon])⟩
  | init =>
    rw [hk] at h
    cases h
    by_cases hon : D.hdmaEnabled s.dev = true
    · exact ⟨by simp [Pass.change, hon], by simp [Pass.change, hon],
        .inl (by simp [Pass.change, hon]), .inr (by simp [Pass.change, hon])⟩
    · exact ⟨by simp [Pass.change, hon], by simp [Pass.change, hon],
        .inl (by simp [Pass.change, hon]), .inl (by simp [Pass.change, hon])⟩
  | nmi =>
    rw [hk] at h
    cases h
    dsimp only [Pass.change]
    split
    next => exact ⟨rfl, rfl, .inl ⟨rfl, rfl⟩, .inl ⟨rfl, rfl⟩⟩
    next => exact ⟨rfl, rfl, .inl ⟨rfl, rfl⟩, .inl ⟨rfl, rfl⟩⟩
  | refresh | irq =>
    rw [hk] at h
    cases h
    exact ⟨rfl, rfl, .inl ⟨rfl, rfl⟩, .inl ⟨rfl, rfl⟩⟩
  | lineEnd =>
    rw [hk] at h
    obtain ⟨w, hw, hout⟩ := map_eq_ok_iff.mp h
    cases hout
    obtain ⟨irqAt, -, hw⟩ := bind_eq_ok_iff.mp hw
    cases hw
    dsimp only
    split
    next => exact ⟨rfl, rfl, .inl ⟨rfl, rfl⟩, .inl ⟨rfl, rfl⟩⟩
    next => exact ⟨rfl, rfl, .inl ⟨rfl, rfl⟩, .inl ⟨rfl, rfl⟩⟩

theorem walkPass_queues {n sample smp : Nat} (h : walkPass D s n sample w = .ok (w', smp)) :
    Queues D s w w' := by
  obtain ⟨p, hp, hout⟩ := bind_eq_ok_iff.mp h
  cases hout
  have hall : Queues D s w p.w := measured_invariant (P := fun p : Pass => Queues D s w p.w)
    (fun a b ha hab => ha.trans (walkStep_queues hab)) .refl hp
  exact ⟨hall.dma, hall.sizes, hall.hdma, hall.init⟩

theorem walkFor_queues {n : Nat} (h : walkFor D s n w = .ok w') : Queues D s w w' := by
  obtain ⟨⟨v, smp⟩, hpass, hout⟩ := map_eq_ok_iff.mp h
  cases hout
  exact walkPass_queues hpass

/-- The cost stays what it was while its transfer runs. -/
theorem walkFor_hdmaCost {n : Nat} (h : walkFor D s n (w.setPend { w.pend with hdma := false }) =
    .ok w') (hc : w.pend.hdmaCost = D.hdmaCost s.dev) : w'.pend.hdmaCost = w.pend.hdmaCost := by
  rcases (walkFor_queues h).hdma with ⟨-, hsame⟩ | hnew
  · exact hsame
  · exact hnew.2.trans hc.symm

theorem walkFor_initCost {n : Nat} (h : walkFor D s n (w.setPend { w.pend with init := false }) =
    .ok w') (hc : w.pend.initCost = D.hdmaInitCost s.dev) : w'.pend.initCost = w.pend.initCost := by
  rcases (walkFor_queues h).init with ⟨-, hsame⟩ | hnew
  · exact hsame
  · exact hnew.2.trans hc.symm

end Parts

end CtRecomp
