import CtRecomp.SchedCharge

namespace CtRecomp

open Loop

variable {δ : Type}

/-- What the parts of a walk keep between two accesses. -/
structure PassInvariant (D : Devices δ) (s : Sched δ) (Q : Walk → Prop) : Prop where
  time : ∀ w t, Q w → Q { w with t }
  span : ∀ w dmaLo dmaHi, Q w → Q { w with dmaLo, dmaHi }
  transfer : ∀ w delay hdma init dma, Q w → Q (w.setPend { w.pend with delay, hdma, init, dma })
  event : ∀ p p', Q p.w → walkStep D s p = .ok (some p') → Q p'.w
  sample : ∀ w lock i, Q w → Q (w.setPend (w.pend.sample lock i))

/-- What the parts of a walk keep, the whole of it keeps. -/
structure WalkInvariant (D : Devices δ) (s : Sched δ) (Q : Walk → Prop) : Prop
    extends PassInvariant D s Q where
  accessed : ∀ w c, Q w → Q (w.accessed c)

namespace PassInvariant

variable {D : Devices δ} {s : Sched δ} {Q : Walk → Prop} {w w' : Walk}

theorem delayed (hQ : PassInvariant D s Q) (hw : Q w) : Q (w.setPend { w.pend with delay := false }) :=
  hQ.transfer w false w.pend.hdma w.pend.init w.pend.dma hw

theorem hdmaTaken (hQ : PassInvariant D s Q) (hw : Q w) :
    Q (w.setPend { w.pend with hdma := false }) :=
  hQ.transfer w w.pend.delay false w.pend.init w.pend.dma hw

theorem initTaken (hQ : PassInvariant D s Q) (hw : Q w) :
    Q (w.setPend { w.pend with init := false }) :=
  hQ.transfer w w.pend.delay w.pend.hdma false w.pend.dma hw

theorem dmaTaken (hQ : PassInvariant D s Q) (hw : Q w) :
    Q (w.setPend { w.pend with dma := false }) :=
  hQ.transfer w w.pend.delay w.pend.hdma w.pend.init false hw

theorem pass (hQ : PassInvariant D s Q) {clocks sample smp : Nat} (hw : Q w)
    (h : walkPass D s clocks sample w = .ok (w', smp)) : Q w' := by
  obtain ⟨p, hp, hout⟩ := bind_eq_ok_iff.mp h
  cases hout
  have hkept : Q p.w := measured_invariant (P := fun p => Q p.w) (fun a b => hQ.event a b) hw hp
  exact hQ.time _ _ hkept

theorem passFor (hQ : PassInvariant D s Q) {clocks : Nat} (hw : Q w)
    (h : walkFor D s clocks w = .ok w') : Q w' := by
  obtain ⟨⟨_, _⟩, hp, hout⟩ := map_eq_ok_iff.mp h
  cases hout
  exact hQ.pass hw hp

theorem dmaPending (hQ : PassInvariant D s Q) {count count' : Nat} (hw : Q w)
    (h : walkDmaPending D s w count = .ok (w', count')) : Q w' := by
  unfold walkDmaPending at h
  split at h
  next =>
    cases h
    exact hQ.delayed hw
  next =>
  split at h
  next =>
    obtain ⟨v, hv, h⟩ := bind_eq_ok_iff.mp h
    cases h
    exact hQ.passFor (hQ.hdmaTaken hw) hv
  next =>
  split at h
  next =>
    obtain ⟨v, hv, h⟩ := bind_eq_ok_iff.mp h
    cases h
    exact hQ.passFor (hQ.initTaken hw) hv
  next =>
    cases h
    exact hw

theorem dmaBytes (hQ : PassInvariant D s Q) {n : Nat} {count count' : Nat} (hw : Q w)
    (h : walkDmaBytes D s n w count = .ok (w', count')) : Q w' := by
  induction n generalizing w count with
  | zero =>
    cases h
    exact hw
  | succ n ih =>
    obtain ⟨u, hu, h⟩ := bind_eq_ok_iff.mp h
    obtain ⟨⟨v, c⟩, hv, h⟩ := bind_eq_ok_iff.mp h
    exact ih (hQ.dmaPending (hQ.passFor hw hu) hv) h

theorem dmaChannels (hQ : PassInvariant D s Q) {sizes : List Nat} {count count' : Nat} (hw : Q w)
    (h : walkDmaChannels D s sizes w count = .ok (w', count')) : Q w' := by
  induction sizes generalizing w count with
  | nil =>
    cases h
    exact hw
  | cons size sizes ih =>
    unfold walkDmaChannels at h
    split at h
    next => exact ih hw h
    next =>
      obtain ⟨u, hu, h⟩ := bind_eq_ok_iff.mp h
      obtain ⟨⟨v, c⟩, hv, h⟩ := bind_eq_ok_iff.mp h
      obtain ⟨⟨x, d⟩, hx, h⟩ := bind_eq_ok_iff.mp h
      exact ih (hQ.dmaBytes (hQ.dmaPending (hQ.passFor hw hu) hv) hx) h

theorem dma (hQ : PassInvariant D s Q) {count count' : Nat} (hw : Q w)
    (h : walkDma D s w count = .ok (w', count')) : Q w' := by
  obtain ⟨u, hu, h⟩ := bind_eq_ok_iff.mp h
  obtain ⟨⟨v, c⟩, hv, h⟩ := bind_eq_ok_iff.mp h
  obtain ⟨⟨x, d⟩, hx, h⟩ := bind_eq_ok_iff.mp h
  cases h
  have hstart := hQ.span _ w.t w.dmaHi (hQ.dmaTaken hw)
  have hend := hQ.dmaChannels (hQ.dmaPending (hQ.passFor hstart hu) hv) hx
  exact hQ.span _ x.dmaLo x.t hend

theorem pendingTransfer (hQ : PassInvariant D s Q) {count count' : Nat} (hw : Q w)
    (h : walkTransfer D s w count = .ok (w', count')) : Q w' := by
  unfold walkTransfer at h
  split at h
  next =>
    obtain ⟨v, hv, h⟩ := bind_eq_ok_iff.mp h
    cases h
    exact hQ.passFor (hQ.hdmaTaken hw) hv
  next =>
  split at h
  next =>
    obtain ⟨v, hv, h⟩ := bind_eq_ok_iff.mp h
    cases h
    exact hQ.passFor (hQ.initTaken hw) hv
  next => exact hQ.dma hw h

theorem pending (hQ : PassInvariant D s Q) {speed : Nat} {lock : Bool} (hw : Q w)
    (h : walkPending D s speed w = .ok (w', lock)) : Q w' := by
  unfold walkPending at h
  split at h
  next =>
    cases h
    exact hw
  next =>
  split at h
  next =>
    cases h
    exact hQ.delayed hw
  next =>
    obtain ⟨u, hu, h⟩ := bind_eq_ok_iff.mp h
    obtain ⟨⟨v, c⟩, hv, h⟩ := bind_eq_ok_iff.mp h
    obtain ⟨x, hx, h⟩ := bind_eq_ok_iff.mp h
    cases h
    exact hQ.passFor (hQ.pendingTransfer (hQ.passFor hw hu) hv) hx

theorem cycleStart (hQ : PassInvariant D s Q) {speed : Nat} {i : Bool} (hw : Q w)
    (h : walkCycleStart D s speed i w = .ok w') : Q w' := by
  obtain ⟨⟨v, lock⟩, hv, h⟩ := bind_eq_ok_iff.mp h
  cases h
  exact hQ.sample _ _ _ (hQ.pending hw hv)

theorem wai (hQ : PassInvariant D s Q) {i seen : Bool} (hw : Q (walkInit s))
    (h : waiWalk D i s = .ok (w', seen)) : Q w' := by
  obtain ⟨u, hu, h⟩ := bind_eq_ok_iff.mp h
  obtain ⟨⟨v, smp⟩, hv, h⟩ := bind_eq_ok_iff.mp h
  cases h
  exact hQ.pass (hQ.cycleStart hw hu) hv

end PassInvariant

namespace WalkInvariant

variable {D : Devices δ} {s : Sched δ} {Q : Walk → Prop} {w w' : Walk}

theorem cycle (hQ : WalkInvariant D s Q) {i : Bool} {c : Cycle} {smp : Nat} (hw : Q w)
    (h : walkCycle D s i c w = .ok (w', smp)) : Q w' := by
  obtain ⟨u, hu, h⟩ := bind_eq_ok_iff.mp h
  obtain ⟨⟨v, smp'⟩, hv, h⟩ := bind_eq_ok_iff.mp h
  cases h
  exact hQ.accessed _ _ (hQ.pass (hQ.cycleStart hw hu) hv)

theorem cycles (hQ : WalkInvariant D s Q) {i : Bool} {cs : List Cycle} {smp smp' : Nat} (hw : Q w)
    (h : walkCycles D s i cs (w, smp) = .ok (w', smp')) : Q w' := by
  induction cs generalizing w smp with
  | nil =>
    cases h
    exact hw
  | cons c cs ih =>
    obtain ⟨⟨v, smp₁⟩, hv, h⟩ := bind_eq_ok_iff.mp h
    exact ih (hQ.cycle hw hv) h

theorem insn (hQ : WalkInvariant D s Q) {i : Bool} {cs : List Cycle} {smp : Nat}
    (hw : Q (walkInit s)) (h : walkInsn D i cs s = .ok (w', smp)) : Q w' :=
  hQ.cycles hw h

end WalkInvariant

end CtRecomp
