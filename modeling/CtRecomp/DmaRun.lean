import Mathlib.Data.BitVec
import CtRecomp.Dma
import CtRecomp.Pause

namespace CtRecomp

/-! What a general DMA does: the transfers its registers ask for, one channel after another. -/

structure Transfer where
  a : BitVec 24
  b : BitVec 8
  fromB : Bool
deriving DecidableEq, Repr

namespace DmaChannel

def step (ch : DmaChannel) : BitVec 16 :=
  if ch.fixed then 0 else if ch.decrement then -1 else 1

/-- The `k`-th transfer from here. -/
def transfer (ch : DmaChannel) (k : Nat) : Transfer :=
  ⟨ch.aBank ++ (ch.aAdr + BitVec.ofNat 16 k * ch.step),
    ch.bAdr + bAdrOffsets ch.mode (ch.offIndex + BitVec.ofNat 2 k), ch.fromB⟩

/-- A size of 0 is 65536. -/
def length (ch : DmaChannel) : Nat := if ch.size = 0 then 0x10000 else ch.size.toNat

def todo (ch : DmaChannel) : List Transfer :=
  if ch.dmaActive then (List.range ch.length).map ch.transfer else []

def finished (ch : DmaChannel) : DmaChannel :=
  if ch.dmaActive then
    { ch with
      aAdr := ch.aAdr + BitVec.ofNat 16 ch.length * ch.step
      size := 0
      offIndex := 0
      dmaActive := false }
  else ch

/-- What `dma_doDma` makes of the channel whose byte it moves. -/
def moved (ch : DmaChannel) : DmaChannel := transferred { ch with offIndex := ch.offIndex + 1 }

theorem aAdr_step (ch : DmaChannel) :
    (if ch.fixed then ch
      else { ch with aAdr := if ch.decrement then ch.aAdr - 1 else ch.aAdr + 1 }) =
      { ch with aAdr := ch.aAdr + ch.step } := by
  unfold step
  by_cases hf : ch.fixed = true
  · rw [if_pos hf, if_pos hf, add_zero]
  · rw [if_neg hf, if_neg hf]
    by_cases hd : ch.decrement = true
    · rw [if_pos hd, if_pos hd, BitVec.sub_eq_add_neg]
    · rw [if_neg hd, if_neg hd]

theorem moved_more {ch : DmaChannel} (h : ch.size ≠ 1) : ch.moved =
    { ch with aAdr := ch.aAdr + ch.step, size := ch.size - 1, offIndex := ch.offIndex + 1 } := by
  have hsize : ch.size - 1 ≠ 0 := fun hzero => h (by grind)
  have hstep := aAdr_step { ch with offIndex := ch.offIndex + 1 }
  unfold moved transferred
  dsimp only at hstep ⊢
  rw [hstep, if_neg hsize]
  rfl

theorem moved_last {ch : DmaChannel} (h : ch.size = 1) : ch.moved =
    { ch with aAdr := ch.aAdr + ch.step, size := 0, offIndex := 0, dmaActive := false } := by
  have hstep := aAdr_step { ch with offIndex := ch.offIndex + 1 }
  unfold moved transferred
  dsimp only at hstep ⊢
  rw [hstep, h, if_pos (by decide)]
  rfl

theorem length_last {ch : DmaChannel} (h : ch.size = 1) : ch.length = 1 := by
  unfold length
  rw [h]
  rfl

theorem length_more {ch : DmaChannel} (h : ch.size ≠ 1) : ch.length = ch.moved.length + 1 := by
  rw [moved_more h]
  unfold length
  dsimp only
  by_cases hzero : ch.size = 0
  · rw [hzero]
    rfl
  · have hone : ch.size.toNat ≠ 1 := fun hone => h (BitVec.eq_of_toNat_eq hone)
    have hpos : ch.size.toNat ≠ 0 := fun hpos => hzero (BitVec.eq_of_toNat_eq hpos)
    have hless : ch.size - 1 ≠ 0 := fun hless => h (by grind)
    rw [if_neg hzero, if_neg hless, BitVec.toNat_sub_of_le (by
      rw [BitVec.le_def]
      exact Nat.pos_of_ne_zero hpos)]
    change _ = ch.size.toNat - 1 + 1
    omega

theorem transfer_more {ch : DmaChannel} (h : ch.size ≠ 1) (k : Nat) :
    ch.moved.transfer k = ch.transfer (k + 1) := by
  have hadr : ch.aAdr + ch.step + BitVec.ofNat 16 k * ch.step =
      ch.aAdr + BitVec.ofNat 16 (k + 1) * ch.step := by
    rw [BitVec.ofNat_add]
    grind
  have hoff : ch.offIndex + 1 + BitVec.ofNat 2 k = ch.offIndex + BitVec.ofNat 2 (k + 1) := by
    rw [BitVec.ofNat_add]
    grind
  rw [moved_more h]
  unfold transfer
  exact congrArg₂ (fun a b => Transfer.mk (ch.aBank ++ a) (ch.bAdr + bAdrOffsets ch.mode b) ch.fromB)
    hadr hoff

/-- A byte moved is the first of those to do. -/
theorem todo_moved {ch : DmaChannel} (h : ch.dmaActive = true) :
    ch.todo = ch.transfer 0 :: ch.moved.todo := by
  unfold todo
  rw [if_pos h]
  by_cases hlast : ch.size = 1
  · rw [length_last hlast, moved_last hlast]
    rfl
  · have hactive : ch.moved.dmaActive = true := by
      rw [moved_more hlast]
      exact h
    rw [if_pos hactive, length_more hlast, List.range_succ_eq_map, List.map_cons, List.map_map]
    refine congrArg _ (List.map_congr_left fun k _ => ?_)
    exact (transfer_more hlast k).symm

theorem finished_moved {ch : DmaChannel} (h : ch.dmaActive = true) :
    ch.moved.finished = ch.finished := by
  unfold finished
  rw [if_pos h]
  by_cases hlast : ch.size = 1
  · have hadr : BitVec.ofNat 16 ch.length * ch.step = ch.step := by
      rw [length_last hlast]
      exact BitVec.one_mul _
    rw [hadr, moved_last hlast]
    rfl
  · have hadr : ch.aAdr + BitVec.ofNat 16 ch.length * ch.step =
        ch.aAdr + ch.step + BitVec.ofNat 16 ch.moved.length * ch.step := by
      rw [length_more hlast, BitVec.ofNat_add]
      grind
    rw [hadr]
    have hactive : ch.moved.dmaActive = true := by
      rw [moved_more hlast]
      exact h
    rw [if_pos hactive, moved_more hlast]
    rfl

end DmaChannel

/-! The bus, where it has nothing to do with the DMA's own registers. -/

section Bus

variable {σ : Type} [DmaBoard σ]

/-- An access to `a` neither looks at the DMA's registers nor changes them. -/
structure Apart (σ : Type) [DmaBoard σ] (a : BitVec 24) : Prop where
  rd : ∀ (w : Wire σ) d, busRead a (w.setDma d) =
    (busRead a w).map fun r => (r.1, r.2.setDma d)
  wr : ∀ v (w : Wire σ) d, busWrite a v (w.setDma d) = (busWrite a v w).map (·.setDma d)

/-- Memory is apart from them. -/
theorem apart_mem {a : BitVec 24} (h : ∀ reg, decodeAddr a ≠ .hw reg) : Apart σ a := by
  constructor
  · intro w d
    unfold busRead
    cases hd : decodeAddr a with
    | hw reg => exact absurd hd (h reg)
    | wram | sram | rom | openBus => rfl
  · intro v w d
    unfold busWrite
    cases hd : decodeAddr a with
    | hw reg => exact absurd hd (h reg)
    | wram | sram | rom | openBus => rfl

@[simp] theorem setDma_dma (d : Dma) (w : Wire σ) : (w.setDma d).dma = d := DmaBoard.dma_set d _

@[simp] theorem setDma_setDma (d e : Dma) (w : Wire σ) : (w.setDma e).setDma d = w.setDma d := by
  unfold Wire.setDma Bus.setDma
  dsimp only
  rw [DmaBoard.set_set]

theorem setDma_self (w : Wire σ) : w.setDma w.dma = w := by
  unfold Wire.setDma Bus.setDma Wire.dma
  rw [DmaBoard.set_dma]

theorem setDma_clocks (d : Dma) (w : Wire σ) (a : BitVec 24) : (w.setDma d).clocks a = w.clocks a := by
  unfold Wire.clocks Bus.fastrom
  exact congrArg (busAccessClocks · a) (DmaBoard.fastrom_set d w.bus.hw)

/-- A program that commutes with the DMA's registers. -/
def Commutes {α : Type} (m : BusM σ α) : Prop :=
  ∀ w d, m (w.setDma d) = (m w).map fun r => (r.1, r.2.setDma d)

theorem commutes_pure {α : Type} (x : α) : Commutes (pure x : BusM σ α) := fun _ _ => rfl

theorem Commutes.bind {α β : Type} {m : BusM σ α} {f : α → BusM σ β} (hm : Commutes m)
    (hf : ∀ x, Commutes (f x)) : Commutes (m >>= f) := by
  intro w d
  change (m (w.setDma d)).bind (fun r => f r.1 r.2) = ((m w).bind fun r => f r.1 r.2).map _
  rw [hm w d]
  cases m w with
  | none => rfl
  | some r => exact hf r.1 r.2 d

/-- It leaves them as they are. -/
theorem Commutes.dma {α : Type} {m : BusM σ α} (hm : Commutes m) {w w' : Wire σ} {x : α}
    (h : m w = some (x, w')) : w'.dma = w.dma := by
  have hself := hm w w.dma
  rw [setDma_self, h] at hself
  have heq := congrArg (fun r => (Prod.snd r).dma) (Option.some.inj hself)
  exact heq.trans (setDma_dma _ _)

theorem read8_commutes {a : BitVec 24} (h : Apart σ a) : Commutes (read8 a : BusM σ (BitVec 8)) := by
  intro w d
  unfold read8
  rw [h.rd w d]
  cases busRead a w with
  | none => rfl
  | some r =>
    have hclocks := setDma_clocks d w a
    change some (r.1, _) = some (r.1, _)
    rw [hclocks]
    rfl

theorem write8_commutes {a : BitVec 24} (h : Apart σ a) (v : BitVec 8) :
    Commutes (write8 a v : BusM σ Unit) := by
  intro w d
  have hwr := h.wr v { w with mdr := v } d
  unfold write8
  change (busWrite a v (Wire.setDma d { w with mdr := v })).bind _ = _
  rw [hwr]
  cases busWrite a v { w with mdr := v } with
  | none => rfl
  | some b =>
    have hclocks := setDma_clocks d w a
    change some ((), _) = some ((), _)
    rw [hclocks]
    rfl

/-! The loop. -/

def Transfer.run (t : Transfer) : BusM σ Unit :=
  if t.fromB then do
    let data ← read8 (bBus t.b)
    write8 t.a data
  else do
    let data ← read8 t.a
    write8 (bBus t.b) data

def runTransfers : List Transfer → BusM σ Unit
  | [] => pure ()
  | t :: ts => do
    t.run
    runTransfers ts

/-- Both its addresses are apart from the DMA's registers. -/
def Transfer.Apart (σ : Type) [DmaBoard σ] (t : Transfer) : Prop :=
  CtRecomp.Apart σ t.a ∧ CtRecomp.Apart σ (bBus t.b)

theorem Transfer.Apart.commutes {t : Transfer} (h : t.Apart σ) : Commutes (t.run : BusM σ Unit) := by
  unfold Transfer.run
  split
  next => exact (read8_commutes h.2).bind fun v => write8_commutes h.1 v
  next => exact (read8_commutes h.1).bind fun v => write8_commutes h.2 v

end Bus

def Dma.todo (d : Dma) : List Transfer := (List.finRange 8).flatMap fun i => d[i].todo

def Dma.finished (d : Dma) : Dma := ⟨d.channel.map .finished, false⟩

theorem update_channel (d : Dma) (i j : Fin 8) (f : DmaChannel → DmaChannel) :
    (d.update i f)[j] = if j = i then f d[i] else d[j] := by
  unfold Dma.update
  by_cases hij : j = i
  · rw [if_pos hij, hij]
    exact Vector.getElem_set_self _
  · rw [if_neg hij]
    exact Vector.getElem_set_ne i.isLt j.isLt fun hval => hij (Fin.ext hval.symm)

theorem update_update (d : Dma) (i : Fin 8) (f g : DmaChannel → DmaChannel) :
    (d.update i f).update i g = d.update i fun ch => g (f ch) := by
  have hget : (d.update i f)[i] = f d[i] := by
    rw [update_channel, if_pos rfl]
  rw [Dma.update, hget]
  exact congrArg (Dma.mk · d.dmaBusy) (Vector.set_set _ i.isLt)

/-- The first active channel is the one whose transfers come first. -/
theorem firstActive_some {d : Dma} {i : Fin 8} (h : d.firstActive = some i) :
    d[i].dmaActive = true ∧
      d.todo = d[i].transfer 0 :: (d.update i DmaChannel.moved).todo := by
  obtain ⟨hactive, pre, post, hsplit, hpre⟩ := List.find?_eq_some_iff_append.mp h
  have hactive : d[i].dmaActive = true := hactive
  have hnodup := List.nodup_finRange 8
  rw [hsplit, List.nodup_middle, List.nodup_cons] at hnodup
  have hothers : ∀ j ∈ pre ++ post, (d.update i DmaChannel.moved)[j] = d[j] := by
    intro j hj
    have hne : j ≠ i := fun hij => hnodup.1 (hij ▸ hj)
    rw [update_channel, if_neg hne]
  refine ⟨hactive, ?_⟩
  have hnone : ∀ (e : Dma), (∀ j ∈ pre, e[j] = d[j]) →
      pre.flatMap (fun j => e[j].todo) = [] := by
    intro e he
    refine List.flatMap_eq_nil_iff.mpr fun j hj => ?_
    have hoff : d[j].dmaActive = false := by simpa using hpre j hj
    rw [he j hj, DmaChannel.todo, hoff]
    rfl
  unfold Dma.todo
  rw [hsplit, List.flatMap_append, List.flatMap_append, List.flatMap_cons, List.flatMap_cons]
  have hself : (d.update i DmaChannel.moved)[i] = d[i].moved := by
    rw [update_channel, if_pos rfl]
  have hpost : post.flatMap (fun j => (d.update i DmaChannel.moved)[j].todo) =
      post.flatMap fun j => d[j].todo :=
    List.flatMap_congr fun j hj => by rw [hothers j (List.mem_append_right _ hj)]
  rw [hnone d fun _ _ => rfl, hnone _ fun j hj => hothers j (List.mem_append_left _ hj), hself, hpost,
    DmaChannel.todo_moved hactive]
  rfl

theorem firstActive_none {d : Dma} (h : d.firstActive = none) :
    d.todo = [] ∧ d.finished = { d with dmaBusy := false } := by
  have hoff : ∀ i : Fin 8, d[i].dmaActive = false := fun i => by
    simpa using List.find?_eq_none.mp h i (List.mem_finRange i)
  constructor
  · refine List.flatMap_eq_nil_iff.mpr fun i _ => ?_
    rw [DmaChannel.todo, hoff i]
    rfl
  · unfold Dma.finished
    refine congrArg (Dma.mk · false) (Vector.ext fun i hi => ?_)
    rw [Vector.getElem_map, DmaChannel.finished, if_neg]
    exact fun hon => Bool.false_ne_true ((hoff ⟨i, hi⟩).symm.trans hon)

theorem finished_update {d : Dma} {i : Fin 8} (h : d[i].dmaActive = true) :
    (d.update i DmaChannel.moved).finished = d.finished := by
  unfold Dma.finished
  refine congrArg (Dma.mk · false) (Vector.ext fun j hj => ?_)
  have hchannel := update_channel d i ⟨j, hj⟩ DmaChannel.moved
  rw [Vector.getElem_map, Vector.getElem_map]
  refine (congrArg DmaChannel.finished hchannel).trans ?_
  split
  next heq =>
    subst heq
    exact DmaChannel.finished_moved h
  next => rfl

section Loop

variable {σ : Type} [DmaBoard σ]

theorem transfer_zero (ch : DmaChannel) : ch.transfer 0 =
    ⟨ch.aBank ++ ch.aAdr, ch.bAdr + bAdrOffsets ch.mode ch.offIndex, ch.fromB⟩ := by
  simp [DmaChannel.transfer]

theorem dmaMoveByte_run {w : Wire σ} {i : Fin 8} (hapart : (w.dma[i].transfer 0).Apart σ) :
    dmaMoveByte i w = ((w.dma[i].transfer 0).run w).map fun r =>
      ((), r.2.setDma (w.dma.update i DmaChannel.moved)) := by
  let next (ch : DmaChannel) : DmaChannel := { ch with offIndex := ch.offIndex + 1 }
  have hbyte (ch : DmaChannel) : transferByte ch.aAdr ch.aBank
      (ch.bAdr + bAdrOffsets ch.mode ch.offIndex) ch.fromB = ((ch.transfer 0).run : BusM σ Unit) := by
    rw [transfer_zero]
    rfl
  have hstart : dmaMoveByte i w = (transferByte w.dma[i].aAdr w.dma[i].aBank
      (w.dma[i].bAdr + bAdrOffsets w.dma[i].mode w.dma[i].offIndex)
      w.dma[i].fromB (w.setDma (w.dma.update i next))).bind fun r =>
        setChannel i DmaChannel.transferred r.2 := rfl
  rw [hstart, hbyte, hapart.commutes w (w.dma.update i next)]
  cases (w.dma[i].transfer 0).run w with
  | none => rfl
  | some r =>
    change some ((), (r.2.setDma _).setDma ((Wire.dma (r.2.setDma _)).update i _)) = some ((), _)
    rw [setDma_dma, setDma_setDma, update_update]
    rfl

theorem dmaLoop_idle (fuel : Nat) {w : Wire σ} (h : w.dma.dmaBusy = false) :
    dmaLoop fuel w = some ((), w) := by
  have hoff : ¬w.dma.dmaBusy = true := Bool.eq_false_iff.mp h
  cases fuel with
  | zero => exact if_neg hoff
  | succ n => exact if_neg hoff

theorem runTransfers_commutes {ts : List Transfer} (h : ∀ t ∈ ts, t.Apart σ) :
    Commutes (runTransfers ts : BusM σ Unit) := by
  induction ts with
  | nil => exact commutes_pure ()
  | cons t ts ih =>
    obtain ⟨hhead, hrest⟩ := List.forall_mem_cons.mp h
    exact hhead.commutes.bind fun _ => ih hrest

/-- The loop moves what the channels ask for and leaves them at rest. -/
theorem dmaLoop_eq {w : Wire σ} {fuel : Nat} (hbusy : w.dma.dmaBusy = true)
    (hapart : ∀ t ∈ w.dma.todo, t.Apart σ) (hfuel : w.dma.todo.length < fuel) :
    dmaLoop fuel w = (runTransfers w.dma.todo w).map fun r => ((), r.2.setDma w.dma.finished) := by
  induction fuel generalizing w with
  | zero => exact absurd hfuel (Nat.not_lt_zero _)
  | succ fuel ih =>
    have hturn : dmaLoop (fuel + 1) w = (doDma w).bind fun r => dmaLoop fuel r.2 := if_pos hbusy
    rw [hturn]
    cases hfirst : w.dma.firstActive with
    | none =>
      obtain ⟨htodo, hfinished⟩ := firstActive_none hfirst
      have hdone : doDma w = some ((), w.setDma w.dma.finished) := by
        unfold doDma
        rw [hfirst, hfinished]
        rfl
      have hidle : (w.setDma w.dma.finished).dma.dmaBusy = false := by
        rw [setDma_dma]
        rfl
      rw [hdone, htodo]
      exact dmaLoop_idle fuel hidle
    | some i =>
      obtain ⟨hactive, htodo⟩ := firstActive_some hfirst
      have hbyte : doDma w = dmaMoveByte i w := by
        unfold doDma
        rw [hfirst]
      rw [htodo] at hapart hfuel ⊢
      obtain ⟨hhead, hrest⟩ := List.forall_mem_cons.mp hapart
      rw [hbyte, dmaMoveByte_run hhead]
      change _ = Option.map _ ((Transfer.run _ w).bind fun r => runTransfers _ r.2)
      cases (w.dma[i].transfer 0).run w with
      | none => rfl
      | some r =>
        have hnext := ih (w := r.2.setDma (w.dma.update i DmaChannel.moved)) (by
          rw [setDma_dma]
          exact hbusy) (by
          rw [setDma_dma]
          exact hrest) (by
          rw [setDma_dma]
          exact Nat.lt_of_succ_lt_succ hfuel)
        change dmaLoop fuel (r.2.setDma _) = Option.map _ (runTransfers _ r.2)
        rw [hnext, setDma_dma, runTransfers_commutes hrest, finished_update hactive, Option.map_map]
        refine congrArg (Option.map · _) (funext fun x => ?_)
        exact congrArg (Prod.mk ()) (setDma_setDma _ _ x.2)

/-- What a write of `v` to $420B sets going. -/
def dmaPlan (v : BitVec 8) (d : Dma) : List Transfer := (startDma v false d).todo

theorem startDma_channel (v : BitVec 8) (d : Dma) (i : Fin 8) :
    (startDma v false d)[i] = { d[i] with dmaActive := v.getLsbD i } := by
  simp [startDma, dmaChannels]

theorem startDma_busy (v : BitVec 8) (d : Dma) : (startDma v false d).dmaBusy = decide (v ≠ 0) := rfl

/-- Nothing picked, nothing done. -/
theorem startDma_none (d : Dma) : (startDma 0 false d).firstActive = none := by
  refine List.find?_eq_none.mpr fun i _ => ?_
  rw [startDma_channel]
  simp

theorem dmaStart_run {v : BitVec 8} {w : Wire σ} {fuel : Nat}
    (hapart : ∀ t ∈ dmaPlan v w.dma, t.Apart σ) (hfuel : (dmaPlan v w.dma).length < fuel) :
    dmaLoop fuel (w.setDma (startDma v false w.dma)) = (runTransfers (dmaPlan v w.dma) w).map fun r =>
      ((), r.2.setDma (startDma v false w.dma).finished) := by
  by_cases hv : v = 0
  · subst hv
    obtain ⟨htodo, hfinished⟩ := firstActive_none (startDma_none w.dma)
    rw [dmaPlan, htodo, dmaLoop_idle fuel (by rw [setDma_dma]; rfl), hfinished]
    rfl
  · have hrun := dmaLoop_eq (w := w.setDma (startDma v false w.dma)) (by
      rw [setDma_dma, startDma_busy, decide_eq_true hv]) (by
      rw [setDma_dma]
      exact hapart) (by
      rw [setDma_dma]
      exact hfuel)
    rw [hrun, setDma_dma]
    change Option.map _ (runTransfers (dmaPlan v w.dma) _) = _
    rw [runTransfers_commutes hapart, Option.map_map]
    refine congrArg (Option.map · _) (funext fun x => ?_)
    exact congrArg (Prod.mk ()) (setDma_setDma _ _ x.2)

theorem dmaSize_read (openBus : BitVec 8) (d : Dma) (i : Fin 8) :
    dmaRead openBus d (BitVec.ofNat 16 (i * 16 + 6)) ++
        dmaRead openBus d (BitVec.ofNat 16 (i * 16 + 5)) = d[i].size := by
  have hplace : ∀ i : Fin 8, dmaIndex (BitVec.ofNat 16 (i * 16 + 6)) = i ∧
      dmaIndex (BitVec.ofNat 16 (i * 16 + 5)) = i ∧
      (BitVec.ofNat 16 (i * 16 + 6) &&& 0xF).toNat = 6 ∧
      (BitVec.ofNat 16 (i * 16 + 5) &&& 0xF).toNat = 5 := by decide
  obtain ⟨hhigh, hlow, hsix, hfive⟩ := hplace i
  simp only [dmaRead, hhigh, hlow, hsix, hfive]
  exact (BitVec.extractLsb'_append_extractLsb'_eq_extractLsb' rfl).trans BitVec.extractLsb'_eq_self

theorem dmaSizes_eq (openBus v : BitVec 8) (d : Dma) : dmaSizes openBus v d =
    (List.finRange 8).map fun i : Fin 8 => if v.getLsbD i then d[i].length else 0 := by
  rw [dmaSizes, ← List.map_coe_finRange_eq_range, List.map_map]
  refine List.map_congr_left fun i _ => ?_
  dsimp only [Function.comp_apply]
  rw [dmaSize_read]
  rfl

/-- The sizes posted are those of the transfers. -/
theorem dmaPlan_length (openBus v : BitVec 8) (d : Dma) :
    (dmaPlan v d).length = (dmaSizes openBus v d).sum := by
  rw [dmaSizes_eq, dmaPlan, Dma.todo, List.length_flatMap]
  refine congrArg List.sum (List.map_congr_left fun i _ => ?_)
  rw [startDma_channel, DmaChannel.todo]
  split
  next => rw [List.length_map, List.length_range]; rfl
  next => rfl

/-- A pause has a byte for every transfer. -/
theorem dmaParts_bytes (sizes : List Nat) : (dmaParts sizes).countP (· = .byte) = sizes.sum := by
  have hbytes (n : Nat) : (List.replicate n Part.byte).countP (· = .byte) = n := by
    simp [List.countP_replicate]
  rw [dmaParts, List.countP_cons_of_neg (by decide)]
  induction sizes with
  | nil => rfl
  | cons size sizes ih =>
    rw [List.sum_cons, ← ih]
    by_cases hzero : size = 0
    · rw [List.filter_cons_of_neg (by simp [hzero]), hzero, Nat.zero_add]
    · rw [List.filter_cons_of_pos (by simp [hzero]), List.flatMap_cons, List.countP_append,
        List.countP_cons_of_neg (by decide), hbytes]

end Loop

/-! A port behind the bus, and a ROM of a few bytes. -/

structure PortBoard where
  dma : Dma
  port : BitVec 8

def portRom : List (BitVec 8) := [0x02, 0x0F, 0x82, 1, 2, 0, 1, 0x0C, 0, 0, 0, 0, 7, 9]

instance portBoard : Board PortBoard where
  rom off := portRom.getD off.toNat 0
  hwRd _ := some fun w => some (w.bus.hw.port, w.bus)
  hwWr _ := some fun v w => some { w.bus with hw := { w.bus.hw with port := v } }
  fastrom _ := false

instance portDma : DmaBoard PortBoard where
  dma := PortBoard.dma
  setDma d h := { h with dma := d }
  dma_set _ _ := rfl
  set_dma _ := rfl
  set_set _ _ _ := rfl
  fastrom_set _ _ := rfl

theorem port_apart (a : BitVec 24) : Apart PortBoard a := by
  cases hd : decodeAddr a with
  | hw reg =>
    constructor
    · intro w d
      unfold busRead
      rw [hd]
      rfl
    · intro v w d
      unfold busWrite
      rw [hd]
      rfl
  | wram | sram | rom | openBus => exact apart_mem fun reg hreg => nomatch hd.symm.trans hreg

/-- Channel 0: two bytes from $C0:0000 to $2122. -/
def portDmaChannel : DmaChannel :=
  { DmaChannel.reset with
    bAdr := 0x22, aBank := 0xC0, aAdr := 0, size := 2, mode := 0, fixed := false, decrement := false,
    fromB := false }

def portWire (d : Dma) : Wire PortBoard :=
  ⟨⟨fun _ => 0, fun _ => 0, ⟨d, 0⟩⟩, 0, [], false, false, 0⟩

def portStart : Wire PortBoard := portWire (dmaReset.update (dmaIndex 0x4300) fun _ => portDmaChannel)

end CtRecomp
