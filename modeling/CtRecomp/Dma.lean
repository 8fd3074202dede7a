import CtRecomp.Bus

namespace CtRecomp

/-! General DMA and HDMA: the vendored dma.c, and what snes_adapter.c makes of it. -/

structure DmaChannel where
  bAdr : BitVec 8
  aBank : BitVec 8
  /-- HDMA -/
  indBank : BitVec 8
  repCount : BitVec 8
  aAdr : BitVec 16
  /-- Also HDMA's indirect address. -/
  size : BitVec 16
  tableAdr : BitVec 16
  unusedByte : BitVec 8
  dmaActive : Bool
  hdmaActive : Bool
  mode : BitVec 3
  fixed : Bool
  decrement : Bool
  indirect : Bool
  fromB : Bool
  unusedBit : Bool
  doTransfer : Bool
  terminated : Bool
  offIndex : BitVec 2
deriving DecidableEq

structure Dma where
  channel : Vector DmaChannel 8
  dmaBusy : Bool
deriving DecidableEq

def bAdrOffsets (mode : BitVec 3) (k : BitVec 2) : BitVec 8 :=
  (([[0, 0, 0, 0], [0, 1, 0, 1], [0, 0, 0, 0], [0, 0, 1, 1], [0, 1, 2, 3], [0, 1, 0, 1],
    [0, 0, 0, 0], [0, 0, 1, 1]] : List (List (BitVec 8))).getD mode.toNat []).getD k.toNat 0

/-- `transferLength`, and the adapter's `hdma_len`. -/
def hdmaLen (mode : BitVec 3) : Nat := [1, 2, 2, 4, 4, 4, 2, 4].getD mode.toNat 0

def DmaChannel.reset : DmaChannel where
  bAdr := 0xFF
  aBank := 0xFF
  indBank := 0xFF
  repCount := 0xFF
  aAdr := 0xFFFF
  size := 0xFFFF
  tableAdr := 0xFFFF
  unusedByte := 0xFF
  dmaActive := false
  hdmaActive := false
  mode := 7
  fixed := true
  decrement := true
  indirect := true
  fromB := true
  unusedBit := true
  doTransfer := false
  terminated := false
  offIndex := 0

def dmaReset : Dma := ⟨Vector.replicate 8 .reset, false⟩

/-- `dma->channel[i]` -/
instance dmaChannels : GetElem Dma (Fin 8) DmaChannel fun _ _ => True where
  getElem d i _ := d.channel[i]

def Dma.update (i : Fin 8) (f : DmaChannel → DmaChannel) (d : Dma) : Dma :=
  { d with channel := d.channel.set i (f d[i]) }

/-! $43x0-$43xF. -/

def dmaIndex (adr : BitVec 16) : Fin 8 := (adr.extractLsb' 4 3).toFin

def DmaChannel.control (ch : DmaChannel) : BitVec 8 :=
  BitVec.ofBool ch.fromB ++ BitVec.ofBool ch.indirect ++ BitVec.ofBool ch.unusedBit ++
    BitVec.ofBool ch.decrement ++ BitVec.ofBool ch.fixed ++ ch.mode

def DmaChannel.setControl (v : BitVec 8) (ch : DmaChannel) : DmaChannel :=
  { ch with
    mode := v.setWidth 3
    fixed := v.getLsbD 3
    decrement := v.getLsbD 4
    unusedBit := v.getLsbD 5
    indirect := v.getLsbD 6
    fromB := v.getLsbD 7 }

def setLow (v : BitVec 8) (x : BitVec 16) : BitVec 16 := x.extractLsb' 8 8 ++ v

def setHigh (v : BitVec 8) (x : BitVec 16) : BitVec 16 := v ++ x.extractLsb' 0 8

def DmaChannel.read (openBus : BitVec 8) (ch : DmaChannel) : Nat → BitVec 8
  | 0x0 => ch.control
  | 0x1 => ch.bAdr
  | 0x2 => ch.aAdr.extractLsb' 0 8
  | 0x3 => ch.aAdr.extractLsb' 8 8
  | 0x4 => ch.aBank
  | 0x5 => ch.size.extractLsb' 0 8
  | 0x6 => ch.size.extractLsb' 8 8
  | 0x7 => ch.indBank
  | 0x8 => ch.tableAdr.extractLsb' 0 8
  | 0x9 => ch.tableAdr.extractLsb' 8 8
  | 0xA => ch.repCount
  | 0xB | 0xF => ch.unusedByte
  | _ => openBus

def DmaChannel.write (v : BitVec 8) (ch : DmaChannel) : Nat → DmaChannel
  | 0x0 => ch.setControl v
  | 0x1 => { ch with bAdr := v }
  | 0x2 => { ch with aAdr := setLow v ch.aAdr }
  | 0x3 => { ch with aAdr := setHigh v ch.aAdr }
  | 0x4 => { ch with aBank := v }
  | 0x5 => { ch with size := setLow v ch.size }
  | 0x6 => { ch with size := setHigh v ch.size }
  | 0x7 => { ch with indBank := v }
  | 0x8 => { ch with tableAdr := setLow v ch.tableAdr }
  | 0x9 => { ch with tableAdr := setHigh v ch.tableAdr }
  | 0xA => { ch with repCount := v }
  | 0xB | 0xF => { ch with unusedByte := v }
  | _ => ch

def dmaRead (openBus : BitVec 8) (d : Dma) (adr : BitVec 16) : BitVec 8 :=
  d[dmaIndex adr].read openBus (adr &&& 0xF).toNat

def dmaWrite (d : Dma) (adr : BitVec 16) (v : BitVec 8) : Dma :=
  d.update (dmaIndex adr) fun ch => ch.write v (adr &&& 0xF).toNat

/-- `dma_startDma`: $420B, or $420C. -/
def startDma (v : BitVec 8) (hdma : Bool) (d : Dma) : Dma :=
  let channel := d.channel.mapFinIdx fun i ch _ =>
    if hdma then { ch with hdmaActive := v.getLsbD i } else { ch with dmaActive := v.getLsbD i }
  if hdma then { d with channel } else { channel, dmaBusy := v ≠ 0 }

/-! The transfers, on a bus with the DMA's registers behind it. -/

/-- The DMA among what is behind the bus. -/
class DmaBoard (σ : Type) extends Board σ where
  dma : σ → Dma
  setDma : Dma → σ → σ
  dma_set : ∀ d h, dma (setDma d h) = d
  set_dma : ∀ h, setDma (dma h) h = h
  set_set : ∀ d e h, setDma d (setDma e h) = setDma d h
  fastrom_set : ∀ d h, fastrom (setDma d h) = fastrom h

variable {σ : Type} [DmaBoard σ]

def Wire.dma (w : Wire σ) : Dma := DmaBoard.dma w.bus.hw

def Bus.setDma (d : Dma) (b : Bus σ) : Bus σ := { b with hw := DmaBoard.setDma d b.hw }

def Wire.setDma (d : Dma) (w : Wire σ) : Wire σ := { w with bus := w.bus.setDma d }

def getChannel (i : Fin 8) : BusM σ DmaChannel := fun w => some (w.dma[i], w)

def modifyDma (f : Dma → Dma) : BusM σ Unit := fun w => some ((), w.setDma (f w.dma))

def setChannel (i : Fin 8) (f : DmaChannel → DmaChannel) : BusM σ Unit := modifyDma (·.update i f)

/-- On the B bus. -/
def bBus (adr : BitVec 8) : BitVec 24 := 0x2100 + adr.setWidth 24

def transferByte (aAdr : BitVec 16) (aBank bAdr : BitVec 8) (fromB : Bool) : BusM σ Unit :=
  if fromB then do
    let data ← read8 (bBus bAdr)
    write8 (aBank ++ aAdr) data
  else do
    let data ← read8 (aBank ++ aAdr)
    write8 (bBus bAdr) data

/-- What a transfer leaves of its channel. -/
def DmaChannel.transferred (ch : DmaChannel) : DmaChannel :=
  let ch := if ch.fixed then ch
    else { ch with aAdr := if ch.decrement then ch.aAdr - 1 else ch.aAdr + 1 }
  let ch := { ch with size := ch.size - 1 }
  if ch.size = 0 then { ch with offIndex := 0, dmaActive := false } else ch

def Dma.firstActive (d : Dma) : Option (Fin 8) :=
  (List.finRange 8).find? fun i => d[i].dmaActive

/-- A byte of channel `i`. -/
def dmaMoveByte (i : Fin 8) : BusM σ Unit := do
  let ch ← getChannel i
  setChannel i fun ch => { ch with offIndex := ch.offIndex + 1 }
  transferByte ch.aAdr ch.aBank (ch.bAdr + bAdrOffsets ch.mode ch.offIndex) ch.fromB
  setChannel i DmaChannel.transferred

/-- `dma_doDma`: a byte of the first active channel. -/
def doDma : BusM σ Unit := fun w =>
  match w.dma.firstActive with
  | none => modifyDma (fun d => { d with dmaBusy := false }) w
  | some i => dmaMoveByte i w

/-- `while (g_dma->dmaBusy) dma_doDma(g_dma);`, for `fuel` turns at most. -/
def dmaLoop : Nat → BusM σ Unit
  | 0 => fun w => if w.dma.dmaBusy then none else some ((), w)
  | fuel + 1 => fun w => if w.dma.dmaBusy then (doDma >>= fun _ => dmaLoop fuel) w else some ((), w)

/-- The sizes posted to the scheduler. -/
def dmaSizes (openBus v : BitVec 8) (d : Dma) : List Nat :=
  (List.range 8).map fun c =>
    if v.getLsbD c then
      let size := dmaRead openBus d (BitVec.ofNat 16 (c * 16 + 6)) ++
        dmaRead openBus d (BitVec.ofNat 16 (c * 16 + 5))
      if size = 0 then 0x10000 else size.toNat
    else 0

/-- `mdmaen_write`, with what it hands to `snes_dma_start`. The accesses of the DMA are not the
CPU's. -/
def mdmaenWrite (fuel : Nat) (openBus v : BitVec 8) : BusM σ (Option (List Nat)) := fun w => do
  let posted := if v = 0 then none else some (dmaSizes openBus v w.dma)
  let ((), w') ← dmaLoop fuel (w.setDma (startDma v false w.dma))
  some (posted, { w' with log := w.log })

/-! HDMA. -/

def DmaChannel.inUse (ch : DmaChannel) : Bool := ch.hdmaActive && !ch.terminated

/-- The next byte of the channel's table. -/
def hdmaFetch (i : Fin 8) : BusM σ (BitVec 8) := do
  let ch ← getChannel i
  setChannel i fun ch => { ch with tableAdr := ch.tableAdr + 1 }
  read8 (ch.aBank ++ ch.tableAdr)

def hdmaIndirect (i : Fin 8) : BusM σ Unit := do
  let lo ← hdmaFetch i
  setChannel i fun ch => { ch with size := lo.setWidth 16 }
  let hi ← hdmaFetch i
  setChannel i fun ch => { ch with size := ch.size ||| (hi.setWidth 16 <<< 8) }

def hdmaByte (i : Fin 8) (j : BitVec 2) : BusM σ Unit := do
  let ch ← getChannel i
  let bAdr := ch.bAdr + bAdrOffsets ch.mode j
  if ch.indirect then
    setChannel i fun ch => { ch with size := ch.size + 1 }
    transferByte ch.size ch.indBank bAdr ch.fromB
  else
    setChannel i fun ch => { ch with tableAdr := ch.tableAdr + 1 }
    transferByte ch.tableAdr ch.aBank bAdr ch.fromB

/-- The transfer of a line, from byte `j` on. -/
def hdmaBytes (i : Fin 8) : Nat → Nat → BusM σ Unit
  | 0, _ => pure ()
  | n + 1, j => do
    let ch ← getChannel i
    if j < hdmaLen ch.mode then
      hdmaByte i (BitVec.ofNat 2 j)
      hdmaBytes i n (j + 1)

/-- The next line counter, and the address that goes with it. -/
def hdmaReload (i : Fin 8) : BusM σ Unit := do
  let count ← hdmaFetch i
  setChannel i fun ch => { ch with repCount := count }
  let ch ← getChannel i
  if ch.indirect then hdmaIndirect i

def hdmaCount (i : Fin 8) : BusM σ Unit := do
  setChannel i fun ch =>
    { ch with repCount := ch.repCount - 1, doTransfer := (ch.repCount - 1).getLsbD 7 }
  let ch ← getChannel i
  if ch.repCount &&& 0x7F = 0 then
    hdmaReload i
    setChannel i fun ch =>
      { ch with terminated := ch.terminated || ch.repCount = 0, doTransfer := true }

def hdmaChannel (i : Fin 8) : BusM σ Unit := do
  let ch ← getChannel i
  if ch.inUse then
    setChannel i fun ch => { ch with dmaActive := false, offIndex := 0 }
    let ch ← getChannel i
    if ch.doTransfer then hdmaBytes i 4 0
    hdmaCount i

/-- `dma_doHdma`: once a line. -/
def doHdma : BusM σ Unit := (List.finRange 8).forM hdmaChannel

def initHdmaChannel (i : Fin 8) : BusM σ Unit := do
  let ch ← getChannel i
  if ch.hdmaActive then
    setChannel i fun ch => { ch with dmaActive := false, offIndex := 0, tableAdr := ch.aAdr }
    hdmaReload i
    setChannel i fun ch => { ch with doTransfer := true }
  else setChannel i fun ch => { ch with doTransfer := false }
  setChannel i fun ch => { ch with terminated := false }

/-- `dma_initHdma`: at the start of a frame. -/
def initHdma : BusM σ Unit := (List.finRange 8).forM initHdmaChannel

end CtRecomp
