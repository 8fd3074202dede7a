import CtRecomp.Loop

namespace CtRecomp

/-! $2102-$2104 and $2138: the OAM port (snes_adapter.c), over the PPU's word table. -/

/-- Fields of the PPU the port reads and writes, and `oamadd_reload`. -/
structure Oam where
  oam : Vector (BitVec 16) 0x110
  oamAdr : BitVec 16
  oamSecondWrite : Bool
  oamBuffer : BitVec 8
  forcedBlank : Bool
  oamaddReload : BitVec 16

/-- As `snes_hw_reset` leaves it. -/
def oamReset : Oam where
  oam := Vector.replicate 0x110 0
  oamAdr := 0
  oamSecondWrite := false
  oamBuffer := 0
  forcedBlank := true
  oamaddReload := 0

/-- `(oamAdr << 1 | oamSecondWrite) & 0x3FF` -/
def Oam.byteAddress (o : Oam) : Nat := (2 * o.oamAdr.toNat + o.oamSecondWrite.toNat) % 0x400

def Oam.setByteAddress (o : Oam) (b : Nat) : Oam :=
  { o with oamAdr := BitVec.ofNat 16 (b / 2), oamSecondWrite := b % 2 = 1 }

/-- No value: an index past the table. -/
def oamByte (o : Oam) (b : Nat) : Option (BitVec 8) := do
  let w := if b < 0x200 then b / 2 else 0x100 + b % 0x20 / 2
  let word ← o.oam[w]?
  pure ((word >>> (b % 2 * 8)).setWidth 8)

/-- $2138. -/
def oamRead (o : Oam) : Option (BitVec 8 × Oam) := do
  let b := o.byteAddress
  let v ← oamByte o b
  pure (v, o.setByteAddress ((b + 1) % 0x400))

def Oam.store (o : Oam) (w : Nat) (word : BitVec 16) : Option Oam :=
  if h : w < 0x110 then some { o with oam := o.oam.set w word } else none

/-- $2104. -/
def oamWrite (v : BitVec 8) (o : Oam) : Option Oam := do
  let b := o.byteAddress
  let o ←
    if b < 0x200 then
      if b % 2 = 0 then pure { o with oamBuffer := v }
      else o.store (b / 2) (v.setWidth 16 <<< 8 ||| o.oamBuffer.setWidth 16)
    else do
      let w := 0x100 + b % 0x20 / 2
      let word ← o.oam[w]?
      o.store w (if b % 2 = 1 then word &&& 0x00FF ||| v.setWidth 16 <<< 8
        else word &&& 0xFF00 ||| v.setWidth 16)
  pure (o.setByteAddress ((b + 1) % 0x400))

/-- The vendored `ppu_write` of $2102 and $2103. -/
def ppuWriteOamadd (high : Bool) (v : BitVec 8) (o : Oam) : Oam :=
  { o with
    oamAdr := if high then o.oamAdr &&& 0x00FF#16 ||| (v &&& 1).setWidth 16 <<< 8
      else o.oamAdr &&& 0xFF00 ||| v.setWidth 16
    oamSecondWrite := false }

/-- $2102, or $2103 (`high`). -/
def oamaddWrite (high : Bool) (v : BitVec 8) (o : Oam) : Oam :=
  let o := ppuWriteOamadd high v o
  let reload := if high then o.oamaddReload &&& 0xFF#16 ||| (v &&& 1).setWidth 16 <<< 8
    else o.oamaddReload &&& 0x100 ||| v.setWidth 16
  { o with oamaddReload := reload, oamAdr := reload, oamSecondWrite := false }

def oamVblankReload (o : Oam) : Oam :=
  if o.forcedBlank then o else { o with oamAdr := o.oamaddReload, oamSecondWrite := false }

inductive OamOp
  | oamadd (high : Bool) (v : BitVec 8)
  | write (v : BitVec 8)
  | read
  | vblank
  /-- $2100 bit 7. -/
  | forcedBlank (on : Bool)

/-- The value a read gives comes with it. -/
def OamOp.run (o : Oam) : OamOp → Option (List (BitVec 8) × Oam)
  | .oamadd high v => some ([], oamaddWrite high v o)
  | .write v => (fun o => ([], o)) <$> oamWrite v o
  | .read => (fun r => ([r.1], r.2)) <$> oamRead o
  | .vblank => some ([], oamVblankReload o)
  | .forcedBlank on => some ([], { o with forcedBlank := on })

def oamRun : List OamOp → Oam → Option (List (BitVec 8) × Oam)
  | [], o => some ([], o)
  | op :: ops, o => do
    let (got, o) ← op.run o
    let (rest, o) ← oamRun ops o
    pure (got ++ rest, o)

/-! What the port is: 544 bytes behind a byte address, and a latch. -/

/-- The bytes committed so far, newest first; what the address is reloaded with, in words. -/
structure OamPort where
  committed : List (Fin 544 × BitVec 8)
  address : Fin 0x400
  latch : BitVec 8
  reload : Fin 0x200
  forcedBlank : Bool

namespace OamPort

/-- The byte at an address: past the low table, one of 32. -/
def place (a : Fin 0x400) : Fin 544 :=
  if h : a.val < 0x200 then ⟨a.val, by omega⟩ else ⟨0x200 + a.val % 32, by omega⟩

/-- The last byte committed there; none since the reset is 0. -/
def byte (p : OamPort) (k : Fin 544) : BitVec 8 :=
  ((p.committed.find? fun c => c.1 = k).map Prod.snd).getD 0

def advanced (p : OamPort) : OamPort := { p with address := p.address + 1 }

def commit (p : OamPort) (k : Fin 544) (v : BitVec 8) : OamPort :=
  { p with committed := (k, v) :: p.committed }

def write (v : BitVec 8) (p : OamPort) : OamPort :=
  if p.address.val < 0x200 then
    if p.address.val % 2 = 0 then { p with latch := v }.advanced
    else ((p.commit (place (p.address - 1)) p.latch).commit (place p.address) v).advanced
  else (p.commit (place p.address) v).advanced

/-- The address of a word. -/
def wordAddress (w : Fin 0x200) : Fin 0x400 := ⟨2 * w.val, by omega⟩

/-- One half of the reload value changes, and all of it becomes the address. -/
def oamadd (high : Bool) (v : BitVec 8) (p : OamPort) : OamPort :=
  let reload : Fin 0x200 :=
    if high then ⟨p.reload.val % 256 + 256 * (v.toNat % 2), by omega⟩
    else ⟨p.reload.val / 256 * 256 + v.toNat, by have := v.isLt; omega⟩
  { p with reload, address := wordAddress reload }

def step (p : OamPort) : OamOp → List (BitVec 8) × OamPort
  | .oamadd high v => ([], p.oamadd high v)
  | .write v => ([], p.write v)
  | .read => ([p.byte (place p.address)], p.advanced)
  | .vblank => ([], if p.forcedBlank then p else { p with address := wordAddress p.reload })
  | .forcedBlank on => ([], { p with forcedBlank := on })

def run (p : OamPort) : List OamOp → List (BitVec 8) × OamPort
  | [] => ([], p)
  | op :: ops =>
    let rest := run (p.step op).2 ops
    ((p.step op).1 ++ rest.1, rest.2)

def reset : OamPort := ⟨[], 0, 0, 0, true⟩

end OamPort

/-! Bytes of words. -/

section Bytes

variable {mask old : BitVec 16} {v lo : BitVec 8}

/-- The low byte, or the high one (`k` = 1), of a word. -/
def wordByte (word : BitVec 16) (k : Nat) : BitVec 8 := (word >>> (k * 8)).setWidth 8

theorem highByte_set (hmask : ∀ i < 8, mask.getLsbD (8 + i) = false) :
    wordByte (old &&& mask ||| v.setWidth 16 <<< 8) 1 = v := by
  refine BitVec.eq_of_getLsbD_eq fun i hi => ?_
  have hin : 8 + i < 16 := by omega
  have hin' : i < 16 := by omega
  simp only [wordByte, BitVec.getLsbD_setWidth, BitVec.getLsbD_ushiftRight, BitVec.getLsbD_or,
    BitVec.getLsbD_and, BitVec.getLsbD_shiftLeft, hi, hin, hin', Nat.one_mul,
    Nat.add_sub_cancel_left, hmask i hi]
  simp

theorem lowByte_kept (hmask : ∀ i < 8, mask.getLsbD i = true) :
    wordByte (old &&& mask ||| v.setWidth 16 <<< 8) 0 = wordByte old 0 := by
  refine BitVec.eq_of_getLsbD_eq fun i hi => ?_
  simp only [wordByte, BitVec.getLsbD_setWidth, BitVec.getLsbD_or, BitVec.getLsbD_and,
    BitVec.getLsbD_shiftLeft, BitVec.getLsbD_ushiftRight, Nat.zero_mul, Nat.zero_add, hi,
    hmask i hi]
  simp

theorem lowByte_set (hmask : ∀ i < 8, mask.getLsbD i = false) :
    wordByte (old &&& mask ||| v.setWidth 16) 0 = v := by
  refine BitVec.eq_of_getLsbD_eq fun i hi => ?_
  have hin : i < 16 := by omega
  simp only [wordByte, BitVec.getLsbD_setWidth, BitVec.getLsbD_or, BitVec.getLsbD_and,
    BitVec.getLsbD_ushiftRight, Nat.zero_mul, Nat.zero_add, hi, hin, hmask i hi]
  simp

theorem highByte_kept (hmask : ∀ i < 8, mask.getLsbD (8 + i) = true) :
    wordByte (old &&& mask ||| v.setWidth 16) 1 = wordByte old 1 := by
  refine BitVec.eq_of_getLsbD_eq fun i hi => ?_
  have hout : v.getLsbD (8 + i) = false := BitVec.getLsbD_of_ge _ _ (Nat.le_add_right _ _)
  simp only [wordByte, BitVec.getLsbD_setWidth, BitVec.getLsbD_ushiftRight, BitVec.getLsbD_or,
    BitVec.getLsbD_and, Nat.one_mul, hmask i hi, hout]
  simp

theorem pair_low : wordByte (v.setWidth 16 <<< 8 ||| lo.setWidth 16) 0 = lo := by
  refine BitVec.eq_of_getLsbD_eq fun i hi => ?_
  have hin : i < 16 := by omega
  simp only [wordByte, BitVec.getLsbD_setWidth, BitVec.getLsbD_or, BitVec.getLsbD_shiftLeft,
    BitVec.getLsbD_ushiftRight, Nat.zero_mul, Nat.zero_add, hi, hin]
  simp

theorem pair_high : wordByte (v.setWidth 16 <<< 8 ||| lo.setWidth 16) 1 = v := by
  refine BitVec.eq_of_getLsbD_eq fun i hi => ?_
  have hin : 8 + i < 16 := by omega
  have hin' : i < 16 := by omega
  have hout : lo.getLsbD (8 + i) = false := BitVec.getLsbD_of_ge _ _ (Nat.le_add_right _ _)
  simp only [wordByte, BitVec.getLsbD_setWidth, BitVec.getLsbD_ushiftRight, BitVec.getLsbD_or,
    BitVec.getLsbD_shiftLeft, hi, hin, hin', hout, Nat.one_mul, Nat.add_sub_cancel_left]
  simp

end Bytes

/-- A byte of the table. -/
def Oam.byteAt (o : Oam) (k : Fin 544) : BitVec 8 :=
  have : k.val / 2 < 0x110 := by omega
  wordByte o.oam[k.val / 2] (k.val % 2)

/-- The table and the port after the same accesses. -/
structure Oam.Ported (o : Oam) (p : OamPort) : Prop where
  bytes : ∀ k, o.byteAt k = p.byte k
  address : 2 * o.oamAdr.toNat + o.oamSecondWrite.toNat = p.address.val
  latch : o.oamBuffer = p.latch
  reload : o.oamaddReload.toNat = p.reload.val
  forcedBlank : o.forcedBlank = p.forcedBlank

namespace OamPort

theorem byte_commit (p : OamPort) (k j : Fin 544) (v : BitVec 8) :
    (p.commit k v).byte j = if j = k then v else p.byte j := by
  unfold byte commit
  by_cases hk : j = k
  · rw [List.find?_cons_of_pos (by simp [hk]), if_pos hk]
    rfl
  · rw [List.find?_cons_of_neg (by simp [Ne.symm hk]), if_neg hk]

theorem place_low {a : Fin 0x400} (h : a.val < 0x200) : (place a).val = a.val := by
  rw [place, dif_pos h]

theorem place_high {a : Fin 0x400} (h : ¬ a.val < 0x200) :
    (place a).val = 0x200 + a.val % 32 := by
  rw [place, dif_neg h]

/-- The word `oam_byte` picks. -/
theorem place_word (a : Fin 0x400) :
    (if a.val < 0x200 then a.val / 2 else 0x100 + a.val % 0x20 / 2) = (place a).val / 2 := by
  by_cases h : a.val < 0x200
  · rw [if_pos h, place_low h]
  · rw [if_neg h, place_high h]
    omega

theorem place_parity (a : Fin 0x400) : (place a).val % 2 = a.val % 2 := by
  by_cases h : a.val < 0x200
  · rw [place_low h]
  · rw [place_high h]
    omega

end OamPort

open OamPort

namespace Oam

theorem setByteAddress_address (o : Oam) {b : Nat} (h : b < 0x400) :
    2 * (o.setByteAddress b).oamAdr.toNat + (o.setByteAddress b).oamSecondWrite.toNat = b := by
  unfold setByteAddress
  rw [BitVec.toNat_ofNat, Nat.mod_eq_of_lt (Nat.lt_of_le_of_lt (Nat.div_le_self b 2) (by omega))]
  rcases Nat.mod_two_eq_zero_or_one b with hb | hb
  · simp only [hb, Nat.zero_ne_one, decide_false, Bool.toNat_false]
    omega
  · simp only [hb, decide_true, Bool.toNat_true]
    omega

theorem store_byteAt (o : Oam) {w : Nat} (h : w < 0x110) (word : BitVec 16) :
    ∃ o', o.store w word = some o' ∧ o' = { o with oam := o.oam.set w word } ∧
      ∀ k, o'.byteAt k = if k.val / 2 = w then wordByte word (k.val % 2) else o.byteAt k := by
  refine ⟨_, dif_pos h, rfl, fun k => ?_⟩
  unfold byteAt
  dsimp only
  rw [Vector.getElem_set]
  by_cases hk : k.val / 2 = w
  · rw [if_pos hk.symm, if_pos hk]
  · rw [if_neg (Ne.symm hk), if_neg hk]

theorem oamByte_place (o : Oam) (a : Fin 0x400) :
    oamByte o a.val = some (o.byteAt (place a)) := by
  have hin : (place a).val / 2 < 0x110 := by omega
  unfold oamByte byteAt wordByte
  dsimp only
  rw [place_word, Vector.getElem?_eq_getElem hin, ← place_parity]
  rfl

end Oam

namespace Oam.Ported

variable {o : Oam} {p : OamPort}

theorem byteAddress (h : o.Ported p) : o.byteAddress = p.address.val := by
  rw [Oam.byteAddress, h.address]
  exact Nat.mod_eq_of_lt p.address.isLt

theorem advanced (h : o.Ported p) :
    (o.setByteAddress ((p.address.val + 1) % 0x400)).Ported p.advanced where
  bytes := h.bytes
  address := Oam.setByteAddress_address o (Nat.mod_lt _ (by decide))
  latch := h.latch
  reload := h.reload
  forcedBlank := h.forcedBlank

theorem read (h : o.Ported p) :
    ∃ o', oamRead o = some (p.byte (place p.address), o') ∧ o'.Ported p.advanced := by
  refine ⟨o.setByteAddress ((p.address.val + 1) % 0x400), ?_, h.advanced⟩
  unfold oamRead
  dsimp only
  rw [h.byteAddress, Oam.oamByte_place, h.bytes]
  rfl

/-- An odd byte of the low table, with the latch below it. -/
theorem pair (h : o.Ported p) (v : BitVec 8) (hlow : p.address.val < 0x200)
    (hodd : p.address.val % 2 = 1) :
    ∃ o', o.store (p.address.val / 2) (v.setWidth 16 <<< 8 ||| o.oamBuffer.setWidth 16) = some o' ∧
      o'.Ported ((p.commit (place (p.address - 1)) p.latch).commit (place p.address) v) := by
  obtain ⟨o', hstore, hsame, hbytes⟩ := o.store_byteAt (w := p.address.val / 2) (by omega)
    (v.setWidth 16 <<< 8 ||| o.oamBuffer.setWidth 16)
  refine ⟨o', hstore, fun k => ?_, ?_, ?_, ?_, ?_⟩
  · have hbelow : (p.address - 1 : Fin 0x400).val = p.address.val - 1 := by
      change (0x400 - 1 + p.address.val) % 0x400 = p.address.val - 1
      omega
    have hplace := place_low hlow
    have hplace' : (place (p.address - 1)).val = p.address.val - 1 := by
      rw [place_low (by omega), hbelow]
    rw [hbytes, byte_commit, byte_commit]
    by_cases hk : k.val / 2 = p.address.val / 2
    · rcases Nat.mod_two_eq_zero_or_one k.val with hk2 | hk2
      · have hnot : k ≠ place p.address := fun heq => by
          have := congrArg Fin.val heq
          omega
        have hhere : k = place (p.address - 1) := Fin.ext (by omega)
        rw [if_pos hk, if_neg hnot, if_pos hhere, hk2, pair_low, h.latch]
      · have hhere : k = place p.address := Fin.ext (by omega)
        rw [if_pos hk, if_pos hhere, hk2, pair_high]
    · have hnot : k ≠ place p.address := fun heq => by
        have := congrArg Fin.val heq
        omega
      have hnot' : k ≠ place (p.address - 1) := fun heq => by
        have := congrArg Fin.val heq
        omega
      rw [if_neg hk, if_neg hnot, if_neg hnot', h.bytes]
  all_goals rw [hsame]
  · exact h.address
  · exact h.latch
  · exact h.reload
  · exact h.forcedBlank

/-- A byte of the high table. -/
theorem single (h : o.Ported p) (v : BitVec 8) (hhigh : ¬ p.address.val < 0x200) :
    ∃ word o', o.oam[0x100 + p.address.val % 0x20 / 2]? = some word ∧
      o.store (0x100 + p.address.val % 0x20 / 2)
        (if p.address.val % 2 = 1 then word &&& 0x00FF ||| v.setWidth 16 <<< 8
          else word &&& 0xFF00 ||| v.setWidth 16) = some o' ∧
      o'.Ported (p.commit (place p.address) v) := by
  have hin : 0x100 + p.address.val % 0x20 / 2 < 0x110 := by omega
  obtain ⟨o', hstore, hsame, hbytes⟩ := o.store_byteAt hin
    (if p.address.val % 2 = 1 then o.oam[0x100 + p.address.val % 0x20 / 2] &&& 0x00FF |||
        v.setWidth 16 <<< 8
      else o.oam[0x100 + p.address.val % 0x20 / 2] &&& 0xFF00 ||| v.setWidth 16)
  refine ⟨_, o', Vector.getElem?_eq_getElem hin, hstore, fun k => ?_, ?_, ?_, ?_, ?_⟩
  · have hplace := place_high hhigh
    rw [hbytes, byte_commit]
    by_cases hk : k.val / 2 = 0x100 + p.address.val % 0x20 / 2
    · have hold : o.byteAt k = wordByte o.oam[0x100 + p.address.val % 0x20 / 2] (k.val % 2) := by
        unfold Oam.byteAt
        simp only [hk]
      rw [if_pos hk, ← h.bytes, hold]
      rcases Nat.mod_two_eq_zero_or_one k.val with hk2 | hk2 <;>
        rcases Nat.mod_two_eq_zero_or_one p.address.val with ha | ha
      · rw [ha, hk2, if_neg (by decide), if_pos (Fin.ext (by omega)), lowByte_set (by decide)]
      · have hnot : k ≠ place p.address := fun heq => by
          have := congrArg Fin.val heq
          omega
        rw [ha, hk2, if_pos rfl, if_neg hnot, lowByte_kept (by decide)]
      · have hnot : k ≠ place p.address := fun heq => by
          have := congrArg Fin.val heq
          omega
        rw [ha, hk2, if_neg (by decide), if_neg hnot, highByte_kept (by decide)]
      · rw [ha, hk2, if_pos rfl, if_pos (Fin.ext (by omega)), highByte_set (by decide)]
    · have hnot : k ≠ place p.address := fun heq => by
        have := congrArg Fin.val heq
        omega
      rw [if_neg hk, if_neg hnot, h.bytes]
  all_goals rw [hsame]
  · exact h.address
  · exact h.latch
  · exact h.reload
  · exact h.forcedBlank

theorem write (h : o.Ported p) (v : BitVec 8) :
    ∃ o', oamWrite v o = some o' ∧ o'.Ported (p.write v) := by
  unfold oamWrite OamPort.write
  dsimp only
  rw [h.byteAddress]
  by_cases hlow : p.address.val < 0x200
  · rw [if_pos hlow, if_pos hlow]
    by_cases heven : p.address.val % 2 = 0
    · have hlatched : Oam.Ported { o with oamBuffer := v } { p with latch := v } :=
        ⟨h.bytes, h.address, rfl, h.reload, h.forcedBlank⟩
      rw [if_pos heven, if_pos heven]
      exact ⟨_, rfl, hlatched.advanced⟩
    · obtain ⟨o', hstore, hported⟩ := h.pair v hlow (by omega)
      rw [if_neg heven, if_neg heven, hstore]
      exact ⟨_, rfl, hported.advanced⟩
  · obtain ⟨word, o', hword, hstore, hported⟩ := h.single v hlow
    rw [if_neg hlow, if_neg hlow, hword]
    refine ⟨_, ?_, hported.advanced⟩
    simp only [Option.bind_eq_bind, Option.bind_some]
    rw [hstore]
    rfl

/-- A 9-bit word address becomes the address. -/
theorem reloaded (h : o.Ported p) {reload : BitVec 16} {w : Fin 0x200}
    (hreload : reload.toNat = w.val) :
    Oam.Ported { o with oamaddReload := reload, oamAdr := reload, oamSecondWrite := false }
      { p with reload := w, address := wordAddress w } where
  bytes := h.bytes
  address := by
    change 2 * reload.toNat + 0 = 2 * w.val
    omega
  latch := h.latch
  reload := hreload
  forcedBlank := h.forcedBlank

theorem highHalf {r : BitVec 16} {v : BitVec 8} :
    (r &&& 0xFF#16 ||| (v &&& 1).setWidth 16 <<< 8).toNat = r.toNat % 256 + 256 * (v.toNat % 2) := by
  have hmask : r.toNat &&& 255 = r.toNat % 256 := Nat.and_two_pow_sub_one_eq_mod _ 8
  have hbit : v.toNat &&& 1 = v.toNat % 2 := Nat.and_one_is_mod _
  have hor := Nat.two_pow_add_eq_or_of_lt (i := 8) (Nat.mod_lt r.toNat (by decide)) (v.toNat % 2)
  rw [BitVec.toNat_or, BitVec.toNat_and, BitVec.toNat_shiftLeft, BitVec.toNat_setWidth,
    BitVec.toNat_and]
  change r.toNat &&& 255 ||| ((v.toNat &&& 1) % 2 ^ 16) <<< 8 % 2 ^ 16 = _
  rw [hmask, hbit, Nat.mod_eq_of_lt (by omega : v.toNat % 2 < 2 ^ 16), Nat.shiftLeft_eq,
    Nat.mod_eq_of_lt (by omega : v.toNat % 2 * 2 ^ 8 < 2 ^ 16), Nat.or_comm, Nat.mul_comm, ← hor]
  omega

theorem lowHalf {r : BitVec 16} {v : BitVec 8} (h : r.toNat < 0x200) :
    (r &&& 0x100 ||| v.setWidth 16).toNat = r.toNat / 256 * 256 + v.toNat := by
  have hmask : ∀ k : Fin 0x200, k.val &&& 256 = 256 * (k.val / 256) := by decide +kernel
  have hor := Nat.two_pow_add_eq_or_of_lt (i := 8) v.isLt (r.toNat / 256)
  have hv := v.isLt
  rw [BitVec.toNat_or, BitVec.toNat_and, BitVec.toNat_setWidth]
  change r.toNat &&& 256 ||| v.toNat % 2 ^ 16 = _
  rw [hmask ⟨r.toNat, h⟩, Nat.mod_eq_of_lt (by omega : v.toNat < 2 ^ 16), ← hor]
  omega

theorem oamadd (h : o.Ported p) (high : Bool) (v : BitVec 8) :
    (oamaddWrite high v o).Ported (p.oamadd high v) := by
  have hr : o.oamaddReload.toNat < 0x200 := h.reload ▸ p.reload.isLt
  cases high with
  | false =>
    have hlow := lowHalf (v := v) hr
    rw [h.reload] at hlow
    exact h.reloaded hlow
  | true =>
    have hhigh := highHalf (r := o.oamaddReload) (v := v)
    rw [h.reload] at hhigh
    exact h.reloaded hhigh

theorem vblank (h : o.Ported p) :
    (oamVblankReload o).Ported
      (if p.forcedBlank then p else { p with address := wordAddress p.reload }) := by
  unfold oamVblankReload
  by_cases hblank : p.forcedBlank
  · rw [if_pos (h.forcedBlank.trans hblank), if_pos hblank]
    exact h
  · rw [if_neg (h.forcedBlank ▸ hblank), if_neg hblank]
    exact h.reloaded h.reload

theorem step (h : o.Ported p) (op : OamOp) :
    ∃ o', op.run o = some ((p.step op).1, o') ∧ o'.Ported (p.step op).2 := by
  cases op with
  | oamadd high v => exact ⟨_, rfl, h.oamadd high v⟩
  | write v =>
    obtain ⟨o', hrun, hported⟩ := h.write v
    exact ⟨o', by rw [OamOp.run, hrun]; rfl, hported⟩
  | read =>
    obtain ⟨o', hrun, hported⟩ := h.read
    exact ⟨o', by rw [OamOp.run, hrun]; rfl, hported⟩
  | vblank => exact ⟨_, rfl, h.vblank⟩
  | forcedBlank on => exact ⟨_, rfl, ⟨h.bytes, h.address, h.latch, h.reload, rfl⟩⟩

theorem run (h : o.Ported p) (ops : List OamOp) :
    ∃ o', oamRun ops o = some ((p.run ops).1, o') ∧ o'.Ported (p.run ops).2 := by
  induction ops generalizing o p with
  | nil => exact ⟨o, rfl, h⟩
  | cons op ops ih =>
    obtain ⟨o₁, hstep, hported₁⟩ := h.step op
    obtain ⟨o', hrest, hported⟩ := ih hported₁
    refine ⟨o', ?_, hported⟩
    rw [oamRun, hstep]
    simp only [Option.bind_eq_bind, Option.bind_some]
    rw [hrest]
    rfl

end Oam.Ported

theorem oamReset_ported : oamReset.Ported OamPort.reset where
  bytes k := by
    unfold Oam.byteAt oamReset
    dsimp only
    rw [Vector.getElem_replicate]
    rcases Nat.mod_two_eq_zero_or_one k.val with hk | hk <;> rw [hk] <;> rfl
  address := rfl
  latch := rfl
  reload := rfl
  forcedBlank := rfl

/-- Whatever mix of accesses since reset: no index leaves the table, and the reads are those
of 544 bytes behind a 10-bit address and a latch. -/
theorem oam_port (ops : List OamOp) :
    ∃ o, oamRun ops oamReset = some ((OamPort.reset.run ops).1, o) ∧
      o.Ported (OamPort.reset.run ops).2 :=
  oamReset_ported.run ops

end CtRecomp
