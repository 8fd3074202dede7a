import CtRecomp.Dma
import Mathlib.Data.List.Induction

namespace CtRecomp

/-! The VRAM port ($2115-$2119, $2139, $213A): the vendored ppu.c behind snes_adapter.c, where
reads go through a latch. -/

structure VramPort where
  vram : BitVec 15 → BitVec 16
  vramPointer : BitVec 16
  vramIncrement : BitVec 16
  vramIncrementOnHigh : Bool
  vramLatch : BitVec 16

namespace VramPort

/-- `vram[vramPointer & 0x7fff]` -/
def word (p : VramPort) : BitVec 16 := p.vram (p.vramPointer.setWidth 15)

def store (w : BitVec 16) (p : VramPort) : VramPort :=
  { p with vram := Function.update p.vram (p.vramPointer.setWidth 15) w }

def advance (p : VramPort) : VramPort := { p with vramPointer := p.vramPointer + p.vramIncrement }

/-- The prefetch after VMADD. -/
def prefetch (p : VramPort) : VramPort := { p with vramLatch := p.word }

end VramPort

/-- `vram_prefetch_increment`: the latch loads before the address moves on. -/
def vramPrefetchIncrement (p : VramPort) : VramPort := p.prefetch.advance

/-- VMAIN's bits 0-1. -/
def vramStep (v : BitVec 8) : Nat := if v &&& 3 = 0 then 1 else if v &&& 3 = 1 then 32 else 128

inductive VramOp
  /-- $2115; its address remapping is not implemented. -/
  | vmain (v : BitVec 8)
  | vmaddl (v : BitVec 8)
  | vmaddh (v : BitVec 8)
  | vmdatal (v : BitVec 8)
  | vmdatah (v : BitVec 8)
  /-- $2139 -/
  | vmdatalread
  /-- $213A -/
  | vmdatahread

/-- With the byte it reads, if it does. -/
def VramOp.run (p : VramPort) : VramOp → VramPort × List (BitVec 8)
  | .vmain v =>
    ({ p with
      vramIncrement := BitVec.ofNat 16 (vramStep v), vramIncrementOnHigh := v.getLsbD 7 }, [])
  | .vmaddl v => ({ p with vramPointer := setLow v p.vramPointer }.prefetch, [])
  | .vmaddh v => ({ p with vramPointer := setHigh v p.vramPointer }.prefetch, [])
  | .vmdatal v =>
    let q := p.store (setLow v p.word)
    (if !p.vramIncrementOnHigh then q.advance else q, [])
  | .vmdatah v =>
    let q := p.store (setHigh v p.word)
    (if p.vramIncrementOnHigh then q.advance else q, [])
  | .vmdatalread =>
    (if !p.vramIncrementOnHigh then vramPrefetchIncrement p else p, [p.vramLatch.extractLsb' 0 8])
  | .vmdatahread =>
    (if p.vramIncrementOnHigh then vramPrefetchIncrement p else p, [p.vramLatch.extractLsb' 8 8])

/-- Accesses one after the other, with the bytes read. -/
def vramRun : List VramOp → VramPort → VramPort × List (BitVec 8)
  | [], p => (p, [])
  | op :: ops, p =>
    let r := op.run p
    let rest := vramRun ops r.1
    (rest.1, r.2 ++ rest.2)

/-! An upload and a download, a word in the order that has its second byte move the address on. -/

def wordBytes (onHigh : Bool) (w : BitVec 16) : List (BitVec 8) :=
  if onHigh then [w.extractLsb' 0 8, w.extractLsb' 8 8] else [w.extractLsb' 8 8, w.extractLsb' 0 8]

def putWord (onHigh : Bool) (w : BitVec 16) : List VramOp :=
  if onHigh then [.vmdatal (w.extractLsb' 0 8), .vmdatah (w.extractLsb' 8 8)]
  else [.vmdatah (w.extractLsb' 8 8), .vmdatal (w.extractLsb' 0 8)]

def getWord (onHigh : Bool) : List VramOp :=
  if onHigh then [.vmdatalread, .vmdatahread] else [.vmdatahread, .vmdatalread]

/-- VMAIN and VMADD. -/
def vramSetup (v : BitVec 8) (a : BitVec 16) : List VramOp :=
  [.vmain v, .vmaddl (a.extractLsb' 0 8), .vmaddh (a.extractLsb' 8 8)]

def vramUpload (v : BitVec 8) (a : BitVec 16) (ws : List (BitVec 16)) : List VramOp :=
  vramSetup v a ++ ws.flatMap (putWord (v.getLsbD 7))

/-- A word to be dropped, then `n`. -/
def vramDownload (v : BitVec 8) (a : BitVec 16) (n : Nat) : List VramOp :=
  vramSetup v a ++ getWord (v.getLsbD 7) ++ (List.replicate n (getWord (v.getLsbD 7))).flatten

/-- The `k`th word's place. -/
def vramPlace (a : BitVec 16) (s k : Nat) : BitVec 15 := (a + BitVec.ofNat 16 (k * s)).setWidth 15

/-- Does it change VRAM? -/
def VramOp.stores : VramOp → Bool
  | .vmdatal _ | .vmdatah _ => true
  | _ => false

section

variable {p p₀ : VramPort} {ops : List VramOp} {a : BitVec 16} {s k n : Nat} {onHigh : Bool}
  {w : BitVec 16} {ws : List (BitVec 16)}

theorem vramStep_pos (v : BitVec 8) : 0 < vramStep v := by
  unfold vramStep
  split
  · omega
  · split <;> omega

theorem vramRun_cons (op : VramOp) (ops : List VramOp) (p : VramPort) :
    vramRun (op :: ops) p =
      ((vramRun ops (op.run p).1).1, (op.run p).2 ++ (vramRun ops (op.run p).1).2) := rfl

theorem vramRun_append (ops ops' : List VramOp) (p : VramPort) :
    vramRun (ops ++ ops') p =
      ((vramRun ops' (vramRun ops p).1).1,
        (vramRun ops p).2 ++ (vramRun ops' (vramRun ops p).1).2) := by
  induction ops generalizing p with
  | nil => rfl
  | cons op ops ih =>
    rw [List.cons_append, vramRun_cons, vramRun_cons, ih, List.append_assoc]

theorem word_bytes (w : BitVec 16) : w.extractLsb' 8 8 ++ w.extractLsb' 0 8 = w := by
  have h : w.extractLsb' 8 8 ++ w.extractLsb' 0 8 = w.extractLsb' 0 (8 + 8) :=
    BitVec.extractLsb'_append_extractLsb'_eq_extractLsb' rfl
  exact h.trans BitVec.extractLsb'_eq_self

theorem setHigh_setLow (w x : BitVec 16) :
    setHigh (w.extractLsb' 8 8) (setLow (w.extractLsb' 0 8) x) = w := by
  unfold setHigh setLow
  rw [BitVec.extractLsb'_append_eq_right, word_bytes]

theorem setLow_setHigh (w x : BitVec 16) :
    setLow (w.extractLsb' 0 8) (setHigh (w.extractLsb' 8 8) x) = w := by
  unfold setHigh setLow
  rw [BitVec.extractLsb'_append_eq_left, word_bytes]

@[simp] theorem VramPort.store_word (w : BitVec 16) (p : VramPort) : (p.store w).word = w :=
  Function.update_self ..

@[simp] theorem VramPort.store_store (w w' : BitVec 16) (p : VramPort) :
    (p.store w).store w' = p.store w' := by
  unfold VramPort.store
  rw [Function.update_idem]

/-- A word written lands whole, and the address moves on. -/
theorem putWord_run (h : p.vramIncrementOnHigh = onHigh) (w : BitVec 16) :
    vramRun (putWord onHigh w) p = ((p.store w).advance, []) := by
  have hkept (w' : BitVec 16) : (p.store w').vramIncrementOnHigh = onHigh := h
  cases onHigh with
  | true => simp [putWord, vramRun, VramOp.run, h, hkept, setHigh_setLow]
  | false => simp [putWord, vramRun, VramOp.run, h, hkept, setLow_setHigh]

theorem getWord_run (h : p.vramIncrementOnHigh = onHigh) :
    vramRun (getWord onHigh) p = (vramPrefetchIncrement p, wordBytes onHigh p.vramLatch) := by
  cases onHigh with
  | true => simp [getWord, wordBytes, vramRun, VramOp.run, h]
  | false => simp [getWord, wordBytes, vramRun, VramOp.run, h]

/-- The address is set, and its word is in the latch. -/
theorem vramSetup_run (v : BitVec 8) (a : BitVec 16) (p : VramPort) :
    vramRun (vramSetup v a) p =
      ({ p with
        vramIncrement := BitVec.ofNat 16 (vramStep v), vramIncrementOnHigh := v.getLsbD 7,
        vramPointer := a, vramLatch := p.vram (a.setWidth 15) }, []) := by
  simp [vramSetup, vramRun, VramOp.run, VramPort.prefetch, VramPort.word, setHigh_setLow]

/-! The upload. -/

theorem vramPlace_inj {j : Nat} (hs : 0 < s) (hj : j * s < 0x8000) (hk : k * s < 0x8000)
    (h : vramPlace a s j = vramPlace a s k) : j = k := by
  have hnat := congrArg BitVec.toNat h
  simp only [vramPlace, BitVec.toNat_setWidth, BitVec.toNat_add, BitVec.toNat_ofNat] at hnat
  have hsame : j * s = k * s := by omega
  exact Nat.eq_of_mul_eq_mul_right hs hsame

/-- The port after these words went up. -/
structure Uploaded (p₀ : VramPort) (onHigh : Bool) (s : Nat) (a : BitVec 16)
    (ws : List (BitVec 16)) (p : VramPort) : Prop where
  onHigh : p.vramIncrementOnHigh = onHigh
  increment : p.vramIncrement = BitVec.ofNat 16 s
  pointer : p.vramPointer = a + BitVec.ofNat 16 (ws.length * s)
  stored : ∀ k w, ws[k]? = some w → p.vram (vramPlace a s k) = w
  others : ∀ x, (∀ k < ws.length, x ≠ vramPlace a s k) → p.vram x = p₀.vram x

theorem advance_pointer (hs : p.vramIncrement = BitVec.ofNat 16 s)
    (hp : p.vramPointer = a + BitVec.ofNat 16 (k * s)) :
    p.advance.vramPointer = a + BitVec.ofNat 16 ((k + 1) * s) := by
  change p.vramPointer + p.vramIncrement = _
  rw [hs, hp, BitVec.add_assoc, ← BitVec.ofNat_add, Nat.succ_mul]

theorem uploaded_word (h : Uploaded p₀ onHigh s a ws p) (hs : 0 < s)
    (hroom : ws.length * s < 0x8000) (w : BitVec 16) :
    Uploaded p₀ onHigh s a (ws ++ [w]) (p.store w).advance := by
  have hplace : p.vramPointer.setWidth 15 = vramPlace a s ws.length :=
    congrArg (BitVec.setWidth 15) h.pointer
  have hvram : (p.store w).advance.vram = Function.update p.vram (vramPlace a s ws.length) w := by
    rw [← hplace]
    rfl
  refine ⟨h.onHigh, h.increment, ?_, fun k w' hk => ?_, fun x hx => ?_⟩
  · rw [List.length_append]
    exact advance_pointer (p := p.store w) h.increment h.pointer
  · rw [hvram]
    by_cases hlast : k = ws.length
    · subst hlast
      rw [Function.update_self]
      simpa using hk
    · have hlt : k < ws.length := by
        have hlen := (List.getElem?_eq_some_iff.mp hk).1
        rw [List.length_append, List.length_singleton] at hlen
        omega
      rw [List.getElem?_append_left hlt] at hk
      have hsmall : k * s < 0x8000 :=
        Nat.lt_of_le_of_lt (Nat.mul_le_mul_right s (Nat.le_of_lt hlt)) hroom
      have hne : vramPlace a s k ≠ vramPlace a s ws.length :=
        fun heq => hlast (vramPlace_inj hs hsmall hroom heq)
      rw [Function.update_of_ne hne]
      exact h.stored k w' hk
  · rw [List.length_append, List.length_singleton] at hx
    rw [hvram, Function.update_of_ne (hx ws.length (Nat.lt_succ_self _))]
    exact h.others x fun k hk => hx k (Nat.lt_succ_of_lt hk)

theorem uploaded_words (v : BitVec 8) (hroom : ws.length * vramStep v ≤ 0x8000) :
    Uploaded p₀ (v.getLsbD 7) (vramStep v) a ws (vramRun (vramUpload v a ws) p₀).1 := by
  have hs := vramStep_pos v
  induction ws using List.reverseRec with
  | nil =>
    unfold vramUpload
    rw [List.flatMap_nil, List.append_nil, vramSetup_run]
    refine ⟨rfl, rfl, ?_, fun k w hk => ?_, fun x _ => rfl⟩
    · simp
    · cases hk
  | append_singleton ws w ih =>
    rw [List.length_append, List.length_singleton, Nat.succ_mul] at hroom
    have hbefore := ih (by omega)
    have hsplit : vramUpload v a (ws ++ [w]) = vramUpload v a ws ++ putWord (v.getLsbD 7) w := by
      simp [vramUpload]
    rw [hsplit, vramRun_append, putWord_run hbefore.onHigh]
    exact uploaded_word hbefore hs (by omega) w

/-! The download. -/

/-- The next word is in the latch. -/
structure Fetching (onHigh : Bool) (s : Nat) (a : BitVec 16) (k : Nat) (p : VramPort) : Prop where
  onHigh : p.vramIncrementOnHigh = onHigh
  increment : p.vramIncrement = BitVec.ofNat 16 s
  pointer : p.vramPointer = a + BitVec.ofNat 16 ((k + 1) * s)
  latch : p.vramLatch = p.vram (vramPlace a s k)

theorem fetching_next (h : Fetching onHigh s a k p) :
    Fetching onHigh s a (k + 1) (vramPrefetchIncrement p) := by
  refine ⟨h.onHigh, h.increment, ?_, ?_⟩
  · exact advance_pointer (p := p.prefetch) h.increment h.pointer
  · exact congrArg p.vram (congrArg (BitVec.setWidth 15) h.pointer)

theorem fetching_words (h : Fetching onHigh s a k p) (n : Nat) :
    (vramRun (List.replicate n (getWord onHigh)).flatten p).2 =
      (List.range' k n).flatMap fun j => wordBytes onHigh (p.vram (vramPlace a s j)) := by
  induction n generalizing k p with
  | zero => rfl
  | succ n ih =>
    rw [List.replicate_succ, List.flatten_cons, vramRun_append, getWord_run h.onHigh,
      List.range'_succ, List.flatMap_cons, h.latch, ih (fetching_next h)]
    rfl

theorem downloaded_words (v : BitVec 8) (a : BitVec 16) (n : Nat) (p : VramPort) :
    (vramRun (vramDownload v a n) p).2 =
      wordBytes (v.getLsbD 7) (p.vram (vramPlace a (vramStep v) 0)) ++
        (List.range' 0 n).flatMap fun j =>
          wordBytes (v.getLsbD 7) (p.vram (vramPlace a (vramStep v) j)) := by
  have hstart : vramPlace a (vramStep v) 0 = a.setWidth 15 := by
    simp [vramPlace]
  unfold vramDownload
  have hsetup := vramSetup_run v a p
  have hword : vramRun (getWord (v.getLsbD 7)) (vramRun (vramSetup v a) p).1 = _ :=
    getWord_run (by rw [hsetup])
  have hfetch : Fetching (v.getLsbD 7) (vramStep v) a 0
      (vramPrefetchIncrement (vramRun (vramSetup v a) p).1) := by
    rw [hsetup]
    refine ⟨rfl, rfl, ?_, ?_⟩
    · change a + BitVec.ofNat 16 (vramStep v) = _
      rw [Nat.zero_add, Nat.one_mul]
    · rw [hstart]
      rfl
  rw [vramRun_append, vramRun_append, hword, fetching_words hfetch n, hsetup, hstart]
  rfl

/-! Anything but a write of data. -/

theorem vramOp_quiet {op : VramOp} (h : op.stores = false) (p : VramPort) :
    (op.run p).1.vram = p.vram := by
  cases op with
  | vmain v | vmaddl v | vmaddh v => rfl
  | vmdatal v | vmdatah v => cases h
  | vmdatalread | vmdatahread =>
    unfold VramOp.run
    dsimp only
    split <;> rfl

theorem vramRun_quiet (h : ∀ op ∈ ops, op.stores = false) (p : VramPort) :
    (vramRun ops p).1.vram = p.vram := by
  induction ops generalizing p with
  | nil => rfl
  | cons op ops ih =>
    obtain ⟨hop, hops⟩ := List.forall_mem_cons.mp h
    rw [vramRun_cons, ih hops, vramOp_quiet hop]

/-- Words uploaded come back whole, whichever byte goes first each way, and whatever is read, or
set up, in between. The first comes twice, and no other word of VRAM changes. -/
theorem vram_round_trip {v v' : BitVec 8} {between : List VramOp}
    (hroom : ws.length * vramStep v ≤ 0x8000) (hstep : vramStep v' = vramStep v)
    (hquiet : ∀ op ∈ between, op.stores = false) (a : BitVec 16) (p : VramPort) :
    let p' := (vramRun (vramUpload v a ws ++ between) p).1
    (vramRun (vramDownload v' a ws.length) p').2 =
        wordBytes (v'.getLsbD 7) (p'.vram (a.setWidth 15)) ++
          ws.flatMap (wordBytes (v'.getLsbD 7)) ∧
      ∀ x, (∀ k < ws.length, x ≠ vramPlace a (vramStep v) k) → p'.vram x = p.vram x := by
  have hup : Uploaded p (v.getLsbD 7) (vramStep v) a ws _ := uploaded_words v hroom
  have hkept : (vramRun (vramUpload v a ws ++ between) p).1.vram =
      (vramRun (vramUpload v a ws) p).1.vram := by
    rw [vramRun_append]
    exact vramRun_quiet hquiet _
  dsimp only
  constructor
  · have hwords : ((List.range' 0 ws.length).map fun j =>
        (vramRun (vramUpload v a ws) p).1.vram (vramPlace a (vramStep v) j)) = ws := by
      apply List.ext_getElem
      · simp
      · intro k hk hk'
        simp only [List.getElem_map, List.getElem_range', Nat.zero_add, Nat.one_mul]
        exact hup.stored k _ (List.getElem?_eq_getElem hk')
    have hfirst : vramPlace a (vramStep v') 0 = a.setWidth 15 := by
      simp [vramPlace]
    rw [downloaded_words, hfirst, hkept, hstep]
    refine congrArg _ ?_
    conv_rhs => rw [← hwords]
    rw [List.flatMap_map]
  · intro x hx
    rw [hkept]
    exact hup.others x hx

def vramBlank : VramPort := ⟨fun _ => 0, 0, 1, false, 0⟩

/-- Two words up low byte first and down high byte first, with a read in between. -/
theorem vram_round_trip_two :
    (vramRun (vramDownload 0x00 0x6000 2)
      (vramRun (vramUpload 0x80 0x6000 [0x1234, 0xABCD] ++ [.vmdatalread]) vramBlank).1).2 =
        [0x12, 0x34, 0x12, 0x34, 0xAB, 0xCD] := by
  have hroom : [0x1234#16, 0xABCD#16].length * vramStep 0x80 ≤ 0x8000 := by decide
  have hquiet : ∀ op ∈ [VramOp.vmdatalread], op.stores = false := by decide
  obtain ⟨hread, -⟩ := vram_round_trip hroom (by decide : vramStep 0x00 = vramStep 0x80) hquiet
    0x6000 vramBlank
  refine hread.trans ?_
  decide

end

end CtRecomp
