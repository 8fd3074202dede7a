import Mathlib.Algebra.Ring.Nat
import Mathlib.Data.List.Basic
import Mathlib.Tactic.SplitIfs

namespace CtRecomp.Zlib

/-! A zlib stream of stored blocks: its checksum, and the reader that takes it apart. -/

abbrev Byte := BitVec 8

/-- Each byte as often as there are bytes from it to the end. -/
def weighted : List Byte → Nat
  | [] => 0
  | v :: vs => (vs.length + 1) * v.toNat + weighted vs

def adlerA (bytes : List Byte) : Nat := (1 + (bytes.map BitVec.toNat).sum) % 65521

def adlerB (bytes : List Byte) : Nat := (weighted bytes + bytes.length) % 65521

def adler32 (bytes : List Byte) : Nat := adlerB bytes * 65536 + adlerA bytes

/-- The sums carried along, a byte at a time. -/
def sumStep (s : Nat × Nat) (v : Byte) : Nat × Nat :=
  let a := (s.1 + v.toNat) % 65521
  (a, (s.2 + a) % 65521)

theorem foldl_sumStep (bytes : List Byte) (a b : Nat) :
    bytes.foldl sumStep (a % 65521, b % 65521) =
      ((a + (bytes.map BitVec.toNat).sum) % 65521,
        (b + bytes.length * a + weighted bytes) % 65521) := by
  induction bytes generalizing a b with
  | nil => simp [weighted]
  | cons v vs ih =>
    have hstep : sumStep (a % 65521, b % 65521) v =
        ((a + v.toNat) % 65521, (b + (a + v.toNat)) % 65521) := by
      simp [sumStep, Nat.add_mod]
    have hweight : b + (a + v.toNat) + vs.length * (a + v.toNat) + weighted vs =
        b + (vs.length + 1) * a + ((vs.length + 1) * v.toNat + weighted vs) := by
      rw [Nat.mul_add, Nat.add_mul, Nat.add_mul]
      omega
    rw [List.foldl_cons, hstep, ih, hweight, List.map_cons, List.sum_cons, List.length_cons,
      weighted, Nat.add_assoc a]

/-- The carried sums are the checksum's. -/
theorem sums_adler (bytes : List Byte) :
    bytes.foldl sumStep (1, 0) = (adlerA bytes, adlerB bytes) := by
  have hrun := foldl_sumStep bytes 1 0
  rw [Nat.mul_one, Nat.zero_add, Nat.add_comm bytes.length] at hrun
  exact hrun

theorem adlerA_lt (bytes : List Byte) : adlerA bytes < 65536 :=
  Nat.lt_trans (Nat.mod_lt _ (by decide)) (by decide)

theorem adlerB_lt (bytes : List Byte) : adlerB bytes < 65536 :=
  Nat.lt_trans (Nat.mod_lt _ (by decide)) (by decide)

structure Block where
  final : Bool
  data : List Byte

/-- One stored block off the front: its last-block bit, its length and the length's complement. -/
def readBlock : List Byte → Option (Block × List Byte)
  | header :: l0 :: l1 :: n0 :: n1 :: rest =>
    let len := l0.toNat + 256 * l1.toNat
    if header.toNat / 2 % 4 ≠ 0 then none
    else if n0 ≠ ~~~l0 ∨ n1 ≠ ~~~l1 then none
    else if rest.length < len then none
    else some (⟨header.getLsbD 0, rest.take len⟩, rest.drop len)
  | _ => none

/-- Blocks up to the one marked last, and what follows it. -/
def readBlocks : Nat → List Byte → Option (List Block × List Byte)
  | 0, _ => none
  | n + 1, s =>
    match readBlock s with
    | none => none
    | some (block, rest) =>
      if block.final then some ([block], rest)
      else match readBlocks n rest with
        | none => none
        | some (blocks, rest) => some (block :: blocks, rest)

def inflated (blocks : List Block) : List Byte := blocks.flatMap Block.data

/-- Big-endian. -/
def value (a b c d : Byte) : Nat :=
  ((a.toNat * 256 + b.toNat) * 256 + c.toNat) * 256 + d.toNat

/-- The two header bytes, blocks, and the checksum with nothing behind it. -/
def readStream : List Byte → Option (List Block)
  | cmf :: flg :: s =>
    if cmf.toNat % 16 ≠ 8 ∨ 7 < cmf.toNat / 16 ∨ (cmf.toNat * 256 + flg.toNat) % 31 ≠ 0 ∨
        flg.getLsbD 5 then none
    else match readBlocks s.length s with
      | some (blocks, [a, b, c, d]) =>
        if value a b c d = adler32 (inflated blocks) then some blocks else none
      | _ => none
  | _ => none

/-- Only the block that ends the stream is marked last. -/
def EndsOnce (blocks : List Block) : Prop :=
  ∃ front last, blocks = front ++ [last] ∧ last.final = true ∧ ∀ b ∈ front, b.final = false

def writeBlock (block : Block) : List Byte :=
  let len := BitVec.ofNat 16 block.data.length
  (BitVec.ofBool block.final).setWidth 8 :: len.setWidth 8 :: (len >>> 8).setWidth 8 ::
    ~~~(len.setWidth 8) :: ~~~((len >>> 8).setWidth 8) :: block.data

theorem length_writeBlock (block : Block) :
    (writeBlock block).length = block.data.length + 5 := by
  simp [writeBlock]

/-- A block written is the block read. -/
theorem readBlock_write {block : Block} (h : block.data.length < 65536) (rest : List Byte) :
    readBlock (writeBlock block ++ rest) = some (block, rest) := by
  have hlen : ((BitVec.ofNat 16 block.data.length).setWidth 8).toNat +
      256 * ((BitVec.ofNat 16 block.data.length >>> 8).setWidth 8).toNat =
        block.data.length := by
    rw [BitVec.toNat_setWidth, BitVec.toNat_setWidth, BitVec.toNat_ushiftRight,
      BitVec.toNat_ofNat, Nat.mod_eq_of_lt h, Nat.shiftRight_eq_div_pow]
    omega
  have htype : ((BitVec.ofBool block.final).setWidth 8).toNat / 2 % 4 = 0 := by
    cases block.final <;> decide
  have hfinal : ((BitVec.ofBool block.final).setWidth 8).getLsbD 0 = block.final := by
    cases block.final <;> decide
  have hroom : ¬ (block.data ++ rest).length < block.data.length := by simp
  simp only [writeBlock, List.cons_append, readBlock, hlen, htype, hfinal, ne_eq, not_true,
    or_self, if_false, if_neg hroom, List.take_left, List.drop_left]

theorem readBlock_append {s rest : List Byte} {block : Block}
    (h : readBlock s = some (block, rest)) (t : List Byte) :
    readBlock (s ++ t) = some (block, rest ++ t) := by
  match s, h with
  | header :: l0 :: l1 :: n0 :: n1 :: s, h =>
    simp only [List.cons_append, readBlock] at h ⊢
    split_ifs at h with htype hcheck hroom
    cases h
    have hlen : l0.toNat + 256 * l1.toNat ≤ s.length := Nat.le_of_not_lt hroom
    have hroom' : ¬ (s ++ t).length < l0.toNat + 256 * l1.toNat := by
      rw [List.length_append]
      omega
    rw [if_neg htype, if_neg hcheck, if_neg hroom', List.take_append_of_le_length hlen,
      List.drop_append_of_le_length hlen]

/-- More behind the stream, and more fuel, change nothing but what is left. -/
theorem readBlocks_append {n : Nat} {s rest : List Byte} {blocks : List Block}
    (h : readBlocks n s = some (blocks, rest)) (k : Nat) (t : List Byte) :
    readBlocks (n + k) (s ++ t) = some (blocks, rest ++ t) := by
  induction n generalizing s blocks with
  | zero => simp [readBlocks] at h
  | succ n ih =>
    rw [Nat.add_right_comm, readBlocks]
    rw [readBlocks] at h
    cases hread : readBlock s with
    | none => simp [hread] at h
    | some got =>
      obtain ⟨block, tail⟩ := got
      simp only [hread] at h
      rw [readBlock_append hread t]
      dsimp only
      by_cases hfinal : block.final = true
      · rw [if_pos hfinal] at h ⊢
        cases h
        rfl
      · rw [if_neg hfinal] at h ⊢
        cases hmore : readBlocks n tail with
        | none => simp [hmore] at h
        | some more =>
          simp only [hmore, Option.some.injEq, Prod.mk.injEq] at h
          obtain ⟨rfl, rfl⟩ := h
          rw [ih hmore]

theorem readBlocks_cons {block : Block} (hsize : block.data.length < 65536) (n : Nat)
    (rest : List Byte) (hfinal : block.final = false) {blocks : List Block} {tail : List Byte}
    (h : readBlocks n rest = some (blocks, tail)) :
    readBlocks (n + 1) (writeBlock block ++ rest) = some (block :: blocks, tail) := by
  rw [readBlocks, readBlock_write hsize]
  simp [hfinal, h]

theorem readBlocks_final {block : Block} (hsize : block.data.length < 65536) (n : Nat)
    (rest : List Byte) (hfinal : block.final = true) :
    readBlocks (n + 1) (writeBlock block ++ rest) = some ([block], rest) := by
  rw [readBlocks, readBlock_write hsize]
  simp [hfinal]

theorem readBlocks_endsOnce {n : Nat} {s rest : List Byte} {blocks : List Block}
    (h : readBlocks n s = some (blocks, rest)) : EndsOnce blocks := by
  induction n generalizing s blocks with
  | zero => simp [readBlocks] at h
  | succ n ih =>
    rw [readBlocks] at h
    cases hread : readBlock s with
    | none => simp [hread] at h
    | some got =>
      obtain ⟨block, tail⟩ := got
      simp only [hread] at h
      by_cases hfinal : block.final = true
      · rw [if_pos hfinal] at h
        cases h
        exact ⟨[], block, rfl, hfinal, by simp⟩
      · rw [if_neg hfinal] at h
        cases hmore : readBlocks n tail with
        | none => simp [hmore] at h
        | some more =>
          simp only [hmore, Option.some.injEq, Prod.mk.injEq] at h
          obtain ⟨rfl, rfl⟩ := h
          obtain ⟨front, last, hblocks, hlast, hfront⟩ := ih hmore
          refine ⟨block :: front, last, by rw [hblocks, List.cons_append], hlast, ?_⟩
          intro b hb
          rcases List.mem_cons.mp hb with rfl | hb
          · exact Bool.eq_false_iff.mpr hfinal
          · exact hfront b hb

/-- What a read stream is made of. -/
theorem readStream_some {s : List Byte} {blocks : List Block}
    (h : readStream s = some blocks) :
    ∃ cmf flg body a b c d, s = cmf :: flg :: body ∧
      readBlocks body.length body = some (blocks, [a, b, c, d]) := by
  match s, h with
  | cmf :: flg :: body, h =>
    rw [readStream] at h
    split_ifs at h with hheader
    split at h
    next found a b c d hread =>
      split_ifs at h
      cases h
      exact ⟨cmf, flg, body, a, b, c, d, rfl, hread⟩
    next => cases h

theorem readStream_endsOnce {s : List Byte} {blocks : List Block}
    (h : readStream s = some blocks) : EndsOnce blocks := by
  obtain ⟨cmf, flg, body, a, b, c, d, rfl, hread⟩ := readStream_some h
  exact readBlocks_endsOnce hread

/-- A stream cut short is not a stream. -/
theorem readStream_cut {s t : List Byte} {blocks : List Block}
    (h : readStream (s ++ t) = some blocks) (ht : t ≠ []) : readStream s = none := by
  cases hcut : readStream s with
  | none => rfl
  | some found =>
    obtain ⟨cmf, flg, body, a, b, c, d, rfl, hread⟩ := readStream_some hcut
    obtain ⟨cmf', flg', whole, a', b', c', d', hwhole, hread'⟩ := readStream_some h
    simp only [List.cons_append, List.cons.injEq] at hwhole
    obtain ⟨rfl, rfl, rfl⟩ := hwhole
    have hmore := readBlocks_append hread t.length t
    rw [List.length_append, hmore, Option.some.injEq, Prod.mk.injEq] at hread'
    have hleft := congrArg List.length hread'.2
    have hsome := List.length_pos_of_ne_nil ht
    simp only [List.length_append, List.length_cons, List.length_nil] at hleft
    omega

/-- Header, blocks, checksum: read back. -/
theorem readStream_made {body : List Byte} {blocks : List Block} {a b c d : Byte} {n : Nat}
    (hn : n ≤ body.length + 4) (hread : readBlocks n (body ++ [a, b, c, d]) =
      some (blocks, [a, b, c, d])) (hsum : value a b c d = adler32 (inflated blocks)) :
    readStream (0x78#8 :: 0x01#8 :: (body ++ [a, b, c, d])) = some blocks := by
  have hfuel : (body ++ [a, b, c, d]).length = n + (body.length + 4 - n) := by
    simp only [List.length_append, List.length_cons, List.length_nil]
    omega
  have hall := readBlocks_append hread (body.length + 4 - n) []
  rw [List.append_nil, List.append_nil, ← hfuel] at hall
  rw [readStream, if_neg (by decide), hall]
  exact if_pos hsum

end CtRecomp.Zlib
