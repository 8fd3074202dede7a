import CtRecomp.PngFormat

namespace CtRecomp

open Crc (divide crc32 feedByte)
open Zlib (readBlocks readStream writeBlock inflated sumStep adler32)
open PngFormat

def crcPolynomial : BitVec 32 := 0xEDB88320

/-- The table's entry for `k`. The source fills the table at the first call. -/
def crcTable (k : BitVec 32) : BitVec 32 :=
  (List.range 8).foldl
    (fun v _ => if v &&& 1 = 1 then crcPolynomial ^^^ (v >>> 1) else v >>> 1) k

def crc (c : BitVec 32) (p : List (BitVec 8)) : BitVec 32 :=
  p.foldl (fun c v => crcTable ((c ^^^ v.setWidth 32) &&& 0xFF#32) ^^^ (c >>> 8)) c

def be32 (v : BitVec 32) : List (BitVec 8) :=
  [(v >>> 24).setWidth 8, (v >>> 16).setWidth 8, (v >>> 8).setWidth 8, v.setWidth 8]

/-- What is written for `n` bytes of `data`. -/
def chunk (type data : List (BitVec 8)) (n : BitVec 32) : List (BitVec 8) :=
  let c := crc 0xFFFFFFFF type
  let c := crc c (data.take n.toNat) ^^^ 0xFFFFFFFF
  be32 n ++ type ++ data.take n.toNat ++ be32 c

/-- `w` pixels from `s` on, blue first in the buffer. -/
def rowBytes (bgrx : Nat → BitVec 8) : Nat → Nat → List (BitVec 8)
  | 0, _ => []
  | w + 1, s => bgrx (s + 2) :: bgrx (s + 1) :: bgrx s :: rowBytes bgrx w (s + 4)

/-- Filter byte 0, then RGB. -/
def scanline (bgrx : Nat → BitVec 8) (w y : Nat) : List (BitVec 8) :=
  0 :: rowBytes bgrx w (y * w * 4)

def rawBytes (bgrx : Nat → BitVec 8) (w h : Nat) : List (BitVec 8) :=
  (List.range h).flatMap (scanline bgrx w)

def blockLimit : Nat := 65535

/-- The five bytes before `len` stored ones; the lengths are of the host's 64 bits. -/
def blockHeader (last : Bool) (len : Nat) : List (BitVec 8) :=
  let n := BitVec.ofNat 64 len
  [if last then 1 else 0, n.setWidth 8, (n >>> 8).setWidth 8, (~~~n).setWidth 8,
    ((~~~n) >>> 8).setWidth 8]

structure Adler where
  a : Nat
  b : Nat
deriving DecidableEq

def Adler.add (s : Adler) (v : BitVec 8) : Adler :=
  let a := (s.a + v.toNat) % 65521
  { a := a, b := (s.b + a) % 65521 }

/-- The loop over the blocks of what is left of `raw`: the bytes it puts in `z`, and the sums. -/
def storeBlocks (s : Adler) (raw : List (BitVec 8)) : List (BitVec 8) × Adler :=
  if raw.length = 0 then ([], s)
  else
    let len := if raw.length < blockLimit then raw.length else blockLimit
    let rest := storeBlocks ((raw.take len).foldl Adler.add s) (raw.drop len)
    (blockHeader (len = raw.length) len ++ raw.take len ++ rest.1, rest.2)
termination_by raw.length
decreasing_by
  rw [List.length_drop]
  unfold blockLimit at *
  split <;> omega

/-- `z`, up to `zn`. -/
def zlibStream (raw : List (BitVec 8)) : List (BitVec 8) :=
  let stored := storeBlocks { a := 1, b := 0 } raw
  let sum := BitVec.ofNat 32 stored.2.b <<< 16 ||| BitVec.ofNat 32 stored.2.a
  0x78#8 :: 0x01#8 :: (stored.1 ++ be32 sum)

def sig : List (BitVec 8) := [0x89, 0x50, 0x4E, 0x47, 0x0D, 0x0A, 0x1A, 0x0A]

def ihdr (w h : Nat) : List (BitVec 8) :=
  be32 (BitVec.ofNat 32 w) ++ be32 (BitVec.ofNat 32 h) ++ [8, 2, 0, 0, 0]

/-- The bytes of the file, where the buffers are allocated and every write goes through. -/
def pngWriteBgrx (bgrx : Nat → BitVec 8) (w h : Nat) : List (BitVec 8) :=
  let z := zlibStream (rawBytes bgrx w h)
  sig ++ chunk [0x49, 0x48, 0x44, 0x52] (ihdr w h) 13 ++
    chunk [0x49, 0x44, 0x41, 0x54] z (BitVec.ofNat 32 z.length) ++
    chunk [0x49, 0x45, 0x4E, 0x44] [] 0

/-- `raw_n`, and the bytes allocated for `z`. -/
def rawSize (w h : Nat) : Nat := (w * 3 + 1) * h

def zlibSize (w h : Nat) : Nat :=
  2 + rawSize w h + (rawSize w h + 65534) / 65535 * 5 + 4

/-- The sizes do not wrap in 64 bits. -/
theorem zlibSize_lt {w h : Nat} (hw : w < 2 ^ 31) (hh : h < 2 ^ 31) :
    zlibSize w h < 2 ^ 64 := by
  have hraw : rawSize w h ≤ (2 ^ 31 * 3) * 2 ^ 31 :=
    Nat.mul_le_mul (by omega) (Nat.le_of_lt hh)
  unfold zlibSize
  omega

theorem crcTable_divide (k : BitVec 32) : crcTable k = divide^[8] k := by
  have hstep (v : BitVec 32) :
      (if v &&& 1 = 1 then crcPolynomial ^^^ (v >>> 1) else v >>> 1) = divide v := by
    have hlow : v &&& 1 = (BitVec.ofBool (v.getLsbD 0)).setWidth 32 := by
      refine BitVec.eq_of_getLsbD_eq fun k hk => ?_
      cases k with
      | zero => simp
      | succ k => simp
    rw [hlow, divide]
    cases v.getLsbD 0 with
    | false => rfl
    | true => rfl
  unfold crcTable
  simp only [hstep, List.range, List.range.loop, List.foldl, Function.iterate_succ,
    Function.iterate_zero, Function.comp, id]

/-- The loop over the table is the division bit by bit. -/
theorem crc_foldl (c : BitVec 32) (p : List (BitVec 8)) : crc c p = p.foldl feedByte c := by
  unfold crc
  simp only [crcTable_divide, ← Crc.feedByte_table]

theorem chunk_write {type data : List (BitVec 8)} {n : BitVec 32} :
    chunk type data n = writeChunk n type (data.take n.toNat) := by
  have hnot (c : BitVec 32) : c ^^^ 0xFFFFFFFF = ~~~c := BitVec.xor_allOnes
  simp only [chunk, writeChunk, be32, bytes32, crc_foldl, ← List.foldl_append, hnot, crc32]

section

variable (bgrx : Nat → BitVec 8)

theorem length_rowBytes (w s : Nat) : (rowBytes bgrx w s).length = w * 3 := by
  induction w generalizing s with
  | zero => simp [rowBytes]
  | succ w ih =>
    simp only [rowBytes, List.length_cons, ih]
    omega

theorem length_scanline (w y : Nat) : (scanline bgrx w y).length = w * 3 + 1 := by
  rw [scanline, List.length_cons, length_rowBytes]

theorem rawBytes_succ (w h : Nat) :
    rawBytes bgrx w (h + 1) = rawBytes bgrx w h ++ scanline bgrx w h := by
  simp [rawBytes, List.range_succ]

theorem length_rawBytes (w h : Nat) : (rawBytes bgrx w h).length = rawSize w h := by
  induction h with
  | zero => rfl
  | succ h ih =>
    rw [rawBytes_succ, List.length_append, ih, length_scanline, rawSize, rawSize, Nat.mul_add,
      Nat.mul_one]

/-- Red, green and blue of pixel `x`. -/
theorem rowBytes_pixel {w x c : Nat} (hx : x < w) (hc : c < 3) (s : Nat) :
    (rowBytes bgrx w s)[x * 3 + c]? = some (bgrx (s + x * 4 + (2 - c))) := by
  induction w generalizing x s with
  | zero => omega
  | succ w ih =>
    cases x with
    | zero =>
      rcases c with _ | _ | _ | c
      · simp [rowBytes]
      · simp [rowBytes]
      · simp [rowBytes]
      · omega
    | succ x =>
      have hat : (x + 1) * 3 + c = x * 3 + c + 3 := by omega
      have hfrom : s + 4 + x * 4 = s + (x + 1) * 4 := by omega
      rw [rowBytes, hat, List.getElem?_cons_succ, List.getElem?_cons_succ,
        List.getElem?_cons_succ, ih (Nat.lt_of_succ_lt_succ hx), hfrom]

theorem rawBytes_line {w h y k : Nat} (hy : y < h) (hk : k < w * 3 + 1) :
    (rawBytes bgrx w h)[y * (w * 3 + 1) + k]? = (scanline bgrx w y)[k]? := by
  induction h with
  | zero => omega
  | succ h ih =>
    have hsize : (rawBytes bgrx w h).length = h * (w * 3 + 1) := by
      rw [length_rawBytes, rawSize, Nat.mul_comm]
    rw [rawBytes_succ]
    rcases Nat.lt_succ_iff_lt_or_eq.mp hy with hlt | rfl
    · have hin : y * (w * 3 + 1) + k < (rawBytes bgrx w h).length := by
        have hnext : (y + 1) * (w * 3 + 1) ≤ h * (w * 3 + 1) := Nat.mul_le_mul_right _ hlt
        rw [Nat.succ_mul] at hnext
        omega
      rw [List.getElem?_append_left hin, ih hlt]
    · rw [List.getElem?_append_right (by omega), hsize, Nat.add_sub_cancel_left]

end

/-- Line by line: filter byte 0, then the red, green and blue of each pixel of the buffer. -/
structure Scanlines (bgrx : Nat → BitVec 8) (w h : Nat) (lines : List (BitVec 8)) : Prop where
  size : lines.length = h * (w * 3 + 1)
  filter : ∀ y < h, lines[y * (w * 3 + 1)]? = some 0
  pixel : ∀ y < h, ∀ x < w, ∀ c < 3,
    lines[y * (w * 3 + 1) + (1 + x * 3 + c)]? = some (bgrx ((y * w + x) * 4 + (2 - c)))

theorem rawBytes_scanlines (bgrx : Nat → BitVec 8) (w h : Nat) :
    Scanlines bgrx w h (rawBytes bgrx w h) where
  size := by rw [length_rawBytes, rawSize, Nat.mul_comm]
  filter := fun y hy => by
    have hline := rawBytes_line bgrx hy (Nat.succ_pos (w * 3))
    rw [Nat.add_zero] at hline
    rw [hline]
    rfl
  pixel := fun y hy x hx c hc => by
    have hat : 1 + x * 3 + c = x * 3 + c + 1 := by omega
    have hfrom : y * w * 4 + x * 4 = (y * w + x) * 4 := by rw [Nat.add_mul]
    rw [rawBytes_line bgrx hy (by omega), scanline, hat, List.getElem?_cons_succ,
      rowBytes_pixel bgrx hx hc, hfrom]

/-- The header's complement bytes are those of the length's low sixteen bits. -/
theorem blockHeader_write (last : Bool) {data : List (BitVec 8)} (h : data.length < 65536) :
    blockHeader last data.length ++ data = writeBlock ⟨last, data⟩ := by
  have hlow : (BitVec.ofNat 64 data.length).setWidth 8 =
      (BitVec.ofNat 16 data.length).setWidth 8 := by
    refine BitVec.eq_of_toNat_eq ?_
    simp only [BitVec.toNat_setWidth, BitVec.toNat_ofNat]
    omega
  have hhigh : (BitVec.ofNat 64 data.length >>> 8).setWidth 8 =
      (BitVec.ofNat 16 data.length >>> 8).setWidth 8 := by
    refine BitVec.eq_of_toNat_eq ?_
    simp only [BitVec.toNat_setWidth, BitVec.toNat_ushiftRight, BitVec.toNat_ofNat,
      Nat.shiftRight_eq_div_pow]
    omega
  have hnotLow (n : BitVec 64) : (~~~n).setWidth 8 = ~~~(n.setWidth 8) := by
    refine BitVec.eq_of_getLsbD_eq fun k hk => ?_
    simp only [BitVec.getLsbD_setWidth, BitVec.getLsbD_not]
    simp [hk]
    omega
  have hnotHigh (n : BitVec 64) : ((~~~n) >>> 8).setWidth 8 = ~~~((n >>> 8).setWidth 8) := by
    refine BitVec.eq_of_getLsbD_eq fun k hk => ?_
    simp only [BitVec.getLsbD_setWidth, BitVec.getLsbD_not, BitVec.getLsbD_ushiftRight]
    simp [hk]
    omega
  have hlast : (if last then 1 else 0 : BitVec 8) = (BitVec.ofBool last).setWidth 8 := by
    cases last <;> rfl
  simp only [blockHeader, writeBlock, List.cons_append, List.nil_append, hlast, hnotLow,
    hnotHigh, hlow, hhigh]

theorem add_sumStep (s : Adler) (v : BitVec 8) :
    ((s.add v).a, (s.add v).b) = sumStep (s.a, s.b) v := rfl

theorem foldl_add (raw : List (BitVec 8)) (s : Adler) :
    ((raw.foldl Adler.add s).a, (raw.foldl Adler.add s).b) = raw.foldl sumStep (s.a, s.b) := by
  induction raw generalizing s with
  | nil => rfl
  | cons v vs ih => rw [List.foldl_cons, List.foldl_cons, ih, add_sumStep]

/-- Blocks to the end of the bytes, the last one marked, each five bytes longer than its part. -/
structure Stored (raw : List (BitVec 8)) (blocks : List Zlib.Block) (z : List (BitVec 8)) :
    Prop where
  whole : inflated blocks = raw
  size : z.length = raw.length + (raw.length + 65534) / 65535 * 5
  reads : ∀ rest, readBlocks blocks.length (z ++ rest) = some (blocks, rest)
  count : blocks.length ≤ z.length

theorem storeBlocks_last {raw : List (BitVec 8)} (s : Adler) (hraw : raw ≠ [])
    (hlen : raw.length ≤ blockLimit) :
    storeBlocks s raw = (writeBlock ⟨true, raw⟩, raw.foldl Adler.add s) := by
  have hpos := List.length_pos_of_ne_nil hraw
  have hall : (if raw.length < blockLimit then raw.length else blockLimit) = raw.length := by
    split <;> omega
  have hnil : storeBlocks (raw.foldl Adler.add s) [] = ([], raw.foldl Adler.add s) := by
    rw [storeBlocks]
    rfl
  have hheader := blockHeader_write true (Nat.lt_of_le_of_lt hlen (by decide) : raw.length < 65536)
  rw [storeBlocks, if_neg (Nat.ne_of_gt hpos), hall]
  simp only [List.take_length, List.drop_length, hnil, decide_true, List.append_nil, hheader]

theorem storeBlocks_more {raw : List (BitVec 8)} (s : Adler) (hlen : blockLimit < raw.length) :
    storeBlocks s raw =
      (writeBlock ⟨false, raw.take blockLimit⟩ ++
        (storeBlocks ((raw.take blockLimit).foldl Adler.add s) (raw.drop blockLimit)).1,
        (storeBlocks ((raw.take blockLimit).foldl Adler.add s) (raw.drop blockLimit)).2) := by
  have hpart : (if raw.length < blockLimit then raw.length else blockLimit) = blockLimit :=
    if_neg (Nat.not_lt.mpr (Nat.le_of_lt hlen))
  have hsize : (raw.take blockLimit).length = blockLimit := by
    rw [List.length_take]
    omega
  have hheader := blockHeader_write false
    (by rw [hsize]; decide : (raw.take blockLimit).length < 65536)
  rw [hsize] at hheader
  have hsome : raw.length ≠ 0 := by omega
  have hnot : decide (blockLimit = raw.length) = false :=
    decide_eq_false (Nat.ne_of_lt hlen)
  rw [storeBlocks, if_neg hsome, hpart]
  simp only [hnot, hheader]

theorem storeBlocks_stored {raw : List (BitVec 8)} (hraw : raw ≠ []) (s : Adler) :
    ∃ blocks, Stored raw blocks (storeBlocks s raw).1 ∧
      (storeBlocks s raw).2 = raw.foldl Adler.add s := by
  induction hn : raw.length using Nat.strong_induction_on generalizing raw s with
  | _ n ih =>
  by_cases hlen : raw.length ≤ blockLimit
  · refine ⟨[⟨true, raw⟩], ?_, by rw [storeBlocks_last s hraw hlen]⟩
    have hpos := List.length_pos_of_ne_nil hraw
    rw [storeBlocks_last s hraw hlen]
    exact {
      whole := List.append_nil raw
      size := by
        rw [Zlib.length_writeBlock]
        unfold blockLimit at hlen
        dsimp only
        omega
      reads := fun rest =>
        Zlib.readBlocks_final (Nat.lt_of_le_of_lt hlen (by decide)) 0 rest rfl
      count := by
        rw [Zlib.length_writeBlock, List.length_singleton]
        omega }
  · have hmore := Nat.lt_of_not_le hlen
    have hdrop : (raw.drop blockLimit).length = raw.length - blockLimit := List.length_drop
    have hleft : raw.drop blockLimit ≠ [] := by
      intro hempty
      rw [hempty, List.length_nil] at hdrop
      omega
    have hfewer : (raw.drop blockLimit).length < n := by
      unfold blockLimit at *
      omega
    have hsize : (raw.take blockLimit).length = blockLimit := by
      rw [List.length_take]
      omega
    obtain ⟨blocks, hstored, hsums⟩ :=
      ih _ hfewer hleft ((raw.take blockLimit).foldl Adler.add s) rfl
    rw [storeBlocks_more s hmore]
    refine ⟨⟨false, raw.take blockLimit⟩ :: blocks, ?_, ?_⟩
    · exact {
        whole := by
          have hrest : blocks.flatMap Zlib.Block.data = raw.drop blockLimit := hstored.whole
          rw [inflated, List.flatMap_cons, hrest]
          exact List.take_append_drop blockLimit raw
        size := by
          have hz := hstored.size
          rw [List.length_append, Zlib.length_writeBlock, hz, hsize, hdrop]
          unfold blockLimit at *
          omega
        reads := fun rest => by
          rw [List.append_assoc, List.length_cons]
          refine Zlib.readBlocks_cons ?_ _ _ rfl (hstored.reads rest)
          rw [hsize]
          decide
        count := by
          have hcount := hstored.count
          rw [List.length_cons, List.length_append, Zlib.length_writeBlock]
          omega }
    · rw [hsums, ← List.foldl_append, List.take_append_drop]

/-- `b << 16 | a` is the checksum. -/
theorem sum_adler (raw : List (BitVec 8)) :
    (BitVec.ofNat 32 (raw.foldl Adler.add { a := 1, b := 0 }).b <<< 16 |||
      BitVec.ofNat 32 (raw.foldl Adler.add { a := 1, b := 0 }).a).toNat = adler32 raw := by
  have hsums := foldl_add raw { a := 1, b := 0 }
  rw [Zlib.sums_adler, Prod.mk.injEq] at hsums
  have ha := Zlib.adlerA_lt raw
  have hb := Zlib.adlerB_lt raw
  have hhigh : (Zlib.adlerB raw) <<< 16 < 2 ^ 32 := by
    rw [Nat.shiftLeft_eq]
    omega
  rw [hsums.1, hsums.2, BitVec.toNat_or, BitVec.toNat_shiftLeft, BitVec.toNat_ofNat,
    BitVec.toNat_ofNat, Nat.mod_eq_of_lt (Nat.lt_trans hb (by decide)),
    Nat.mod_eq_of_lt (Nat.lt_trans ha (by decide)), Nat.mod_eq_of_lt hhigh,
    ← Nat.shiftLeft_add_eq_or_of_lt ha, Nat.shiftLeft_eq]
  rfl

theorem rawBytes_ne_nil (bgrx : Nat → BitVec 8) {w h : Nat} (hh : 1 ≤ h) :
    rawBytes bgrx w h ≠ [] := by
  refine List.ne_nil_of_length_pos ?_
  rw [length_rawBytes, rawSize]
  exact Nat.mul_pos (Nat.succ_pos _) hh

/-- The stream is read back, and fills what is allocated for it. -/
theorem zlibStream_read {raw : List (BitVec 8)} (hraw : raw ≠ []) :
    (∃ blocks, readStream (zlibStream raw) = some blocks ∧ inflated blocks = raw) ∧
      (zlibStream raw).length = 2 + raw.length + (raw.length + 65534) / 65535 * 5 + 4 := by
  obtain ⟨blocks, hstored, hsums⟩ := storeBlocks_stored hraw { a := 1, b := 0 }
  constructor
  · refine ⟨blocks, ?_, hstored.whole⟩
    simp only [zlibStream, hsums]
    refine Zlib.readStream_made (Nat.le_add_right_of_le hstored.count) (hstored.reads _) ?_
    rw [value_bytes32, sum_adler, hstored.whole]
  · have hsize := hstored.size
    simp only [zlibStream, List.length_cons, List.length_append, be32, List.length_nil]
    omega

theorem readHeader_ihdr {w h : Nat} (hw : 1 ≤ w ∧ w < 2 ^ 31) (hh : 1 ≤ h ∧ h < 2 ^ 31) :
    readHeader (ihdr w h) = some (w, h) := by
  have hsize {n : Nat} (hn : n < 2 ^ 31) : (BitVec.ofNat 32 n).toNat = n := by
    rw [BitVec.toNat_ofNat, Nat.mod_eq_of_lt (Nat.lt_trans hn (by decide))]
  simp only [ihdr, be32, List.cons_append, List.nil_append, readHeader, value_bytes32,
    hsize hw.2, hsize hh.2]
  exact if_pos ⟨hw.1, hw.2, hh.1, hh.2, trivial, trivial, trivial, trivial, trivial⟩

/-- The file is its signature, a header chunk that reads back, and the rest. -/
theorem readPng_file (w h : Nat) (n : BitVec 32) (data : List (BitVec 8)) :
    ∃ k, 3 ≤ k ∧
      readPng (sig ++ chunk nameIhdr (ihdr w h) 13 ++ chunk nameIdat data n ++
        chunk nameIend [] 0) =
      match readChunks k (chunk nameIdat data n ++ chunk nameIend [] 0) with
      | none => none
      | some chunks => readPicture (⟨nameIhdr, ihdr w h⟩ :: chunks) := by
  have hheader : (ihdr w h).length = (13 : BitVec 32).toNat := rfl
  have htake : (ihdr w h).take (13 : BitVec 32).toNat = ihdr w h := by
    rw [← hheader, List.take_length]
  have hfirst : (chunk nameIhdr (ihdr w h) 13).length = 25 := by
    rw [chunk_write, htake, length_writeChunk _ _ _ rfl]
    rfl
  generalize hrest : chunk nameIdat data n ++ chunk nameIend [] 0 = rest
  have hfile : sig ++ chunk nameIhdr (ihdr w h) 13 ++ chunk nameIdat data n ++
      chunk nameIend [] 0 = sig ++ (chunk nameIhdr (ihdr w h) 13 ++ rest) := by
    rw [← hrest]
    simp only [List.append_assoc]
  have hlength : (sig ++ (chunk nameIhdr (ihdr w h) 13 ++ rest)).length =
      rest.length + 32 + 1 := by
    rw [List.length_append, List.length_append, hfirst]
    have hsig : sig.length = 8 := rfl
    omega
  have hread := readChunk_write (show nameIhdr.length = 4 from rfl) hheader (by decide) rest
  refine ⟨rest.length + 32, by omega, ?_⟩
  rw [hfile, readPng, hlength, List.take_left' (by rfl), if_pos (by rfl),
    List.drop_left' (by rfl), chunk_write, htake, readChunks_cons hread]
  cases readChunks (rest.length + 32) rest with
  | none => rfl
  | some chunks => rfl

/-- A data chunk of a length that readers take, holding so much of the stream. -/
theorem readPng_idat {w h : Nat} (hw : 1 ≤ w ∧ w < 2 ^ 31) (hh : 1 ≤ h ∧ h < 2 ^ 31)
    {n : BitVec 32} {data : List (BitVec 8)} (hn : n.toNat < 2 ^ 31)
    (hdata : n.toNat ≤ data.length) :
    readPng (sig ++ chunk nameIhdr (ihdr w h) 13 ++ chunk nameIdat data n ++
        chunk nameIend [] 0) =
      match readStream (data.take n.toNat) with
      | none => none
      | some blocks =>
        if (inflated blocks).length = h * (1 + 3 * w) then some ⟨w, h, blocks⟩ else none := by
  obtain ⟨k, hk, hfile⟩ := readPng_file w h n data
  obtain ⟨k, rfl⟩ := Nat.exists_eq_add_of_le' hk
  have htaken : (data.take n.toNat).length = n.toNat := List.length_take_of_le hdata
  have hidat := readChunk_write (show nameIdat.length = 4 from rfl) htaken hn
    (writeChunk 0 nameIend [])
  have hiend := readChunk_write (n := 0) (show nameIend.length = 4 from rfl)
    (show ([] : List (BitVec 8)).length = _ from rfl) (by decide) []
  rw [List.append_nil] at hiend
  rw [hfile, chunk_write, chunk_write, List.take_nil, readChunks_cons hidat,
    readChunks_cons hiend, readChunks_nil (Nat.succ_pos k)]
  simp only [readPicture, readHeader_ihdr hw hh, List.getLast?_cons_cons,
    List.getLast?_singleton, List.dropLast_cons_cons, List.dropLast_singleton,
    List.flatMap_cons, List.flatMap_nil, List.append_nil, List.all_cons, List.all_nil,
    ne_eq, not_true, or_self, if_false, decide_true, Bool.and_self, Bool.true_eq_false]
  -- the reader's `match` and the one stated above, unless they are one
  all_goals rfl

/-- No reader takes a data chunk that long. -/
theorem readPng_long (w h : Nat) {n : BitVec 32} (data : List (BitVec 8))
    (hn : 2 ^ 31 ≤ n.toNat) :
    readPng (sig ++ chunk nameIhdr (ihdr w h) 13 ++ chunk nameIdat data n ++
        chunk nameIend [] 0) = none := by
  obtain ⟨k, hk, hfile⟩ := readPng_file w h n data
  have hlong := readChunk_long (show nameIdat.length = 4 from rfl) hn (data.take n.toNat)
    (chunk nameIend [] 0)
  have hsome : writeChunk n nameIdat (data.take n.toNat) ++ chunk nameIend [] 0 ≠ [] :=
    List.cons_ne_nil _ _
  rw [hfile, chunk_write, readChunks_none hsome hlong]

/-- A reader takes the file for `w` by `h` pixels, block by block to the only one marked last, and
finds the buffer's scanlines. The stream fills what was allocated for it. -/
structure PngRight (bgrx : Nat → BitVec 8) (w h : Nat) : Prop where
  reads : ∃ blocks, readPng (pngWriteBgrx bgrx w h) = some ⟨w, h, blocks⟩ ∧
    Zlib.EndsOnce blocks ∧ Scanlines bgrx w h (inflated blocks)
  fills : (zlibStream (rawBytes bgrx w h)).length = zlibSize w h

section

variable (bgrx : Nat → BitVec 8) {w h : Nat}

theorem length_zlibStream (hh : 1 ≤ h) :
    (zlibStream (rawBytes bgrx w h)).length = zlibSize w h := by
  rw [(zlibStream_read (rawBytes_ne_nil bgrx hh)).2, length_rawBytes, zlibSize]

theorem pngRight_short (hw : 1 ≤ w ∧ w < 2 ^ 31) (hh : 1 ≤ h ∧ h < 2 ^ 31)
    (hsize : zlibSize w h < 2 ^ 31) : PngRight bgrx w h := by
  obtain ⟨⟨blocks, hread, hwhole⟩, -⟩ := zlibStream_read (rawBytes_ne_nil bgrx (w := w) hh.1)
  have hlength := length_zlibStream bgrx (w := w) hh.1
  have hn : (BitVec.ofNat 32 (zlibStream (rawBytes bgrx w h)).length).toNat =
      (zlibStream (rawBytes bgrx w h)).length := by
    rw [BitVec.toNat_ofNat, Nat.mod_eq_of_lt]
    omega
  have hlines := rawBytes_scanlines bgrx w h
  refine ⟨⟨blocks, ?_, Zlib.readStream_endsOnce hread, hwhole ▸ hlines⟩, hlength⟩
  have hfile := readPng_idat hw hh (by rw [hn, hlength]; exact hsize) (Nat.le_of_eq hn)
  have hpixels : (inflated blocks).length = h * (1 + 3 * w) := by
    rw [hwhole, hlines.size, Nat.add_comm, Nat.mul_comm w]
  rw [hn, List.take_length, hread] at hfile
  exact hfile.trans (if_pos hpixels)

/-- From 2³¹ on the length in the data chunk is one no reader takes, or has lost its top bits and
cuts the stream. -/
theorem not_pngRight_long (hw : 1 ≤ w ∧ w < 2 ^ 31) (hh : 1 ≤ h ∧ h < 2 ^ 31)
    (hsize : 2 ^ 31 ≤ zlibSize w h) : ¬ PngRight bgrx w h := by
  rintro ⟨⟨blocks, hfile, -, -⟩, hlength⟩
  obtain ⟨⟨whole, hread, -⟩, -⟩ := zlibStream_read (rawBytes_ne_nil bgrx (w := w) hh.1)
  generalize hz : zlibStream (rawBytes bgrx w h) = z at hread hlength
  have hn : (BitVec.ofNat 32 z.length).toNat = z.length % 2 ^ 32 := BitVec.toNat_ofNat _ _
  rw [pngWriteBgrx, hz] at hfile
  by_cases hlow : (BitVec.ofNat 32 z.length).toNat < 2 ^ 31
  · have hshort : (BitVec.ofNat 32 z.length).toNat < z.length := by omega
    have hleft : z.drop (BitVec.ofNat 32 z.length).toNat ≠ [] := by
      refine List.ne_nil_of_length_pos ?_
      rw [List.length_drop]
      omega
    rw [← List.take_append_drop (BitVec.ofNat 32 z.length).toNat z] at hread
    have hcut := Zlib.readStream_cut hread hleft
    have hnone := readPng_idat hw hh hlow (Nat.le_of_lt hshort)
    rw [hcut] at hnone
    exact Option.some_ne_none _ (hfile.symm.trans hnone)
  · have hnone := readPng_long w h z (Nat.le_of_not_lt hlow)
    exact Option.some_ne_none _ (hfile.symm.trans hnone)

/-- The file is the picture's exactly while the stream's length is one a chunk can have. -/
theorem pngWriteBgrx_exact (hw : 1 ≤ w ∧ w < 2 ^ 31) (hh : 1 ≤ h ∧ h < 2 ^ 31) :
    PngRight bgrx w h ↔ zlibSize w h < 2 ^ 31 := by
  constructor
  · intro hright
    exact Nat.lt_of_not_le fun hlong => not_pngRight_long bgrx hw hh hlong hright
  · exact pngRight_short bgrx hw hh

end

theorem pngWriteBgrx_exact_pixel :
    PngRight (fun _ => 0) 1 1 ↔ zlibSize 1 1 < 2 ^ 31 :=
  pngWriteBgrx_exact (fun _ => 0) ⟨by decide, by decide⟩ ⟨by decide, by decide⟩

/-- The stream of 40000 by 40000 pixels is longer than 2³²: its chunk holds a tenth of it. -/
theorem pngWriteBgrx_truncated : ¬ PngRight (fun _ => 0) 40000 40000 :=
  not_pngRight_long (fun _ => 0) ⟨by decide, by decide⟩ ⟨by decide, by decide⟩ (by decide)

end CtRecomp
