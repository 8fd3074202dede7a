import CtRecomp.Crc
import CtRecomp.Zlib
import Mathlib.Tactic.NormNum

namespace CtRecomp.PngFormat

/-! A reader of PNG files of 8-bit RGB scanlines: the signature, the header chunk, data chunks
and the end chunk. -/

open Crc (crc32)
open Zlib (readStream)

abbrev Byte := BitVec 8

structure Chunk where
  name : List Byte
  data : List Byte

/-- A chunk off the front: a length below 2³¹, four name bytes, the data, and the CRC of name and
data. -/
def readChunk : List Byte → Option (Chunk × List Byte)
  | l0 :: l1 :: l2 :: l3 :: t0 :: t1 :: t2 :: t3 :: rest =>
    let n := Zlib.value l0 l1 l2 l3
    if 2 ^ 31 ≤ n then none
    else match rest.drop n with
      | c0 :: c1 :: c2 :: c3 :: after =>
        let name := [t0, t1, t2, t3]
        if Zlib.value c0 c1 c2 c3 = (crc32 (name ++ rest.take n)).toNat then
          some (⟨name, rest.take n⟩, after)
        else none
      | _ => none
  | _ => none

def readChunks : Nat → List Byte → Option (List Chunk)
  | 0, _ => none
  | n + 1, s =>
    if s = [] then some []
    else match readChunk s with
      | none => none
      | some (chunk, rest) =>
        match readChunks n rest with
        | none => none
        | some chunks => some (chunk :: chunks)

def signature : List Byte := [0x89, 0x50, 0x4E, 0x47, 0x0D, 0x0A, 0x1A, 0x0A]

def nameIhdr : List Byte := [0x49, 0x48, 0x44, 0x52]

def nameIdat : List Byte := [0x49, 0x44, 0x41, 0x54]

def nameIend : List Byte := [0x49, 0x45, 0x4E, 0x44]

structure Picture where
  width : Nat
  height : Nat
  blocks : List Zlib.Block

/-- Width and height, neither zero nor from 2³¹ on, then depth 8, RGB, and the only compression
and filter methods, not interlaced. -/
def readHeader : List Byte → Option (Nat × Nat)
  | [w0, w1, w2, w3, h0, h1, h2, h3, depth, colour, compression, filter, interlace] =>
    let w := Zlib.value w0 w1 w2 w3
    let h := Zlib.value h0 h1 h2 h3
    if 1 ≤ w ∧ w < 2 ^ 31 ∧ 1 ≤ h ∧ h < 2 ^ 31 ∧ depth = 8 ∧ colour = 2 ∧ compression = 0 ∧
        filter = 0 ∧ interlace = 0 then some (w, h)
    else none
  | _ => none

/-- The data chunks together are one stream of one filter byte and `w` RGB pixels a line. -/
def readPicture : List Chunk → Option Picture
  | header :: rest =>
    if header.name ≠ nameIhdr then none
    else match readHeader header.data, rest.getLast? with
      | some (w, h), some last =>
        if last.name ≠ nameIend ∨ last.data ≠ [] then none
        else if rest.dropLast.all (fun c => c.name = nameIdat) = false then none
        else match readStream (rest.dropLast.flatMap Chunk.data) with
          | none => none
          | some blocks =>
            if (Zlib.inflated blocks).length = h * (1 + 3 * w) then some ⟨w, h, blocks⟩
            else none
      | _, _ => none
  | [] => none

def readPng (s : List Byte) : Option Picture :=
  if s.take 8 = signature then
    match readChunks s.length (s.drop 8) with
    | none => none
    | some chunks => readPicture chunks
  else none

/-- Four bytes, the high one first. -/
def bytes32 (v : BitVec 32) : List Byte :=
  [(v >>> 24).setWidth 8, (v >>> 16).setWidth 8, (v >>> 8).setWidth 8, v.setWidth 8]

theorem value_bytes32 (v : BitVec 32) :
    Zlib.value ((v >>> 24).setWidth 8) ((v >>> 16).setWidth 8) ((v >>> 8).setWidth 8)
      (v.setWidth 8) = v.toNat := by
  have hv := v.isLt
  simp only [Zlib.value, BitVec.toNat_setWidth, BitVec.toNat_ushiftRight, Nat.shiftRight_eq_div_pow]
  norm_num only
  omega

/-- A chunk as written: its length, name, data and check. -/
def writeChunk (n : BitVec 32) (name data : List Byte) : List Byte :=
  bytes32 n ++ name ++ data ++ bytes32 (crc32 (name ++ data))

theorem length_writeChunk (n : BitVec 32) (name data : List Byte) (hname : name.length = 4) :
    (writeChunk n name data).length = data.length + 12 := by
  simp [writeChunk, bytes32, hname]
  omega

theorem readChunk_write {n : BitVec 32} {name data : List Byte} (hname : name.length = 4)
    (hdata : data.length = n.toNat) (hn : n.toNat < 2 ^ 31) (rest : List Byte) :
    readChunk (writeChunk n name data ++ rest) = some (⟨name, data⟩, rest) := by
  match name, hname with
  | [t0, t1, t2, t3], _ =>
    have hdrop : (data ++ (bytes32 (crc32 ([t0, t1, t2, t3] ++ data)) ++ rest)).drop n.toNat =
        bytes32 (crc32 ([t0, t1, t2, t3] ++ data)) ++ rest := List.drop_left' hdata
    have htake : (data ++ (bytes32 (crc32 ([t0, t1, t2, t3] ++ data)) ++ rest)).take n.toNat =
        data := List.take_left' hdata
    simp only [writeChunk, bytes32, List.cons_append, List.nil_append, List.append_assoc,
      readChunk, value_bytes32] at hdrop htake ⊢
    rw [if_neg (Nat.not_le.mpr hn), hdrop, htake]
    simp only [value_bytes32, if_true]

/-- No reader takes a chunk that long. -/
theorem readChunk_long {n : BitVec 32} {name : List Byte} (hname : name.length = 4)
    (hn : 2 ^ 31 ≤ n.toNat) (data rest : List Byte) :
    readChunk (writeChunk n name data ++ rest) = none := by
  match name, hname with
  | [t0, t1, t2, t3], _ =>
    simp only [writeChunk, bytes32, List.cons_append, List.nil_append, List.append_assoc,
      readChunk, value_bytes32, if_pos hn]

theorem readChunks_cons {s rest : List Byte} {chunk : Chunk}
    (h : readChunk s = some (chunk, rest)) (n : Nat) :
    readChunks (n + 1) s = match readChunks n rest with
      | none => none
      | some chunks => some (chunk :: chunks) := by
  have hs : s ≠ [] := by
    intro hempty
    rw [hempty] at h
    cases h
  rw [readChunks, if_neg hs, h]

theorem readChunks_none {s : List Byte} (hs : s ≠ []) (h : readChunk s = none) (n : Nat) :
    readChunks n s = none := by
  cases n with
  | zero => rfl
  | succ n => rw [readChunks, if_neg hs, h]

theorem readChunks_nil {n : Nat} (h : 0 < n) : readChunks n [] = some [] := by
  cases n with
  | zero => exact absurd h (Nat.lt_irrefl 0)
  | succ n => rfl

end CtRecomp.PngFormat
