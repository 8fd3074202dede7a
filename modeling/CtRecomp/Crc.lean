import Mathlib.Logic.Function.Iterate

namespace CtRecomp.Crc

/-! The 32-bit cyclic redundancy check, low bit first. -/

abbrev Byte := BitVec 8

/-- One step of the division: the register moved down a place, less the polynomial where a bit
falls out. -/
def divide (c : BitVec 32) : BitVec 32 :=
  if c.getLsbD 0 then 0xEDB88320 ^^^ (c >>> 1) else c >>> 1

/-- A message bit enters at the low end. -/
def feedBit (c : BitVec 32) (b : Bool) : BitVec 32 :=
  divide (c ^^^ (BitVec.ofBool b).setWidth 32)

def feedBits (v : Byte) : Nat → BitVec 32 → BitVec 32
  | 0, c => c
  | n + 1, c => feedBit (feedBits v n c) (v.getLsbD n)

def feedByte (c : BitVec 32) (v : Byte) : BitVec 32 := feedBits v 8 c

/-- From all ones, and the complement of what is left. -/
def crc32 (bytes : List Byte) : BitVec 32 := ~~~bytes.foldl feedByte 0xFFFFFFFF

theorem divide_xor (a b : BitVec 32) : divide (a ^^^ b) = divide a ^^^ divide b := by
  have hcancel (p x y : BitVec 32) : p ^^^ x ^^^ (p ^^^ y) = x ^^^ y := by
    rw [BitVec.xor_comm p x, BitVec.xor_assoc, ← BitVec.xor_assoc p p, BitVec.xor_self,
      BitVec.zero_xor]
  unfold divide
  rw [BitVec.getLsbD_xor, BitVec.ushiftRight_xor_distrib]
  cases a.getLsbD 0 with
  | false =>
    cases b.getLsbD 0 with
    | false => rfl
    | true =>
      simp only [Bool.false_xor, Bool.false_eq_true, if_true, if_false]
      rw [← BitVec.xor_assoc, BitVec.xor_comm _ (a >>> 1), BitVec.xor_assoc]
  | true =>
    cases b.getLsbD 0 with
    | false =>
      simp only [Bool.xor_false, Bool.false_eq_true, if_true, if_false]
      rw [BitVec.xor_assoc]
    | true =>
      simp only [Bool.xor_self, Bool.false_eq_true, if_true, if_false]
      exact (hcancel _ _ _).symm

theorem iterate_divide_xor (n : Nat) (a b : BitVec 32) :
    divide^[n] (a ^^^ b) = divide^[n] a ^^^ divide^[n] b := by
  induction n with
  | zero => rfl
  | succ n ih => rw [Function.iterate_succ_apply', Function.iterate_succ_apply',
      Function.iterate_succ_apply', ih, divide_xor]

/-- No bit falls out: the register only moves. -/
theorem iterate_divide_clear {c : BitVec 32} (n : Nat) (h : ∀ k < n, c.getLsbD k = false) :
    divide^[n] c = c >>> n := by
  induction n with
  | zero => rfl
  | succ n ih =>
    have hlow : (c >>> n).getLsbD 0 = false := by
      rw [BitVec.getLsbD_ushiftRight, Nat.add_zero]
      exact h n (Nat.lt_succ_self n)
    rw [Function.iterate_succ_apply', ih fun k hk => h k (Nat.lt_succ_of_lt hk), divide, hlow,
      if_neg (by decide), BitVec.shiftRight_add]

/-- Bits fed one by one, or all at once beforehand. -/
theorem feedBits_eq (v : Byte) (c : BitVec 32) {n : Nat} (hn : n ≤ 8) :
    divide^[n] (c ^^^ v.setWidth 32) = feedBits v n c ^^^ (v.setWidth 32 >>> n) := by
  induction n with
  | zero => rfl
  | succ n ih =>
    have hsplit : v.setWidth 32 >>> n = (BitVec.ofBool (v.getLsbD n)).setWidth 32 ^^^
        ((v.setWidth 32 >>> (n + 1)) <<< 1) := by
      refine BitVec.eq_of_getLsbD_eq fun k hk => ?_
      cases k with
      | zero => simp; omega
      | succ k => simp [Nat.add_assoc, Nat.add_comm 1 k]; omega
    have hclear : divide ((v.setWidth 32 >>> (n + 1)) <<< 1) = v.setWidth 32 >>> (n + 1) := by
      have hlow : ((v.setWidth 32 >>> (n + 1)) <<< 1).getLsbD 0 = false := by simp
      rw [divide, hlow, if_neg (by decide)]
      refine BitVec.eq_of_getLsbD_eq fun k hk => ?_
      simp; omega
    rw [Function.iterate_succ_apply', ih (Nat.le_of_succ_le hn), hsplit, ← BitVec.xor_assoc,
      divide_xor, hclear]
    rfl

/-- A byte by table: the entry for the register's low byte and the byte, and the rest moved. -/
theorem feedByte_table (c : BitVec 32) (v : Byte) :
    feedByte c v = divide^[8] ((c ^^^ v.setWidth 32) &&& 0xFF#32) ^^^ (c >>> 8) := by
  have hall := feedBits_eq v c (Nat.le_refl 8)
  have hbyte : v.setWidth 32 >>> 8 = 0 := by
    refine BitVec.eq_of_getLsbD_eq fun k hk => ?_
    simp
  have hmoved : (c ^^^ v.setWidth 32) >>> 8 = c >>> 8 := by
    rw [BitVec.ushiftRight_xor_distrib, hbyte]
    exact BitVec.xor_zero
  have hmask (k : Nat) : (0xFF#32).getLsbD k = decide (k < 8) := by
    have hones : (0xFF : Nat) = 2 ^ 8 - 1 := by decide
    rw [BitVec.getLsbD_ofNat, hones, Nat.testBit_two_pow_sub_one]
    by_cases hk : k < 8
    · simp [hk]
      omega
    · simp [hk]
  have hsplit : c ^^^ v.setWidth 32 =
      ((c ^^^ v.setWidth 32) &&& 0xFF#32) ^^^ ((c >>> 8) <<< 8) := by
    rw [← hmoved]
    generalize c ^^^ v.setWidth 32 = x
    refine BitVec.eq_of_getLsbD_eq fun k hk => ?_
    rw [BitVec.getLsbD_xor, BitVec.getLsbD_and, hmask, BitVec.getLsbD_shiftLeft,
      BitVec.getLsbD_ushiftRight]
    by_cases hlow : k < 8
    · simp [hlow]
    · have hback : 8 + (k - 8) = k := by omega
      simp [hlow, hk, hback]
  have hclear : divide^[8] ((c >>> 8) <<< 8) = c >>> 8 := by
    rw [iterate_divide_clear 8 fun k hk => by simp [hk]]
    refine BitVec.eq_of_getLsbD_eq fun k hk => ?_
    rw [BitVec.getLsbD_ushiftRight, BitVec.getLsbD_shiftLeft, BitVec.getLsbD_ushiftRight]
    by_cases hhigh : 8 + k < 32
    · simp [hhigh]
    · have hout : c.getLsbD (8 + k) = false := BitVec.getLsbD_of_ge c (8 + k) (by omega)
      simp [hhigh, hout]
  rw [hbyte] at hall
  have hfed : divide^[8] (c ^^^ v.setWidth 32) = feedByte c v :=
    hall.trans BitVec.xor_zero
  rw [← hfed, hsplit, iterate_divide_xor, hclear, ← hsplit]

end CtRecomp.Crc
