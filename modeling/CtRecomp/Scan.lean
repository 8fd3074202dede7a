import Mathlib.Algebra.Ring.Nat
import Mathlib.Algebra.Ring.Int.Defs
import Mathlib.Data.List.Basic

namespace CtRecomp.Scan

/-! Text as C's formatted input reads it. -/

/-- The end of a C string. -/
def nul : Char := Char.ofNat 0

/-- `isspace` -/
def isSpace (c : Char) : Bool := c = ' ' ∨ '\t' ≤ c ∧ c ≤ '\r'

/-- A blank of a format. -/
def skipSpaces (s : List Char) : List Char := s.dropWhile isSpace

/-- A character of a format that stands for itself. -/
def literal (c : Char) : List Char → Option (List Char)
  | [] => none
  | d :: s => if d = c then some s else none

def literals (w s : List Char) : Option (List Char) := w.foldlM (fun s c => literal c s) s

/-- `strtol` past the range of a 64-bit `long`. -/
def clampLong (v : Int) : Int := max (-2 ^ 63) (min v (2 ^ 63 - 1))

/-- An optional sign. -/
def scanSign : List Char → Bool × List Char
  | '-' :: s => (true, s)
  | '+' :: s => (false, s)
  | s => (false, s)

/-- `%ld` -/
def scanLong (s : List Char) : Option (Int × List Char) :=
  let (negative, s) := scanSign (skipSpaces s)
  let digits := s.takeWhile Char.isDigit
  if digits = [] then none
  else
    let v : Int := Nat.ofDigitChars 10 digits 0
    some (clampLong (if negative then -v else v), s.dropWhile Char.isDigit)

/-- `%<width>s` -/
def scanWord (width : Nat) (s : List Char) : Option (List Char) :=
  let word := ((skipSpaces s).takeWhile fun c => !isSpace c).take width
  if word = [] then none else some word

/-- What `fgets` gives call by call with room for `limit` characters; `line` is read already. -/
def lines (limit : Nat) : List Char → List Char → List (List Char)
  | line, [] => if line = [] then [] else [line]
  | line, c :: s =>
    if c = '\n' ∨ line.length + 1 = limit then (line ++ [c]) :: lines limit [] s
    else lines limit (line ++ [c]) s

/-- `strtok` -/
def tokens (sep : Char) (s : List Char) : List (List Char) := (s.splitOn sep).filter (· ≠ [])

def hexDigit (c : Char) : Option Nat :=
  if c.isDigit then some (c.toNat - '0'.toNat)
  else if 'a' ≤ c ∧ c ≤ 'f' then some (c.toNat - 'a'.toNat + 10)
  else if 'A' ≤ c ∧ c ≤ 'F' then some (c.toNat - 'A'.toNat + 10)
  else none

/-- `0x` counts when a digit follows. -/
def skipHexPrefix : List Char → List Char
  | '0' :: x :: c :: s =>
    if (x = 'x' ∨ x = 'X') ∧ (hexDigit c).isSome then c :: s else '0' :: x :: c :: s
  | s => s

/-- `strtoul` of base 16, and where it stops. -/
def strtoulHex (s : List Char) : Nat × List Char :=
  let (negative, t) := scanSign (skipSpaces s)
  let t := skipHexPrefix t
  let digits := t.takeWhile fun c => (hexDigit c).isSome
  let v := digits.foldl (fun v c => 16 * v + (hexDigit c).getD 0) 0
  if digits = [] then (0, s)
  else
    (if 2 ^ 64 ≤ v then 2 ^ 64 - 1 else if negative then (2 ^ 64 - v) % 2 ^ 64 else v,
      t.drop digits.length)

/-- `%ld` of `printf`. -/
def printLong (v : Int) : List Char :=
  if v < 0 then '-' :: Nat.toDigits 10 v.natAbs else Nat.toDigits 10 v.natAbs

section

variable {s rest : List Char} {c : Char}

theorem skipSpaces_cons (h : isSpace c = false) : skipSpaces (c :: s) = c :: s := by
  rw [skipSpaces, List.dropWhile_cons_of_neg (by simp [h])]

theorem isSpace_of_isDigit (h : c.isDigit = true) : isSpace c = false := by
  simp only [Char.isDigit, Bool.and_eq_true, decide_eq_true_eq] at h
  have hspace : c ≠ ' ' := fun hc => by
    rw [hc] at h
    exact absurd h.1 (by decide)
  have hreturn : ¬ c ≤ '\r' := fun hc => by
    have h' : c.val ≤ '\r'.val := hc
    have : ('0' : Char).val ≤ '\r'.val := UInt32.le_trans h.1 h'
    exact absurd this (by decide)
  simp [isSpace, hspace, hreturn]

theorem takeWhile_stop (rest : List Char) {p : Char → Bool} (hs : ∀ c ∈ s, p c = true)
    (hrest : ∀ c ∈ rest.head?, p c = false) :
    (s ++ rest).takeWhile p = s ∧ (s ++ rest).dropWhile p = rest := by
  induction s with
  | nil =>
    cases rest with
    | nil => exact ⟨rfl, rfl⟩
    | cons d rest =>
      have hd : ¬ p d = true := by simp [hrest d rfl]
      exact ⟨List.takeWhile_cons_of_neg hd, List.dropWhile_cons_of_neg hd⟩
  | cons c s ih =>
    have hc := hs c List.mem_cons_self
    obtain ⟨htake, hdrop⟩ := ih fun c hc => hs c (List.mem_cons_of_mem _ hc)
    rw [List.cons_append, List.takeWhile_cons_of_pos hc, List.dropWhile_cons_of_pos hc, htake,
      hdrop]
    exact ⟨rfl, rfl⟩

theorem scanSign_digit (h : c.isDigit = true) : scanSign (c :: s) = (false, c :: s) := by
  unfold scanSign
  split
  next hc => exact absurd h (by rw [(List.cons_eq_cons.mp hc).1]; decide)
  next hc => exact absurd h (by rw [(List.cons_eq_cons.mp hc).1]; decide)
  next => rfl

/-- What is printed of a frame count scans as itself. -/
theorem scanLong_print {n : Nat} (hn : n < 2 ^ 63)
    (hrest : ∀ c ∈ rest.head?, c.isDigit = false) :
    scanLong (printLong n ++ rest) = some ((n : Int), rest) := by
  have hprint : printLong n = Nat.toDigits 10 n := by
    rw [printLong, if_neg (by omega), Int.natAbs_natCast]
  have hdigits : ∀ c ∈ Nat.toDigits 10 n, c.isDigit = true := fun c hc =>
    Nat.isDigit_of_mem_toDigits (by decide) (by decide) hc
  obtain ⟨htake, hdrop⟩ := takeWhile_stop rest hdigits hrest
  have hclamp : clampLong n = n := by
    unfold clampLong
    omega
  have hvalue : Nat.ofDigitChars 10 (Nat.toDigits 10 n) 0 = n := Nat.ofDigitChars_ten_toDigits
  unfold scanLong
  rw [hprint]
  cases hd : Nat.toDigits 10 n with
  | nil => exact absurd hd Nat.toDigits_ne_nil
  | cons c digits =>
    rw [hd] at hdigits htake hdrop hvalue
    have hc := hdigits c List.mem_cons_self
    rw [List.cons_append, skipSpaces_cons (isSpace_of_isDigit hc), scanSign_digit hc,
      ← List.cons_append]
    dsimp only
    rw [htake, hdrop, if_neg (List.cons_ne_nil _ _), hvalue]
    exact congrArg some (Prod.ext hclamp rfl)

theorem printLong_length {n : Nat} (hn : n < 2 ^ 63) : (printLong n).length ≤ 19 := by
  rw [printLong, if_neg (by omega), Int.natAbs_natCast,
    Nat.length_toDigits_le_iff (by decide) (by decide)]
  omega

theorem printLong_digits {n : Nat} (h : c ∈ printLong n) : c.isDigit = true := by
  rw [printLong, if_neg (by omega), Int.natAbs_natCast] at h
  exact Nat.isDigit_of_mem_toDigits (by decide) (by decide) h

/-- A line that fits is one call of `fgets`. -/
theorem lines_cons {limit : Nat} {line : List Char} (hline : '\n' ∉ s)
    (hroom : line.length + s.length + 1 ≤ limit) :
    lines limit line (s ++ '\n' :: rest) = (line ++ s ++ ['\n']) :: lines limit [] rest := by
  induction s generalizing line with
  | nil => rw [List.nil_append, lines, if_pos (Or.inl rfl), List.append_nil]
  | cons c s ih =>
    have hc : ¬ (c = '\n' ∨ line.length + 1 = limit) := by
      rintro (rfl | hfull)
      · exact hline List.mem_cons_self
      · rw [List.length_cons] at hroom
        omega
    have hroom' : (line ++ [c]).length + s.length + 1 ≤ limit := by
      rw [List.length_cons] at hroom
      rw [List.length_append, List.length_singleton]
      omega
    rw [List.cons_append, lines, if_neg hc,
      ih (fun h => hline (List.mem_cons_of_mem _ h)) hroom']
    simp only [List.append_assoc, List.cons_append, List.nil_append]

/-- Words with the separator between them, tokenized. -/
theorem tokens_intercalate {sep : Char} {words : List (List Char)} (hwords : words ≠ [])
    (hsep : ∀ w ∈ words, sep ∉ w) (hne : ∀ w ∈ words, w ≠ []) :
    tokens sep (List.intercalate [sep] words) = words := by
  rw [tokens, List.splitOn_intercalate _ hsep hwords]
  exact List.filter_eq_self.mpr fun w hw => decide_eq_true (hne w hw)

end

end CtRecomp.Scan
