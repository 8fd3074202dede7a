import CtRecomp.Bus
import CtRecomp.Stepwise

namespace CtRecomp

open Loop Stepwise

/-! The game's LZ decompressor (ct_decompress.py). -/

/-- File offset for a 24-bit HiROM address, or none if not ROM. -/
def snesToFile (addr24 : BitVec 24) : Option Nat :=
  let bank := (bank addr24).toNat
  let addr := (low addr24).toNat
  if bank ≥ 0xC0 then some ((bank - 0xC0) * 0x10000 + addr)
  else if 0x40 ≤ bank ∧ bank ≤ 0x7D then some ((bank - 0x40) * 0x10000 + addr)
  else if bank ≤ 0x3F ∨ 0x80 ≤ bank ∧ bank ≤ 0xBF then
    if addr < 0x8000 then none else some ((bank &&& 0x3F) * 0x10000 + addr)
  else none

/-- How it fails: `DecompressError`, with its message's addresses, but for the last. -/
inductive DecompressFail
  | outside (src at_ : BitVec 24)
  | beforeStart (src : BitVec 24)
  | overLimit (src : BitVec 24)
  /-- `out[start + k]` past the end: an `IndexError`. -/
  | indexError
deriving DecidableEq

def DecompressFail.isDecompressError : DecompressFail → Bool
  | .indexError => false
  | _ => true

/-- Mask of a back-reference's offset, and shift of its count. -/
structure Variant where
  mask : BitVec 16
  shift : Nat
deriving DecidableEq

/-- Where the loops are: at the outer one's head, before an item of a group, or after one. -/
inductive Place
  | head
  | item (c : BitVec 8)
  | check (c : BitVec 8)
deriving DecidableEq

structure Unpack where
  x : BitVec 16
  /-- `end` -/
  stop : BitVec 16
  count : Nat
  out : List (BitVec 8)
  place : Place

/-- 128 KB -/
def outLimit : Nat := 0x20000

section

variable (rom : List (BitVec 8)) (src : BitVec 24)

/-- The source's inner `rd`. -/
def srcRd (a : BitVec 16) : Except DecompressFail (BitVec 8) :=
  let at_ := bank src ++ a
  match snesToFile at_ with
  | none => .error (.outside src at_)
  | some off =>
    match rom[off]? with
    | none => .error (.outside src at_)
    | some b => .ok b

/-- `rd(a) | rd(a + 1) << 8` -/
def rdWord (a : BitVec 16) : Except DecompressFail (BitVec 16) := do
  let lo ← srcRd rom src a
  let hi ← srcRd rom src (a + 1)
  return hi ++ lo

/-- Up to the loop. -/
def unpackStart : Except DecompressFail (Variant × Unpack) := do
  let lo := low src
  let stop := lo + 2 + (← rdWord rom src lo)
  let t ← srcRd rom src stop
  let v : Variant := if t &&& 0xC0 = 0 then ⟨0x0FFF, 4⟩ else ⟨0x07FF, 3⟩
  return (v, ⟨lo + 2, stop, 8, [], .head⟩)

/-- The 8 literals after a control byte of 0. -/
def literals8 (x : BitVec 16) : Except DecompressFail (List (BitVec 8)) :=
  (List.range 8).mapM fun k => srcRd rom src (x + 1 + BitVec.ofNat 16 k)

/-- `n` times `out.append(out[at])`, one further each time: what is appended. -/
def copyForward : Nat → Nat → List (BitVec 8) → Except DecompressFail (List (BitVec 8))
  | 0, _, _ => .ok []
  | n + 1, at_, out =>
    match out[at_]? with
    | none => .error .indexError
    | some b => do
      let rest ← copyForward n (at_ + 1) (out ++ [b])
      return b :: rest

def backReference (v : Variant) (x : BitVec 16) (out : List (BitVec 8)) :
    Except DecompressFail (List (BitVec 8)) := do
  let w ← rdWord rom src x
  let hi ← srcRd rom src (x + 1)
  let n := (hi >>> v.shift).toNat + 3
  let offset := (w &&& v.mask).toNat
  if out.length < offset then throw (.beforeStart src)
  else copyForward n (out.length - offset) out

/-- To the next place, or what is returned. -/
def unpackStep (v : Variant) (s : Unpack) :
    Except DecompressFail (Unpack ⊕ List (BitVec 8)) :=
  match s.place with
  | .head =>
    if s.x = s.stop then do
      let t := (← srcRd rom src s.x) &&& 0x3F
      if t = 0 then return .inr s.out
      else
        let stop := low src + (← rdWord rom src (s.x + 1))
        return .inl { s with count := t.toNat, stop, x := s.x + 3 }
    else do
      let c ← srcRd rom src s.x
      if c = 0 then
        let l ← literals8 rom src s.x
        return .inl { s with out := s.out ++ l, x := s.x + 9 }
      else return .inl { s with x := s.x + 1, place := .item c }
  | .item c =>
    if c.getLsbD 0 then do
      let l ← backReference rom src v s.x s.out
      return .inl
        { s with out := s.out ++ l, x := s.x + 2, count := s.count - 1, place := .check (c >>> 1) }
    else do
      let b ← srcRd rom src s.x
      return .inl
        { s with out := s.out ++ [b], x := s.x + 1, count := s.count - 1, place := .check (c >>> 1) }
  | .check c =>
    if s.count = 0 then return .inl { s with count := 8, place := .head }
    else if outLimit < s.out.length then throw (.overLimit src)
    else return .inl { s with place := .item c }

/-- What it returns or raises, in at most `n` steps. -/
def decompress (n : Nat) : Option (Except DecompressFail (List (BitVec 8))) :=
  match unpackStart rom src with
  | .error e => some (.error e)
  | .ok (v, s) => run (unpackStep rom src v) n s

/-- A state it comes through. -/
def Unpack.Visited (v : Variant) (s : Unpack) : Prop :=
  ∃ s₀, unpackStart rom src = .ok (v, s₀) ∧ Reached (unpackStep rom src v) s₀ s

/-- The bytes the next step appends. -/
def Unpack.bytes (v : Variant) (s : Unpack) : Except DecompressFail (List (BitVec 8)) :=
  match s.place with
  | .head =>
    if s.x = s.stop then return []
    else do
      let c ← srcRd rom src s.x
      if c = 0 then literals8 rom src s.x else return []
  | .item c =>
    if c.getLsbD 0 then backReference rom src v s.x s.out
    else do
      let b ← srcRd rom src s.x
      return [b]
  | .check _ => return []

/-- How many they are: none where the step fails. -/
def Unpack.adds (v : Variant) (s : Unpack) : Nat :=
  match s.bytes rom src v with
  | .ok l => l.length
  | .error _ => 0

section

variable {rom : List (BitVec 8)} {src : BitVec 24} {v : Variant} {s s' : Unpack}

/-! One step. -/

theorem mapM_length {α β ε : Type} {f : α → Except ε β} {as : List α} {bs : List β}
    (h : as.mapM f = .ok bs) : bs.length = as.length := by
  induction as generalizing bs with
  | nil =>
    cases h
    rfl
  | cons a as ih =>
    rw [List.mapM_cons] at h
    obtain ⟨b, -, h⟩ := bind_eq_ok_iff.mp h
    obtain ⟨bs', hbs, h⟩ := bind_eq_ok_iff.mp h
    cases h
    rw [List.length_cons, List.length_cons, ih hbs]

theorem copyForward_length {n at_ : Nat} {out l : List (BitVec 8)}
    (h : copyForward n at_ out = .ok l) : l.length = n := by
  induction n generalizing at_ out l with
  | zero =>
    cases h
    rfl
  | succ n ih =>
    rw [copyForward] at h
    split at h
    · cases h
    · obtain ⟨rest, hrest, h⟩ := bind_eq_ok_iff.mp h
      cases h
      rw [List.length_cons, ih hrest]

theorem backReference_length {x : BitVec 16} {out l : List (BitVec 8)}
    (h : backReference rom src v x out = .ok l) : 3 ≤ l.length := by
  obtain ⟨w, -, h⟩ := bind_eq_ok_iff.mp h
  obtain ⟨hi, -, h⟩ := bind_eq_ok_iff.mp h
  dsimp only at h
  split at h
  · cases h
  · rw [copyForward_length h]
    omega

/-- What a step that goes on does. -/
theorem unpackStep_cases (h : unpackStep rom src v s = .ok (.inl s')) :
    (s.place = .head ∧ s.x = s.stop ∧ ∃ t w, srcRd rom src s.x = .ok t ∧ t &&& 0x3F ≠ 0 ∧
      rdWord rom src (s.x + 1) = .ok w ∧
      s' = { s with count := (t &&& 0x3F).toNat, stop := low src + w, x := s.x + 3 }) ∨
    (s.place = .head ∧ s.x ≠ s.stop ∧ srcRd rom src s.x = .ok 0 ∧
      ∃ l, literals8 rom src s.x = .ok l ∧ s' = { s with out := s.out ++ l, x := s.x + 9 }) ∨
    (s.place = .head ∧ s.x ≠ s.stop ∧ ∃ c, srcRd rom src s.x = .ok c ∧ c ≠ 0 ∧
      s' = { s with x := s.x + 1, place := .item c }) ∨
    (∃ c l n, s.place = .item c ∧ 0 < l.length ∧ s.bytes rom src v = .ok l ∧
      s' = { s with out := s.out ++ l, x := n, count := s.count - 1, place := .check (c >>> 1) }) ∨
    (∃ c, s.place = .check c ∧ (s' = { s with count := 8, place := .head } ∨
      s.out.length ≤ outLimit ∧ s' = { s with place := .item c })) := by
  unfold unpackStep at h
  cases hplace : s.place with
  | head =>
    rw [hplace] at h
    dsimp only at h
    by_cases hx : s.x = s.stop
    · rw [if_pos hx] at h
      obtain ⟨t, ht, h⟩ := bind_eq_ok_iff.mp h
      split at h
      · cases h
      next hne =>
        obtain ⟨w, hw, h⟩ := bind_eq_ok_iff.mp h
        cases h
        exact .inl ⟨rfl, hx, t, w, ht, hne, hw, rfl⟩
    · rw [if_neg hx] at h
      obtain ⟨c, hc, h⟩ := bind_eq_ok_iff.mp h
      split at h
      next hzero =>
        obtain ⟨l, hl, h⟩ := bind_eq_ok_iff.mp h
        cases h
        exact .inr (.inl ⟨rfl, hx, hzero ▸ hc, l, hl, rfl⟩)
      next hne =>
        cases h
        exact .inr (.inr (.inl ⟨rfl, hx, c, hc, hne, rfl⟩))
  | item c =>
    rw [hplace] at h
    dsimp only at h
    have hbytes (l : List (BitVec 8)) : s.bytes rom src v = .ok l ↔
        (if c.getLsbD 0 then backReference rom src v s.x s.out
          else do
            let b ← srcRd rom src s.x
            return [b]) = .ok l := by
      unfold Unpack.bytes
      rw [hplace]
    split at h
    next hbit =>
      obtain ⟨l, hl, h⟩ := bind_eq_ok_iff.mp h
      cases h
      have hpos : 0 < l.length := Nat.lt_of_lt_of_le (by decide) (backReference_length hl)
      refine .inr (.inr (.inr (.inl ⟨c, l, _, rfl, hpos, ?_, rfl⟩)))
      rw [hbytes, if_pos hbit]
      exact hl
    next hbit =>
      obtain ⟨b, hb, h⟩ := bind_eq_ok_iff.mp h
      cases h
      refine .inr (.inr (.inr (.inl ⟨c, [b], _, rfl, Nat.one_pos, ?_, rfl⟩)))
      rw [hbytes, if_neg hbit, hb]
      rfl
  | check c =>
    rw [hplace] at h
    dsimp only at h
    refine .inr (.inr (.inr (.inr ⟨c, rfl, ?_⟩)))
    split at h
    · cases h
      exact .inl rfl
    · split at h
      · cases h
      next hle =>
        cases h
        exact .inr ⟨Nat.le_of_not_lt hle, rfl⟩

/-- A step appends what it is said to append. -/
theorem unpackStep_out (h : unpackStep rom src v s = .ok (.inl s')) :
    s'.out.length = s.out.length + s.adds rom src v := by
  unfold Unpack.adds
  rcases unpackStep_cases h with ⟨hp, hx, t, w, -, -, -, rfl⟩ | ⟨hp, hx, hc, l, hl, rfl⟩ |
    ⟨hp, hx, c, hc, hne, rfl⟩ | ⟨c, l, n, hp, -, hl, rfl⟩ | ⟨c, hp, rfl | ⟨-, rfl⟩⟩
  · simp [Unpack.bytes, hp, hx]
  · simp [Unpack.bytes, hp, hx, hc, hl]
  · have hnot : c ≠ 0#8 := hne
    simp [Unpack.bytes, hp, hx, hc, hnot]
  · simp [hl]
  · simp [Unpack.bytes, hp]
  · simp [Unpack.bytes, hp]

end

end

end CtRecomp
