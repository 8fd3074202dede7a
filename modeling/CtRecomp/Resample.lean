import Mathlib.Data.Rat.Floor
import Mathlib.Tactic.Linarith
import Mathlib.Tactic.Ring

namespace CtRecomp

/-! The audio resampler (resample.c), its position and step exact. -/

abbrev rsTaps : Nat := 32

/-- `HALF` -/
abbrev rsHalf : Nat := rsTaps / 2

/-- Left and right as played. -/
abbrev Pcm : Type := BitVec 16 × BitVec 16

/-- The weights by phase, and the conversions at the two ends. -/
structure RsKernel (R : Type) where
  weight : ℚ → Nat → R
  ofSample : BitVec 16 → R
  lrint : R → Int

/-- `buf` is what `len` samples of the two arrays hold. -/
structure Resampler (R : Type) where
  inHz : ℚ
  outHz : ℚ
  adjust : ℚ
  pos : ℚ
  buf : List (R × R)

section

variable {R : Type} [Zero R] [Add R] [Mul R]

def rsInit (inHz outHz : ℚ) : Resampler R where
  inHz := inHz
  outHz := outHz
  adjust := 1
  pos := rsHalf - 1
  buf := List.replicate rsTaps (0, 0)

def rsSetAdjust (factor : ℚ) (r : Resampler R) : Resampler R :=
  { r with adjust := if factor < 99 / 100 then 99 / 100 else
      if factor > 101 / 100 then 101 / 100 else factor }

def Resampler.step (r : Resampler R) : ℚ := r.inHz / (r.outHz * r.adjust)

/-- No value: an index outside the samples held. -/
def rsTap (buf : List (R × R)) (k : Int) : Option (R × R) :=
  if k < 0 then none else buf[k.toNat]?

def rsClip (v : Int) : BitVec 16 :=
  BitVec.ofInt 16 (if v < -32768 then -32768 else if v > 32767 then 32767 else v)

/-- One tap more. -/
def RsKernel.mix (f : RsKernel R) (frac : ℚ) (acc x : R × R) (t : Nat) : R × R :=
  (acc.1 + x.1 * f.weight frac t, acc.2 + x.2 * f.weight frac t)

def RsKernel.round (f : RsKernel R) (acc : R × R) : Pcm :=
  (rsClip (f.lrint acc.1), rsClip (f.lrint acc.2))

/-- The sample written at `pos`. -/
def rsOutput (f : RsKernel R) (buf : List (R × R)) (pos : ℚ) : Option Pcm := do
  let base := ⌊pos⌋
  let frac := pos - base
  let acc ← (List.range rsTaps).foldlM (fun acc (t : Nat) => do
    let x ← rsTap buf (base - (rsHalf - 1) + t)
    pure (f.mix frac acc x t)) (0, 0)
  pure (f.round acc)

/-- The loop of `rs_process`, with room for so many more samples; the position it ends at. -/
def rsLoop (f : RsKernel R) (step : ℚ) (buf : List (R × R)) : Nat → ℚ → Option (List Pcm × ℚ)
  | 0, pos => some ([], pos)
  | room + 1, pos =>
    if pos + rsHalf < buf.length then do
      let out ← rsOutput f buf pos
      let (outs, pos) ← rsLoop f step buf room (pos + step)
      pure (out :: outs, pos)
    else some ([], pos)

def rsDrop (r : Resampler R) : Resampler R :=
  let drop := ⌊r.pos⌋ - (rsHalf - 1)
  if drop > 0 then
    let drop : Nat := if drop > r.buf.length then r.buf.length else drop.toNat
    { r with buf := r.buf.drop drop, pos := r.pos - drop }
  else r

/-- The samples written; none: the call returns -1. -/
def rsProcess (f : RsKernel R) (input : List Pcm) (max : Nat) (r : Resampler R) :
    Option (Option (List Pcm) × Resampler R) :=
  if input.length > 4096 ∨ r.buf.length + input.length > 4096 + rsTaps then some (none, r)
  else do
    let buf := r.buf ++ input.map fun x => (f.ofSample x.1, f.ofSample x.2)
    let (outs, pos) ← rsLoop f r.step buf max r.pos
    pure (some outs, rsDrop { r with buf, pos })

/-- A resampler, how much of a stream it took, and all it wrote. -/
structure RsFed (R : Type) where
  resampler : Resampler R
  fed : Nat
  out : List Pcm

/-- A call with the next `n` samples of the stream; what is refused is offered again. -/
def RsFed.call (f : RsKernel R) (stream : Nat → Pcm) (s : RsFed R) (c : Nat × Nat) :
    Option (RsFed R) := do
  let input := (List.range c.1).map fun k => stream (s.fed + k)
  match ← rsProcess f input c.2 s.resampler with
  | (none, resampler) => pure { s with resampler }
  | (some out, resampler) => pure { resampler, fed := s.fed + c.1, out := s.out ++ out }

/-- Calls by the samples offered and the room for output. -/
def rsFeed (f : RsKernel R) (stream : Nat → Pcm) (r : Resampler R) (calls : List (Nat × Nat)) :
    Option (RsFed R) :=
  calls.foldlM (RsFed.call f stream) ⟨r, 0, []⟩

/-! What is written, said of the stream alone. -/

/-- The stream with the silence before it. -/
def RsKernel.heard (f : RsKernel R) (stream : Nat → Pcm) (k : Nat) : R × R :=
  if k < rsTaps then (0, 0)
  else (f.ofSample (stream (k - rsTaps)).1, f.ofSample (stream (k - rsTaps)).2)

/-- The taps around a position. -/
def RsKernel.ideal (f : RsKernel R) (x : Nat → R × R) (pos : ℚ) : Pcm :=
  f.round ((List.range rsTaps).foldl
    (fun acc t => f.mix (pos - ⌊pos⌋) acc (x (⌊pos⌋.toNat - (rsHalf - 1) + t)) t) (0, 0))

/-- Where sample `k` of the output lies. -/
def rsPlace (step : ℚ) (k : Nat) : ℚ := (rsHalf - 1 : Nat) + k * step

end

section

variable {R : Type}

theorem foldlM_some {α β : Type} {step : β → α → Option β} (total : β → α → β) {l : List α}
    (h : ∀ b, ∀ a ∈ l, step b a = some (total b a)) (b : β) :
    l.foldlM step b = some (l.foldl total b) := by
  induction l generalizing b with
  | nil => rfl
  | cons a l ih =>
    rw [List.foldlM_cons, h b a List.mem_cons_self, List.foldl_cons]
    exact ih (fun b a ha => h b a (List.mem_cons_of_mem _ ha)) _

theorem rsHalf_cast : ((rsHalf : Nat) : ℚ) = 16 := by norm_num [rsHalf]

theorem rsPlace_add (step : ℚ) (k n : Nat) :
    rsPlace step k + n * step = rsPlace step (k + n) := by
  unfold rsPlace
  push_cast
  ring

/-- `len` samples of a sequence from `base` on. -/
def rsHeld (x : Nat → R × R) (base len : Nat) : List (R × R) :=
  (List.range len).map fun i => x (base + i)

theorem rsHeld_length (x : Nat → R × R) (base len : Nat) : (rsHeld x base len).length = len := by
  rw [rsHeld, List.length_map, List.length_range]

theorem rsTap_held (x : Nat → R × R) (base : Nat) {len k : Nat} (h : k < len) :
    rsTap (rsHeld x base len) k = some (x (base + k)) := by
  unfold rsTap rsHeld
  rw [if_neg (by omega), Int.toNat_natCast, List.getElem?_map, List.getElem?_range h]
  rfl

theorem rsHeld_append (x : Nat → R × R) (base len n : Nat) :
    rsHeld x base len ++ (List.range n).map (fun i => x (base + len + i)) =
      rsHeld x base (len + n) := by
  unfold rsHeld
  rw [List.range_add, List.map_append, List.map_map]
  congr 1
  refine List.map_congr_left fun i _ => ?_
  change x (base + len + i) = x (base + (len + i))
  rw [Nat.add_assoc]

theorem rsHeld_drop (x : Nat → R × R) (base : Nat) {len n : Nat} (h : n ≤ len) :
    (rsHeld x base len).drop n = rsHeld x (base + n) (len - n) := by
  obtain ⟨rest, rfl⟩ := Nat.exists_eq_add_of_le h
  rw [← rsHeld_append, List.drop_left' (rsHeld_length x base n), Nat.add_sub_cancel_left, rsHeld]

/-- What is dropped is before the next output's taps, and no more than is held. -/
theorem rsDrop_held {r : Resampler R} {x : Nat → R × R} {base len : Nat}
    (hbuf : r.buf = rsHeld x base len) (hlow : (15 : ℚ) ≤ r.pos) :
    ∃ d ≤ len, rsDrop r = { r with buf := rsHeld x (base + d) (len - d), pos := r.pos - d } ∧
      (15 : ℚ) ≤ r.pos - d := by
  have hfloor : (15 : Int) ≤ ⌊r.pos⌋ := Int.le_floor.mpr hlow
  have hlen : r.buf.length = len := by rw [hbuf, rsHeld_length]
  have hkept : ∀ d : Nat, d ≤ len → (d : Int) ≤ ⌊r.pos⌋ - 15 →
      r.buf.drop d = rsHeld x (base + d) (len - d) ∧ (15 : ℚ) ≤ r.pos - d := fun d hd hle => by
    refine ⟨by rw [hbuf, rsHeld_drop x base hd], ?_⟩
    have hpos : (⌊r.pos⌋ : ℚ) ≤ r.pos := Int.floor_le _
    have hcast : ((d : Int) : ℚ) ≤ ((⌊r.pos⌋ - 15 : Int) : ℚ) := by exact_mod_cast hle
    push_cast at hcast
    linarith
  unfold rsDrop
  dsimp only
  have hback : ⌊r.pos⌋ - ((rsHalf : Int) - 1) = ⌊r.pos⌋ - 15 := rfl
  rw [hback, hlen]
  by_cases hdrop : ⌊r.pos⌋ - 15 > 0
  · rw [if_pos hdrop]
    by_cases hall : ⌊r.pos⌋ - 15 > len
    · obtain ⟨hbuf', hlow'⟩ := hkept len (Nat.le_refl _) (by omega)
      rw [if_pos hall, hbuf']
      exact ⟨len, Nat.le_refl _, rfl, hlow'⟩
    · obtain ⟨hbuf', hlow'⟩ := hkept (⌊r.pos⌋ - 15).toNat (by omega) (by omega)
      rw [if_neg hall, hbuf']
      exact ⟨_, by omega, rfl, hlow'⟩
  · rw [if_neg hdrop]
    refine ⟨0, Nat.zero_le _, ?_, by simpa using hlow⟩
    rw [Nat.add_zero, Nat.sub_zero, ← hbuf, Nat.cast_zero, sub_zero]

variable [Zero R]

theorem RsKernel.heard_input (f : RsKernel R) (stream : Nat → Pcm) (fed n : Nat) :
    ((List.range n).map fun k => stream (fed + k)).map
        (fun x => (f.ofSample x.1, f.ofSample x.2)) =
      (List.range n).map fun k => f.heard stream (rsTaps + fed + k) := by
  rw [List.map_map]
  refine List.map_congr_left fun k _ => ?_
  have hback : rsTaps + fed + k - rsTaps = fed + k := by omega
  have hpast : ¬ rsTaps + fed + k < rsTaps := by omega
  rw [RsKernel.heard, if_neg hpast, hback]
  rfl

variable [Add R] [Mul R]

/-- Between the first 15 samples held and the last 16 all taps are there. -/
theorem rsOutput_held (f : RsKernel R) (x : Nat → R × R) (base : Nat) {len : Nat} {pos : ℚ}
    (hlow : (15 : ℚ) ≤ pos) (hhigh : pos + rsHalf < len) :
    rsOutput f (rsHeld x base len) pos = some (f.ideal x (base + pos)) := by
  have hfloor : (15 : Int) ≤ ⌊pos⌋ := Int.le_floor.mpr hlow
  have hlast : ⌊pos⌋ + 16 < len := by
    have hle : (⌊pos⌋ : ℚ) ≤ pos := Int.floor_le pos
    have hcast : ((⌊pos⌋ + 16 : Int) : ℚ) < ((len : Int) : ℚ) := by
      rw [rsHalf_cast] at hhigh
      push_cast
      linarith
    exact_mod_cast hcast
  obtain ⟨k, hk⟩ := Int.eq_ofNat_of_zero_le (Int.le_trans (by decide) hfloor)
  have hshift : ⌊(base + pos : ℚ)⌋ = (base + k : Nat) := by
    rw [Int.floor_natCast_add, hk]
    push_cast
    rfl
  have hfrac : (base + pos : ℚ) - ⌊(base + pos : ℚ)⌋ = pos - ⌊pos⌋ := by
    rw [hshift, hk]
    push_cast
    ring
  unfold rsOutput RsKernel.ideal
  dsimp only
  rw [hfrac, hshift, Int.toNat_natCast]
  rw [foldlM_some (fun acc t =>
    f.mix (pos - ⌊pos⌋) acc (x (base + k - (rsHalf - 1) + t)) t) _ (0, 0)]
  · rfl
  · intro acc t ht
    have ht' : t < 32 := List.mem_range.mp ht
    have hindex : ⌊pos⌋ - ((rsHalf : Int) - 1) + t = (k - 15 + t : Nat) := by
      rw [hk]
      change (k : Int) - (16 - 1) + t = _
      omega
    have hplace : base + (k - 15 + t) = base + k - (rsHalf - 1) + t := by
      change _ = base + k - 15 + t
      omega
    rw [hindex, rsTap_held x base (by omega), hplace]
    rfl

/-- The loop writes the samples of the sequence at positions a step apart. -/
theorem rsLoop_held (f : RsKernel R) {step : ℚ} (hstep : 0 < step) (x : Nat → R × R)
    (base len room : Nat) {pos : ℚ} (hlow : (15 : ℚ) ≤ pos) :
    ∃ n, rsLoop f step (rsHeld x base len) room pos =
      some ((List.range n).map fun (k : Nat) => f.ideal x (base + (pos + k * step)),
        pos + n * step) := by
  induction room generalizing pos with
  | zero => exact ⟨0, by simp [rsLoop]⟩
  | succ room ih =>
    unfold rsLoop
    rw [rsHeld_length]
    by_cases hmore : pos + rsHalf < len
    · have hlow' : (15 : ℚ) ≤ pos + step := by linarith
      obtain ⟨n, hrest⟩ := ih hlow'
      refine ⟨n + 1, ?_⟩
      have htail : ∀ k : Nat, (base : ℚ) + (pos + step + k * step) =
          base + (pos + ((k + 1 : Nat) : ℚ) * step) := fun k => by
        push_cast
        ring
      have hend : pos + step + n * step = pos + ((n + 1 : Nat) : ℚ) * step := by
        push_cast
        ring
      rw [if_pos hmore, rsOutput_held f x base hlow hmore, hrest, hend, List.range_succ_eq_map,
        List.map_cons, List.map_map]
      simp only [htail, Option.bind_eq_bind, Option.bind_some, Option.pure_def, Nat.cast_zero,
        zero_mul, add_zero]
      rfl
    · exact ⟨0, by simp [if_neg hmore]⟩

/-- `base` samples of the stream are dropped; the rest taken is held. -/
structure RsFed.Aligned (f : RsKernel R) (stream : Nat → Pcm) (step : ℚ) (base : Nat)
    (s : RsFed R) : Prop where
  rate : s.resampler.step = step
  dropped : base ≤ rsTaps + s.fed
  buf : s.resampler.buf = rsHeld (f.heard stream) base (rsTaps + s.fed - base)
  room : s.resampler.buf.length ≤ 4096 + rsTaps
  low : 15 ≤ s.resampler.pos
  pos : base + s.resampler.pos = rsPlace step s.out.length
  out : s.out =
    (List.range s.out.length).map fun k => f.ideal (f.heard stream) (rsPlace step k)

theorem RsFed.Aligned.call {f : RsKernel R} {stream : Nat → Pcm} {step : ℚ} {base : Nat}
    {s : RsFed R} (h : s.Aligned f stream step base) (hstep : 0 < step) (c : Nat × Nat) :
    ∃ s' base', RsFed.call f stream s c = some s' ∧ s'.Aligned f stream step base' := by
  obtain ⟨n, max⟩ := c
  have hinput : ((List.range n).map fun k => stream (s.fed + k)).length = n := by
    rw [List.length_map, List.length_range]
  unfold RsFed.call rsProcess
  dsimp only
  rw [hinput]
  by_cases hfull : n > 4096 ∨ s.resampler.buf.length + n > 4096 + rsTaps
  · rw [if_pos hfull]
    exact ⟨s, base, rfl, h⟩
  · have hdropped := h.dropped
    have hheld : s.resampler.buf ++ ((List.range n).map fun k => stream (s.fed + k)).map
        (fun x => (f.ofSample x.1, f.ofSample x.2)) =
        rsHeld (f.heard stream) base (rsTaps + (s.fed + n) - base) := by
      have happend := rsHeld_append (f.heard stream) base (rsTaps + s.fed - base) n
      have hfrom : base + (rsTaps + s.fed - base) = rsTaps + s.fed := by omega
      have hlen : rsTaps + s.fed - base + n = rsTaps + (s.fed + n) - base := by omega
      rw [hfrom, hlen] at happend
      rw [f.heard_input, h.buf, happend]
    obtain ⟨made, hloop⟩ := rsLoop_held f hstep (f.heard stream) base
      (rsTaps + (s.fed + n) - base) max h.low
    have hlow : (15 : ℚ) ≤ s.resampler.pos + made * step := by
      have hnonneg : (0 : ℚ) ≤ made * step := mul_nonneg (Nat.cast_nonneg _) hstep.le
      have := h.low
      linarith
    obtain ⟨d, hd, hdrop, hlow'⟩ := rsDrop_held
      (r := { s.resampler with
        buf := rsHeld (f.heard stream) base (rsTaps + (s.fed + n) - base)
        pos := s.resampler.pos + made * step }) rfl hlow
    have hplace : ∀ k : Nat, (base : ℚ) + (s.resampler.pos + k * step) =
        rsPlace step (s.out.length + k) := fun k => by
      rw [← add_assoc, h.pos, rsPlace_add]
    have hlength : (s.out ++ (List.range made).map fun (k : Nat) => f.ideal (f.heard stream)
        (base + (s.resampler.pos + k * step))).length = s.out.length + made := by
      rw [List.length_append, List.length_map, List.length_range]
    rw [if_neg hfull, hheld, h.rate, hloop]
    simp only [Option.bind_eq_bind, Option.bind_some, Option.pure_def]
    rw [hdrop]
    refine ⟨_, base + d, rfl, h.rate, ?_, ?_, ?_, hlow', ?_, ?_⟩
    · dsimp only
      omega
    · dsimp only
      congr 1
      omega
    · have hroom := not_or.mp hfull
      have hlenBuf : s.resampler.buf.length = rsTaps + s.fed - base := by
        rw [h.buf, rsHeld_length]
      dsimp only
      rw [rsHeld_length]
      omega
    · dsimp only
      rw [hlength, ← hplace]
      push_cast
      ring
    · dsimp only
      rw [hlength, List.range_add, List.map_append, List.map_map, ← h.out]
      congr 1
      exact List.map_congr_left fun k _ => congrArg _ (hplace k)

theorem RsFed.Aligned.calls {f : RsKernel R} {stream : Nat → Pcm} {step : ℚ} {base : Nat}
    {s : RsFed R} (h : s.Aligned f stream step base) (hstep : 0 < step)
    (calls : List (Nat × Nat)) :
    ∃ s' base', calls.foldlM (RsFed.call f stream) s = some s' ∧
      s'.Aligned f stream step base' := by
  induction calls generalizing s base with
  | nil => exact ⟨s, base, rfl, h⟩
  | cons c calls ih =>
    obtain ⟨s₁, base₁, hcall, haligned⟩ := h.call hstep c
    obtain ⟨s', base', hrest, hdone⟩ := ih haligned
    refine ⟨s', base', ?_, hdone⟩
    rw [List.foldlM_cons, hcall]
    exact hrest

theorem rsInit_aligned (f : RsKernel R) (stream : Nat → Pcm) (inHz outHz factor : ℚ) :
    RsFed.Aligned f stream (rsSetAdjust factor (rsInit inHz outHz : Resampler R)).step 0
      ⟨rsSetAdjust factor (rsInit inHz outHz), 0, []⟩ where
  rate := rfl
  dropped := Nat.zero_le _
  buf := by
    have hsilence : rsHeld (f.heard stream) 0 rsTaps = List.replicate rsTaps (0, 0) := by
      refine List.eq_replicate_iff.mpr ⟨rsHeld_length .., fun x hx => ?_⟩
      obtain ⟨k, hk, rfl⟩ := List.mem_map.mp hx
      rw [Nat.zero_add]
      exact if_pos (List.mem_range.mp hk)
    exact hsilence.symm
  room := by
    change (List.replicate rsTaps ((0 : R), (0 : R))).length ≤ _
    rw [List.length_replicate]
    decide
  low := by
    change (15 : ℚ) ≤ rsHalf - 1
    rw [rsHalf_cast]
    norm_num
  pos := by
    change ((0 : Nat) : ℚ) + (rsHalf - 1) = rsPlace _ 0
    unfold rsPlace
    rw [rsHalf_cast]
    norm_num
  out := rfl

theorem rsProcess_refused {f : RsKernel R} {input : List Pcm} {max : Nat} {r r' : Resampler R}
    (h : rsProcess f input max r = some (none, r')) : r' = r := by
  unfold rsProcess at h
  split at h
  next => exact ((Prod.ext_iff.mp (Option.some.inj h)).2).symm
  next =>
    obtain ⟨made, -, h⟩ := Option.bind_eq_some_iff.mp h
    exact absurd (Prod.ext_iff.mp (Option.some.inj h)).1 (Option.some_ne_none _)

theorem range_map_le {α : Type} (x : Nat → α) {n m : Nat} (h : n ≤ m) :
    (List.range n).map x <+: (List.range m).map x := by
  obtain ⟨rest, rfl⟩ := Nat.exists_eq_add_of_le h
  rw [List.range_add, List.map_append]
  exact List.prefix_append _ _

/-- However a stream is cut into calls and whatever room each has: no index leaves the samples
held, sample `k` written is the kernel's at its place in the stream, so that what two ways
write agrees, and a refused call changes nothing. -/
theorem rs_process_chunks (f : RsKernel R) (stream : Nat → Pcm) (inHz outHz factor : ℚ)
    (hstep : 0 < (rsSetAdjust factor (rsInit inHz outHz : Resampler R)).step)
    (calls₁ calls₂ : List (Nat × Nat)) :
    let r : Resampler R := rsSetAdjust factor (rsInit inHz outHz)
    ∃ a b : RsFed R, rsFeed f stream r calls₁ = some a ∧ rsFeed f stream r calls₂ = some b ∧
      (a.out <+: b.out ∨ b.out <+: a.out) ∧
      (∀ k, k < a.out.length →
        a.out[k]? = some (f.ideal (f.heard stream) (rsPlace r.step k))) ∧
      (rsHalf : Int) - 1 ≤ ⌊a.resampler.pos⌋ ∧
      ∀ input max r', rsProcess f input max a.resampler = some (none, r') → r' = a.resampler := by
  have hstart := rsInit_aligned f stream inHz outHz factor
  obtain ⟨a, _, ha, haligned⟩ := hstart.calls hstep calls₁
  obtain ⟨b, _, hb, hbligned⟩ := hstart.calls hstep calls₂
  refine ⟨a, b, ha, hb, ?_, fun k hk => ?_, Int.le_floor.mpr haligned.low,
    fun input max r' => rsProcess_refused⟩
  · rw [haligned.out, hbligned.out]
    rcases Nat.le_total a.out.length b.out.length with hle | hle
    · exact Or.inl (range_map_le _ hle)
    · exact Or.inr (range_map_le _ hle)
  · rw [haligned.out, List.getElem?_map, List.getElem?_range hk]
    rfl

end

/-- The tap at the position itself, of whole numbers. -/
def nearest : RsKernel Int where
  weight _ t := if t = rsHalf - 1 then 1 else 0
  ofSample x := x.toInt
  lrint v := v

/-- At the rates of test_resample.c: one call of 20 samples against calls of a few, one of them
with no room for output and one with more than can be held. -/
theorem rs_process_chunks_small :
    let r : Resampler Int := rsSetAdjust 1 (rsInit 32000 48000)
    let stream : Nat → Pcm := fun k => (BitVec.ofNat 16 k, 0)
    ∃ a b : RsFed Int, rsFeed nearest stream r [(20, 30)] = some a ∧
      rsFeed nearest stream r [(3, 8), (3, 0), (5000, 8), (14, 2)] = some b ∧
      (a.out <+: b.out ∨ b.out <+: a.out) := by
  have hstep : 0 < (rsSetAdjust 1 (rsInit 32000 48000 : Resampler Int)).step := by decide +kernel
  obtain ⟨a, b, ha, hb, hagree, -⟩ := rs_process_chunks nearest
    (fun k => (BitVec.ofNat 16 k, 0)) 32000 48000 1 hstep [(20, 30)]
    [(3, 8), (3, 0), (5000, 8), (14, 2)]
  exact ⟨a, b, ha, hb, hagree⟩

end CtRecomp
