import CtRecomp.Decompress

namespace CtRecomp

open Loop Stepwise

/-! Whether the decompressor ends, how much it puts out and how it fails. -/

/-- The most that a group puts out: 63 items of 34 bytes. -/
def groupMost : Nat := 63 * 34

section

variable {rom : List (BitVec 8)} {src : BitVec 24} {v : Variant} {s s' : Unpack}

/-- Neither over nor putting out more from here. -/
structure Unpack.Stuck (rom : List (BitVec 8)) (src : BitVec 24) (v : Variant) (s : Unpack) :
    Prop where
  runs : ¬Ends (unpackStep rom src v) s
  same : ∀ t, Reached (unpackStep rom src v) s t → t.out.length ≤ s.out.length

theorem Unpack.Stuck.next (h : s.Stuck rom src v) : ∃ s', unpackStep rom src v s = .ok (.inl s') := by
  cases hstep : unpackStep rom src v s with
  | error e => exact absurd ⟨1, .error e, run_stop hstep⟩ h.runs
  | ok next =>
    cases next with
    | inl s' => exact ⟨s', rfl⟩
    | inr out => exact absurd ⟨1, .ok out, run_stop hstep⟩ h.runs

theorem Unpack.Stuck.step (h : s.Stuck rom src v) (hstep : unpackStep rom src v s = .ok (.inl s')) :
    s'.Stuck rom src v where
  runs hends := h.runs (.of_reached (.single hstep) hends)
  same t ht := by
    have hout := unpackStep_out hstep
    have := h.same t ((Reached.single hstep).trans ht)
    omega

/-- An item puts something out. -/
theorem Unpack.Stuck.not_item (h : s.Stuck rom src v) (c : BitVec 8) : s.place ≠ .item c := by
  intro hitem
  obtain ⟨s', hstep⟩ := h.next
  have hsame := h.same s' (.single hstep)
  rcases unpackStep_cases hstep with ⟨hp, -⟩ | ⟨hp, -⟩ | ⟨hp, -⟩ | ⟨c', l, n, -, hpos, -, rfl⟩ |
    ⟨c', hp, -⟩
  · rw [hp] at hitem
    cases hitem
  · rw [hp] at hitem
    cases hitem
  · rw [hp] at hitem
    cases hitem
  · simp only [List.length_append] at hsame
    omega
  · rw [hp] at hitem
    cases hitem

/-- What is left then: one segment trailer after another. -/
theorem Unpack.Stuck.trailer (h : s.Stuck rom src v) (hhead : s.place = .head) :
    ∃ (s' : Unpack) (t : BitVec 8) (w : BitVec 16),
      Reached (unpackStep rom src v) s s' ∧ s'.Stuck rom src v ∧ s'.place = .head ∧
      s'.x = s.x + 3 ∧ s.x = s.stop ∧ srcRd rom src s.x = .ok t ∧ t &&& 0x3F ≠ 0 ∧
      rdWord rom src (s.x + 1) = .ok w ∧ s'.stop = low src + w := by
  obtain ⟨s', hstep⟩ := h.next
  have hnext := h.step hstep
  have hsame := h.same s' (.single hstep)
  rcases unpackStep_cases hstep with ⟨-, hx, t, w, ht, hne, hw, rfl⟩ | ⟨-, -, -, l, hl, rfl⟩ |
    ⟨-, -, c, -, -, rfl⟩ | ⟨c, l, n, hp, -⟩ | ⟨c, hp, -⟩
  · exact ⟨_, t, w, .single hstep, hnext, hhead, rfl, hx, ht, hne, hw, rfl⟩
  · have hlength : l.length = 8 := mapM_length hl
    simp only [List.length_append, hlength] at hsame
    omega
  · exact absurd rfl (hnext.not_item c)
  · rw [hp] at hhead
    cases hhead
  · rw [hp] at hhead
    cases hhead

theorem Unpack.Stuck.after (h : s.Stuck rom src v) (hhead : s.place = .head) (k : Nat) :
    ∃ s' : Unpack, s'.Stuck rom src v ∧ s'.place = .head ∧ s'.x = s.x + 3 * BitVec.ofNat 16 k := by
  induction k with
  | zero => exact ⟨s, h, hhead, by simp⟩
  | succ k ih =>
    obtain ⟨t, ht, hthead, htx⟩ := ih
    obtain ⟨t', _, _, -, ht', hthead', htx', -⟩ := ht.trailer hthead
    refine ⟨t', ht', hthead', ?_⟩
    rw [htx', htx, BitVec.add_assoc, BitVec.ofNat_add, BitVec.mul_add]
    rfl

/-- The trailers come by every address of the bank. -/
theorem Unpack.Stuck.reaches (h : s.Stuck rom src v) (hhead : s.place = .head) (y : BitVec 16) :
    ∃ s' : Unpack, s'.Stuck rom src v ∧ s'.place = .head ∧ s'.x = y := by
  obtain ⟨s', hs', hhead', hx⟩ := h.after hhead ((y - s.x) * 0xAAAB).toNat
  refine ⟨s', hs', hhead', ?_⟩
  have hinverse : (0xAAAB * 3 : BitVec 16) = 1#16 := by decide
  rw [hx, BitVec.ofNat_toNat, BitVec.setWidth_eq, BitVec.mul_comm 3, BitVec.mul_assoc, hinverse,
    BitVec.mul_one, BitVec.add_comm, BitVec.sub_add_cancel]

theorem rdWord_low {a : BitVec 16} {w : BitVec 16} (h : rdWord rom src a = .ok w) :
    ∃ lo, srcRd rom src a = .ok lo ∧ lo = w.setWidth 8 := by
  obtain ⟨lo, hlo, h⟩ := bind_eq_ok_iff.mp h
  obtain ⟨hi, -, h⟩ := bind_eq_ok_iff.mp h
  cases h
  refine ⟨lo, hlo, ?_⟩
  rw [BitVec.setWidth_append]
  simp

/-- The trailer before the one at SRC's low word less 2 would give that one 0 items. -/
theorem Unpack.not_stuck (hhead : s.place = .head) : ¬s.Stuck rom src v := by
  intro h
  obtain ⟨t, ht, hthead, htx⟩ := h.reaches hhead (low src - 3)
  obtain ⟨t', _, w, -, ht', hthead', htx', -, -, -, hw, hstop⟩ := ht.trailer hthead
  obtain ⟨u, hu, huhead, hux⟩ := h.reaches hhead (low src - 2)
  obtain ⟨_, b, _, -, -, -, -, -, hb, hne, -⟩ := hu.trailer huhead
  obtain ⟨_, _, _, -, -, -, -, hx', -⟩ := ht'.trailer hthead'
  have hzero : w = 0 := by
    rw [htx', hstop, htx] at hx'
    have hcancel : low src - 3 + 3 = low src := BitVec.sub_add_cancel _ _
    rw [hcancel] at hx'
    bv_omega
  obtain ⟨lo, hlo, hlow⟩ := rdWord_low hw
  have haddr : t.x + 1 = u.x := by
    rw [htx, hux]
    have hsub : (3 : BitVec 16) = 1 + 2 := by decide
    rw [hsub]
    bv_omega
  rw [haddr, hb] at hlo
  cases hlo
  rw [hlow, hzero] at hne
  exact hne (by decide)

/-- From any state it ends or puts out more. -/
theorem unpack_grows (s : Unpack) : Ends (unpackStep rom src v) s ∨
    ∃ t, Reached (unpackStep rom src v) s t ∧ s.out.length < t.out.length := by
  by_contra hnot
  rw [not_or] at hnot
  have hstuck : s.Stuck rom src v := ⟨hnot.1, fun t ht => by
    by_contra hlt
    exact hnot.2 ⟨t, ht, Nat.lt_of_not_le hlt⟩⟩
  cases hplace : s.place with
  | head => exact Unpack.not_stuck hplace hstuck
  | item c => exact hstuck.not_item c hplace
  | check c =>
    obtain ⟨s', hstep⟩ := hstuck.next
    have hnext := hstuck.step hstep
    rcases unpackStep_cases hstep with ⟨hp, -⟩ | ⟨hp, -⟩ | ⟨hp, -⟩ | ⟨c', l, n, hp, -⟩ |
      ⟨c', -, rfl | ⟨-, rfl⟩⟩
    · rw [hp] at hplace
      cases hplace
    · rw [hp] at hplace
      cases hplace
    · rw [hp] at hplace
      cases hplace
    · rw [hp] at hplace
      cases hplace
    · exact Unpack.not_stuck rfl hnext
    · exact hnext.not_item c' rfl

/-! The size of the output. -/

theorem unpackStart_shift (h : unpackStart rom src = .ok (v, s)) : 3 ≤ v.shift ∧ s.out = [] := by
  obtain ⟨n, -, h⟩ := bind_eq_ok_iff.mp h
  obtain ⟨t, -, h⟩ := bind_eq_ok_iff.mp h
  dsimp only at h
  split at h <;>
  · cases h
    exact ⟨by decide, rfl⟩

/-- At most 34 bytes at a time. -/
theorem Unpack.bytes_most (hshift : 3 ≤ v.shift) {l : List (BitVec 8)}
    (h : s.bytes rom src v = .ok l) : l.length ≤ 34 := by
  unfold Unpack.bytes at h
  split at h
  · split at h
    · cases h
      decide
    · obtain ⟨c, -, h⟩ := bind_eq_ok_iff.mp h
      split at h
      · have hlength : l.length = 8 := mapM_length h
        omega
      · cases h
        decide
  · split at h
    · obtain ⟨w, -, h⟩ := bind_eq_ok_iff.mp h
      obtain ⟨hi, -, h⟩ := bind_eq_ok_iff.mp h
      dsimp only at h
      split at h
      · cases h
      · have hcount : (hi >>> v.shift).toNat ≤ 31 := by
          rw [BitVec.toNat_ushiftRight, Nat.shiftRight_eq_div_pow]
          have hpow : 2 ^ 3 ≤ 2 ^ v.shift := Nat.pow_le_pow_right (by decide) hshift
          have hle : hi.toNat / 2 ^ v.shift ≤ hi.toNat / 2 ^ 3 :=
            Nat.div_le_div_left hpow (by decide)
          have := hi.isLt
          omega
        rw [copyForward_length h]
        omega
    · obtain ⟨b, -, h⟩ := bind_eq_ok_iff.mp h
      cases h
      rw [List.length_singleton]
      decide
  · cases h
    decide

/-- A step that puts something out goes on. -/
theorem unpackStep_of_adds (h : 0 < s.adds rom src v) :
    ∃ s', unpackStep rom src v s = .ok (.inl s') := by
  unfold Unpack.adds at h
  split at h
  next l hl =>
    unfold Unpack.bytes at hl
    unfold unpackStep
    split at hl
    next hplace =>
      rw [hplace]
      dsimp only
      split at hl
      next =>
        cases hl
        exact absurd h (Nat.lt_irrefl 0)
      next hx =>
        obtain ⟨c, hc, hl⟩ := bind_eq_ok_iff.mp hl
        split at hl
        next hzero => exact ⟨_, by rw [if_neg hx, hc, ok_bind, if_pos hzero, hl]; rfl⟩
        next =>
          cases hl
          exact absurd h (Nat.lt_irrefl 0)
    next c hplace =>
      split at hl
      next hbit => exact ⟨_, by rw [if_pos hbit, hl]; rfl⟩
      next hbit =>
        obtain ⟨b, hb, -⟩ := bind_eq_ok_iff.mp hl
        exact ⟨_, by rw [if_neg hbit, hb]; rfl⟩
    next =>
      cases hl
      exact absurd h (Nat.lt_irrefl 0)
  next => exact absurd h (Nat.lt_irrefl 0)

end

/-- What $C00000 holds: the first segment's length $0900, and at its end, $0902, a trailer of
one item whose segment ends there again. -/
def endlessByte (k : Nat) : BitVec 8 :=
  if k = 1 then 0x09
  else if k = 0x0902 then 0x01
  else if k = 0x0903 then 0x02
  else if k = 0x0904 then 0x09
  else 0

def endlessRom : List (BitVec 8) := (List.range 0x10000).map endlessByte

theorem srcRd_endless (a : BitVec 16) : srcRd endlessRom 0xC00000 a = .ok (endlessByte a.toNat) := by
  have hbank : bank (bank 0xC00000 ++ a) = 0xC0 := by
    unfold bank
    rw [BitVec.extractLsb'_append_eq_left]
    decide
  have hlow : low (bank 0xC00000 ++ a) = a := by
    unfold low
    rw [BitVec.extractLsb'_append_eq_right]
  have hoff : snesToFile (bank 0xC00000 ++ a) = some a.toNat := by
    unfold snesToFile
    rw [hbank, hlow]
    simp
  have hbyte : endlessRom[a.toNat]? = some (endlessByte a.toNat) := by
    unfold endlessRom
    rw [List.getElem?_map, List.getElem?_range a.isLt]
    rfl
  unfold srcRd
  dsimp only
  rw [hoff]
  dsimp only
  rw [hbyte]

/-- Three times around the bank, eight zeros at a time, from the trailer to itself. -/
structure Unpack.Endless (s : Unpack) : Prop where
  place : s.place = .head
  stop : s.stop = 0x0902
  x : s.x = 0x0902 ∨ ∃ j < 21845, s.x.toNat = (0x0905 + 9 * j) % 0x10000

theorem endless_trailer : rdWord endlessRom 0xC00000 (0x0902 + 1) = .ok 0x0902 := by
  unfold rdWord
  rw [srcRd_endless, srcRd_endless]
  rfl

theorem endless_literals (x : BitVec 16) : ∃ l, literals8 endlessRom 0xC00000 x = .ok l := by
  unfold literals8
  simp only [srcRd_endless]
  exact ⟨_, rfl⟩

theorem endless_step (v : Variant) {s : Unpack} (h : s.Endless) :
    ∃ s', unpackStep endlessRom 0xC00000 v s = .ok (.inl s') ∧ s'.Endless := by
  have hx := h.x
  unfold unpackStep
  rw [h.place]
  dsimp only
  by_cases htrailer : s.x = s.stop
  · have hat : s.x = 0x0902 := htrailer.trans h.stop
    have hitems : endlessByte (0x0902 : BitVec 16).toNat = 1 := by decide
    rw [if_pos htrailer, hat, srcRd_endless, hitems, ok_bind, if_neg (by decide), endless_trailer]
    have hstop : low 0xC00000 + 0x0902 = 0x0902 := by decide
    have hafter : (0x0902 + 3 : BitVec 16).toNat = (0x0905 + 9 * 0) % 0x10000 := by decide
    exact ⟨_, rfl, rfl, hstop, .inr ⟨0, by decide, hafter⟩⟩
  · have hne : s.x ≠ 0x0902 := fun heq => htrailer (heq.trans h.stop.symm)
    obtain ⟨j, hj, hxj⟩ := hx.resolve_left hne
    have hzero : endlessByte s.x.toNat = 0 := by
      unfold endlessByte
      rw [if_neg (by omega), if_neg (by omega), if_neg (by omega), if_neg (by omega)]
    obtain ⟨l, hl⟩ := endless_literals s.x
    rw [if_neg htrailer, srcRd_endless, hzero, ok_bind, if_pos rfl, hl]
    refine ⟨_, rfl, rfl, h.stop, ?_⟩
    have hnext : (s.x + 9).toNat = (s.x.toNat + 9) % 0x10000 := BitVec.toNat_add _ _
    by_cases hlast : j + 1 < 21845
    · have hmore : (s.x + 9).toNat = (0x0905 + 9 * (j + 1)) % 0x10000 := by omega
      exact .inr ⟨j + 1, hlast, hmore⟩
    · have hback : (s.x + 9).toNat = 0x0902 := by omega
      exact .inl (BitVec.eq_of_toNat_eq hback)

/-- A back-reference of offset 0: to the byte it is to write itself. -/
def Unpack.ZeroOffset (rom : List (BitVec 8)) (src : BitVec 24) (v : Variant) (s : Unpack) : Prop :=
  ∃ c w, s.place = .item c ∧ c.getLsbD 0 = true ∧ rdWord rom src s.x = .ok w ∧ w &&& v.mask = 0

/-- A back-reference copies bytes that are there when it reads them. -/
def Unpack.CopiesProduced (rom : List (BitVec 8)) (src : BitVec 24) (v : Variant) (s : Unpack) :
    Prop :=
  ∀ c, s.place = .item c → c.getLsbD 0 = true → ∃ w hi l s',
    rdWord rom src s.x = .ok w ∧ srcRd rom src (s.x + 1) = .ok hi ∧
    unpackStep rom src v s = .ok (.inl s') ∧ s'.out = s.out ++ l ∧
    l.length = (hi >>> v.shift).toNat + 3 ∧ (w &&& v.mask).toNat ≤ s.out.length ∧
    ∀ k < l.length, s.out.length - (w &&& v.mask).toNat + k < s.out.length + k ∧
      l[k]? = (s.out ++ l)[s.out.length - (w &&& v.mask).toNat + k]?

section

variable {rom : List (BitVec 8)} {src : BitVec 24} {v : Variant} {s s' : Unpack}

theorem srcRd_error {a : BitVec 16} {e : DecompressFail} (h : srcRd rom src a = .error e) :
    e.isDecompressError = true := by
  unfold srcRd at h
  dsimp only at h
  split at h
  · cases h
    rfl
  · split at h
    · cases h
      rfl
    · cases h

theorem rdWord_error {a : BitVec 16} {e : DecompressFail} (h : rdWord rom src a = .error e) :
    e.isDecompressError = true := by
  rcases bind_error_cases h with h | ⟨lo, -, h⟩
  · exact srcRd_error h
  · rcases bind_error_cases h with h | ⟨hi, -, h⟩
    · exact srcRd_error h
    · cases h

/-- A copy that starts within the output stays within it. -/
theorem copyForward_total {n at_ : Nat} {out : List (BitVec 8)} (h : at_ < out.length) :
    ∃ l, copyForward n at_ out = .ok l := by
  induction n generalizing at_ out with
  | zero => exact ⟨[], rfl⟩
  | succ n ih =>
    obtain ⟨l, hl⟩ := @ih (at_ + 1) (out ++ [out[at_]]) (by simpa using h)
    refine ⟨out[at_] :: l, ?_⟩
    rw [copyForward, List.getElem?_eq_getElem h]
    dsimp only
    rw [hl]
    rfl

theorem copyForward_reads {n at_ : Nat} {out l : List (BitVec 8)}
    (h : copyForward n at_ out = .ok l) :
    ∀ k < l.length, at_ + k < out.length + k ∧ l[k]? = (out ++ l)[at_ + k]? := by
  induction n generalizing at_ out l with
  | zero =>
    cases h
    intro k hk
    exact absurd hk (Nat.not_lt_zero k)
  | succ n ih =>
    rw [copyForward] at h
    split at h
    · cases h
    next b hb =>
      obtain ⟨rest, hrest, h⟩ := bind_eq_ok_iff.mp h
      cases h
      obtain ⟨hat, hbyte⟩ := List.getElem?_eq_some_iff.mp hb
      intro k hk
      refine ⟨by omega, ?_⟩
      cases k with
      | zero => rw [List.getElem?_cons_zero, Nat.add_zero, List.getElem?_append_left hat, hb]
      | succ k =>
        obtain ⟨-, hread⟩ := ih hrest k (by simpa using hk)
        rw [List.getElem?_cons_succ, hread, List.append_assoc, Nat.add_right_comm, Nat.add_assoc]
        rfl

theorem backReference_error {x : BitVec 16} {out : List (BitVec 8)} {e : DecompressFail}
    (h : backReference rom src v x out = .error e) : e.isDecompressError = true ∨
      ∃ w, rdWord rom src x = .ok w ∧ w &&& v.mask = 0 := by
  rcases bind_error_cases h with h | ⟨w, hw, h⟩
  · exact .inl (rdWord_error h)
  · rcases bind_error_cases h with h | ⟨hi, -, h⟩
    · exact .inl (srcRd_error h)
    · dsimp only at h
      split at h
      · cases h
        exact .inl rfl
      · refine .inr ⟨w, hw, ?_⟩
        by_contra hne
        have hpos : 0 < (w &&& v.mask).toNat :=
          Nat.pos_of_ne_zero fun hzero => hne (BitVec.eq_of_toNat_eq hzero)
        obtain ⟨l, hl⟩ := @copyForward_total ((hi >>> v.shift).toNat + 3)
          (out.length - (w &&& v.mask).toNat) out (by omega)
        rw [hl] at h
        cases h

/-- Nothing but a back-reference of offset 0 fails with anything but `DecompressError`. -/
theorem unpackStep_error {e : DecompressFail} (h : unpackStep rom src v s = .error e) :
    e.isDecompressError = true ∨ s.ZeroOffset rom src v := by
  unfold unpackStep at h
  split at h
  · left
    split at h
    · rcases bind_error_cases h with h | ⟨t, -, h⟩
      · exact srcRd_error h
      · dsimp only at h
        split at h
        · cases h
        · rcases bind_error_cases h with h | ⟨w, -, h⟩
          · exact rdWord_error h
          · cases h
    · rcases bind_error_cases h with h | ⟨c, -, h⟩
      · exact srcRd_error h
      · split at h
        · rcases bind_error_cases h with h | ⟨l, -, h⟩
          · obtain ⟨k, -, hk⟩ := mapM_error h
            exact srcRd_error hk
          · cases h
        · cases h
  next c hplace =>
    split at h
    next hbit =>
      rcases bind_error_cases h with h | ⟨l, -, h⟩
      · rcases backReference_error h with h | ⟨w, hw, hzero⟩
        · exact .inl h
        · exact .inr ⟨c, w, hplace, hbit, hw, hzero⟩
      · cases h
    next =>
      rcases bind_error_cases h with h | ⟨b, -, h⟩
      · exact .inl (srcRd_error h)
      · cases h
  · left
    split at h
    · cases h
    · split at h
      · cases h
        rfl
      · cases h

theorem rdWord_high {a w : BitVec 16} (h : rdWord rom src a = .ok w) :
    ∃ hi, srcRd rom src (a + 1) = .ok hi := by
  obtain ⟨lo, -, h⟩ := bind_eq_ok_iff.mp h
  obtain ⟨hi, hhi, -⟩ := bind_eq_ok_iff.mp h
  exact ⟨hi, hhi⟩

theorem Unpack.ZeroOffset.fails (h : s.ZeroOffset rom src v) :
    unpackStep rom src v s = .error .indexError := by
  obtain ⟨c, w, hplace, hbit, hw, hzero⟩ := h
  obtain ⟨hi, hhi⟩ := rdWord_high hw
  have hcopy : backReference rom src v s.x s.out = .error .indexError := by
    unfold backReference
    have hoffset : (w &&& v.mask).toNat = 0 := by
      rw [hzero]
      rfl
    rw [hw, ok_bind, hhi, ok_bind, hoffset]
    dsimp only
    rw [if_neg (Nat.not_lt_zero _), copyForward]
    simp
  unfold unpackStep
  rw [hplace]
  dsimp only
  rw [if_pos hbit, hcopy]
  rfl

/-- A back-reference whose step goes on copies bytes produced. -/
theorem Unpack.copiesProduced (h : unpackStep rom src v s = .ok (.inl s')) :
    s.CopiesProduced rom src v := by
  intro c hplace hbit
  have hstep := h
  unfold unpackStep at h
  rw [hplace] at h
  dsimp only at h
  rw [if_pos hbit] at h
  obtain ⟨l, hl, h⟩ := bind_eq_ok_iff.mp h
  obtain ⟨w, hw, hl⟩ := bind_eq_ok_iff.mp hl
  obtain ⟨hi, hhi, hl⟩ := bind_eq_ok_iff.mp hl
  dsimp only at hl
  split at hl
  · cases hl
  next hle =>
    cases h
    exact ⟨w, hi, l, _, hw, hhi, hstep, rfl, copyForward_length hl, Nat.le_of_not_lt hle,
      copyForward_reads hl⟩

end

/-- Where it stops, it has copied bytes produced only or raises `DecompressError`, if and only
if it met no back-reference of offset 0. -/
theorem decompress_fails_exact (rom : List (BitVec 8)) (src : BitVec 24) (n : Nat)
    (r : Except DecompressFail (List (BitVec 8))) (h : decompress rom src n = some r) :
    ((∃ out, r = .ok out ∧
        ∀ v s, Unpack.Visited rom src v s → s.CopiesProduced rom src v) ∨
      ∃ e, r = .error e ∧ e.isDecompressError = true) ↔
    ∀ v s, Unpack.Visited rom src v s → ¬s.ZeroOffset rom src v := by
  unfold decompress at h
  cases hstart : unpackStart rom src with
  | error e =>
    rw [hstart] at h
    cases h
    have hnone : ∀ v s, ¬Unpack.Visited rom src v s := by
      rintro v s ⟨s₀, hs₀, -⟩
      rw [hstart] at hs₀
      cases hs₀
    refine ⟨fun _ v s hs => absurd hs (hnone v s), fun _ => .inr ⟨e, rfl, ?_⟩⟩
    rcases bind_error_cases hstart with h | ⟨w, -, h⟩
    · exact rdWord_error h
    · rcases bind_error_cases h with h | ⟨t, -, h⟩
      · exact srcRd_error h
      · cases h
  | ok start =>
    obtain ⟨v₀, s₀⟩ := start
    rw [hstart] at h
    dsimp only at h
    have hvisited {v : Variant} {s : Unpack} (hs : Unpack.Visited rom src v s) :
        v = v₀ ∧ Reached (unpackStep rom src v₀) s₀ s := by
      obtain ⟨s₁, hs₁, hreach⟩ := hs
      rw [hstart] at hs₁
      cases hs₁
      exact ⟨rfl, hreach⟩
    constructor
    · rintro hends v s hs hzero
      obtain ⟨rfl, hreach⟩ := hvisited hs
      have hr : r = .error .indexError := run_result h hreach hzero.fails
      rcases hends with ⟨out, hout, -⟩ | ⟨e, he, herror⟩
      · rw [hr] at hout
        cases hout
      · rw [hr] at he
        cases he
        cases herror
    · intro hnone
      obtain ⟨t, ht, hlast⟩ := run_last h
      cases r with
      | error e =>
        right
        refine ⟨e, rfl, ?_⟩
        rcases unpackStep_error hlast with herror | hzero
        · exact herror
        · exact absurd hzero (hnone v₀ t ⟨s₀, hstart, ht⟩)
      | ok out =>
        refine .inl ⟨out, rfl, fun v s hs c hplace hbit => ?_⟩
        obtain ⟨rfl, hreach⟩ := hvisited hs
        cases hstep : unpackStep rom src v s with
        | error e =>
          have hr : (.ok out : Except DecompressFail _) = .error e :=
            run_result h hreach hstep
          cases hr
        | ok next =>
          cases next with
          | inl s' =>
            obtain ⟨w, hi, l, s'', hall⟩ := Unpack.copiesProduced hstep c hplace hbit
            rw [← hstep]
            exact ⟨w, hi, l, s'', hall⟩
          | inr out' =>
            unfold unpackStep at hstep
            rw [hplace] at hstep
            dsimp only at hstep
            rw [if_pos hbit] at hstep
            obtain ⟨l, -, hstep⟩ := bind_eq_ok_iff.mp hstep
            cases hstep

/-- $C00000: one segment, with a literal, a back-reference to it and six more literals. -/
def repeatRom : List (BitVec 8) :=
  [0x0A, 0x00, 0x02, 0xAA, 0x01, 0x00, 0x01, 0x02, 0x03, 0x04, 0x05, 0x06, 0x00]

theorem decompress_fails_exact_repeat :
    let r : Except DecompressFail (List (BitVec 8)) :=
      .ok [0xAA, 0xAA, 0xAA, 0xAA, 0x01, 0x02, 0x03, 0x04, 0x05, 0x06]
    ((∃ out, r = .ok out ∧ ∀ v s, Unpack.Visited repeatRom 0xC00000 v s →
        s.CopiesProduced repeatRom 0xC00000 v) ∨
      ∃ e, r = .error e ∧ e.isDecompressError = true) ↔
    ∀ v s, Unpack.Visited repeatRom 0xC00000 v s → ¬s.ZeroOffset repeatRom 0xC00000 v :=
  decompress_fails_exact repeatRom 0xC00000 20 _ rfl

/-- $C00000: a back-reference of offset 0 is the first item. -/
def zeroOffsetRom : List (BitVec 8) := [0x01, 0x00, 0x01, 0x00, 0x00]

theorem decompress_indexError : ¬∀ (rom : List (BitVec 8)) (src : BitVec 24) (n : Nat)
    (r : Except DecompressFail (List (BitVec 8))), decompress rom src n = some r →
      (∃ out, r = .ok out ∧
        ∀ v s, Unpack.Visited rom src v s → s.CopiesProduced rom src v) ∨
      ∃ e, r = .error e ∧ e.isDecompressError = true := by
  intro hall
  have hfail : decompress zeroOffsetRom 0xC00000 3 = some (.error .indexError) := rfl
  rcases hall _ _ _ _ hfail with ⟨out, hout, -⟩ | ⟨e, he, herror⟩
  · cases hout
  · cases he
    cases herror

end CtRecomp
