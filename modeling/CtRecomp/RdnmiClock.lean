import CtRecomp.AccessClock

namespace CtRecomp

/-! The VBlank flag's windows, and where `access_hv` has a clock against them. -/

def Clock.frame (c : Clock) : Nat := c.frames - c.fieldBase

/-- Where the flag of frame `f` is raised: clock 2 of line 225. -/
def flagRaised (f : Nat) : Nat := lineBegin f schedVblankLine + 2

/-- Where it is dropped: clock 2 of the next line 0. -/
def flagDropped (f : Nat) : Nat := lineBegin (f + 1) 0 + 2

/-- From clock 6 of line 225 on a read takes the flag. -/
def flagHeld (f : Nat) : Nat := lineBegin f schedVblankLine + 6

def InWindow (f t : Nat) : Prop := flagRaised f ≤ t ∧ t < flagDropped f

/-- At most one line ends between the instruction's start and `t`. -/
def Clock.Near (c : Clock) (t : Nat) : Prop := t < c.lineStart + c.lineClocks + c.nextLineClocks

/-! Where the lines are. -/

theorem flagRaised_eq (f : Nat) : flagRaised f = frameStart f + 306902 := by
  simp [flagRaised, lineBegin, schedVblankLine]

theorem flagHeld_eq (f : Nat) : flagHeld f = frameStart f + 306906 := by
  simp [flagHeld, lineBegin, schedVblankLine]

theorem flagDropped_eq (f : Nat) : flagDropped f = frameStart (f + 1) + 2 := by
  simp [flagDropped, lineBegin]

theorem frameStart_next (f : Nat) : frameStart f + 357364 ≤ frameStart (f + 1) := by
  unfold frameStart
  omega

/-- Windows do not meet. -/
theorem InWindow.unique {f g t : Nat} (hf : InWindow f t) (hg : InWindow g t) : f = g := by
  obtain ⟨hf, hf'⟩ := hf
  obtain ⟨hg, hg'⟩ := hg
  rw [flagRaised_eq] at hf hg
  rw [flagDropped_eq] at hf' hg'
  rcases Nat.lt_trichotomy f g with hlt | heq | hgt
  · have hmono := frameStart_mono (f := f + 1) (g := g) hlt
    omega
  · exact heq
  · have hmono := frameStart_mono (f := g + 1) (g := f) hgt
    omega

/-- Between clock 2 of line 0 and clock 2 of line 225 there is no window. -/
theorem not_inWindow {f g t : Nat} (hfrom : frameStart f + 2 ≤ t) (hto : t < flagRaised f) :
    ¬InWindow g t := by
  rintro ⟨hg, hg'⟩
  rw [flagRaised_eq] at hto hg
  rw [flagDropped_eq] at hg'
  rcases Nat.lt_or_ge g f with hlt | hge
  · have hmono := frameStart_mono (f := g + 1) (g := f) hlt
    omega
  · have hmono := frameStart_mono hge
    omega

section Place

variable {c : Clock} {t : Nat}

theorem Clock.InRaster.lineStart_eq (h : c.InRaster) : c.lineStart =
    frameStart c.frame + 1364 * c.line - if 240 < c.line ∧ c.frame % 2 = 1 then 4 else 0 :=
  h.lineStart

theorem nextLineClocks_le (c : Clock) : c.nextLineClocks ≤ 1364 := by
  unfold Clock.nextLineClocks lineLength
  split <;> split <;> omega

/-- Up to line 240 the lines are whole. -/
theorem Clock.InRaster.upper (h : c.InRaster) (hline : c.line < 240) :
    c.lineStart = frameStart c.frame + 1364 * c.line ∧ c.lineClocks = 1364 := by
  have hstart := h.lineStart_eq
  rw [if_neg (by omega)] at hstart
  refine ⟨hstart, ?_⟩
  unfold Clock.lineClocks
  rw [if_neg (by omega)]

/-- The end of the frame's last line. -/
theorem Clock.InRaster.lastEnd (h : c.InRaster) (hline : c.line = 261) :
    c.lineStart + c.lineClocks = frameStart (c.frame + 1) := by
  have hlen := lineClocks_eq (c := c) rfl
  have hend := frameStart_succ c.frame
  rw [h.lineStart, hline]
  rw [hline] at hlen
  exact (congrArg _ hlen.symm).trans hend.symm

theorem Clock.InRaster.end_le (h : c.InRaster) :
    c.lineStart + c.lineClocks ≤ frameStart (c.frame + 1) := by
  have hlen := lineClocks_eq (c := c) rfl
  have hend := lineBegin_le c.frame h.inFrame
  rw [h.lineStart, ← hlen]
  exact hend

/-- Before line 224 there is no way to line 225. -/
theorem Clock.InRaster.early (h : c.InRaster) (hline : c.line < 224) (ht : c.Near t) :
    t < frameStart c.frame + 306900 := by
  obtain ⟨hstart, hlen⟩ := h.upper (by omega)
  have hnext := nextLineClocks_le c
  unfold Clock.Near at ht
  omega

theorem Clock.InRaster.near_lt (h : c.InRaster) (ht : c.Near t) :
    t < frameStart (c.frame + 1) + 1364 := by
  have hend := h.end_le
  have hnext := nextLineClocks_le c
  unfold Clock.Near at ht
  omega

/-- A clock on line 225 by `access_hv`. -/
theorem Clock.InRaster.at_vblank (h : c.InRaster) (ht : c.lineStart ≤ t)
    (hln : (accessHv c t).1 = schedVblankLine) :
    t = frameStart c.frame + 306900 + (accessHv c t).2 ∧
      (c.line = 224 ∨ c.line = 225 ∧ t < c.lineStart + c.lineClocks) := by
  unfold accessHv at hln ⊢
  dsimp only at hln ⊢
  split at hln
  next hover =>
    rw [if_pos hover]
    split at hln
    next => cases hln
    next =>
      have hline : c.line = 224 := Nat.succ.inj hln
      obtain ⟨hstart, hlen⟩ := h.upper (by omega)
      refine ⟨?_, .inl hline⟩
      dsimp only
      omega
  next hunder =>
    rw [if_neg hunder]
    have hline : c.line = 225 := hln
    obtain ⟨hstart, hlen⟩ := h.upper (by omega)
    refine ⟨?_, .inr ⟨hline, by omega⟩⟩
    dsimp only
    omega

/-- It is the line of a clock from there on. -/
theorem Clock.InRaster.vblank_at (h : c.InRaster) (hline : c.line ≤ 225)
    (ht : frameStart c.frame + 306900 ≤ t) (hnear : c.Near t)
    (hin : c.line = 225 → t < c.lineStart + c.lineClocks) :
    (accessHv c t).1 = schedVblankLine := by
  unfold accessHv
  dsimp only
  have hsome : 224 ≤ c.line := Nat.le_of_not_lt fun hfew => by
    have hearly := h.early hfew hnear
    omega
  obtain ⟨hstart, hlen⟩ := h.upper (by omega)
  rcases (by omega : c.line = 224 ∨ c.line = 225) with hline | hline
  · rw [if_pos (by omega), if_neg (by rw [hline]; decide)]
    exact congrArg Nat.succ hline
  · have hend := hin hline
    rw [if_neg (by omega)]
    exact hline

/-- The line after the last. -/
theorem Clock.InRaster.at_zero (h : c.InRaster) (ht : c.lineStart ≤ t) (hline : c.line ≠ 0)
    (hln : (accessHv c t).1 = 0) : t = frameStart (c.frame + 1) + (accessHv c t).2 := by
  unfold accessHv at hln ⊢
  dsimp only at hln ⊢
  split at hln
  next hover =>
    rw [if_pos hover]
    split at hln
    next hlast =>
      have hend := h.lastEnd (Nat.succ.inj hlast)
      dsimp only
      omega
    next => cases hln
  next => exact absurd hln hline

/-- From clock 2 of line 225 on, `access_hv` tells whether the flag is held. -/
theorem Clock.InRaster.held_iff (h : c.InRaster) (ht : c.lineStart ≤ t) (hnear : c.Near t)
    (hraised : flagRaised c.frame ≤ t) :
    (accessHv c t).1 = schedVblankLine ∧ (accessHv c t).2 < 6 ↔ t < flagHeld c.frame := by
  rw [flagRaised_eq] at hraised
  rw [flagHeld_eq]
  constructor
  · rintro ⟨hln, hfew⟩
    obtain ⟨hplace, -⟩ := h.at_vblank ht hln
    omega
  · intro hheld
    have hstart := h.lineStart_eq
    have hbelow : c.line ≤ 225 := Nat.le_of_not_lt fun habove => by
      split at hstart <;> omega
    have hwhole := h.upper (by omega)
    have hln := h.vblank_at hbelow (by omega) hnear (by omega)
    obtain ⟨hplace, -⟩ := h.at_vblank ht hln
    exact ⟨hln, by omega⟩

/-- Every other line is in this frame. -/
theorem Clock.InRaster.before_zero (h : c.InRaster) (hnear : c.Near t)
    (hln : (accessHv c t).1 ≠ 0) : t < frameStart (c.frame + 1) := by
  have hend := h.end_le
  unfold accessHv at hln
  dsimp only at hln
  split at hln
  next hover =>
    split at hln
    next => exact absurd rfl hln
    next hinside =>
      have hmore : c.line + 1 < 262 := by
        have hin : c.line < 262 := h.inFrame
        have hnot : ¬c.line + 1 = 262 := hinside
        omega
      have hnext := lineBegin_le c.frame hmore
      have hlen : c.nextLineClocks = lineLength c.frame (c.line + 1) := by
        unfold Clock.nextLineClocks
        rw [if_neg (by omega), if_neg (by omega)]
        rfl
      have hbegin := @lineBegin_succ c.frame c.line hmore
      have hline : lineLength c.frame c.line = c.lineClocks := lineClocks_eq rfl
      have hstart : c.lineStart = lineBegin c.frame c.line := h.lineStart
      unfold Clock.Near at hnear
      omega
  next hunder => omega

end Place

end CtRecomp
