/-! A machine brought up to date only when someone looks at it. -/

/-- Steps due at clocks of their own; each reads an input. -/
structure CatchUp (ι σ : Type) where
  due : σ → Option Nat
  step : ι → σ → σ
  left : σ → Nat
  falls : ∀ s c i, due s = some c → left (step i s) < left s

namespace CatchUp

variable {ι σ : Type} (M : CatchUp ι σ)

def run (input : Nat → ι) (now : Nat) : Nat → σ → σ
  | 0, s => s
  | n + 1, s =>
    match M.due s with
    | none => s
    | some c => if c ≤ now then run input now n (M.step (input c) s) else s

/-- The steps due by `now`, each with the input at its own clock. -/
def upTo (input : Nat → ι) (now : Nat) (s : σ) : σ := M.run input now (M.left s) s

variable {M} {input input' : Nat → ι} {now now' : Nat} {s : σ}

theorem run_enough {n m : Nat} (hn : M.left s ≤ n) (hm : M.left s ≤ m) :
    M.run input now n s = M.run input now m s := by
  induction n generalizing m s with
  | zero =>
    cases m with
    | zero => rfl
    | succ m =>
      unfold run
      cases hd : M.due s with
      | none => rfl
      | some c => exact absurd (M.falls s c (input c) hd) (by omega)
  | succ n ih =>
    unfold run
    cases hd : M.due s with
    | none =>
      cases m with
      | zero => rfl
      | succ m => simp only [hd]
    | some c =>
      have hfalls := M.falls s c (input c) hd
      cases m with
      | zero => omega
      | succ m =>
        simp only [hd]
        rw [ih (m := m) (by omega) (by omega)]

theorem upTo_none (hd : M.due s = none) : M.upTo input now s = s := by
  unfold upTo
  cases M.left s with
  | zero => rfl
  | succ n =>
    unfold run
    rw [hd]

theorem upTo_early {c : Nat} (hd : M.due s = some c) (hc : now < c) : M.upTo input now s = s := by
  unfold upTo
  cases M.left s with
  | zero => rfl
  | succ n =>
    unfold run
    rw [hd]
    exact if_neg (Nat.not_le_of_lt hc)

theorem upTo_due {c : Nat} (hd : M.due s = some c) (hc : c ≤ now) :
    M.upTo input now s = M.upTo input now (M.step (input c) s) := by
  have hfalls := M.falls s c (input c) hd
  cases hn : M.left s with
  | zero => omega
  | succ n =>
    have hone : M.run input now (n + 1) s = M.run input now n (M.step (input c) s) := by
      conv => lhs; unfold run
      rw [hd]
      exact if_pos hc
    rw [upTo, hn, hone]
    exact run_enough (by omega) (Nat.le_refl _)

variable (M input now) in
theorem upTo_cases {P : σ → Prop} (early : ∀ r, (∀ c, M.due r = some c → now < c) → P r)
    (due : ∀ r c, M.due r = some c → c ≤ now → P (M.step (input c) r) → P r) : P s := by
  induction hn : M.left s using Nat.strongRecOn generalizing s with
  | ind n ih =>
    cases hd : M.due s with
    | none =>
      refine early s fun c hc => ?_
      rw [hd] at hc
      cases hc
    | some c =>
      by_cases hc : c ≤ now
      · exact due s c hd hc (ih _ (hn ▸ M.falls s c (input c) hd) rfl)
      · refine early s fun c' hc' => ?_
        rw [hd] at hc'
        exact Option.some.inj hc' ▸ Nat.lt_of_not_le hc

theorem upTo_settled (h : ∀ c, M.due s = some c → now < c) : M.upTo input now s = s := by
  cases hd : M.due s with
  | none => exact upTo_none hd
  | some c => exact upTo_early hd (h c hd)

/-- What is left is due later. -/
theorem upTo_later : ∀ c, M.due (M.upTo input now s) = some c → now < c := by
  induction s using upTo_cases M input now with
  | early r h =>
    rw [upTo_settled h]
    exact h
  | due r c hd hc ih =>
    rw [upTo_due hd hc]
    exact ih

/-- In two batches or in one. -/
theorem upTo_upTo (h : now ≤ now') :
    M.upTo input now' (M.upTo input now s) = M.upTo input now' s := by
  induction s using upTo_cases M input now with
  | early r hr => rw [upTo_settled hr]
  | due r c hd hc ih => rw [upTo_due hd hc, ih, upTo_due hd (Nat.le_trans hc h)]

/-- Looking back at an earlier clock changes nothing. -/
theorem upTo_past (h : now ≤ now') :
    M.upTo input' now (M.upTo input now' s) = M.upTo input now' s :=
  upTo_settled fun c hc => Nat.lt_of_le_of_lt h (upTo_later c hc)

/-- What every step keeps. -/
theorem upTo_invariant {P : σ → Prop} (hs : P s)
    (keep : ∀ r c, P r → M.due r = some c → c ≤ now → P (M.step (input c) r)) :
    P (M.upTo input now s) := by
  induction s using upTo_cases M input now with
  | early r hr =>
    rw [upTo_settled hr]
    exact hs
  | due r c hd hc ih =>
    rw [upTo_due hd hc]
    exact ih (keep r c hs hd hc)

/-- Inputs that the steps due cannot tell apart. -/
theorem upTo_congr (P : σ → Prop) (hs : P s)
    (same : ∀ r c, P r → M.due r = some c → c ≤ now →
      M.step (input c) r = M.step (input' c) r ∧ P (M.step (input c) r)) :
    M.upTo input now s = M.upTo input' now s := by
  induction s using upTo_cases M input now with
  | early r hr => rw [upTo_settled hr, upTo_settled hr]
  | due r c hd hc ih =>
    obtain ⟨hstep, hP⟩ := same r c hs hd hc
    have hsame : M.upTo input' now r = M.upTo input' now (M.step (input' c) r) := upTo_due hd hc
    rw [upTo_due hd hc, hsame, ← hstep]
    exact ih hP

end CatchUp
