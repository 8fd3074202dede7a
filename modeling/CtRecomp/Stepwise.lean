import CtRecomp.Loop

namespace CtRecomp.Stepwise

/-! A program that goes from state to state until it returns or fails. -/

section

variable {σ ε α : Type} (step : σ → Except ε (σ ⊕ α))

/-- What it ends with, in at most so many steps. -/
def run : Nat → σ → Option (Except ε α)
  | 0, _ => none
  | n + 1, s =>
    match step s with
    | .error e => some (.error e)
    | .ok (.inl s') => run n s'
    | .ok (.inr a) => some (.ok a)

inductive Reached (s : σ) : σ → Prop
  | refl : Reached s s
  | step {t t' : σ} (h : Reached s t) (hstep : step t = .ok (.inl t')) : Reached s t'

def Ends (s : σ) : Prop := ∃ n r, run step n s = some r

variable {step} {s t t' : σ}

theorem Reached.trans (h : Reached step s t) (h' : Reached step t t') : Reached step s t' := by
  induction h' with
  | refl => exact h
  | step _ hstep ih => exact .step ih hstep

theorem Reached.single (h : step s = .ok (.inl t)) : Reached step s t := .step .refl h

/-- What a run ends with, its last state's step is. -/
theorem run_last {n : Nat} {r : Except ε α} (h : run step n s = some r) :
    ∃ t, Reached step s t ∧ step t = r.map .inr := by
  induction n generalizing s with
  | zero => cases h
  | succ n ih =>
    rw [run] at h
    cases hstep : step s with
    | error e =>
      rw [hstep] at h
      cases h
      exact ⟨s, .refl, hstep⟩
    | ok next =>
      rw [hstep] at h
      cases next with
      | inl s' =>
        obtain ⟨t, ht, hlast⟩ := ih h
        exact ⟨t, (Reached.single hstep).trans ht, hlast⟩
      | inr a =>
        cases h
        exact ⟨s, .refl, hstep⟩

theorem run_succ {n : Nat} {r : Except ε α} (hstep : step s = .ok (.inl t))
    (h : run step n t = some r) : run step (n + 1) s = some r := by
  rw [run, hstep]
  exact h

theorem run_stop {r : Except ε α} (hstep : step s = r.map .inr) : run step 1 s = some r := by
  rw [run, hstep]
  cases r <;> rfl

theorem run_reached {r : Except ε α} (h : Reached step s t) {n : Nat}
    (hn : run step n t = some r) : ∃ n, run step n s = some r := by
  induction h generalizing n with
  | refl => exact ⟨n, hn⟩
  | step _ hstep ih => exact ih (run_succ hstep hn)

theorem run_unique {n n' : Nat} {r r' : Except ε α} (h : run step n s = some r)
    (h' : run step n' s = some r') : r = r' := by
  induction n generalizing s n' with
  | zero => cases h
  | succ n ih =>
    cases n' with
    | zero => cases h'
    | succ n' =>
      rw [run] at h h'
      cases hstep : step s with
      | error e =>
        rw [hstep] at h h'
        cases h
        cases h'
        rfl
      | ok next =>
        rw [hstep] at h h'
        cases next with
        | inl s' => exact ih h h'
        | inr a =>
          cases h
          cases h'
          rfl

/-- A run ends with what any state it reaches ends with. -/
theorem run_result {n : Nat} {r r' : Except ε α} (h : run step n s = some r)
    (ht : Reached step s t) (hlast : step t = r'.map .inr) : r = r' := by
  obtain ⟨n', h'⟩ := run_reached ht (run_stop hlast)
  exact run_unique h h'

theorem Ends.of_reached (h : Reached step s t) (ht : Ends step t) : Ends step s := by
  obtain ⟨n, r, hn⟩ := ht
  obtain ⟨n', hn'⟩ := run_reached h hn
  exact ⟨n', r, hn'⟩

/-- A size that keeps growing and stays bounded: the run ends. -/
theorem ends_of_bounded {size : σ → Nat} {bound : Nat}
    (hgrows : ∀ t, Reached step s t →
      Ends step t ∨ ∃ t', Reached step t t' ∧ size t < size t')
    (hbound : ∀ t, Reached step s t → size t ≤ bound) : Ends step s := by
  have hfrom (k : Nat) : ∀ t, Reached step s t → bound - size t ≤ k → Ends step t := by
    induction k with
    | zero =>
      intro t ht hk
      rcases hgrows t ht with hends | ⟨t', ht', hlt⟩
      · exact hends
      · have := hbound t' (ht.trans ht')
        omega
    | succ k ih =>
      intro t ht hk
      rcases hgrows t ht with hends | ⟨t', ht', hlt⟩
      · exact hends
      · have := hbound t' (ht.trans ht')
        exact .of_reached ht' (ih t' (ht.trans ht') (by omega))
  exact hfrom _ s .refl (Nat.le_refl _)

/-- A state that comes back to itself never ends. -/
theorem not_ends_of_cycle {P : σ → Prop} (h : ∀ t, P t → ∃ t', step t = .ok (.inl t') ∧ P t')
    (hs : P s) : ¬Ends step s := by
  rintro ⟨n, r, hn⟩
  induction n generalizing s with
  | zero => cases hn
  | succ n ih =>
    obtain ⟨t, hstep, ht⟩ := h s hs
    rw [run, hstep] at hn
    exact ih ht hn

end

end CtRecomp.Stepwise
