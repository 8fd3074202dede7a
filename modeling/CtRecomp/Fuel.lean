import CtRecomp.Raise

namespace CtRecomp

/-! Code with less fuel and with more. -/

section

variable {E S α β : Type} {out : E}

/-- What `m` does without running out, `m'` does too. -/
def Below (out : E) (m m' : RaiseM E S α) : Prop :=
  ∀ s, (m s).1 = .error out ∨ m' s = m s

variable {m m' : RaiseM E S α}

theorem Below.enough (h : Below out m m') {s : S} (hs : (m s).1 ≠ .error out) : m' s = m s :=
  (h s).resolve_left hs

theorem Below.refl (m : RaiseM E S α) : Below out m m := fun _ => .inr rfl

theorem below_throw : Below out (throw out : RaiseM E S α) m' := fun _ => .inl rfl

theorem Below.bind {f f' : α → RaiseM E S β} (h : Below out m m')
    (hf : ∀ a, Below out (f a) (f' a)) : Below out (m >>= f) (m' >>= f') := by
  intro s
  rw [bind_run, bind_run]
  rcases h s with hout | hsame
  · refine .inl ?_
    match hm : m s with
    | (.ok a, s') =>
      rw [hm] at hout
      cases hout
    | (.error e, s') =>
      rw [hm] at hout
      cases hout
      rfl
  · rw [hsame]
    match m s with
    | (.ok a, s') => exact hf a s'
    | (.error e, s') => exact .inr rfl

theorem Below.map {f : α → β} (h : Below out m m') : Below out (f <$> m) (f <$> m') := by
  rw [map_eq_pure_bind, map_eq_pure_bind]
  exact h.bind fun a => .refl _

/-- A handler that raises it again. -/
theorem Below.tryCatch {handler handler' : E → RaiseM E S α} (h : Below out m m')
    (hout : ∀ s, (handler out s).1 = .error out)
    (hh : ∀ e, Below out (handler e) (handler' e)) :
    Below out (tryCatch m handler) (tryCatch m' handler') := by
  intro s
  rw [tryCatch_run, tryCatch_run]
  rcases h s with hraised | hsame
  · refine .inl ?_
    match hm : m s with
    | (.ok a, s') =>
      rw [hm] at hraised
      cases hraised
    | (.error e, s') =>
      rw [hm] at hraised
      cases hraised
      exact hout s'
  · rw [hsame]
    match m s with
    | (.ok a, s') => exact .inr rfl
    | (.error e, s') => exact hh e s'

theorem Below.finally {f : S → S} (h : Below out m m') :
    Below out (RaiseM.finally m f) (RaiseM.finally m' f) := by
  intro s
  rcases h s with hout | hsame
  · exact .inl hout
  · refine .inr ?_
    unfold RaiseM.finally
    rw [hsame]

theorem below_ite {c : Prop} [Decidable c] {n n' : RaiseM E S α} (h : Below out m m')
    (h' : Below out n n') : Below out (if c then m else n) (if c then m' else n') := by
  by_cases hc : c
  · rw [if_pos hc, if_pos hc]
    exact h
  · rw [if_neg hc, if_neg hc]
    exact h'

end

end CtRecomp
