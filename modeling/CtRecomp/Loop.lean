/-! Steps that may stop with an error, and loops of them. -/

namespace Loop

variable {ε α β σ : Type}

theorem bind_eq_ok_iff {x : Except ε α} {f : α → Except ε β} {b : β} :
    (x >>= f) = .ok b ↔ ∃ a, x = .ok a ∧ f a = .ok b := by
  cases x with
  | error e => simp [bind, Except.bind]
  | ok a => simp [bind, Except.bind]

theorem map_eq_ok_iff {f : α → β} {x : Except ε α} {b : β} :
    (f <$> x) = .ok b ↔ ∃ a, x = .ok a ∧ f a = b := by
  cases x with
  | error e => simp [Functor.map, Except.map]
  | ok a => simp [Functor.map, Except.map]

theorem bind_error_cases {x : Except ε α} {f : α → Except ε β} {e : ε}
    (h : (x >>= f) = .error e) : x = .error e ∨ ∃ a, x = .ok a ∧ f a = .error e := by
  cases x with
  | error e' =>
    cases h
    exact .inl rfl
  | ok a => exact .inr ⟨a, rfl, h⟩

theorem mapM_error {f : α → Except ε β} {as : List α} {e : ε} (h : as.mapM f = .error e) :
    ∃ a ∈ as, f a = .error e := by
  induction as with
  | nil => cases h
  | cons a as ih =>
    rw [List.mapM_cons] at h
    rcases bind_error_cases h with h | ⟨b, -, h⟩
    · exact ⟨a, List.mem_cons_self, h⟩
    · rcases bind_error_cases h with h | ⟨bs, -, h⟩
      · obtain ⟨c, hc, hfc⟩ := ih h
        exact ⟨c, List.mem_cons_of_mem _ hc, hfc⟩
      · cases h

@[simp] theorem ok_bind {a : α} {f : α → Except ε β} : (Except.ok a >>= f) = f a := rfl

@[simp] theorem error_bind {e : ε} {f : α → Except ε β} : (Except.error e >>= f) = .error e := rfl

@[simp] theorem pure_eq_ok {a : α} : (pure a : Except ε α) = .ok a := rfl

@[simp] theorem throw_eq_error {e : ε} : (throw e : Except ε α) = .error e := rfl

/-- A step taken only under its condition. -/
def onlyIf (c : Prop) [Decidable c] (f : σ → Except ε σ) (s : σ) : Except ε σ :=
  if c then f s else .ok s

theorem onlyIf_invariant (P : σ → Prop) {c : Prop} [Decidable c] {f : σ → Except ε σ} {s r : σ}
    (hs : P s) (hf : ∀ r, f s = .ok r → P r) (h : onlyIf c f s = .ok r) : P r := by
  unfold onlyIf at h
  split at h
  next => exact hf r h
  next =>
    cases h
    exact hs

/-- Take steps until one says that there is nothing left to do. -/
def iterate (step : σ → Except ε (Option σ)) : Nat → σ → Except ε σ
  | 0, s => .ok s
  | n + 1, s => do
    match ← step s with
    | none => pure s
    | some s' => iterate step n s'

/-- The loop with the budget its measure gives. -/
def measured (step : σ → Except ε (Option σ)) (μ : σ → Nat) (s : σ) : Except ε σ :=
  iterate step (μ s + 1) s

variable {step : σ → Except ε (Option σ)} {μ : σ → Nat} {P : σ → Prop}

theorem iterate_invariant (keep : ∀ a b, P a → step a = .ok (some b) → P b) {n : Nat} {s r : σ}
    (hs : P s) (h : iterate step n s = .ok r) : P r := by
  induction n generalizing s with
  | zero =>
    cases h
    exact hs
  | succ n ih =>
    obtain ⟨next, hn, h⟩ := bind_eq_ok_iff.mp h
    cases next with
    | none =>
      cases h
      exact hs
    | some s' => exact ih (keep s s' hs hn) h

theorem measured_invariant (keep : ∀ a b, P a → step a = .ok (some b) → P b) {s r : σ}
    (hs : P s) (h : measured step μ s = .ok r) : P r :=
  iterate_invariant keep hs h

/-- A loop whose measure falls never runs out of its budget. -/
theorem iterate_done (falls : ∀ a b, P a → step a = .ok (some b) → P b ∧ μ b < μ a)
    {n : Nat} {s r : σ} (hs : P s) (hn : μ s < n) (h : iterate step n s = .ok r) :
    step r = .ok none := by
  induction n generalizing s with
  | zero => omega
  | succ n ih =>
    obtain ⟨next, hstep, h⟩ := bind_eq_ok_iff.mp h
    cases next with
    | none =>
      cases h
      exact hstep
    | some s' =>
      obtain ⟨hs', hlt⟩ := falls s s' hs hstep
      exact ih hs' (by omega) h

theorem measured_done (falls : ∀ a b, P a → step a = .ok (some b) → P b ∧ μ b < μ a)
    {s r : σ} (hs : P s) (h : measured step μ s = .ok r) : step r = .ok none :=
  iterate_done falls hs (Nat.lt_succ_self _) h

/-- A loop none of whose steps can fail comes back. -/
theorem iterate_total (total : ∀ a, P a → ∃ next, step a = .ok next)
    (keep : ∀ a b, P a → step a = .ok (some b) → P b) {n : Nat} {s : σ} (hs : P s) :
    ∃ r, iterate step n s = .ok r := by
  induction n generalizing s with
  | zero => exact ⟨s, rfl⟩
  | succ n ih =>
    obtain ⟨next, hn⟩ := total s hs
    cases next with
    | none => exact ⟨s, by simp [iterate, hn]⟩
    | some s' =>
      obtain ⟨r, hr⟩ := ih (keep s s' hs hn)
      exact ⟨r, by simp [iterate, hn, hr]⟩

/-- Loops of steps that agree on the states they pass agree. -/
theorem iterate_congr {step' : σ → Except ε (Option σ)} (same : ∀ a, P a → step a = step' a)
    (keep : ∀ a b, P a → step a = .ok (some b) → P b) {n : Nat} {s : σ} (hs : P s) :
    iterate step n s = iterate step' n s := by
  induction n generalizing s with
  | zero => rfl
  | succ n ih =>
    unfold iterate
    rw [← same s hs]
    cases hstep : step s with
    | error e => rfl
    | ok next =>
      cases next with
      | none => rfl
      | some s' => exact ih (keep s s' hs hstep)

/-! What comes back and what it stops with. -/

def Ends (E : ε → Prop) (Q : α → Prop) : Except ε α → Prop
  | .ok a => Q a
  | .error e => E e

section Ends

variable {E : ε → Prop} {Q : α → Prop} {R : β → Prop}

theorem Ends.bind {x : Except ε α} {f : α → Except ε β} (hx : Ends E Q x)
    (hf : ∀ a, x = .ok a → Q a → Ends E R (f a)) : Ends E R (x >>= f) := by
  cases x with
  | ok a => exact hf a rfl hx
  | error e => exact hx

theorem Ends.mono {Q' : α → Prop} {x : Except ε α} (hx : Ends E Q x) (h : ∀ a, Q a → Q' a) :
    Ends E Q' x := by
  cases x with
  | ok a => exact h a hx
  | error e => exact hx

theorem Ends.map {x : Except ε α} {f : α → β} (hx : Ends E Q x) (hf : ∀ a, Q a → R (f a)) :
    Ends E R (f <$> x) := by
  cases x with
  | ok a => exact hf a hx
  | error e => exact hx

theorem onlyIf_ends {Q : α → Prop} {c : Prop} [Decidable c] {f : α → Except ε α} {a : α} (ha : Q a)
    (hf : c → Ends E Q (f a)) : Ends E Q (onlyIf c f a) := by
  unfold onlyIf
  by_cases h : c
  · rw [if_pos h]
    exact hf h
  · rw [if_neg h]
    exact ha

theorem iterate_ends (keep : ∀ a, P a → Ends E (fun next => ∀ b, next = some b → P b) (step a))
    {n : Nat} {s : σ} (hs : P s) : Ends E P (iterate step n s) := by
  induction n generalizing s with
  | zero => exact hs
  | succ n ih =>
    refine (keep s hs).bind fun next _ hnext => ?_
    cases next with
    | none => exact hs
    | some s' => exact ih (hnext s' rfl)

theorem measured_ends (keep : ∀ a, P a → Ends E (fun next => ∀ b, next = some b → P b) (step a))
    {s : σ} (hs : P s) : Ends E P (measured step μ s) :=
  iterate_ends keep hs

end Ends

/-! Two computations side by side. -/

/-- Both come back, with `Q`-related results, or both stop, with `E`-related errors. -/
inductive Related {ε' α' : Type} (E : ε → ε' → Prop) (Q : α → α' → Prop) :
    Except ε α → Except ε' α' → Prop
  | ok {a : α} {a' : α'} (h : Q a a') : Related E Q (.ok a) (.ok a')
  | error {e : ε} {e' : ε'} (h : E e e') : Related E Q (.error e) (.error e')

section Related

variable {ε' α' β' : Type} {E : ε → ε' → Prop} {Q : α → α' → Prop} {R : β → β' → Prop}

theorem Related.bind {x : Except ε α} {x' : Except ε' α'} {f : α → Except ε β}
    {f' : α' → Except ε' β'} (hx : Related E Q x x')
    (hf : ∀ a a', Q a a' → Related E R (f a) (f' a')) : Related E R (x >>= f) (x' >>= f') := by
  cases hx with
  | ok h => exact hf _ _ h
  | error h => exact .error h

theorem Related.mono {Q' : α → α' → Prop} {x : Except ε α} {x' : Except ε' α'}
    (hx : Related E Q x x') (hQ : ∀ a a', Q a a' → Q' a a') : Related E Q' x x' := by
  cases hx with
  | ok h => exact .ok (hQ _ _ h)
  | error h => exact .error h

theorem onlyIf_related {Q : α → α → Prop} {E : ε → ε → Prop} {c c' : Prop} [Decidable c]
    [Decidable c'] {f f' : α → Except ε α} {a a' : α} (hc : c ↔ c') (ha : Q a a')
    (hf : Related E Q (f a) (f' a')) : Related E Q (onlyIf c f a) (onlyIf c' f' a') := by
  unfold onlyIf
  by_cases h : c
  · rw [if_pos h, if_pos (hc.mp h)]
    exact hf
  · rw [if_neg h, if_neg fun h' => h (hc.mpr h')]
    exact .ok ha

end Related

end Loop
