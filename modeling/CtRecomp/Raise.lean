import Mathlib.Init

namespace CtRecomp

/-! Code that raises exceptions and keeps a state, changed also where it raises. -/

abbrev RaiseM (E S : Type) := ExceptT E (StateM S)

section

variable {E S α β : Type}

def raised : Except E α → RaiseM E S α
  | .ok a => pure a
  | .error e => throw e

/-- `finally`: `f` changes the state on the way out, also of an exception's. -/
def RaiseM.finally (m : RaiseM E S α) (f : S → S) : RaiseM E S α := fun s =>
  ((m s).1, f (m s).2)

/-- From `P`, `m` returns in `Q` or raises in `X`. -/
def Spec (P : S → Prop) (m : RaiseM E S α) (Q : α → S → Prop) (X : E → S → Prop) : Prop :=
  ∀ s, P s → match m s with
    | (.ok a, s') => Q a s'
    | (.error e, s') => X e s'

variable {P P' : S → Prop} {m : RaiseM E S α} {Q Q' : α → S → Prop} {X X' : E → S → Prop}

theorem Spec.ok (h : Spec P m Q X) {s s' : S} {a : α} (hs : P s) (hm : m s = (.ok a, s')) :
    Q a s' := by
  have hpost := h s hs
  rw [hm] at hpost
  exact hpost

theorem Spec.error (h : Spec P m Q X) {s s' : S} {e : E} (hs : P s) (hm : m s = (.error e, s')) :
    X e s' := by
  have hpost := h s hs
  rw [hm] at hpost
  exact hpost

theorem spec_of_run (hok : ∀ s s' a, P s → m s = (.ok a, s') → Q a s')
    (herror : ∀ s s' e, P s → m s = (.error e, s') → X e s') : Spec P m Q X := by
  intro s hs
  match hm : m s with
  | (.ok a, s') => exact hok s s' a hs hm
  | (.error e, s') => exact herror s s' e hs hm

theorem Spec.mono (h : Spec P m Q X) (hP : ∀ s, P' s → P s) (hQ : ∀ a s, Q a s → Q' a s)
    (hX : ∀ e s, X e s → X' e s) : Spec P' m Q' X' :=
  spec_of_run (fun _ _ _ hs hm => hQ _ _ (h.ok (hP _ hs) hm))
    (fun _ _ _ hs hm => hX _ _ (h.error (hP _ hs) hm))

theorem Spec.post (h : Spec P m Q X) (hQ : ∀ a s, Q a s → Q' a s) : Spec P m Q' X :=
  h.mono (fun _ hs => hs) hQ fun _ _ he => he

/-- What `m` returned, it returned from some state in `P`. -/
theorem Spec.remember (h : Spec P m Q X) :
    Spec P m (fun a s' => Q a s' ∧ ∃ s, P s ∧ m s = (.ok a, s')) X :=
  spec_of_run (fun s _ _ hs hm => ⟨h.ok hs hm, s, hs, hm⟩) fun _ _ _ hs hm => h.error hs hm

theorem spec_pure {a : α} (h : ∀ s, P s → Q a s) : Spec P (pure a : RaiseM E S α) Q X :=
  fun s hs => h s hs

theorem spec_throw {e : E} (h : ∀ s, P s → X e s) : Spec P (throw e : RaiseM E S α) Q X :=
  fun s hs => h s hs

theorem spec_raised {r : Except E α} (hok : ∀ a, r = .ok a → ∀ s, P s → Q a s)
    (herror : ∀ e s, P s → X e s) : Spec P (raised r : RaiseM E S α) Q X := by
  cases r with
  | ok a => exact spec_pure (hok a rfl)
  | error e => exact spec_throw (herror e)

theorem bind_run (m : RaiseM E S α) (f : α → RaiseM E S β) (s : S) :
    (m >>= f) s = match m s with
      | (.ok a, s') => f a s'
      | (.error e, s') => (.error e, s') := by
  change (match m s with | (r, s') => ExceptT.bindCont f r s') = _
  match m s with
  | (.ok a, s') => rfl
  | (.error e, s') => rfl

theorem get_bind_run (f : S → RaiseM E S α) (s : S) :
    ((get : RaiseM E S S) >>= f) s = f s s := rfl

theorem bind_ok {m : RaiseM E S α} {f : α → RaiseM E S β} {s s'' : S} {b : β}
    (h : (m >>= f) s = (.ok b, s'')) : ∃ a s', m s = (.ok a, s') ∧ f a s' = (.ok b, s'') := by
  rw [bind_run] at h
  generalize m s = r at h
  obtain ⟨e | a, s'⟩ := r
  · cases h
  · exact ⟨a, s', rfl, h⟩

theorem Spec.bind {R : β → S → Prop} {f : α → RaiseM E S β} (h : Spec P m Q X)
    (hf : ∀ a, Spec (Q a) (f a) R X) : Spec P (m >>= f) R X := by
  intro s hs
  rw [bind_run]
  match hm : m s with
  | (.ok a, s') => exact hf a s' (h.ok hs hm)
  | (.error e, s') => exact h.error hs hm

theorem Spec.map {R : β → S → Prop} {f : α → β} (h : Spec P m Q X)
    (hf : ∀ a s, Q a s → R (f a) s) : Spec P (f <$> m) R X := by
  rw [map_eq_pure_bind]
  exact h.bind fun a => spec_pure (hf a)

theorem tryCatch_run (m : RaiseM E S α) (h : E → RaiseM E S α) (s : S) :
    (tryCatch m h : RaiseM E S α) s = match m s with
      | (.ok a, s') => (.ok a, s')
      | (.error e, s') => h e s' := by
  change (match m s with | (r, s') => (match r with
    | .ok a => pure (.ok a)
    | .error e => h e : StateM S (Except E α)) s') = _
  match m s with
  | (.ok a, s') => rfl
  | (.error e, s') => rfl

theorem Spec.tryCatch {Y : E → S → Prop} {handler : E → RaiseM E S α} (h : Spec P m Q Y)
    (hh : ∀ e, Spec (Y e) (handler e) Q X) : Spec P (tryCatch m handler) Q X := by
  intro s hs
  rw [tryCatch_run]
  match hm : m s with
  | (.ok a, s') => exact h.ok hs hm
  | (.error e, s') => exact hh e s' (h.error hs hm)

theorem Spec.finally {f : S → S} (h : Spec P m (fun a s => Q a (f s)) fun e s => X e (f s)) :
    Spec P (RaiseM.finally m f) Q X := by
  intro s hs
  unfold RaiseM.finally
  match hm : m s with
  | (.ok a, s') => exact h.ok hs hm
  | (.error e, s') => exact h.error hs hm

theorem spec_get {Q : S → S → Prop} (h : ∀ s, P s → Q s s) :
    Spec P (get : RaiseM E S S) Q X := fun s hs => h s hs

theorem spec_modify {f : S → S} {Q : PUnit → S → Prop} (h : ∀ s, P s → Q ⟨⟩ (f s)) :
    Spec P (modify f : RaiseM E S PUnit) Q X := fun s hs => h s hs

theorem spec_ite {c : Prop} [Decidable c] {m m' : RaiseM E S α} (h : c → Spec P m Q X)
    (h' : ¬c → Spec P m' Q X) : Spec P (if c then m else m') Q X := by
  by_cases hc : c
  · rw [if_pos hc]
    exact h hc
  · rw [if_neg hc]
    exact h' hc

/-- Whatever `m` returns satisfies `Q`. -/
abbrev Returns (m : RaiseM E S α) (Q : α → Prop) : Prop :=
  Spec (fun _ => True) m (fun a _ => Q a) fun _ _ => True

theorem returns_any (m : RaiseM E S α) : Returns m fun _ => True :=
  spec_of_run (fun _ _ _ _ _ => trivial) fun _ _ _ _ _ => trivial

theorem returns_pure {a : α} {Q : α → Prop} (h : Q a) :
    Returns (pure a : RaiseM E S α) Q := spec_pure fun _ _ => h

theorem returns_throw {e : E} {Q : α → Prop} :
    Returns (throw e : RaiseM E S α) Q := spec_throw fun _ _ => trivial

theorem returns_raised {r : Except E α} {Q : α → Prop}
    (h : ∀ a, r = .ok a → Q a) : Returns (raised r : RaiseM E S α) Q :=
  spec_raised (fun a ha _ _ => h a ha) fun _ _ _ => trivial

theorem Returns.bind {f : α → RaiseM E S β} {Q : α → Prop}
    {Q' : β → Prop} (h : Returns m Q) (hf : ∀ a, Q a → Returns (f a) Q') :
    Returns (m >>= f) Q' :=
  Spec.bind h fun a => spec_of_run (fun _ _ _ hs hrun => (hf a hs).ok trivial hrun)
    fun _ _ _ _ _ => trivial

end

end CtRecomp
