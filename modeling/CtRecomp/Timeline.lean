import Mathlib.Logic.Relation

/-- A deterministic queue of timed events: when the next one is due, and the
state once it has fired. -/
structure Timeline (σ : Type*) where
  due : σ → Nat
  fire : σ → σ

namespace Timeline

variable {σ : Type*} (L : Timeline σ)

/-- Some events due by `T` have fired, in order. -/
def Fires (T : Nat) : σ → σ → Prop :=
  Relation.ReflTransGen (fun a b => L.due a ≤ T ∧ b = L.fire a)

/-- Nothing is due by `T` any more. -/
def Settled (T : Nat) (s : σ) : Prop := T < L.due s

variable {L} {T T' : Nat} {a b c : σ}

theorem Fires.refl : L.Fires T a a := Relation.ReflTransGen.refl

theorem Fires.trans (h : L.Fires T a b) (h' : L.Fires T b c) : L.Fires T a c :=
  Relation.ReflTransGen.trans h h'

theorem Fires.fire (h : L.Fires T a b) (hd : L.due b ≤ T) : L.Fires T a (L.fire b) :=
  Relation.ReflTransGen.tail h ⟨hd, rfl⟩

theorem Fires.mono (h : L.Fires T a b) (hT : T ≤ T') : L.Fires T' a b :=
  Relation.ReflTransGen.mono
    (fun _ _ (hs : _ ∧ _) => (⟨Nat.le_trans hs.1 hT, hs.2⟩ : _ ∧ _)) _ _ h

/-- One queue fires in one order, so two partial runs are never apart. -/
theorem Fires.linear (h : L.Fires T a b) (h' : L.Fires T a c) : L.Fires T b c ∨ L.Fires T c b :=
  Relation.ReflTransGen.total_of_right_unique (fun _ _ _ hx hy => hx.2.trans hy.2.symm) h h'

theorem Settled.fires_eq (hs : L.Settled T a) (h : L.Fires T a b) : b = a := by
  induction h with
  | refl => rfl
  | tail _ hstep ih =>
    obtain ⟨hd, -⟩ := hstep
    rw [ih] at hd
    exact absurd hd (Nat.not_le_of_lt hs)

/-- Every partial run goes on to the settled state. -/
theorem Settled.reached (hs : L.Settled T b) (h : L.Fires T a b) (h' : L.Fires T a c) :
    L.Fires T c b := by
  rcases h'.linear h with hcb | hbc
  · exact hcb
  · rw [hs.fires_eq hbc]
    exact Fires.refl

theorem Settled.unique (hb : L.Settled T b) (hc : L.Settled T c) (h : L.Fires T a b)
    (h' : L.Fires T a c) : b = c :=
  hc.fires_eq (hb.reached h h')

theorem Fires.invariant {P : σ → Prop} (h : L.Fires T a b)
    (step : ∀ s, P s → L.due s ≤ T → P (L.fire s)) (ha : P a) : P b := by
  induction h with
  | refl => exact ha
  | tail _ hstep ih =>
    obtain ⟨hd, rfl⟩ := hstep
    exact step _ ih hd

/-- A count that no event lowers is no lower later on. -/
theorem Fires.count_le {μ : σ → Nat} (h : L.Fires T a b) (step : ∀ s, μ s ≤ μ (L.fire s)) :
    μ a ≤ μ b := by
  induction h with
  | refl => exact Nat.le_refl _
  | tail _ hstep ih =>
    obtain ⟨-, rfl⟩ := hstep
    exact Nat.le_trans ih (step _)

end Timeline
