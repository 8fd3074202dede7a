import Mathlib.Data.List.Basic

namespace CtRecomp.Shrink

/-! A list weeded round after round: each round finds the keys of what fails among what is left,
and drops it. -/

section

variable {α κ : Type} [DecidableEq κ] {key : α → κ}

/-- What a round leaves. -/
def without (key : α → κ) (l : List α) (failed : List κ) : List α :=
  l.filter fun a => key a ∉ failed

/-- From one list to another by rounds that each drop something; `Fails l failed` is a round's
finding. -/
inductive Rounds (key : α → κ) (Fails : List α → List κ → Prop) : List α → List α → Prop
  | refl (l : List α) : Rounds key Fails l l
  | step {l l' : List α} {failed : List κ} (hf : Fails l failed) (hne : failed ≠ [])
      (hrest : Rounds key Fails (without key l failed) l') : Rounds key Fails l l'

variable {Fails : List α → List κ → Prop} {l l' l'' : List α}

theorem mem_without {a : α} {failed : List κ} :
    a ∈ without key l failed ↔ a ∈ l ∧ key a ∉ failed := by
  unfold without
  rw [List.mem_filter, decide_eq_true_iff]

theorem Rounds.trans (h : Rounds key Fails l l') (h' : Rounds key Fails l' l'') :
    Rounds key Fails l l'' := by
  induction h with
  | refl l => exact h'
  | step hf hne _ ih => exact .step hf hne (ih h')

theorem Rounds.subset (h : Rounds key Fails l l') : l' ⊆ l := by
  induction h with
  | refl l => exact List.Subset.refl l
  | step _ _ _ ih => exact fun a ha => (mem_without.mp (ih ha)).1

theorem Rounds.sublist (h : Rounds key Fails l l') : l'.Sublist l := by
  induction h with
  | refl l => exact List.Sublist.refl l
  | step _ _ _ ih => exact ih.trans List.filter_sublist

section

variable (hone : ∀ l failed failed', Fails l failed → Fails l failed' → failed = failed')
include hone

/-- Rounds do not branch: what they reach lies before where they end. -/
theorem Rounds.linear (h : Rounds key Fails l l') (hend : Fails l' [])
    (h' : Rounds key Fails l l'') : Rounds key Fails l'' l' := by
  induction h' with
  | refl l => exact h
  | @step l l'' failed hf hne _ ih =>
    cases h with
    | refl => exact absurd (hone _ _ _ hf hend) hne
    | step hf' _ hrest => exact ih (hone _ _ _ hf hf' ▸ hrest)

/-- What is left failed in no round. -/
theorem Rounds.never (h : Rounds key Fails l l') (hend : Fails l' []) {a : α} (ha : a ∈ l')
    {failed : List κ} (h' : Rounds key Fails l l'') (hf : Fails l'' failed) : key a ∉ failed := by
  cases h.linear hone hend h' with
  | refl =>
    rw [hone _ _ _ hf hend]
    exact List.not_mem_nil
  | step hf' _ hrest =>
    rw [hone _ _ _ hf hf']
    exact (mem_without.mp (hrest.subset ha)).2

end

/-- What is not left failed in some round. -/
theorem Rounds.dropped (h : Rounds key Fails l l') {a : α} (ha : a ∈ l) (hout : a ∉ l') :
    ∃ l₁ failed, Rounds key Fails l l₁ ∧ Fails l₁ failed ∧ key a ∈ failed := by
  induction h with
  | refl l => exact absurd ha hout
  | @step l l' failed hf hne _ ih =>
    by_cases hfail : key a ∈ failed
    · exact ⟨l, failed, .refl l, hf, hfail⟩
    · obtain ⟨l₁, failed₁, hreach, hf₁, hmem⟩ := ih (mem_without.mpr ⟨ha, hfail⟩) hout
      exact ⟨l₁, failed₁, .step hf hne hreach, hf₁, hmem⟩

end

end CtRecomp.Shrink
