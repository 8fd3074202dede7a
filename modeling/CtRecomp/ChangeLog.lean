import Mathlib.Order.Lattice
import Mathlib.Order.Defs.LinearOrder
import Mathlib.Data.List.Chain

namespace CtRecomp.ChangeLog

/-! A value kept as the list of its changes. -/

section

variable {κ α : Type} [DecidableEq α]

/-- The value at each key where it is not the one before. -/
def record (v : κ → α) : α → List κ → List (κ × α)
  | _, [] => []
  | a, k :: ks => if v k ≠ a then (k, v k) :: record v (v k) ks else record v a ks

variable {v : κ → α} {a : α} {ks : List κ}

theorem record_keys : ((record v a ks).map Prod.fst).Sublist ks := by
  induction ks generalizing a with
  | nil => exact List.Sublist.refl _
  | cons k ks ih =>
    unfold record
    split
    next => exact ih.cons_cons k
    next => exact ih.cons k

/-- Each entry differs from the value before it. -/
theorem record_differs : (a :: (record v a ks).map Prod.snd).IsChain (· ≠ ·) := by
  induction ks generalizing a with
  | nil => exact List.isChain_singleton a
  | cons k ks ih =>
    unfold record
    split
    next hne => exact List.isChain_cons_cons.mpr ⟨hne.symm, ih⟩
    next => exact ih

end

section

variable {κ α : Type} [LinearOrder κ]

/-- The value of the last entry at or before a key: a cursor walks the list. -/
def latest (a : α) : List (κ × α) → κ → α
  | [], _ => a
  | (k, b) :: log, f => if k ≤ f then latest b log f else a

variable {v : κ → α} {a : α} {ks : List κ} {f : κ}

theorem latest_later {log : List (κ × α)} (h : ∀ p ∈ log, f < p.1) : latest a log f = a := by
  cases log with
  | nil => rfl
  | cons p log =>
    have hp := h p List.mem_cons_self
    exact if_neg (not_le.mpr hp)

/-- The log of a value that changes at the keys only. -/
theorem latest_all (h : ks.Pairwise (· < ·)) (hbefore : (∀ k ∈ ks, f < k) → v f = a)
    (hsame : ∀ k ∈ ks, k ≤ f → (∀ k' ∈ ks, k' ≤ f → k' ≤ k) → v f = v k) :
    latest a (ks.map fun k => (k, v k)) f = v f := by
  induction ks generalizing a with
  | nil => exact (hbefore fun k hk => absurd hk List.not_mem_nil).symm
  | cons k ks ih =>
    obtain ⟨hk, hks⟩ := List.pairwise_cons.mp h
    rw [List.map_cons, latest]
    by_cases hf : k ≤ f
    · rw [if_pos hf]
      refine ih hks (fun hlater => ?_) fun k' hk' hle hmax => ?_
      · refine hsame k List.mem_cons_self hf fun k' hk' hle => ?_
        rcases List.mem_cons.mp hk' with rfl | hk'
        · exact le_refl _
        · exact absurd hle (not_le.mpr (hlater k' hk'))
      · refine hsame k' (List.mem_cons_of_mem _ hk') hle fun k'' hk'' hle'' => ?_
        rcases List.mem_cons.mp hk'' with rfl | hk''
        · exact (hk k' hk').le
        · exact hmax k'' hk'' hle''
    · rw [if_neg hf]
      refine (hbefore fun k' hk' => ?_).symm
      rcases List.mem_cons.mp hk' with rfl | hk'
      · exact not_le.mp hf
      · exact (not_le.mp hf).trans (hk k' hk')

variable [DecidableEq α]

theorem record_increases (h : ks.Pairwise (· < ·)) :
    (record v a ks).Pairwise fun p q => p.1 < q.1 :=
  List.pairwise_map.mp (h.sublist record_keys)

/-- Leaving out the entries that change nothing changes nothing. -/
theorem latest_record (h : ks.Pairwise (· < ·)) :
    latest a (record v a ks) f = latest a (ks.map fun k => (k, v k)) f := by
  induction ks generalizing a with
  | nil => rfl
  | cons k ks ih =>
    obtain ⟨hk, hks⟩ := List.pairwise_cons.mp h
    rw [List.map_cons, latest]
    unfold record
    by_cases hne : v k ≠ a
    · rw [if_pos hne, latest, ih hks]
    · have heq : v k = a := not_not.mp hne
      rw [if_neg hne]
      by_cases hf : k ≤ f
      · rw [if_pos hf, heq, ih hks]
      · have hlater : ∀ p ∈ record v a ks, f < p.1 := fun p hp => by
          have hmem := record_keys.subset (List.mem_map_of_mem (f := Prod.fst) hp)
          exact (not_le.mp hf).trans (hk p.1 hmem)
        rw [if_neg hf, latest_later hlater]

/-- A value that changes at the keys only is what its recorded changes say. -/
theorem latest_changes (h : ks.Pairwise (· < ·)) (hbefore : (∀ k ∈ ks, f < k) → v f = a)
    (hsame : ∀ k ∈ ks, k ≤ f → (∀ k' ∈ ks, k' ≤ f → k' ≤ k) → v f = v k) :
    latest a (record v a ks) f = v f := by
  rw [latest_record h, latest_all h hbefore hsame]

end

end CtRecomp.ChangeLog
