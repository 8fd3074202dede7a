import Mathlib.Algebra.Ring.Nat
import Mathlib.Data.List.Basic

namespace CtRecomp.LowerBound

/-! The first place a sorted table has a key no smaller. -/

/-- The loop over `[lo, hi)`; `before` tells the entries with smaller keys. -/
def lowerBound (before : Nat → Bool) : Nat → Nat → Nat → Nat
  | 0, lo, _ => lo
  | fuel + 1, lo, hi =>
    if lo < hi then
      let mid := (lo + hi) / 2
      if before mid then lowerBound before fuel (mid + 1) hi else lowerBound before fuel lo mid
    else lo

variable {before : Nat → Bool}

/-- Where smaller keys come first, those before it are smaller and the rest are not. -/
theorem lowerBound_split {size : Nat}
    (hsorted : ∀ i j, i ≤ j → j < size → before j = true → before i = true)
    {fuel lo hi : Nat} (hfuel : hi - lo ≤ fuel) (hlo : lo ≤ hi) (hhi : hi ≤ size)
    (hbelow : ∀ i < lo, before i = true) (habove : ∀ i, hi ≤ i → i < size → before i = false) :
    lowerBound before fuel lo hi ≤ size ∧ (∀ i < lowerBound before fuel lo hi, before i = true) ∧
      ∀ i, lowerBound before fuel lo hi ≤ i → i < size → before i = false := by
  induction fuel generalizing lo hi with
  | zero =>
    have hend : lo = hi := by omega
    exact ⟨by rw [lowerBound]; omega, hbelow, fun i hi' => habove i (hend ▸ hi')⟩
  | succ fuel ih =>
    unfold lowerBound
    by_cases hmore : lo < hi
    · rw [if_pos hmore]
      dsimp only
      cases hmid : before ((lo + hi) / 2) with
      | true =>
        refine ih (by omega) (by omega) hhi (fun i hi' => ?_) habove
        exact hsorted i _ (by omega) (by omega) hmid
      | false =>
        refine ih (by omega) (by omega) (by omega) hbelow fun i hle hsize => ?_
        cases hi' : before i with
        | false => rfl
        | true => exact absurd (hsorted _ i hle hsize hi') (by rw [hmid]; exact Bool.false_ne_true)
    · rw [if_neg hmore]
      have hend : lo = hi := by omega
      exact ⟨by omega, hbelow, fun i hi' => habove i (hend ▸ hi')⟩

/-- In a list where such entries come first, what is left from there on. -/
theorem drop_lowerBound {α : Type} {l : List α} {before : α → Bool}
    (hsorted : l.Pairwise fun a b => before b = true → before a = true) :
    l.drop (lowerBound (fun k => (l[k]?).any before) l.length 0 l.length) =
      l.filter fun a => !before a := by
  have hat : ∀ i (hi : i < l.length), (l[i]?.any before) = before l[i] := fun i hi => by
    rw [List.getElem?_eq_getElem hi]
    rfl
  have hmono : ∀ i j, i ≤ j → j < l.length → (l[j]?.any before) = true →
      (l[i]?.any before) = true := by
    intro i j hij hj hless
    rcases Nat.lt_or_eq_of_le hij with hlt | rfl
    · rw [hat j hj] at hless
      rw [hat i (by omega)]
      exact List.pairwise_iff_getElem.mp hsorted i j (by omega) hj hlt hless
    · exact hless
  obtain ⟨-, hbelow, habove⟩ := lowerBound_split hmono (Nat.sub_le l.length 0) (Nat.zero_le _)
    (Nat.le_refl _) (fun i hi => absurd hi (Nat.not_lt_zero i)) fun i hle hlt =>
    absurd hlt (Nat.not_lt_of_le hle)
  generalize lowerBound (fun k => (l[k]?).any before) l.length 0 l.length = n at hbelow habove ⊢
  have hfirst : (l.take n).filter (fun a => !before a) = [] := by
    refine List.filter_eq_nil_iff.mpr fun a ha => ?_
    obtain ⟨i, hi, rfl⟩ := List.mem_iff_getElem.mp ha
    rw [List.length_take] at hi
    have htrue := hbelow i (by omega)
    rw [hat i (by omega)] at htrue
    rw [List.getElem_take, htrue]
    exact Bool.false_ne_true
  have hrest : (l.drop n).filter (fun a => !before a) = l.drop n := by
    refine List.filter_eq_self.mpr fun a ha => ?_
    obtain ⟨i, hi, rfl⟩ := List.mem_iff_getElem.mp ha
    rw [List.length_drop] at hi
    have hfalse := habove (n + i) (Nat.le_add_right n i) (by omega)
    rw [hat (n + i) (by omega)] at hfalse
    rw [List.getElem_drop, hfalse]
    rfl
  calc l.drop n = (l.take n).filter (fun a => !before a) ++
        (l.drop n).filter (fun a => !before a) := by rw [hfirst, hrest, List.nil_append]
    _ = l.filter fun a => !before a := by rw [← List.filter_append, List.take_append_drop]

/-- The loop with indices of `w` bits. -/
def lowerBoundMod (w : Nat) (before : Nat → Bool) : Nat → Nat → Nat → Nat
  | 0, lo, _ => lo
  | fuel + 1, lo, hi =>
    if lo < hi then
      let mid := (lo + hi) % 2 ^ w / 2
      if before mid then lowerBoundMod w before fuel (mid + 1) hi
      else lowerBoundMod w before fuel lo mid
    else lo

/-- The same, while the sum of two indices fits. -/
theorem lowerBoundMod_eq {w fuel lo hi : Nat} (hfits : 2 * hi ≤ 2 ^ w) :
    lowerBoundMod w before fuel lo hi = lowerBound before fuel lo hi := by
  induction fuel generalizing lo hi with
  | zero => rfl
  | succ fuel ih =>
    unfold lowerBoundMod lowerBound
    by_cases hmore : lo < hi
    · rw [if_pos hmore, if_pos hmore, Nat.mod_eq_of_lt (by omega)]
      dsimp only
      cases before ((lo + hi) / 2) with
      | true => exact ih hfits
      | false => exact ih (by omega)
    · rw [if_neg hmore, if_neg hmore]

end CtRecomp.LowerBound
