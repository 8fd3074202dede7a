import Mathlib.Data.List.NodupEquivFin
import Mathlib.Data.List.FinRange
import Mathlib.Data.List.Induction
import Mathlib.Tactic.Common

/-! Tables whose keys are searched from a slot of their own on, one slot after the other, and
never taken out. -/

namespace CtRecomp.Probe

variable {K : Type} {n : Nat}

/-- The `j`th slot from `s` on, around the end. -/
def along (s : Fin n) (j : Nat) : Fin n :=
  ⟨(s.val + j) % n, Nat.mod_lt _ (Nat.lt_of_le_of_lt (Nat.zero_le _) s.isLt)⟩

theorem along_zero (s : Fin n) : along s 0 = s := Fin.ext (Nat.mod_eq_of_lt s.isLt)

theorem along_succ (s : Fin n) (j : Nat) : along s (j + 1) = along (along s 1) j := by
  apply Fin.ext
  change (s.val + (j + 1)) % n = ((s.val + 1) % n + j) % n
  rw [Nat.mod_add_mod]
  congr 1
  omega

theorem exists_along (s t : Fin n) : ∃ j < n, along s j = t := by
  have hs := s.isLt
  have ht := t.isLt
  by_cases hle : s.val ≤ t.val
  · refine ⟨t.val - s.val, by omega, Fin.ext ?_⟩
    change (s.val + (t.val - s.val)) % n = t.val
    rw [Nat.add_sub_cancel' hle, Nat.mod_eq_of_lt ht]
  · refine ⟨n - s.val + t.val, by omega, Fin.ext ?_⟩
    change (s.val + (n - s.val + t.val)) % n = t.val
    rw [← Nat.add_assoc, Nat.add_sub_cancel' hs.le, Nat.add_mod_left, Nat.mod_eq_of_lt ht]

variable [DecidableEq K]

/-- The first of the next slots that is empty or the key's own. -/
def search (slots : Fin n → Option K) (k : K) : Nat → Fin n → Option (Fin n)
  | 0, _ => none
  | fuel + 1, s =>
    if slots s = none ∨ slots s = some k then some s else search slots k fuel (along s 1)

variable {slots : Fin n → Option K} {k : K} {fuel : Nat} {s t : Fin n}

theorem search_found (h : search slots k fuel s = some t) : ∃ j < fuel, along s j = t ∧
    (slots t = none ∨ slots t = some k) ∧
    ∀ i < j, ∃ k', slots (along s i) = some k' ∧ k' ≠ k := by
  induction fuel generalizing s with
  | zero => cases h
  | succ fuel ih =>
    rw [search] at h
    split at h
    next hfit =>
      cases h
      exact ⟨0, Nat.succ_pos fuel, along_zero _, hfit, fun i hi => absurd hi (Nat.not_lt_zero i)⟩
    next hfit =>
      obtain ⟨j, hj, hat, hslot, hbefore⟩ := ih h
      refine ⟨j + 1, by omega, (along_succ s j).trans hat, hslot, fun i hi => ?_⟩
      cases i with
      | zero =>
        rw [along_zero]
        obtain ⟨k', hk'⟩ := Option.ne_none_iff_exists'.mp fun hnone => hfit (.inl hnone)
        exact ⟨k', hk', fun heq => hfit (.inr (heq ▸ hk'))⟩
      | succ i =>
        rw [along_succ]
        exact hbefore i (by omega)

theorem search_none (h : search slots k fuel s = none) :
    ∀ j < fuel, slots (along s j) ≠ none ∧ slots (along s j) ≠ some k := by
  induction fuel generalizing s with
  | zero => exact fun j hj => absurd hj (Nat.not_lt_zero j)
  | succ fuel ih =>
    rw [search] at h
    split at h
    next => cases h
    next hfit =>
      intro j hj
      cases j with
      | zero =>
        rw [along_zero]
        exact ⟨fun hnone => hfit (.inl hnone), fun hsome => hfit (.inr hsome)⟩
      | succ j =>
        rw [along_succ]
        exact ih h j (by omega)

variable {hash : K → Fin n}

/-- Each key is where its search ends. -/
def Sound (hash : K → Fin n) (slots : Fin n → Option K) : Prop :=
  ∀ t k, slots t = some k → search slots k n (hash k) = some t

theorem sound_empty : Sound hash (fun _ => none) := fun _ _ h => by cases h

/-- No key has two slots. -/
theorem Sound.unique (h : Sound hash slots) (hs : slots s = some k) (ht : slots t = some k) :
    s = t := Option.some.inj ((h s k hs).symm.trans (h t k ht))

/-- A search ends at the first fitting slot. -/
theorem search_at {j : Nat} (hj : j < fuel) (hfit : slots (along s j) = none ∨
    slots (along s j) = some k) (hbefore : ∀ i < j, ∃ k', slots (along s i) = some k' ∧ k' ≠ k) :
    search slots k fuel s = some (along s j) := by
  induction j generalizing s fuel with
  | zero =>
    obtain ⟨fuel, rfl⟩ := Nat.exists_eq_add_of_le' hj
    rw [along_zero] at hfit ⊢
    rw [search, if_pos hfit]
  | succ j ih =>
    have hpos : 1 ≤ fuel := by omega
    obtain ⟨fuel, rfl⟩ := Nat.exists_eq_add_of_le' hpos
    obtain ⟨k', hk', hne⟩ := hbefore 0 (Nat.succ_pos j)
    rw [along_zero] at hk'
    have hnot : ¬(slots s = none ∨ slots s = some k) := by
      rw [hk']
      rintro (h | h)
      · cases h
      · exact hne (Option.some.inj h)
    rw [search, if_neg hnot, along_succ s j]
    rw [along_succ s j] at hfit
    have hlt : j < fuel := by omega
    refine ih hlt hfit fun i hi => ?_
    rw [← along_succ s i]
    exact hbefore (i + 1) (by omega)

/-- Storing a key where its search ended leaves the others where theirs do. -/
theorem Sound.store (h : Sound hash slots) (hfound : search slots k n (hash k) = some t) :
    Sound hash (Function.update slots t (some k)) := by
  obtain ⟨j, hj, hat, hfit, hbefore⟩ := search_found hfound
  have hkept {k' : K} {u : Fin n} (hu : slots u = some k') (hne : k' ≠ k) : u ≠ t := by
    rintro rfl
    rcases hfit with hnone | hsome
    · rw [hnone] at hu
      cases hu
    · exact hne (Option.some.inj (hu.symm.trans hsome))
  intro u k' hu
  by_cases hut : u = t
  · subst hut
    rw [Function.update_self] at hu
    cases hu
    refine (search_at hj (.inr ?_) fun i hi => ?_).trans (congrArg some hat)
    · rw [hat, Function.update_self]
    · obtain ⟨k', hk', hne⟩ := hbefore i hi
      exact ⟨k', by rw [Function.update_of_ne (hkept hk' hne), hk'], hne⟩
  · rw [Function.update_of_ne hut] at hu
    have hne : k' ≠ k := by
      rintro rfl
      exact hut (Option.some.inj ((h u k' hu).symm.trans hfound))
    obtain ⟨j', hj', hat', -, hbefore'⟩ := search_found (h u k' hu)
    rw [← hat']
    refine search_at hj' (.inr ?_) fun i hi => ?_
    · rw [hat', Function.update_of_ne hut, hu]
    · obtain ⟨k'', hk'', hne'⟩ := hbefore' i hi
      by_cases hit : along (hash k') i = t
      · exact ⟨k, by rw [hit, Function.update_self], hne.symm⟩
      · exact ⟨k'', by rw [Function.update_of_ne hit, hk''], hne'⟩

/-- A search that fails has seen every slot, all taken by others. -/
theorem search_full (h : search slots k n (hash k) = none) (t : Fin n) :
    slots t ≠ none ∧ slots t ≠ some k := by
  obtain ⟨j, hj, rfl⟩ := exists_along (hash k) t
  exact search_none h j hj

/-! Which keys have a slot. -/

def keys (slots : Fin n → Option K) : List K := (List.finRange n).filterMap slots

omit [DecidableEq K] in
theorem mem_keys : k ∈ keys slots ↔ ∃ t, slots t = some k := by
  unfold keys
  rw [List.mem_filterMap]
  exact exists_congr fun t => and_iff_right (List.mem_finRange t)

theorem Sound.nodup (h : Sound hash slots) : (keys slots).Nodup := by
  refine (List.nodup_finRange n).filterMap fun s t k hs ht => ?_
  exact h.unique hs ht

omit [DecidableEq K] in
theorem keys_full : (keys slots).length = n ↔ ∀ t, slots t ≠ none := by
  have hlen : (keys slots).length = (List.finRange n).countP fun t => (slots t).isSome :=
    List.length_filterMap_eq_countP
  rw [hlen]
  constructor
  · intro hcount t
    have hall := List.countP_eq_length.mp (hcount.trans (List.length_finRange).symm)
    exact Option.isSome_iff_ne_none.mp (hall t (List.mem_finRange t))
  · intro hall
    refine (List.countP_eq_length.mpr fun t _ => ?_).trans List.length_finRange
    exact Option.isSome_iff_ne_none.mpr (hall t)

omit [DecidableEq K] in
theorem keys_length_le : (keys slots).length ≤ n :=
  (List.length_filterMap_le _ _).trans_eq List.length_finRange

/-- The keys of a list, in the order they first come. -/
def firsts (ks : List K) : List K :=
  ks.foldl (fun seen k => if k ∈ seen then seen else seen ++ [k]) []

theorem firsts_append (ks : List K) (k : K) :
    firsts (ks ++ [k]) = if k ∈ firsts ks then firsts ks else firsts ks ++ [k] := by
  unfold firsts
  rw [List.foldl_append]
  rfl

theorem mem_firsts {ks : List K} : k ∈ firsts ks ↔ k ∈ ks := by
  induction ks using List.reverseRec with
  | nil => rfl
  | append_singleton ks k' ih =>
    rw [firsts_append, List.mem_append, List.mem_singleton]
    split
    next hold =>
      rw [ih]
      refine ⟨.inl, ?_⟩
      rintro (hk | rfl)
      · exact hk
      · exact ih.mp hold
    next => rw [List.mem_append, ih, List.mem_singleton]

theorem firsts_nodup (ks : List K) : (firsts ks).Nodup := by
  induction ks using List.reverseRec with
  | nil => exact List.nodup_nil
  | append_singleton ks k ih =>
    rw [firsts_append]
    split
    next => exact ih
    next hnew =>
      refine List.nodup_append.mpr ⟨ih, List.nodup_singleton k, ?_⟩
      rintro a ha b hb rfl
      exact hnew (List.mem_singleton.mp hb ▸ ha)

/-- A table after storing keys one after the other: it has the first `n` of them. -/
structure After (hash : K → Fin n) (slots : Fin n → Option K) (ks : List K) : Prop where
  sound : Sound hash slots
  stored : ∀ k, (∃ t, slots t = some k) ↔ k ∈ (firsts ks).take n

theorem after_nil : After hash (fun _ => none) ([] : List K) where
  sound := sound_empty
  stored k := by
    constructor
    · rintro ⟨t, h⟩
      cases h
    · intro h
      cases mem_firsts.mp (List.mem_of_mem_take h)

variable {ks : List K}

theorem After.length (h : After hash slots ks) :
    (keys slots).length = min n (firsts ks).length := by
  have hsame : (keys slots).Perm ((firsts ks).take n) := by
    refine (List.perm_ext_iff_of_nodup h.sound.nodup
      ((firsts_nodup ks).sublist (List.take_sublist _ _))).mpr fun k => ?_
    exact mem_keys.trans (h.stored k)
  rw [hsame.length_eq, List.length_take]

theorem After.room (h : After hash slots ks) (hempty : slots t = none) :
    (firsts ks).length < n := by
  have hfull : (keys slots).length ≠ n := fun hlen => keys_full.mp hlen t hempty
  have hle : (keys slots).length ≤ n := keys_length_le
  rw [h.length] at hfull hle
  omega

/-- With a slot left, every key has one. -/
theorem After.all_stored (h : After hash slots ks) (hempty : slots t = none) (hk : k ∈ ks) :
    ∃ u, slots u = some k := by
  rw [h.stored k, List.take_of_length_le (h.room hempty).le]
  exact mem_firsts.mpr hk

theorem After.found (h : After hash slots ks) (hfound : search slots k n (hash k) = some t) :
    After hash (Function.update slots t (some k)) (ks ++ [k]) := by
  refine ⟨h.sound.store hfound, fun k' => ?_⟩
  have hstored : (∃ u, Function.update slots t (some k) u = some k') ↔
      k' = k ∨ ∃ u, slots u = some k' := by
    obtain ⟨-, -, -, hfit, -⟩ := search_found hfound
    constructor
    · rintro ⟨u, hu⟩
      by_cases hut : u = t
      · subst hut
        rw [Function.update_self] at hu
        exact .inl (Option.some.inj hu).symm
      · rw [Function.update_of_ne hut] at hu
        exact .inr ⟨u, hu⟩
    · rintro (rfl | ⟨u, hu⟩)
      · exact ⟨t, Function.update_self ..⟩
      · by_cases hut : u = t
        · subst hut
          rcases hfit with hnone | hsome
          · rw [hnone] at hu
            cases hu
          · rw [hu] at hsome
            exact ⟨u, by rw [Function.update_self, hsome]⟩
        · exact ⟨u, by rw [Function.update_of_ne hut, hu]⟩
  rw [hstored, h.stored k', firsts_append]
  by_cases hk : ∃ u, slots u = some k
  · have htake := (h.stored k).mp hk
    rw [if_pos (List.mem_of_mem_take htake)]
    refine ⟨?_, .inr⟩
    rintro (rfl | hk')
    · exact htake
    · exact hk'
  · -- its slot was empty, so there was room for it
    obtain ⟨-, -, -, hfit, -⟩ := search_found hfound
    have hroom := h.room (hfit.resolve_right fun hsome => hk ⟨t, hsome⟩)
    have hnew : k ∉ firsts ks := by
      intro hmem
      refine hk ((h.stored k).mpr ?_)
      rwa [List.take_of_length_le hroom.le]
    rw [if_neg hnew, List.take_of_length_le hroom.le, List.take_of_length_le (by simp; omega),
      List.mem_append, List.mem_singleton]
    exact or_comm

theorem After.missed (h : After hash slots ks) (hmissed : search slots k n (hash k) = none) :
    After hash slots (ks ++ [k]) := by
  refine ⟨h.sound, fun k' => ?_⟩
  have hfull : n ≤ (firsts ks).length := by
    have hlen : (keys slots).length = n := keys_full.mpr fun t => (search_full hmissed t).1
    rw [h.length] at hlen
    omega
  rw [h.stored k', firsts_append]
  split
  next => rfl
  next => rw [List.take_append_of_le_length hfull]

end CtRecomp.Probe
