import Mathlib.Algebra.Order.Group.Nat
import Mathlib.Data.Nat.ModEq
import CtRecomp.OverlayRun

namespace CtRecomp

/-! An unchanged sum of page counters means no write, as long as the counters cannot have
come round. -/

theorem sum_map_le {α : Type} {l : List α} {a b : α → Nat} (h : ∀ p ∈ l, a p ≤ b p) :
    (l.map a).sum ≤ (l.map b).sum := List.sum_le_sum h

theorem eq_of_sum_eq {α : Type} {l : List α} {a b : α → Nat} (hle : ∀ p ∈ l, a p ≤ b p)
    (hsum : (l.map a).sum = (l.map b).sum) : ∀ p ∈ l, a p = b p := by
  induction l with
  | nil => simp
  | cons p l ih =>
    obtain ⟨hp, hl⟩ := List.forall_mem_cons.mp hle
    have hrest := sum_map_le hl
    simp only [List.map_cons, List.sum_cons] at hsum
    refine List.forall_mem_cons.mpr ⟨by omega, ih hl (by omega)⟩

theorem sum_mod_map {α : Type} (l : List α) (a : α → Nat) (n : Nat) :
    (l.map fun p => a p % n).sum % n = (l.map a).sum % n := by
  rw [List.sum_nat_mod (l.map a), List.map_map]
  rfl

/-- Counters that only grow, by less than their modulus in all, and add up to the same:
they are the same. -/
theorem eq_of_sum_mod_eq {α : Type} {l : List α} {a b : α → Nat} {n : Nat}
    (hle : ∀ p ∈ l, a p ≤ b p) (hlt : (l.map b).sum < (l.map a).sum + n)
    (hsum : (l.map fun p => a p % n).sum = (l.map fun p => b p % n).sum) :
    ∀ p ∈ l, a p = b p := by
  refine eq_of_sum_eq hle ?_
  have hmod : (l.map a).sum % n = (l.map b).sum % n := by
    rw [← sum_mod_map l a, ← sum_mod_map l b, hsum]
  have hsums := sum_map_le hle
  have hdvd : n ∣ (l.map b).sum - (l.map a).sum := (Nat.modEq_iff_dvd' hsums).mp hmod
  have hzero := Nat.eq_zero_of_dvd_of_lt hdvd (by omega)
  omega

/-- What a check left behind: it was right, and is as long as nothing is written to the
function's pages; the writes still journaled came after it. -/
structure OverlayCheck.Sound (c : OverlayCheck) (f : OverlayFunc) (s : Overlays) : Prop where
  gens : c.gens = (f.pages.map fun p => c.stores p % 2 ^ 32).sum
  grown : ∀ p, c.stores p ≤ s.stores p
  valid : (∀ p ∈ f.pages, c.stores p = s.stores p) → c.valid = f.intact s.wram
  journal : ∀ e ∈ s.journal, c.stores (pageOf e.1) < s.stores (pageOf e.1)

def Overlays.Kept (table : List OverlayFunc) (s : Overlays) : Prop :=
  ∀ k f c, table[k]? = some f → s.cache k = some c → c.Sound f s

section

variable {table : List OverlayFunc} {s s' s'' : Overlays} {f : OverlayFunc} {k : Nat}

/-- `s` checked again: only the cache has changed. -/
structure Rechecked (table : List OverlayFunc) (s s' : Overlays) : Prop where
  same : s' = { s with cache := s'.cache }
  kept : s.Kept table → s'.Kept table
  fresh : ∀ f k, s.Fresh f k → s'.Fresh f k

theorem Rechecked.refl : Rechecked table s s := ⟨rfl, id, fun _ _ => id⟩

theorem Rechecked.trans (h : Rechecked table s s') (h' : Rechecked table s' s'') :
    Rechecked table s s'' := by
  refine ⟨?_, fun hs => h'.kept (h.kept hs), fun f k hf => h'.fresh f k (h.fresh f k hf)⟩
  rw [h'.same, h.same]

theorem Rechecked.wram (h : Rechecked table s s') : s'.wram = s.wram := by rw [h.same]

theorem Rechecked.act (h : Rechecked table s s') : s'.act = s.act := by rw [h.same]

theorem Rechecked.journal (h : Rechecked table s s') : s'.journal = s.journal := by rw [h.same]

theorem recheck_cache (k' : Nat) : (s.recheck f k).2.cache k' =
    if k' = k then some ⟨pageGens s f, f.intact s.wram, s.stores⟩ else s.cache k' :=
  Function.update_apply _ _ _ _

theorem recheck_rechecked (hf : table[k]? = some f) (hj : s.journal = []) :
    Rechecked table s (s.recheck f k).2 := by
  refine ⟨rfl, fun hs k' g c hg hc => ?_, fun g k' hg c hc => ?_⟩
  · rw [recheck_cache] at hc
    by_cases hk : k' = k
    · rw [if_pos hk] at hc
      rw [hk, hf] at hg
      cases hg
      cases hc
      refine ⟨rfl, fun _ => Nat.le_refl _, fun _ => rfl, fun e he => ?_⟩
      have hnone : e ∈ s.journal := he
      rw [hj] at hnone
      cases hnone
    · rw [if_neg hk] at hc
      have hsound := hs k' g c hg hc
      exact ⟨hsound.gens, hsound.grown, hsound.valid, hsound.journal⟩
  · rw [recheck_cache] at hc
    by_cases hk : k' = k
    · rw [if_pos hk] at hc
      cases hc
      exact Nat.lt_add_of_pos_right (by decide)
    · rw [if_neg hk] at hc
      exact hg c hc

/-- What `valid` returns is right if the check came in time. -/
theorem valid_rechecked (hf : table[k]? = some f) (hj : s.journal = []) :
    Rechecked table s (s.valid f k).2 ∧
      (s.Kept table → s.Fresh f k → (s.valid f k).1 = f.intact s.wram) := by
  unfold Overlays.valid
  cases hc : s.cache k with
  | none => exact ⟨recheck_rechecked hf hj, fun _ _ => rfl⟩
  | some c =>
    dsimp only
    by_cases hg : c.gens = pageGens s f
    · rw [if_pos hg]
      refine ⟨.refl, fun hs hfresh => ?_⟩
      have hsound := hs k f c hf hc
      rw [hsound.gens] at hg
      exact hsound.valid (eq_of_sum_mod_eq (fun p _ => hsound.grown p) (hfresh c hc) hg)
    · rw [if_neg hg]
      exact ⟨recheck_rechecked hf hj, fun _ _ => rfl⟩

theorem firstValid_rechecked {l : List (OverlayFunc × Nat)}
    (hl : ∀ e ∈ l, table[e.2]? = some e.1) (hj : s.journal = []) :
    Rechecked table s (s.firstValid l).2 ∧
      ∀ e, (s.firstValid l).1 = some e → e ∈ l ∧
        (s.Kept table → (∀ e ∈ l, s.Fresh e.1 e.2) → e.1.intact s.wram = true) := by
  induction l generalizing s with
  | nil => exact ⟨.refl, fun e he => by cases he⟩
  | cons e l ih =>
    obtain ⟨he, hl⟩ := List.forall_mem_cons.mp hl
    obtain ⟨hre, hright⟩ := valid_rechecked (s := s) he hj
    unfold Overlays.firstValid
    cases hv : s.valid e.1 e.2 with
    | mk v s₁ =>
      rw [hv] at hre hright
      dsimp only at hre hright ⊢
      cases v with
      | true =>
        refine ⟨hre, fun e' he' => ?_⟩
        cases he'
        refine ⟨List.mem_cons_self, fun hs hfresh => ?_⟩
        exact (hright hs (hfresh e List.mem_cons_self)).symm
      | false =>
        obtain ⟨hrest, hfound⟩ := ih (s := s₁) hl (by rw [hre.journal, hj])
        refine ⟨hre.trans hrest, fun e' he' => ?_⟩
        obtain ⟨hmem, hintact⟩ := hfound e' he'
        refine ⟨List.mem_cons_of_mem _ hmem, fun hs hfresh => ?_⟩
        rw [← hre.wram]
        exact hintact (hre.kept hs) fun g hg => hre.fresh _ _ (hfresh g (List.mem_cons_of_mem _ hg))

/-- What `overlay_stale_active` finds: those before are intact, or all. -/
theorem firstStale_rechecked {act : List OverlayAct} (ha : ∀ a ∈ act, table[a.idx]? = some a.f)
    (hj : s.journal = []) (n : Nat) :
    Rechecked table s (s.firstStale act n).2 ∧
      (∀ k, (s.firstStale act n).1 = some k → n ≤ k ∧ k < n + act.length) ∧
      (s.Kept table → (∀ a ∈ act, a.dormant = false → s.Fresh a.f a.idx) →
        ∀ j a, act[j]? = some a → a.dormant = false →
          (∀ k, (s.firstStale act n).1 = some k → n + j < k) → a.f.intact s.wram = true) := by
  induction act generalizing s n with
  | nil => exact ⟨.refl, fun k hk => (by cases hk), fun _ _ j a hj => (by cases hj)⟩
  | cons b act ih =>
    obtain ⟨hb, ha⟩ := List.forall_mem_cons.mp ha
    unfold Overlays.firstStale
    by_cases hdorm : b.dormant = true
    · rw [if_pos hdorm]
      obtain ⟨hre, hbound, hintact⟩ := ih ha hj (n + 1)
      refine ⟨hre, fun k hk => ?_, fun hs hfresh j a hja hawake hbefore => ?_⟩
      · have := hbound k hk
        rw [List.length_cons]
        omega
      · cases j with
        | zero =>
          cases hja
          rw [hdorm] at hawake
          cases hawake
        | succ j =>
          refine hintact hs (fun g hg => hfresh g (List.mem_cons_of_mem _ hg)) j a hja hawake ?_
          intro k hk
          have := hbefore k hk
          omega
    · rw [if_neg hdorm]
      rw [Bool.not_eq_true] at hdorm
      obtain ⟨hre, hright⟩ := valid_rechecked (s := s) hb hj
      cases hv : s.valid b.f b.idx with
      | mk v s₁ =>
        rw [hv] at hre hright
        dsimp only at hre hright ⊢
        cases v with
        | false =>
          refine ⟨hre, fun k hk => ?_, fun _ _ j a hja hawake hbefore => ?_⟩
          · cases hk
            rw [List.length_cons]
            omega
          · have := hbefore n rfl
            omega
        | true =>
          obtain ⟨hrest, hbound, hintact⟩ := ih (s := s₁) ha (by rw [hre.journal, hj]) (n + 1)
          refine ⟨hre.trans hrest, fun k hk => ?_, fun hs hfresh j a hja hawake hbefore => ?_⟩
          · have := hbound k hk
            rw [List.length_cons]
            omega
          · cases j with
            | zero =>
              cases hja
              exact (hright hs (hfresh b List.mem_cons_self hawake)).symm
            | succ j =>
              rw [← hre.wram]
              refine hintact (hre.kept hs) (fun g hg hga => hre.fresh _ _
                (hfresh g (List.mem_cons_of_mem _ hg) hga)) j a hja hawake fun k hk => ?_
              have := hbefore k hk
              omega

theorem mem_candidates {c : Cpu} : ∀ e ∈ overlayCandidates table c, table[e.2]? = some e.1 := by
  intro e he
  unfold overlayCandidates at he
  split at he
  next => cases he
  next => exact List.mem_zipIdx_iff_getElem?.mp (List.mem_of_mem_filter he)

end

end CtRecomp
