import Mathlib.Algebra.Ring.Nat
import Mathlib.Algebra.Order.BigOperators.Group.List
import Mathlib.Algebra.Order.Group.Nat
import Mathlib.Data.Fintype.Card
import Mathlib.Logic.Function.Basic

namespace CtRecomp

/-! A worklist that marks the nodes of a graph with labels: what it marks is
what the labels reach. -/

/-- A graph whose nodes let some labels through. -/
structure Spread (K B : Type) where
  nodes : List K
  keep : K → Finset B
  succ : K → List K

structure Marks (K B : Type) where
  labels : K → Finset B
  work : List K

namespace Spread

section

variable {K B : Type} [DecidableEq K] [DecidableEq B]

def reach (F : Spread K B) (g : Marks K B) (k : K) (bs : Finset B) : Marks K B :=
  if k ∈ F.nodes then
    let new := g.labels k ∪ bs
    if new ≠ g.labels k then ⟨Function.update g.labels k new, k :: g.work⟩ else g
  else g

def reachAll (F : Spread K B) (g : Marks K B) (seeds : List (K × Finset B)) : Marks K B :=
  seeds.foldl (fun g s => F.reach g s.1 s.2) g

/-- What a node sends on. -/
def sends (F : Spread K B) (k : K) (bs : Finset B) : List (K × Finset B) :=
  (F.succ k).map fun k' => (k', bs ∩ F.keep k)

def step (F : Spread K B) (g : Marks K B) : Marks K B :=
  match g.work with
  | [] => g
  | k :: work => F.reachAll { g with work } (F.sends k (g.labels k))

def run (F : Spread K B) : Nat → Marks K B → Marks K B
  | 0, g => g
  | n + 1, g => F.run n (F.step g)

def start (F : Spread K B) (seeds : List (K × Finset B)) : Marks K B :=
  F.reachAll ⟨fun _ => ∅, []⟩ seeds

/-- The label `b` gets to a node: from a seed, or through nodes that keep it. -/
inductive Marked (F : Spread K B) (seeds : List (K × Finset B)) (b : B) : K → Prop
  | seed {k : K} {bs : Finset B} (hs : (k, bs) ∈ seeds) (hb : b ∈ bs) (hk : k ∈ F.nodes) :
    Marked F seeds b k
  | step {k k' : K} (h : Marked F seeds b k) (hb : b ∈ F.keep k) (hs : k' ∈ F.succ k)
    (hk : k' ∈ F.nodes) : Marked F seeds b k'

variable {F : Spread K B} {g : Marks K B} {k : K} {bs : Finset B} {seeds : List (K × Finset B)}

omit [DecidableEq K] in
theorem mem_sends {k' : K} : (k', bs) ∈ F.sends k (g.labels k) ↔
    k' ∈ F.succ k ∧ bs = g.labels k ∩ F.keep k := by
  unfold sends
  rw [List.mem_map]
  constructor
  · rintro ⟨j, hj, heq⟩
    cases heq
    exact ⟨hj, rfl⟩
  · rintro ⟨hj, rfl⟩
    exact ⟨k', hj, rfl⟩

/-- Either nothing changed, or a node got labels and went on the worklist. -/
theorem reach_cases (F : Spread K B) (g : Marks K B) (k : K) (bs : Finset B) :
    (F.reach g k bs = g ∧ (k ∈ F.nodes → bs ⊆ g.labels k)) ∨
    (k ∈ F.nodes ∧ ¬bs ⊆ g.labels k ∧
      F.reach g k bs = ⟨Function.update g.labels k (g.labels k ∪ bs), k :: g.work⟩) := by
  unfold reach
  by_cases hk : k ∈ F.nodes
  · rw [if_pos hk]
    by_cases hnew : g.labels k ∪ bs = g.labels k
    · left
      rw [if_neg (not_not.mpr hnew)]
      exact ⟨rfl, fun _ => Finset.union_eq_left.mp hnew⟩
    · right
      rw [if_pos hnew]
      exact ⟨hk, fun hsub => hnew (Finset.union_eq_left.mpr hsub), rfl⟩
  · left
    rw [if_neg hk]
    exact ⟨rfl, fun h => absurd h hk⟩

theorem labels_reach (F : Spread K B) (g : Marks K B) (k : K) (bs : Finset B) (j : K) :
    g.labels j ⊆ (F.reach g k bs).labels j := by
  rcases reach_cases F g k bs with ⟨heq, -⟩ | ⟨-, -, heq⟩
  · rw [heq]
  · rw [heq]
    by_cases hj : j = k
    · subst hj
      simp
    · simp [Function.update_of_ne hj]

theorem work_reach (F : Spread K B) (g : Marks K B) (k : K) (bs : Finset B) :
    g.work ⊆ (F.reach g k bs).work := by
  rcases reach_cases F g k bs with ⟨heq, -⟩ | ⟨-, -, heq⟩
  · rw [heq]
    exact List.Subset.refl _
  · rw [heq]
    exact List.subset_cons_self _ _

theorem subset_labels_reach (hk : k ∈ F.nodes) : bs ⊆ (F.reach g k bs).labels k := by
  rcases reach_cases F g k bs with ⟨heq, hsub⟩ | ⟨-, -, heq⟩
  · rw [heq]
    exact hsub hk
  · rw [heq]
    simp

/-- A node whose labels changed is on the worklist. -/
theorem reach_changed {j : K} (h : (F.reach g k bs).labels j ≠ g.labels j) :
    j ∈ (F.reach g k bs).work := by
  rcases reach_cases F g k bs with ⟨heq, -⟩ | ⟨-, -, heq⟩
  · rw [heq] at h
    exact absurd rfl h
  · by_cases hj : j = k
    · rw [heq, hj]
      exact List.mem_cons_self
    · rw [heq] at h
      exact absurd (Function.update_of_ne hj _ _) h

theorem labels_reachAll (F : Spread K B) (seeds : List (K × Finset B)) (g : Marks K B) (j : K) :
    g.labels j ⊆ (F.reachAll g seeds).labels j := by
  induction seeds generalizing g with
  | nil => exact subset_rfl
  | cons s seeds ih => exact (labels_reach F g s.1 s.2 j).trans (ih _)

theorem work_reachAll (F : Spread K B) (seeds : List (K × Finset B)) (g : Marks K B) :
    g.work ⊆ (F.reachAll g seeds).work := by
  induction seeds generalizing g with
  | nil => exact List.Subset.refl _
  | cons s seeds ih => exact List.Subset.trans (work_reach F g s.1 s.2) (ih _)

theorem subset_labels_reachAll (hs : (k, bs) ∈ seeds) (hk : k ∈ F.nodes) :
    bs ⊆ (F.reachAll g seeds).labels k := by
  induction seeds generalizing g with
  | nil => cases hs
  | cons s seeds ih =>
    rcases List.mem_cons.mp hs with rfl | hs
    · exact (subset_labels_reach hk).trans (labels_reachAll F seeds _ k)
    · exact ih hs

theorem reachAll_changed {j : K} (h : (F.reachAll g seeds).labels j ≠ g.labels j) :
    j ∈ (F.reachAll g seeds).work := by
  induction seeds generalizing g with
  | nil => exact absurd rfl h
  | cons s seeds ih =>
    by_cases hj : (F.reach g s.1 s.2).labels j = g.labels j
    · rw [← hj] at h
      exact ih h
    · exact work_reachAll F seeds _ (reach_changed hj)

/-! Soundness: only what the labels reach is marked. -/

def Sound (F : Spread K B) (seeds : List (K × Finset B)) (g : Marks K B) : Prop :=
  ∀ k, ∀ b ∈ g.labels k, F.Marked seeds b k

theorem Sound.reachAll {news : List (K × Finset B)} (h : F.Sound seeds g)
    (hnew : ∀ s ∈ news, ∀ b ∈ s.2, s.1 ∈ F.nodes → F.Marked seeds b s.1) :
    F.Sound seeds (F.reachAll g news) := by
  induction news generalizing g with
  | nil => exact h
  | cons s news ih =>
    refine ih ?_ fun t ht => hnew t (List.mem_cons_of_mem _ ht)
    intro k b hb
    change b ∈ (F.reach g s.1 s.2).labels k at hb
    rcases reach_cases F g s.1 s.2 with ⟨heq, -⟩ | ⟨hk, -, heq⟩
    · rw [heq] at hb
      exact h k b hb
    · rw [heq] at hb
      by_cases hj : k = s.1
      · subst hj
        rcases Finset.mem_union.mp (by simpa using hb) with hold | hadd
        · exact h s.1 b hold
        · exact hnew s List.mem_cons_self b hadd hk
      · exact h k b (by simpa [Function.update_of_ne hj] using hb)

theorem Sound.step (h : F.Sound seeds g) : F.Sound seeds (F.step g) := by
  unfold Spread.step
  split
  · exact h
  case h_2 k work hwork =>
    refine Sound.reachAll h fun s hs b hb hk => ?_
    obtain ⟨hsucc, hbs⟩ := mem_sends.mp (show (s.1, s.2) ∈ F.sends k (g.labels k) from hs)
    rw [hbs, Finset.mem_inter] at hb
    exact (h k b hb.1).step hb.2 hsucc hk

theorem sound_start (F : Spread K B) (seeds : List (K × Finset B)) :
    F.Sound seeds (F.start seeds) := by
  refine Sound.reachAll (fun k b hb => ?_) fun s hs b hb hk => .seed hs hb hk
  simp at hb

/-! Completeness: a node that is not on the worklist has sent its labels on. -/

def Sent (F : Spread K B) (g : Marks K B) (k : K) : Prop :=
  ∀ b ∈ g.labels k, b ∈ F.keep k → ∀ k' ∈ F.succ k, k' ∈ F.nodes → b ∈ g.labels k'

theorem Sent.reachAll (h : F.Sent g k) (hsame : (F.reachAll g seeds).labels k = g.labels k) :
    F.Sent (F.reachAll g seeds) k := by
  intro b hb hkeep k' hk' hnode
  rw [hsame] at hb
  exact labels_reachAll F seeds g k' (h b hb hkeep k' hk' hnode)

def Complete (F : Spread K B) (g : Marks K B) : Prop := ∀ k ∉ g.work, F.Sent g k

theorem Complete.step (h : F.Complete g) : F.Complete (F.step g) := by
  unfold Spread.step
  split
  · exact h
  case h_2 k work hwork =>
    intro j hj
    have hsame : (F.reachAll { g with work } (F.sends k (g.labels k))).labels j = g.labels j := by
      by_contra hne
      exact hj (reachAll_changed hne)
    by_cases hjk : j = k
    · -- the node taken off has sent its labels, which did not change since
      subst hjk
      intro b hb hkeep k' hk' hnode
      rw [hsame] at hb
      exact subset_labels_reachAll (mem_sends.mpr ⟨hk', rfl⟩) hnode
        (Finset.mem_inter.mpr ⟨hb, hkeep⟩)
    · have hold : F.Sent { g with work } j := by
        refine h j fun hmem => ?_
        rw [hwork] at hmem
        rcases List.mem_cons.mp hmem with heq | hmem
        · exact hjk heq
        · exact hj (work_reachAll F _ _ hmem)
      exact hold.reachAll hsame

theorem complete_start (F : Spread K B) (seeds : List (K × Finset B)) :
    F.Complete (F.start seeds) := by
  intro k hk b hb
  have hsame : (F.start seeds).labels k = ∅ := by
    by_contra hne
    exact hk (reachAll_changed hne)
  rw [hsame] at hb
  cases hb

theorem labels_step (F : Spread K B) (g : Marks K B) (k : K) :
    g.labels k ⊆ (F.step g).labels k := by
  unfold Spread.step
  split
  · exact subset_rfl
  case h_2 j work hwork => exact labels_reachAll F (F.sends j (g.labels j)) { g with work } k

theorem labels_run (F : Spread K B) (n : Nat) (g : Marks K B) (k : K) :
    g.labels k ⊆ (F.run n g).labels k := by
  induction n generalizing g with
  | zero => exact subset_rfl
  | succ n ih => exact (labels_step F g k).trans (ih _)

theorem run_sound_complete (n : Nat) (hs : F.Sound seeds g) (hc : F.Complete g) :
    F.Sound seeds (F.run n g) ∧ F.Complete (F.run n g) := by
  induction n generalizing g with
  | zero => exact ⟨hs, hc⟩
  | succ n ih => exact ih hs.step hc.step

/-! Termination: each entry on the worklist brought a label to a node. -/

variable [Fintype B]

/-- What the worklist can still take: its entries, and a label at each node that lacks it. -/
def left (F : Spread K B) (g : Marks K B) : Nat :=
  g.work.length + (F.nodes.map fun k => Fintype.card B - (g.labels k).card).sum

theorem left_reach_le (F : Spread K B) (g : Marks K B) (k : K) (bs : Finset B) :
    F.left (F.reach g k bs) ≤ F.left g := by
  rcases reach_cases F g k bs with ⟨heq, -⟩ | ⟨hk, hsub, heq⟩
  · rw [heq]
  · have hcard : (g.labels k).card < (g.labels k ∪ bs).card :=
      Finset.card_lt_card ⟨Finset.subset_union_left, fun h => hsub
        (Finset.subset_union_right.trans h)⟩
    have hmax : (g.labels k ∪ bs).card ≤ Fintype.card B := Finset.card_le_univ _
    have hsum : (F.nodes.map fun j => Fintype.card B -
          (Function.update g.labels k (g.labels k ∪ bs) j).card).sum <
        (F.nodes.map fun j => Fintype.card B - (g.labels j).card).sum := by
      refine List.sum_lt_sum _ _ (fun j _ => ?_) ⟨k, hk, ?_⟩
      · by_cases hj : j = k
        · subst hj
          simp only [Function.update_self]
          omega
        · rw [Function.update_of_ne hj]
      · simp only [Function.update_self]
        omega
    unfold left
    rw [heq]
    simp only [List.length_cons]
    omega

theorem left_reachAll_le (F : Spread K B) (seeds : List (K × Finset B)) (g : Marks K B) :
    F.left (F.reachAll g seeds) ≤ F.left g := by
  induction seeds generalizing g with
  | nil => exact le_rfl
  | cons s seeds ih => exact (ih _).trans (left_reach_le F g s.1 s.2)

theorem left_step (h : g.work ≠ []) : F.left (F.step g) + 1 ≤ F.left g := by
  unfold Spread.step
  split
  case h_1 hwork => exact absurd hwork h
  case h_2 k work hwork =>
    have hle := left_reachAll_le F (F.sends k (g.labels k)) { g with work }
    have hpop : F.left { g with work } + 1 = F.left g := by
      unfold left
      rw [hwork, List.length_cons]
      dsimp only
      omega
    omega

theorem work_run_eq_nil {n : Nat} (h : F.left g ≤ n) : (F.run n g).work = [] := by
  induction n generalizing g with
  | zero =>
    have hlen : g.work.length = 0 := by
      unfold left at h
      omega
    exact List.eq_nil_of_length_eq_zero hlen
  | succ n ih =>
    by_cases hwork : g.work = []
    · have hstep : F.step g = g := by
        unfold Spread.step
        rw [hwork]
      have hdone (m : Nat) : F.run m g = g := by
        induction m with
        | zero => rfl
        | succ m ihm =>
          change F.run m (F.step g) = g
          rw [hstep]
          exact ihm
      rw [hdone]
      exact hwork
    · refine ih ?_
      have hless := left_step (F := F) hwork
      omega

theorem left_start_le (F : Spread K B) (seeds : List (K × Finset B)) :
    F.left (F.start seeds) ≤ F.nodes.length * Fintype.card B := by
  refine (left_reachAll_le F seeds _).trans ?_
  simp [left, -nsmul_eq_mul]

/-- Run to its end, the worklist marks exactly what the labels reach. -/
theorem mem_labels_run {n : Nat} (hn : F.nodes.length * Fintype.card B ≤ n) {b : B} :
    b ∈ (F.run n (F.start seeds)).labels k ↔ F.Marked seeds b k := by
  obtain ⟨hsound, hcomplete⟩ :=
    run_sound_complete n (sound_start F seeds) (complete_start F seeds)
  have hwork := work_run_eq_nil ((left_start_le F seeds).trans hn)
  constructor
  · exact hsound k b
  · intro h
    induction h with
    | seed hs hb hk =>
      exact labels_run F n _ _ (subset_labels_reachAll hs hk hb)
    | step _ hb hs hk ih =>
      refine hcomplete _ ?_ _ ih hb _ hs hk
      rw [hwork]
      exact List.not_mem_nil

end

end Spread

end CtRecomp
