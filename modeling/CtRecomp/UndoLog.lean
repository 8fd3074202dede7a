import Mathlib.Logic.Function.Basic

/-! A memory some of whose stores go into a journal; the journal undone and redone. -/

namespace UndoLog

variable {α β τ : Type} [DecidableEq α]

/-- A store, with a tag that says whose it is. -/
structure Store (α β τ : Type) where
  key : α
  val : β
  tag : τ
deriving DecidableEq, Repr

/-- What the journal keeps of a store. -/
structure Entry (α β : Type) where
  key : α
  old : β
  new : β
deriving DecidableEq, Repr

def run (m : α → β) (l : List (Store α β τ)) : α → β :=
  l.foldl (fun m s => Function.update m s.key s.val) m

/-- The journal of the stores `p` picks, oldest first. -/
def journal (p : Store α β τ → Bool) : (α → β) → List (Store α β τ) → List (τ × Entry α β)
  | _, [] => []
  | m, s :: l =>
    (if p s then [(s.tag, ⟨s.key, m s.key, s.val⟩)] else []) ++
      journal p (Function.update m s.key s.val) l

/-- Newest first. -/
def undo (j : List (Entry α β)) (m : α → β) : α → β :=
  j.foldr (fun e m => Function.update m e.key e.old) m

def redo (j : List (Entry α β)) (m : α → β) : α → β :=
  j.foldl (fun m e => Function.update m e.key e.new) m

/-- What `x` holds before the first journaled store to it; at the end, if there is none. -/
def before (p : Store α β τ → Bool) : (α → β) → List (Store α β τ) → α → β
  | m, [], x => m x
  | m, s :: l, x =>
    if p s = true ∧ s.key = x then m x else before p (Function.update m s.key s.val) l x

/-- `x` is named in the journal. -/
def Named (p : Store α β τ → Bool) (l : List (Store α β τ)) (x : α) : Prop :=
  ∃ s ∈ l, p s = true ∧ s.key = x

/-- Where the journal names a byte, the stores to be kept leave there what it held before
the first journaled one, and the journaled ones leave what all of them leave. -/
def Harmless (p kept : Store α β τ → Bool) (m : α → β) (l : List (Store α β τ)) : Prop :=
  ∀ x, Named p l x →
    run m (l.filter kept) x = before p m l x ∧ run m (l.filter p) x = run m l x

variable {p kept : Store α β τ → Bool} {m m' : α → β} {l : List (Store α β τ)} {x : α}

theorem run_cons (m : α → β) (s : Store α β τ) (l : List (Store α β τ)) :
    run m (s :: l) = run (Function.update m s.key s.val) l := rfl

theorem run_append (m : α → β) (l k : List (Store α β τ)) : run m (l ++ k) = run (run m l) k :=
  List.foldl_append

/-- A byte holds the last store to it, whatever it held before. -/
theorem run_congr (h : (∃ s ∈ l, s.key = x) ∨ m x = m' x) : run m l x = run m' l x := by
  induction l generalizing m m' with
  | nil =>
    rcases h with ⟨s, hs, -⟩ | h
    · cases hs
    · exact h
  | cons s l ih =>
    rw [run_cons, run_cons]
    apply ih
    by_cases hx : x = s.key
    · right
      rw [hx, Function.update_self, Function.update_self]
    · rw [Function.update_of_ne hx, Function.update_of_ne hx]
      rcases h with ⟨r, hr, hrx⟩ | h
      · rcases List.mem_cons.mp hr with rfl | hr
        · exact absurd hrx.symm hx
        · exact .inl ⟨r, hr, hrx⟩
      · exact .inr h

theorem run_other (h : ∀ s ∈ l, s.key ≠ x) : run m l x = m x := by
  induction l generalizing m with
  | nil => rfl
  | cons s l ih =>
    rw [run_cons, ih fun r hr => h r (List.mem_cons_of_mem _ hr)]
    exact Function.update_of_ne (h s List.mem_cons_self).symm _ _

theorem run_filter (h : ∀ s ∈ l, s.key = x → kept s = true) :
    run m (l.filter kept) x = run m l x := by
  induction l generalizing m with
  | nil => rfl
  | cons s l ih =>
    have hrest := fun (m : α → β) => ih (m := m) fun r hr => h r (List.mem_cons_of_mem _ hr)
    by_cases hs : kept s = true
    · rw [List.filter_cons_of_pos hs, run_cons, run_cons, hrest]
    · have hx : x ≠ s.key := fun hx => hs (h s List.mem_cons_self hx.symm)
      rw [List.filter_cons_of_neg hs, hrest, run_cons]
      exact run_congr (.inr (Function.update_of_ne hx _ _).symm)

theorem before_unnamed (h : ¬Named p l x) : before p m l x = run m l x := by
  induction l generalizing m with
  | nil => rfl
  | cons s l ih =>
    have hs : ¬(p s = true ∧ s.key = x) := fun hs => h ⟨s, List.mem_cons_self, hs⟩
    rw [before, if_neg hs, run_cons]
    exact ih fun ⟨r, hr, hx⟩ => h ⟨r, List.mem_cons_of_mem _ hr, hx⟩

theorem journal_append (m : α → β) (l k : List (Store α β τ)) :
    journal p m (l ++ k) = journal p m l ++ journal p (run m l) k := by
  induction l generalizing m with
  | nil => rfl
  | cons s l ih => simp only [List.cons_append, journal, ih, run_cons, List.append_assoc]

theorem journal_none (h : ∀ s ∈ l, p s = false) : journal p m l = [] := by
  induction l generalizing m with
  | nil => rfl
  | cons s l ih =>
    rw [journal, ih fun r hr => h r (List.mem_cons_of_mem _ hr), h s List.mem_cons_self]
    rfl

theorem journal_filter (q : τ → Bool) (m : α → β) (l : List (Store α β τ)) :
    journal (fun s => p s && q s.tag) m l = (journal p m l).filter fun e => q e.1 := by
  induction l generalizing m with
  | nil => rfl
  | cons s l ih =>
    rw [journal, journal, ih, List.filter_append]
    congr 1
    cases hp : p s with
    | false => rfl
    | true => cases hq : q s.tag <;> simp [hq]

theorem mem_journal {e : τ × Entry α β} (h : e ∈ journal p m l) : Named p l e.2.key := by
  induction l generalizing m with
  | nil => cases h
  | cons s l ih =>
    rcases List.mem_append.mp h with h | h
    · cases hp : p s with
      | false =>
        rw [hp] at h
        cases h
      | true =>
        rw [hp, if_pos rfl, List.mem_singleton] at h
        exact ⟨s, List.mem_cons_self, hp, h ▸ rfl⟩
    · obtain ⟨r, hr, hpr, hkey⟩ := ih h
      exact ⟨r, List.mem_cons_of_mem _ hr, hpr, hkey⟩

/-- Undone, a byte is as it was before its first journaled store. -/
theorem undo_run (p : Store α β τ → Bool) (m : α → β) (l : List (Store α β τ)) :
    undo ((journal p m l).map Prod.snd) (run m l) = before p m l := by
  funext x
  induction l generalizing m with
  | nil => rfl
  | cons s l ih =>
    rw [journal, run_cons, before]
    cases hp : p s with
    | false =>
      rw [if_neg Bool.false_ne_true, List.nil_append,
        if_neg (not_and_of_not_left _ Bool.false_ne_true)]
      exact ih _
    | true =>
      rw [if_pos rfl, List.singleton_append, List.map_cons]
      change Function.update (undo _ _) s.key (m s.key) x = _
      by_cases hx : s.key = x
      · rw [if_pos ⟨rfl, hx⟩, ← hx, Function.update_self]
      · rw [if_neg (not_and_of_not_right _ hx), Function.update_of_ne (Ne.symm hx)]
        exact ih _

theorem redo_journal (p : Store α β τ → Bool) (m m' : α → β) (l : List (Store α β τ)) :
    redo ((journal p m l).map Prod.snd) m' = run m' (l.filter p) := by
  induction l generalizing m m' with
  | nil => rfl
  | cons s l ih =>
    cases hp : p s with
    | false =>
      rw [journal, hp, List.filter_cons_of_neg (by rw [hp]; exact Bool.false_ne_true)]
      exact ih _ _
    | true =>
      rw [journal, hp, if_pos rfl, List.filter_cons_of_pos hp, run_cons]
      exact ih _ _

/-- What undoing the journal and redoing it leaves. -/
theorem redo_undo (p : Store α β τ → Bool) (m : α → β) (l : List (Store α β τ)) :
    redo ((journal p m l).map Prod.snd) (undo ((journal p m l).map Prod.snd) (run m l)) =
      run (run m l) (l.filter p) := by
  funext x
  rw [undo_run, redo_journal]
  by_cases hx : Named p l x
  · obtain ⟨s, hs, hp, hkey⟩ := hx
    exact run_congr (.inl ⟨s, List.mem_filter.mpr ⟨hs, hp⟩, hkey⟩)
  · exact run_congr (.inr (before_unnamed hx))

/-- The undone memory is the stores to be kept and redoing brings back what was there,
both exactly when the journal is harmless. -/
theorem undo_redo_iff (hkept : ∀ s ∈ l, kept s = true ∨ Named p l s.key) :
    (undo ((journal p m l).map Prod.snd) (run m l) = run m (l.filter kept) ∧
      redo ((journal p m l).map Prod.snd) (undo ((journal p m l).map Prod.snd) (run m l)) =
        run m l) ↔ Harmless p kept m l := by
  rw [undo_run, redo_journal]
  have hredo {x : α} (hx : Named p l x) :
      run (before p m l) (l.filter p) x = run m (l.filter p) x := by
    obtain ⟨s, hs, hp, hkey⟩ := hx
    exact run_congr (.inl ⟨s, List.mem_filter.mpr ⟨hs, hp⟩, hkey⟩)
  constructor
  · rintro ⟨hundo, hback⟩ x hx
    refine ⟨(congrFun hundo x).symm, ?_⟩
    rw [← hredo hx]
    exact congrFun hback x
  · intro h
    constructor
    · funext x
      by_cases hx : Named p l x
      · exact (h x hx).1.symm
      · rw [before_unnamed hx]
        refine (run_filter fun s hs hkey => ?_).symm
        exact (hkept s hs).resolve_right (hkey ▸ hx)
    · funext x
      by_cases hx : Named p l x
      · rw [hredo hx]
        exact (h x hx).2
      · rw [run_other fun s hs hkey => ?_, before_unnamed hx]
        obtain ⟨hs, hp⟩ := List.mem_filter.mp hs
        exact hx ⟨s, hs, hp, hkey⟩

end UndoLog
