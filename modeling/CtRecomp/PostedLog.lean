import Mathlib.Data.List.Basic

namespace CtRecomp.PostedLog

/-! Posts applied in order, and a reader that may lag behind them. -/

variable {α σ : Type}

/-- The value the first `n` posts of a log make of `start`. -/
def after (apply : σ → α → σ) (start : σ) (log : List α) (n : Nat) : σ :=
  (log.take n).foldl apply start

/-- What the reader finds when its access lands and at the end of its turn, and how many posts
there are by then. -/
structure Reading (σ : Type) where
  landing : σ
  ending : σ
  posted : Nat

/-- No post is shown before an earlier one or taken back: from turn to turn the posts shown are
longer prefixes, and the end of a turn shows all there are. -/
def InOrder (apply : σ → α → σ) (start : σ) (log : List α) : Nat → List (Reading σ) → Prop
  | _, [] => True
  | shown, r :: rs =>
    (∃ n, shown ≤ n ∧ n ≤ r.posted ∧ r.landing = after apply start log n) ∧
      r.posted ≤ log.length ∧ r.ending = after apply start log r.posted ∧
      InOrder apply start log r.posted rs

/-- Posts shown at the end of the last turn. -/
def lastPosted (shown : Nat) (rs : List (Reading σ)) : Nat :=
  (rs.getLast?.map Reading.posted).getD shown

section

variable {apply : σ → α → σ} {start : σ} {log more : List α} {a : α} {n : Nat}

theorem after_append (h : n ≤ log.length) :
    after apply start (log ++ more) n = after apply start log n := by
  rw [after, List.take_append_of_le_length h, after]

theorem after_length : after apply start log log.length = log.foldl apply start := by
  rw [after, List.take_length]

theorem after_post :
    after apply start (log ++ [a]) (log ++ [a]).length =
      apply (after apply start log log.length) a := by
  rw [after_length, after_length, List.foldl_append, List.foldl_cons, List.foldl_nil]

theorem lastPosted_snoc (shown : Nat) (rs : List (Reading σ)) (r : Reading σ) :
    lastPosted shown (rs ++ [r]) = r.posted := by
  rw [lastPosted, List.getLast?_concat, Option.map_some, Option.getD_some]

theorem lastPosted_cons (shown : Nat) (rs : List (Reading σ)) (r : Reading σ) :
    lastPosted shown (r :: rs) = lastPosted r.posted rs := by
  unfold lastPosted
  rw [List.getLast?_cons]
  cases rs.getLast? <;> rfl

/-- Later posts change no reading. -/
theorem InOrder.post {shown : Nat} {rs : List (Reading σ)} (h : InOrder apply start log shown rs) :
    InOrder apply start (log ++ more) shown rs := by
  induction rs generalizing shown with
  | nil => trivial
  | cons r rs ih =>
    obtain ⟨⟨n, hshown, hn, hlanding⟩, hposted, hending, hrest⟩ := h
    refine ⟨⟨n, hshown, hn, ?_⟩, ?_, ?_, ih hrest⟩
    · rw [hlanding, after_append (Nat.le_trans hn hposted)]
    · rw [List.length_append]
      exact Nat.le_trans hposted (Nat.le_add_right _ _)
    · rw [hending, after_append hposted]

theorem InOrder.snoc {shown : Nat} {rs : List (Reading σ)} {r : Reading σ}
    (h : InOrder apply start log shown rs) (hlast : lastPosted shown rs ≤ n)
    (hn : n ≤ r.posted) (hposted : r.posted ≤ log.length)
    (hlanding : r.landing = after apply start log n)
    (hending : r.ending = after apply start log r.posted) :
    InOrder apply start log shown (rs ++ [r]) := by
  induction rs generalizing shown with
  | nil => exact ⟨⟨n, hlast, hn, hlanding⟩, hposted, hending, trivial⟩
  | cons first rs ih =>
    obtain ⟨hlanded, hposted', hending', hrest⟩ := h
    rw [lastPosted_cons] at hlast
    exact ⟨hlanded, hposted', hending', ih hrest hlast⟩

end

end CtRecomp.PostedLog
