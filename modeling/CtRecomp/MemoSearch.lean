import Mathlib.Data.Finset.Card
import Mathlib.Data.List.Forall2
import Mathlib.Logic.Function.Basic

namespace CtRecomp.MemoSearch

/-! Depth-first search for what a graph's nodes can reach, with a memo that calls a node false
while it is looked into. -/

variable {κ : Type}

abbrev Memo (κ : Type) := κ → Option Bool

/-- `any`, which stops at the first true, over calls that share the memo. -/
def anyOf (f : κ → Memo κ → Option (Bool × Memo κ)) : List κ → Memo κ → Option (Bool × Memo κ)
  | [], memo => some (false, memo)
  | k :: ks, memo => do
    let (b, memo) ← f k memo
    if b then some (true, memo) else anyOf f ks memo

/-- Does the node have the property, or reach one that has? No value: out of fuel. -/
def search [DecidableEq κ] (has : κ → Bool) (next : κ → List κ) :
    Nat → κ → Memo κ → Option (Bool × Memo κ)
  | 0, _, _ => none
  | n + 1, k, memo =>
    match memo k with
    | some b => some (b, memo)
    | none => do
      let (reached, memo) ←
        anyOf (search has next n) (if has k then [] else next k) (Function.update memo k (some false))
      let result := has k || reached
      some (result, Function.update memo k (some result))

/-- One memo for all. -/
def searches [DecidableEq κ] (has : κ → Bool) (next : κ → List κ) (n : Nat) :
    List κ → Memo κ → Option (List Bool × Memo κ)
  | [], memo => some ([], memo)
  | k :: ks, memo => do
    let (b, memo) ← search has next n k memo
    let (bs, memo) ← searches has next n ks memo
    some (b :: bs, memo)

inductive Reaches (has : κ → Bool) (next : κ → List κ) : κ → Prop
  | has {k : κ} (h : has k = true) : Reaches has next k
  | next {k c : κ} (h : c ∈ next k) (r : Reaches has next c) : Reaches has next k

/-- From `k`, with `path` on the way to it: going on each time to the first node that reaches
and is not on the way, one comes to a node that reaches only through the way itself. -/
inductive Stuck (has : κ → Bool) (next : κ → List κ) : List κ → κ → Prop
  | here {path : List κ} {k : κ} (hasNot : has k = false) (reaches : Reaches has next k)
      (all : ∀ c ∈ next k, Reaches has next c → c ∈ k :: path) : Stuck has next path k
  | on {path before after : List κ} {k c : κ} (hasNot : has k = false)
      (split : next k = before ++ c :: after)
      (first : ∀ b ∈ before, Reaches has next b → b ∈ k :: path)
      (reaches : Reaches has next c) (off : c ∉ k :: path)
      (rest : Stuck has next (k :: path) c) : Stuck has next path k

section

variable {has : κ → Bool} {next : κ → List κ}

theorem Stuck.reaches {path : List κ} {k : κ} (h : Stuck has next path k) :
    Reaches has next k := by
  cases h with
  | here _ reaches _ => exact reaches
  | on _ split _ reaches _ _ => exact .next (by rw [split]; simp) reaches

/-- What a memo knows it goes on knowing. -/
def Grown (memo memo' : Memo κ) : Prop := ∀ j b, memo j = some b → memo' j = some b

theorem Grown.trans {memo memo' memo'' : Memo κ} (h : Grown memo memo') (h' : Grown memo' memo'') :
    Grown memo memo'' := fun j b hj => h' j b (h j b hj)

/-- Those on the path are called false; the others as they are. -/
structure Sound (has : κ → Bool) (next : κ → List κ) (memo : Memo κ) (path : List κ) : Prop where
  on : ∀ k ∈ path, memo k = some false
  off : ∀ k b, k ∉ path → memo k = some b → (b = true ↔ Reaches has next k)

theorem anyOf_cons {f : κ → Memo κ → Option (Bool × Memo κ)} {k : κ} {ks : List κ}
    {memo memo' : Memo κ} {b : Bool} (h : anyOf f (k :: ks) memo = some (b, memo')) :
    (b = true ∧ f k memo = some (true, memo')) ∨
      ∃ memo₁, f k memo = some (false, memo₁) ∧ anyOf f ks memo₁ = some (b, memo') := by
  unfold anyOf at h
  cases hf : f k memo with
  | none =>
    rw [hf] at h
    cases h
  | some r =>
    obtain ⟨reached, memo₁⟩ := r
    rw [hf] at h
    cases reached with
    | true =>
      cases h
      exact .inl ⟨rfl, rfl⟩
    | false => exact .inr ⟨memo₁, rfl, h⟩

theorem anyOf_grown {f : κ → Memo κ → Option (Bool × Memo κ)}
    (hf : ∀ k memo b memo', f k memo = some (b, memo') → Grown memo memo') {ks : List κ}
    {memo memo' : Memo κ} {b : Bool} (h : anyOf f ks memo = some (b, memo')) :
    Grown memo memo' := by
  induction ks generalizing memo with
  | nil =>
    cases h
    exact fun _ _ hj => hj
  | cons k ks ih =>
    rcases anyOf_cons h with ⟨-, hk⟩ | ⟨memo₁, hk, hrest⟩
    · exact hf _ _ _ _ hk
    · exact (hf _ _ _ _ hk).trans (ih hrest)

theorem sound_empty : Sound has next (fun _ => none) [] := ⟨nofun, fun _ _ _ h => by cases h⟩

/-- Nodes the memo knows nothing of. -/
def unknown (nodes : Finset κ) (memo : Memo κ) : Nat := (nodes.filter fun k => memo k = none).card

theorem unknown_le {nodes : Finset κ} {memo memo' : Memo κ} (h : Grown memo memo') :
    unknown nodes memo' ≤ unknown nodes memo := by
  refine Finset.card_le_card fun k hk => ?_
  obtain ⟨hmem, hnone⟩ := Finset.mem_filter.mp hk
  refine Finset.mem_filter.mpr ⟨hmem, ?_⟩
  cases hm : memo k with
  | none => rfl
  | some b =>
    rw [h k b hm] at hnone
    cases hnone

theorem unknown_le_card (nodes : Finset κ) (memo : Memo κ) : unknown nodes memo ≤ nodes.card :=
  Finset.card_filter_le _ _

end

variable [DecidableEq κ] {has : κ → Bool} {next : κ → List κ}

theorem unknown_update {nodes : Finset κ} {memo : Memo κ} {k : κ} (hk : k ∈ nodes)
    (hnone : memo k = none) (b : Bool) :
    unknown nodes (Function.update memo k (some b)) < unknown nodes memo := by
  refine Finset.card_lt_card (Finset.ssubset_iff_of_subset (fun j hj => ?_) |>.mpr ⟨k, ?_, ?_⟩)
  · obtain ⟨hmem, hj⟩ := Finset.mem_filter.mp hj
    refine Finset.mem_filter.mpr ⟨hmem, ?_⟩
    by_cases hjk : j = k
    · exact hjk ▸ hnone
    · rwa [Function.update_of_ne hjk] at hj
  · exact Finset.mem_filter.mpr ⟨hk, hnone⟩
  · rw [Finset.mem_filter, Function.update_self]
    simp

theorem grown_update {memo memo' : Memo κ} {k : κ} (hnone : memo k = none) (b c : Bool)
    (h : Grown (Function.update memo k (some b)) memo') :
    Grown memo (Function.update memo' k (some c)) := by
  intro j d hj
  have hjk : j ≠ k := fun heq => by
    rw [heq, hnone] at hj
    cases hj
  rw [Function.update_of_ne hjk]
  exact h j d ((Function.update_of_ne hjk _ _).trans hj)

/-- An answer is the memo's, or a search below with the node called false. -/
theorem search_cases {n : Nat} {k : κ} {memo memo' : Memo κ} {b : Bool}
    (h : search has next n k memo = some (b, memo')) :
    (memo k = some b ∧ memo' = memo) ∨
      ∃ m reached memo₁, n = m + 1 ∧ memo k = none ∧
        anyOf (search has next m) (if has k then [] else next k)
          (Function.update memo k (some false)) = some (reached, memo₁) ∧
        b = (has k || reached) ∧ memo' = Function.update memo₁ k (some b) := by
  cases n with
  | zero => cases h
  | succ m =>
    unfold search at h
    cases hm : memo k with
    | some c =>
      rw [hm] at h
      cases h
      exact .inl ⟨rfl, rfl⟩
    | none =>
      rw [hm] at h
      cases hany : anyOf (search has next m) (if has k then [] else next k)
          (Function.update memo k (some false)) with
      | none =>
        simp only [hany] at h
        cases h
      | some r =>
        obtain ⟨reached, memo₁⟩ := r
        simp only [hany] at h
        cases h
        exact .inr ⟨m, reached, memo₁, rfl, rfl, hany, rfl, rfl⟩

theorem search_grown {n : Nat} {k : κ} {memo memo' : Memo κ} {b : Bool}
    (h : search has next n k memo = some (b, memo')) : Grown memo memo' := by
  induction n generalizing k memo b memo' with
  | zero => cases h
  | succ n ih =>
    rcases search_cases h with ⟨-, rfl⟩ | ⟨m, reached, memo₁, hm, hnone, hany, -, rfl⟩
    · exact fun _ _ hj => hj
    · cases hm
      exact grown_update hnone _ _ (anyOf_grown (fun _ _ _ _ => ih) hany)

/-- With fuel for the nodes not known yet there is an answer. -/
theorem search_total {nodes : Finset κ} (closed : ∀ k ∈ nodes, ∀ c ∈ next k, c ∈ nodes) {n : Nat}
    {k : κ} (hk : k ∈ nodes) {memo : Memo κ} (hfuel : unknown nodes memo < n) :
    ∃ b memo', search has next n k memo = some (b, memo') := by
  induction n generalizing k memo with
  | zero => exact absurd hfuel (Nat.not_lt_zero _)
  | succ n ih =>
    unfold search
    cases hm : memo k with
    | some b => exact ⟨b, memo, rfl⟩
    | none =>
      have hless := unknown_update hk hm false
      have hloop : ∀ ks : List κ, (∀ c ∈ ks, c ∈ nodes) → ∀ memo₁, unknown nodes memo₁ < n →
          ∃ b memo', anyOf (search has next n) ks memo₁ = some (b, memo') := by
        intro ks
        induction ks with
        | nil => exact fun _ memo₁ _ => ⟨false, memo₁, rfl⟩
        | cons c ks ihks =>
          intro hks memo₁ hn
          obtain ⟨b, memo₂, hsearch⟩ := ih (hks c List.mem_cons_self) hn
          unfold anyOf
          rw [hsearch]
          cases b with
          | true => exact ⟨true, memo₂, rfl⟩
          | false =>
            obtain ⟨b, memo', hrest⟩ := ihks (fun c hc => hks c (List.mem_cons_of_mem _ hc)) memo₂
              (Nat.lt_of_le_of_lt (unknown_le (search_grown hsearch)) hn)
            exact ⟨b, memo', hrest⟩
      have hnext : ∀ c ∈ (if has k then [] else next k), c ∈ nodes := fun c hc => by
        split at hc
        next => cases hc
        next => exact closed k hk c hc
      obtain ⟨b, memo', hany⟩ :=
        hloop _ hnext (Function.update memo k (some false)) (by omega)
      rw [hany]
      exact ⟨_, _, rfl⟩

/-- An answer false leaves nothing new that is called true. -/
theorem search_false {n : Nat} {k : κ} {memo memo' : Memo κ}
    (h : search has next n k memo = some (false, memo')) {j : κ} (hj : memo' j = some true) :
    memo j = some true := by
  induction n generalizing k memo memo' with
  | zero => cases h
  | succ n ih =>
    rcases search_cases h with ⟨-, rfl⟩ | ⟨m, reached, memo₁, hm, -, hany, hb, rfl⟩
    · exact hj
    · cases hm
      have hreached : reached = false := (Bool.or_eq_false_iff.mp hb.symm).2
      subst hreached
      have hjk : j ≠ k := fun heq => by
        rw [heq, Function.update_self] at hj
        cases hj
      rw [Function.update_of_ne hjk] at hj
      have hloop : ∀ (ks : List κ) (memo₂ : Memo κ),
          anyOf (search has next n) ks memo₂ = some (false, memo₁) → memo₂ j = some true := by
        intro ks
        induction ks with
        | nil =>
          intro memo₂ hany
          cases hany
          exact hj
        | cons c ks ihks =>
          intro memo₂ hany
          rcases anyOf_cons hany with ⟨hb, -⟩ | ⟨memo₃, hc, hrest⟩
          · cases hb
          · exact ih hc (ihks memo₃ hrest)
      have hold := hloop _ _ hany
      rwa [Function.update_of_ne hjk] at hold

/-- One comes onto the path. -/
theorem Sound.push {memo : Memo κ} {path : List κ} (h : Sound has next memo path) (k : κ) :
    Sound has next (Function.update memo k (some false)) (k :: path) where
  on j hj := by
    by_cases hjk : j = k
    · rw [hjk, Function.update_self]
    · rw [Function.update_of_ne hjk]
      exact h.on j ((List.mem_cons.mp hj).resolve_left hjk)
  off j b hj hb := by
    rw [Function.update_of_ne (List.ne_of_not_mem_cons hj)] at hb
    exact h.off j b (List.not_mem_of_not_mem_cons hj) hb

/-- One leaves the path, with the answer. -/
theorem Sound.pop {memo : Memo κ} {path : List κ} {k : κ}
    (h : Sound has next memo (k :: path)) (hk : k ∉ path) {b : Bool}
    (hb : b = true ↔ Reaches has next k) :
    Sound has next (Function.update memo k (some b)) path where
  on j hj := by
    have hjk : j ≠ k := fun heq => hk (heq ▸ hj)
    rw [Function.update_of_ne hjk]
    exact h.on j (List.mem_cons_of_mem _ hj)
  off j c hj hc := by
    by_cases hjk : j = k
    · rw [hjk, Function.update_self] at hc
      cases hc
      rw [hjk]
      exact hb
    · rw [Function.update_of_ne hjk] at hc
      exact h.off j c (List.not_mem_cons_of_ne_of_not_mem hjk hj) hc

/-- Where it is not stuck the answer is right, for a node off the path. -/
theorem search_right {n : Nat} {k : κ} {memo memo' : Memo κ} {path : List κ} {b : Bool}
    (hsound : Sound has next memo path) (hstuck : k ∉ path → ¬Stuck has next path k)
    (h : search has next n k memo = some (b, memo')) :
    Sound has next memo' path ∧ (b = true ↔ Reaches has next k ∧ k ∉ path) := by
  induction n generalizing k memo path b memo' with
  | zero => cases h
  | succ n ih =>
    rcases search_cases h with ⟨hb, rfl⟩ | ⟨m, reached, memo₁, hm, hnone, hany, hb, rfl⟩
    · refine ⟨hsound, ?_⟩
      by_cases hk : k ∈ path
      · have hfalse : b = false := Option.some.inj (hb.symm.trans (hsound.on k hk))
        simp [hfalse, hk]
      · simpa [hk] using hsound.off k b hk hb
    · cases hm
      have hk : k ∉ path := fun hk => by
        rw [hsound.on k hk] at hnone
        cases hnone
      -- the calls before `c` were false: all that reach are on the path
      have hloop : ∀ (ks done : List κ) (memo₂ : Memo κ), has k = false → next k = done ++ ks →
          (∀ c ∈ done, Reaches has next c → c ∈ k :: path) → Sound has next memo₂ (k :: path) →
          anyOf (search has next n) ks memo₂ = some (reached, memo₁) →
          Sound has next memo₁ (k :: path) ∧
            (reached = true ↔ ∃ c ∈ ks, Reaches has next c ∧ c ∉ k :: path) := by
        intro ks
        induction ks with
        | nil =>
          intro done memo₂ _ _ _ hs hany
          cases hany
          exact ⟨hs, by simp⟩
        | cons c ks ihks =>
          intro done memo₂ hno hsplit hdone hs hany
          have hfree : c ∉ k :: path → ¬Stuck has next (k :: path) c := fun hoff hc =>
            hstuck hk (.on hno hsplit hdone hc.reaches hoff hc)
          rcases anyOf_cons hany with ⟨rfl, hc⟩ | ⟨memo₃, hc, hrest⟩
          · obtain ⟨hs₁, hright⟩ := ih hs hfree hc
            exact ⟨hs₁, fun _ => ⟨c, List.mem_cons_self, hright.mp rfl⟩, fun _ => rfl⟩
          · obtain ⟨hs₃, hright⟩ := ih hs hfree hc
            have hwrong : ¬(Reaches has next c ∧ c ∉ k :: path) := fun hreach =>
              Bool.false_ne_true (hright.mpr hreach)
            have hdone' : ∀ d ∈ done ++ [c], Reaches has next d → d ∈ k :: path := by
              intro d hd hreach
              rcases List.mem_append.mp hd with hd | hd
              · exact hdone d hd hreach
              · cases List.mem_singleton.mp hd
                exact Decidable.of_not_not fun hoff => hwrong ⟨hreach, hoff⟩
            obtain ⟨hs₁, hiff⟩ := ihks (done ++ [c]) memo₃ hno
              (hsplit.trans (List.append_cons done c ks)) hdone' hs₃ hrest
            refine ⟨hs₁, hiff.trans ⟨fun ⟨d, hd, hreach⟩ => ⟨d, List.mem_cons_of_mem _ hd, hreach⟩,
              fun ⟨d, hd, hreach⟩ => ?_⟩⟩
            rcases List.mem_cons.mp hd with rfl | hd
            · exact absurd hreach hwrong
            · exact ⟨d, hd, hreach⟩
      have hresult : Sound has next memo₁ (k :: path) ∧ (b = true ↔ Reaches has next k) := by
        cases hhas : has k with
        | true =>
          rw [hhas, if_pos rfl] at hany
          cases hany
          exact ⟨hsound.push k, by simp [hb, hhas, Reaches.has hhas]⟩
        | false =>
          rw [hhas, if_neg Bool.false_ne_true] at hany
          obtain ⟨hs₁, hiff⟩ := hloop (next k) [] _ hhas rfl nofun (hsound.push k) hany
          rw [hhas, Bool.false_or] at hb
          rw [hb]
          refine ⟨hs₁, hiff.trans ⟨fun ⟨c, hc, hreach, _⟩ => .next hc hreach, fun hreach => ?_⟩⟩
          refine Classical.not_not.mp fun hnone => hstuck hk (.here hhas hreach fun c hc hr => ?_)
          exact Decidable.of_not_not fun hoff => hnone ⟨c, hc, hr, hoff⟩
      exact ⟨hresult.1.pop hk hresult.2, hresult.2.trans (by simp [hk])⟩

theorem update_ne_true {memo : Memo κ} (h : ∀ j, memo j ≠ some true) (k j : κ) :
    Function.update memo k (some false) j ≠ some true := by
  by_cases hjk : j = k
  · rw [hjk, Function.update_self]
    exact nofun
  · rw [Function.update_of_ne hjk]
    exact h j

/-- Calls of nodes that reach through the path alone are false, and leave nothing called true. -/
theorem anyOf_harmless {n : Nat} {path before rest : List κ} {memo memo' : Memo κ} {b : Bool}
    (hsound : Sound has next memo path) (htrue : ∀ j, memo j ≠ some true)
    (hbefore : ∀ c ∈ before, Reaches has next c → c ∈ path)
    (h : anyOf (search has next n) (before ++ rest) memo = some (b, memo')) :
    ∃ memo₁, Sound has next memo₁ path ∧ (∀ j, memo₁ j ≠ some true) ∧
      anyOf (search has next n) rest memo₁ = some (b, memo') := by
  induction before generalizing memo with
  | nil => exact ⟨memo, hsound, htrue, h⟩
  | cons c before ih =>
    have hc := hbefore c List.mem_cons_self
    have hright {r : Bool} {memo₁ : Memo κ} (hr : search has next n c memo = some (r, memo₁)) :=
      search_right hsound (fun hoff hstuck => hoff (hc hstuck.reaches)) hr
    rcases anyOf_cons h with ⟨-, hr⟩ | ⟨memo₁, hr, hrest⟩
    · have hreach := (hright hr).2.mp rfl
      exact absurd (hc hreach.1) hreach.2
    · exact ih (hright hr).1 (fun j hj => htrue j (search_false hr hj))
        (fun d hd => hbefore d (List.mem_cons_of_mem _ hd)) hrest

/-- Where it is stuck a node that reaches ends up called false. -/
theorem search_stuck {nodes : Finset κ} (closed : ∀ k ∈ nodes, ∀ c ∈ next k, c ∈ nodes)
    {path : List κ} {k : κ} (hstuck : Stuck has next path k) (hk : k ∈ nodes) {n : Nat}
    {memo memo' : Memo κ} {b : Bool} (hsound : Sound has next memo path)
    (htrue : ∀ j, memo j ≠ some true) (hoff : k ∉ path)
    (h : search has next n k memo = some (b, memo')) :
    ∃ j ∈ nodes, j ∉ path ∧ Reaches has next j ∧ memo' j = some false := by
  induction hstuck generalizing n memo memo' b with
  | @here path k hasNot reaches all =>
    rcases search_cases h with ⟨hb, -⟩ | ⟨m, reached, memo₁, -, -, hany, hb, rfl⟩
    · have hbtrue := (hsound.off k b hoff hb).mpr reaches
      exact absurd (hbtrue ▸ hb) (htrue k)
    · rw [hasNot, if_neg Bool.false_ne_true, ← List.append_nil (next k)] at hany
      obtain ⟨memo₂, -, -, hrest⟩ :=
        anyOf_harmless (hsound.push k) (fun j => update_ne_true htrue k j) all hany
      cases hrest
      exact ⟨k, hk, hoff, reaches, by rw [Function.update_self, hb, hasNot]; rfl⟩
  | @on path before after k c hasNot split first reaches off rest ih =>
    rcases search_cases h with ⟨hb, -⟩ | ⟨m, reached, memo₁, -, -, hany, -, rfl⟩
    · have hkreach : Reaches has next k := .next (by rw [split]; simp) reaches
      have hbtrue := (hsound.off k b hoff hb).mpr hkreach
      exact absurd (hbtrue ▸ hb) (htrue k)
    · rw [hasNot, if_neg Bool.false_ne_true, split] at hany
      obtain ⟨memo₂, hs₂, htrue₂, hrest⟩ :=
        anyOf_harmless (hsound.push k) (fun j => update_ne_true htrue k j) first hany
      have hc : c ∈ nodes := closed k hk c (by rw [split]; simp)
      obtain ⟨j, hj, hjoff, hreach, hfalse⟩ : ∃ j ∈ nodes, j ∉ k :: path ∧ Reaches has next j ∧
          memo₁ j = some false := by
        rcases anyOf_cons hrest with ⟨-, hr⟩ | ⟨memo₃, hr, hafter⟩
        · exact ih hc hs₂ htrue₂ off hr
        · obtain ⟨j, hj, hjoff, hreach, hfalse⟩ := ih hc hs₂ htrue₂ off hr
          exact ⟨j, hj, hjoff, hreach,
            anyOf_grown (fun _ _ _ _ => search_grown) hafter j false hfalse⟩
      refine ⟨j, hj, List.not_mem_of_not_mem_cons hjoff, hreach, ?_⟩
      rw [Function.update_of_ne (List.ne_of_not_mem_cons hjoff)]
      exact hfalse

theorem searches_total {nodes : Finset κ} (closed : ∀ k ∈ nodes, ∀ c ∈ next k, c ∈ nodes) {n : Nat}
    (hn : nodes.card < n) {ks : List κ} (hks : ∀ k ∈ ks, k ∈ nodes) (memo : Memo κ) :
    ∃ bs memo', searches has next n ks memo = some (bs, memo') := by
  induction ks generalizing memo with
  | nil => exact ⟨[], memo, rfl⟩
  | cons k ks ih =>
    obtain ⟨hk, hks⟩ := List.forall_mem_cons.mp hks
    obtain ⟨b, memo₁, hb⟩ : ∃ b memo₁, search has next n k memo = some (b, memo₁) :=
      search_total closed hk (Nat.lt_of_le_of_lt (unknown_le_card nodes memo) hn)
    obtain ⟨bs, memo', hbs⟩ := ih hks memo₁
    refine ⟨b :: bs, memo', ?_⟩
    unfold searches
    simp [hb, hbs]

theorem searches_cons {n : Nat} {k : κ} {ks : List κ} {memo memo' : Memo κ} {bs : List Bool}
    (h : searches has next n (k :: ks) memo = some (bs, memo')) :
    ∃ b memo₁ bs', search has next n k memo = some (b, memo₁) ∧
      searches has next n ks memo₁ = some (bs', memo') ∧ bs = b :: bs' := by
  unfold searches at h
  obtain ⟨⟨b, memo₁⟩, hb, h⟩ := Option.bind_eq_some_iff.mp h
  obtain ⟨⟨bs', memo₂⟩, hbs, h⟩ := Option.bind_eq_some_iff.mp h
  cases h
  exact ⟨b, memo₁, bs', hb, hbs, rfl⟩

theorem searches_right {nodes : Finset κ} {n : Nat} (hfree : ∀ k ∈ nodes, ¬Stuck has next [] k)
    {ks : List κ} (hks : ∀ k ∈ ks, k ∈ nodes) {memo memo' : Memo κ} {bs : List Bool}
    (hsound : Sound has next memo []) (h : searches has next n ks memo = some (bs, memo')) :
    List.Forall₂ (fun k b => b = true ↔ Reaches has next k) ks bs := by
  induction ks generalizing memo bs with
  | nil =>
    cases h
    exact .nil
  | cons k ks ih =>
    obtain ⟨hk, hks⟩ := List.forall_mem_cons.mp hks
    obtain ⟨b, memo₁, bs', hb, hbs, rfl⟩ := searches_cons h
    obtain ⟨hsound₁, hright⟩ := search_right hsound (fun _ => hfree k hk) hb
    exact .cons (hright.trans (by simp)) (ih hks hsound₁ hbs)

/-- Asked after a node that is stuck, some node that reaches is answered false. -/
theorem searches_stuck {nodes : Finset κ} (closed : ∀ k ∈ nodes, ∀ c ∈ next k, c ∈ nodes) {n : Nat}
    (hn : nodes.card < n) {k : κ} (hk : k ∈ nodes) (hstuck : Stuck has next [] k) :
    ∃ j ∈ nodes, Reaches has next j ∧ ∀ bs memo',
      searches has next n [k, j] (fun _ => none) = some (bs, memo') → ∃ b, bs = [b, false] := by
  obtain ⟨b, memo₁, hb⟩ :=
    search_total closed hk (Nat.lt_of_le_of_lt (unknown_le_card nodes fun _ => none) hn)
  obtain ⟨j, hj, -, hreach, hfalse⟩ :=
    search_stuck closed hstuck hk sound_empty (fun _ => nofun) List.not_mem_nil hb
  refine ⟨j, hj, hreach, fun bs memo' h => ⟨b, ?_⟩⟩
  obtain ⟨b₁, memo₂, bs₁, hb₁, h, rfl⟩ := searches_cons h
  cases hb.symm.trans hb₁
  obtain ⟨b₂, memo₃, bs₂, hb₂, hend, rfl⟩ := searches_cons h
  cases hend
  rcases search_cases hb₂ with ⟨hmemo, -⟩ | ⟨-, -, -, -, hnone, -⟩
  · cases hfalse.symm.trans hmemo
    rfl
  · cases hfalse.symm.trans hnone

/-- Whatever is asked, in whatever order, is answered right if and only if no search from nothing
is stuck. -/
theorem searches_right_iff {nodes : Finset κ} (closed : ∀ k ∈ nodes, ∀ c ∈ next k, c ∈ nodes)
    {n : Nat} (hn : nodes.card < n) :
    (∀ ks : List κ, (∀ k ∈ ks, k ∈ nodes) → ∀ bs memo',
      searches has next n ks (fun _ => none) = some (bs, memo') →
        List.Forall₂ (fun k b => b = true ↔ Reaches has next k) ks bs) ↔
      ∀ k ∈ nodes, ¬Stuck has next [] k := by
  refine ⟨fun hall k hk hstuck => ?_, fun hfree ks hks bs memo' h =>
    searches_right hfree hks sound_empty h⟩
  obtain ⟨j, hj, hreach, hanswer⟩ := searches_stuck closed hn hk hstuck
  have hmem : ∀ c ∈ [k, j], c ∈ nodes := by simp [hk, hj]
  obtain ⟨bs, memo', hbs⟩ : ∃ bs memo',
      searches has next n [k, j] (fun _ => none) = some (bs, memo') :=
    searches_total closed hn hmem fun _ => none
  obtain ⟨b, rfl⟩ := hanswer bs memo' hbs
  cases hall [k, j] hmem _ _ hbs with
  | cons _ hrest =>
    cases hrest with
    | cons hfalse _ => exact Bool.false_ne_true (hfalse.mpr hreach)

end CtRecomp.MemoSearch
