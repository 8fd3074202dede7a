import CtRecomp.OverlayStale

namespace CtRecomp

/-! The watched range covers every function that runs natively and is not dormant, over
any run. -/

/-- The watch, with the ranges saved in it, covers those active and not dormant; a write
that is still journaled and has not raised `ct_wram_hit` missed them. -/
structure Overlays.Watching (table : List OverlayFunc) (s : Overlays) : Prop where
  placed : ∀ a ∈ s.act, table[a.idx]? = some a.f
  bounded : s.watch.Bounded
  covers : ∀ a ∈ s.act, a.dormant = false → s.watch.Covers a.f
  saved : ∀ n a, s.act[n]? = some a → a.saved.Bounded ∧
    ∀ b ∈ s.act.take n, b.dormant = false → a.saved.Covers b.f
  kept : s.Kept table
  journal : s.hit = false → ∀ e ∈ s.journal, ∀ a ∈ s.act, a.dormant = false → ¬a.f.Holds e.1

section

variable {table : List OverlayFunc} {s s' : Overlays}

theorem Watching.start (wram : BitVec 17 → BitVec 8) (stores : BitVec 9 → Nat) :
    (OvlMachine.start wram stores).ovl.Watching table where
  placed a ha := by cases ha
  bounded := Nat.zero_le _
  covers a ha := by cases ha
  saved n a ha := by cases ha
  kept k f c _ hc := by cases hc
  journal _ e he := by cases he

theorem store_stores_le (off : BitVec 17) (v : BitVec 8) (journaled : Bool) (p : BitVec 9) :
    s.stores p ≤ (s.store off v journaled).stores p := by
  change _ ≤ Function.update s.stores (pageOf off) (s.stores (pageOf off) + 1) p
  rw [Function.update_apply]
  split
  next h =>
    rw [h]
    exact Nat.le_succ _
  next => exact Nat.le_refl _

theorem store_stores_self (off : BitVec 17) (v : BitVec 8) (journaled : Bool) :
    (s.store off v journaled).stores (pageOf off) = s.stores (pageOf off) + 1 :=
  Function.update_self _ _ _

theorem store_intact {f : OverlayFunc} {off : BitVec 17} (h : ¬f.Holds off) (v : BitVec 8)
    (journaled : Bool) : f.intact (s.store off v journaled).wram = f.intact s.wram := by
  refine f.intact_congr fun off' hoff => Function.update_of_ne ?_ _ _
  rintro rfl
  exact h hoff

/-- A write that does not raise `ct_wram_hit` is outside every function watched. -/
theorem Overlays.Watching.missed (h : s.Watching table) {off : BitVec 17} {v : BitVec 8}
    {journaled : Bool} (hit : (s.store off v journaled).hit = false) :
    s.hit = false ∧ ∀ a ∈ s.act, a.dormant = false → ¬a.f.Holds off := by
  obtain ⟨hhit, hhas⟩ := Bool.or_eq_false_iff.mp hit
  refine ⟨hhit, fun a ha hawake hoff => ?_⟩
  rw [(h.covers a ha hawake).has h.bounded hoff] at hhas
  cases hhas

theorem Overlays.Kept.store (h : s.Kept table) (off : BitVec 17) (v : BitVec 8)
    (journaled : Bool) : (s.store off v journaled).Kept table := by
  intro k f c hf hc
  have hsound := h k f c hf hc
  refine ⟨hsound.gens, fun p => Nat.le_trans (hsound.grown p) (store_stores_le _ _ _ p), ?_, ?_⟩
  · intro hsame
    have hmiss : ¬f.Holds off := by
      intro hoff
      have hpage := hsame _ (f.page_mem hoff)
      have hgrown := hsound.grown (pageOf off)
      rw [store_stores_self] at hpage
      omega
    rw [store_intact hmiss]
    refine hsound.valid fun p hp => ?_
    have := hsame p hp
    have := hsound.grown p
    have := store_stores_le (s := s) off v journaled p
    omega
  · intro e he
    have hold : e ∈ s.journal → c.stores (pageOf e.1) <
        (s.store off v journaled).stores (pageOf e.1) := fun he =>
      Nat.lt_of_lt_of_le (hsound.journal e he) (store_stores_le _ _ _ _)
    cases journaled with
    | false => exact hold he
    | true =>
      rcases List.mem_append.mp he with he | he
      · exact hold he
      · cases List.mem_singleton.mp he
        rw [store_stores_self]
        exact Nat.lt_succ_of_le (hsound.grown _)

theorem Overlays.Watching.store (h : s.Watching table) (off : BitVec 17) (v : BitVec 8)
    (journaled : Bool) : (s.store off v journaled).Watching table where
  placed := h.placed
  bounded := h.bounded
  covers := h.covers
  saved := h.saved
  kept := h.kept.store off v journaled
  journal hit e he a ha hawake := by
    obtain ⟨hhit, hmissed⟩ := h.missed hit
    cases journaled with
    | false => exact h.journal hhit e he a ha hawake
    | true =>
      rcases List.mem_append.mp he with he | he
      · exact h.journal hhit e he a ha hawake
      · cases List.mem_singleton.mp he
        exact hmissed a ha hawake

/-- Bytes the journal's writes do not hold stay. -/
theorem edge_wram {undoFrom : Nat} {off : BitVec 17} (h : ∀ e ∈ s.journal, e.1 ≠ off) :
    (s.edge undoFrom).wram off = s.wram off := by
  have hall : ∀ e ∈ s.journal.drop undoFrom, e.1 ≠ off := fun e he => h e (List.mem_of_mem_drop he)
  change (s.journal.drop undoFrom).foldl (fun w e => Function.update w e.1 e.2) s.wram off = _
  generalize s.journal.drop undoFrom = l at hall
  generalize s.wram = w
  induction l generalizing w with
  | nil => rfl
  | cons e l ih =>
    obtain ⟨he, hl⟩ := List.forall_mem_cons.mp hall
    rw [List.foldl_cons, ih hl]
    exact Function.update_of_ne (Ne.symm he) _ _

theorem edge_intact {f : OverlayFunc} (undoFrom : Nat) (h : ∀ e ∈ s.journal, ¬f.Holds e.1) :
    f.intact (s.edge undoFrom).wram = f.intact s.wram := by
  refine f.intact_congr fun off hoff => edge_wram ?_
  rintro e he rfl
  exact h e he hoff

theorem Overlays.Kept.edge (h : s.Kept table) (undoFrom : Nat) :
    (s.edge undoFrom).Kept table := by
  intro k f c hf hc
  have hsound := h k f c hf hc
  refine ⟨hsound.gens, hsound.grown, fun hsame => ?_, hsound.journal⟩
  rw [edge_intact undoFrom fun e he hoff => ?_]
  · exact hsound.valid hsame
  · exact absurd (hsame _ (f.page_mem hoff)) (Nat.ne_of_lt (hsound.journal e he))

theorem Overlays.Watching.edge (h : s.Watching table) (undoFrom : Nat) :
    (s.edge undoFrom).Watching table where
  placed := h.placed
  bounded := h.bounded
  covers := h.covers
  saved := h.saved
  kept := h.kept.edge undoFrom
  journal := h.journal

/-- A new journal. -/
theorem Overlays.Kept.boundary (h : s.Kept table) (hit : Bool) :
    ({ s with journal := [], hit } : Overlays).Kept table := by
  intro k f c hf hc
  have hsound := h k f c hf hc
  exact ⟨hsound.gens, hsound.grown, hsound.valid, fun e he => by cases he⟩

/-- At a boundary: a new journal, functions checked again, `ct_wram_hit` cleared or not. -/
theorem Overlays.Watching.boundary (h : s.Watching table) (hit : Bool)
    (hr : Rechecked table { s with journal := [], hit } s') : s'.Watching table := by
  have hs := hr.kept (h.kept.boundary hit)
  rw [hr.same] at hs ⊢
  refine ⟨h.placed, h.bounded, h.covers, h.saved, hs, fun _ e he => by cases he⟩

theorem Overlays.Watching.enter (h : s.Watching table) {f : OverlayFunc} {k : Nat}
    {s0 : BitVec 16} (hf : table[k]? = some f) (hj : s.journal = [])
    (he : s.enter f k s0 = some s') : s'.Watching table := by
  unfold Overlays.enter at he
  split at he
  next => cases he
  next =>
    cases he
    refine ⟨?_, s.watch.widen_bounded h.bounded f, ?_, ?_, ?_, ?_⟩
    · intro a ha
      rcases List.mem_append.mp ha with ha | ha
      · exact h.placed a ha
      · cases List.mem_singleton.mp ha
        exact hf
    · intro a ha hawake
      rcases List.mem_append.mp ha with ha | ha
      · exact (h.covers a ha hawake).widen f
      · cases List.mem_singleton.mp ha
        exact s.watch.widen_covers f
    · intro n a ha
      rcases Nat.lt_or_ge n s.act.length with hn | hn
      · rw [List.getElem?_append_left hn] at ha
        rw [List.take_append_of_le_length (Nat.le_of_lt hn)]
        exact h.saved n a ha
      · rw [List.getElem?_append_right hn] at ha
        have hmem : a ∈ [(⟨f, k, s0, false, s.watch⟩ : OverlayAct)] := List.mem_of_getElem? ha
        cases List.mem_singleton.mp hmem
        have hlen : n - s.act.length = 0 := by
          have hlt := (List.getElem?_eq_some_iff.mp ha).1
          rw [List.length_singleton] at hlt
          omega
        refine ⟨h.bounded, fun b hb hawake => ?_⟩
        rw [List.take_append_of_le_length (by omega)] at hb
        exact h.covers b (List.mem_of_mem_take hb) hawake
    · intro k f c hf hc
      have hsound := h.kept k f c hf hc
      exact ⟨hsound.gens, hsound.grown, hsound.valid, hsound.journal⟩
    · intro _ e he
      rw [hj] at he
      cases he

/-- Whichever active entry is left, the range saved when it entered is the right one. -/
theorem Overlays.Watching.leave (h : s.Watching table) (n : Nat) : (s.leave n).Watching table := by
  unfold Overlays.leave
  split
  next => exact h
  next a ha =>
    obtain ⟨hbounded, hcovers⟩ := h.saved n a ha
    refine ⟨fun b hb => h.placed b (List.mem_of_mem_take hb), hbounded, hcovers, ?_, ?_, ?_⟩
    · intro k b hb
      have hk : k < n := by
        have hlt := (List.getElem?_eq_some_iff.mp hb).1
        rw [List.length_take] at hlt
        omega
      rw [List.getElem?_take_of_lt hk] at hb
      rw [List.take_take, Nat.min_eq_left (Nat.le_of_lt hk)]
      exact h.saved k b hb
    · intro k f c hf hc
      have hsound := h.kept k f c hf hc
      exact ⟨hsound.gens, hsound.grown, hsound.valid, hsound.journal⟩
    · exact fun hit e he b hb => h.journal hit e he b (List.mem_of_mem_take hb)

theorem rewatch_covers (act : List OverlayAct) {w : WatchRange} (hw : w.Bounded) :
    let r := act.foldl (fun w a => if a.dormant then w else w.widen a.f) w
    r.Bounded ∧ (∀ f, w.Covers f → r.Covers f) ∧
      ∀ a ∈ act, a.dormant = false → r.Covers a.f := by
  induction act generalizing w with
  | nil => exact ⟨hw, fun _ hf => hf, fun a ha => by cases ha⟩
  | cons b act ih =>
    dsimp only [List.foldl_cons]
    cases hb : b.dormant with
    | true =>
      rw [if_pos rfl]
      obtain ⟨hbounded, hold, hnew⟩ := ih hw
      refine ⟨hbounded, hold, fun a ha hawake => ?_⟩
      rcases List.mem_cons.mp ha with rfl | ha
      · rw [hb] at hawake
        cases hawake
      · exact hnew a ha hawake
    | false =>
      rw [if_neg Bool.false_ne_true]
      obtain ⟨hbounded, hold, hnew⟩ := ih (w.widen_bounded hw b.f)
      refine ⟨hbounded, fun f hf => hold f (hf.widen b.f), fun a ha hawake => ?_⟩
      rcases List.mem_cons.mp ha with rfl | ha
      · exact hold _ (w.widen_covers _)
      · exact hnew a ha hawake

/-- What `go_dormant` does where it does anything. -/
theorem goDormant_cases (s : Overlays) : s.goDormant = s ∨
    ∃ act a, s.act = act ++ [a] ∧ a.dormant = false ∧ s.goDormant =
      { s with act := act ++ [a.sleep], watch := rewatch (act ++ [a.sleep]) } := by
  unfold Overlays.goDormant
  split
  next => exact .inl rfl
  next a ha =>
    obtain ⟨act, hact⟩ := List.getLast?_eq_some_iff.mp ha
    cases hdorm : a.dormant with
    | true => exact .inl (if_pos rfl)
    | false =>
      refine .inr ⟨act, a, hact, hdorm, ?_⟩
      rw [if_neg Bool.false_ne_true, hact, List.dropLast_concat]

theorem getElem?_concat {α : Type} {l : List α} {a b : α} {n : Nat}
    (h : (l ++ [a])[n]? = some b) : (n < l.length ∧ l[n]? = some b) ∨ (n = l.length ∧ b = a) := by
  rcases Nat.lt_or_ge n l.length with hn | hn
  · rw [List.getElem?_append_left hn] at h
    exact .inl ⟨hn, h⟩
  · rw [List.getElem?_append_right hn] at h
    have hlt := (List.getElem?_eq_some_iff.mp h).1
    rw [List.length_singleton] at hlt
    have hzero : n - l.length = 0 := by omega
    rw [hzero] at h
    exact .inr ⟨by omega, (Option.some.inj h).symm⟩

theorem Overlays.Watching.goDormant (h : s.Watching table) : s.goDormant.Watching table := by
  rcases goDormant_cases s with hsame | ⟨act, a, hact, -, hsleep⟩
  · rw [hsame]
    exact h
  · have hempty : WatchRange.Bounded ⟨0, 0⟩ := Nat.zero_le _
    obtain ⟨hbounded, -, hcovers⟩ := rewatch_covers (act ++ [a.sleep]) hempty
    have hlen : s.act.length = act.length + 1 := by rw [hact, List.length_append, List.length_singleton]
    rw [hsleep]
    refine ⟨?_, hbounded, hcovers, ?_, ?_, ?_⟩
    · intro b hb
      rcases List.mem_append.mp hb with hb | hb
      · exact h.placed b (by rw [hact]; exact List.mem_append_left _ hb)
      · cases List.mem_singleton.mp hb
        exact h.placed a (by rw [hact]; exact List.mem_append_right _ (List.mem_singleton_self a))
    · intro n b hb
      have hn : n ≤ act.length := by
        rcases getElem?_concat hb with ⟨hn, -⟩ | ⟨hn, -⟩ <;> omega
      have hold : ∃ b', s.act[n]? = some b' ∧ b'.saved = b.saved := by
        rcases getElem?_concat hb with ⟨hn, hb⟩ | ⟨hn, rfl⟩
        · exact ⟨b, by rw [hact, List.getElem?_append_left hn, hb], rfl⟩
        · exact ⟨a, by rw [hact, hn, List.getElem?_concat_length], rfl⟩
      obtain ⟨b', hb', hsaved⟩ := hold
      have hs := h.saved n b' hb'
      rw [hsaved, hact, List.take_append_of_le_length hn] at hs
      rw [List.take_append_of_le_length hn]
      exact hs
    · intro k f c hf hc
      have hsound := h.kept k f c hf hc
      exact ⟨hsound.gens, hsound.grown, hsound.valid, hsound.journal⟩
    · intro hit e he b hb hawake
      rcases List.mem_append.mp hb with hb | hb
      · exact h.journal hit e he b (by rw [hact]; exact List.mem_append_left _ hb) hawake
      · cases List.mem_singleton.mp hb
        cases hawake

theorem Overlays.Watching.reset (h : s.Watching table) :
    ({ s.resetActive with journal := [] } : Overlays).Watching table where
  placed a ha := by cases ha
  bounded := Nat.zero_le _
  covers a ha := by cases ha
  saved n a ha := by cases ha
  kept k f c hf hc := by
    have hsound := h.kept k f c hf hc
    exact ⟨hsound.gens, hsound.grown, hsound.valid, fun e he => by cases he⟩
  journal _ e he := by cases he

/-! The C stack holds the active entries in order; a bail-out counts those active when it
began. -/

inductive Nested : List OvlFrame → Nat → Prop
  | nil : Nested [] 0
  | exec {outer : List OvlFrame} {n : Nat} (h : Nested outer n) : Nested (.exec :: outer) n
  | rom {outer : List OvlFrame} {n : Nat} (h : Nested outer n) : Nested (.rom :: outer) n
  | overlay {outer : List OvlFrame} {n : Nat} (h : Nested outer n) :
      Nested (.overlay n :: outer) (n + 1)
  | spent {outer : List OvlFrame} {n : Nat} (h : Nested outer n) : Nested (.spent n :: outer) (n + 1)
  | bail {outer : List OvlFrame} {n k : Nat} (h : Nested outer n) (hk : k < n) :
      Nested (.bail k n :: outer) n

theorem Nested.unwind {stack : List OvlFrame} {n k : Nat} (h : Nested stack n) (hk : k < n) :
    Nested (unwind k stack) k := by
  induction h with
  | nil => exact absurd hk (Nat.not_lt_zero k)
  | exec _ ih => exact ih hk
  | rom _ ih => exact ih hk
  | @overlay outer n h ih =>
    unfold CtRecomp.unwind
    by_cases heq : n = k
    · rw [if_pos (.inl (by rw [heq]))]
      exact heq ▸ h
    · rw [if_neg (by simp [heq])]
      exact ih (by omega)
  | @spent outer n h ih =>
    unfold CtRecomp.unwind
    by_cases heq : n = k
    · rw [if_pos (.inr (by rw [heq]))]
      exact heq ▸ h
    · rw [if_neg (by simp [heq])]
      exact ih (by omega)
  | bail _ _ ih => exact ih hk

theorem Nested.bailing_le {stack : List OvlFrame} {n k active : Nat} (h : Nested stack n)
    (hb : bailing stack = some (k, active)) : k < active ∧ active ≤ n := by
  induction h with
  | nil => cases hb
  | exec _ ih => exact ih hb
  | rom _ ih => exact ih hb
  | overlay _ ih =>
    have := ih hb
    omega
  | spent _ ih =>
    have := ih hb
    omega
  | bail h hk =>
    cases hb
    exact ⟨hk, Nat.le_refl _⟩

theorem Nested.overlay_lt {stack : List OvlFrame} {n k : Nat} (h : Nested stack n)
    (hmem : .overlay k ∈ stack) : k < n := by
  induction h with
  | nil => cases hmem
  | exec _ ih => exact ih (by simpa using hmem)
  | rom _ ih => exact ih (by simpa using hmem)
  | overlay _ ih =>
    rcases List.mem_cons.mp hmem with heq | hmem
    · cases heq
      exact Nat.lt_succ_self _
    · exact Nat.lt_succ_of_lt (ih hmem)
  | spent _ ih => exact Nat.lt_succ_of_lt (ih (by simpa using hmem))
  | bail _ _ ih => exact ih (by simpa using hmem)

theorem mem_unwind {fr : OvlFrame} {n : Nat} {stack : List OvlFrame} (h : fr ∈ unwind n stack) :
    fr ∈ stack := by
  induction stack with
  | nil => exact h
  | cons top outer ih =>
    unfold unwind at h
    split at h
    next => exact List.mem_cons_of_mem _ h
    next => exact List.mem_cons_of_mem _ (ih h)

end

end CtRecomp
