import CtRecomp.LowerBound
import CtRecomp.OverlayLive

namespace CtRecomp

open LowerBound

/-! The lookup by address (overlay.c `overlay_init`, `first_at`, `overlay_lookup`,
`overlay_state`), its verdicts cached against the page counters. -/

/-- `ovl`: the entries of `ct_overlay_funcs` that have code, by address, as `qsort` leaves
entries of one address. None with CT_OVERLAYS=0. -/
structure OverlayIndex (funcs : List (OverlayFunc × Bool)) (enabled : Bool) where
  ovl : List OverlayFunc
  perm : ovl.Perm (if enabled then (funcs.filter Prod.snd).map Prod.fst else [])
  sorted : ovl.Pairwise fun f g => f.addr ≤ g.addr

/-- The cache, with two things that are not in the source: the write counts when each entry was
last checked, and whether a page counter of an entry has ever wrapped between two of its
checks. -/
structure CheckedOverlays where
  ovl : Overlays
  checked : Nat → Option (BitVec 9 → Nat)
  wrapped : Bool

/-- A counter's wraps. -/
def wraps (stores : BitVec 9 → Nat) (p : BitVec 9) : Nat := stores p / 2 ^ 32

namespace CheckedOverlays

/-- `valid` -/
def valid (s : CheckedOverlays) (f : OverlayFunc) (k : Nat) : Bool × CheckedOverlays :=
  let (v, ovl) := s.ovl.valid f k
  let around := match s.checked k with
    | none => false
    | some old => f.pages.any fun p => wraps old p != wraps s.ovl.stores p
  (v, ⟨ovl, Function.update s.checked k (some s.ovl.stores), s.wrapped || around⟩)

/-- The loop of `overlay_lookup`, from entry `k` on. -/
def search (s : CheckedOverlays) (at' : BitVec 24) (m x : Bool) :
    List OverlayFunc → Nat → Option (OverlayFunc × Nat) × CheckedOverlays
  | [], _ => (none, s)
  | f :: rest, k =>
    if f.addr = at' then
      if f.m = m ∧ f.x = x then
        let (v, s) := s.valid f k
        if v then (some (f, k), s) else s.search at' m x rest (k + 1)
      else s.search at' m x rest (k + 1)
    else (none, s)

/-- The loop of `overlay_state`: whether there is an entry, and whether one does not match. -/
def state (s : CheckedOverlays) (at' : BitVec 24) (m x : Bool) :
    List OverlayFunc → Nat → Bool × Bool × CheckedOverlays
  | [], _ => (false, false, s)
  | f :: rest, k =>
    if f.addr = at' then
      if f.m = m ∧ f.x = x then
        let (v, s) := s.valid f k
        let (_, stale, s) := s.state at' m x rest (k + 1)
        (true, !v || stale, s)
      else s.state at' m x rest (k + 1)
    else (false, false, s)

/-- An instruction begins: the journal of the last one is done with. -/
def boundary (s : CheckedOverlays) : CheckedOverlays := { s with ovl := { s.ovl with journal := [] } }

end CheckedOverlays

def firstAt (ovl : List OverlayFunc) (at' : BitVec 24) : Nat :=
  lowerBound (fun k => (ovl[k]?).any fun f => f.addr < at') ovl.length 0 ovl.length

/-- `overlay_lookup` -/
def overlayLookup (ovl : List OverlayFunc) (s : CheckedOverlays) (c : Cpu) :
    Option (OverlayFunc × Nat) × CheckedOverlays :=
  if c.e ∨ c.PB ≠ 0x7E ∧ c.PB ≠ 0x7F ∨ ovl.length = 0 then (none, s)
  else
    let at' := c.pbpc
    let k := firstAt ovl at'
    s.search at' c.m c.x (ovl.drop k) k

/-- `overlay_state` -/
def overlayState (ovl : List OverlayFunc) (s : CheckedOverlays) (addr : BitVec 24) (m x : Bool) :
    Bool × Bool × CheckedOverlays :=
  let k := firstAt ovl addr
  s.state addr m x (ovl.drop k) k

/-- WRAM zeroed, and every page's counter up by one. -/
def Overlays.busReset (s : Overlays) : Overlays :=
  { s with wram := fun _ => 0, stores := fun p => s.stores p + 1 }

/-- A WRAM write, whoever makes it; the redo at a frame edge; `bus_reset`; an instruction
beginning; a check. -/
inductive OverlayOp
  | store (off : BitVec 17) (v : BitVec 8) (journaled : Bool)
  | edge (undoFrom : Nat)
  | busReset
  | boundary
  | lookup (c : Cpu)
  | state (addr : BitVec 24) (m x : Bool)
  /-- Of a function running, by `overlay_stale_active`. -/
  | active (k : Nat)

def OverlayOp.run (ovl : List OverlayFunc) (s : CheckedOverlays) : OverlayOp → CheckedOverlays
  | .store off v journaled => { s with ovl := s.ovl.store off v journaled }
  | .edge undoFrom => { s with ovl := s.ovl.edge undoFrom }
  | .busReset => { s with ovl := s.ovl.busReset }
  | .boundary => s.boundary
  | .lookup c => (overlayLookup ovl s.boundary c).2
  | .state addr m x => (overlayState ovl s.boundary addr m x).2.2
  | .active k =>
    match ovl[k]? with
    | none => s
    | some f => (s.boundary.valid f k).2

/-- From `overlay_init` on, whatever WRAM and the counters hold. -/
def overlayRun (ovl : List OverlayFunc) (wram : BitVec 17 → BitVec 8) (stores : BitVec 9 → Nat)
    (ops : List OverlayOp) : CheckedOverlays :=
  ops.foldl (OverlayOp.run ovl) ⟨(OvlMachine.start wram stores).ovl, fun _ => none, false⟩

/-! While no counter wraps between checks. -/

/-- What the last check of each entry found is what its bytes then said, the counts of the
cached check being those of the last check of any kind. -/
structure CheckedOverlays.Kept (ovl : List OverlayFunc) (s : CheckedOverlays) : Prop where
  kept : s.ovl.Kept ovl
  checked : ∀ k f c, ovl[k]? = some f → s.ovl.cache k = some c →
    ∃ old, s.checked k = some old ∧ ∀ p ∈ f.pages, old p = c.stores p

section

variable {ovl : List OverlayFunc} {s : CheckedOverlays} {f : OverlayFunc} {k : Nat}

/-- No wrap, and the same counters: the same counts. -/
theorem stores_eq_of_gens {c : OverlayCheck} {o : Overlays} (hsound : c.Sound f o)
    (hwraps : ∀ p ∈ f.pages, wraps c.stores p = wraps o.stores p) (hgens : c.gens = pageGens o f) :
    ∀ p ∈ f.pages, c.stores p = o.stores p := by
  rw [hsound.gens] at hgens
  have hle : ∀ p ∈ f.pages, c.stores p % 2 ^ 32 ≤ o.stores p % 2 ^ 32 := fun p hp => by
    have hgrown := hsound.grown p
    have hwrap : c.stores p / 2 ^ 32 = o.stores p / 2 ^ 32 := hwraps p hp
    omega
  intro p hp
  have hmod : c.stores p % 2 ^ 32 = o.stores p % 2 ^ 32 := eq_of_sum_eq hle hgens p hp
  have hwrap : c.stores p / 2 ^ 32 = o.stores p / 2 ^ 32 := hwraps p hp
  omega

namespace CheckedOverlays

theorem valid_wrapped (h : (s.valid f k).2.wrapped = false) : s.wrapped = false :=
  (Bool.or_eq_false_iff.mp h).1

/-- A check is right, and leaves the rest as it was. -/
theorem Kept.valid (h : s.Kept ovl) (hf : ovl[k]? = some f) (hj : s.ovl.journal = [])
    (hwrapped : (s.valid f k).2.wrapped = false) :
    (s.valid f k).1 = f.intact s.ovl.wram ∧ (s.valid f k).2.Kept ovl ∧
      (s.valid f k).2.ovl = { s.ovl with cache := (s.valid f k).2.ovl.cache } := by
  have hre := (valid_rechecked (s := s.ovl) hf hj).1
  have hrecheck : (s.ovl.recheck f k).1 = f.intact s.ovl.wram := rfl
  -- Any other entry keeps its cached check and its counts.
  have hothers : ∀ (o : Overlays), (∀ k', k' ≠ k → o.cache k' = s.ovl.cache k') →
      (∀ c, o.cache k = some c → ∀ p ∈ f.pages, s.ovl.stores p = c.stores p) →
      ∀ k' g c, ovl[k']? = some g → o.cache k' = some c →
        ∃ old, Function.update s.checked k (some s.ovl.stores) k' = some old ∧
          ∀ p ∈ g.pages, old p = c.stores p := by
    intro o hsame hhere k' g c hg hc
    by_cases hk : k' = k
    · subst hk
      rw [hf] at hg
      cases hg
      exact ⟨_, Function.update_self _ _ _, hhere c hc⟩
    · obtain ⟨old, hold, hcounts⟩ := h.checked k' g c hg (hsame k' hk ▸ hc)
      exact ⟨old, (Function.update_of_ne hk _ _).trans hold, hcounts⟩
  have hagain : ∀ k', k' ≠ k → (s.ovl.recheck f k).2.cache k' = s.ovl.cache k' := fun k' hk => by
    rw [recheck_cache, if_neg hk]
  have hnow : ∀ c, (s.ovl.recheck f k).2.cache k = some c →
      ∀ p ∈ f.pages, s.ovl.stores p = c.stores p := fun c hc p _ => by
    rw [recheck_cache, if_pos rfl] at hc
    cases hc
    rfl
  have haround := (Bool.or_eq_false_iff.mp hwrapped).2
  unfold CheckedOverlays.valid Overlays.valid at *
  cases hc : s.ovl.cache k with
  | none =>
    rw [hc] at hre
    exact ⟨hrecheck, ⟨hre.kept h.kept, hothers _ hagain hnow⟩, hre.same⟩
  | some c =>
    rw [hc] at hre
    dsimp only at hre ⊢
    by_cases hgens : c.gens = pageGens s.ovl f
    · rw [if_pos hgens] at hre ⊢
      obtain ⟨old, hold, hcounts⟩ := h.checked k f c hf hc
      rw [hold] at haround
      have hwraps : ∀ p ∈ f.pages, wraps c.stores p = wraps s.ovl.stores p := fun p hp => by
        have hnone := List.any_eq_false.mp haround p hp
        rw [bne_iff_ne, not_not] at hnone
        exact (congrArg (· / 2 ^ 32) (hcounts p hp)).symm.trans hnone
      have hsame := stores_eq_of_gens (h.kept k f c hf hc) hwraps hgens
      refine ⟨(h.kept k f c hf hc).valid hsame, ⟨h.kept, hothers _ (fun _ _ => rfl) ?_⟩, rfl⟩
      intro c' hc' p hp
      rw [hc] at hc'
      cases hc'
      exact (hsame p hp).symm
    · rw [if_neg hgens] at hre ⊢
      exact ⟨hrecheck, ⟨hre.kept h.kept, hothers _ hagain hnow⟩, hre.same⟩

theorem search_wrapped {at' : BitVec 24} {m x : Bool} {l : List OverlayFunc}
    (h : (s.search at' m x l k).2.wrapped = false) : s.wrapped = false := by
  induction l generalizing s k with
  | nil => exact h
  | cons f rest ih =>
    unfold search at h
    split at h
    next =>
      split at h
      next =>
        cases hv : s.valid f k with
        | mk v s₁ =>
          rw [hv] at h
          have hvalid : s₁.wrapped = false → s.wrapped = false := fun h' =>
            valid_wrapped (f := f) (k := k) (by rw [hv]; exact h')
          cases v with
          | true => exact hvalid h
          | false => exact hvalid (ih h)
      next => exact ih h
    next => exact h

theorem state_wrapped {at' : BitVec 24} {m x : Bool} {l : List OverlayFunc}
    (h : (s.state at' m x l k).2.2.wrapped = false) : s.wrapped = false := by
  induction l generalizing s k with
  | nil => exact h
  | cons f rest ih =>
    unfold state at h
    split at h
    next =>
      split at h
      next => exact valid_wrapped (ih h)
      next => exact ih h
    next => exact h

end CheckedOverlays

/-- Compiled for this address and state. -/
def OverlayFunc.At (f : OverlayFunc) (at' : BitVec 24) (m x : Bool) : Prop :=
  f.addr = at' ∧ f.m = m ∧ f.x = x

/-- Entries by address, none before `at'`, as `ovl` has them from `k` on. -/
structure From (ovl : List OverlayFunc) (at' : BitVec 24) (l : List OverlayFunc) (k : Nat) :
    Prop where
  same : ∀ i, l[i]? = ovl[k + i]?
  sorted : l.Pairwise fun f g => f.addr ≤ g.addr
  reached : ∀ f ∈ l, at' ≤ f.addr

theorem From.head {at' : BitVec 24} {rest : List OverlayFunc} (h : From ovl at' (f :: rest) k) :
    ovl[k]? = some f := (h.same 0).symm

theorem From.tail {at' : BitVec 24} {rest : List OverlayFunc} (h : From ovl at' (f :: rest) k) :
    From ovl at' rest (k + 1) where
  same i := by
    rw [Nat.add_assoc, Nat.add_comm 1 i]
    exact h.same (i + 1)
  sorted := (List.pairwise_cons.mp h.sorted).2
  reached g hg := h.reached g (List.mem_cons_of_mem _ hg)

/-- Past the address there is none of it. -/
theorem From.past {at' : BitVec 24} {rest : List OverlayFunc} (h : From ovl at' (f :: rest) k)
    (hf : f.addr ≠ at') : ∀ g ∈ f :: rest, g.addr ≠ at' := by
  have hlater := (List.pairwise_cons.mp h.sorted).1
  have hreached := h.reached f List.mem_cons_self
  rintro g hg rfl
  rcases List.mem_cons.mp hg with rfl | hg
  · exact hf rfl
  · exact hf (BitVec.le_antisymm (hlater g hg) hreached)

namespace CheckedOverlays

/-- What a search through checks of entries leaves. -/
structure Left (ovl : List OverlayFunc) (s s' : CheckedOverlays) : Prop where
  kept : s'.Kept ovl
  same : s'.ovl = { s.ovl with cache := s'.ovl.cache }

theorem Left.wram {s' : CheckedOverlays} (h : Left ovl s s') : s'.ovl.wram = s.ovl.wram := by
  rw [h.same]

theorem Left.journal {s' : CheckedOverlays} (h : Left ovl s s') :
    s'.ovl.journal = s.ovl.journal := by
  rw [h.same]

theorem Left.trans {s' s'' : CheckedOverlays} (h : Left ovl s s') (h' : Left ovl s' s'') :
    Left ovl s s'' := ⟨h'.kept, by rw [h'.same, h.same]⟩

theorem Kept.search (h : s.Kept ovl) (hj : s.ovl.journal = []) {at' : BitVec 24} {m x : Bool}
    {l : List OverlayFunc} (hl : From ovl at' l k)
    (hwrapped : (s.search at' m x l k).2.wrapped = false) :
    Left ovl s (s.search at' m x l k).2 ∧
      (∀ e, (s.search at' m x l k).1 = some e →
        ovl[e.2]? = some e.1 ∧ e.1.At at' m x ∧ e.1.intact s.ovl.wram = true) ∧
      ((s.search at' m x l k).1 = none →
        ∀ g ∈ l, g.At at' m x → g.intact s.ovl.wram = false) := by
  induction l generalizing s k with
  | nil => exact ⟨⟨h, rfl⟩, fun e he => (by cases he), fun _ g hg => (by cases hg)⟩
  | cons f rest ih =>
    unfold CheckedOverlays.search at hwrapped ⊢
    by_cases haddr : f.addr = at'
    · rw [if_pos haddr] at hwrapped ⊢
      by_cases hstate : f.m = m ∧ f.x = x
      · rw [if_pos hstate] at hwrapped ⊢
        cases hv : s.valid f k with
        | mk v s₁ =>
          rw [hv] at hwrapped
          have hwrapped₁ : s₁.wrapped = false := by
            cases v with
            | true => exact hwrapped
            | false => exact search_wrapped hwrapped
          obtain ⟨hright, hkept, hsame⟩ := h.valid hl.head hj (by rw [hv]; exact hwrapped₁)
          rw [hv] at hright hkept hsame
          have hleft : Left ovl s s₁ := ⟨hkept, hsame⟩
          cases v with
          | true =>
            refine ⟨hleft, fun e he => ?_, fun hnone => by cases hnone⟩
            cases he
            exact ⟨hl.head, ⟨haddr, hstate⟩, hright.symm⟩
          | false =>
            obtain ⟨hrest, hfound, hnone⟩ := ih hkept (hleft.journal.trans hj) hl.tail hwrapped
            rw [hleft.wram] at hfound hnone
            refine ⟨hleft.trans hrest, hfound, fun hno g hg hat => ?_⟩
            rcases List.mem_cons.mp hg with rfl | hg
            · exact hright.symm
            · exact hnone hno g hg hat
      · rw [if_neg hstate] at hwrapped ⊢
        obtain ⟨hrest, hfound, hnone⟩ := ih h hj hl.tail hwrapped
        refine ⟨hrest, hfound, fun hno g hg hat => ?_⟩
        rcases List.mem_cons.mp hg with rfl | hg
        · exact absurd hat.2 hstate
        · exact hnone hno g hg hat
    · rw [if_neg haddr]
      exact ⟨⟨h, rfl⟩, fun e he => (by cases he), fun _ g hg hat =>
        absurd hat.1 (hl.past haddr g hg)⟩

theorem Kept.state (h : s.Kept ovl) (hj : s.ovl.journal = []) {at' : BitVec 24} {m x : Bool}
    {l : List OverlayFunc} (hl : From ovl at' l k)
    (hwrapped : (s.state at' m x l k).2.2.wrapped = false) :
    Left ovl s (s.state at' m x l k).2.2 ∧
      ((s.state at' m x l k).1 = true ↔ ∃ g ∈ l, g.At at' m x) ∧
      ((s.state at' m x l k).2.1 = true ↔
        ∃ g ∈ l, g.At at' m x ∧ g.intact s.ovl.wram = false) := by
  induction l generalizing s k with
  | nil =>
    refine ⟨⟨h, rfl⟩, iff_of_false Bool.false_ne_true ?_, iff_of_false Bool.false_ne_true ?_⟩ <;>
      rintro ⟨g, hg, -⟩ <;> cases hg
  | cons f rest ih =>
    unfold CheckedOverlays.state at hwrapped ⊢
    by_cases haddr : f.addr = at'
    · rw [if_pos haddr] at hwrapped ⊢
      by_cases hstate : f.m = m ∧ f.x = x
      · rw [if_pos hstate] at hwrapped ⊢
        obtain ⟨hright, hkept, hsame⟩ := h.valid hl.head hj (state_wrapped hwrapped)
        have hleft : Left ovl s (s.valid f k).2 := ⟨hkept, hsame⟩
        obtain ⟨hrest, -, hstale⟩ := ih hkept (hleft.journal.trans hj) hl.tail hwrapped
        rw [hleft.wram] at hstale
        refine ⟨hleft.trans hrest, iff_of_true rfl ⟨f, List.mem_cons_self, haddr, hstate⟩, ?_⟩
        dsimp only
        rw [Bool.or_eq_true, hstale, hright, Bool.not_eq_true']
        constructor
        · rintro (hf | ⟨g, hg, hat⟩)
          · exact ⟨f, List.mem_cons_self, ⟨haddr, hstate⟩, hf⟩
          · exact ⟨g, List.mem_cons_of_mem _ hg, hat⟩
        · rintro ⟨g, hg, hat⟩
          rcases List.mem_cons.mp hg with rfl | hg
          · exact Or.inl hat.2
          · exact Or.inr ⟨g, hg, hat⟩
      · rw [if_neg hstate] at hwrapped ⊢
        obtain ⟨hrest, hany, hstale⟩ := ih h hj hl.tail hwrapped
        have hskip : ∀ P : OverlayFunc → Prop, (∃ g ∈ rest, g.At at' m x ∧ P g) ↔
            ∃ g ∈ f :: rest, g.At at' m x ∧ P g := fun P => by
          constructor
          · rintro ⟨g, hg, hat⟩
            exact ⟨g, List.mem_cons_of_mem _ hg, hat⟩
          · rintro ⟨g, hg, hat⟩
            rcases List.mem_cons.mp hg with rfl | hg
            · exact absurd hat.1.2 hstate
            · exact ⟨g, hg, hat⟩
        refine ⟨hrest, hany.trans ?_, hstale.trans (hskip _)⟩
        have := hskip fun _ => True
        simpa only [and_true] using this
    · rw [if_neg haddr]
      have hnone : ∀ g ∈ f :: rest, ¬g.At at' m x := fun g hg hat => hl.past haddr g hg hat.1
      refine ⟨⟨h, rfl⟩, iff_of_false Bool.false_ne_true ?_, iff_of_false Bool.false_ne_true ?_⟩
      · rintro ⟨g, hg, hat⟩
        exact hnone g hg hat
      · rintro ⟨g, hg, hat, -⟩
        exact hnone g hg hat

end CheckedOverlays

theorem firstAt_from (hsorted : ovl.Pairwise fun f g => f.addr ≤ g.addr) (at' : BitVec 24) :
    From ovl at' (ovl.drop (firstAt ovl at')) (firstAt ovl at') ∧
      ∀ f ∈ ovl, f.addr = at' → f ∈ ovl.drop (firstAt ovl at') := by
  have hdrop : ovl.drop (firstAt ovl at') = ovl.filter fun f => !decide (f.addr < at') := by
    refine drop_lowerBound (hsorted.imp fun hle hless => ?_)
    have hle := BitVec.le_def.mp hle
    have hless := BitVec.lt_def.mp (of_decide_eq_true hless)
    exact decide_eq_true (BitVec.lt_def.mpr (Nat.lt_of_le_of_lt hle hless))
  refine ⟨⟨fun i => List.getElem?_drop, hsorted.sublist (List.drop_sublist _ _), fun f hf => ?_⟩,
    fun f hf hat => ?_⟩
  · rw [hdrop] at hf
    have hnot := (List.mem_filter.mp hf).2
    rw [Bool.not_eq_true', decide_eq_false_iff_not] at hnot
    exact BitVec.not_lt.mp hnot
  · rw [hdrop]
    refine List.mem_filter.mpr ⟨hf, ?_⟩
    rw [Bool.not_eq_true', decide_eq_false_iff_not, hat]
    exact BitVec.lt_irrefl at'

theorem OverlayFunc.pages_ne_nil (f : OverlayFunc) : f.pages ≠ [] := by
  have hpages := Nat.div_le_div_right (c := 256) f.first_le_last
  have hlength : f.pages.length = f.last / 256 + 1 - f.first / 256 := by
    rw [OverlayFunc.pages, List.length_map, List.length_range']
  intro hnil
  rw [hnil, List.length_nil] at hlength
  omega

/-- All pages' counters grow: whatever was found before is found again. -/
theorem Overlays.Kept.busReset {o : Overlays} (h : o.Kept ovl) : o.busReset.Kept ovl := by
  intro k f c hf hc
  have hsound := h k f c hf hc
  refine ⟨hsound.gens, fun p => Nat.le_succ_of_le (hsound.grown p), fun hsame => ?_,
    fun e he => Nat.lt_succ_of_lt (hsound.journal e he)⟩
  obtain ⟨p, hp⟩ := List.exists_mem_of_ne_nil _ f.pages_ne_nil
  have hgrown := hsound.grown p
  have hmore : c.stores p = o.stores p + 1 := hsame p hp
  omega

namespace CheckedOverlays

theorem Kept.boundary (h : s.Kept ovl) : s.boundary.Kept ovl :=
  ⟨h.kept.boundary s.ovl.hit, h.checked⟩

theorem Kept.lookup (h : s.Kept ovl) (hj : s.ovl.journal = [])
    (hsorted : ovl.Pairwise fun f g => f.addr ≤ g.addr) (c : Cpu)
    (hwrapped : (overlayLookup ovl s c).2.wrapped = false) :
    (overlayLookup ovl s c).2.Kept ovl ∧
      (∀ e, (overlayLookup ovl s c).1 = some e →
        ovl[e.2]? = some e.1 ∧ e.1.At c.pbpc c.m c.x ∧ e.1.intact s.ovl.wram = true) ∧
      ((overlayLookup ovl s c).1.isSome = true ↔ c.e = false ∧ (c.PB = 0x7E ∨ c.PB = 0x7F) ∧
        ∃ f ∈ ovl, f.At c.pbpc c.m c.x ∧ f.intact s.ovl.wram = true) := by
  unfold overlayLookup at hwrapped ⊢
  by_cases hnone : c.e = true ∨ c.PB ≠ 0x7E ∧ c.PB ≠ 0x7F ∨ ovl.length = 0
  · rw [if_pos hnone]
    refine ⟨h, fun e he => (by cases he), iff_of_false Bool.false_ne_true ?_⟩
    rintro ⟨he, hpb, f, hf, -⟩
    rcases hnone with hnone | ⟨h7E, h7F⟩ | hnone
    · exact Bool.false_ne_true (he.symm.trans hnone)
    · exact hpb.elim h7E h7F
    · rw [List.length_eq_zero_iff.mp hnone] at hf
      cases hf
  · rw [if_neg hnone] at hwrapped ⊢
    obtain ⟨he, hother⟩ := not_or.mp hnone
    obtain ⟨hpb, -⟩ := not_or.mp hother
    obtain ⟨hfrom, hall⟩ := firstAt_from hsorted c.pbpc
    obtain ⟨hleft, hfound, hno⟩ := h.search hj hfrom hwrapped
    refine ⟨hleft.kept, hfound, fun hsome => ?_, fun hexists => ?_⟩
    · obtain ⟨e, hfe⟩ := Option.isSome_iff_exists.mp hsome
      obtain ⟨hplace, hat, hintact⟩ := hfound e hfe
      exact ⟨eq_false_of_ne_true he, by simpa [imp_iff_not_or] using hpb,
        e.1, List.mem_of_getElem? hplace, hat, hintact⟩
    · obtain ⟨-, -, f, hf, hat, hintact⟩ := hexists
      refine Option.isSome_iff_ne_none.mpr fun hnothing => ?_
      have hstale := hno hnothing f (hall f hf hat.1) hat
      rw [hintact] at hstale
      cases hstale

theorem Kept.run (h : s.Kept ovl) (hsorted : ovl.Pairwise fun f g => f.addr ≤ g.addr)
    (op : OverlayOp) (hwrapped : (op.run ovl s).wrapped = false) : (op.run ovl s).Kept ovl := by
  cases op with
  | store off v journaled => exact ⟨h.kept.store off v journaled, h.checked⟩
  | edge undoFrom => exact ⟨h.kept.edge undoFrom, h.checked⟩
  | busReset => exact ⟨h.kept.busReset, h.checked⟩
  | boundary => exact h.boundary
  | lookup c => exact (h.boundary.lookup rfl hsorted c hwrapped).1
  | state addr m x => exact (h.boundary.state rfl (firstAt_from hsorted addr).1 hwrapped).1.kept
  | active k =>
    unfold OverlayOp.run at hwrapped ⊢
    dsimp only at hwrapped ⊢
    split at hwrapped
    next => exact h
    next f hf => exact (h.boundary.valid hf rfl hwrapped).2.1

end CheckedOverlays

theorem OverlayOp.run_wrapped {op : OverlayOp} (h : (op.run ovl s).wrapped = false) :
    s.wrapped = false := by
  cases op with
  | store off v journaled => exact h
  | edge undoFrom => exact h
  | busReset => exact h
  | boundary => exact h
  | lookup c =>
    unfold run overlayLookup at h
    dsimp only at h
    split at h
    next => exact h
    next => exact CheckedOverlays.search_wrapped (s := s.boundary) h
  | state addr m x => exact CheckedOverlays.state_wrapped (s := s.boundary) h
  | active k =>
    unfold run at h
    dsimp only at h
    split at h
    next => exact h
    next => exact CheckedOverlays.valid_wrapped (s := s.boundary) h

theorem ops_wrapped {ops : List OverlayOp}
    (h : (ops.foldl (OverlayOp.run ovl) s).wrapped = false) : s.wrapped = false := by
  induction ops generalizing s with
  | nil => exact h
  | cons op ops ih => exact OverlayOp.run_wrapped (ih h)

theorem CheckedOverlays.Kept.ops (h : s.Kept ovl)
    (hsorted : ovl.Pairwise fun f g => f.addr ≤ g.addr) {ops : List OverlayOp}
    (hwrapped : (ops.foldl (OverlayOp.run ovl) s).wrapped = false) :
    (ops.foldl (OverlayOp.run ovl) s).Kept ovl := by
  induction ops generalizing s with
  | nil => exact h
  | cons op ops ih => exact ih (h.run hsorted op (ops_wrapped hwrapped)) hwrapped

end

/-- The entries looked up. -/
theorem OverlayIndex.mem {funcs : List (OverlayFunc × Bool)} {enabled : Bool}
    (index : OverlayIndex funcs enabled) (f : OverlayFunc) :
    f ∈ index.ovl ↔ enabled = true ∧ (f, true) ∈ funcs := by
  rw [index.perm.mem_iff]
  cases enabled with
  | false => simp
  | true => simp

/-- After any writes, resets and checks: while no page counter of an entry wraps between two of
its checks, a check says what the bytes now say; the lookup finds an entry if and only if there
is one compiled for this place and state whose bytes match, and it finds such an entry; and
`overlay_state` tells whether there is one and whether one does not match. -/
theorem overlay_lookup_exact {funcs : List (OverlayFunc × Bool)} {enabled : Bool}
    (index : OverlayIndex funcs enabled) (wram : BitVec 17 → BitVec 8) (stores : BitVec 9 → Nat)
    (ops : List OverlayOp) :
    let s := (overlayRun index.ovl wram stores ops).boundary
    (∀ k f, index.ovl[k]? = some f → (s.valid f k).2.wrapped = false →
      (s.valid f k).1 = f.intact s.ovl.wram) ∧
    (∀ c, (overlayLookup index.ovl s c).2.wrapped = false →
      (∀ e, (overlayLookup index.ovl s c).1 = some e →
        index.ovl[e.2]? = some e.1 ∧ e.1.At c.pbpc c.m c.x ∧ e.1.intact s.ovl.wram = true) ∧
      ((overlayLookup index.ovl s c).1.isSome = true ↔
        c.e = false ∧ (c.PB = 0x7E ∨ c.PB = 0x7F) ∧ enabled = true ∧
          ∃ f, (f, true) ∈ funcs ∧ f.At c.pbpc c.m c.x ∧ f.intact s.ovl.wram = true)) ∧
    ∀ addr m x, (overlayState index.ovl s addr m x).2.2.wrapped = false →
      ((overlayState index.ovl s addr m x).1 = true ↔
        enabled = true ∧ ∃ f, (f, true) ∈ funcs ∧ f.At addr m x) ∧
      ((overlayState index.ovl s addr m x).2.1 = true ↔
        enabled = true ∧ ∃ f, (f, true) ∈ funcs ∧ f.At addr m x ∧
          f.intact s.ovl.wram = false) := by
  have hkept : (overlayRun index.ovl wram stores ops).wrapped = false →
      (overlayRun index.ovl wram stores ops).boundary.Kept index.ovl := fun hwrapped => by
    have hstart : CheckedOverlays.Kept index.ovl
        ⟨(OvlMachine.start wram stores).ovl, fun _ => none, false⟩ :=
      ⟨fun k f c _ hc => (by cases hc), fun k f c _ hc => (by cases hc)⟩
    exact (hstart.ops index.sorted hwrapped).boundary
  refine ⟨fun k f hf hwrapped => ?_, fun c hwrapped => ?_, fun addr m x hwrapped => ?_⟩
  · exact ((hkept (CheckedOverlays.valid_wrapped hwrapped)).valid hf rfl hwrapped).1
  · have hbefore := (OverlayOp.lookup c).run_wrapped hwrapped
    obtain ⟨-, hfound, hsome⟩ := (hkept hbefore).lookup rfl index.sorted c hwrapped
    refine ⟨hfound, hsome.trans ?_⟩
    simp only [index.mem, and_assoc, exists_and_left]
  · have hbefore := CheckedOverlays.state_wrapped hwrapped
    obtain ⟨hfrom, hall⟩ := firstAt_from index.sorted addr
    obtain ⟨-, hany, hstale⟩ := (hkept hbefore).state rfl hfrom hwrapped
    have hentries : ∀ P : OverlayFunc → Prop,
        (∃ f ∈ index.ovl.drop (firstAt index.ovl addr), f.At addr m x ∧ P f) ↔
          enabled = true ∧ ∃ f, (f, true) ∈ funcs ∧ f.At addr m x ∧ P f := fun P => by
      constructor
      · rintro ⟨f, hf, hat⟩
        obtain ⟨hon, hmem⟩ := (index.mem f).mp (List.mem_of_mem_drop hf)
        exact ⟨hon, f, hmem, hat⟩
      · rintro ⟨hon, f, hmem, hat⟩
        exact ⟨f, hall f ((index.mem f).mpr ⟨hon, hmem⟩) hat.1.1, hat⟩
    have hsomewhere := hentries fun _ => True
    simp only [and_true] at hsomewhere
    exact ⟨hany.trans hsomewhere, hstale.trans (hentries _)⟩

/-- The byte at the same place, a one. -/
def overlayByteOne : OverlayFunc := { overlayByte with hash := fnv [1] }

def overlayBytes : OverlayIndex [(overlayByteOne, true), (overlayByte, true)] true where
  ovl := [overlayByte, overlayByteOne]
  perm := .swap _ _ _
  sorted := List.pairwise_pair.mpr (BitVec.le_refl _)

/-- Looked up as a zero, then written: the other one is found. -/
theorem overlay_lookup_exact_written :
    let s := (overlayRun overlayBytes.ovl (fun _ => 0) (fun _ => 0)
      [.lookup overlayCpu, .store 0x2000 1 false]).boundary
    (overlayLookup overlayBytes.ovl s overlayCpu).1.isSome = true :=
  ((overlay_lookup_exact overlayBytes (fun _ => 0) (fun _ => 0)
    [.lookup overlayCpu, .store 0x2000 1 false]).2.1 overlayCpu (by decide +kernel)).2.mpr
    ⟨rfl, .inl rfl, rfl, overlayByteOne, List.mem_cons_self, ⟨rfl, rfl, rfl⟩, by decide +kernel⟩

end CtRecomp
