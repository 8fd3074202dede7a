import CtRecomp.AssumedExact
import CtRecomp.Discover

namespace CtRecomp

/-! What holds when the passes have come to an end, and what each of them adds. -/

section

variable {κ α : Type} [DecidableEq κ]

theorem mem_assign {k k' : κ} {v : α} {d : List (κ × α)} :
    (∃ v', (k', v') ∈ assign k v d) ↔ k' = k ∨ ∃ v', (k', v') ∈ d := by
  unfold assign
  constructor
  · rintro ⟨v', hmem⟩
    rcases List.mem_cons.mp hmem with hpair | hmem
    · exact .inl (Prod.mk.inj hpair).1
    · exact .inr ⟨v', (List.mem_filter.mp hmem).1⟩
  · intro h
    by_cases hk : k' = k
    · exact ⟨v, hk ▸ List.mem_cons_self⟩
    · obtain ⟨v', hmem⟩ := h.resolve_left hk
      exact ⟨v', List.mem_cons_of_mem _ (List.mem_filter.mpr ⟨hmem, decide_eq_true hk⟩)⟩

end

/-! The scan. -/

/-- The pair is missing: a decoded function calls it interpreted, its M and X no guess, or an entry
does not decode for it. -/
def Met (reg : Registry) (fuel : Nat) : List (FuncMeta × (Bool × Bool)) → RegState →
    BitVec 24 → State → Prop
  | [], _, _, _ => False
  | e :: es, s, target, cst =>
    match reg.function fuel e.1.addr (.of (some e.2.1) (some e.2.2) false) s with
    | (.ok fn, s') => (∃ key, (key, target, cst) ∈ fn.interpCalls ∧ key ∉ fn.assumedCalls) ∨
        Met reg fuel es s' target cst
    | (.error ex, s') => (∃ site, ex = .missingTarget site target cst) ∨
        Met reg fuel es s' target cst

section

variable {reg : Registry}

/-- The keys of what is missing. -/
def Scanned.Has (sc : Scanned) (k : MissingKey) : Prop := ∃ sites, (k, sites) ∈ sc.missing

theorem has_miss {sc : Scanned} {target : BitVec 24} {cst : State} {k : MissingKey} :
    (sc.miss reg target cst).Has k ↔ k = ⟨target, cst.tag, reg.nameOf target⟩ ∨ sc.Has k :=
  mem_assign

theorem has_calls {fn : Func} {sc : Scanned} {k : MissingKey} :
    (sc.calls reg fn).Has k ↔ (∃ c ∈ fn.interpCalls, c.1 ∉ fn.assumedCalls ∧
      k = ⟨c.2.1, c.2.2.tag, reg.nameOf c.2.1⟩) ∨ sc.Has k := by
  unfold Scanned.calls
  generalize fn.interpCalls = calls
  induction calls generalizing sc with
  | nil => simp
  | cons c calls ih =>
    rw [List.foldl_cons, ih, List.exists_mem_cons_iff]
    by_cases hguess : c.1 ∈ fn.assumedCalls
    · simp [hguess]
    · rw [if_neg hguess, has_miss]
      simp only [hguess, not_false_iff, true_and]
      exact or_left_comm.trans or_assoc.symm

section

variable {fuel : Nat} {e : FuncMeta × (Bool × Bool)} {es : List (FuncMeta × (Bool × Bool))}
  {s s' : RegState} {target : BitVec 24} {cst : State}

theorem met_ok {fn : Func}
    (h : reg.function fuel e.1.addr (.of (some e.2.1) (some e.2.2) false) s = (.ok fn, s')) :
    Met reg fuel (e :: es) s target cst ↔
      (∃ key, (key, target, cst) ∈ fn.interpCalls ∧ key ∉ fn.assumedCalls) ∨
        Met reg fuel es s' target cst := by
  rw [Met, h]

theorem met_error {ex : DecodeError}
    (h : reg.function fuel e.1.addr (.of (some e.2.1) (some e.2.2) false) s = (.error ex, s')) :
    Met reg fuel (e :: es) s target cst ↔
      (∃ site, ex = .missingTarget site target cst) ∨ Met reg fuel es s' target cst := by
  rw [Met, h]

end

/-- What `sc` has, and what is met on the way. -/
theorem scanEntries_has {fuel : Nat} {es : List (FuncMeta × (Bool × Bool))} {sc sc' : Scanned}
    {s s' : RegState} (hrun : scanEntries reg fuel es sc s = (.ok sc', s')) {k : MissingKey} :
    sc'.Has k ↔ sc.Has k ∨ ∃ target cst, Met reg fuel es s target cst ∧
      k = ⟨target, cst.tag, reg.nameOf target⟩ := by
  induction es generalizing sc s with
  | nil =>
    cases hrun
    simp [Met]
  | cons e es ih =>
    obtain ⟨sc₁, s₁, hentry, hrun⟩ := bind_ok hrun
    rw [ih hrun]
    unfold scanEntry at hentry
    rw [tryCatch_run, bind_run] at hentry
    match hfn : reg.function fuel e.1.addr (.of (some e.2.1) (some e.2.2) false) s with
    | (.ok fn, s₂) =>
      rw [hfn] at hentry
      cases hentry
      simp only [has_calls, met_ok hfn]
      constructor
      · rintro ((⟨⟨key, t, cst⟩, hmem, hguess, rfl⟩ | hsc) | ⟨t, cst, hmet, rfl⟩)
        · exact .inr ⟨t, cst, .inl ⟨key, hmem, hguess⟩, rfl⟩
        · exact .inl hsc
        · exact .inr ⟨t, cst, .inr hmet, rfl⟩
      · rintro (hsc | ⟨t, cst, ⟨key, hmem, hguess⟩ | hmet, rfl⟩)
        · exact .inl (.inr hsc)
        · exact .inl (.inl ⟨(key, t, cst), hmem, hguess, rfl⟩)
        · exact .inr ⟨t, cst, hmet, rfl⟩
    | (.error ex, s₂) =>
      rw [hfn] at hentry
      dsimp only at hentry
      simp only [met_error hfn]
      by_cases hmiss : ∃ site target cst, ex = .missingTarget site target cst
      · obtain ⟨site, target, cst, rfl⟩ := hmiss
        cases hentry
        rw [has_miss]
        constructor
        · rintro ((rfl | hsc) | ⟨t, cst', hmet, rfl⟩)
          · exact .inr ⟨target, cst, .inl ⟨site, rfl⟩, rfl⟩
          · exact .inl hsc
          · exact .inr ⟨t, cst', .inr hmet, rfl⟩
        · rintro (hsc | ⟨t, cst', ⟨site', heq⟩ | hmet, rfl⟩)
          · exact .inl (.inr hsc)
          · cases heq
            exact .inl (.inl rfl)
          · exact .inr ⟨t, cst', hmet, rfl⟩
      · have hsame : sc₁.missing = sc.missing ∧ s₂ = s₁ := by
          cases ex with
          | missingTarget site target cst => exact absurd ⟨site, target, cst, rfl⟩ hmiss
          | unordered _ | outOfFuel => cases hentry
          | _ =>
            cases hentry
            exact ⟨rfl, rfl⟩
        obtain ⟨hmissing, rfl⟩ := hsame
        have hno : ∀ t cst, ¬∃ site, ex = .missingTarget site t cst :=
          fun t cst ⟨site, h⟩ => hmiss ⟨site, t, cst, h⟩
        unfold Scanned.Has
        rw [hmissing]
        simp only [hno, false_or]

/-! What it raises. -/

theorem scanEntry_answers (fm : FuncMeta) (w : Bool × Bool) (sc : Scanned) :
    Answers .outOfFuel fun n => scanEntry reg n fm w sc := by
  refine ((function_answers fm.addr _).bind fun fn => answers_pure _).tryCatch (fun _ _ => rfl)
    fun ex hex => ?_
  cases ex with
  | outOfFuel => exact absurd rfl hex
  | unordered site => exact answers_throw nofun
  | _ => exact answers_pure _

theorem scanEntry_raises (n : Nat) (fm : FuncMeta) (w : Bool × Bool) (sc : Scanned) :
    Spec (fun _ => True) (scanEntry reg n fm w sc) (fun _ _ => True)
      fun ex _ => ex = .outOfFuel := by
  refine Spec.tryCatch ((function_raises n fm.addr _).bind fun fn => spec_pure fun _ _ => trivial)
    fun ex => ?_
  cases ex with
  | outOfFuel => exact spec_throw fun _ _ => rfl
  | unordered site =>
    refine spec_throw ?_
    rintro s (h | h)
    · cases h
    · cases h
  | _ => exact spec_pure fun _ _ => trivial

theorem scanEntries_answers (es : List (FuncMeta × (Bool × Bool))) (sc : Scanned) :
    Answers .outOfFuel fun n => scanEntries reg n es sc := by
  induction es generalizing sc with
  | nil => exact answers_pure sc
  | cons e es ih => exact (scanEntry_answers e.1 e.2 sc).bind fun sc => ih sc

theorem scanEntries_raises (n : Nat) (es : List (FuncMeta × (Bool × Bool))) (sc : Scanned) :
    Spec (fun _ => True) (scanEntries reg n es sc) (fun _ _ => True)
      fun ex _ => ex = .outOfFuel := by
  induction es generalizing sc with
  | nil => exact spec_pure fun _ _ => trivial
  | cons e es ih => exact (scanEntry_raises n e.1 e.2 sc).bind fun sc => ih sc

end

/-! Look-ups in the graph. -/

/-- The entry the registry takes for the address: a candidate before any other. -/
def Graph.entryAt (g : Graph) (target : BitVec 24) : Option GraphEntry :=
  (g.metas ++ g.cands).reverse.find? fun fm => fm.addr = target

/-- Registered, or a candidate, with the state. -/
def Graph.Has (g : Graph) (target : BitVec 24) (tag : Flags) : Prop :=
  ∃ fm, g.entryAt target = some fm ∧ tag ∈ fm.states

/-- Keyed by address, as the dictionary is; and `load` takes no name twice. -/
structure Graph.Keyed (g : Graph) : Prop where
  cands : (g.cands.map GraphEntry.addr).Nodup
  names : (g.metas.map GraphEntry.name).Nodup

/-- The pair is a candidate's; or an entry's, and reported; or there was no room. -/
def Graph.Covers (g : Graph) (limit : Nat) (interpKnown : List ((String × Flags) × Nat))
    (target : BitVec 24) (tag : Flags) : Prop :=
  (∃ c ∈ g.cands, c.addr = target ∧ tag ∈ c.states) ∨
  (∃ fm ∈ g.metas, fm.addr = target ∧ tag ∈ fm.states ∧
    ∃ sites, ((fm.name, tag), sites) ∈ interpKnown) ∨
  (target ∉ g.cands.map GraphEntry.addr ∧ limit ≤ g.cands.length)

section

variable {is : GraphEntry → Prop} [DecidablePred is] {tag : Flags} {l : List GraphEntry}

/-- What does not depend on the states stays. -/
theorem addState_map {α : Type} {f : GraphEntry → α}
    (hf : ∀ fm ts, f { fm with states := ts } = f fm) : (addState is tag l).map f = l.map f := by
  unfold addState
  rw [List.map_map]
  refine List.map_congr_left fun fm _ => ?_
  rw [Function.comp_apply]
  split
  next => exact hf fm _
  next => rfl

/-- Whose name is found for an address depends on the addresses and names alone. -/
theorem found_name {α : Type} (addr : α → BitVec 24) (name : α → String) (l : List α)
    (target : BitVec 24) : (l.reverse.find? fun a => addr a = target).map name =
      ((l.map fun a => (addr a, name a)).reverse.find? fun e => e.1 = target).map Prod.snd := by
  rw [← List.map_reverse, List.find?_map, Option.map_map]
  rfl

theorem addState_name (target : BitVec 24) :
    ((addState is tag l).reverse.find? fun fm => fm.addr = target).map GraphEntry.name =
      (l.reverse.find? fun fm => fm.addr = target).map GraphEntry.name := by
  rw [found_name GraphEntry.addr, found_name GraphEntry.addr, addState_map fun _ _ => rfl]

end

/-- The candidate with an address. -/
theorem find_unique {l : List GraphEntry} (hl : (l.map GraphEntry.addr).Nodup) {c : GraphEntry}
    (hc : c ∈ l) : (l.reverse.find? fun fm => fm.addr = c.addr) = some c := by
  cases hfind : l.reverse.find? fun fm => fm.addr = c.addr with
  | none =>
    exact absurd (decide_eq_true rfl) (List.find?_eq_none.mp hfind c (List.mem_reverse.mpr hc))
  | some fm =>
    have haddr : fm.addr = c.addr := by simpa using List.find?_some hfind
    have hmem := List.mem_reverse.mp (List.mem_of_find?_eq_some hfind)
    rw [List.inj_on_of_nodup_map hl hmem hc haddr]

section

variable {g : Graph} {target : BitVec 24}

theorem Graph.entryAt_eq (g : Graph) (target : BitVec 24) : g.entryAt target =
    (g.cands.reverse.find? fun fm => fm.addr = target).or
      (g.metas.reverse.find? fun fm => fm.addr = target) := by
  unfold Graph.entryAt
  rw [List.reverse_append, List.find?_append]

theorem Graph.entryAt_cand (hg : g.Keyed) {c : GraphEntry} (hc : c ∈ g.cands) :
    g.entryAt c.addr = some c := by
  rw [g.entryAt_eq, find_unique hg.cands hc]
  rfl

theorem Graph.entryAt_meta (hout : target ∉ g.cands.map GraphEntry.addr) :
    g.entryAt target = g.metas.reverse.find? fun fm => fm.addr = target := by
  have hnone : (g.cands.reverse.find? fun fm => fm.addr = target) = none := by
    refine List.find?_eq_none.mpr fun fm hfm h => hout ?_
    exact List.mem_map.mpr ⟨fm, List.mem_reverse.mp hfm, of_decide_eq_true h⟩
  rw [g.entryAt_eq, hnone]
  rfl

/-- The entry with a name, where an entry that no candidate hides has it. -/
theorem Graph.entryAt_named (hg : g.Keyed) (hout : target ∉ g.cands.map GraphEntry.addr)
    {known : String} (h : (g.entryAt target).map GraphEntry.name = some known) :
    ∃ fm ∈ g.metas, fm.addr = target ∧ fm.name = known ∧ g.entryAt target = some fm ∧
      g.statesOf known = fm.states := by
  obtain ⟨fm, hat, rfl⟩ := Option.map_eq_some_iff.mp h
  have hfind := (g.entryAt_meta hout).symm.trans hat
  have hmem := List.mem_reverse.mp (List.mem_of_find?_eq_some hfind)
  have haddr : fm.addr = target := by simpa using List.find?_some hfind
  refine ⟨fm, hmem, haddr, rfl, hat, ?_⟩
  unfold Graph.statesOf
  cases hnamed : g.metas.reverse.find? fun m => m.name = fm.name with
  | none =>
    exact absurd (decide_eq_true rfl) (List.find?_eq_none.mp hnamed fm (List.mem_reverse.mpr hmem))
  | some fm' =>
    have hname : fm'.name = fm.name := by simpa using List.find?_some hnamed
    have hmem' := List.mem_reverse.mp (List.mem_of_find?_eq_some hnamed)
    rw [List.inj_on_of_nodup_map hg.names hmem' hmem hname]
    rfl

end

/-! One missing pair. -/

section

variable {names : BitVec 24 → Option String} {limit : Nat}

/-- What is done about it. -/
inductive KeyPlaced (names : BitVec 24 → Option String) (limit : Nat) (p : Placing)
    (k : MissingKey × Nat) : Placing → Prop
  | reported {known : String} (hk : k.1.known = some known) (hne : known ≠ "")
      (hout : k.1.target ∉ p.cands.map GraphEntry.addr) (htag : k.1.tag ∈ p.statesOf known) :
      KeyPlaced names limit p k
        { p with interpKnown := assign (known, k.1.tag) k.2 p.interpKnown }
  | stated {known : String} (hk : k.1.known = some known) (hne : known ≠ "")
      (hout : k.1.target ∉ p.cands.map GraphEntry.addr) (htag : k.1.tag ∉ p.statesOf known) :
      KeyPlaced names limit p k { p with
        addStates := (known, k.1.tag) :: p.addStates
        metas := addState (fun m => m.name = known) k.1.tag p.metas
        new := p.new + 1 }
  | there {fm : GraphEntry} (hfm : fm ∈ p.cands) (haddr : fm.addr = k.1.target)
      (htag : k.1.tag ∈ fm.states) : KeyPlaced names limit p k p
  | more {fm : GraphEntry} (hfm : fm ∈ p.cands) (haddr : fm.addr = k.1.target)
      (htag : k.1.tag ∉ fm.states) : KeyPlaced names limit p k { p with
        cands := addState (fun c => c.addr = k.1.target) k.1.tag p.cands
        new := p.new + 1 }
  | full (hk : k.1.known = none ∨ k.1.known = some "")
      (hout : k.1.target ∉ p.cands.map GraphEntry.addr) (hfull : limit ≤ p.cands.length) :
      KeyPlaced names limit p k p
  | fresh (hk : k.1.known = none ∨ k.1.known = some "")
      (hout : k.1.target ∉ p.cands.map GraphEntry.addr) (hroom : p.cands.length < limit) :
      KeyPlaced names limit p k { p with
        usedNames := (newEntry names p.usedNames k.1.target k.1.tag).name :: p.usedNames
        cands := p.cands ++ [newEntry names p.usedNames k.1.target k.1.tag]
        new := p.new + 1 }

theorem place_keyPlaced (names : BitVec 24 → Option String) (limit : Nat) (p : Placing)
    (k : MissingKey × Nat) : KeyPlaced names limit p k (p.place names limit k) := by
  have hout (h : (p.cands.find? fun c => c.addr = k.1.target) = none) :
      k.1.target ∉ p.cands.map GraphEntry.addr := by
    intro hmem
    obtain ⟨c, hc, haddr⟩ := List.mem_map.mp hmem
    exact List.find?_eq_none.mp h c hc (decide_eq_true haddr)
  have hcand {fm : GraphEntry} (h : (p.cands.find? fun c => c.addr = k.1.target) = some fm) :
      fm ∈ p.cands ∧ fm.addr = k.1.target :=
    ⟨List.mem_of_find?_eq_some h, by simpa using List.find?_some h⟩
  unfold Placing.place
  cases hknown : k.1.known.filter (· ≠ "") with
  | some known =>
    obtain ⟨hk, hne⟩ := Option.filter_eq_some_iff.mp hknown
    cases hfind : p.cands.find? fun c => c.addr = k.1.target with
    | none =>
      dsimp only
      split_ifs with htag
      · exact .reported hk (of_decide_eq_true hne) (hout hfind) htag
      · exact .stated hk (of_decide_eq_true hne) (hout hfind) htag
    | some fm =>
      dsimp only
      split_ifs with htag
      · exact .there (hcand hfind).1 (hcand hfind).2 htag
      · exact .more (hcand hfind).1 (hcand hfind).2 htag
  | none =>
    cases hfind : p.cands.find? fun c => c.addr = k.1.target with
    | none =>
      have hk : k.1.known = none ∨ k.1.known = some "" := by
        cases hk : k.1.known with
        | none => exact .inl rfl
        | some known =>
          rw [hk] at hknown
          by_cases hne : known = ""
          · exact .inr (congrArg some hne)
          · exact absurd hknown (by simp [Option.filter, hne])
      dsimp only
      split_ifs with hfull
      · exact .full hk (hout hfind) hfull
      · exact .fresh hk (hout hfind) (Nat.lt_of_not_le hfull)
    | some fm =>
      dsimp only
      split_ifs with htag
      · exact .there (hcand hfind).1 (hcand hfind).2 htag
      · exact .more (hcand hfind).1 (hcand hfind).2 htag

variable {p p' : Placing} {k : MissingKey × Nat}

theorem KeyPlaced.keyed (h : KeyPlaced names limit p k p') (hp : p.Keyed) : p'.Keyed := by
  cases h with
  | reported | there | full => exact hp
  | stated =>
    refine ⟨hp.cands, ?_⟩
    rw [addState_map fun _ _ => rfl]
    exact hp.names
  | more =>
    refine ⟨?_, hp.names⟩
    rw [addState_map fun _ _ => rfl]
    exact hp.cands
  | fresh _ hout _ =>
    refine ⟨?_, hp.names⟩
    rw [List.map_append]
    refine List.nodup_append.mpr ⟨hp.cands, List.nodup_singleton _, fun a ha b hb => ?_⟩
    rw [List.mem_singleton.mp hb]
    rintro rfl
    exact hout ha

/-- Each address has a candidate by now, or whose name it has stays. -/
theorem KeyPlaced.name (h : KeyPlaced names limit p k p') (target : BitVec 24) :
    target ∈ p'.cands.map GraphEntry.addr ∨
      target ∉ p.cands.map GraphEntry.addr ∧ (p'.entryAt target).map GraphEntry.name =
        (p.entryAt target).map GraphEntry.name := by
  by_cases hin : target ∈ p.cands.map GraphEntry.addr
  · refine .inl ?_
    cases h with
    | reported | there | full | stated => exact hin
    | more =>
      rw [addState_map fun _ _ => rfl]
      exact hin
    | fresh =>
      rw [List.map_append]
      exact List.mem_append_left _ hin
  · cases h with
    | reported | there | full => exact .inr ⟨hin, rfl⟩
    | stated =>
      refine .inr ⟨hin, (congrArg _ (Graph.entryAt_meta (by exact hin))).trans ?_⟩
      rw [Graph.entryAt_meta hin, addState_name]
    | more =>
      refine .inr ⟨hin, congrArg _ ((Graph.entryAt_meta ?_).trans (Graph.entryAt_meta hin).symm)⟩
      rw [addState_map fun _ _ => rfl]
      exact hin
    | fresh =>
      by_cases ht : target = k.1.target
      · refine .inl ?_
        rw [List.map_append, ht]
        exact List.mem_append_right _ List.mem_cons_self
      · refine .inr ⟨hin, ?_⟩
        refine congrArg _ ((Graph.entryAt_meta ?_).trans (Graph.entryAt_meta hin).symm)
        rw [List.map_append, List.mem_append]
        rintro (hmem | hmem)
        · exact hin hmem
        · exact ht (List.mem_singleton.mp hmem)

theorem KeyPlaced.new_le (h : KeyPlaced names limit p k p') : p.new ≤ p'.new := by
  cases h with
  | reported | there | full => exact Nat.le_refl _
  | stated | more | fresh => exact Nat.le_succ _

/-- Adding nothing changes nothing. -/
theorem KeyPlaced.same (h : KeyPlaced names limit p k p') (hnew : p'.new = p.new) :
    p'.toGraph = p.toGraph := by
  cases h with
  | reported | there | full => rfl
  | stated | more | fresh => exact absurd hnew (Nat.succ_ne_self _)

/-- An entry without a name, where the pair is there already and there is room. -/
def Placing.Blank (p : Placing) (limit : Nat) (k : MissingKey) : Prop :=
  k.known = some "" ∧ k.target ∉ p.cands.map GraphEntry.addr ∧ p.cands.length < limit ∧
    p.Has k.target k.tag

/-- The key has the name of what is at its address, unless a candidate is by now. -/
def MissingKey.Names (k : MissingKey) (p : Placing) : Prop :=
  k.target ∈ p.cands.map GraphEntry.addr ∨
    k.known = (p.entryAt k.target).map GraphEntry.name

theorem KeyPlaced.named (h : KeyPlaced names limit p k p') {k' : MissingKey} (hk' : k'.Names p) :
    k'.Names p' := by
  rcases h.name k'.target with hin | ⟨hout, hname⟩
  · exact .inl hin
  · exact .inr ((hk'.resolve_left hout).trans hname.symm)

/-- What is added was not there, but for an entry without a name. -/
theorem KeyPlaced.repeats_iff (h : KeyPlaced names limit p k p') (hp : p.Keyed) (hk : k.1.Names p) :
    (p'.new ≠ p.new ∧ p.Has k.1.target k.1.tag) ↔ p.Blank limit k.1 := by
  cases h with
  | reported hknown hne | there | full =>
    refine ⟨fun h => absurd rfl h.1, fun hblank => ?_⟩
    first
    | exact absurd (Option.some.inj (hknown.symm.trans hblank.1)) hne
    | exact absurd (List.mem_map.mpr ⟨_, ‹_ ∈ p.cands›, ‹_›⟩) hblank.2.1
    | exact absurd hblank.2.2.1 (Nat.not_lt.mpr ‹_›)
  | stated hknown hne hout htag =>
    obtain ⟨fm, -, -, -, hat, hstates⟩ :=
      Graph.entryAt_named hp hout ((hk.resolve_left hout).symm.trans hknown)
    constructor
    · rintro ⟨-, fm', hat', htag'⟩
      rw [hstates] at htag
      rw [Option.some.inj (hat.symm.trans hat')] at htag
      exact absurd htag' htag
    · intro hblank
      exact absurd (Option.some.inj (hknown.symm.trans hblank.1)) hne
  | more hfm haddr htag =>
    constructor
    · rintro ⟨-, fm', hat, htag'⟩
      rw [← haddr, Graph.entryAt_cand hp hfm] at hat
      rw [Option.some.inj hat] at htag
      exact absurd htag' htag
    · intro hblank
      exact absurd (List.mem_map.mpr ⟨_, hfm, haddr⟩) hblank.2.1
  | fresh hknown hout hroom =>
    constructor
    · rintro ⟨-, hhas⟩
      refine ⟨hknown.resolve_left fun hnone => ?_, hout, hroom, hhas⟩
      obtain ⟨fm, hat, -⟩ := hhas
      have hname := hnone.symm.trans (hk.resolve_left hout)
      rw [hat] at hname
      cases hname
    · exact fun hblank => ⟨Nat.succ_ne_self _, hblank.2.2.2⟩

/-- What adds nothing leaves the pair covered. -/
theorem KeyPlaced.covers (h : KeyPlaced names limit p k p') (hp : p.Keyed) (hk : k.1.Names p)
    (hnew : p'.new = p.new) : p.Covers limit p'.interpKnown k.1.target k.1.tag := by
  cases h with
  | reported hknown hne hout htag =>
    obtain ⟨fm, hmem, haddr, hname, -, hstates⟩ :=
      Graph.entryAt_named hp hout ((hk.resolve_left hout).symm.trans hknown)
    refine .inr (.inl ⟨fm, hmem, haddr, hstates ▸ htag, ?_⟩)
    rw [hname]
    exact ⟨_, List.mem_cons_self⟩
  | there hfm haddr htag => exact .inl ⟨_, hfm, haddr, htag⟩
  | full hknown hout hfull => exact .inr (.inr ⟨hout, hfull⟩)
  | stated | more | fresh => exact absurd hnew (Nat.succ_ne_self _)

theorem KeyPlaced.interp (h : KeyPlaced names limit p k p') {e : String × Flags}
    (he : ∃ sites, (e, sites) ∈ p.interpKnown) : ∃ sites, (e, sites) ∈ p'.interpKnown := by
  cases h with
  | reported => exact mem_assign.mpr (.inr he)
  | stated | there | more | full | fresh => exact he

theorem Graph.Covers.mono {g : Graph} {interp interp' : List ((String × Flags) × Nat)}
    {target : BitVec 24} {tag : Flags} (h : g.Covers limit interp target tag)
    (hmore : ∀ e, (∃ sites, (e, sites) ∈ interp) → ∃ sites, (e, sites) ∈ interp') :
    g.Covers limit interp' target tag := by
  rcases h with hcand | ⟨fm, hfm, haddr, htag, hin⟩ | hfull
  · exact .inl hcand
  · exact .inr (.inl ⟨fm, hfm, haddr, htag, hmore _ hin⟩)
  · exact .inr (.inr hfull)

/-! All of a pass's. -/

/-- One after the other. -/
def Placing.placeAll (names : BitVec 24 → Option String) (limit : Nat) (p : Placing)
    (ks : List (MissingKey × Nat)) : Placing := ks.foldl (Placing.place names limit) p

variable {ks : List (MissingKey × Nat)}

theorem placeAll_new : p.new ≤ (p.placeAll names limit ks).new := by
  induction ks generalizing p with
  | nil => exact Nat.le_refl _
  | cons k ks ih => exact Nat.le_trans (place_keyPlaced names limit p k).new_le ih

theorem placeAll_interp {e : String × Flags} (he : ∃ sites, (e, sites) ∈ p.interpKnown) :
    ∃ sites, (e, sites) ∈ (p.placeAll names limit ks).interpKnown := by
  induction ks generalizing p with
  | nil => exact he
  | cons k ks ih => exact ih ((place_keyPlaced names limit p k).interp he)

theorem placeAll_keeps (hp : p.Keyed) :
    (p.placeAll names limit ks).Keyed ∧
      ∀ k : MissingKey, k.Names p → k.Names (p.placeAll names limit ks) := by
  induction ks generalizing p with
  | nil => exact ⟨hp, fun _ hk => hk⟩
  | cons k ks ih =>
    have hplaced := place_keyPlaced names limit p k
    obtain ⟨hkeyed, hnames⟩ := ih (hplaced.keyed hp)
    exact ⟨hkeyed, fun k' hk' => hnames k' (hplaced.named hk')⟩

/-- A pass that adds nothing leaves the graph, and covers all that is missing. -/
theorem placeAll_covers (hp : p.Keyed) (hks : ∀ k ∈ ks, k.1.Names p)
    (hnew : (p.placeAll names limit ks).new = p.new) :
    (p.placeAll names limit ks).toGraph = p.toGraph ∧ ∀ k ∈ ks,
      p.Covers limit (p.placeAll names limit ks).interpKnown k.1.target k.1.tag := by
  induction ks generalizing p with
  | nil => exact ⟨rfl, List.forall_mem_nil _⟩
  | cons k ks ih =>
    obtain ⟨hk, hks⟩ := List.forall_mem_cons.mp hks
    have hplaced := place_keyPlaced names limit p k
    have hle : (p.place names limit k).new ≤ ((p.place names limit k).placeAll names limit ks).new :=
      placeAll_new
    change ((p.place names limit k).placeAll names limit ks).new = p.new at hnew
    have hsame : (p.place names limit k).new = p.new :=
      Nat.le_antisymm (hnew ▸ hle) hplaced.new_le
    have hgraph := hplaced.same hsame
    obtain ⟨hall, hcovers⟩ := ih (hplaced.keyed hp) (fun k' hk' => hplaced.named (hks k' hk'))
      (hnew.trans hsame.symm)
    refine ⟨hall.trans hgraph, List.forall_mem_cons.mpr ⟨?_, fun k' hk' => ?_⟩⟩
    · have hmore (e : String × Flags) := @placeAll_interp names limit (p.place names limit k) ks e
      exact (hplaced.covers hp hk hsame).mono hmore
    · rw [← hgraph]
      exact hcovers k' hk'

end

/-! The passes. -/

section

variable {reg : Registry} {names : BitVec 24 → Option String} {limit : Nat} {g g' : Graph}

theorem mapM_pairs {l : List GraphEntry} {es : List FuncMeta}
    (h : l.mapM GraphEntry.toMeta = some es) :
    es.map (fun fm => (fm.addr, fm.name)) = l.map fun fm => (fm.addr, fm.name) := by
  induction l generalizing es with
  | nil =>
    cases h
    rfl
  | cons fm l ih =>
    rw [List.mapM_cons] at h
    obtain ⟨fm', hfm, h⟩ := Option.bind_eq_some_iff.mp h
    obtain ⟨es', hes, h⟩ := Option.bind_eq_some_iff.mp h
    cases h
    obtain ⟨states, -, hpair⟩ := Option.bind_eq_some_iff.mp hfm
    cases hpair
    rw [List.map_cons, List.map_cons, ih hes]

/-- The registry of a pass has the graph's names. -/
theorem nameOf_entries {entries : List FuncMeta} (h : g.entries = some entries)
    (target : BitVec 24) : Registry.nameOf { reg with metas := entries } target =
      (g.entryAt target).map GraphEntry.name := by
  unfold Registry.nameOf Registry.byAddr Graph.entryAt
  rw [found_name FuncMeta.addr FuncMeta.name, mapM_pairs h,
    ← found_name GraphEntry.addr GraphEntry.name]

/-- A pass: what was met, then placed. -/
structure Passed (reg : Registry) (names : BitVec 24 → Option String) (limit fuel : Nat)
    (g : Graph) (sc : Scanned) (p : Placing) : Prop where
  entries : ∃ entries, g.entries = some entries ∧ ∀ k, sc.Has k ↔ ∃ target cst,
    Met { reg with metas := entries } fuel (withStates entries) .init target cst ∧
      k = ⟨target, cst.tag, (g.entryAt target).map GraphEntry.name⟩
  placed : p = g.start.placeAll names limit sc.sorted

theorem closePass_passed {n : Nat} {s s' : RegState} {sc : Scanned} {p : Placing}
    (hrun : closePass reg names limit n g s = (.ok (some (sc, p)), s')) :
    Passed reg names limit n g sc p := by
  unfold closePass at hrun
  cases hentries : g.entries with
  | none =>
    rw [hentries] at hrun
    cases hrun
  | some entries =>
    rw [hentries] at hrun
    obtain ⟨sc', s₁, hscan, hrun⟩ := bind_ok (show (scanEntries _ n _ _ >>= _) RegState.init =
      (.ok (some (sc, p)), s') from hrun)
    cases hrun
    refine ⟨⟨entries, hentries, fun k => ?_⟩, rfl⟩
    rw [scanEntries_has hscan]
    simp only [nameOf_entries hentries]
    refine or_iff_right ?_
    rintro ⟨sites, hmem⟩
    cases hmem

theorem Passed.named {n : Nat} {sc : Scanned} {p : Placing} (h : Passed reg names limit n g sc p)
    {k : MissingKey × Nat} (hk : k ∈ sc.sorted) : k.1.Names g.start := by
  obtain ⟨entries, -, hhas⟩ := h.entries
  have hmem : sc.Has k.1 := ⟨k.2, (List.mem_insertionSort _).mp hk⟩
  obtain ⟨target, cst, -, hkey⟩ := (hhas k.1).mp hmem
  rw [hkey]
  exact .inr rfl

/-- From one graph to another by passes that each add something. -/
inductive Graph.Reaches (reg : Registry) (names : BitVec 24 → Option String) (limit fuel : Nat) :
    Graph → Graph → Prop
  | refl (g : Graph) : Reaches reg names limit fuel g g
  | pass {g g' : Graph} {s s' : RegState} {sc : Scanned} {p : Placing}
      (hrun : closePass reg names limit fuel g s = (.ok (some (sc, p)), s')) (hnew : p.new ≠ 0)
      (hrest : Reaches reg names limit fuel p.toGraph g') : Reaches reg names limit fuel g g'

theorem Graph.Reaches.keyed {n : Nat} (h : g.Reaches reg names limit n g') (hg : g.Keyed) :
    g'.Keyed := by
  induction h with
  | refl g => exact hg
  | pass hrun _ _ ih =>
    refine ih ?_
    rw [(closePass_passed hrun).placed]
    exact (placeAll_keeps hg).1

theorem closeLoop_settled {n m : Nat} {s s' : RegState}
    {interp : List ((String × Flags) × Nat)} {failures : List ((String × Flags) × DecodeError)}
    (hg : g.Keyed)
    (hrun : closeLoop reg names limit n m g s = (.ok (.settled g' interp failures), s')) :
    ∃ entries, g'.entries = some entries ∧ ∀ target cst,
      Met { reg with metas := entries } n (withStates entries) .init target cst →
        g'.Covers limit interp target cst.tag := by
  induction m generalizing g s with
  | zero => cases hrun
  | succ m ih =>
    obtain ⟨r, s₁, hpass, hrun⟩ := bind_ok hrun
    match r with
    | none => cases hrun
    | some (sc, p) =>
      have hpassed := closePass_passed hpass
      have hkeyed : g.start.Keyed := hg
      dsimp only at hrun
      by_cases hnew : p.new = 0
      · rw [if_pos hnew] at hrun
        cases hrun
        obtain ⟨entries, hentries, hhas⟩ := hpassed.entries
        have hplaced := hpassed.placed
        subst hplaced
        obtain ⟨hgraph, hcovers⟩ := placeAll_covers hkeyed (fun k hk => hpassed.named hk) hnew
        refine ⟨entries, hgraph ▸ hentries, fun target cst hmet => ?_⟩
        obtain ⟨sites, hmem⟩ := (hhas _).mpr ⟨target, cst, hmet, rfl⟩
        rw [hgraph]
        exact hcovers _ ((List.mem_insertionSort _).mpr hmem)
      · rw [if_neg hnew] at hrun
        refine ih ?_ hrun
        rw [hpassed.placed]
        exact (placeAll_keeps hkeyed).1

theorem closePass_answers (g : Graph) :
    Answers .outOfFuel fun n => closePass reg names limit n g := by
  unfold closePass
  cases g.entries with
  | none => exact answers_pure none
  | some entries =>
    have hset : Answers .outOfFuel fun _ => (set RegState.init : RegM PUnit) :=
      answers_const fun _ h => by cases h
    exact hset.bind fun _ => (scanEntries_answers _ _).bind fun sc => answers_pure _

theorem closePass_raises (n : Nat) (g : Graph) :
    Spec (fun _ => True) (closePass reg names limit n g) (fun _ _ => True)
      fun ex _ => ex = .outOfFuel := by
  unfold closePass
  cases g.entries with
  | none => exact spec_pure fun _ _ => trivial
  | some entries =>
    have hset : Spec (fun _ => True) (set RegState.init : RegM PUnit) (fun _ _ => True)
        fun e _ => e = DecodeError.outOfFuel := spec_of_run (fun _ _ _ _ _ => trivial) (by
      intro s s' e _ hrun
      cases hrun)
    exact hset.bind fun _ => (scanEntries_raises n _ _).bind fun sc => spec_pure fun _ _ => trivial

theorem closeLoop_answers (m : Nat) (g : Graph) :
    Answers .outOfFuel fun n => closeLoop reg names limit n m g := by
  induction m generalizing g with
  | zero => exact answers_pure _
  | succ m ih =>
    refine (closePass_answers g).bind fun r => ?_
    match r with
    | none => exact answers_pure _
    | some (sc, p) =>
      dsimp only
      split
      · exact answers_pure _
      · exact ih p.toGraph

theorem closeLoop_raises (n m : Nat) (g : Graph) :
    Spec (fun _ => True) (closeLoop reg names limit n m g) (fun _ _ => True)
      fun ex _ => ex = .outOfFuel := by
  induction m generalizing g with
  | zero => exact spec_pure fun _ _ => trivial
  | succ m ih =>
    refine (closePass_raises n g).bind fun r => ?_
    match r with
    | none => exact spec_pure fun _ _ => trivial
    | some (sc, p) =>
      exact spec_ite (fun _ => spec_pure fun _ _ => trivial) fun _ => ih p.toGraph

end

/-! The test's bank: A calls B and the unregistered $C01060, then jumps in U; B calls A. -/

def loopRom : Image := codeAt 0xC01000 (
  [0x20, 0x20, 0x10, 0x20, 0x60, 0x10, 0x20, 0x40, 0x10, 0x60] ++ List.replicate 22 0 ++
  [0xA5, 0x10, 0xF0, 0x03, 0x20, 0x00, 0x10, 0x60] ++ List.replicate 24 0 ++
  [0x5C, 0x00, 0x90, 0xC0] ++ List.replicate 28 0 ++ [0x60])

def loopReg : Registry := ⟨loopRom, [], fun _ => none, fun _ => none⟩

/-- U by the name given. -/
def loopGraph (u : String) : Graph where
  metas := [⟨"A", 0xC01000, [(some true, some false)], "bankc0"⟩,
    ⟨"B", 0xC01020, [(some true, some false)], "bankc0"⟩,
    ⟨u, 0xC01040, [(some true, some false)], "bankc0"⟩]
  cands := []
  addStates := []
  usedNames := ["A", "B", u]

/-- A, from its last call on, and U unnamed. -/
def blankGraph : Graph where
  metas := [⟨"A", 0xC01006, [(some true, some false)], "bankc0"⟩,
    ⟨"", 0xC01040, [(some true, some false)], "bankc0"⟩]
  cands := []
  addStates := []
  usedNames := ["A", ""]

/-- U's pair. -/
def blankMiss : MissingKey := ⟨0xC01040, (some true, some false), some ""⟩

/-- What the first pass sorts. -/
def blankSorted : Option (List (MissingKey × Nat)) :=
  match (closePass loopReg (fun _ => none) 200 4 blankGraph .init).1 with
  | .ok (some (sc, _)) => some sc.sorted
  | _ => none

end CtRecomp
