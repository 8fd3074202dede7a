import CtRecomp.MemoSearch
import CtRecomp.Emit
import CtRecomp.RegistryKept

namespace CtRecomp

open MemoSearch

/-! Which functions can reach a hook. -/

/-- Functions that the registry has, with all that they call and jump to. -/
structure CallGraph (reg : Registry) (fuel : Nat) where
  keys : Finset Key
  fn : Key → Func
  /-- The states in which it has them. -/
  Holds : RegState → Prop
  has : ∀ s addr st, Holds s → (addr, st.key) ∈ keys →
    ∃ s', reg.function fuel addr st s = (.ok (fn (addr, st.key)), s') ∧ Holds s'
  closed : ∀ k ∈ keys, ∀ c ∈ (fn k).callees, reg.externs c.1 = none → (c.1, c.2.key) ∈ keys

/-- A state with that M, X and E. -/
def Key.entry (k : Key) : BitVec 24 × State := (k.1, .of k.2.1 k.2.2.1 k.2.2.2)

def RegState.fn (s : RegState) (k : Key) : Func := (s.cache k).getD (.start k.1 k.entry.2)

namespace CallGraph

/-- Functions in the cache, with all that they call and jump to. -/
def ofCache (reg : Registry) (fuel : Nat) (s : RegState) (keys : Finset Key)
    (cached : ∀ k ∈ keys, (s.cache k).isSome)
    (closed : ∀ k ∈ keys, ∀ c ∈ (s.fn k).callees, reg.externs c.1 = none →
      (c.1, c.2.key) ∈ keys) : CallGraph reg (fuel + 1) where
  keys
  fn := s.fn
  Holds s' := ∀ k ∈ keys, s'.cache k = s.cache k
  has s' addr st hs hk := by
    obtain ⟨fn, hfn⟩ := Option.isSome_iff_exists.mp (cached _ hk)
    have hsame : s.fn (addr, st.key) = fn := by rw [RegState.fn, hfn]; rfl
    rw [hsame]
    exact ⟨s', function_hit reg fuel ((hs _ hk).trans hfn), hs⟩
  closed

theorem ofCache_holds {reg : Registry} {fuel : Nat} {s : RegState} {keys : Finset Key}
    {cached : ∀ k ∈ keys, (s.cache k).isSome}
    {closed : ∀ k ∈ keys, ∀ c ∈ (s.fn k).callees, reg.externs c.1 = none →
      (c.1, c.2.key) ∈ keys} : (ofCache reg fuel s keys cached closed).Holds s := fun _ _ => rfl

/-! For keys in a list, by evaluation. -/

theorem cached_of_all {s : RegState} {ks : List Key}
    (h : (ks.all fun k => (s.cache k).isSome) = true) : ∀ k ∈ ks.toFinset, (s.cache k).isSome :=
  fun k hk => List.all_eq_true.mp h k (List.mem_toFinset.mp hk)

theorem closed_of_all {reg : Registry} {s : RegState} {ks : List Key}
    (h : (ks.all fun k => (s.fn k).callees.all fun c =>
      (reg.externs c.1).isSome || ks.contains (c.1, c.2.key)) = true) :
    ∀ k ∈ ks.toFinset, ∀ c ∈ (s.fn k).callees, reg.externs c.1 = none →
      (c.1, c.2.key) ∈ ks.toFinset := by
  intro k hk c hc hnone
  have hor := List.all_eq_true.mp (List.all_eq_true.mp h k (List.mem_toFinset.mp hk)) c hc
  rw [hnone, Option.isSome_none, Bool.false_or] at hor
  exact List.mem_toFinset.mpr (List.contains_iff_mem.mp hor)

variable {reg : Registry} {fuel : Nat} (g : CallGraph reg fuel)

def takes (k : Key) : Bool := takesHook reg (g.fn k)

/-- Calls, jumps and table cases that are compiled functions. -/
def next (k : Key) : List Key :=
  ((g.fn k).callees.filter fun c => (reg.externs c.1).isNone).map fun c => (c.1, c.2.key)

/-- The function takes a hook, or one it calls or jumps to reaches one. -/
abbrev ReachesHook (k : Key) : Prop := Reaches g.takes g.next k

/-- Going on each time to the first call, jump or table case that reaches a hook and is not on the
way yet, one comes to a function that reaches hooks only through those on the way. -/
abbrev Blocked (k : Key) : Prop := Stuck g.takes g.next [] k

theorem next_mem {k : Key} (hk : k ∈ g.keys) {c : Key} (hc : c ∈ g.next k) : c ∈ g.keys := by
  obtain ⟨e, he, rfl⟩ := List.mem_map.mp hc
  obtain ⟨hmem, hnone⟩ := List.mem_filter.mp he
  exact g.closed k hk e hmem (Option.isNone_iff_eq_none.mp hnone)

variable {g}

theorem anyOf_search {n : Nat}
    (hcall : ∀ addr st, (addr, st.key) ∈ g.keys → ∀ s : EmitState, g.Holds s.reg → ∀ b memo',
      search g.takes g.next n (addr, st.key) s.memo = some (b, memo') →
      ∃ r, callsExtern reg fuel n addr st s = (.ok b, ⟨r, memo'⟩) ∧ g.Holds r)
    (cs : List (BitVec 24 × State)) (hcs : ∀ c ∈ cs, (c.1, c.2.key) ∈ g.keys) (s : EmitState)
    (hs : g.Holds s.reg) {b : Bool} {memo' : Memo Key}
    (h : MemoSearch.anyOf (search g.takes g.next n) (cs.map fun c => (c.1, c.2.key)) s.memo =
      some (b, memo')) :
    ∃ r, anyOf (fun c => callsExtern reg fuel n c.1 c.2) cs s = (.ok b, ⟨r, memo'⟩) ∧
      g.Holds r := by
  induction cs generalizing s with
  | nil =>
    cases h
    exact ⟨s.reg, rfl, hs⟩
  | cons c cs ih =>
    obtain ⟨hc, hcs⟩ := List.forall_mem_cons.mp hcs
    unfold anyOf
    rw [bind_run]
    rcases anyOf_cons h with ⟨rfl, hfirst⟩ | ⟨memo₁, hfirst, hrest⟩
    · obtain ⟨r, hrun, hr⟩ := hcall c.1 c.2 hc s hs true memo' hfirst
      rw [hrun]
      exact ⟨r, rfl, hr⟩
    · obtain ⟨r, hrun, hr⟩ := hcall c.1 c.2 hc s hs false memo₁ hfirst
      rw [hrun]
      exact ih hcs ⟨r, memo₁⟩ hr hrest

/-- `calls_extern` is the search of the graph. -/
theorem callsExtern_search {n : Nat} {addr : BitVec 24} {st : State}
    (hk : (addr, st.key) ∈ g.keys) {s : EmitState} (hs : g.Holds s.reg) {b : Bool}
    {memo' : Memo Key} (h : search g.takes g.next n (addr, st.key) s.memo = some (b, memo')) :
    ∃ r, callsExtern reg fuel n addr st s = (.ok b, ⟨r, memo'⟩) ∧ g.Holds r := by
  induction n generalizing addr st s b memo' with
  | zero => cases h
  | succ n ih =>
    unfold callsExtern
    rw [get_bind_run]
    dsimp only
    rcases search_cases h with ⟨hmemo, rfl⟩ | ⟨m, reached, memo₁, hm, hmemo, hany, rfl, rfl⟩
    · rw [hmemo]
      exact ⟨s.reg, rfl, hs⟩
    · cases hm
      obtain ⟨r, hfn, hr⟩ := g.has s.reg addr st hs hk
      rw [hmemo]
      dsimp only
      rw [bind_run]
      change ∃ r, (((fromRegistry (reg.function fuel addr st)) >>= _)
        (s.setMemo (addr, st.key) false)) = _ ∧ _
      have hdecoded : fromRegistry (reg.function fuel addr st) (s.setMemo (addr, st.key) false) =
          (.ok (g.fn (addr, st.key)), { s with reg := r }.setMemo (addr, st.key) false) := by
        have hreg : (s.setMemo (addr, st.key) false).reg = s.reg := rfl
        unfold fromRegistry
        rw [hreg, hfn]
        rfl
      have hfurther : ((if takesHook reg (g.fn (addr, st.key)) then [] else
          (g.fn (addr, st.key)).callees.filter fun c => (reg.externs c.1).isNone).map
          fun c => (c.1, c.2.key)) = if g.takes (addr, st.key) then [] else g.next (addr, st.key) := by
        unfold takes next
        split <;> rfl
      rw [← hfurther] at hany
      obtain ⟨r', hrun, hr'⟩ := anyOf_search (fun addr st hk s hs b memo' h => ih hk hs h) _
        (fun c hc => by
          split at hc
          next => cases hc
          next =>
            obtain ⟨hmem, hnone⟩ := List.mem_filter.mp hc
            exact g.closed _ hk c hmem (Option.isNone_iff_eq_none.mp hnone))
        ({ s with reg := r }.setMemo (addr, st.key) false) hr hany
      rw [bind_run, hdecoded]
      dsimp only
      rw [bind_run, hrun]
      exact ⟨r', rfl, hr'⟩

/-- Queries that share the memo. -/
theorem queries_searches {n : Nat} {qs : List (BitVec 24 × State)}
    (hqs : ∀ q ∈ qs, (q.1, q.2.key) ∈ g.keys) {s : EmitState} (hs : g.Holds s.reg)
    {bs : List Bool} {memo' : Memo Key}
    (h : searches g.takes g.next n (qs.map fun q => (q.1, q.2.key)) s.memo = some (bs, memo')) :
    ∃ r, qs.mapM (fun q => callsExtern reg fuel n q.1 q.2) s = (.ok bs, ⟨r, memo'⟩) := by
  induction qs generalizing s bs with
  | nil =>
    cases h
    exact ⟨s.reg, rfl⟩
  | cons q qs ih =>
    obtain ⟨hq, hqs⟩ := List.forall_mem_cons.mp hqs
    obtain ⟨b, memo₁, bs', hb, hrest, rfl⟩ := searches_cons h
    obtain ⟨r, hrun, hr⟩ := callsExtern_search hq hs hb
    obtain ⟨r', hrun'⟩ := ih hqs (s := ⟨r, memo₁⟩) hr hrest
    refine ⟨r', ?_⟩
    rw [List.mapM_cons, bind_run, hrun]
    dsimp only
    rw [bind_run, hrun']
    rfl

end CallGraph

/-- Any queries in any order are answered, and right, if and only if no function is blocked. -/
theorem calls_extern_exact {reg : Registry} {fuel : Nat} (g : CallGraph reg fuel) {n : Nat}
    (hn : g.keys.card < n) {s : EmitState} (hs : g.Holds s.reg) (hempty : ∀ k, s.memo k = none) :
    (∀ qs : List (BitVec 24 × State), (∀ q ∈ qs, (q.1, q.2.key) ∈ g.keys) →
      ∃ bs s', qs.mapM (fun q => callsExtern reg fuel n q.1 q.2) s = (.ok bs, s') ∧
        List.Forall₂ (fun q b => b = true ↔ g.ReachesHook (q.1, q.2.key)) qs bs) ↔
      ∀ k ∈ g.keys, ¬g.Blocked k := by
  have hclosed : ∀ k ∈ g.keys, ∀ c ∈ g.next k, c ∈ g.keys := fun k hk c hc => g.next_mem hk hc
  have hmemo : s.memo = fun _ => none := funext hempty
  have hanswered (qs : List (BitVec 24 × State)) (hqs : ∀ q ∈ qs, (q.1, q.2.key) ∈ g.keys) :
      ∃ bs memo' r, searches g.takes g.next n (qs.map fun q => (q.1, q.2.key)) (fun _ => none) =
        some (bs, memo') ∧
        qs.mapM (fun q => callsExtern reg fuel n q.1 q.2) s = (.ok bs, ⟨r, memo'⟩) := by
    obtain ⟨bs, memo', hbs⟩ : ∃ bs memo', searches g.takes g.next n
        (qs.map fun q => (q.1, q.2.key)) (fun _ => none) = some (bs, memo') :=
      searches_total hclosed hn (List.forall_mem_map.mpr hqs) _
    obtain ⟨r, hrun⟩ := CallGraph.queries_searches hqs hs (hmemo ▸ hbs)
    exact ⟨bs, memo', r, hbs, hrun⟩
  rw [← searches_right_iff hclosed hn]
  constructor
  · intro hall ks hks bs memo' hbs
    have hentries : (ks.map Key.entry).map (fun q => (q.1, q.2.key)) = ks := by
      rw [List.map_map]
      exact List.map_id ks
    have hqs : ∀ q ∈ ks.map Key.entry, (q.1, q.2.key) ∈ g.keys := List.forall_mem_map.mpr hks
    obtain ⟨bs₁, memo₁, r, hsearch, hrun⟩ := hanswered _ hqs
    obtain ⟨bs₂, s', hrun', hright⟩ := hall _ hqs
    rw [hentries] at hsearch
    cases hbs.symm.trans hsearch
    cases hrun.symm.trans hrun'
    exact List.forall₂_map_left_iff.mp hright
  · intro hall qs hqs
    obtain ⟨bs, memo', r, hsearch, hrun⟩ := hanswered qs hqs
    have hright := hall _ (List.forall_mem_map.mpr hqs) bs memo' hsearch
    exact ⟨bs, _, hrun, List.forall₂_map_left_iff.mp hright⟩

/-- $C00000: JSR $0020 / BEQ $08 / JSR $0030 / RTS, $C00020: BEQ $25 / JSR $0000 / RTS,
$C00030: a jump to a noreturn extern. -/
def mutualCalls : Registry where
  rom := codeAt 0xC00000 [0x20, 0x20, 0x00, 0xF0, 0x03, 0x20, 0x30, 0x00, 0x60, 0, 0, 0, 0, 0, 0, 0,
    0, 0, 0, 0, 0, 0, 0, 0, 0, 0, 0, 0, 0, 0, 0, 0,
    0xF0, 0x03, 0x20, 0x00, 0x00, 0x60, 0, 0, 0, 0, 0, 0, 0, 0, 0, 0,
    0x5C, 0x40, 0x00, 0xC0]
  metas := [⟨"ping", 0xC00000, [(true, true)], "bank_c0", false⟩,
    ⟨"pong", 0xC00020, [(true, true)], "bank_c0", false⟩,
    ⟨"switch", 0xC00030, [(true, true)], "bank_c0", false⟩]
  jumptables _ := none
  externs a := if a = 0xC00040 then some ⟨.JML, "switch_stack", true, fun _ => rfl⟩ else none

def bothShort : State := .of (some true) (some true) false

/-- After the first has been decoded. -/
@[irreducible] def mutualState : RegState := (mutualCalls.function 12 0xC00000 bothShort .init).2

def mutualKeys : List Key :=
  [(0xC00000, bothShort.key), (0xC00020, bothShort.key), (0xC00030, bothShort.key)]

theorem mutualKeys_set : mutualKeys.toFinset =
    {(0xC00000, bothShort.key), (0xC00020, bothShort.key), (0xC00030, bothShort.key)} := by
  decide +kernel

set_option maxRecDepth 10000 in
def mutualGraph : CallGraph mutualCalls 12 :=
  .ofCache mutualCalls 11 mutualState
    {(0xC00000, bothShort.key), (0xC00020, bothShort.key), (0xC00030, bothShort.key)}
    (mutualKeys_set ▸ CallGraph.cached_of_all (by decide +kernel))
    (mutualKeys_set ▸ CallGraph.closed_of_all (by decide +kernel))

set_option maxRecDepth 10000 in
theorem calls_extern_exact_mutual :
    ¬∀ qs : List (BitVec 24 × State), (∀ q ∈ qs, (q.1, q.2.key) ∈ mutualGraph.keys) →
      ∃ bs s', qs.mapM (fun q => callsExtern mutualCalls 12 4 q.1 q.2)
          ⟨mutualState, fun _ => none⟩ = (.ok bs, s') ∧
        List.Forall₂ (fun q b => b = true ↔ mutualGraph.ReachesHook (q.1, q.2.key)) qs bs := by
  have hpingNext : mutualGraph.next (0xC00000, bothShort.key) =
      [(0xC00020, bothShort.key), (0xC00030, bothShort.key)] := by decide +kernel
  have hpongNext : mutualGraph.next (0xC00020, bothShort.key) = [(0xC00000, bothShort.key)] := by
    decide +kernel
  have hswitch : mutualGraph.ReachesHook (0xC00030, bothShort.key) := .has (by decide +kernel)
  have hping : mutualGraph.ReachesHook (0xC00000, bothShort.key) :=
    .next (by rw [hpingNext]; decide +kernel) hswitch
  have hpong : mutualGraph.ReachesHook (0xC00020, bothShort.key) :=
    .next (by rw [hpongNext]; decide +kernel) hping
  have hthere : Stuck mutualGraph.takes mutualGraph.next [(0xC00000, bothShort.key)]
      (0xC00020, bothShort.key) :=
    .here (by decide +kernel) hpong fun c hc _ => by
      rw [hpongNext] at hc
      exact List.mem_cons_of_mem _ hc
  have hsplit : mutualGraph.next (0xC00000, bothShort.key) =
      [] ++ (0xC00020, bothShort.key) :: [(0xC00030, bothShort.key)] := hpingNext
  have hblocked : mutualGraph.Blocked (0xC00000, bothShort.key) :=
    .on (by decide +kernel) hsplit nofun hpong (by decide +kernel) hthere
  have hholds : mutualGraph.Holds mutualState := CallGraph.ofCache_holds
  have hfew : mutualGraph.keys.card < 4 := by decide +kernel
  have hmem : (0xC00000, bothShort.key) ∈ mutualGraph.keys := by decide +kernel
  intro hall
  exact (calls_extern_exact mutualGraph hfew (s := ⟨mutualState, fun _ => none⟩) hholds
    fun _ => rfl).mp hall _ hmem hblocked

set_option maxRecDepth 10000 in
/-- Asked after the first, the second is said to reach none: the first was on the way. -/
theorem pong_hookless : ∃ s',
    ([0xC00000, 0xC00020] : List (BitVec 24)).mapM
      (fun a => callsExtern mutualCalls 12 4 a bothShort) ⟨mutualState, fun _ => none⟩ =
        (.ok [true, false], s') ∧
    mutualGraph.Holds mutualState ∧ mutualGraph.ReachesHook (0xC00020, bothShort.key) := by
  have hanswers : (([0xC00000, 0xC00020] : List (BitVec 24)).mapM
      (fun a => callsExtern mutualCalls 12 4 a bothShort) ⟨mutualState, fun _ => none⟩).1.toOption =
        some [true, false] := by decide +kernel
  have htakes : mutualGraph.takes (0xC00030, bothShort.key) = true := by decide +kernel
  have hping : (0xC00030, bothShort.key) ∈ mutualGraph.next (0xC00000, bothShort.key) := by
    decide +kernel
  have hpong : (0xC00000, bothShort.key) ∈ mutualGraph.next (0xC00020, bothShort.key) := by
    decide +kernel
  match hrun : ([0xC00000, 0xC00020] : List (BitVec 24)).mapM
      (fun a => callsExtern mutualCalls 12 4 a bothShort) ⟨mutualState, fun _ => none⟩ with
  | (.error e, s') =>
    rw [hrun] at hanswers
    cases hanswers
  | (.ok bs, s') =>
    rw [hrun] at hanswers
    cases Option.some.inj hanswers
    exact ⟨s', rfl, CallGraph.ofCache_holds, .next hpong (.next hping (.has htakes))⟩

end CtRecomp
