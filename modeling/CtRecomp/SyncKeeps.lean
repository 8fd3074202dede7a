import CtRecomp.AssumedExact
import CtRecomp.EmitHooks
import CtRecomp.Loop
import CtRecomp.SyncSymbols

namespace CtRecomp

/-! What validation keeps, over all of its rounds. -/

/-- Keyed by address, as the dictionary is. -/
structure Candidates where
  list : List Candidate
  nodup : (list.map Candidate.addr).Nodup

section

variable {c : Candidate} {ws : List Widths}

@[simp] theorem Candidate.withStates_addr : (c.withStates ws).addr = c.addr := by
  unfold Candidate.withStates
  split
  · rfl
  · rfl

theorem mem_sortedStates {w : Widths} : w ∈ sortedStates ws ↔ w ∈ ws := by
  unfold sortedStates
  rw [List.mem_filter, decide_eq_true_iff]
  refine and_iff_right ?_
  obtain ⟨m, x⟩ := w
  cases m <;> cases x <;> decide

theorem mem_withStates {w : Widths} : w ∈ (c.withStates ws).states ↔ w ∈ c.states ∨ w ∈ ws := by
  unfold Candidate.withStates
  split
  next hall => exact ⟨.inl, fun h => h.elim id (hall w)⟩
  next => rw [mem_sortedStates, List.mem_append]

end

/-- With more states, whatever they were guessed from. -/
def Candidates.withGuesses (cs : Candidates) (guesses : BitVec 24 → List Widths) : Candidates where
  list := cs.list.map fun c => c.withStates (guesses c.addr)
  nodup := by
    have haddrs : (cs.list.map fun c => c.withStates (guesses c.addr)).map Candidate.addr =
        cs.list.map Candidate.addr := by
      rw [List.map_map]
      exact List.map_congr_left fun c _ => Candidate.withStates_addr
    rw [haddrs]
    exact cs.nodup

/-! What propagation adds are such guesses. -/

theorem Candidate.withStates_nil (c : Candidate) : c.withStates [] = c :=
  if_pos (List.forall_mem_nil _)

theorem sortedStates_congr {ws ws' : List Widths} (h : ∀ w, w ∈ ws ↔ w ∈ ws') :
    sortedStates ws = sortedStates ws' :=
  List.filter_congr fun w _ => decide_eq_decide.mpr (h w)

theorem Candidate.withStates_twice (c : Candidate) (ws ws' : List Widths) :
    (c.withStates ws).withStates ws' = c.withStates (ws ++ ws') := by
  by_cases hall : ∀ w ∈ ws, w ∈ c.states
  · have hsame : c.withStates ws = c := if_pos hall
    rw [hsame]
    unfold Candidate.withStates
    by_cases hall' : ∀ w ∈ ws', w ∈ c.states
    · rw [if_pos hall', if_pos fun w hw => (List.mem_append.mp hw).elim (hall w) (hall' w)]
    · rw [if_neg hall', if_neg fun h => hall' fun w hw => h w (List.mem_append_right _ hw)]
      refine congrArg (fun states => { c with states }) (sortedStates_congr fun w => ?_)
      simp only [List.mem_append]
      have hw := hall w
      tauto
  · have hmore : c.withStates ws = { c with states := sortedStates (c.states ++ ws) } := if_neg hall
    have hboth : c.withStates (ws ++ ws') =
        { c with states := sortedStates (c.states ++ (ws ++ ws')) } :=
      if_neg fun h => hall fun w hw => h w (List.mem_append_left _ hw)
    rw [hmore, hboth]
    unfold Candidate.withStates
    by_cases hall' : ∀ w ∈ ws', w ∈ sortedStates (c.states ++ ws)
    · rw [if_pos hall']
      refine congrArg (fun states => { c with states }) (sortedStates_congr fun w => ?_)
      have hw := hall' w
      rw [mem_sortedStates] at hw
      simp only [List.mem_append] at hw ⊢
      tauto
    · rw [if_neg hall']
      refine congrArg (fun states => { c with states }) (sortedStates_congr fun w => ?_)
      simp only [List.mem_append, mem_sortedStates]
      tauto

/-- `cs'` has the candidates of `cs`, with more states. -/
def Guessed (cs cs' : List Candidate) : Prop :=
  ∃ guesses : BitVec 24 → List Widths, cs' = cs.map fun c => c.withStates (guesses c.addr)

theorem Guessed.refl (cs : List Candidate) : Guessed cs cs :=
  ⟨fun _ => [], by simp [Candidate.withStates_nil]⟩

theorem Guessed.trans {cs cs' cs'' : List Candidate} (h : Guessed cs cs') (h' : Guessed cs' cs'') :
    Guessed cs cs'' := by
  obtain ⟨g, rfl⟩ := h
  obtain ⟨g', rfl⟩ := h'
  refine ⟨fun a => g a ++ g' a, ?_⟩
  rw [List.map_map]
  refine List.map_congr_left fun c _ => ?_
  simp only [Function.comp_apply, Candidate.withStates_addr]
  exact c.withStates_twice _ _

theorem gain_guessed (target : BitVec 24) (tags : List Widths) (g : Gained) :
    Guessed g.1 (gain target tags g).1 := by
  unfold gain
  split
  · exact .refl _
  · refine ⟨fun a => if a = target then tags else [], List.map_congr_left fun c _ => ?_⟩
    dsimp only
    by_cases h : c.addr = target
    · rw [if_pos h, if_pos h]
    · rw [if_neg h, if_neg h, Candidate.withStates_nil]

theorem gains_guessed (found : Sites) (g : Gained) :
    Guessed g.1 (found.foldl (fun g f => gain f.1 f.2 g) g).1 := by
  induction found generalizing g with
  | nil => exact .refl _
  | cons f found ih => exact (gain_guessed f.1 f.2 g).trans (ih _)

section

variable {mem : Image}

theorem propagateRound_guessed {todo walked walked' : List (BitVec 24 × Widths)} {g g' : Gained}
    (h : propagateRound mem todo walked g = .ok (g', walked')) : Guessed g.1 g'.1 := by
  induction todo generalizing walked g with
  | nil =>
    cases h
    exact .refl _
  | cons wk todo ih =>
    unfold propagateRound at h
    split at h
    · exact ih h
    · obtain ⟨found, -, h⟩ := Loop.bind_eq_ok_iff.mp h
      exact (gains_guessed found g).trans (ih h)

theorem propagateLoop_guessed {n : Nat} {known walked : List (BitVec 24 × Widths)}
    {cands cands' : List Candidate} (h : propagateLoop mem n known walked cands = .ok cands') :
    Guessed cands cands' := by
  induction n generalizing known walked cands with
  | zero => cases h
  | succ n ih =>
    obtain ⟨⟨⟨cands₁, new⟩, walked₁⟩, hround, h⟩ := Loop.bind_eq_ok_iff.mp h
    have hfirst := propagateRound_guessed hround
    dsimp only at h
    split at h
    · cases h
      exact hfirst
    · exact hfirst.trans (ih h)

theorem propagate_guesses {existing : List FuncMeta} {before : Candidates} {n : Nat}
    {cands : List Candidate} (h : propagate mem existing before.list n = .ok cands) :
    ∃ guesses, cands = (before.withGuesses guesses).list := propagateLoop_guessed h

end

/-! One round. -/

section

variable {reg : Registry}

theorem tryStates_answers (addr : BitVec 24) (ws : List Widths) :
    Answers .outOfFuel fun n => tryStates reg n addr ws := by
  induction ws with
  | nil => exact answers_pure ()
  | cons w ws ih => exact (function_answers addr w.state).bind fun _ => ih

theorem tryStates_raises (n : Nat) (addr : BitVec 24) (ws : List Widths) :
    Spec (fun _ => True) (tryStates reg n addr ws) (fun _ _ => True)
      fun e _ => e = .outOfFuel ∨ e.caught = true := by
  induction ws with
  | nil => exact spec_pure fun _ _ => trivial
  | cons w ws ih => exact (function_raises n addr w.state).bind fun _ => ih

theorem tryCandidate_answers (c : Candidate) :
    Answers .outOfFuel fun n => tryCandidate reg n c := by
  refine ((tryStates_answers c.addr c.states).map _).tryCatch (fun _ _ => rfl) fun e he => ?_
  by_cases hcaught : e.caught = true
  · simp only [if_pos hcaught]
    exact answers_pure _
  · simp only [if_neg hcaught]
    exact answers_throw he

/-- Raises nothing. -/
theorem tryCandidate_raises (n : Nat) (c : Candidate) :
    Spec (fun _ => True) (tryCandidate reg n c) (fun _ _ => True) fun e _ => e = .outOfFuel := by
  refine Spec.tryCatch ((tryStates_raises n c.addr c.states).map fun _ _ _ => trivial) fun e => ?_
  refine spec_ite (fun _ => spec_pure fun _ _ => trivial) fun hcaught => spec_throw ?_
  rintro s (he | he)
  · exact he
  · exact absurd he hcaught

theorem findFailed_answers (live : List Candidate) :
    Answers .outOfFuel fun n => findFailed reg n live := by
  induction live with
  | nil => exact answers_pure []
  | cons c cs ih =>
    exact (tryCandidate_answers c).bind fun ex => ih.bind fun failed => answers_pure _

theorem findFailed_raises (n : Nat) (live : List Candidate) :
    Spec (fun _ => True) (findFailed reg n live)
      (fun failed _ => ∀ a ∈ failed.map Prod.fst, a ∈ live.map Candidate.addr)
      fun e _ => e = .outOfFuel := by
  induction live with
  | nil => exact spec_pure fun _ _ => List.forall_mem_nil _
  | cons c cs ih =>
    refine (tryCandidate_raises n c).bind fun ex => ih.bind fun failed => spec_pure ?_
    intro s hfailed a ha
    rw [List.map_append, List.mem_append] at ha
    rcases ha with ha | ha
    · cases ex with
      | none => cases ha
      | some ex =>
        rw [List.mem_singleton.mp ha]
        exact List.mem_cons_self
    · exact List.mem_cons_of_mem _ (hfailed a ha)

end

/-! All rounds. -/

/-- The addresses of what fails in a round with `live` left. -/
def Registry.FailsIn (reg : Registry) (moduleName : String) (live : List Candidate)
    (failed : List (BitVec 24)) : Prop :=
  ∃ n errs s', findFailed (reg.withMetas (live.map (Candidate.toMeta moduleName))) n live .init =
    (.ok errs, s') ∧ errs.map Prod.fst = failed

section

variable {reg : Registry} {moduleName : String}

theorem Registry.failsIn_one {live : List Candidate} {failed failed' : List (BitVec 24)}
    (h : reg.FailsIn moduleName live failed) (h' : reg.FailsIn moduleName live failed') :
    failed = failed' := by
  obtain ⟨n, errs, s, hrun, rfl⟩ := h
  obtain ⟨n', errs', s', hrun', rfl⟩ := h'
  have hsame := (findFailed_answers live).same (s := .init) (by rw [hrun]; exact nofun)
    (by rw [hrun']; exact nofun)
  rw [hrun, hrun'] at hsame
  cases hsame
  rfl

/-- A run of the loop: its rounds, and the reasons it adds. -/
structure Settled (reg : Registry) (moduleName : String) (live : List Candidate)
    (reasons : List (BitVec 24 × DecodeError)) (kept : List Candidate)
    (reasons' : List (BitVec 24 × DecodeError)) : Prop where
  rounds : Shrink.Rounds Candidate.addr (reg.FailsIn moduleName) live kept
  quiet : reg.FailsIn moduleName kept []
  told : ∀ a, a ∈ reasons'.map Prod.fst ↔ a ∈ reasons.map Prod.fst ∨
    ∃ c ∈ live, c.addr = a ∧ c ∉ kept

theorem settle_settled {n k : Nat} {live kept : List Candidate}
    {reasons reasons' : List (BitVec 24 × DecodeError)} {s s' : RegState}
    (hrun : settle reg n moduleName k live reasons s = (.ok (kept, reasons'), s')) :
    Settled reg moduleName live reasons kept reasons' := by
  induction k generalizing live reasons s with
  | zero => cases hrun
  | succ k ih =>
    obtain ⟨failed, s₁, hfail, hrun⟩ := bind_ok (show (findFailed _ n live >>= _) RegState.init =
      (.ok (kept, reasons'), s') from hrun)
    have hfails : reg.FailsIn moduleName live (failed.map Prod.fst) := ⟨n, failed, s₁, hfail, rfl⟩
    have hin := (findFailed_raises n live).ok trivial hfail
    dsimp only at hrun
    by_cases hnil : failed = []
    · rw [if_pos hnil] at hrun
      cases hrun
      rw [hnil] at hfails
      refine ⟨.refl _, hfails, fun a => ⟨.inl, fun h => h.elim id ?_⟩⟩
      rintro ⟨c, hc, -, hout⟩
      exact absurd hc hout
    · rw [if_neg hnil] at hrun
      have hne : failed.map Prod.fst ≠ [] := fun h => hnil (List.map_eq_nil_iff.mp h)
      obtain ⟨hrounds, hquiet, htold⟩ := ih hrun
      refine ⟨.step hfails hne hrounds, hquiet, fun a => ?_⟩
      rw [htold, List.map_append, List.mem_append]
      constructor
      · rintro ((ha | ha) | ⟨c, hc, rfl, hout⟩)
        · exact .inl ha
        · obtain ⟨c, hc, rfl⟩ := List.mem_map.mp (hin a ha)
          refine .inr ⟨c, hc, rfl, fun hkept => ?_⟩
          exact (Shrink.mem_without.mp (hrounds.subset hkept)).2 ha
        · exact .inr ⟨c, (Shrink.mem_without.mp hc).1, rfl, hout⟩
      · rintro (ha | ⟨c, hc, rfl, hout⟩)
        · exact .inl (.inl ha)
        · by_cases hfail : c.addr ∈ failed.map Prod.fst
          · exact .inl (.inr hfail)
          · exact .inr ⟨c, Shrink.mem_without.mpr ⟨hc, hfail⟩, rfl, hout⟩

theorem settle_grows {n n' : Nat} (hn : n ≤ n') (k : Nat) (live : List Candidate)
    (reasons : List (BitVec 24 × DecodeError)) : Below .outOfFuel
      (settle reg n moduleName k live reasons) (settle reg n' moduleName k live reasons) := by
  induction k generalizing live reasons with
  | zero => exact .refl _
  | succ k ih =>
    exact Below.bind (.refl _) fun _ => ((findFailed_answers live).grows hn).bind fun failed =>
      below_ite (.refl _) (ih _ _)

/-- Each round drops something, so as many rounds as candidates, and one more, are enough. -/
theorem settle_answers {k : Nat} {live : List Candidate}
    {reasons : List (BitVec 24 × DecodeError)} (hk : live.length < k) :
    Answers .outOfFuel fun n => settle reg n moduleName k live reasons := by
  induction k generalizing live reasons with
  | zero => exact absurd hk (Nat.not_lt_zero _)
  | succ k ih =>
    have hset : Answers .outOfFuel fun _ => (set RegState.init : RegM PUnit) :=
      answers_const fun _ h => by cases h
    refine hset.bind fun _ => ?_
    refine (findFailed_answers live).bindOf (Q := fun failed =>
      ∀ a ∈ failed.map Prod.fst, a ∈ live.map Candidate.addr) (fun n =>
      (findFailed_raises n live).mono (fun _ h => h) (fun _ _ h => h) fun _ _ _ => trivial)
      (fun failed _ _ hn => below_ite (.refl _) (settle_grows hn _ _ _)) fun failed hin s => ?_
    by_cases hnil : failed = []
    · refine ⟨0, ?_⟩
      rw [if_pos hnil]
      exact nofun
    · have hshort : (Shrink.without Candidate.addr live (failed.map Prod.fst)).length < k := by
        obtain ⟨e, errs, rfl⟩ := List.exists_cons_of_ne_nil hnil
        obtain ⟨c, hc, haddr⟩ := List.mem_map.mp (hin e.1 List.mem_cons_self)
        have hlt : (Shrink.without Candidate.addr live ((e :: errs).map Prod.fst)).length <
            live.length := by
          refine List.length_filter_lt_length_iff_exists.mpr ⟨c, hc, ?_⟩
          rw [haddr]
          simp
        omega
      have hrest : Answers .outOfFuel fun n => settle reg n moduleName k
          (Shrink.without Candidate.addr live (failed.map Prod.fst)) (reasons ++ failed) :=
        ih hshort
      obtain ⟨n, hn⟩ := hrest.enough s
      refine ⟨n, ?_⟩
      rw [if_neg hnil]
      exact hn

theorem settle_raises (n k : Nat) (live : List Candidate)
    (reasons : List (BitVec 24 × DecodeError)) :
    Spec (fun _ => True) (settle reg n moduleName k live reasons) (fun _ _ => True)
      fun e _ => e = .outOfFuel := by
  induction k generalizing live reasons with
  | zero => exact spec_throw fun _ _ => rfl
  | succ k ih =>
    have hset : Spec (fun _ => True) (set RegState.init : RegM PUnit) (fun _ _ => True)
        fun e _ => e = .outOfFuel := spec_of_run (fun _ _ _ _ _ => trivial) (by
      intro s s' e _ hrun
      cases hrun)
    refine hset.bind fun _ => ((findFailed_raises n live).post fun _ _ _ => trivial).bind
      fun failed => ?_
    exact spec_ite (fun _ => spec_pure fun _ _ => trivial) fun _ => ih _ _

end

/-! The result. -/

/-- It is in the list. -/
def SyncResult.Validates (res : SyncResult) (c : Candidate) : Prop :=
  ∃ fm ∈ res.validated, fm.addr = c.addr

def SyncResult.Leaves (res : SyncResult) (c : Candidate) : Prop := ∃ r, (c, r) ∈ res.unresolved

def SyncResult.Refuses (res : SyncResult) (c : Candidate) : Prop := ∃ ex, (c, ex) ∈ res.conflicts

/-- It is in one of the lists alone. -/
def SyncResult.Places (res : SyncResult) (c : Candidate) : Prop :=
  (res.Validates c ∧ ¬res.Leaves c ∧ ¬res.Refuses c) ∨
    (¬res.Validates c ∧ res.Leaves c ∧ ¬res.Refuses c) ∨
    (¬res.Validates c ∧ ¬res.Leaves c ∧ res.Refuses c)

/-- A query for the state succeeds. -/
def Registry.Decodes (reg : Registry) (addr : BitVec 24) (w : Widths) : Prop :=
  ∃ n fn s, reg.function n addr w.state .init = (.ok fn, s)

/-- Each state the candidates had before the guesses, and that decodes with what was validated, is
an entry. -/
def SyncResult.Keeps (res : SyncResult) (reg : Registry) (before : Candidates) : Prop :=
  ∀ b ∈ before.list, ∀ w ∈ b.states, (reg.withMetas res.validated).Decodes b.addr w →
    (reg.withMetas res.validated).registered b.addr w.state = true

/-- No state at the address fails in any round. -/
def Registry.NeverFails (reg : Registry) (moduleName : String) (cands : List Candidate)
    (addr : BitVec 24) : Prop :=
  ∀ live failed, Shrink.Rounds Candidate.addr (reg.FailsIn moduleName) (reg.live cands) live →
    reg.FailsIn moduleName live failed → addr ∉ failed

section

variable {reg : Registry} {moduleName : String} {cands : List Candidate} {res : SyncResult}

theorem mem_live {c : Candidate} : c ∈ reg.live cands ↔
    c ∈ cands ∧ reg.byAddr c.addr = none ∧ c.addr ∉ knownBad ∧ c.states ≠ [] := by
  unfold Registry.live Registry.standing
  rw [List.mem_filter]
  refine and_congr_right fun _ => ?_
  cases reg.byAddr c.addr with
  | some ex => simp
  | none =>
    dsimp only
    split_ifs with hbad hnone
    · simp [hbad]
    · simp [hbad, hnone]
    · simp [hbad, hnone]

/-- What validation returns is made of what the loop leaves. -/
structure Validated (reg : Registry) (moduleName : String) (cands : List Candidate)
    (res : SyncResult) (kept : List Candidate) (reasons : List (BitVec 24 × DecodeError)) :
    Prop where
  settled : Settled reg moduleName (reg.live cands) [] kept reasons
  validated : ∀ fm, fm ∈ res.validated ↔ fm ∈ kept.map (Candidate.toMeta moduleName)
  unresolved : ∀ u, u ∈ res.unresolved ↔ u ∈ unresolvedOf reg cands reasons
  conflicts : ∀ u, u ∈ res.conflicts ↔ u ∈ conflictsOf reg cands

theorem validate_validated {n : Nat} {s s' : RegState}
    (hrun : validate reg n moduleName cands s = (.ok res, s')) :
    ∃ kept reasons, Validated reg moduleName cands res kept reasons := by
  obtain ⟨⟨kept, reasons⟩, s₁, hsettle, hrun⟩ := bind_ok hrun
  cases hrun
  exact ⟨kept, reasons, settle_settled hsettle, fun _ => List.mem_insertionSort _,
    fun _ => List.mem_insertionSort _, fun _ => List.mem_insertionSort _⟩

/-- It always comes back with a result. -/
theorem validate_ends (reg : Registry) (moduleName : String) (cands : List Candidate)
    (s : RegState) :
    ∃ N res s', ∀ n ≥ N, validate reg n moduleName cands s = (.ok res, s') := by
  have hanswers : Answers .outOfFuel fun n => validate reg n moduleName cands :=
    (settle_answers (Nat.lt_succ_self _)).bind fun _ => answers_pure _
  obtain ⟨N, ⟨r, s'⟩, hr, hN⟩ := hanswers.result s
  cases r with
  | ok res => exact ⟨N, res, s', hN⟩
  | error e =>
    have hraises : Spec (fun _ => True) (validate reg N moduleName cands) (fun _ _ => True)
        fun e _ => e = .outOfFuel :=
      (settle_raises N _ _ _).bind fun _ => spec_pure fun _ _ => trivial
    exact absurd (congrArg Except.error (hraises.error trivial (hN N (Nat.le_refl N)))) hr

end

section

variable {reg : Registry} {moduleName : String} {cands : Candidates} {res : SyncResult}
  {kept : List Candidate} {reasons : List (BitVec 24 × DecodeError)}

theorem Candidates.one (cands : Candidates) {c c' : Candidate} (hc : c ∈ cands.list)
    (hc' : c' ∈ cands.list) (h : c'.addr = c.addr) : c' = c :=
  List.inj_on_of_nodup_map cands.nodup hc' hc h

theorem Validated.live (h : Validated reg moduleName cands.list res kept reasons) {c : Candidate}
    (hc : c ∈ kept) : c ∈ reg.live cands.list := h.settled.rounds.subset hc

theorem Validated.validates_iff (h : Validated reg moduleName cands.list res kept reasons)
    {c : Candidate} (hc : c ∈ cands.list) : res.Validates c ↔ c ∈ kept := by
  constructor
  · rintro ⟨fm, hfm, haddr⟩
    obtain ⟨c', hc', rfl⟩ := List.mem_map.mp ((h.validated fm).mp hfm)
    rwa [← cands.one hc (mem_live.mp (h.live hc')).1 haddr]
  · intro hkept
    exact ⟨_, (h.validated _).mpr (List.mem_map_of_mem hkept), rfl⟩

/-- What was dropped has a reason. -/
theorem Validated.told (h : Validated reg moduleName cands.list res kept reasons)
    {c : Candidate} (hc : c ∈ cands.list) :
    c.addr ∈ reasons.map Prod.fst ↔ c ∈ reg.live cands.list ∧ c ∉ kept := by
  rw [h.settled.told]
  constructor
  · rintro (hin | ⟨c', hlive, haddr, hout⟩)
    · cases hin
    · rw [← cands.one hc (mem_live.mp hlive).1 haddr]
      exact ⟨hlive, hout⟩
  · rintro ⟨hlive, hout⟩
    exact .inr ⟨c, hlive, rfl, hout⟩

theorem Validated.leaves_iff (h : Validated reg moduleName cands.list res kept reasons)
    {c : Candidate} (hc : c ∈ cands.list) (hnone : reg.byAddr c.addr = none) :
    res.Leaves c ↔ c ∉ kept := by
  have hwithheld : (∃ r, reg.standing c = .withheld r) ↔ c ∉ reg.live cands.list := by
    rw [mem_live, Registry.standing, hnone]
    dsimp only
    split_ifs with hbad hempty
    · simp [hbad]
    · simp [hbad, hempty]
    · simp [hbad, hempty, hc]
  constructor
  · rintro ⟨r, hr⟩ hkept
    rcases List.mem_append.mp ((h.unresolved _).mp hr) with hr | hr
    · obtain ⟨c', hc', hsome⟩ := List.mem_filterMap.mp hr
      cases hstanding : reg.standing c' with
      | withheld r' =>
        rw [hstanding] at hsome
        cases hsome
        exact hwithheld.mp ⟨_, hstanding⟩ (h.live hkept)
      | _ =>
        rw [hstanding] at hsome
        cases hsome
    · obtain ⟨c', hc', hsome⟩ := List.mem_filterMap.mp hr
      by_cases hreg : (reg.byAddr c'.addr).isSome
      · rw [if_pos hreg] at hsome
        cases hsome
      · rw [if_neg hreg] at hsome
        obtain ⟨e, he, hpair⟩ := Option.map_eq_some_iff.mp hsome
        cases hpair
        have hmem : c.addr ∈ reasons.map Prod.fst :=
          List.mem_map.mpr ⟨(c.addr, e), mem_of_lookup he, rfl⟩
        exact ((h.told hc).mp hmem).2 hkept
  · intro hout
    by_cases hlive : c ∈ reg.live cands.list
    · obtain ⟨⟨a, e⟩, hmem, haddr⟩ := List.mem_map.mp ((h.told hc).mpr ⟨hlive, hout⟩)
      have hsome : (reasons.lookup c.addr).isSome :=
        List.lookup_isSome_iff.mpr ⟨(a, e), hmem, by simpa using haddr.symm⟩
      obtain ⟨e', he'⟩ := Option.isSome_iff_exists.mp hsome
      refine ⟨.undecoded e', (h.unresolved _).mpr (List.mem_append_right _ ?_)⟩
      refine List.mem_filterMap.mpr ⟨c, hc, ?_⟩
      rw [if_neg (by rw [hnone]; exact Bool.false_ne_true), he']
      rfl
    · obtain ⟨r, hr⟩ := hwithheld.mpr hlive
      refine ⟨r, (h.unresolved _).mpr (List.mem_append_left _ ?_)⟩
      refine List.mem_filterMap.mpr ⟨c, hc, ?_⟩
      rw [hr]

theorem Validated.places (h : Validated reg moduleName cands.list res kept reasons)
    {c : Candidate} (hc : c ∈ cands.list) (hnone : reg.byAddr c.addr = none) : res.Places c := by
  have hrefuses : ¬res.Refuses c := by
    rintro ⟨ex, hex⟩
    obtain ⟨c', -, hsome⟩ := List.mem_filterMap.mp ((h.conflicts _).mp hex)
    have hstanding : reg.standing c ≠ .registered ex := by
      rw [Registry.standing, hnone]
      dsimp only
      split_ifs <;> nofun
    cases hs : reg.standing c' with
    | registered ex' =>
      rw [hs] at hsome
      dsimp only at hsome
      split at hsome
      · cases hsome
        exact hstanding hs
      · cases hsome
    | _ =>
      rw [hs] at hsome
      cases hsome
  by_cases hkept : c ∈ kept
  · exact .inl ⟨(h.validates_iff hc).mpr hkept, fun hl => (h.leaves_iff hc hnone).mp hl hkept,
      hrefuses⟩
  · exact .inr (.inl ⟨fun hv => hkept ((h.validates_iff hc).mp hv),
      (h.leaves_iff hc hnone).mpr hkept, hrefuses⟩)

theorem byAddr_withMetas (metas : List FuncMeta) (a : BitVec 24) :
    (reg.withMetas metas).byAddr a =
      (metas.reverse.find? fun fm => fm.addr = a).or (reg.byAddr a) := by
  unfold Registry.byAddr Registry.withMetas
  rw [List.reverse_append, List.find?_append]

/-- What a result has for a state of a candidate. -/
theorem Validated.registered_iff (h : Validated reg moduleName cands.list res kept reasons)
    {c : Candidate} (hc : c ∈ cands.list) {w : Widths} (hw : w ∈ c.states) :
    (reg.withMetas res.validated).registered c.addr w.state = true ↔
      reg.registered c.addr w.state = true ∨ c ∈ kept := by
  have hat {fm : FuncMeta} (hfm : fm ∈ res.validated) (haddr : fm.addr = c.addr) :
      fm = c.toMeta moduleName ∧ c ∈ kept := by
    obtain ⟨c', hc', rfl⟩ := List.mem_map.mp ((h.validated fm).mp hfm)
    obtain rfl := cands.one hc (mem_live.mp (h.live hc')).1 haddr
    exact ⟨rfl, hc'⟩
  unfold Registry.registered
  rw [byAddr_withMetas]
  cases hfind : res.validated.reverse.find? fun fm => fm.addr = c.addr with
  | none =>
    have hout : c ∉ kept := by
      intro hkept
      obtain ⟨fm, hfm, haddr⟩ := (h.validates_iff hc).mpr hkept
      have hnone := List.find?_eq_none.mp hfind fm (List.mem_reverse.mpr hfm)
      exact hnone (decide_eq_true haddr)
    rw [Option.none_or]
    exact (or_iff_left hout).symm
  | some fm =>
    have hmem := List.mem_reverse.mp (List.mem_of_find?_eq_some hfind)
    have haddr : fm.addr = c.addr := by simpa using List.find?_some hfind
    obtain ⟨rfl, hkept⟩ := hat hmem haddr
    rw [Option.some_or]
    refine ⟨fun _ => .inr hkept, fun _ => ?_⟩
    exact List.any_eq_true.mpr ⟨w, hw, by simp [Widths.state, State.of]⟩

/-- A candidate with a state is left if and only if it is live and none of its states fails in
any round. -/
theorem Validated.kept_iff (h : Validated reg moduleName cands.list res kept reasons)
    {c : Candidate} (hc : c ∈ cands.list) (hstates : c.states ≠ []) :
    c ∈ kept ↔ reg.byAddr c.addr = none ∧ c.addr ∉ knownBad ∧
      reg.NeverFails moduleName cands.list c.addr := by
  constructor
  · intro hkept
    obtain ⟨-, hnone, hbad, -⟩ := mem_live.mp (h.live hkept)
    have hone (live : List Candidate) (failed failed' : List (BitVec 24))
        (hf : reg.FailsIn moduleName live failed) (hf' : reg.FailsIn moduleName live failed') :
        failed = failed' := Registry.failsIn_one hf hf'
    exact ⟨hnone, hbad, fun live failed hreach hfails =>
      h.settled.rounds.never hone h.settled.quiet hkept hreach hfails⟩
  · rintro ⟨hnone, hbad, hnever⟩
    have hlive : c ∈ reg.live cands.list := mem_live.mpr ⟨hc, hnone, hbad, hstates⟩
    by_contra hout
    obtain ⟨l, failed, hreach, hfails, hmem⟩ := h.settled.rounds.dropped hlive hout
    exact hnever l failed hreach hfails hmem

end

/-- `JSR $0010` / `JSR $0020` / `RTS`; at $0010 `SEP #$20` / `RTS`; at $0020 `LDA #$60` / `RTS` -/
def guessCode : Image := codeAt 0xC00000
  ([0x20, 0x10, 0x00, 0x20, 0x20, 0x00, 0x60] ++ List.replicate 9 0 ++
    [0xE2, 0x20, 0x60] ++ List.replicate 13 0 ++ [0xA9, 0x60, 0x60, 0x00])

/-- The first two, entered with a 16-bit A. -/
def guessRegistry : Registry :=
  ⟨guessCode, [⟨"Caller", 0xC00000, [(false, true)], "", false⟩,
    ⟨"Narrow", 0xC00010, [(false, true)], "", false⟩], fun _ => none, fun _ => none⟩

/-- The third, documented with an 8-bit one. -/
def documented : Candidates := ⟨[⟨0xC00020, "Load", "chronoret", [(true, true)]⟩], by decide⟩

/-- With a 16-bit one too, as the walk of the first finds it called. -/
def guessed : List Candidate := [⟨0xC00020, "Load", "chronoret", [(false, true), (true, true)]⟩]

/-- Nothing is validated. -/
def guessDrops : Bool :=
  match validate guessRegistry 8 "" guessed .init with
  | (.ok res, _) => res.validated.isEmpty
  | (.error _, _) => false

theorem guessed_propagated : propagate guessCode guessRegistry.metas documented.list 4 =
    .ok guessed := by
  have h : (propagate guessCode guessRegistry.metas documented.list 4).toOption = some guessed := by
    decide +kernel
  match hrun : propagate guessCode guessRegistry.metas documented.list 4 with
  | .ok cands =>
    rw [hrun] at h
    exact congrArg Except.ok (Option.some.inj h)
  | .error e =>
    rw [hrun] at h
    cases h

end CtRecomp
