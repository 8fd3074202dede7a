import CtRecomp.Registry
import CtRecomp.AssumedExact

namespace CtRecomp

/-! What the registry's cache keeps, whatever it is asked and whether it raises. -/

/-- Calls, jumps and tables enter their targets in native mode. -/
def Func.Native (fn : Func) : Prop := ∀ i ∈ fn.insns,
  (∀ t c, fn.calls.lookup i.key = some (t, c) → c.e = false) ∧
  (∀ t c, fn.tails.lookup i.key = some (t, c) → c.e = false) ∧
  ∀ ts c, fn.tables.lookup i.key = some (ts, c) → c.e = false

theorem Decoded.native {S : Type} {R : Resolver S} {I : S → Prop} {mem : Image}
    {entry : BitVec 24} {st : State} {fn : Func} {found : List (Found S)}
    (h : Decoded R I mem entry st (fun _ s => s.e = false) fn found) : fn.Native := by
  intro i hi
  obtain ⟨f, hf, rfl⟩ := h.find hi
  have hd := h.dicts hf
  have he := nextState_native (h.holds f hf).transfer (h.reached f hf)
  obtain ⟨hnative, -⟩ := (h.follows hf).stays
  rw [he] at hnative
  rw [hd.calls, hd.tails, hd.tables]
  exact ⟨hnative.call, hnative.tail, hnative.table⟩

theorem carries_native {S : Type} (R : Resolver S) (I : S → Prop) (mem : Image)
    (entry : BitVec 24) (st : State) : Carries R I mem entry st fun _ s => s.e = false := by
  intro f hf he w hw
  have hfollows := (follow_cases R f.nxt entry st f.i).ok trivial hf.followed
  have hstays := hfollows.stays.2 w hw
  rw [hstays]
  exact nextState_native hf.transfer he

/-- The function decoded for an entry. -/
structure Func.Serves (fn : Func) (key : Key) : Prop where
  entry : fn.entry = key.1
  state : fn.state.key = key.2
  native : key.2.2.2 = false → fn.Native

theorem built_start {S : Type} (entry : BitVec 24) (st : State) (found : List (Found S)) :
    (built entry st found).entry = entry ∧ (built entry st found).state = st := by
  induction found with
  | nil => exact ⟨rfl, rfl⟩
  | cons f found ih => exact ih

theorem Decoded.start {S : Type} {R : Resolver S} {I : S → Prop} {mem : Image}
    {entry : BitVec 24} {st : State} {P : BitVec 24 → State → Prop} {fn : Func}
    {found : List (Found S)} (h : Decoded R I mem entry st P fn found) :
    fn.entry = entry ∧ fn.state = st := by
  rw [h.made]
  exact built_start entry st found

/-- The function at an entry, decoded in native mode, stays there. -/
theorem decodeFunction_serves {S : Type} {R : Resolver S} {I : S → Prop} (hR : R.Keeps I)
    (mem : Image) (entry : BitVec 24) (st : State) (n : Nat) :
    Spec I (decodeFunction R n mem entry st) (fun fn s => I s ∧ fn.Serves (entry, st.key))
      fun _ s => I s := by
  by_cases he : st.e = false
  · refine (decodeFunction_decoded hR (carries_native _ _ _ _ _) he n).post ?_
    rintro fn s' ⟨hs, found, hfound⟩
    obtain ⟨hentry, hstate⟩ := hfound.start
    exact ⟨hs, hentry, congrArg State.key hstate, fun _ => hfound.native⟩
  · have hcarries : Carries R I mem entry st fun _ _ => True := fun _ _ _ _ _ => trivial
    refine (decodeFunction_decoded hR hcarries trivial n).post ?_
    rintro fn s' ⟨hs, found, hfound⟩
    obtain ⟨hentry, hstate⟩ := hfound.start
    exact ⟨hs, hentry, congrArg State.key hstate, fun hnot => absurd hnot he⟩

def RegState.Grown (s₀ s : RegState) : Prop := ∀ k fn, s₀.cache k = some fn → s.cache k = some fn

def RegState.AllServe (s : RegState) : Prop := ∀ k fn, s.cache k = some fn → fn.Serves k

/-- The cache has grown since `s₀`, by the functions decoded for its keys. -/
def RegState.Kept (s₀ s : RegState) : Prop := s₀.Grown s ∧ s.AllServe

/-- What the cache has, a query returns, and leaves everything as it is. -/
theorem function_hit (reg : Registry) (n : Nat) {addr : BitVec 24} {st : State} {s : RegState}
    {fn : Func} (hs : s.cache (addr, st.key) = some fn) :
    reg.function (n + 1) addr st s = (.ok fn, s) := by
  unfold Registry.function
  rw [get_bind_run]
  dsimp only
  rw [hs]
  rfl

theorem RegState.Kept.forget {s₀ before s : RegState} (hb : s₀.Kept before) (h : s₀.Kept s)
    {key : Key} {exits : Option (Finset ExitState)} :
    s₀.Kept ((s.setAssume key exits).forget before.cache) := by
  constructor
  · intro k fn hk
    have hold : (before.cache k).isSome := by rw [hb.1 k fn hk]; rfl
    change (if (before.cache k).isSome then s.cache k else none) = some fn
    rw [if_pos hold]
    exact h.1 k fn hk
  · intro k fn hk
    change (if (before.cache k).isSome then s.cache k else none) = some fn at hk
    split at hk
    · exact h.2 k fn hk
    · cases hk

theorem RegState.Kept.setCache {s₀ s : RegState} (h : s₀.Kept s) {key : Key} {fn : Func}
    (hnone : s₀.cache key = none) (hn : fn.Serves key) : s₀.Kept (s.setCache key fn) := by
  constructor
  · intro k fn' hk
    have hne : k ≠ key := by
      rintro rfl
      rw [hnone] at hk
      cases hk
    change Function.update s.cache key (some fn) k = some fn'
    rw [Function.update_of_ne hne]
    exact h.1 k fn' hk
  · intro k fn' hk
    change Function.update s.cache key (some fn) k = some fn' at hk
    by_cases hkey : k = key
    · subst hkey
      rw [Function.update_self] at hk
      cases hk
      exact hn
    · rw [Function.update_of_ne hkey] at hk
      exact h.2 k fn' hk

namespace Registry

variable {reg : Registry} {function : BitVec 24 → State → RegM Func} {s₀ : RegState}

theorem exitStates_keeps {I : RegState → Prop} (hf : ∀ addr st, Keeps I (function addr st))
    (target : BitVec 24) (st : State) : Keeps I (exitStates function target st) := by
  refine Spec.bind (Q := fun _ s => I s) (spec_get fun _ hs => hs) fun s => ?_
  split
  · exact keeps_pure _
  · exact (hf target st).bind fun fn => keeps_pure _

theorem resolver_keeps_of {I : RegState → Prop}
    (h : ∀ target st, Keeps I (exitStates function target st)) :
    (reg.resolver function).Keeps I := by
  have htail (site target : BitVec 24) (st : State) :
      Keeps I (reg.tail function site target st) := by
    unfold Registry.tail
    split
    · exact spec_ite (fun _ => keeps_throw _) fun _ => keeps_pure _
    · exact spec_ite (fun _ => (h target st).map fun _ _ hs => hs) fun _ => keeps_pure _
  refine ⟨fun site target st kind => ?_, htail, fun site target st => ?_⟩
  · change Keeps I (reg.resolve function site target st kind)
    unfold Registry.resolve
    split
    · exact spec_ite (fun _ => keeps_throw _) fun _ => keeps_pure _
    · exact spec_ite (fun _ => (h target st).bind fun exits => keeps_raised _)
        fun _ => keeps_throw _
  · refine (htail site target st).bind fun exits => ?_
    cases exits with
    | some e => exact keeps_pure _
    | none => exact keeps_throw _

theorem resolver_keeps {I : RegState → Prop} (hf : ∀ addr st, Keeps I (function addr st)) :
    (reg.resolver function).Keeps I := resolver_keeps_of (exitStates_keeps hf)

section

variable {decode : RegM Func} {key : Key} {Q : Func → Prop}

theorem rounds_kept (hd : Spec s₀.Kept decode (fun fn s => s₀.Kept s ∧ Q fn)
    fun _ s => s₀.Kept s) (n : Nat) :
    Spec s₀.Kept (rounds decode key n) (fun fn s => s₀.Kept s ∧ Q fn) fun _ s => s₀.Kept s := by
  induction n with
  | zero => exact spec_throw fun _ hs => hs
  | succ n ih =>
    refine Spec.bind (Q := fun before s => s₀.Kept s ∧ s₀.Kept before)
      (spec_get fun s hs => ⟨hs, hs⟩) fun before => ?_
    refine Spec.bind (Q := fun fn s => (s₀.Kept s ∧ Q fn) ∧ s₀.Kept before)
      (spec_of_run (fun _ _ _ hs hrun => ⟨hd.ok hs.1 hrun, hs.2⟩)
        fun _ _ _ hs hrun => hd.error hs.1 hrun) fun fn => ?_
    refine Spec.bind (Q := fun _ s => (s₀.Kept s ∧ Q fn) ∧ s₀.Kept before)
      (spec_get fun s hs => hs) fun s => ?_
    refine spec_ite (fun _ => spec_pure fun _ hs => hs.1) fun _ => ?_
    exact Spec.bind (Q := fun _ s => s₀.Kept s)
      (spec_modify fun _ hs => hs.2.forget hs.1.1) fun _ => ih

theorem fixpoint_kept (hd : Spec s₀.Kept decode (fun fn s => s₀.Kept s ∧ Q fn)
    fun _ s => s₀.Kept s) :
    Spec s₀.Kept (fixpoint decode key) (fun fn s => s₀.Kept s ∧ Q fn) fun _ s => s₀.Kept s := by
  refine Spec.bind (Q := fun _ s => s₀.Kept s) (spec_modify fun _ hs => hs) fun _ => ?_
  exact Spec.finally ((rounds_kept hd 16).mono (fun _ hs => hs) (fun _ _ hs => hs)
    fun _ _ hs => hs)

end

/-- A query keeps what the cache had, and what it returns it leaves in the cache. -/
theorem function_kept (n : Nat) (addr : BitVec 24) (st : State) :
    Spec s₀.Kept (reg.function n addr st)
      (fun fn s => s₀.Kept s ∧ s.cache (addr, st.key) = some fn) fun _ s => s₀.Kept s := by
  induction n generalizing addr st with
  | zero => exact spec_throw fun _ hs => hs
  | succ n ih =>
    refine Spec.bind (Q := fun s s' => s₀.Kept s' ∧ s' = s) (spec_get fun s hs => ⟨hs, rfl⟩)
      fun s => ?_
    split
    case h_1 fn hcache =>
      refine spec_pure fun s' hs => ⟨hs.1, ?_⟩
      rw [hs.2]
      exact hcache
    case h_2 hcache =>
      refine spec_ite (fun _ => spec_throw fun _ hs => hs.1) fun _ => ?_
      have hR : (reg.resolver (reg.function n)).Keeps s₀.Kept :=
        resolver_keeps fun addr st => (ih addr st).post fun _ _ hs => hs.1
      have hdecode := decodeFunction_serves hR reg.rom addr st n
      refine Spec.bind (Q := fun _ s' => s₀.Kept s' ∧ s₀.cache (addr, st.key) = none)
        (spec_modify ?_) fun _ => ?_
      · rintro s' ⟨hs, rfl⟩
        refine ⟨hs, ?_⟩
        cases hold : s₀.cache (addr, st.key) with
        | none => rfl
        | some fn =>
          rw [hs.1 _ fn hold] at hcache
          cases hcache
      · by_cases hnone : s₀.cache (addr, st.key) = none
        · have hhandled : Spec s₀.Kept
              (RaiseM.finally (tryCatch (decodeFunction (reg.resolver (reg.function n)) n reg.rom
                  addr st) fun ex =>
                if ex = .needAssumption (addr, st.key) then
                  fixpoint (decodeFunction (reg.resolver (reg.function n)) n reg.rom addr st)
                    (addr, st.key)
                else throw ex)
                fun s => { s with active := s.active.erase (addr, st.key) })
              (fun fn s => s₀.Kept s ∧ fn.Serves (addr, st.key)) fun _ s => s₀.Kept s := by
            refine Spec.finally (Spec.tryCatch (Y := fun _ s => s₀.Kept s) ?_ fun ex => ?_)
            · exact hdecode.mono (fun _ hs => hs) (fun _ _ hs => hs) fun _ _ hs => hs
            · refine spec_ite (fun _ => ?_) fun _ => spec_throw fun _ hs => hs
              exact (fixpoint_kept hdecode).mono (fun _ hs => hs) (fun _ _ hs => hs)
                fun _ _ hs => hs
          refine Spec.bind (hhandled.mono (fun _ hs => hs.1) (fun _ _ hs => hs) fun _ _ hs => hs)
            fun fn => ?_
          refine Spec.bind (Q := fun _ s => s₀.Kept s ∧ s.cache (addr, st.key) = some fn)
            (spec_modify fun s hs => ⟨hs.1.setCache hnone hs.2, ?_⟩) fun _ =>
              spec_pure fun _ hs => hs
          exact Function.update_self _ _ _
        · exact fun _ hs => absurd hs.2 hnone

end Registry

end CtRecomp
