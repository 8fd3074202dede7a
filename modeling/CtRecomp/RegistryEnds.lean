import CtRecomp.Answers
import CtRecomp.DecodeEnds
import CtRecomp.RegistryKept

namespace CtRecomp

/-! The registry's queries come to an end, and what they end with. -/

section

variable {S : Type} {R R' : Resolver S}

/-- `R'` has the fuel for what `R` has fuel for. -/
structure Resolver.Below (R R' : Resolver S) : Prop where
  missing : R.missing = R'.missing
  resolve : ∀ site target st kind, CtRecomp.Below .outOfFuel (R.resolve site target st kind)
    (R'.resolve site target st kind)
  tail : ∀ site target st,
    CtRecomp.Below .outOfFuel (R.tail site target st) (R'.tail site target st)
  tailRequired : ∀ site target st,
    CtRecomp.Below .outOfFuel (R.tailRequired site target st) (R'.tailRequired site target st)
  jumptables : R.jumptables = R'.jumptables
  tableTargets : R.tableTargets = R'.tableTargets

theorem Resolver.Below.callExits (h : R.Below R') (site target : BitVec 24) (cst : State)
    (kind : CallKind) : CtRecomp.Below .outOfFuel (R.callExits site target cst kind)
      (R'.callExits site target cst kind) := by
  unfold Resolver.callExits
  rw [h.missing]
  exact below_ite (.refl _) ((h.resolve site target cst kind).map.tryCatch (fun _ => rfl)
    fun _ => .refl _)

theorem Resolver.Below.tableCalls (h : R.Below R') (site : BitVec 24) (cst : State)
    (own : Flags) (targets : List (BitVec 24)) : CtRecomp.Below .outOfFuel
      (R.tableCalls site cst own targets) (R'.tableCalls site cst own targets) := by
  induction targets with
  | nil => exact .refl _
  | cons tg targets ih =>
    exact (h.callExits site tg cst .JSR).bind fun found => ih.bind fun rest => .refl _

theorem Resolver.Below.tableJumps (h : R.Below R') (site : BitVec 24) (cst : State)
    (targets : List (BitVec 24)) : CtRecomp.Below .outOfFuel
      (R.tableJumps site cst targets) (R'.tableJumps site cst targets) := by
  induction targets with
  | nil => exact .refl _
  | cons tg targets ih =>
    have hexits : CtRecomp.Below .outOfFuel (R.jumpExits site cst tg) (R'.jumpExits site cst tg) := by
      unfold Resolver.jumpExits
      rw [h.missing]
      exact below_ite (.refl _) (h.tailRequired site tg cst)
    exact hexits.bind fun exits => ih.bind fun rest => .refl _

theorem Resolver.Below.follow (h : R.Below R') (entry : BitVec 24) (st : State) (i : Insn)
    (nxt : State) : CtRecomp.Below .outOfFuel (i.follow R entry st nxt)
      (i.follow R' entry st nxt) := by
  have hcall (kind : CallKind) :
      CtRecomp.Below .outOfFuel (i.followCall R nxt kind) (i.followCall R' nxt kind) :=
    (h.callExits _ _ _ kind).bind fun found => .refl _
  have htable : CtRecomp.Below .outOfFuel (i.followTable R nxt) (i.followTable R' nxt) := by
    unfold Insn.followTable
    rw [h.jumptables, h.tableTargets, h.missing]
    refine below_ite (.refl _) (below_ite (.refl _) (.bind (.refl _) fun targets => ?_))
    exact below_ite ((h.tableJumps _ _ _).bind fun exits => .refl _)
      ((h.tableCalls _ _ _ _).bind fun r => .refl _)
  have hfar : CtRecomp.Below .outOfFuel (i.followFar R nxt) (i.followFar R' nxt) := by
    unfold Insn.followFar
    rw [h.missing]
    exact below_ite (.refl _) ((h.tailRequired _ _ _).bind fun exits => .refl _)
  have hjump : CtRecomp.Below .outOfFuel (i.followJump R entry st nxt)
      (i.followJump R' entry st nxt) :=
    Below.bind (below_ite (.refl _) (h.tail _ _ _)) fun exits => .refl _
  unfold Insn.follow
  split
  all_goals first
    | exact hfar
    | exact hjump
    | exact hcall _
    | exact htable
    | exact .refl _

theorem Resolver.Below.step (h : R.Below R') (mem : Image) (d : Decoding) :
    CtRecomp.Below .outOfFuel (d.step R mem) (d.step R' mem) := by
  unfold Decoding.step
  split
  · exact .refl _
  · exact below_ite (.refl _) (.bind (.refl _) fun i => .bind (.refl _) fun nxt =>
      (h.follow _ _ i nxt).bind fun r => .refl _)

theorem Resolver.Below.run (h : R.Below R') (mem : Image) {n n' : Nat} (hn : n ≤ n')
    (d : Decoding) : CtRecomp.Below .outOfFuel (d.run R mem n) (d.run R' mem n') := by
  induction n generalizing n' d with
  | zero => exact below_throw
  | succ n ih =>
    cases n' with
    | zero => exact absurd hn (Nat.not_succ_le_zero n)
    | succ n' =>
      exact below_ite (.refl _) ((h.step mem d).bind fun d' => ih (Nat.le_of_succ_le_succ hn) d')

theorem Resolver.Below.decodeFunction (h : R.Below R') (mem : Image) (entry : BitVec 24)
    (st : State) {n n' : Nat} (hn : n ≤ n') : CtRecomp.Below .outOfFuel
      (CtRecomp.decodeFunction R n mem entry st) (CtRecomp.decodeFunction R' n' mem entry st) :=
  (h.run mem hn _).bind fun _ => .refl _

end

namespace Registry

variable {reg : Registry} {function function' : BitVec 24 → State → RegM Func}

theorem exitStates_below (h : ∀ addr st, Below .outOfFuel (function addr st) (function' addr st))
    (target : BitVec 24) (st : State) :
    Below .outOfFuel (exitStates function target st) (exitStates function' target st) := by
  refine Below.bind (.refl _) fun s => ?_
  split
  · exact .refl _
  · exact (h target st).bind fun fn => .refl _

theorem resolver_below (h : ∀ addr st, Below .outOfFuel (function addr st) (function' addr st)) :
    (reg.resolver function).Below (reg.resolver function') := by
  have htail (site target : BitVec 24) (st : State) :
      Below .outOfFuel (reg.tail function site target st) (reg.tail function' site target st) := by
    unfold Registry.tail
    split
    · exact .refl _
    · exact below_ite (exitStates_below h target st).map (.refl _)
  refine ⟨rfl, fun site target st kind => ?_, htail, fun site target st => ?_, rfl, rfl⟩
  · change Below _ (reg.resolve function site target st kind)
      (reg.resolve function' site target st kind)
    unfold Registry.resolve
    split
    · exact .refl _
    · exact below_ite ((exitStates_below h target st).bind fun exits => .refl _) (.refl _)
  · exact (htail site target st).bind fun exits => .refl _

theorem fixpoint_below {decode decode' : RegM Func} (h : Below .outOfFuel decode decode')
    (key : Key) : Below .outOfFuel (fixpoint decode key) (fixpoint decode' key) := by
  have hrounds (n : Nat) : Below .outOfFuel (rounds decode key n) (rounds decode' key n) := by
    induction n with
    | zero => exact .refl _
    | succ n ih =>
      exact Below.bind (.refl _) fun s => h.bind fun fn => Below.bind (.refl _) fun s' =>
        below_ite (.refl _) (Below.bind (.refl _) fun _ => ih)
  exact Below.bind (.refl _) fun _ => (hrounds 16).finally

/-- More fuel changes nothing where there was enough. -/
theorem function_below {n n' : Nat} (hn : n ≤ n') (addr : BitVec 24) (st : State) :
    Below .outOfFuel (reg.function n addr st) (reg.function n' addr st) := by
  induction n generalizing n' addr st with
  | zero => exact below_throw
  | succ n ih =>
    cases n' with
    | zero => exact absurd hn (Nat.not_succ_le_zero n)
    | succ n' =>
      have hle := Nat.le_of_succ_le_succ hn
      have hR : (reg.resolver (reg.function n)).Below (reg.resolver (reg.function n')) :=
        resolver_below fun addr st => ih hle addr st
      have hdecode := hR.decodeFunction reg.rom addr st hle
      refine Below.bind (.refl _) fun s => ?_
      split
      · exact .refl _
      · refine below_ite (.refl _) (Below.bind (.refl _) fun _ => ?_)
        refine Below.bind (Below.finally (hdecode.tryCatch (fun _ => rfl) fun ex => ?_))
          fun fn => .refl _
        exact below_ite (fixpoint_below hdecode _) (.refl _)

/-! What a query raises. -/

theorem exitStates_decodes {I : RegState → Prop}
    (hf : ∀ addr st, Decodes I (function addr st) fun _ => True) (target : BitVec 24)
    (st : State) : Decodes I (exitStates function target st) fun _ => True := by
  refine Spec.bind (Q := fun _ s => I s) (spec_get fun _ hs => hs) fun s => ?_
  split
  · exact decodes_pure trivial
  · exact (hf target st).bind fun fn _ => decodes_pure trivial

theorem registered_known {target : BitVec 24} {st : State} (h : reg.registered target st = true) :
    Flags.known (st.m, st.x) = true := by
  unfold registered at h
  split at h
  · obtain ⟨mx, -, hmx⟩ := List.any_eq_true.mp h
    obtain ⟨hm, hx⟩ := Bool.and_eq_true_iff.mp hmx
    unfold Flags.known
    rw [of_decide_eq_true hm, of_decide_eq_true hx]
    rfl
  · cases h

theorem callResult_known {site target : BitVec 24} {kind : CallKind} {exits : Finset ExitState}
    {found : Finset Flags} (h : callResult site target kind exits = .ok found) :
    ∀ p ∈ found, p.known = true := by
  unfold callResult at h
  generalize (if kind = CallKind.JSR then Mnemonic.RTS else .RTL) = ret at h
  dsimp only at h
  split at h
  · cases h
  next hknown =>
    split at h
    · cases h
    · cases h
      intro p hp
      obtain ⟨e, he, rfl⟩ := Finset.mem_image.mp hp
      have hboth := fun hnone => hknown ⟨e, he, hnone⟩
      unfold Flags.known
      rw [Bool.and_eq_true_iff, Option.isSome_iff_ne_none, Option.isSome_iff_ne_none]
      exact ⟨fun hm => hboth (.inl hm), fun hx => hboth (.inr hx)⟩

theorem callResult_caught {site target : BitVec 24} {kind : CallKind} {exits : Finset ExitState}
    {e : DecodeError} (h : callResult site target kind exits = .error e) : e.caught = true := by
  unfold callResult at h
  generalize (if kind = CallKind.JSR then Mnemonic.RTS else .RTL) = ret at h
  dsimp only at h
  split at h
  · cases h
    rfl
  · split at h
    · cases h
      rfl
    · cases h

theorem tableTargets_caught (i : Insn) (e : DecodeError) (h : reg.tableTargets i = .error e) :
    e.caught = true := by
  unfold tableTargets at h
  split at h
  · cases h
    rfl
  · obtain ⟨k, -, hk⟩ := Loop.mapM_error h
    dsimp only at hk
    split at hk
    · cases hk
    · cases hk
      rfl

theorem resolver_decodes {I : RegState → Prop}
    (hf : ∀ addr st, Decodes I (function addr st) fun _ => True) :
    (reg.resolver function).Decodes I := by
  have htail (site target : BitVec 24) (st : State) :
      Decodes I (reg.tail function site target st) fun _ => True := by
    unfold Registry.tail
    split
    · exact spec_ite (fun _ => decodes_throw rfl) fun _ => decodes_pure trivial
    · exact spec_ite (fun _ => (exitStates_decodes hf target st).map fun _ _ hs => hs)
        fun _ => decodes_pure trivial
  refine ⟨fun site target st kind => ?_, htail, fun site target st => ?_, tableTargets_caught⟩
  · change Decodes I (reg.resolve function site target st kind) _
    unfold Registry.resolve
    split
    next ext _ =>
      refine spec_ite (fun _ => decodes_throw rfl) fun _ => decodes_pure ?_
      cases ext.noreturn with
      | true => exact fits_none _
      | false => exact fits_own _
    next =>
      refine spec_ite (fun hreg => ?_) fun _ => decodes_throw rfl
      refine (exitStates_decodes hf target st).bind fun exits _ => ?_
      refine decodes_raised (fun found hfound p hp => ?_) fun _ => callResult_caught
      exact .inr ⟨registered_known hreg, callResult_known hfound p hp⟩
  · refine (htail site target st).bind fun exits _ => ?_
    cases exits with
    | some e => exact decodes_pure trivial
    | none => exact decodes_throw rfl

theorem fixpoint_decodes {A : List Key} {decode : RegM Func}
    (hd : Decodes (fun s => s.active = A) decode fun _ => True) (key : Key) :
    Decodes (fun s => s.active = A) (fixpoint decode key) fun _ => True := by
  have hrounds (n : Nat) : Decodes (fun s => s.active = A) (rounds decode key n) fun _ => True := by
    induction n with
    | zero => exact decodes_throw rfl
    | succ n ih =>
      refine Spec.bind (Q := fun _ s => s.active = A) (spec_get fun _ hs => hs) fun before => ?_
      refine hd.bind fun fn _ => ?_
      refine Spec.bind (Q := fun _ s => s.active = A) (spec_get fun _ hs => hs) fun s => ?_
      refine spec_ite (fun _ => decodes_pure trivial) fun _ => ?_
      exact Spec.bind (Q := fun _ s => s.active = A) (spec_modify fun _ hs => hs) fun _ => ih
  refine Spec.bind (Q := fun _ s => s.active = A) (spec_modify fun _ hs => hs) fun _ => ?_
  exact Spec.finally (hrounds 16)

/-- Each query in progress holds a key of its own: with fuel for those left it ends. -/
theorem function_decodes {N : Nat} (hN : ∀ keys : List Key, fresh keys ≤ N) {A : List Key}
    {n : Nat} (hn : 10 * N + 1 + fresh A < n) (addr : BitVec 24) (st : State) :
    Decodes (fun s => s.active = A) (reg.function n addr st) fun _ => True := by
  induction n generalizing A addr st with
  | zero => exact absurd hn (Nat.not_lt_zero _)
  | succ n ih =>
    refine Spec.bind (Q := fun s s' => s'.active = A ∧ s' = s) (spec_get fun s hs => ⟨hs, rfl⟩)
      fun s => ?_
    split
    · exact spec_pure fun _ hs => ⟨hs.1, trivial⟩
    · refine spec_ite (fun _ => spec_throw fun _ hs => ⟨hs.1, rfl⟩) fun hnot => ?_
      by_cases hkey : (addr, st.key) ∈ A
      · exact fun s' hs => absurd (hs.2 ▸ hs.1 ▸ hkey) hnot
      have hless : fresh ((addr, st.key) :: A) < fresh A := fresh_cons hkey
      have hR : (reg.resolver (reg.function n)).Decodes fun s => s.active = (addr, st.key) :: A :=
        resolver_decodes fun addr' st' => ih (by omega) addr' st'
      have hdecode := hR.decodeFunction reg.rom addr st hN (n := n) (by omega)
      refine Spec.bind (Q := fun _ s => s.active = (addr, st.key) :: A)
        (spec_modify fun s' hs => congrArg _ hs.1) fun _ => ?_
      refine Spec.bind (Q := fun _ s => s.active = A) ?_ fun fn =>
        Spec.bind (Q := fun _ s => s.active = A) (spec_modify fun _ hs => hs) fun _ =>
          decodes_pure trivial
      refine Spec.finally (Spec.tryCatch (Spec.mono hdecode (fun _ hs => hs) (fun fn s hs => ?_)
        fun _ _ he => he) fun ex => ?_)
      · change s.active.erase (addr, st.key) = A
        rw [hs.1, List.erase_cons_head]
      · refine spec_ite (fun _ => ?_) fun _ => spec_throw fun s he => ⟨?_, he.2⟩
        · refine Spec.mono (fixpoint_decodes hdecode _) (fun _ hs => hs.1) (fun fn s hs => ?_)
            fun e s he => ⟨?_, he.2⟩
          · change s.active.erase (addr, st.key) = A
            rw [hs.1, List.erase_cons_head]
          · change s.active.erase (addr, st.key) = A
            rw [he.1, List.erase_cons_head]
        · change s.active.erase (addr, st.key) = A
          rw [he.1, List.erase_cons_head]

/-! What is assumed while a query runs. -/

abbrev Assuming (A : Key → Option (Finset ExitState)) (s : RegState) : Prop := s.assume = A

theorem decodeFunction_keeps {S : Type} {R : Resolver S} {I : S → Prop} (h : R.Keeps I) (n : Nat)
    (mem : Image) (entry : BitVec 24) (st : State) : Keeps I (decodeFunction R n mem entry st) :=
  (decodeFunction_decoded h (P := fun _ _ => True) (fun _ _ _ _ _ => trivial) trivial n).post
    fun _ _ hs => hs.1

/-- Only of what is not assumed does it ask. -/
theorem exitStates_assuming {A : Key → Option (Finset ExitState)}
    (hf : ∀ addr st, A (addr, st.key) = none → Keeps (Assuming A) (function addr st))
    (target : BitVec 24) (st : State) : Keeps (Assuming A) (exitStates function target st) := by
  refine Spec.bind (Q := fun s s' => Assuming A s' ∧ s' = s) (spec_get fun s hs => ⟨hs, rfl⟩)
    fun s => ?_
  split
  · exact spec_pure fun _ hs => hs.1
  case h_2 hnone =>
    by_cases hA : A (target, st.key) = none
    · exact ((hf target st hA).mono (fun _ hs => hs.1) (fun _ _ hs => hs) fun _ _ hs => hs).bind
        fun fn => keeps_pure _
    · exact fun s' hs => absurd (congrFun hs.1 _ ▸ hs.2 ▸ hnone) hA

section

variable {A : Key → Option (Finset ExitState)} {decode : RegM Func} {key : Key}

/-- Rounds change what is assumed of the key, and end where it is what comes out. -/
theorem rounds_assuming (hd : ∀ exits, Keeps (Assuming (Function.update A key (some exits))) decode)
    (n : Nat) :
    Spec (fun s => ∃ exits, Assuming (Function.update A key (some exits)) s) (rounds decode key n)
      (fun fn s => (∃ exits, Assuming (Function.update A key (some exits)) s) ∧
        ∃ s₁ s₂, s₁.assume key = some fn.exitStates ∧ decode s₁ = (.ok fn, s₂))
      fun _ s => ∃ exits, Assuming (Function.update A key (some exits)) s := by
  induction n with
  | zero => exact spec_throw fun _ hs => hs
  | succ n ih =>
    refine Spec.bind (Q := fun _ s => ∃ exits, Assuming (Function.update A key (some exits)) s)
      (spec_get fun _ hs => hs) fun before => ?_
    refine Spec.bind (Q := fun fn s => ∃ exits, Assuming (Function.update A key (some exits)) s ∧
      ∃ s₁ s₂, s₁.assume key = some exits ∧ decode s₁ = (.ok fn, s₂)) (spec_of_run ?_ ?_)
      fun fn => ?_
    · rintro s s' fn ⟨exits, hs⟩ hrun
      refine ⟨exits, (hd exits).ok hs hrun, s, s', ?_, hrun⟩
      rw [hs, Function.update_self]
    · rintro s s' e ⟨exits, hs⟩ hrun
      exact ⟨exits, (hd exits).error hs hrun⟩
    refine Spec.bind (Q := fun r s => r = s ∧ ∃ exits,
      Assuming (Function.update A key (some exits)) s ∧
        ∃ s₁ s₂, s₁.assume key = some exits ∧ decode s₁ = (.ok fn, s₂))
      (spec_get fun _ hs => ⟨rfl, hs⟩) fun r => ?_
    refine spec_ite (fun hsame => spec_pure ?_) fun _ => ?_
    · rintro s ⟨rfl, exits, hs, s₁, s₂, hassumed, hrun⟩
      rw [hs, Function.update_self] at hsame
      exact ⟨⟨exits, hs⟩, s₁, s₂, hassumed.trans hsame, hrun⟩
    · refine Spec.bind (Q := fun _ s => ∃ exits, Assuming (Function.update A key (some exits)) s)
        (spec_modify ?_) fun _ => ih
      rintro s ⟨rfl, exits, hs, -⟩
      refine ⟨fn.exitStates, ?_⟩
      change Function.update r.assume key _ = _
      rw [hs, Function.update_idem]

theorem fixpoint_assuming (hd : ∀ exits, Keeps (Assuming (Function.update A key (some exits))) decode)
    (hnone : A key = none) : Keeps (Assuming A) (fixpoint decode key) := by
  have hback {s : RegState} (hs : ∃ exits, Assuming (Function.update A key (some exits)) s) :
      Assuming A (s.setAssume key none) := by
    obtain ⟨exits, hs⟩ := hs
    change Function.update s.assume key none = A
    rw [hs, Function.update_idem, ← hnone, Function.update_eq_self]
  refine Spec.bind (Q := fun _ s => ∃ exits, Assuming (Function.update A key (some exits)) s)
    (spec_modify fun s hs => ⟨∅, congrArg (fun a => Function.update a key _) hs⟩) fun _ => ?_
  exact Spec.finally ((rounds_assuming hd 16).mono (fun _ hs => hs) (fun _ _ hs => hback hs.1)
    fun _ _ hs => hback hs)

/-- It returns what it found under the assumption that it found. -/
theorem fixpoint_result (hd : ∀ A, Keeps (Assuming A) decode) {s s' : RegState} {fn : Func}
    (h : fixpoint decode key s = (.ok fn, s')) :
    ∃ s₁ s₂, s₁.assume key = some fn.exitStates ∧ decode s₁ = (.ok fn, s₂) := by
  have hfixed : Spec (Assuming s.assume) (fixpoint decode key)
      (fun fn _ => ∃ s₁ s₂, s₁.assume key = some fn.exitStates ∧ decode s₁ = (.ok fn, s₂))
      fun _ _ => True := by
    refine Spec.bind
      (Q := fun _ t => ∃ exits, Assuming (Function.update s.assume key (some exits)) t)
      (spec_modify fun t ht => ⟨∅, congrArg (fun a => Function.update a key _) ht⟩) fun _ => ?_
    exact Spec.finally ((rounds_assuming (fun _ => hd _) 16).mono (fun _ hs => hs)
      (fun _ _ hs => hs.2) fun _ _ _ => trivial)
  exact hfixed.ok rfl h

end

theorem function_assuming {n : Nat} {A : Key → Option (Finset ExitState)} {addr : BitVec 24}
    {st : State} (hA : A (addr, st.key) = none) :
    Keeps (Assuming A) (reg.function n addr st) := by
  induction n generalizing A addr st with
  | zero => exact keeps_throw _
  | succ n ih =>
    have hdecode (A : Key → Option (Finset ExitState)) :
        Keeps (Assuming A) (decodeFunction (reg.resolver (reg.function n)) n reg.rom addr st) :=
      decodeFunction_keeps (resolver_keeps_of (exitStates_assuming fun _ _ hA => ih hA)) n _ _ _
    refine Spec.bind (Q := fun _ s => Assuming A s) (spec_get fun _ hs => hs) fun s => ?_
    split
    · exact keeps_pure _
    · refine spec_ite (fun _ => keeps_throw _) fun _ => ?_
      refine Spec.bind (Q := fun _ s => Assuming A s) (spec_modify fun _ hs => hs) fun _ => ?_
      refine Spec.bind (Q := fun _ s => Assuming A s) ?_ fun fn =>
        Spec.bind (Q := fun _ s => Assuming A s) (spec_modify fun _ hs => hs) fun _ => keeps_pure _
      refine Spec.finally (Spec.tryCatch (hdecode A) fun ex => ?_)
      exact spec_ite (fun _ => fixpoint_assuming (fun _ => hdecode _) hA) fun _ => keeps_throw _

/-- A query's answer, the same for any fuel from some on. -/
theorem function_settles (reg : Registry) (addr : BitVec 24) (st : State) (s : RegState) :
    ∃ N r s', (∀ n ≥ N, reg.function n addr st s = (r, s')) ∧
      ((∃ fn, r = .ok fn) ∨ ∃ e, r = .error e ∧ e.caught = true) := by
  obtain ⟨N, hN⟩ : ∃ N, ∀ keys : List Key, fresh keys ≤ N := fresh_bounded
  have hdecodes : Decodes (fun s' => s'.active = s.active)
      (reg.function (10 * N + 1 + fresh s.active + 1) addr st) fun _ => True :=
    function_decodes hN (Nat.lt_succ_self _) addr st
  match hrun : reg.function (10 * N + 1 + fresh s.active + 1) addr st s with
  | (r, s') =>
    have hresult : (∃ fn, r = .ok fn) ∨ ∃ e, r = .error e ∧ e.caught = true := by
      cases r with
      | ok fn => exact .inl ⟨fn, rfl⟩
      | error e => exact .inr ⟨e, rfl, (hdecodes.error rfl hrun).2⟩
    refine ⟨10 * N + 1 + fresh s.active + 1, r, s', fun n hn => ?_, hresult⟩
    refine ((function_below hn addr st).enough ?_).trans hrun
    rw [hrun]
    rcases hresult with ⟨fn, rfl⟩ | ⟨e, rfl, hcaught⟩
    · exact nofun
    · rintro ⟨rfl⟩
      cases hcaught

/-- A query returns a function or raises a `DecodeError`, with the same for any fuel from some on;
what a recursive routine is returned with is what it was assumed to return with. -/
theorem function_ends (reg : Registry) (addr : BitVec 24) (st : State) (s : RegState) :
    (∃ N r s', (∀ n ≥ N, reg.function n addr st s = (r, s')) ∧
      ((∃ fn, r = .ok fn) ∨ ∃ e, r = .error e ∧ e.caught = true)) ∧
    ∀ n fn s', fixpoint (decodeFunction (reg.resolver (reg.function n)) n reg.rom addr st)
        (addr, st.key) s = (.ok fn, s') →
      ∃ s₁ s₂, s₁.assume (addr, st.key) = some fn.exitStates ∧
        decodeFunction (reg.resolver (reg.function n)) n reg.rom addr st s₁ = (.ok fn, s₂) := by
  constructor
  · exact function_settles reg addr st s
  · intro n fn s' h
    exact fixpoint_result (fun A => decodeFunction_keeps
      (resolver_keeps_of (exitStates_assuming fun _ _ hA => function_assuming hA)) n _ _ _) h

end Registry

section

variable {reg : Registry}

theorem function_answers (addr : BitVec 24) (st : State) :
    Answers .outOfFuel fun n => reg.function n addr st where
  grows hn := Registry.function_below hn addr st
  enough s := by
    obtain ⟨N, r, s', hN, hr⟩ := Registry.function_settles reg addr st s
    refine ⟨N, ?_⟩
    rw [hN N (Nat.le_refl N)]
    rcases hr with ⟨fn, rfl⟩ | ⟨e, rfl, he⟩
    · exact nofun
    · rintro ⟨rfl⟩
      cases he

/-- What it raises is caught. -/
theorem function_raises (n : Nat) (addr : BitVec 24) (st : State) :
    Spec (fun _ => True) (reg.function n addr st) (fun _ _ => True)
      fun e _ => e = .outOfFuel ∨ e.caught = true := by
  refine spec_of_run (fun _ _ _ _ _ => trivial) fun s s' e _ hrun => ?_
  refine Classical.or_iff_not_imp_left.mpr fun he => ?_
  obtain ⟨N, r, s'', hN, hr⟩ := Registry.function_settles reg addr st s
  have hsame := Registry.function_below (Nat.le_max_left n N) addr st |>.enough (s := s) (by
    rw [hrun]
    exact fun h => he (Except.error.inj h))
  rw [hN _ (Nat.le_max_right n N), hrun] at hsame
  obtain ⟨rfl, -⟩ := Prod.mk.inj hsame
  rcases hr with ⟨fn, hfn⟩ | ⟨e', he', hcaught⟩
  · cases hfn
  · cases he'
    exact hcaught

end

end CtRecomp
