import Mathlib.Data.Fintype.Prod
import Mathlib.Data.Fintype.Option
import CtRecomp.Decoded

namespace CtRecomp

/-! The worklist is bounded, and what the decoder raises is a `DecodeError`. -/

section

variable {S α β : Type} {I : S → Prop}

/-- `m` keeps `I`, and raises nothing that `except DecodeError` lets pass. -/
abbrev Decodes (I : S → Prop) (m : DecM S α) (Q : α → Prop) : Prop :=
  Spec I m (fun a s => I s ∧ Q a) fun e s => I s ∧ e.caught = true

variable {m : DecM S α} {Q : α → Prop}

theorem decodes_pure {a : α} (h : Q a) : Decodes I (pure a) Q := spec_pure fun _ hs => ⟨hs, h⟩

theorem decodes_throw {e : DecodeError} (he : e.caught = true) :
    Decodes I (throw e : DecM S α) Q := spec_throw fun _ hs => ⟨hs, he⟩

theorem decodes_raised {r : Except DecodeError α} (hok : ∀ a, r = .ok a → Q a)
    (herror : ∀ e, r = .error e → e.caught = true) : Decodes I (raised r) Q := by
  cases r with
  | ok a => exact decodes_pure (hok a rfl)
  | error e => exact decodes_throw (herror e rfl)

theorem Decodes.bind {f : α → DecM S β} {Q' : β → Prop} (h : Decodes I m Q)
    (hf : ∀ a, Q a → Decodes I (f a) Q') : Decodes I (m >>= f) Q' := by
  refine Spec.bind h fun a => ?_
  exact spec_of_run (fun _ _ _ hs hrun => (hf a hs.2).ok hs.1 hrun)
    fun _ _ _ hs hrun => (hf a hs.2).error hs.1 hrun

end

/-! States a call may come back in are comparable. -/

abbrev Flags := Option Bool × Option Bool

def Flags.known (p : Flags) : Bool := p.1.isSome && p.2.isSome

/-- Unknown in one way only: the caller's own. -/
def Fits (own : Flags) (exits : Finset Flags) : Prop :=
  ∀ p ∈ exits, p = own ∨ own.known = true ∧ p.known = true

theorem fits_none (own : Flags) : Fits own ∅ := nofun

theorem fits_own (own : Flags) : Fits own {own} := fun _ hp => .inl (Finset.mem_singleton.mp hp)

theorem Fits.union {own : Flags} {exits exits' : Finset Flags} (h : Fits own exits)
    (h' : Fits own exits') : Fits own (exits ∪ exits') := fun p hp =>
  (Finset.mem_union.mp hp).elim (h p) (h' p)

theorem ordered_known {p q : Flags} (hp : p.known = true) (hq : q.known = true) :
    ordered p q = true := by
  obtain ⟨hp₁, hp₂⟩ := Bool.and_eq_true_iff.mp hp
  obtain ⟨hq₁, hq₂⟩ := Bool.and_eq_true_iff.mp hq
  unfold ordered
  split
  · rw [hp₂, hq₂]
    rfl
  · rw [hp₁, hq₁]
    rfl

theorem sortedExits_ok {own : Flags} {exits : Finset Flags} (h : Fits own exits)
    (site : BitVec 24) : ∃ sorted, sortedExits site exits = .ok sorted := by
  unfold sortedExits
  have hnodup : (([none, some false, some true] : List (Option Bool)).product
      [none, some false, some true]).Nodup := by decide
  have hdistinct := (hnodup.filter (· ∈ exits)).imp_of_mem (S := fun p q => ordered p q = true)
    fun {p q} hp hq hne => by
      have hp' := of_decide_eq_true (List.mem_filter.mp hp).2
      have hq' := of_decide_eq_true (List.mem_filter.mp hq).2
      rcases h p hp' with rfl | ⟨hown, hpk⟩
      · rcases h q hq' with rfl | ⟨hok, hqk⟩
        · exact absurd rfl hne
        · exact ordered_known hok hqk
      · rcases h q hq' with rfl | ⟨-, hqk⟩
        · exact ordered_known hpk hown
        · exact ordered_known hpk hqk
  exact ⟨_, if_pos hdistinct⟩

theorem sortedExits_length {site : BitVec 24} {exits : Finset Flags} {sorted : List Flags}
    (h : sortedExits site exits = .ok sorted) : sorted.length ≤ 9 := by
  unfold sortedExits at h
  dsimp only at h
  split at h
  · cases h
    exact Nat.le_trans (List.length_filter_le _ _) (by decide)
  · cases h

theorem continueCall_ok {own : Flags} {exits : Finset Flags} (h : Fits own exits) (a : Added)
    (i : Insn) (nxt : State) : ∃ r, a.continueCall i nxt exits = .ok r := by
  obtain ⟨sorted, hsorted⟩ := sortedExits_ok h i.addr
  unfold Added.continueCall
  rw [hsorted]
  match sorted with
  | [] => exact ⟨_, rfl⟩
  | mx :: rest => exact ⟨_, rfl⟩

section

variable {S : Type} {R : Resolver S} {I : S → Prop}

/-- What a resolver raises is caught, and what it returns can be sorted. -/
structure Resolver.Decodes (R : Resolver S) (I : S → Prop) : Prop where
  resolve : ∀ site target st kind,
    CtRecomp.Decodes I (R.resolve site target st kind) (Fits (st.m, st.x))
  tail : ∀ site target st, CtRecomp.Decodes I (R.tail site target st) fun _ => True
  tailRequired : ∀ site target st, CtRecomp.Decodes I (R.tailRequired site target st) fun _ => True
  tables : ∀ i e, R.tableTargets i = .error e → e.caught = true

theorem decodeInsn_caught {mem : Image} {addr : BitVec 24} {st : State} {e : DecodeError}
    (h : decodeInsn mem addr st = .error e) : e.caught = true := by
  unfold decodeInsn at h
  split at h
  · cases h
    rfl
  · dsimp only at h
    split at h
    · cases h
      rfl
    · split at h
      · cases h
        rfl
      · cases h

theorem stackSize_caught {kind : StackKind} {st : State} {addr : BitVec 24} {e : DecodeError}
    (h : stackSize kind st addr = .error e) : e.caught = true := by
  cases kind with
  | m | x =>
    unfold stackSize at h
    dsimp only at h
    split at h
    · cases h
      rfl
    · cases h
  | bytes n => cases h

theorem nextState_caught {i : Insn} {st : State} {e : DecodeError}
    (h : nextState i st = .error e) : e.caught = true := by
  unfold nextState at h
  cases hn : nextState' i st with
  | ok nxt =>
    rw [hn] at h
    cases h
  | error e' =>
    rw [hn] at h
    cases h
    unfold nextState' at hn
    split at hn
    · cases hn
    · cases hn
    · split at hn
      · cases hn
        rfl
      · cases hn
        rfl
      · cases hn
    · split at hn
      next kind _ =>
        cases hsize : stackSize kind st i.addr with
        | ok size =>
          rw [hsize] at hn
          cases hn
        | error e' =>
          rw [hsize] at hn
          cases hn
          exact stackSize_caught hsize
      next kind _ _ =>
        cases hsize : stackSize kind st i.addr with
        | ok size =>
          rw [hsize] at hn
          cases hn
        | error e' =>
          rw [hsize] at hn
          cases hn
          exact stackSize_caught hsize
      next => cases hn

theorem Resolver.Decodes.callExits (h : R.Decodes I) (site target : BitVec 24) (cst : State)
    (kind : CallKind) : CtRecomp.Decodes I (R.callExits site target cst kind)
      fun found => ∀ exits, found = some exits → Fits (cst.m, cst.x) exits := by
  refine spec_ite (fun _ => decodes_pure nofun) fun _ => ?_
  refine Spec.tryCatch ((h.resolve site target cst kind).map fun exits s hs => ⟨hs.1, ?_⟩)
    fun ex => ?_
  · rintro _ ⟨rfl⟩
    exact hs.2
  · split
    · exact spec_pure fun s hs => ⟨hs.1, nofun⟩
    · exact spec_throw fun s hs => hs

theorem Resolver.Decodes.tableCalls (h : R.Decodes I) (site : BitVec 24) (cst : State)
    (targets : List (BitVec 24)) :
    CtRecomp.Decodes I (R.tableCalls site cst (cst.m, cst.x) targets)
      fun r => Fits (cst.m, cst.x) r.1 := by
  induction targets with
  | nil => exact decodes_pure (fits_none _)
  | cons tg targets ih =>
    refine (h.callExits site tg cst .JSR).bind fun found hfound => ih.bind fun rest hrest => ?_
    cases found with
    | some exits => exact decodes_pure ((hfound exits rfl).union hrest)
    | none => exact decodes_pure ((fits_own _).union hrest)

theorem Resolver.Decodes.tableJumps (h : R.Decodes I) (site : BitVec 24) (cst : State)
    (targets : List (BitVec 24)) :
    CtRecomp.Decodes I (R.tableJumps site cst targets) fun _ => True := by
  induction targets with
  | nil => exact decodes_pure trivial
  | cons tg targets ih =>
    have hexits : CtRecomp.Decodes I (R.jumpExits site cst tg) fun _ => True :=
      spec_ite (fun _ => decodes_pure trivial) fun _ => h.tailRequired site tg cst
    exact hexits.bind fun exits _ => ih.bind fun rest _ => decodes_pure trivial

/-- A call's exits can be sorted: it raises nothing of its own. -/
theorem decodes_continueCall {own : Flags} {exits : Finset Flags} (h : Fits own exits) (a : Added)
    (i : Insn) (nxt : State) :
    Decodes I (raised (a.continueCall i nxt exits) : DecM S (Added × Paths)) fun _ => True := by
  obtain ⟨r, hr⟩ := continueCall_ok h a i nxt
  rw [hr]
  exact decodes_pure trivial

theorem Resolver.Decodes.follow (h : R.Decodes I) (entry : BitVec 24) (st : State) (i : Insn)
    (nxt : State) : CtRecomp.Decodes I (i.follow R entry st nxt) fun _ => True := by
  have hcall (kind : CallKind) : CtRecomp.Decodes I (i.followCall R nxt kind) fun _ => True := by
    refine (h.callExits _ _ _ kind).bind fun found hfound => ?_
    cases found with
    | some exits => exact decodes_continueCall (hfound exits rfl) _ _ _
    | none => exact decodes_continueCall (fits_own _) _ _ _
  have htable : CtRecomp.Decodes I (i.followTable R nxt) fun _ => True := by
    refine spec_ite (fun _ => decodes_throw rfl) fun _ => spec_ite (fun _ => ?_) fun _ => ?_
    · exact spec_ite (fun _ => decodes_pure trivial) fun _ =>
        decodes_continueCall (fits_own _) _ _ _
    · have htargets : CtRecomp.Decodes I (raised (R.tableTargets i) : DecM S _) fun _ => True :=
        decodes_raised (fun _ _ => trivial) (h.tables i)
      refine htargets.bind fun targets _ => spec_ite (fun _ => ?_) fun _ => ?_
      · exact (h.tableJumps _ _ _).bind fun exits _ => decodes_pure trivial
      · exact (h.tableCalls i.addr nxt.atEntry _).bind fun r hr => decodes_continueCall hr _ _ _
  have hfar : CtRecomp.Decodes I (i.followFar R nxt) fun _ => True :=
    spec_ite (fun _ => decodes_pure trivial) fun _ =>
      (h.tailRequired _ _ _).bind fun exits _ => decodes_pure trivial
  have hjump : CtRecomp.Decodes I (i.followJump R entry st nxt) fun _ => True := by
    have hexits : CtRecomp.Decodes I (i.tailExits R entry st nxt.atEntry) fun _ => True :=
      spec_ite (fun _ => decodes_pure trivial) fun _ => h.tail _ _ _
    refine hexits.bind fun exits _ => ?_
    cases exits with
    | some e => exact decodes_pure trivial
    | none => exact decodes_pure trivial
  unfold Insn.follow
  split
  all_goals first
    | exact decodes_pure trivial
    | exact decodes_throw rfl
    | exact hfar
    | exact hjump
    | exact hcall _
    | exact htable

end

/-! Keys are finitely many. -/

instance bitVecFintype {w : Nat} : Fintype (BitVec w) :=
  .ofEquiv (Fin (2 ^ w)) ⟨BitVec.ofFin, BitVec.toFin, fun _ => rfl, fun _ => rfl⟩

section

variable {κ : Type} [Fintype κ] [DecidableEq κ]

/-- How many are not among these. -/
@[irreducible] def fresh (seen : List κ) : Nat := (Finset.univ.filter (· ∉ seen)).card

theorem fresh_bounded : ∃ N, ∀ seen : List κ, fresh seen ≤ N := by
  refine ⟨Fintype.card κ, fun seen => ?_⟩
  unfold fresh
  exact Finset.card_le_univ _

theorem fresh_cons {seen : List κ} {k : κ} (h : k ∉ seen) : fresh (k :: seen) < fresh seen := by
  unfold fresh
  refine Finset.card_lt_card (Finset.ssubset_iff_of_subset (fun j hj => ?_) |>.mpr ⟨k, ?_, ?_⟩)
  · have hnot := (Finset.mem_filter.mp hj).2
    exact Finset.mem_filter.mpr ⟨Finset.mem_univ j, List.not_mem_of_not_mem_cons hnot⟩
  · exact Finset.mem_filter.mpr ⟨Finset.mem_univ k, h⟩
  · simp

end

section

variable {S : Type} {R : Resolver S} {I : S → Prop}

/-- An instruction goes on in nine states at most: M and X are known or unknown. -/
theorem Insn.Follows.next_length {i : Insn} {nxt : State} {r : Added × Paths}
    (h : i.Follows nxt r) : r.2.length ≤ 9 := by
  have hcall {a : Added} {exits : Finset Flags} (hr : a.continueCall i nxt exits = .ok r) :
      r.2.length ≤ 9 := by
    obtain ⟨sorted, hsorted, hback⟩ := continueCall_cases hr
    have hfew := sortedExits_length hsorted
    cases hback with
    | never => exact Nat.zero_le _
    | one mx => exact hfew
    | several mx mx' rest => simpa using hfew
  cases h with
  | call _ hr | interpCall _ hr | dynCall _ hr | tableCall _ hr => exact hcall hr
  | ret | branch | always | tail | interpTail | jump | dynJump | tableJump | stop | plain =>
    simp

/-- Instructions left, each with its paths, and the paths noted. -/
def Decoding.left (d : Decoding) : Nat := 10 * fresh d.seen + d.work.length

theorem Resolver.Decodes.step (h : R.Decodes I) (mem : Image) {d : Decoding} (hd : d.work ≠ []) :
    CtRecomp.Decodes I (d.step R mem) fun d' => d'.left < d.left := by
  unfold Decoding.step
  split
  case h_1 hwork => exact absurd hwork hd
  case h_2 addr cur work hwork =>
    have hlength : d.work.length = work.length + 1 := by rw [hwork]; rfl
    refine spec_ite (fun _ => decodes_pure ?_) fun hnew => ?_
    · unfold Decoding.left
      dsimp only
      omega
    · refine Decodes.bind (Q := fun i => decodeInsn mem addr cur = .ok i)
        (decodes_raised (fun _ hi => hi) fun _ => decodeInsn_caught) fun i hi => ?_
      refine Decodes.bind (Q := fun _ => True)
        (decodes_raised (fun _ _ => trivial) fun _ => nextState_caught) fun nxt _ => ?_
      have hfollow : CtRecomp.Decodes I (i.follow R d.fn.entry d.fn.state nxt)
          fun r => r.2.length ≤ 9 :=
        (h.follow _ _ i nxt).remember.mono (fun _ hs => hs)
          (fun r s ⟨hs, s₀, _, hrun⟩ => ⟨hs.1,
            Insn.Follows.next_length ((follow_cases R nxt _ _ i).ok trivial hrun)⟩)
          fun _ _ he => he
      refine hfollow.bind fun r hr => decodes_pure ?_
      have hkey := (decodeInsn_key hi).2
      have hless : fresh (i.key :: d.seen) < fresh d.seen := fresh_cons (hkey ▸ hnew)
      unfold Decoding.left
      dsimp only
      rw [List.length_append]
      omega

/-- With fuel for the instructions left the worklist comes to its end. -/
theorem Resolver.Decodes.run (h : R.Decodes I) (mem : Image) {n : Nat} {d : Decoding}
    (hn : d.left < n) : CtRecomp.Decodes I (d.run R mem n) fun _ => True := by
  induction n generalizing d with
  | zero => exact absurd hn (Nat.not_lt_zero _)
  | succ n ih =>
    refine spec_ite (fun _ => decodes_pure trivial) fun hwork => ?_
    exact (h.step mem hwork).bind fun d' hless => ih (by omega)

theorem Decoding.left_le {N : Nat} (hN : ∀ keys : List Key, fresh keys ≤ N) (d : Decoding) :
    d.left ≤ 10 * N + d.work.length :=
  Nat.add_le_add_right (Nat.mul_le_mul_left 10 (hN d.seen)) _

theorem Resolver.Decodes.decodeFunction (h : R.Decodes I) (mem : Image) (entry : BitVec 24)
    (st : State) {N : Nat} (hN : ∀ keys : List Key, fresh keys ≤ N) {n : Nat}
    (hn : 10 * N + 1 < n) :
    CtRecomp.Decodes I (CtRecomp.decodeFunction R n mem entry st) fun _ => True := by
  have hleft := Decoding.left_le hN ⟨Func.start entry st, [], [(entry, st)]⟩
  exact (h.run mem (Nat.lt_of_le_of_lt hleft hn)).bind fun d _ => decodes_pure trivial

end

end CtRecomp
