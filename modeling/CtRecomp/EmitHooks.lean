import CtRecomp.EmitProgram
import CtRecomp.RegistryKept

namespace CtRecomp

/-! Which functions' code can take an extern hook under the frame scheduler. -/

/-- What an emitted edge relies on of a target that does not go through the dispatcher: `Clear`
of a key in a registry state, which lasts. `strict`: it also holds of every key not in the
cache, so that an emission that failed leaves no wrong memo. -/
structure Clearing (reg : Registry) where
  base : RegState
  Clear : RegState → Key → Prop
  strict : Bool
  lasts : ∀ s s' k, Clear s k → s.Grown s' → Clear s' k
  found : ∀ s k fn, base.Kept s → s.cache k = some fn → takesHook reg fn = false → Clear s k
  missing : strict = true → ∀ s k, base.Kept s → s.cache k = none → Clear s k

section

variable {reg : Registry} (C : Clearing reg)

/-- A target the memo calls clear is clear. -/
def Clearing.Holds (s : EmitState) : Prop :=
  C.base.Kept s.reg ∧ ∀ k, s.memo k = some false → C.Clear s.reg k

/-- `m` keeps the memo right, also where it fails in a way that is caught. -/
structure Clearing.Ends {α : Type} (Q : α → EmitState → Prop) (s : EmitState)
    (r : Except EmitError α × EmitState) : Prop where
  grown : s.reg.Grown r.2.reg
  ok : ∀ a, r.1 = .ok a → C.Holds r.2 ∧ Q a r.2
  error : ∀ e, r.1 = .error e → C.strict = true → e.caught = true → C.Holds r.2

def Clearing.Emits {α : Type} (m : EmitM α) (Q : α → EmitState → Prop) : Prop :=
  ∀ s, C.Holds s → C.Ends Q s (m s)

def Lasts (Q : EmitState → Prop) : Prop := ∀ s s', Q s → s.reg.Grown s'.reg → Q s'

variable {C} {α β : Type}

theorem RegState.Grown.refl (s : RegState) : s.Grown s := fun _ _ h => h

theorem RegState.Grown.trans {s s' s'' : RegState} (h : s.Grown s') (h' : s'.Grown s'') :
    s.Grown s'' := fun k fn hk => h' k fn (h k fn hk)

theorem Clearing.ends_ok {Q : α → EmitState → Prop} {s s' : EmitState} {a : α}
    (hg : s.reg.Grown s'.reg) (hs : C.Holds s') (hQ : Q a s') : C.Ends Q s (.ok a, s') where
  grown := hg
  ok a ha := by
    cases ha
    exact ⟨hs, hQ⟩
  error _ he := by cases he

theorem Clearing.ends_error {Q : α → EmitState → Prop} {s s' : EmitState} {e : EmitError}
    (hg : s.reg.Grown s'.reg) (hs : C.strict = true → e.caught = true → C.Holds s') :
    C.Ends Q s (.error e, s') where
  grown := hg
  ok _ ha := by cases ha
  error e he := by
    cases he
    exact hs

theorem Clearing.emits_pure {a : α} {Q : α → EmitState → Prop} (h : ∀ s, Q a s) :
    C.Emits (pure a) Q := fun s hs => Clearing.ends_ok (.refl _) hs (h s)

theorem Clearing.emits_throw {e : EmitError} {Q : α → EmitState → Prop} :
    C.Emits (throw e) Q := fun _ hs => Clearing.ends_error (.refl _) fun _ _ => hs

theorem Clearing.Emits.post {m : EmitM α} {Q Q' : α → EmitState → Prop} (h : C.Emits m Q)
    (hQ : ∀ a s, Q a s → Q' a s) : C.Emits m Q' := by
  intro s hs
  have hm := h s hs
  exact ⟨hm.grown, fun a ha => ⟨(hm.ok a ha).1, hQ a _ (hm.ok a ha).2⟩, hm.error⟩

theorem Clearing.Emits.grows {m : EmitM α} {Q : α → EmitState → Prop} (h : C.Emits m Q) :
    C.Emits m fun _ _ => True := h.post fun _ _ _ => trivial

/-- What holds after the first part still holds after the second, which may rely on it. -/
theorem Clearing.Emits.bindOf {m : EmitM α} {f : α → EmitM β} {Q : α → EmitState → Prop}
    {R : β → EmitState → Prop} (h : C.Emits m Q) (hQ : ∀ a, Lasts (Q a))
    (hf : ∀ a, (∃ s, Q a s) → C.Emits (f a) fun b s => Q a s → R b s) :
    C.Emits (m >>= f) R := by
  intro s hs
  have hm := h s hs
  rw [bind_run]
  generalize m s = r at hm
  obtain ⟨e | a, s'⟩ := r
  · exact Clearing.ends_error hm.grown (hm.error e rfl)
  · obtain ⟨hs', hQa⟩ := hm.ok a rfl
    have hrest := hf a ⟨s', hQa⟩ s' hs'
    refine ⟨hm.grown.trans hrest.grown, fun b hb => ?_, hrest.error⟩
    obtain ⟨hend, hR⟩ := hrest.ok b hb
    exact ⟨hend, hR (hQ a s' _ hQa hrest.grown)⟩

theorem Clearing.Emits.bind {m : EmitM α} {f : α → EmitM β} {Q : α → EmitState → Prop}
    {R : β → EmitState → Prop} (h : C.Emits m Q) (hQ : ∀ a, Lasts (Q a))
    (hf : ∀ a, C.Emits (f a) fun b s => Q a s → R b s) : C.Emits (m >>= f) R :=
  h.bindOf hQ fun a _ => hf a

/-- The same where nothing need be known of the first part. -/
theorem Clearing.Emits.then {m : EmitM α} {f : α → EmitM β} {Q : α → EmitState → Prop}
    {R : β → EmitState → Prop} (h : C.Emits m Q) (hf : ∀ a, C.Emits (f a) R) :
    C.Emits (m >>= f) R :=
  h.grows.bind (fun _ _ _ _ _ => trivial) fun a =>
    (hf a).post fun _ _ hR _ => hR

theorem Clearing.emits_ite {c : Prop} [Decidable c] {m m' : EmitM α} {Q : α → EmitState → Prop}
    (h : c → C.Emits m Q) (h' : ¬c → C.Emits m' Q) : C.Emits (if c then m else m') Q := by
  by_cases hc : c
  · rw [if_pos hc]
    exact h hc
  · rw [if_neg hc]
    exact h' hc

/-! `calls_extern` -/

variable (reg) in
theorem function_grows (n : Nat) (addr : BitVec 24) (st : State) {s : RegState}
    (hs : s.AllServe) : s.Kept (reg.function n addr st s).2 := by
  have hkept := @Registry.function_kept reg s n addr st
  match hr : reg.function n addr st s with
  | (.ok fn, s') => exact (hkept.ok ⟨.refl s, hs⟩ hr).1
  | (.error e, s') => exact hkept.error ⟨.refl s, hs⟩ hr

variable (reg) in
theorem function_cached {n : Nat} {addr : BitVec 24} {st : State} {s s' : RegState} {fn : Func}
    {e : DecodeError} (hs : s.cache (addr, st.key) = some fn)
    (h : reg.function n addr st s = (.error e, s')) : e = .outOfFuel := by
  cases n with
  | zero =>
    cases h
    rfl
  | succ n =>
    rw [function_hit reg n hs] at h
    cases h

theorem anyOf_emits {ι : Type} {f : ι → EmitM Bool} (h : ∀ i, C.Emits (f i) fun _ _ => True)
    (is : List ι) : C.Emits (anyOf f is) fun _ _ => True := by
  induction is with
  | nil => exact Clearing.emits_pure fun _ => trivial
  | cons i is ih =>
    refine (h i).then fun b => ?_
    cases b with
    | true => exact Clearing.emits_pure fun _ => trivial
    | false => exact ih

theorem Clearing.Holds.setMemo {s : EmitState} {r : RegState} {key : Key} {b : Bool}
    (hs : C.Holds s) (hg : s.reg.Grown r) (hbase : C.base.Kept r)
    (hb : b = false → C.Clear r key) : C.Holds ({ s with reg := r }.setMemo key b) := by
  refine ⟨hbase, fun k hk => ?_⟩
  change Function.update s.memo key (some b) k = some false at hk
  by_cases hkey : k = key
  · subst hkey
    rw [Function.update_self] at hk
    exact hb (Option.some.inj hk)
  · rw [Function.update_of_ne hkey] at hk
    exact C.lasts _ _ _ (hs.2 k hk) hg

theorem RegState.Kept.trans {s s' s'' : RegState} (h : s.Kept s') (h' : s'.Kept s'') :
    s.Kept s'' := ⟨h.1.trans h'.1, h'.2⟩

theorem callsExtern_emits (fuel n : Nat) (addr : BitVec 24) (st : State) :
    C.Emits (callsExtern reg fuel n addr st)
      fun b s => b = false → C.Clear s.reg (addr, st.key) := by
  induction n generalizing addr st with
  | zero => exact Clearing.emits_throw
  | succ n ih =>
    intro s hs
    unfold callsExtern
    rw [get_bind_run]
    dsimp only
    cases hmemo : s.memo (addr, st.key) with
    | some b =>
      refine Clearing.ends_ok (.refl _) hs fun hb => ?_
      subst hb
      exact hs.2 _ hmemo
    | none =>
      have hkept := function_grows reg fuel addr st hs.1.2
      have hcached : ∀ fn reg', reg.function fuel addr st s.reg = (.ok fn, reg') →
          reg'.cache (addr, st.key) = some fn := fun fn reg' hrun =>
        ((@Registry.function_kept reg s.reg fuel addr st).ok ⟨.refl _, hs.1.2⟩ hrun).2
      have hfailed : ∀ e reg', reg.function fuel addr st s.reg = (.error e, reg') →
          ∀ fn, s.reg.cache (addr, st.key) = some fn → e = .outOfFuel := fun e reg' hrun fn hfn =>
        function_cached reg hfn hrun
      have hbase := hs.1.trans hkept
      dsimp only
      rw [bind_run]
      change C.Ends _ s (((fromRegistry (reg.function fuel addr st)) >>= _)
        (s.setMemo (addr, st.key) false))
      rw [bind_run]
      unfold fromRegistry
      have hreg : (s.setMemo (addr, st.key) false).reg = s.reg := rfl
      rw [hreg]
      generalize reg.function fuel addr st s.reg = r at hkept hbase hcached hfailed
      obtain ⟨e | fn, reg'⟩ := r
      · refine Clearing.ends_error hkept.1 fun hstrict hcaught => ?_
        refine hs.setMemo hkept.1 hbase fun _ => ?_
        cases hcache : s.reg.cache (addr, st.key) with
        | none => exact C.lasts _ _ _ (C.missing hstrict _ _ hs.1 hcache) hkept.1
        | some fn =>
          rw [hfailed e reg' rfl fn hcache] at hcaught
          cases hcaught
      · change C.Ends _ s ((anyOf (fun c => callsExtern reg fuel n c.1 c.2)
            (if takesHook reg fn then [] else
              fn.callees.filter fun c => (reg.externs c.1).isNone) >>= fun reached => do
            modify fun s => s.setMemo (addr, st.key) (takesHook reg fn || reached)
            return (takesHook reg fn || reached))
          ({ s with reg := reg' }.setMemo (addr, st.key) false))
        cases htakes : takesHook reg fn with
        | true =>
          rw [if_pos rfl]
          change C.Ends _ s (.ok true, ({ s with reg := reg' }.setMemo (addr, st.key) false).setMemo
            (addr, st.key) true)
          have hmemo : ({ s with reg := reg' }.setMemo (addr, st.key) false).setMemo
              (addr, st.key) true = { s with reg := reg' }.setMemo (addr, st.key) true := by
            unfold EmitState.setMemo
            rw [Function.update_idem]
          rw [hmemo]
          refine Clearing.ends_ok hkept.1 (hs.setMemo hkept.1 hbase ?_) ?_ <;> nofun
        | false =>
          have hclear : C.Clear reg' (addr, st.key) :=
            C.found _ _ fn hbase (hcached fn reg' rfl) htakes
          have hs' := hs.setMemo hkept.1 hbase (b := false) fun _ => hclear
          have hany := anyOf_emits (C := C) (fun c : BitVec 24 × State => (ih c.1 c.2).grows)
            (fn.callees.filter fun c => (reg.externs c.1).isNone) _ hs'
          rw [if_neg Bool.false_ne_true, bind_run]
          generalize anyOf (fun c : BitVec 24 × State => callsExtern reg fuel n c.1 c.2) _ _ = r
            at hany
          obtain ⟨e | reached, s''⟩ := r
          · exact Clearing.ends_error (hkept.1.trans hany.grown) (hany.error e rfl)
          · have hclear' := C.lasts _ _ _ hclear hany.grown
            have hs'' := (hany.ok reached rfl).1
            exact Clearing.ends_ok (hkept.1.trans hany.grown)
              (hs''.setMemo (.refl _) hs''.1 fun _ => hclear') fun _ => hclear'

/-! The emitted edges. -/

/-- An edge that does not go through the dispatcher: to a clear function, or to a hook in code
that takes hooks. -/
def Clearing.EdgeOk (C : Clearing reg) (overlay : Option String) (fn : Func) (s : EmitState)
    (g : CName) : Prop :=
  ∃ target cst, g = callee reg overlay target cst ∧ cst.e = false ∧
    ((reg.externs target).isSome = true → takesHook reg fn = true) ∧
    (reg.externs target = none → C.Clear s.reg (target, cst.key))

theorem Clearing.EdgeOk.lasts {overlay : Option String} {fn : Func} {s s' : EmitState} {g : CName}
    (h : C.EdgeOk overlay fn s g) (hg : s.reg.Grown s'.reg) : C.EdgeOk overlay fn s' g := by
  obtain ⟨target, cst, hname, he, hextern, hclear⟩ := h
  exact ⟨target, cst, hname, he, hextern, fun hnone => C.lasts _ _ _ (hclear hnone) hg⟩

/-- All that statements run without the dispatcher is in `Q`. -/
def BodyOk (Q : CName → Prop) (body : List Stmt) : Prop :=
  ∀ st ∈ body, ∀ g ∈ st.edges true, Q g

variable {Q : CName → Prop} {body body' : List Stmt}

@[simp] theorem bodyOk_nil : BodyOk Q [] := List.forall_mem_nil _

@[simp] theorem bodyOk_cons {st : Stmt} :
    BodyOk Q (st :: body) ↔ (∀ g ∈ st.edges true, Q g) ∧ BodyOk Q body := List.forall_mem_cons

@[simp] theorem bodyOk_append : BodyOk Q (body ++ body') ↔ BodyOk Q body ∧ BodyOk Q body' :=
  List.forall_mem_append

/-- What a dispatched query answers when the edge stays a call or jump. -/
def Clearing.Direct (C : Clearing reg) (target : BitVec 24) (cst : State) (s : EmitState) : Prop :=
  ((reg.externs target).isSome = true → noreturn reg target = true) ∧
    (reg.externs target = none → C.Clear s.reg (target, cst.key))

theorem viaDispatch_emits (fuel : Nat) (target : BitVec 24) (cst : State) :
    C.Emits (viaDispatch reg fuel target cst)
      fun b s => b = false → reg.externs target = none → C.Clear s.reg (target, cst.key) := by
  unfold viaDispatch
  refine Clearing.emits_ite (fun hext => Clearing.emits_pure fun s _ hnone => ?_) fun _ => ?_
  · rw [hnone] at hext
    cases hext
  · exact (callsExtern_emits fuel fuel target cst).post fun _ _ h hb _ => h hb

theorem dispatched_emits (fuel : Nat) (target : BitVec 24) (cst : State) :
    C.Emits (dispatched reg fuel target cst) fun b s => b = false → C.Direct target cst s := by
  unfold dispatched
  refine Clearing.emits_ite (fun _ => Clearing.emits_pure fun _ hb => Bool.noConfusion hb)
    fun hrouted => ?_
  refine (viaDispatch_emits fuel target cst).post fun b s h hb => ⟨fun hext => ?_, h hb⟩
  obtain ⟨ext, hsome⟩ := Option.isSome_iff_exists.mp hext
  unfold routed at hrouted
  unfold noreturn
  rw [hsome] at hrouted ⊢
  simpa using hrouted

theorem mem_of_lookup {α β : Type} [BEq α] [LawfulBEq α] {l : List (α × β)} {a : α} {b : β}
    (h : l.lookup a = some b) : (a, b) ∈ l := by
  obtain ⟨before, after, rfl, -⟩ := List.lookup_eq_some_iff.mp h
  exact List.mem_append_right _ List.mem_cons_self

theorem takesHook_call {fn : Func} {key : Key} {target : BitVec 24} {cst : State}
    (h : fn.calls.lookup key = some (target, cst)) (hext : noreturn reg target = true) :
    takesHook reg fn = true := by
  have hcall : (fn.calls.any fun c => noreturn reg c.2.1) = true :=
    List.any_eq_true.mpr ⟨_, mem_of_lookup h, hext⟩
  unfold takesHook
  simp only [hcall, Bool.true_or]

theorem takesHook_tail {fn : Func} {key : Key} {target : BitVec 24} {cst : State}
    (h : fn.tails.lookup key = some (target, cst)) (hext : noreturn reg target = true) :
    takesHook reg fn = true := by
  have htail : (fn.tails.any fun c => noreturn reg c.2.1) = true :=
    List.any_eq_true.mpr ⟨_, mem_of_lookup h, hext⟩
  unfold takesHook
  simp only [htail, Bool.or_true, Bool.true_or]

theorem takesHook_table {fn : Func} {key : Key} {targets : List (BitVec 24)} {cst : State}
    (h : fn.tables.lookup key = some (targets, cst)) {target : BitVec 24} (ht : target ∈ targets)
    (hext : (reg.externs target).isSome = true) : takesHook reg fn = true := by
  have htable : (fn.tables.any fun c => c.2.1.any fun t => (reg.externs t).isSome) = true :=
    List.any_eq_true.mpr ⟨_, mem_of_lookup h, List.any_eq_true.mpr ⟨target, ht, hext⟩⟩
  unfold takesHook
  simp only [htable, Bool.or_true]

variable {overlay : Option String} {fn : Func}

/-- The statements' edges are fine. -/
abbrev Clearing.EmitsBody (C : Clearing reg) (overlay : Option String) (fn : Func)
    (m : EmitM (List Stmt)) : Prop :=
  C.Emits m fun body s => BodyOk (C.EdgeOk overlay fn s) body

theorem Clearing.Direct.edgeOk {target : BitVec 24} {cst : State} {s : EmitState}
    (h : C.Direct target cst s) (he : cst.e = false)
    (htakes : noreturn reg target = true → takesHook reg fn = true) :
    C.EdgeOk overlay fn s (callee reg overlay target cst) :=
  ⟨target, cst, rfl, he, fun hext => htakes (h.1 hext), h.2⟩

theorem Clearing.direct_lasts (target : BitVec 24) (cst : State) (b : Bool) :
    Lasts fun s => b = false → C.Direct target cst s :=
  fun _ _ h hg hb => ⟨(h hb).1, fun hnone => C.lasts _ _ _ ((h hb).2 hnone) hg⟩

section

variable {target : BitVec 24} {cst : State} (fuel : Nat) (i : Insn) (he : cst.e = false)
  (htakes : noreturn reg target = true → takesHook reg fn = true)

include he htakes

theorem jsrBody_emits : C.EmitsBody overlay fn (jsrBody reg fuel overlay i target cst) := by
  refine (dispatched_emits fuel target cst).bind (Clearing.direct_lasts target cst) fun b => ?_
  refine Clearing.emits_ite (fun _ => Clearing.emits_pure fun s _ => ?_) fun hb =>
    Clearing.emits_pure fun s hdirect => ?_
  · simp [Stmt.edges]
  · simpa [Stmt.edges] using (hdirect (by simpa using hb)).edgeOk he htakes

theorem jslBody_emits : C.EmitsBody overlay fn (jslBody reg fuel overlay i target cst) := by
  refine (dispatched_emits fuel target cst).bind (Clearing.direct_lasts target cst) fun b => ?_
  refine Clearing.emits_ite (fun _ => Clearing.emits_pure fun s _ => ?_) fun hb =>
    Clearing.emits_pure fun s hdirect => ?_
  · simp [Stmt.edges]
  · simpa [Stmt.edges] using (hdirect (by simpa using hb)).edgeOk he htakes

theorem tailBody_emits : C.EmitsBody overlay fn (tailBody reg fuel overlay target cst) := by
  refine (dispatched_emits fuel target cst).bind (Clearing.direct_lasts target cst) fun b => ?_
  refine Clearing.emits_ite (fun _ => Clearing.emits_pure fun s _ => ?_) fun hb =>
    Clearing.emits_pure fun s hdirect => ?_
  · simp [Stmt.edges]
  · simpa [Stmt.edges] using (hdirect (by simpa using hb)).edgeOk he htakes

end

section

variable {cst : State} (fuel : Nat) (i : Insn) (interp : List (BitVec 24)) (he : cst.e = false)

include he

theorem caseBody_emits {target : BitVec 24}
    (htakes : (reg.externs target).isSome = true → takesHook reg fn = true) :
    C.Emits (caseBody reg fuel overlay i cst interp target)
      fun c s => ∀ g ∈ c.edges true, C.EdgeOk overlay fn s g := by
  refine Clearing.emits_ite (fun _ => Clearing.emits_pure fun s => ?_) fun _ => ?_
  · split <;> simp [TableCase.edges]
  refine (viaDispatch_emits fuel target cst).bind
    (fun b s s' h hg hb hnone => C.lasts _ _ _ (h hb hnone) hg) fun b => ?_
  refine Clearing.emits_ite (fun _ => Clearing.emits_pure fun s _ => ?_) fun hb =>
    Clearing.emits_pure fun s hclear => ?_
  · split <;> simp [TableCase.edges]
  · have hok : C.EdgeOk overlay fn s (callee reg overlay target cst) :=
      ⟨target, cst, rfl, he, htakes, hclear (by simpa using hb)⟩
    split <;> simpa [TableCase.edges] using hok

theorem casesBody_emits {targets : List (BitVec 24)} (htakes : ∀ target ∈ targets,
      (reg.externs target).isSome = true → takesHook reg fn = true) (n : Nat) :
    C.Emits (casesBody reg fuel overlay i cst interp n targets)
      fun cs s => ∀ c ∈ cs, ∀ g ∈ c.2.edges true, C.EdgeOk overlay fn s g := by
  induction targets generalizing n with
  | nil => exact Clearing.emits_pure fun _ => List.forall_mem_nil _
  | cons target targets ih =>
    obtain ⟨hfirst, hrest⟩ := List.forall_mem_cons.mp htakes
    refine (caseBody_emits fuel i interp he hfirst).bind
      (fun c s s' h hg g hmem => (h g hmem).lasts hg) fun c => ?_
    refine (ih hrest (n + 1)).bind
      (fun cs s s' h hg c hc g hmem => (h c hc g hmem).lasts hg) fun cs => ?_
    refine Clearing.emits_pure fun s hcs hc => ?_
    exact List.forall_mem_cons.mpr ⟨hc, hcs⟩

theorem tableBody_emits {targets : List (BitVec 24)} (htakes : ∀ target ∈ targets,
      (reg.externs target).isSome = true → takesHook reg fn = true) :
    C.EmitsBody overlay fn (tableBody reg fuel overlay fn i targets cst) := by
  refine (casesBody_emits fuel i _ he htakes 0).bind
    (fun cs s s' h hg c hc g hmem => (h c hc g hmem).lasts hg) fun cs => ?_
  have hswitch {s : EmitState}
      (hcs : ∀ c ∈ cs, ∀ g ∈ c.2.edges true, C.EdgeOk overlay fn s g) :
      ∀ g ∈ (Stmt.switch i.addr cs).edges true, C.EdgeOk overlay fn s g := by
    intro g hg
    obtain ⟨c, hc, hmem⟩ := List.mem_flatMap.mp hg
    exact hcs c hc g hmem
  refine Clearing.emits_ite (fun _ => Clearing.emits_pure fun s hcs => ?_) fun _ =>
    Clearing.emits_pure fun s hcs => ?_
  · rw [bodyOk_append, bodyOk_cons, bodyOk_cons, bodyOk_cons]
    refine ⟨?_, by simp [Stmt.edges], hswitch hcs, by simp [Stmt.edges], bodyOk_nil⟩
    split <;> simp [Stmt.edges]
  · rw [bodyOk_append, bodyOk_cons]
    refine ⟨?_, hswitch hcs, bodyOk_nil⟩
    split <;> simp [Stmt.edges]

end

theorem label_emits (site : BitVec 24) (key : Key) :
    C.Emits (label fn site key) fun _ _ => True :=
  Clearing.emits_ite (fun _ => Clearing.emits_pure fun _ => trivial)
    fun _ => Clearing.emits_throw

theorem insnBody_emits (hnative : fn.Native) (fuel : Nat) {i : Insn} (hi : i ∈ fn.insns)
    (post : Mode) : C.EmitsBody overlay fn (insnBody reg fuel overlay fn i post) := by
  obtain ⟨hcalls, htails, htables⟩ := hnative i hi
  unfold insnBody
  split
  · exact Clearing.emits_throw
  refine Clearing.emits_ite (fun _ => Clearing.emits_pure fun _ => by simp [Stmt.edges])
    fun _ => ?_
  refine Clearing.emits_ite (fun _ => ?_) fun _ => ?_
  · split
    · refine Clearing.emits_pure fun _ => ?_
      unfold dynTableBody
      split <;> simp [Stmt.edges]
    case h_2 targets cst _ hlookup =>
      exact tableBody_emits fuel i (htables targets cst hlookup)
        fun target ht hext => takesHook_table hlookup ht hext
    · exact Clearing.emits_throw
  refine Clearing.emits_ite (fun _ => ?_) fun _ => ?_
  · split
    · refine Clearing.emits_pure fun _ => ?_
      unfold interpCallBody
      split <;> simp [Stmt.edges]
    case h_2 target cst _ hlookup =>
      have he := hcalls target cst hlookup
      exact Clearing.emits_ite
        (fun _ => jsrBody_emits fuel i he fun hext => takesHook_call hlookup hext)
        fun _ => jslBody_emits fuel i he fun hext => takesHook_call hlookup hext
    · exact Clearing.emits_throw
  refine Clearing.emits_ite (fun _ => ?_) fun _ => ?_
  · split
    · exact Clearing.emits_pure fun _ => by simp [Stmt.edges]
    case h_2 target cst _ hlookup =>
      refine (tailBody_emits fuel (htails target cst hlookup)
        fun hext => takesHook_tail hlookup hext).bind
          (fun body s s' h hg st hst g hmem => (h st hst g hmem).lasts hg) fun body => ?_
      refine Clearing.emits_pure fun s hbody => ?_
      exact bodyOk_cons.mpr ⟨by simp [Stmt.edges], hbody⟩
    · exact Clearing.emits_throw
  refine Clearing.emits_ite (fun _ => ?_) fun _ => ?_
  · split
    case h_1 target cst hlookup =>
      exact tailBody_emits fuel (htails target cst hlookup)
        fun hext => takesHook_tail hlookup hext
    · exact (label_emits _ _).then fun _ => Clearing.emits_pure fun _ => by simp [Stmt.edges]
  refine Clearing.emits_ite (fun _ => ?_) fun _ => ?_
  · exact (label_emits _ _).then fun _ => Clearing.emits_pure fun _ => by simp [Stmt.edges]
  · unfold templateBody
    split
    · exact Clearing.emits_throw
    · exact Clearing.emits_pure fun _ => by simp [Stmt.edges]
    · exact Clearing.emits_pure fun _ => by simp [Stmt.edges]

theorem intFlag_emits (site : BitVec 24) (b : Option Bool) :
    C.Emits (intFlag site b) fun _ _ => True := by
  cases b with
  | none => exact Clearing.emits_throw
  | some b => exact Clearing.emits_pure fun _ => trivial

/-- Statements that only move inside the function. -/
abbrev Clearing.EmitsInner (C : Clearing reg) (m : EmitM (List Stmt)) : Prop :=
  C.Emits m fun body _ => BodyOk (fun _ => False) body

theorem gotoModes_emits (i : Insn) (ks : List Mode) : C.EmitsInner (gotoModes fn i ks) := by
  induction ks with
  | nil => exact Clearing.emits_pure fun _ => bodyOk_nil
  | cons k ks ih =>
    refine (intFlag_emits _ _).then fun m => (intFlag_emits _ _).then fun x =>
      (label_emits _ _).then fun dest => ?_
    refine ih.bind (fun _ _ _ h _ => h) fun body => Clearing.emits_pure fun s hbody => ?_
    exact bodyOk_cons.mpr ⟨by simp [Stmt.edges], hbody⟩

theorem onward_emits (i : Insn) (post : Mode) (body : List Stmt) (nxt : Option Insn) :
    C.EmitsInner (onward fn i post body nxt) := by
  unfold onward
  split
  · refine Clearing.emits_pure fun _ => ?_
    split <;> simp [Stmt.edges]
  · refine (gotoModes_emits i _).bind (fun _ _ _ h _ => h) fun body =>
      Clearing.emits_pure fun s hbody => ?_
    exact bodyOk_append.mpr ⟨hbody, by simp [Stmt.edges]⟩
  · refine Clearing.emits_ite (fun _ => ?_) fun _ => Clearing.emits_pure fun _ => bodyOk_nil
    exact (label_emits _ _).then fun dest => Clearing.emits_pure fun _ => by simp [Stmt.edges]

theorem plpCheck_emits (i : Insn) (post : Mode) : C.EmitsInner (plpCheck i post) := by
  refine Clearing.emits_ite (fun _ => ?_) fun _ => Clearing.emits_pure fun _ => bodyOk_nil
  split
  · exact Clearing.emits_pure fun _ => by simp [Stmt.edges]
  · exact Clearing.emits_throw

theorem BodyOk.mono {Q' : CName → Prop} (h : BodyOk Q body) (hQ : ∀ g, Q g → Q' g) :
    BodyOk Q' body := fun st hst g hg => hQ g (h st hst g hg)

theorem emitInsn_emits (hnative : fn.Native) (fuel : Nat) {i : Insn} (hi : i ∈ fn.insns)
    (nxt : Option Insn) : C.Emits (emitInsn reg fuel overlay fn i nxt)
      fun b s => BodyOk (C.EdgeOk overlay fn s) b.body := by
  refine (insnBody_emits hnative fuel hi _).bind
    (fun body s s' h hg st hst g hmem => (h st hst g hmem).lasts hg) fun body => ?_
  refine (plpCheck_emits i _).bind (fun _ _ _ h _ => h) fun plp => ?_
  refine (onward_emits i _ _ nxt).bind (fun _ _ _ h _ => h) fun next => ?_
  refine Clearing.emits_pure fun s hnext hplp hbody => ?_
  rw [bodyOk_append, bodyOk_append]
  exact ⟨⟨hbody, hplp.mono nofun⟩, hnext.mono nofun⟩

theorem emitInsns_emits (hnative : fn.Native) (fuel : Nat) {is : List Insn}
    (his : ∀ i ∈ is, i ∈ fn.insns) : C.Emits (emitInsns reg fuel overlay fn is)
      fun bs s => ∀ b ∈ bs, BodyOk (C.EdgeOk overlay fn s) b.body := by
  induction is with
  | nil => exact Clearing.emits_pure fun _ => List.forall_mem_nil _
  | cons i is ih =>
    obtain ⟨hi, hrest⟩ := List.forall_mem_cons.mp his
    refine (emitInsn_emits hnative fuel hi is.head?).bind
      (fun b s s' h hg st hst g hmem => (h st hst g hmem).lasts hg) fun b => ?_
    refine (ih hrest).bind
      (fun bs s s' h hg b hb st hst g hmem => (h b hb st hst g hmem).lasts hg) fun bs => ?_
    exact Clearing.emits_pure fun s hbs hb => List.forall_mem_cons.mpr ⟨hb, hbs⟩

theorem mapM_emits {ι : Type} {f : ι → EmitM α} {Q : α → EmitState → Prop}
    (hQ : ∀ a, Lasts (Q a)) {is : List ι} (h : ∀ i ∈ is, C.Emits (f i) Q) :
    C.Emits (is.mapM f) fun as s => ∀ a ∈ as, Q a s := by
  induction is with
  | nil => exact Clearing.emits_pure fun _ => List.forall_mem_nil _
  | cons i is ih =>
    obtain ⟨hi, his⟩ := List.forall_mem_cons.mp h
    rw [List.mapM_cons]
    refine hi.bind hQ fun a => ?_
    refine (ih his).bind (fun as s s' hs hg a ha => hQ a s s' (hs a ha) hg) fun as => ?_
    exact Clearing.emits_pure fun s has ha => List.forall_mem_cons.mpr ⟨ha, has⟩

theorem externEdges_emits (fuel : Nat) : C.Emits (externEdges reg fuel fn) fun _ _ => True := by
  refine (mapM_emits (fun _ _ _ _ _ => trivial) fun (c : BitVec 24 × State) _ =>
    (dispatched_emits fuel c.1 c.2).grows).then fun direct => ?_
  refine (mapM_emits (fun _ _ _ _ _ => trivial) fun (c : BitVec 24 × State) _ =>
    (viaDispatch_emits fuel c.1 c.2).grows).then fun cases => ?_
  exact Clearing.emits_pure fun _ => trivial

/-- A function emitted. -/
structure Clearing.Code (C : Clearing reg) (overlay : Option String) (E : EmittedFn)
    (s : EmitState) : Prop where
  name : E.name = cName overlay E.fn.entry E.fn.state
  edges : ∀ g ∈ E.edges true, C.EdgeOk overlay E.fn s g

theorem emitFunction_emits (hnative : fn.Native) (fuel : Nat) :
    C.Emits (emitFunction reg fuel overlay fn) fun E s => E.fn = fn ∧ C.Code overlay E s := by
  refine (externEdges_emits fuel).then fun edges => (label_emits _ _).then fun _ => ?_
  refine (emitInsns_emits hnative fuel fun _ hi => hi).bind
    (fun bs s s' h hg b hb st hst g hmem => (h b hb st hst g hmem).lasts hg) fun bs => ?_
  refine Clearing.emits_pure fun s hbs => ⟨rfl, rfl, fun g hg => ?_⟩
  obtain ⟨b, hb, hmem⟩ := List.mem_flatMap.mp hg
  obtain ⟨st, hst, hgst⟩ := List.mem_flatMap.mp hmem
  exact hbs b hb st hst g hgst

end

end CtRecomp
