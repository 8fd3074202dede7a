import CtRecomp.Loop
import CtRecomp.Decoder

namespace CtRecomp

open Loop

/-! What `decode_function` returns, instruction by instruction. -/

/-- `m` keeps `I`, whether it returns or raises. -/
abbrev Keeps {E S α : Type} (I : S → Prop) (m : RaiseM E S α) : Prop :=
  Spec I m (fun _ s => I s) fun _ s => I s

section

variable {S : Type} {R : Resolver S} {I : S → Prop}

structure Resolver.Keeps (R : Resolver S) (I : S → Prop) : Prop where
  resolve : ∀ site target st kind, CtRecomp.Keeps I (R.resolve site target st kind)
  tail : ∀ site target st, CtRecomp.Keeps I (R.tail site target st)
  tailRequired : ∀ site target st, CtRecomp.Keeps I (R.tailRequired site target st)

theorem keeps_raised {E α : Type} (r : Except E α) : Keeps I (raised r : RaiseM E S α) :=
  spec_raised (fun _ _ _ hs => hs) fun _ _ hs => hs

theorem keeps_pure {E α : Type} (a : α) : Keeps I (pure a : RaiseM E S α) :=
  spec_pure fun _ hs => hs

theorem keeps_throw {E α : Type} (e : E) : Keeps I (throw e : RaiseM E S α) :=
  spec_throw fun _ hs => hs

theorem Resolver.Keeps.callExits (h : R.Keeps I) (site target : BitVec 24) (cst : State)
    (kind : CallKind) : CtRecomp.Keeps I (R.callExits site target cst kind) := by
  unfold Resolver.callExits
  refine spec_ite (fun _ => keeps_pure _) fun _ => ?_
  refine Spec.tryCatch ((h.resolve site target cst kind).map fun _ _ hs => hs) fun ex => ?_
  split
  · exact keeps_pure _
  · exact keeps_throw _

theorem Resolver.Keeps.tableCalls (h : R.Keeps I) (site : BitVec 24) (cst : State)
    (own : Option Bool × Option Bool) (targets : List (BitVec 24)) :
    CtRecomp.Keeps I (R.tableCalls site cst own targets) := by
  induction targets with
  | nil => exact keeps_pure _
  | cons tg targets ih =>
    refine (h.callExits site tg cst .JSR).bind fun found => ih.bind fun rest => ?_
    cases found with
    | some e => exact keeps_pure _
    | none => exact keeps_pure _

theorem Resolver.Keeps.tableJumps (h : R.Keeps I) (site : BitVec 24) (cst : State)
    (targets : List (BitVec 24)) : CtRecomp.Keeps I (R.tableJumps site cst targets) := by
  induction targets with
  | nil => exact keeps_pure _
  | cons tg targets ih =>
    have hexits : CtRecomp.Keeps I (R.jumpExits site cst tg) :=
      spec_ite (fun _ => keeps_pure _) fun _ => h.tailRequired site tg cst
    exact hexits.bind fun exits => ih.bind fun rest => keeps_pure _

theorem Resolver.Keeps.follow (h : R.Keeps I) (entry : BitVec 24) (st : State) (i : Insn)
    (nxt : State) : CtRecomp.Keeps I (i.follow R entry st nxt) := by
  have hcall (kind : CallKind) : CtRecomp.Keeps I (i.followCall R nxt kind) := by
    refine (h.callExits _ _ _ kind).bind fun exits => ?_
    cases exits with
    | some e => exact keeps_raised _
    | none => exact keeps_raised _
  have htable : CtRecomp.Keeps I (i.followTable R nxt) := by
    refine spec_ite (fun _ => keeps_throw _) fun _ => spec_ite (fun _ => ?_) fun _ => ?_
    · exact spec_ite (fun _ => keeps_pure _) fun _ => keeps_raised _
    · refine (keeps_raised _).bind fun targets => spec_ite (fun _ => ?_) fun _ => ?_
      · exact (h.tableJumps _ _ _).bind fun exits => keeps_pure _
      · exact (h.tableCalls _ _ _ _).bind fun exits => keeps_raised _
  have hfar : CtRecomp.Keeps I (i.followFar R nxt) :=
    spec_ite (fun _ => keeps_pure _) fun _ =>
      (h.tailRequired _ _ _).bind fun exits => keeps_pure _
  have hjump : CtRecomp.Keeps I (i.followJump R entry st nxt) := by
    have hexits : CtRecomp.Keeps I (i.tailExits R entry st nxt.atEntry) :=
      spec_ite (fun _ => keeps_pure _) fun _ => h.tail _ _ _
    refine hexits.bind fun exits => ?_
    cases exits with
    | some e => exact keeps_pure _
    | none => exact keeps_pure _
  unfold Insn.follow
  split
  all_goals first
    | exact keeps_pure _
    | exact keeps_throw _
    | exact hfar
    | exact hjump
    | exact hcall _
    | exact htable

/-- One instruction as the decoder met it, between two states of its resolver's. -/
structure Found (S : Type) where
  i : Insn
  cur : State
  nxt : State
  added : Added
  next : Paths
  before : S
  after : S

structure Found.Holds (R : Resolver S) (I : S → Prop) (mem : Image) (entry : BitVec 24)
    (st : State) (f : Found S) : Prop where
  decoded : decodeInsn mem f.i.addr f.cur = .ok f.i
  transfer : nextState f.i f.cur = .ok f.nxt
  followed : f.i.follow R entry st f.nxt f.before = (.ok (f.added, f.next), f.after)
  kept : I f.before

/-- The function these instructions make, the latest first. -/
def built (entry : BitVec 24) (st : State) (found : List (Found S)) : Func :=
  found.foldr (fun f fn => fn.add f.i f.nxt f.added) (.start entry st)

/-- A worklist's progress: `P` holds where its paths go. -/
structure Decoding.Traced (R : Resolver S) (I : S → Prop) (mem : Image) (entry : BitVec 24)
    (st : State) (P : BitVec 24 → State → Prop) (d : Decoding) (found : List (Found S)) :
    Prop where
  fn : d.fn = built entry st found
  seen : d.seen = found.map (·.i.key)
  nodup : (found.map (·.i.key)).Nodup
  holds : ∀ f ∈ found, f.Holds R I mem entry st
  reached : ∀ f ∈ found, P f.i.addr f.cur
  first : (entry, st.key) ∈ d.seen ∨ (entry, st) ∈ d.work
  closed : ∀ f ∈ found, ∀ w ∈ f.next, (w.1, w.2.key) ∈ d.seen ∨ w ∈ d.work
  todo : ∀ w ∈ d.work, P w.1 w.2

theorem decodeInsn_decoded {mem : Image} {addr : BitVec 24} {st : State} {i : Insn}
    (h : decodeInsn mem addr st = .ok i) : i.Decoded := by
  unfold decodeInsn at h
  split at h
  · cases h
  · dsimp only at h
    split at h
    · cases h
    next n hn =>
      split at h
      · cases h
      · cases h
        refine ⟨rfl, ?_, Nat.add_pos_left Nat.one_pos n⟩
        change operandBytes _ st.m st.x = some (1 + n - 1)
        rw [Nat.add_sub_cancel_left]
        exact hn

theorem decodeInsn_key {mem : Image} {addr : BitVec 24} {st : State} {i : Insn}
    (h : decodeInsn mem addr st = .ok i) : i.addr = addr ∧ i.key = (addr, st.key) := by
  unfold decodeInsn at h
  split at h
  · cases h
  · dsimp only at h
    split at h
    · cases h
    · split at h
      · cases h
      · cases h
        exact ⟨rfl, rfl⟩

@[simp] theorem built_entry (entry : BitVec 24) (st : State) (found : List (Found S)) :
    (built entry st found).entry = entry := by
  induction found with
  | nil => rfl
  | cons f found ih => exact ih

@[simp] theorem built_state (entry : BitVec 24) (st : State) (found : List (Found S)) :
    (built entry st found).state = st := by
  induction found with
  | nil => rfl
  | cons f found ih => exact ih

variable {mem : Image} {entry : BitVec 24} {st : State} {P : BitVec 24 → State → Prop}

theorem Decoding.Traced.cons {d : Decoding} {found : List (Found S)} {f : Found S}
    {work : Paths} (h : d.Traced R I mem entry st P found) (hf : f.Holds R I mem entry st)
    (hstep : ∀ w ∈ f.next, P w.1 w.2) (hwork : d.work = (f.i.addr, f.cur) :: work)
    (hnew : f.i.key ∉ d.seen) :
    Decoding.Traced R I mem entry st P
      ⟨d.fn.add f.i f.nxt f.added, f.i.key :: d.seen, f.next ++ work⟩ (f :: found) where
  fn := by rw [h.fn]; rfl
  seen := by rw [h.seen]; rfl
  nodup := by
    rw [List.map_cons, List.nodup_cons]
    exact ⟨h.seen ▸ hnew, h.nodup⟩
  holds := List.forall_mem_cons.mpr ⟨hf, h.holds⟩
  reached := by
    refine List.forall_mem_cons.mpr ⟨h.todo (f.i.addr, f.cur) ?_, h.reached⟩
    rw [hwork]
    exact List.mem_cons_self
  first := by
    have hkey := (decodeInsn_key hf.decoded).2
    rcases h.first with hseen | htodo
    · exact .inl (List.mem_cons_of_mem _ hseen)
    · rw [hwork] at htodo
      rcases List.mem_cons.mp htodo with heq | hrest
      · obtain ⟨haddr, hcur⟩ := Prod.mk.inj heq
        rw [haddr, hcur, ← hkey]
        exact .inl List.mem_cons_self
      · exact .inr (List.mem_append_right _ hrest)
  closed := by
    have hkey := (decodeInsn_key hf.decoded).2
    refine List.forall_mem_cons.mpr ⟨fun w hw => .inr (List.mem_append_left _ hw), ?_⟩
    intro g hg w hw
    rcases h.closed g hg w hw with hseen | htodo
    · exact .inl (List.mem_cons_of_mem _ hseen)
    · rw [hwork] at htodo
      rcases List.mem_cons.mp htodo with heq | hrest
      · rw [heq, ← hkey]
        exact .inl List.mem_cons_self
      · exact .inr (List.mem_append_right _ hrest)
  todo := by
    intro w hw
    rcases List.mem_append.mp hw with hnext | hrest
    · exact hstep w hnext
    · refine h.todo w ?_
      rw [hwork]
      exact List.mem_cons_of_mem _ hrest

theorem Decoding.Traced.skip {d : Decoding} {found : List (Found S)} {w : BitVec 24 × State}
    {work : Paths} (h : d.Traced R I mem entry st P found) (hwork : d.work = w :: work)
    (hold : (w.1, w.2.key) ∈ d.seen) :
    Decoding.Traced R I mem entry st P { d with work } found where
  fn := h.fn
  seen := h.seen
  nodup := h.nodup
  holds := h.holds
  reached := h.reached
  first := by
    rcases h.first with hseen | htodo
    · exact .inl hseen
    · rw [hwork] at htodo
      rcases List.mem_cons.mp htodo with heq | hrest
      · rw [← heq] at hold
        exact .inl hold
      · exact .inr hrest
  closed := by
    intro g hg v hv
    rcases h.closed g hg v hv with hseen | htodo
    · exact .inl hseen
    · rw [hwork] at htodo
      rcases List.mem_cons.mp htodo with heq | hrest
      · rw [← heq] at hold
        exact .inl hold
      · exact .inr hrest
  todo := by
    intro v hv
    refine h.todo v ?_
    rw [hwork]
    exact List.mem_cons_of_mem _ hv

/-- An accepted instruction's paths go on in `P`. -/
def Carries (R : Resolver S) (I : S → Prop) (mem : Image) (entry : BitVec 24) (st : State)
    (P : BitVec 24 → State → Prop) : Prop :=
  ∀ f : Found S, f.Holds R I mem entry st → P f.i.addr f.cur → ∀ w ∈ f.next, P w.1 w.2

theorem Decoding.Traced.step {d : Decoding} {found : List (Found S)} (hR : R.Keeps I)
    (hP : Carries R I mem entry st P) (h : d.Traced R I mem entry st P found) :
    Spec I (d.step R mem)
      (fun d' s => I s ∧ ∃ found', d'.Traced R I mem entry st P found') fun _ s => I s := by
  unfold Decoding.step
  split
  · exact spec_pure fun _ hs => ⟨hs, found, h⟩
  case h_2 addr cur work hwork =>
    refine spec_ite (fun hseen => ?_) fun hnew => ?_
    · exact spec_pure fun _ hs => ⟨hs, found, h.skip hwork hseen⟩
    · refine Spec.bind (Q := fun i s => I s ∧ decodeInsn mem addr cur = .ok i)
        (spec_raised (fun i hi s hs => ⟨hs, hi⟩) fun _ _ hs => hs) fun i => ?_
      refine Spec.bind (Q := fun nxt s => (I s ∧ decodeInsn mem addr cur = .ok i) ∧
        nextState i cur = .ok nxt)
        (spec_raised (fun nxt hnxt s hs => ⟨hs, hnxt⟩) fun _ _ hs => hs.1) fun nxt => ?_
      have hfollow : Spec (fun s => (I s ∧ decodeInsn mem addr cur = .ok i) ∧
          nextState i cur = .ok nxt) (i.follow R d.fn.entry d.fn.state nxt) (fun _ s => I s)
          fun _ s => I s :=
        (hR.follow d.fn.entry d.fn.state i nxt).mono (fun _ hs => hs.1.1) (fun _ _ hs => hs)
          fun _ _ hs => hs
      refine hfollow.remember.bind fun r => spec_pure ?_
      rintro s ⟨hs, s₀, ⟨⟨hs₀, hi⟩, hnxt⟩, hrun⟩
      obtain ⟨rfl, hkey⟩ := decodeInsn_key hi
      have hf : Found.Holds R I mem entry st ⟨i, cur, nxt, r.1, r.2, s₀, s⟩ := by
        refine ⟨hi, hnxt, ?_, hs₀⟩
        rw [h.fn, built_entry, built_state] at hrun
        exact hrun
      have hcur := h.todo (i.addr, cur) (hwork ▸ List.mem_cons_self)
      refine ⟨hs, _, h.cons hf (hP _ hf hcur) hwork ?_⟩
      rw [hkey]
      exact hnew

theorem Decoding.Traced.run {d : Decoding} {found : List (Found S)} (hR : R.Keeps I)
    (hP : Carries R I mem entry st P) (h : d.Traced R I mem entry st P found) (n : Nat) :
    Spec I (d.run R mem n)
      (fun d' s => I s ∧ d'.work = [] ∧ ∃ found', d'.Traced R I mem entry st P found')
      fun _ s => I s := by
  induction n generalizing d found with
  | zero => exact spec_throw fun _ hs => hs
  | succ n ih =>
    refine spec_ite (fun hwork => spec_pure fun _ hs => ⟨hs, hwork, found, h⟩) fun _ => ?_
    refine (h.step hR hP).bind fun d' => ?_
    refine spec_of_run ?_ ?_
    · rintro s s' a ⟨hs, found', h'⟩ hrun
      exact (ih h').ok hs hrun
    · rintro s s' e ⟨hs, found', h'⟩ hrun
      exact (ih h').error hs hrun

/-- `fn` is made of the instructions found, whose paths all end among them. -/
structure Decoded (R : Resolver S) (I : S → Prop) (mem : Image) (entry : BitVec 24) (st : State)
    (P : BitVec 24 → State → Prop) (fn : Func) (found : List (Found S)) : Prop where
  made : fn = { built entry st found with insns := fn.insns }
  insns : fn.insns.Perm (found.map (·.i))
  nodup : (found.map (·.i.key)).Nodup
  holds : ∀ f ∈ found, f.Holds R I mem entry st
  reached : ∀ f ∈ found, P f.i.addr f.cur
  first : ∃ f ∈ found, f.i.key = (entry, st.key)
  closed : ∀ f ∈ found, ∀ w ∈ f.next, ∃ g ∈ found, g.i.key = (w.1, w.2.key)

theorem built_insns (entry : BitVec 24) (st : State) (found : List (Found S)) :
    (built entry st found).insns = found.map (·.i) := by
  induction found with
  | nil => rfl
  | cons f found ih =>
    rw [List.map_cons, ← ih]
    rfl

theorem decodeFunction_decoded (hR : R.Keeps I) (hP : Carries R I mem entry st P)
    (hentry : P entry st) (n : Nat) :
    Spec I (decodeFunction R n mem entry st)
      (fun fn s => I s ∧ ∃ found, Decoded R I mem entry st P fn found) fun _ s => I s := by
  have hstart : Decoding.Traced R I mem entry st P
      ⟨Func.start entry st, [], [(entry, st)]⟩ [] :=
    { fn := rfl
      seen := rfl
      nodup := List.nodup_nil
      holds := by intro f hf; cases hf
      reached := by intro f hf; cases hf
      first := .inr List.mem_cons_self
      closed := by intro f hf; cases hf
      todo := by
        intro w hw
        rw [List.mem_singleton.mp hw]
        exact hentry }
  refine (hstart.run hR hP n).bind fun d => spec_pure ?_
  rintro s ⟨hs, hwork, found, h⟩
  have hseen {k : Key} (hk : k ∈ d.seen) : ∃ g ∈ found, g.i.key = k := by
    rw [h.seen] at hk
    exact List.mem_map.mp hk
  refine ⟨hs, found, ?_⟩
  exact {
    made := by rw [h.fn]
    insns := by
      rw [← built_insns entry st found, ← h.fn]
      exact (List.perm_insertionSort _ _).trans (List.reverse_perm _)
    nodup := h.nodup
    holds := h.holds
    reached := h.reached
    first := by
      rcases h.first with hk | hk
      · exact hseen hk
      · rw [hwork] at hk
        cases hk
    closed := by
      intro f hf w hw
      rcases h.closed f hf w hw with hk | hk
      · exact hseen hk
      · rw [hwork] at hk
        cases hk }

/-! What the function's dictionaries hold of an instruction is what it added. -/

theorem lookup_keyed {α : Type} (k k' : Key) (new : Option α) (kept : List (Key × α)) :
    (keyed k new kept).lookup k' = if k' = k then new.or (kept.lookup k') else kept.lookup k' := by
  unfold keyed
  cases new with
  | none => simp
  | some v =>
    by_cases hk : k' = k
    · rw [List.lookup_cons, if_pos hk, hk, beq_self_eq_true]
      rfl
    · rw [List.lookup_cons, if_neg hk, beq_false_of_ne hk]

variable {fn : Func} {found : List (Found S)} {f : Found S}

theorem Decoded.lookup (h : Decoded R I mem entry st P fn found) {α : Type}
    (get : Func → List (Key × α)) (sel : Found S → Option α)
    (hinsns : ∀ g l, get { g with insns := l } = get g) (hstart : get (.start entry st) = [])
    (hadd : ∀ g f, get (g.add f.i f.nxt f.added) = keyed f.i.key (sel f) (get g))
    (hf : f ∈ found) : (get fn).lookup f.i.key = sel f := by
  rw [h.made, hinsns]
  have hnone (found : List (Found S)) (k : Key) (hk : k ∉ found.map (·.i.key)) :
      (get (built entry st found)).lookup k = none := by
    induction found with
    | nil =>
      have hempty : get (built entry st ([] : List (Found S))) = [] := hstart
      rw [hempty]
      rfl
    | cons g found ih =>
      have hcons : get (built entry st (g :: found)) =
          keyed g.i.key (sel g) (get (built entry st found)) := hadd _ _
      rw [List.map_cons, List.mem_cons, not_or] at hk
      rw [hcons, lookup_keyed, if_neg hk.1]
      exact ih hk.2
  have hnodup := h.nodup
  clear h
  induction found with
  | nil => cases hf
  | cons g found ih =>
    have hcons : get (built entry st (g :: found)) =
        keyed g.i.key (sel g) (get (built entry st found)) := hadd _ _
    rw [List.map_cons, List.nodup_cons] at hnodup
    rw [hcons, lookup_keyed]
    rcases List.mem_cons.mp hf with rfl | hf
    · rw [if_pos rfl, hnone found _ hnodup.1, Option.or_none]
    · have hne : f.i.key ≠ g.i.key := by
        intro heq
        exact hnodup.1 (heq ▸ List.mem_map.mpr ⟨f, hf, rfl⟩)
      rw [if_neg hne]
      exact ih hf hnodup.2

end

/-! What an accepted instruction can do. -/

/-- Where a call comes back: in `sorted`, the others kept as its exits. -/
inductive ComesBack (a : Added) (i : Insn) (nxt : State) :
    List (Option Bool × Option Bool) → Added × Paths → Prop
  | never : ComesBack a i nxt [] ({ a with callExits := some [] }, [])
  | one (mx : Option Bool × Option Bool) : ComesBack a i nxt [mx]
      ({ a with post := some (nxt.withMx mx).key }, [(i.nextAddr, nxt.withMx mx)])
  | several (mx mx' : Option Bool × Option Bool) (rest : List (Option Bool × Option Bool)) :
      ComesBack a i nxt (mx :: mx' :: rest)
        ({ a with
            callExits := some ((mx :: mx' :: rest).map fun mx => (nxt.withMx mx).key)
            post := some (nxt.withMx mx).key },
          (i.nextAddr, nxt.withMx mx) ::
            (mx' :: rest).reverse.map fun mx => (i.nextAddr, nxt.withMx mx))

theorem continueCall_cases {a : Added} {i : Insn} {nxt : State}
    {exits : Finset (Option Bool × Option Bool)} {r : Added × Paths}
    (h : a.continueCall i nxt exits = .ok r) :
    ∃ sorted, sortedExits i.addr exits = .ok sorted ∧ ComesBack a i nxt sorted r := by
  unfold Added.continueCall at h
  cases hs : sortedExits i.addr exits with
  | error e =>
    rw [hs] at h
    cases h
  | ok sorted =>
    refine ⟨sorted, rfl, ?_⟩
    rw [hs] at h
    match sorted, h with
    | [], h =>
      cases h
      exact .never
    | [mx], h =>
      cases h
      exact .one mx
    | mx :: mx' :: rest, h =>
      cases h
      have hcall : ComesBack a i nxt (mx :: mx' :: rest) _ := .several mx mx' rest
      simpa [List.map_reverse, List.map_map, Function.comp_def] using hcall

theorem ComesBack.kept {a : Added} {i : Insn} {nxt : State} {r : Added × Paths}
    {sorted : List (Option Bool × Option Bool)} (h : ComesBack a i nxt sorted r) :
    r.1.call = a.call ∧ r.1.tail = a.tail ∧ r.1.table = a.table ∧
      r.1.interpCall = a.interpCall ∧ r.1.dynTable = a.dynTable ∧
      r.1.interpTail = a.interpTail ∧ r.1.tableInterp = a.tableInterp ∧
      r.1.exitStates = a.exitStates := by
  cases h <;> exact ⟨rfl, rfl, rfl, rfl, rfl, rfl, rfl, rfl⟩

theorem ComesBack.next {a : Added} {i : Insn} {nxt : State} {r : Added × Paths}
    {sorted : List (Option Bool × Option Bool)} (h : ComesBack a i nxt sorted r)
    (w : BitVec 24 × State) (hw : w ∈ r.2) : ∃ mx ∈ sorted, w = (i.nextAddr, nxt.withMx mx) := by
  cases h with
  | never => cases hw
  | one mx => exact ⟨mx, List.mem_cons_self, List.mem_singleton.mp hw⟩
  | several mx mx' rest =>
    rcases List.mem_cons.mp hw with rfl | hw
    · exact ⟨mx, List.mem_cons_self, rfl⟩
    · obtain ⟨mx'', hmx, rfl⟩ := List.mem_map.mp hw
      exact ⟨mx'', List.mem_cons_of_mem _ (List.mem_reverse.mp hmx), rfl⟩

def Mnemonic.isReturn : Mnemonic → Bool
  | .RTS | .RTL | .RTI => true
  | _ => false

def Mnemonic.isBranch : Mnemonic → Bool
  | .BPL | .BMI | .BVC | .BVS | .BCC | .BCS | .BNE | .BEQ => true
  | _ => false

/-- Translated as a run-time fatal error. -/
def Mnemonic.isStop : Mnemonic → Bool
  | .BRK | .COP | .STP | .WAI => true
  | _ => false

/-- Control goes elsewhere than to the next instruction. -/
def Mnemonic.isControl : Mnemonic → Bool
  | .BRA | .BRL | .JMP | .JML | .JSR | .JSL | .WDM => true
  | mn => mn.isReturn || mn.isBranch || mn.isStop

inductive Insn.Follows (i : Insn) (nxt : State) : Added × Paths → Prop
  | ret (h : i.mnemonic.isReturn) :
    Follows i nxt ({ Added.none with exitStates := {(some i.mnemonic, nxt.m, nxt.x)} }, [])
  | branch (h : i.mnemonic.isBranch) :
    Follows i nxt (Added.none, [(i.nextAddr, nxt), (i.branchTarget, nxt)])
  | always (h : i.mnemonic = .BRA ∨ i.mnemonic = .BRL) :
    Follows i nxt (Added.none, [(i.branchTarget, nxt)])
  | tail {t : BitVec 24} (exits : Finset ExitState)
      (h : i.mnemonic = .JML ∧ t = i.operand ∨
        i.mnemonic = .JMP ∧ i.mode = .abs ∧ t = i.jumpTo) :
    Follows i nxt ({ Added.none with tail := some (t, nxt.atEntry), exitStates := exits }, [])
  | interpTail (h : i.mnemonic = .JML) :
    Follows i nxt ({ Added.none with
      interpTail := some (i.operand, nxt.atEntry), exitStates := {(none, none, none)} }, [])
  | jump (h : i.mnemonic = .JMP ∧ i.mode = .abs) : Follows i nxt (Added.none, [(i.jumpTo, nxt)])
  | call {t : BitVec 24} {exits : Finset (Option Bool × Option Bool)} {r : Added × Paths}
      (h : i.mnemonic = .JSR ∧ i.mode = .abs ∧ t = i.jumpTo ∨ i.mnemonic = .JSL ∧ t = i.operand)
      (hr : Added.continueCall { Added.none with call := some (t, nxt.atEntry) } i nxt exits =
        .ok r) : Follows i nxt r
  | interpCall {t : BitVec 24} {r : Added × Paths}
      (h : i.mnemonic = .JSR ∧ i.mode = .abs ∧ t = i.jumpTo ∨ i.mnemonic = .JSL ∧ t = i.operand)
      (hr : Added.continueCall { Added.none with interpCall := some (t, nxt.atEntry) } i nxt
        {(nxt.m, nxt.x)} = .ok r) : Follows i nxt r
  | dynCall {r : Added × Paths} (h : i.mnemonic = .JSR ∧ i.mode = .absXInd)
      (hr : Added.continueCall { Added.none with dynTable := some nxt.atEntry } i nxt
        {(nxt.m, nxt.x)} = .ok r) : Follows i nxt r
  | dynJump (h : i.mnemonic = .JMP ∧ i.mode = .absXInd) :
    Follows i nxt ({ Added.none with
      dynTable := some nxt.atEntry, exitStates := {(none, none, none)} }, [])
  | tableCall {targets interp : List (BitVec 24)} {exits : Finset (Option Bool × Option Bool)}
      {r : Added × Paths} (h : i.mnemonic = .JSR ∧ i.mode = .absXInd)
      (hr : Added.continueCall { Added.none with
        table := some (targets, nxt.atEntry), tableInterp := someInterp interp } i nxt exits =
        .ok r) : Follows i nxt r
  | tableJump (targets interp : List (BitVec 24)) (exits : Finset ExitState)
      (h : i.mnemonic = .JMP ∧ i.mode = .absXInd) :
    Follows i nxt ({ Added.none with
      table := some (targets, nxt.atEntry)
      exitStates := exits, tableInterp := someInterp interp }, [])
  | stop (h : i.mnemonic.isStop) : Follows i nxt (Added.none, [])
  | plain (h : i.mnemonic.isControl = false) : Follows i nxt (Added.none, [(i.nextAddr, nxt)])

section

variable {S : Type} (R : Resolver S) {i : Insn} (nxt : State)

theorem followCall_cases {kind : CallKind}
    (h : i.mnemonic = .JSR ∧ i.mode = .abs ∧ kind = .JSR ∨ i.mnemonic = .JSL ∧ kind = .JSL) :
    Returns (i.followCall R nxt kind) (i.Follows nxt) := by
  have htarget : i.mnemonic = .JSR ∧ i.mode = .abs ∧
        (if kind = .JSR then i.jumpTo else i.operand) = i.jumpTo ∨
      i.mnemonic = .JSL ∧ (if kind = .JSR then i.jumpTo else i.operand) = i.operand := by
    rcases h with ⟨hm, hmode, rfl⟩ | ⟨hm, rfl⟩
    · exact .inl ⟨hm, hmode, rfl⟩
    · exact .inr ⟨hm, rfl⟩
  refine Returns.bind (returns_any _) fun exits _ => ?_
  cases exits with
  | some exits => exact returns_raised fun r hr => .call htarget hr
  | none => exact returns_raised fun r hr => .interpCall htarget hr

theorem followTable_cases (h : i.mnemonic = .JSR ∨ i.mnemonic = .JMP) (hmode : i.mode = .absXInd) :
    Returns (i.followTable R nxt) (i.Follows nxt) := by
  have hjsr (hm : ¬i.mnemonic = .JMP) : i.mnemonic = .JSR := h.resolve_right hm
  refine spec_ite (fun _ => returns_throw) fun _ => spec_ite (fun _ => ?_) fun _ => ?_
  · refine spec_ite (fun hm => returns_pure (.dynJump ⟨hm, hmode⟩)) fun hm => ?_
    exact returns_raised fun r hr => .dynCall ⟨hjsr hm, hmode⟩ hr
  · refine Returns.bind (returns_any _) fun targets _ => spec_ite (fun hm => ?_) fun hm => ?_
    · exact Returns.bind (returns_any _) fun exits _ =>
        returns_pure (.tableJump _ _ _ ⟨hm, hmode⟩)
    · exact Returns.bind (returns_any _) fun exits _ =>
        returns_raised fun r hr => .tableCall ⟨hjsr hm, hmode⟩ hr

theorem followFar_cases (h : i.mnemonic = .JML) :
    Returns (i.followFar R nxt) (i.Follows nxt) :=
  spec_ite (fun _ => returns_pure (.interpTail h)) fun _ =>
    Returns.bind (returns_any _) fun exits _ => returns_pure (.tail exits (.inl ⟨h, rfl⟩))

theorem followJump_cases (entry : BitVec 24) (st : State)
    (h : i.mnemonic = .JMP ∧ i.mode = .abs) :
    Returns (i.followJump R entry st nxt) (i.Follows nxt) := by
  refine Returns.bind (returns_any _) fun exits _ => ?_
  cases exits with
  | some exits => exact returns_pure (.tail exits (.inr ⟨h.1, h.2, rfl⟩))
  | none => exact returns_pure (.jump h)

theorem follow_cases (entry : BitVec 24) (st : State) (i : Insn) :
    Returns (i.follow R entry st nxt) (i.Follows nxt) := by
  unfold Insn.follow
  split
  case h_1 _ hm | h_2 _ hm | h_3 _ hm => exact returns_pure (.ret (by rw [hm]; rfl))
  case h_4 _ hm | h_5 _ hm | h_6 _ hm | h_7 _ hm | h_8 _ hm | h_9 _ hm | h_10 _ hm | h_11 _ hm =>
    exact returns_pure (.branch (by rw [hm]; rfl))
  case h_12 _ hm => exact returns_pure (.always (.inl hm))
  case h_13 _ hm => exact returns_pure (.always (.inr hm))
  case h_14 hm hmode => exact followFar_cases R nxt hm
  case h_15 hm hmode => exact followJump_cases R nxt entry st ⟨hm, hmode⟩
  case h_16 hm hmode => exact followCall_cases R nxt (.inl ⟨hm, hmode, rfl⟩)
  case h_17 hm hmode => exact followCall_cases R nxt (.inr ⟨hm, rfl⟩)
  case h_18 hm hmode => exact followTable_cases R nxt (.inl hm) hmode
  case h_19 hm hmode => exact followTable_cases R nxt (.inr hm) hmode
  case h_21 _ hm | h_22 _ hm | h_23 _ hm | h_24 _ hm =>
    exact returns_pure (.stop (by rw [hm]; rfl))
  case h_20 | h_25 | h_26 | h_27 | h_28 => exact returns_throw
  case h_29 =>
    refine returns_pure (.plain ?_)
    cases hm : i.mnemonic
    all_goals first
      | rfl
      | simp_all

end

/-! Native mode: no accepted instruction turns emulation on. -/

/-- What an instruction adds keeps to the mode `e`. -/
structure Added.Native (a : Added) (e : Bool) : Prop where
  call : ∀ t c, a.call = some (t, c) → c.e = e
  tail : ∀ t c, a.tail = some (t, c) → c.e = e
  table : ∀ ts c, a.table = some (ts, c) → c.e = e

def Stays (e : Bool) (r : Added × Paths) : Prop := r.1.Native e ∧ ∀ w ∈ r.2, w.2.e = e

theorem State.pull_e (st : State) (mn : Mnemonic) (size : Nat) : (st.pull mn size).e = st.e := by
  unfold State.pull
  split <;> rfl

theorem nextState'_native {i : Insn} {st nxt : State} (h : nextState' i st = .ok nxt)
    (he : st.e = false) : nxt.e = false := by
  unfold nextState' at h
  split at h
  · cases h
    unfold State.rep
    rw [if_neg (by rw [he]; decide)]
    exact he
  · cases h
    exact he
  · split at h
    · cases h
    · cases h
    · cases h
      rfl
  · split at h
    · obtain ⟨size, -, h⟩ := bind_eq_ok_iff.mp h
      cases h
      exact he
    · obtain ⟨size, -, h⟩ := bind_eq_ok_iff.mp h
      cases h
      rw [State.pull_e]
      exact he
    · cases h
      exact he

theorem nextState_native {i : Insn} {st nxt : State} (h : nextState i st = .ok nxt)
    (he : st.e = false) : nxt.e = false := by
  obtain ⟨nxt', hnxt, h⟩ := bind_eq_ok_iff.mp h
  cases h
  have hkept : nxt'.e = false := nextState'_native hnxt he
  exact hkept

section

variable {S : Type} {R : Resolver S} {e : Bool} {nxt : State}

theorem none_native {α : Type} {x : Option (α × State)} (h : x = none) :
    ∀ t c, x = some (t, c) → c.e = e := by
  rintro t c rfl
  cases h

theorem own_native {α : Type} {x : Option (α × State)} {t : α}
    (h : x = some (t, nxt.atEntry)) : ∀ t c, x = some (t, c) → c.e = nxt.e := by
  rintro t' c hx
  cases h.symm.trans hx
  rfl

theorem continueCall_stays {a : Added} {i : Insn} {exits : Finset (Option Bool × Option Bool)}
    (ha : a.Native nxt.e) {r : Added × Paths} (h : a.continueCall i nxt exits = .ok r) :
    Stays nxt.e r := by
  obtain ⟨sorted, -, hback⟩ := continueCall_cases h
  refine ⟨⟨?_, ?_, ?_⟩, ?_⟩
  · rw [hback.kept.1]
    exact ha.call
  · rw [hback.kept.2.1]
    exact ha.tail
  · rw [hback.kept.2.2.1]
    exact ha.table
  · intro w hw
    obtain ⟨mx, -, rfl⟩ := hback.next w hw
    rfl

theorem Insn.Follows.stays {i : Insn} {r : Added × Paths} (h : i.Follows nxt r) :
    Stays nxt.e r := by
  have hcall {a : Added} (hcall : a.call = none) (htail : a.tail = none)
      (htable : a.table = none) : a.Native nxt.e :=
    ⟨none_native hcall, none_native htail, none_native htable⟩
  cases h with
  | ret _ => exact ⟨hcall rfl rfl rfl, nofun⟩
  | branch _ => exact ⟨hcall rfl rfl rfl, by simp⟩
  | always _ => exact ⟨hcall rfl rfl rfl, by simp⟩
  | tail _ _ => exact ⟨⟨none_native rfl, own_native rfl, none_native rfl⟩, nofun⟩
  | interpTail _ => exact ⟨hcall rfl rfl rfl, nofun⟩
  | jump _ => exact ⟨hcall rfl rfl rfl, by simp⟩
  | call _ hr =>
    exact continueCall_stays ⟨own_native rfl, none_native rfl, none_native rfl⟩ hr
  | interpCall _ hr => exact continueCall_stays (hcall rfl rfl rfl) hr
  | dynCall _ hr => exact continueCall_stays (hcall rfl rfl rfl) hr
  | dynJump _ => exact ⟨hcall rfl rfl rfl, nofun⟩
  | tableCall _ hr =>
    exact continueCall_stays ⟨none_native rfl, none_native rfl, own_native rfl⟩ hr
  | tableJump _ _ _ _ => exact ⟨⟨none_native rfl, none_native rfl, own_native rfl⟩, nofun⟩
  | stop _ => exact ⟨hcall rfl rfl rfl, nofun⟩
  | plain _ => exact ⟨hcall rfl rfl rfl, by simp⟩

end

end CtRecomp
