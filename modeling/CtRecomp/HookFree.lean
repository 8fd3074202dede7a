import CtRecomp.EmitHooks

namespace CtRecomp

/-! No hook stands in for code under the frame scheduler. -/

section

variable {reg : Registry} {C : Clearing reg} {α : Type}

theorem fromRegistry_emits {m : RegM α} {Q : α → RegState → Prop}
    (h : ∀ s₀ : RegState, Spec s₀.Kept m (fun a s => s₀.Kept s ∧ Q a s) fun _ s => s₀.Kept s) :
    C.Emits (fromRegistry m) fun a s => Q a s.reg := by
  intro s hs
  have hrun := h s.reg
  have holds {reg' : RegState} (hkept : s.reg.Kept reg') : C.Holds { s with reg := reg' } :=
    ⟨hs.1.trans hkept, fun k hk => C.lasts _ _ _ (hs.2 k hk) hkept.1⟩
  unfold fromRegistry
  match hm : m s.reg with
  | (.ok a, reg') =>
    obtain ⟨hkept, hQ⟩ := hrun.ok ⟨.refl _, hs.1.2⟩ hm
    exact Clearing.ends_ok hkept.1 (holds hkept) hQ
  | (.error e, reg') =>
    have hkept := hrun.error ⟨.refl _, hs.1.2⟩ hm
    exact Clearing.ends_error hkept.1 fun _ _ => holds hkept

/-- A caught error leaves the memo right where the emission is strict. -/
theorem tryCatch_emits (hstrict : C.strict = true) {m : EmitM α} {a : α}
    {Q : α → EmitState → Prop} (h : C.Emits m Q) (ha : ∀ s, Q a s) :
    C.Emits (tryCatch m fun e => if e.caught then pure a else throw e) Q := by
  intro s hs
  have hm := h s hs
  rw [tryCatch_run]
  generalize m s = r at hm
  obtain ⟨e | b, s'⟩ := r
  · change C.Ends Q s ((if e.caught = true then pure a else throw e : EmitM α) s')
    cases hcaught : e.caught with
    | true =>
      rw [if_pos rfl]
      exact Clearing.ends_ok hm.grown (hm.error e rfl hstrict hcaught) (ha _)
    | false =>
      rw [if_neg Bool.false_ne_true]
      refine Clearing.ends_error hm.grown fun _ hcaught' => ?_
      rw [hcaught] at hcaught'
      cases hcaught'
  · exact hm

end

/-! The ROM's functions. -/

section

variable (reg : Registry)

/-- While they are emitted: what is clear is in the cache and takes no hook. -/
def romClearing : Clearing reg where
  base := .init
  Clear s k := ∃ fn, s.cache k = some fn ∧ takesHook reg fn = false
  strict := false
  lasts := fun _ _ k ⟨fn, hfn, htakes⟩ hg => ⟨fn, hg k fn hfn, htakes⟩
  found _ _ fn _ hcache htakes := ⟨fn, hcache, htakes⟩
  missing h := by cases h

/-- While the overlays are: nothing clear takes a hook, of what was emitted before. -/
def overlayClearing (base : RegState) : Clearing reg where
  base := base
  Clear _ k := ∀ fn, base.cache k = some fn → takesHook reg fn = false
  strict := true
  lasts _ _ _ h _ := h
  found s k fn hkept hcache htakes fn' hfn' := by
    rw [hkept.1 k fn' hfn'] at hcache
    cases hcache
    exact htakes
  missing _ s k hkept hnone fn hfn := by
    rw [hkept.1 k fn hfn] at hnone
    cases hnone

/-- A function the registry has, entered in native mode. -/
def Func.Cached (fn : Func) (s : RegState) : Prop :=
  ∃ k : Key, s.cache k = some fn ∧ fn.Serves k ∧ k.2.2.2 = false

theorem Func.Cached.lasts {fn : Func} {s s' : RegState} (h : fn.Cached s) (hg : s.Grown s') :
    fn.Cached s' := by
  obtain ⟨k, hcache, hserves⟩ := h
  exact ⟨k, hg k fn hcache, hserves⟩

theorem cName_key {overlay overlay' : Option String} {addr addr' : BitVec 24} {st st' : State}
    (h : cName overlay addr st = cName overlay' addr' st') (he : st.e = st'.e) :
    (addr, st.key) = (addr', st'.key) := by
  obtain ⟨-, haddr, hm, hx⟩ := CName.fn.inj h
  unfold State.key
  rw [haddr, hm, hx, he]

theorem native_of_entryStates {fm : FuncMeta} {st : State} (h : st ∈ fm.entryStates) :
    st.e = false := by
  obtain ⟨mx, -, rfl⟩ := List.mem_map.mp h
  rfl

variable {reg} (fuel : Nat)

theorem function_emits {C : Clearing reg} (addr : BitVec 24) {st : State} (he : st.e = false) :
    C.Emits (fromRegistry (reg.function fuel addr st)) fun fn s =>
      fn.Cached s.reg ∧ fn.Serves (addr, st.key) := by
  refine fromRegistry_emits (Q := fun fn s => fn.Cached s ∧ fn.Serves (addr, st.key)) fun s₀ =>
    (Registry.function_kept fuel addr st).post ?_
  rintro fn s ⟨hkept, hcache⟩
  have hserves := hkept.2 _ fn hcache
  exact ⟨hkept, ⟨_, hcache, hserves, he⟩, hserves⟩

theorem emitEntry_emits (fm : FuncMeta) {st : State} (he : st.e = false) :
    (romClearing reg).Emits (emitEntry reg fuel fm st) fun E s =>
      E.fn.Cached s.reg ∧ (romClearing reg).Code none E s := by
  refine (function_emits fuel fm.addr he).bindOf (fun fn s s' h hg => ⟨h.1.lasts hg, h.2⟩)
    fun fn ⟨_, hfn⟩ => ?_
  refine (emitFunction_emits (hfn.2.native he) fuel).post ?_
  rintro E s ⟨rfl, hcode⟩ ⟨hcached, -⟩
  exact ⟨hcached, hcode⟩

theorem Clearing.Code.lasts {C : Clearing reg} {overlay : Option String} {E : EmittedFn}
    {s s' : EmitState} (h : C.Code overlay E s) (hg : s.reg.Grown s'.reg) :
    C.Code overlay E s' := ⟨h.name, fun g hmem => (h.edges g hmem).lasts hg⟩

theorem mem_entryPoints {metas : List FuncMeta} {e : FuncMeta × State}
    (h : e ∈ entryPoints metas) : e.2.e = false := by
  obtain ⟨fm, -, hmem⟩ := List.mem_flatMap.mp h
  obtain ⟨st, hst, rfl⟩ := List.mem_map.mp hmem
  exact native_of_entryStates hst

theorem emitModule_emits (metas : List FuncMeta) (name : String) :
    (romClearing reg).Emits (emitModule reg fuel metas name) fun Es s => ∀ E ∈ Es,
      E.fn.Cached s.reg ∧ (romClearing reg).Code none E s := by
  refine Clearing.emits_ite (fun _ => Clearing.emits_throw) fun _ => ?_
  exact mapM_emits (fun E s s' h hg => ⟨h.1.lasts hg, h.2.lasts hg⟩) fun e he =>
    emitEntry_emits fuel e.1 (mem_entryPoints he)

/-- An entry of the table is a function's, with whether it takes a hook. -/
def Listed (reg : Registry) (entry : CName × Bool) (s : RegState) : Prop :=
  ∃ fn : Func, fn.Cached s ∧ entry = (cName none fn.entry fn.state, takesHook reg fn)

theorem emitPrototype_emits (fm : FuncMeta) {st : State} (he : st.e = false) :
    (romClearing reg).Emits (emitPrototype reg fuel fm st) fun entry s =>
      Listed reg entry s.reg := by
  refine (function_emits fuel fm.addr he).bind (fun fn s s' h hg => ⟨h.1.lasts hg, h.2⟩)
    fun fn => Clearing.emits_pure fun s ⟨hcached, hserves⟩ => ⟨fn, hcached, ?_⟩
  have hm : fn.state.m = st.m := congrArg Prod.fst hserves.state
  have hx : fn.state.x = st.x := congrArg (fun k => k.2.1) hserves.state
  unfold cName
  rw [hserves.entry, hm, hx]

theorem rom_emits (metas : List FuncMeta) (names : List String) :
    (romClearing reg).Emits (names.mapM fun name => emitModule reg fuel metas name)
      fun rom s => ∀ E ∈ rom.flatten, E.fn.Cached s.reg ∧ (romClearing reg).Code none E s := by
  have hlasts (Es : List EmittedFn) : Lasts fun s => ∀ E ∈ Es,
      E.fn.Cached s.reg ∧ (romClearing reg).Code none E s :=
    fun _ _ h hg E hE => ⟨(h E hE).1.lasts hg, (h E hE).2.lasts hg⟩
  refine (mapM_emits hlasts fun name _ => emitModule_emits fuel metas name).post
    fun rom s hrom E hE => ?_
  obtain ⟨Es, hEs, hmem⟩ := List.mem_flatten.mp hE
  exact hrom Es hEs E hmem

theorem table_emits (metas : List FuncMeta) :
    (romClearing reg).Emits ((entryPoints metas).mapM fun e => emitPrototype reg fuel e.1 e.2)
      fun table s => ∀ entry ∈ table, Listed reg entry s.reg :=
  mapM_emits (fun _ _ _ ⟨fn, hcached, heq⟩ hg => ⟨fn, hcached.lasts hg, heq⟩)
    fun e he => emitPrototype_emits fuel e.1 (mem_entryPoints he)

/-! `split_emittable` asks the registry, and emits nothing. -/

def EmitState.Fresh (s : EmitState) : Prop := s.reg.AllServe ∧ ∀ k, s.memo k = none

theorem function_fresh (fm : FuncMeta) (st : State) :
    Spec EmitState.Fresh (fm.function reg fuel st) (fun _ s => s.Fresh) fun _ s => s.Fresh := by
  intro s hs
  unfold FuncMeta.function fromRegistry
  have hkept := @Registry.function_kept reg s.reg fuel fm.addr st
  match hrun : reg.function fuel fm.addr st s.reg with
  | (.ok fn, reg') => exact ⟨(hkept.ok ⟨.refl _, hs.1⟩ hrun).1.2, hs.2⟩
  | (.error e, reg') => exact ⟨(hkept.error ⟨.refl _, hs.1⟩ hrun).2, hs.2⟩

theorem decodes_fresh (fm : FuncMeta) :
    Spec EmitState.Fresh (fm.decodes reg fuel) (fun _ s => s.Fresh) fun _ s => s.Fresh := by
  have hall (sts : List State) : Spec EmitState.Fresh (sts.mapM fun st => fm.function reg fuel st)
      (fun _ s => s.Fresh) fun _ s => s.Fresh := by
    induction sts with
    | nil => exact spec_pure fun _ hs => hs
    | cons st sts ih =>
      rw [List.mapM_cons]
      exact (function_fresh fuel fm st).bind fun _ => ih.bind fun _ => spec_pure fun _ hs => hs
  exact (hall _).bind fun _ => spec_pure fun _ hs => hs

theorem splitEmittable_fresh (metas : List FuncMeta) :
    Spec EmitState.Fresh (splitEmittable reg fuel metas) (fun _ s => s.Fresh)
      fun _ s => s.Fresh := by
  induction metas with
  | nil => exact spec_pure fun _ hs => hs
  | cons fm metas ih =>
    refine Spec.bind (Q := fun _ s => s.Fresh) (Spec.tryCatch (Y := fun _ s => s.Fresh) ?_ ?_)
      fun kept => ih.bind fun rest => spec_pure fun _ hs => hs
    · by_cases hmanual : fm.manual = true
      · simp only [hmanual, if_true]
        exact (decodes_fresh fuel fm).bind fun _ => spec_pure fun _ hs => hs
      · simp only [hmanual]
        exact spec_pure fun _ hs => hs
    · exact fun e => spec_ite (fun _ => spec_pure fun _ hs => hs) fun _ => spec_throw fun _ hs => hs

/-! Overlays. -/

theorem emitOverlayEntry_emits {C : Clearing reg} (ov : OverlaySource) (addr : BitVec 24)
    {st : State} (he : st.e = false) :
    C.Emits (emitOverlayEntry reg fuel ov addr st) fun E s =>
      takesHook reg E.fn = false ∧ ∃ overlay, C.Code overlay E s := by
  have hdecode : C.Emits (fromRegistry
      (decodeFunction (reg.resolver (reg.function fuel)) fuel (ov.image reg) addr st))
      fun fn _ => fn.Serves (addr, st.key) := by
    refine fromRegistry_emits (Q := fun (fn : Func) _ => fn.Serves (addr, st.key)) fun s₀ => ?_
    exact decodeFunction_serves (Registry.resolver_keeps fun addr st =>
      (Registry.function_kept fuel addr st).post fun _ _ hs => hs.1) _ _ _ _
  refine hdecode.bindOf (fun _ _ _ h _ => h) fun fn ⟨_, hserves⟩ => ?_
  refine Clearing.emits_ite (fun _ => ?_) fun _ => Clearing.emits_throw
  refine Clearing.emits_ite (fun _ => Clearing.emits_throw) fun htakes => ?_
  refine (emitFunction_emits (hserves.native he) fuel).post ?_
  rintro E s ⟨rfl, hcode⟩ -
  exact ⟨by simpa using htakes, _, hcode⟩

theorem emitOverlays_emits {C : Clearing reg} (hstrict : C.strict = true)
    {entries : List (OverlaySource × BitVec 24 × State)} (hentries : ∀ e ∈ entries,
      e.2.2.e = false) :
    C.Emits (emitOverlays reg fuel entries) fun Es s => ∀ E ∈ Es,
      takesHook reg E.fn = false ∧ ∃ overlay, C.Code overlay E s := by
  have hlasts (Es : List EmittedFn) : Lasts fun s => ∀ E ∈ Es,
      takesHook reg E.fn = false ∧ ∃ overlay, C.Code overlay E s := by
    intro s s' h hg E hE
    obtain ⟨htakes, overlay, hcode⟩ := h E hE
    exact ⟨htakes, overlay, hcode.lasts hg⟩
  induction entries with
  | nil => exact Clearing.emits_pure fun _ => List.forall_mem_nil _
  | cons e entries ih =>
    obtain ⟨ov, addr, st⟩ := e
    obtain ⟨he, hrest⟩ := List.forall_mem_cons.mp hentries
    have hkept : C.Emits (do return [← emitOverlayEntry reg fuel ov addr st]) fun Es s =>
        ∀ E ∈ Es, takesHook reg E.fn = false ∧ ∃ overlay, C.Code overlay E s := by
      refine (emitOverlayEntry_emits fuel ov addr he).bind (fun E s s' h hg => ?_) fun E =>
        Clearing.emits_pure fun s hE => List.forall_mem_singleton.mpr hE
      obtain ⟨htakes, overlay, hcode⟩ := h
      exact ⟨htakes, overlay, hcode.lasts hg⟩
    refine (tryCatch_emits hstrict hkept fun _ => List.forall_mem_nil _).bind hlasts
      fun kept => ?_
    refine (ih hrest).bind hlasts fun others => Clearing.emits_pure fun s hothers hkept => ?_
    exact List.forall_mem_append.mpr ⟨hkept, hothers⟩

theorem mem_overlayEntries {ovs : List OverlaySource} {e : OverlaySource × BitVec 24 × State}
    (h : e ∈ overlayEntries ovs) : e.2.2.e = false := by
  obtain ⟨ov, -, hov⟩ := List.mem_flatMap.mp h
  obtain ⟨entry, -, hentry⟩ := List.mem_flatMap.mp hov
  obtain ⟨mx, -, rfl⟩ := List.mem_map.mp hentry
  rfl

end

/-! The program. -/

variable {reg : Registry}

/-- What an emitted program keeps to: `base` is the registry's cache once the ROM's functions
are emitted. -/
structure Safe (reg : Registry) (base : RegState) (p : Generated) : Prop where
  serve : base.AllServe
  rom : ∀ E ∈ p.rom, E.fn.Cached base ∧ E.name = cName none E.fn.entry E.fn.state
  table : ∀ entry ∈ p.table, Listed reg entry base
  overlays : ∀ E ∈ p.overlays, takesHook reg E.fn = false
  edges : ∀ E ∈ p.code, ∃ overlay, ∀ g ∈ E.edges true,
    ∃ target cst, g = callee reg overlay target cst ∧ cst.e = false ∧
      ((reg.externs target).isSome = true → takesHook reg E.fn = true) ∧
      (reg.externs target = none →
        ∀ fn, base.cache (target, cst.key) = some fn → takesHook reg fn = false)

theorem emitMain_safe {fuel : Nat} {only : Option String} {ovs : List OverlaySource}
    {p : Generated} {s : EmitState} (h : emitMain reg fuel only ovs .init = (.ok p, s)) :
    ∃ base, Safe reg base p := by
  obtain ⟨metas, s₁, hsplit, h⟩ := bind_ok h
  obtain ⟨rom, s₂, hrom, h⟩ := bind_ok h
  obtain ⟨table, s₃, htable, h⟩ := bind_ok h
  obtain ⟨overlays, s₄, hoverlays, h⟩ := bind_ok h
  cases h
  have hempty {k : Key} {fn : Func} : RegState.init.cache k ≠ some fn := nofun
  have hinit : EmitState.init.Fresh := ⟨fun _ _ hcache => absurd hcache hempty, fun _ => rfl⟩
  have hfresh : s₁.Fresh := (splitEmittable_fresh fuel reg.metas).ok hinit hsplit
  have hs₁ : (romClearing reg).Holds s₁ := by
    refine ⟨⟨fun _ _ hcache => absurd hcache hempty, hfresh.1⟩, fun k hk => ?_⟩
    rw [hfresh.2 k] at hk
    cases hk
  have hEs := rom_emits fuel metas (emitted only metas) s₁ hs₁
  rw [hrom] at hEs
  obtain ⟨hs₂, hromcode⟩ := hEs.ok rom rfl
  have hentries := table_emits fuel metas s₂ hs₂
  rw [htable] at hentries
  obtain ⟨hs₃, hlisted⟩ := hentries.ok table rfl
  -- the overlays, against the cache as it is by then
  have hs₃' : (overlayClearing reg s₃.reg).Holds s₃ := by
    refine ⟨⟨.refl _, hs₃.1.2⟩, fun k hk fn hcache => ?_⟩
    obtain ⟨fn', hcache', htakes⟩ := hs₃.2 k hk
    rw [hcache] at hcache'
    cases hcache'
    exact htakes
  have hovs := emitOverlays_emits (C := overlayClearing reg s₃.reg) fuel rfl
    (fun e (he : e ∈ overlayEntries ovs) => mem_overlayEntries he) s₃ hs₃'
  rw [hoverlays] at hovs
  obtain ⟨-, hovcode⟩ := hovs.ok overlays rfl
  have hgrown : s₂.reg.Grown s₃.reg := hentries.grown
  refine ⟨s₃.reg, hs₃.1.2, ?_, hlisted, fun E hE => (hovcode E hE).1, ?_⟩
  · intro E hE
    obtain ⟨hcached, hcode⟩ := hromcode E hE
    exact ⟨hcached.lasts hgrown, hcode.name⟩
  · intro E hE
    rcases List.mem_append.mp hE with hE | hE
    · refine ⟨none, fun g hg => ?_⟩
      obtain ⟨target, cst, hname, he, hboundary, hclear⟩ :=
        ((hromcode E hE).2.edges g hg).lasts hgrown
      refine ⟨target, cst, hname, he, hboundary, fun hnone fn hcache => ?_⟩
      obtain ⟨fn', hcache', htakes⟩ := hclear hnone
      rw [hcache] at hcache'
      cases hcache'
      exact htakes
    · obtain ⟨-, overlay, hcode⟩ := hovcode E hE
      exact ⟨overlay, hcode.edges⟩

/-- A name in the table or the ROM's code belongs to one function. -/
theorem Func.Cached.find {base : RegState} {fn : Func} (hcached : fn.Cached base)
    {overlay : Option String} {target : BitVec 24} {cst : State} (he : cst.e = false)
    (hname : cName none fn.entry fn.state = cName overlay target cst) :
    base.cache (target, cst.key) = some fn := by
  obtain ⟨k, hcache, hserves, hk⟩ := hcached
  have hstate : fn.state.e = cst.e := by
    rw [he, ← hk, ← hserves.state]
    rfl
  have hkey := cName_key hname hstate
  rw [hserves.entry, hserves.state] at hkey
  exact hkey ▸ hcache

theorem Func.Cached.unique {base : RegState} {fn fn' : Func} (h : fn.Cached base)
    (h' : fn'.Cached base)
    (hname : cName none fn.entry fn.state = cName none fn'.entry fn'.state) : fn = fn' := by
  obtain ⟨k, hcache, hserves, hk⟩ := h'
  have he : fn'.state.e = false := by
    rw [← hk, ← hserves.state]
    rfl
  have hfind := h.find he hname
  rw [hserves.entry, hserves.state, hcache] at hfind
  exact (Option.some.inj hfind).symm

namespace Safe

variable {base : RegState} {p : Generated}

/-- Code that takes no hook runs none, and nothing that takes one is run but by the dispatcher. -/
theorem edge (h : Safe reg base p) {E : EmittedFn} (hE : E ∈ p.code) {g : CName}
    (hg : g ∈ E.edges true) :
    (takesHook reg E.fn = false → ∀ name, g ≠ .hook name) ∧
      (∀ E' ∈ p.code, E'.name = g → takesHook reg E'.fn = false) ∧ (g, true) ∉ p.table := by
  obtain ⟨overlay, hedges⟩ := h.edges E hE
  obtain ⟨target, cst, rfl, he, hboundary, hclear⟩ := hedges g hg
  unfold callee
  cases hext : reg.externs target with
  | some ext =>
    rw [hext] at hboundary
    refine ⟨fun htakes => ?_, fun E' hE' hname => ?_, fun htable => ?_⟩
    · rw [hboundary rfl] at htakes
      cases htakes
    · rcases List.mem_append.mp hE' with hE' | hE'
      · rw [(h.rom E' hE').2] at hname
        cases hname
      · exact h.overlays E' hE'
    · obtain ⟨fn, -, heq⟩ := h.table _ htable
      cases congrArg Prod.fst heq
  | none =>
    have hclear := hclear hext
    refine ⟨fun _ name => nofun, fun E' hE' hname => ?_, fun htable => ?_⟩
    · rcases List.mem_append.mp hE' with hE' | hE'
      · obtain ⟨hcached, hname'⟩ := h.rom E' hE'
        exact hclear _ (hcached.find he (hname'.symm.trans hname))
      · exact h.overlays E' hE'
    · obtain ⟨fn, hcached, heq⟩ := h.table _ htable
      obtain ⟨hname, htakes⟩ := Prod.mk.inj heq
      rw [hclear fn (hcached.find he hname.symm)] at htakes
      cases htakes

theorem native (h : Safe reg base p) {E : EmittedFn} (hE : p.Native E) :
    E ∈ p.code ∧ takesHook reg E.fn = false := by
  rcases hE with ⟨hrom, htable⟩ | hE
  · refine ⟨List.mem_append_left _ hrom, ?_⟩
    obtain ⟨fn, hcached, heq⟩ := h.table _ htable
    obtain ⟨hname, htakes⟩ := Prod.mk.inj heq
    obtain ⟨hcached', hname'⟩ := h.rom E hrom
    rw [hcached'.unique hcached (hname'.symm.trans hname)]
    exact htakes.symm
  · exact ⟨List.mem_append_right _ hE, h.overlays E hE⟩

end Safe

/-- However the scheduler's native code goes on by calls, table cases and jumps, it runs no
hook; and what takes a hook itself is only ever entered through the dispatcher. -/
theorem hooks_unreached {fuel : Nat} {only : Option String} {ovs : List OverlaySource}
    {p : Generated} {s : EmitState} (h : emitMain reg fuel only ovs .init = (.ok p, s)) :
    (∀ E₀ E, p.Native E₀ → Relation.ReflTransGen (p.Goes true) E₀ E →
      ∀ name, CName.hook name ∉ E.edges true) ∧
    ∀ E ∈ p.code, ∀ g ∈ E.edges true, (g, true) ∉ p.table ∧
      ∀ E' ∈ p.code, E'.name = g → takesHook reg E'.fn = false := by
  obtain ⟨base, hsafe⟩ := emitMain_safe h
  refine ⟨fun E₀ E hnative hgoes => ?_, fun E hE g hg => ?_⟩
  · have hclear : E ∈ p.code ∧ takesHook reg E.fn = false := by
      induction hgoes with
      | refl => exact hsafe.native hnative
      | tail _ hstep ih =>
        obtain ⟨hcode, hname⟩ := hstep
        exact ⟨hcode, (hsafe.edge ih.1 hname).2.1 _ hcode rfl⟩
    intro name hmem
    exact (hsafe.edge hclear.1 hmem).1 hclear.2 name rfl
  · obtain ⟨-, hcode, htable⟩ := hsafe.edge hE hg
    exact ⟨htable, hcode⟩

/-- $C00000: JSR $0010 / RTS, $C00010: a jump to a noreturn extern. -/
def stackSwitch : Registry where
  rom := codeAt 0xC00000 [0x20, 0x10, 0x00, 0x60, 0, 0, 0, 0, 0, 0, 0, 0, 0, 0, 0, 0,
    0x5C, 0x20, 0x00, 0xC0]
  metas := [⟨"main", 0xC00000, [(true, true)], "bank_c0", false⟩,
    ⟨"switch", 0xC00010, [(true, true)], "bank_c0", false⟩]
  jumptables _ := none
  externs a := if a = 0xC00020 then some ⟨.JML, "switch_stack", true, fun _ => rfl⟩ else none

set_option maxRecDepth 10000 in
/-- The call of the second, which takes the hook, goes through the dispatcher. -/
theorem hooks_unreached_stackSwitch : ∃ p s,
    emitMain stackSwitch 30 none [] .init = (.ok p, s) ∧
    p.table.map (·.2) = [false, true] ∧ p.rom.map (·.edges true) = [[], [.hook "switch_stack"]] ∧
    (∀ E₀ E, p.Native E₀ → Relation.ReflTransGen (p.Goes true) E₀ E →
      ∀ name, CName.hook name ∉ E.edges true) ∧
    ∀ E ∈ p.code, ∀ g ∈ E.edges true, (g, true) ∉ p.table ∧
      ∀ E' ∈ p.code, E'.name = g → takesHook stackSwitch E'.fn = false := by
  have hok : (match (emitMain stackSwitch 30 none [] .init).1 with
      | .ok p => decide (p.table.map (·.2) = [false, true] ∧
          p.rom.map (·.edges true) = [[], [.hook "switch_stack"]])
      | .error _ => false) = true := by decide +kernel
  match hrun : emitMain stackSwitch 30 none [] .init with
  | (.ok p, s) =>
    rw [hrun] at hok
    obtain ⟨htable, hedges⟩ := of_decide_eq_true hok
    exact ⟨p, s, rfl, htable, hedges, hooks_unreached hrun⟩
  | (.error e, s) =>
    rw [hrun] at hok
    cases hok

end CtRecomp
