import CtRecomp.EmittedSim
import CtRecomp.HookFree

namespace CtRecomp

/-! All that emit.py writes for the ROM is as it was decoded. -/

/-- What the decoder found of a function, in native mode. -/
def Func.Traced (reg : Registry) (fn : Func) : Prop :=
  ∃ (function : BitVec 24 → State → RegM Func) (I : RegState → Prop) (entry : BitVec 24)
    (st : State) (found : List (Found RegState)),
    Decoded (reg.resolver function) I reg.rom entry st (fun _ s => s.e = false) fn found

/-- Each function cached for native mode has been decoded. -/
def RegState.Traced (reg : Registry) (s : RegState) : Prop :=
  ∀ k fn, s.cache k = some fn → k.2.2.2 = false → fn.Traced reg

section

variable {reg : Registry} {function : BitVec 24 → State → RegM Func}

theorem decodeFunction_traced (hf : ∀ addr st, Keeps (RegState.Traced reg) (function addr st))
    (n : Nat) (addr : BitVec 24) (st : State) :
    Spec (RegState.Traced reg) (decodeFunction (reg.resolver function) n reg.rom addr st)
      (fun fn s => s.Traced reg ∧ (st.e = false → fn.Traced reg)) fun _ s => s.Traced reg := by
  have hR : (reg.resolver function).Keeps (RegState.Traced reg) := Registry.resolver_keeps hf
  by_cases he : st.e = false
  · refine (decodeFunction_decoded hR (carries_native _ _ _ _ _) he n).post ?_
    rintro fn s ⟨hs, found, hfound⟩
    exact ⟨hs, fun _ => ⟨_, _, _, _, _, hfound⟩⟩
  · have hcarries : Carries (reg.resolver function) (RegState.Traced reg) reg.rom addr st
      fun _ _ => True := fun _ _ _ _ _ => trivial
    exact (decodeFunction_decoded hR hcarries trivial n).post
      fun fn s hs => ⟨hs.1, fun hnot => absurd hnot he⟩

theorem RegState.Traced.forget {s : RegState} (h : s.Traced reg) (key : Key)
    (exits : Option (Finset ExitState)) (before : Key → Option Func) :
    ((s.setAssume key exits).forget before).Traced reg := by
  intro k fn hk
  change (if (before k).isSome then s.cache k else none) = some fn at hk
  split at hk
  · exact h k fn hk
  · cases hk

theorem RegState.Traced.setCache {s : RegState} (h : s.Traced reg) {key : Key} {fn : Func}
    (hfn : key.2.2.2 = false → fn.Traced reg) : (s.setCache key fn).Traced reg := by
  intro k fn' hk
  change Function.update s.cache key (some fn) k = some fn' at hk
  by_cases hkey : k = key
  · subst hkey
    rw [Function.update_self] at hk
    cases hk
    exact hfn
  · rw [Function.update_of_ne hkey] at hk
    exact h k fn' hk

theorem fixpoint_traced {decode : RegM Func} {key : Key} {Q : Func → Prop}
    (hd : Spec (RegState.Traced reg) decode (fun fn s => s.Traced reg ∧ Q fn)
      fun _ s => s.Traced reg) :
    Spec (RegState.Traced reg) (Registry.fixpoint decode key) (fun fn s => s.Traced reg ∧ Q fn)
      fun _ s => s.Traced reg := by
  have hrounds (n : Nat) : Spec (RegState.Traced reg) (Registry.rounds decode key n)
      (fun fn s => s.Traced reg ∧ Q fn) fun _ s => s.Traced reg := by
    induction n with
    | zero => exact spec_throw fun _ hs => hs
    | succ n ih =>
      refine Spec.bind (Q := fun _ s => s.Traced reg) (spec_get fun s hs => hs) fun before =>
        hd.bind fun fn => Spec.bind (Q := fun _ s => s.Traced reg ∧ Q fn) (spec_get fun s hs => hs)
          fun s => spec_ite (fun _ => spec_pure fun _ hs => hs) fun _ => ?_
      exact Spec.bind (Q := fun _ s => s.Traced reg)
        (spec_modify fun _ hs => hs.1.forget _ _ _) fun _ => ih
  refine Spec.bind (Q := fun _ s => s.Traced reg) (spec_modify fun _ hs => hs) fun _ => ?_
  exact Spec.finally ((hrounds 16).mono (fun _ hs => hs) (fun _ _ hs => hs) fun _ _ hs => hs)

/-- A query's answer has been decoded. -/
theorem function_traced (n : Nat) (addr : BitVec 24) (st : State) :
    Spec (RegState.Traced reg) (reg.function n addr st)
      (fun fn s => s.Traced reg ∧ (st.e = false → fn.Traced reg)) fun _ s => s.Traced reg := by
  induction n generalizing addr st with
  | zero => exact spec_throw fun _ hs => hs
  | succ n ih =>
    refine Spec.bind (Q := fun s s' => s'.Traced reg ∧ s' = s) (spec_get fun s hs => ⟨hs, rfl⟩)
      fun s => ?_
    split
    case h_1 fn hcache =>
      refine spec_pure fun s' hs => ⟨hs.1, ?_⟩
      rw [hs.2] at hs
      exact hs.1 _ fn hcache
    case h_2 =>
      refine spec_ite (fun _ => spec_throw fun _ hs => hs.1) fun _ => ?_
      have hdecode := decodeFunction_traced
        (fun addr st => (ih addr st).post fun _ _ hs => hs.1) n addr st
      refine Spec.bind (Q := fun _ s => s.Traced reg) (spec_modify fun _ hs => hs.1) fun _ => ?_
      refine Spec.bind (Q := fun fn s => s.Traced reg ∧ (st.e = false → fn.Traced reg))
        (Spec.finally (Spec.tryCatch (Y := fun _ s => s.Traced reg) ?_ fun ex => ?_)) fun fn => ?_
      · exact hdecode.mono (fun _ hs => hs) (fun _ _ hs => hs) fun _ _ hs => hs
      · refine spec_ite (fun _ => ?_) fun _ => spec_throw fun _ hs => hs
        exact (fixpoint_traced hdecode).mono (fun _ hs => hs) (fun _ _ hs => hs) fun _ _ hs => hs
      · exact Spec.bind (Q := fun _ s => s.Traced reg ∧ (st.e = false → fn.Traced reg))
          (spec_modify fun _ hs => ⟨hs.1.setCache hs.2, hs.2⟩) fun _ => spec_pure fun _ hs => hs

end

/-! Emission keeps what `_via_dispatch` keeps. -/

section

variable {reg : Registry} {fuel : Nat} {overlay : Option String} {fn : Func} {i : Insn}
  {I : EmitState → Prop}

theorem keeps_mapM {α β : Type} {f : α → EmitM β} (h : ∀ a, Keeps I (f a)) (as : List α) :
    Keeps I (as.mapM f) := by
  induction as with
  | nil => exact keeps_pure _
  | cons a as ih =>
    rw [List.mapM_cons]
    exact (h a).bind fun b => ih.bind fun bs => keeps_pure _

theorem label_keeps (site : BitVec 24) (key : Key) : Keeps I (label fn site key) :=
  spec_ite (fun _ => keeps_pure _) fun _ => keeps_throw _

theorem gotoModes_keeps (ks : List Mode) : Keeps I (gotoModes fn i ks) := by
  have hflag (b : Option Bool) : Keeps I (intFlag i.addr b) := by
    cases b with
    | none => exact keeps_throw _
    | some b => exact keeps_pure _
  induction ks with
  | nil => exact keeps_pure _
  | cons k ks ih =>
    exact (hflag _).bind fun m => (hflag _).bind fun x => (label_keeps _ _).bind fun dest =>
      ih.bind fun rest => keeps_pure _

theorem onward_keeps (post : Mode) (body : List Stmt) (nxt : Option Insn) :
    Keeps I (onward fn i post body nxt) := by
  unfold onward
  split
  · exact keeps_pure _
  · exact (gotoModes_keeps _).bind fun gotos => keeps_pure _
  · exact spec_ite (fun _ => (label_keeps _ _).bind fun dest => keeps_pure _) fun _ => keeps_pure _

theorem plpCheck_keeps (post : Mode) : Keeps I (plpCheck i post) := by
  refine spec_ite (fun _ => ?_) fun _ => keeps_pure _
  split
  · exact keeps_pure _
  · exact keeps_throw _

theorem templateBody_keeps (w : Width) : Keeps I (templateBody i w) := by
  unfold templateBody
  split
  · exact keeps_throw _
  · exact keeps_pure _
  · exact keeps_pure _

variable (hvia : ∀ target cst, Keeps I (viaDispatch reg fuel target cst))

include hvia

theorem dispatched_keeps (target : BitVec 24) (cst : State) :
    Keeps I (dispatched reg fuel target cst) :=
  spec_ite (fun _ => keeps_pure _) fun _ => hvia target cst

theorem externEdges_keeps : Keeps I (externEdges reg fuel fn) := by
  unfold externEdges
  exact (keeps_mapM (fun c : BitVec 24 × State => dispatched_keeps hvia c.1 c.2) _).bind
    fun direct => (keeps_mapM (fun c : BitVec 24 × State => hvia c.1 c.2) _).bind
    fun cases => keeps_pure _

theorem tailBody_keeps (target : BitVec 24) (cst : State) :
    Keeps I (tailBody reg fuel overlay target cst) :=
  (dispatched_keeps hvia target cst).bind fun _ =>
    spec_ite (fun _ => keeps_pure _) fun _ => keeps_pure _

theorem callBody_keeps (target : BitVec 24) (cst : State) :
    Keeps I (if i.opcode = 0x20 then jsrBody reg fuel overlay i target cst
      else jslBody reg fuel overlay i target cst) :=
  spec_ite
    (fun _ => (dispatched_keeps hvia target cst).bind fun _ =>
      spec_ite (fun _ => keeps_pure _) fun _ => keeps_pure _)
    fun _ => (dispatched_keeps hvia target cst).bind fun _ =>
      spec_ite (fun _ => keeps_pure _) fun _ => keeps_pure _

theorem casesBody_keeps (cst : State) (interp targets : List (BitVec 24)) (n : Nat) :
    Keeps I (casesBody reg fuel overlay i cst interp n targets) := by
  have hcase (target : BitVec 24) : Keeps I (caseBody reg fuel overlay i cst interp target) :=
    spec_ite (fun _ => keeps_pure _) fun _ => (hvia target cst).bind fun _ =>
      spec_ite (fun _ => keeps_pure _) fun _ => keeps_pure _
  induction targets generalizing n with
  | nil => exact keeps_pure _
  | cons t targets ih =>
    exact (hcase t).bind fun c => (ih (n + 1)).bind fun cs => keeps_pure _

theorem tableBody_keeps (targets : List (BitVec 24)) (cst : State) :
    Keeps I (tableBody reg fuel overlay fn i targets cst) :=
  (casesBody_keeps hvia cst _ targets 0).bind fun _ =>
    spec_ite (fun _ => keeps_pure _) fun _ => keeps_pure _

theorem insnBody_keeps (post : Mode) : Keeps I (insnBody reg fuel overlay fn i post) := by
  unfold insnBody
  split
  next => exact keeps_throw _
  next w hw =>
  refine spec_ite (fun _ => keeps_pure _) fun _ => spec_ite (fun _ => ?_) fun _ =>
    spec_ite (fun _ => ?_) fun _ => spec_ite (fun _ => ?_) fun _ => spec_ite (fun _ => ?_)
    fun _ => spec_ite (fun _ => ?_) fun _ => templateBody_keeps w
  · split
    · exact keeps_pure _
    · exact tableBody_keeps hvia _ _
    · exact keeps_throw _
  · split
    · exact keeps_pure _
    · exact callBody_keeps hvia _ _
    · exact keeps_throw _
  · split
    · exact keeps_pure _
    · exact (tailBody_keeps hvia _ _).bind fun _ => keeps_pure _
    · exact keeps_throw _
  · split
    · exact tailBody_keeps hvia _ _
    · exact (label_keeps _ _).bind fun _ => keeps_pure _
  · exact (label_keeps _ _).bind fun _ => keeps_pure _

theorem emitInsns_keeps (is : List Insn) : Keeps I (emitInsns reg fuel overlay fn is) := by
  have hinsn (i : Insn) (nxt : Option Insn) : Keeps I (emitInsn reg fuel overlay fn i nxt) :=
    (insnBody_keeps hvia _).bind fun body => (plpCheck_keeps _).bind fun plp =>
      (onward_keeps _ _ _).bind fun next => keeps_pure _
  induction is with
  | nil => exact keeps_pure _
  | cons i is ih => exact (hinsn i _).bind fun b => ih.bind fun bs => keeps_pure _

theorem emitFunction_keeps : Keeps I (emitFunction reg fuel overlay fn) :=
  (externEdges_keeps hvia).bind fun _ => (label_keeps _ _).bind fun _ =>
    (emitInsns_keeps hvia _).bind fun _ => keeps_pure _

end

/-! The program. -/

section

variable {reg : Registry} {fuel : Nat}

def EmitState.Traced (reg : Registry) (s : EmitState) : Prop := s.reg.Traced reg

theorem fromRegistry_traced {α : Type} {m : RegM α} {Q : α → Prop}
    (h : Spec (RegState.Traced reg) m (fun a s => s.Traced reg ∧ Q a) fun _ s => s.Traced reg) :
    Spec (EmitState.Traced reg) (fromRegistry m) (fun a s => s.Traced reg ∧ Q a)
      fun _ s => s.Traced reg := by
  intro s hs
  have hrun := h s.reg hs
  unfold fromRegistry
  generalize m s.reg = r at hrun
  obtain ⟨e | a, s'⟩ := r
  · exact hrun
  · exact hrun

theorem callsExtern_traced (n : Nat) (addr : BitVec 24) (st : State) :
    Keeps (EmitState.Traced reg) (callsExtern reg fuel n addr st) := by
  induction n generalizing addr st with
  | zero => exact keeps_throw _
  | succ n ih =>
    have hany (cs : List (BitVec 24 × State)) : Keeps (EmitState.Traced reg)
        (anyOf (fun c => callsExtern reg fuel n c.1 c.2) cs) := by
      induction cs with
      | nil => exact keeps_pure _
      | cons c cs ihcs =>
        exact (ih c.1 c.2).bind fun b => spec_ite (fun _ => keeps_pure _) fun _ => ihcs
    have hset (key : Key) (b : Bool) :
        Keeps (EmitState.Traced reg) (modify fun s => s.setMemo key b : EmitM PUnit) :=
      spec_modify fun _ hs => hs
    refine Spec.bind (Q := fun _ s => s.Traced reg) (spec_get fun _ hs => hs) fun s => ?_
    split
    · exact keeps_pure _
    · refine (hset _ _).bind fun _ => Spec.bind (fromRegistry_traced
        (function_traced fuel addr st)) fun fn => ?_
      exact ((hany _).mono (fun _ hs => hs.1) (fun _ _ hs => hs) fun _ _ hs => hs).bind
        fun reached => (hset _ _).bind fun _ => keeps_pure _

theorem viaDispatch_traced (target : BitVec 24) (cst : State) :
    Keeps (EmitState.Traced reg) (viaDispatch reg fuel target cst) :=
  spec_ite (fun _ => keeps_pure _) fun _ => callsExtern_traced fuel target cst

/-- What is emitted of a function is as it was decoded. -/
theorem Func.Traced.emitted {fn : Func} (h : fn.Traced reg) (overlay : Option String) :
    Returns (emitFunction reg fuel overlay fn) (EmittedFn.Sound reg) := by
  obtain ⟨function, I, entry, st, found, h⟩ := h
  refine (returns_any _).bind fun edges _ => (returns_any _).bind fun _ _ =>
    (h.emitInsns_shaped fuel fun i hi => h.find hi).bind fun blocks hblocks => returns_pure ?_
  obtain ⟨hinsns, hshaped⟩ := hblocks
  refine ⟨⟨overlay, rfl⟩, fun before b after hsplit => ⟨hshaped before b after hsplit, ?_⟩⟩
  have hb : b.i ∈ fn.insns := by
    have hblocks : blocks = before ++ b :: after := hsplit
    rw [← hinsns]
    refine List.mem_map_of_mem ?_
    rw [hblocks]
    exact List.mem_append_right _ List.mem_cons_self
  obtain ⟨f, hf, hfi⟩ := h.find hb
  have hmet : f.i.Met reg.rom fn f.cur f.nxt :=
    ⟨(h.holds f hf).decoded, h.reached f hf, (h.holds f hf).transfer, h.no_call hf⟩
  exact ⟨f.cur, f.nxt, hfi ▸ hmet⟩

theorem emitEntry_sound (fm : FuncMeta) {st : State} (he : st.e = false) :
    Spec (EmitState.Traced reg) (emitEntry reg fuel fm st)
      (fun E s => s.Traced reg ∧ E.Sound reg) fun _ s => s.Traced reg := by
  refine Spec.bind (fromRegistry_traced (function_traced fuel fm.addr st)) fun fn => ?_
  exact spec_of_run
    (fun _ _ _ hs hrun => ⟨(emitFunction_keeps viaDispatch_traced).ok hs.1 hrun,
      ((hs.2 he).emitted none).ok trivial hrun⟩)
    fun _ _ _ hs hrun => (emitFunction_keeps viaDispatch_traced).error hs.1 hrun

theorem mapM_sound {α β : Type} {I : EmitState → Prop} {f : α → EmitM β} {Q : β → Prop}
    {as : List α} (h : ∀ a ∈ as, Spec I (f a) (fun b s => I s ∧ Q b) fun _ s => I s) :
    Spec I (as.mapM f) (fun bs s => I s ∧ ∀ b ∈ bs, Q b) fun _ s => I s := by
  induction as with
  | nil => exact spec_pure fun _ hs => ⟨hs, List.forall_mem_nil _⟩
  | cons a as ih =>
    obtain ⟨ha, has⟩ := List.forall_mem_cons.mp h
    rw [List.mapM_cons]
    refine ha.bind fun b => spec_of_run (fun s s' bs hs hrun => ?_) fun s s' e hs hrun => ?_
    · obtain ⟨bs', s₁, hbs, hrun⟩ := bind_ok hrun
      cases hrun
      obtain ⟨hs', hall⟩ := (ih has).ok hs.1 hbs
      exact ⟨hs', List.forall_mem_cons.mpr ⟨hs.2, hall⟩⟩
    · exact ((ih has).bind fun bs => spec_pure fun _ hs => hs.1 :
        Spec I (List.mapM f as >>= fun bs => pure (b :: bs)) (fun _ s => I s) fun _ s => I s).error
          hs.1 hrun

theorem emitModule_sound (metas : List FuncMeta) (name : String) :
    Spec (EmitState.Traced reg) (emitModule reg fuel metas name)
      (fun Es s => s.Traced reg ∧ ∀ E ∈ Es, E.Sound reg) fun _ s => s.Traced reg :=
  spec_ite (fun _ => spec_throw fun _ hs => hs) fun _ =>
    mapM_sound fun e he => emitEntry_sound e.1 (mem_entryPoints he)

theorem splitEmittable_traced (metas : List FuncMeta) :
    Keeps (EmitState.Traced reg) (splitEmittable reg fuel metas) := by
  have hdecodes (fm : FuncMeta) : Keeps (EmitState.Traced reg) (fm.decodes reg fuel) :=
    (keeps_mapM (fun st => (fromRegistry_traced (function_traced fuel fm.addr st)).post
      fun _ _ hs => hs.1) _).bind fun _ => keeps_pure _
  induction metas with
  | nil => exact keeps_pure _
  | cons fm metas ih =>
    refine Spec.bind (Q := fun _ s => s.Traced reg) (Spec.tryCatch (Y := fun _ s => s.Traced reg)
      ?_ fun e => spec_ite (fun _ => keeps_pure _) fun _ => keeps_throw _)
      fun kept => ih.bind fun rest => keeps_pure _
    by_cases hmanual : fm.manual = true
    · simp only [hmanual, if_true]
      exact (hdecodes fm).bind fun _ => keeps_pure _
    · simp only [hmanual]
      exact keeps_pure _

/-- Each of the ROM's functions is as it was decoded. -/
theorem emitMain_sound {only : Option String} {ovs : List OverlaySource} {p : Generated}
    {s : EmitState} (h : emitMain reg fuel only ovs .init = (.ok p, s)) :
    ∀ E ∈ p.rom, E.Sound reg := by
  obtain ⟨metas, s₁, hsplit, h⟩ := bind_ok h
  obtain ⟨rom, s₂, hrom, h⟩ := bind_ok h
  obtain ⟨table, s₃, -, h⟩ := bind_ok h
  obtain ⟨overlays, s₄, -, h⟩ := bind_ok h
  cases h
  have hinit : EmitState.Traced reg .init := fun _ _ hk => by cases hk
  have hs₁ := (splitEmittable_traced reg.metas).ok hinit hsplit
  obtain ⟨-, hmodules⟩ := (mapM_sound fun name _ => emitModule_sound metas name).ok hs₁ hrom
  intro E hE
  obtain ⟨Es, hEs, hmem⟩ := List.mem_flatten.mp hE
  exact hmodules Es hEs E hmem

end

/-- $C00000: JSR $0010 / RTS, $C00010: INX / RTS -/
def relayRom : List (BitVec 8) :=
  [0x20, 0x10, 0x00, 0x60, 0, 0, 0, 0, 0, 0, 0, 0, 0, 0, 0, 0, 0xE8, 0x60]

def relayRegistry : Registry where
  rom := codeAt 0xC00000 relayRom
  metas := [⟨"main", 0xC00000, [(true, true)], "bank_c0", false⟩,
    ⟨"next", 0xC00010, [(true, true)], "bank_c0", false⟩]
  jumptables _ := none
  externs _ := none

inductive Relay
  | board

instance relayBoard : Board Relay where
  rom off := relayRom.getD off.toNat 0
  hwRd _ := none
  hwWr _ := none
  fastrom _ := false

def relayCpu : Cpu :=
  ⟨⟨0, 5, 0, 0x1FD, 0, 0, false, false, true, true, false, false, false, false, false⟩, 0xC0, 0⟩

/-- Its vectors lead to an RTI. -/
def relayBus : Bus Relay := ⟨fun i => if i = 0 then 0x40 else 0, fun _ => 0, .board⟩

theorem relay_onBus : relayRegistry.rom.OnBus Relay := by
  have hall : ∀ k : Fin 18, decodeAddr (0xC00000 + BitVec.ofNat 24 k) = .rom (BitVec.ofNat 22 k) ∧
      relayRom[k.val]? = some (relayRom.getD (BitVec.ofNat 22 k).toNat 0) := by decide +kernel
  intro a v ha bus
  change (if (0xC00000 : BitVec 24) ≤ a then relayRom[(a - 0xC00000).toNat]? else none) =
    some v at ha
  split at ha
  next =>
    obtain ⟨hlt, -⟩ := List.getElem?_eq_some_iff.mp ha
    obtain ⟨hdecode, hbyte⟩ := hall ⟨(a - 0xC00000).toNat, hlt⟩
    have haddr : 0xC00000 + BitVec.ofNat 24 (a - 0xC00000).toNat = a := by
      rw [BitVec.ofNat_toNat, BitVec.setWidth_eq, BitVec.add_comm, BitVec.sub_add_cancel]
    rw [haddr] at hdecode
    unfold Bus.mem
    rw [hdecode, ← ha]
    exact hbyte.symm
  next => cases ha

def relayMoves : List Move := [.insn, .insn, .interrupt true, .insn, .insn, .insn]

end CtRecomp
