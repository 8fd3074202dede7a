import CtRecomp.DecodedPaths
import CtRecomp.Emit
import CtRecomp.RegistryKept

namespace CtRecomp

/-! The control flow of an emitted C function: its labels, its gotos, and what runs on into the
next instruction. -/

/-- `L_ADDR`, or `L_ADDR_mMxX` where the address is decoded in several states. -/
inductive CodeLabel
  | alone (addr : BitVec 24)
  | tagged (addr : BitVec 24) (m x : Option Bool)
deriving DecidableEq

/-- What `label` writes. -/
def Func.labelOf (fn : Func) (k : Key) : CodeLabel :=
  if (fn.insns.map (·.addr)).count k.1 = 1 then .alone k.1 else .tagged k.1 k.2.1 k.2.2.1

/-- Where a statement goes to, if it does. -/
def Stmt.gotos : Stmt → List Key
  | .branch _ dest | .jump _ dest | .gotoMode _ _ dest | .goto dest => [dest]
  | _ => []

/-- Control never gets to the case's `break`. -/
def TableCase.ends : TableCase → Bool
  | .interpJump _ | .hookedJump _ _ | .tail _ => true
  | .interpCall _ _ _ | .hookedCall _ _ _ _ | .run _ => false

/-- Control never gets past the statement: a goto, return, tail, hand-off or fatal error. -/
def Stmt.ends : Stmt → Bool
  | .op i => i.mnemonic.isStop
  | .branch i _ => i.mnemonic = .BRA || i.mnemonic = .BRL
  | .switch _ cases => cases.all fun c => c.2.ends
  | .jump _ _ | .ret _ | .jumpRead | .tail _ | .rest | .externTail _ _ | .goto _ | .fatal _ => true
  | _ => false

/-- A stop's template is a fatal error and nothing else. -/
theorem templates_stop {σ : Type} [Board σ] : ∀ op : BitVec 8, (opcodes op).1.isStop = true →
    (templates op .any : Option (Template σ)) = some (.body fun _ _ => ctFatal) := by
  have hstops : ∀ op : BitVec 8, (opcodes op).1.isStop = true →
      op ∈ [(0x00 : BitVec 8), 0x02, 0xDB, 0xCB] := by decide +kernel
  intro op hop
  have hmem := hstops op hop
  simp only [List.mem_cons, List.not_mem_nil, or_false] at hmem
  rcases hmem with rfl | rfl | rfl | rfl <;> rfl

/-- No statement of a body leaves it. -/
def Block.runsOn (b : Block) : Bool := !b.body.any Stmt.ends

/-- Each instruction has a label of its own, each goto a label there is, and a body that runs on
has the instruction's successor behind it. -/
structure EmittedFn.FlowClosed (E : EmittedFn) : Prop where
  whole : E.blocks.map (·.i) = E.fn.insns
  labels : (E.blocks.map fun b => E.fn.labelOf b.i.key).Nodup
  entry : (E.fn.entry, E.fn.state.key) ∈ E.blocks.map (·.i.key)
  gotos : ∀ b ∈ E.blocks, ∀ s ∈ b.body, ∀ k ∈ s.gotos, k ∈ E.blocks.map (·.i.key)
  runsOn : ∀ before b after, E.blocks = before ++ b :: after → b.runsOn = true →
    ∃ b' rest, after = b' :: rest ∧ b'.i.key = (b.i.nextAddr, E.fn.postOf b.i.key) ∧
      b'.i.key ∈ E.fn.succ b.i.key

/-! What asks for no label but of a decoded instruction. -/

/-- `m` returns in `Q`, and raises no unknown label. -/
abbrev Finds {α : Type} (m : EmitM α) (Q : α → Prop) : Prop :=
  Spec (fun _ => True) m (fun a _ => Q a) fun e _ => ∀ site, e ≠ .notDecoded site

section

variable {α β : Type} {Q : α → Prop}

theorem finds_pure {a : α} (h : Q a) : Finds (pure a) Q := spec_pure fun _ _ => h

theorem finds_throw {e : EmitError} (h : ∀ site, e ≠ .notDecoded site) :
    Finds (throw e : EmitM α) Q := spec_throw fun _ _ => h

theorem Finds.bind {m : EmitM α} {f : α → EmitM β} {Q' : β → Prop} (h : Finds m Q)
    (hf : ∀ a, Q a → Finds (f a) Q') : Finds (m >>= f) Q' :=
  Spec.bind h fun a => spec_of_run (fun _ _ _ hs hrun => (hf a hs).ok trivial hrun)
    fun _ _ _ hs hrun => (hf a hs).error trivial hrun

/-- Whatever the first part returns. -/
theorem Finds.then {m : EmitM α} {f : α → EmitM β} {Q' : β → Prop} (h : Finds m Q)
    (hf : ∀ a, Finds (f a) Q') : Finds (m >>= f) Q' := h.bind fun a _ => hf a

theorem fromRegistry_finds (m : RegM α) : Finds (fromRegistry m) fun _ => True := by
  refine spec_of_run (fun _ _ _ _ _ => trivial) fun s s' e _ hrun => ?_
  unfold fromRegistry at hrun
  split at hrun
  · cases hrun
  · cases hrun
    nofun

theorem anyOf_finds {f : α → EmitM Bool} (h : ∀ a, Finds (f a) fun _ => True) (as : List α) :
    Finds (anyOf f as) fun _ => True := by
  induction as with
  | nil => exact finds_pure trivial
  | cons a as ih =>
    exact (h a).then fun b => spec_ite (fun _ => finds_pure trivial) fun _ => ih

theorem mapM_finds {f : α → EmitM β} (h : ∀ a, Finds (f a) fun _ => True) (as : List α) :
    Finds (as.mapM f) fun _ => True := by
  induction as with
  | nil => exact finds_pure trivial
  | cons a as ih =>
    rw [List.mapM_cons]
    exact (h a).then fun b => ih.then fun bs => finds_pure trivial

end

section

variable {reg : Registry} {overlay : Option String} {fn : Func}

theorem callsExtern_finds (fuel n : Nat) (addr : BitVec 24) (st : State) :
    Finds (callsExtern reg fuel n addr st) fun _ => True := by
  induction n generalizing addr st with
  | zero => exact finds_throw nofun
  | succ n ih =>
    unfold callsExtern
    have hget : Finds (get : EmitM EmitState) fun _ => True := spec_get fun _ _ => trivial
    have hset (f : EmitState → EmitState) : Finds (modify f : EmitM PUnit) fun _ => True :=
      spec_modify fun _ _ => trivial
    refine hget.then fun s => ?_
    split
    · exact finds_pure trivial
    · refine (hset _).then fun _ => (fromRegistry_finds _).then fun fn => ?_
      exact (anyOf_finds (fun c : BitVec 24 × State => ih c.1 c.2) _).then fun reached =>
        (hset _).then fun _ => finds_pure trivial

theorem viaDispatch_finds (fuel : Nat) (target : BitVec 24) (cst : State) :
    Finds (viaDispatch reg fuel target cst) fun _ => True :=
  spec_ite (fun _ => finds_pure trivial) fun _ => callsExtern_finds fuel fuel target cst

theorem dispatched_finds (fuel : Nat) (target : BitVec 24) (cst : State) :
    Finds (dispatched reg fuel target cst) fun _ => True :=
  spec_ite (fun _ => finds_pure trivial) fun _ => viaDispatch_finds fuel target cst

theorem externEdges_finds (fuel : Nat) : Finds (externEdges reg fuel fn) fun _ => True := by
  unfold externEdges
  refine (mapM_finds (fun c : BitVec 24 × State => dispatched_finds fuel c.1 c.2) _).then
    fun direct => ?_
  exact (mapM_finds (fun c : BitVec 24 × State => viaDispatch_finds fuel c.1 c.2) _).then
    fun cases => finds_pure trivial

/-! One instruction's statements. -/

/-- No statement of a body goes to a label. -/
def Gotoless (body : List Stmt) : Prop := ∀ s ∈ body, s.gotos = []

theorem jsrBody_finds (fuel : Nat) (i : Insn) (target : BitVec 24) (cst : State) :
    Finds (jsrBody reg fuel overlay i target cst) Gotoless :=
  (dispatched_finds fuel target cst).then fun b =>
    spec_ite (fun _ => finds_pure (by simp [Gotoless, Stmt.gotos]))
      fun _ => finds_pure (by simp [Gotoless, Stmt.gotos])

theorem jslBody_finds (fuel : Nat) (i : Insn) (target : BitVec 24) (cst : State) :
    Finds (jslBody reg fuel overlay i target cst) Gotoless :=
  (dispatched_finds fuel target cst).then fun b =>
    spec_ite (fun _ => finds_pure (by simp [Gotoless, Stmt.gotos]))
      fun _ => finds_pure (by simp [Gotoless, Stmt.gotos])

theorem tailBody_finds (fuel : Nat) (target : BitVec 24) (cst : State) :
    Finds (tailBody reg fuel overlay target cst)
      fun body => Gotoless body ∧ body.any Stmt.ends = true :=
  (dispatched_finds fuel target cst).then fun b =>
    spec_ite (fun _ => finds_pure (by simp [Gotoless, Stmt.gotos, Stmt.ends]))
      fun _ => finds_pure (by simp [Gotoless, Stmt.gotos, Stmt.ends])

/-- A jump table's case leaves the function. -/
theorem caseBody_finds (fuel : Nat) (i : Insn) (cst : State) (interp : List (BitVec 24))
    (target : BitVec 24) : Finds (caseBody reg fuel overlay i cst interp target)
      fun c => i.opcode ≠ 0xFC → c.ends = true := by
  unfold caseBody
  refine spec_ite (fun _ => finds_pure fun hop => ?_) fun _ =>
    (viaDispatch_finds fuel target cst).then fun b =>
      spec_ite (fun _ => finds_pure fun hop => ?_) fun _ => finds_pure fun hop => ?_ <;>
    · rw [if_neg (by simpa using hop)]
      rfl

theorem casesBody_finds (fuel : Nat) (i : Insn) (cst : State) (interp targets : List (BitVec 24))
    (n : Nat) : Finds (casesBody reg fuel overlay i cst interp n targets)
      fun cs => i.opcode ≠ 0xFC → (cs.all fun c => c.2.ends) = true := by
  induction targets generalizing n with
  | nil => exact finds_pure fun _ => rfl
  | cons target targets ih =>
    refine (caseBody_finds fuel i cst interp target).bind fun c hc =>
      (ih (n + 1)).bind fun cs hcs => finds_pure fun hop => ?_
    rw [List.all_cons, hc hop, hcs hop]
    rfl

theorem tableBody_finds (fuel : Nat) (i : Insn) (targets : List (BitVec 24)) (cst : State) :
    Finds (tableBody reg fuel overlay fn i targets cst)
      fun body => Gotoless body ∧ (i.opcode ≠ 0xFC → body.any Stmt.ends = true) := by
  refine (casesBody_finds fuel i cst _ targets 0).bind fun cs hcs => ?_
  have hstrict (interp : List (BitVec 24)) :
      Gotoless (if interp = [] then [] else [.strictRest i.addr]) := by
    split <;> simp [Gotoless, Stmt.gotos]
  have happend {body body' : List Stmt} (h : Gotoless body) (h' : Gotoless body') :
      Gotoless (body ++ body') := List.forall_mem_append.mpr ⟨h, h'⟩
  refine spec_ite (fun hop => finds_pure ⟨?_, fun hne => absurd hop hne⟩) fun hop =>
    finds_pure ⟨?_, fun _ => ?_⟩
  · exact happend (hstrict _) (by simp [Gotoless, Stmt.gotos])
  · exact happend (hstrict _) (by simp [Gotoless, Stmt.gotos])
  · rw [List.any_append, Bool.or_eq_true]
    exact .inr (by simpa [Stmt.ends] using hcs hop)

theorem plpCheck_finds (i : Insn) (post : Mode) : Finds (plpCheck i post) Gotoless := by
  unfold plpCheck
  refine spec_ite (fun _ => ?_) fun _ => finds_pure (List.forall_mem_nil _)
  split
  · exact finds_pure (by simp [Gotoless, Stmt.gotos])
  · exact finds_throw nofun

/-- Opcodes of instructions that do not run on. -/
theorem opcodes_leave : ∀ op : BitVec 8, (opcodes op).1.fallsThrough = false →
    op ∈ [0x60, 0x6B, 0x40, 0x80, 0x82, 0x4C, 0x6C, 0x7C, 0x5C, 0xDC, 0x00, 0x02, 0xDB, 0xCB] := by
  decide +kernel

/-- A template ends a return and a stop; there is none for an indirect jump. -/
theorem templateBody_finds {i : Insn} (hd : i.Decoded) (w : Width) (hrti : i.opcode ≠ 0x40)
    (hjmp : i.opcode ∉ [(0x4C : BitVec 8), 0x7C, 0x5C])
    (hbranch : ¬(i.mnemonic.isBranch = true ∨ i.mnemonic = .BRA ∨ i.mnemonic = .BRL)) :
    Finds (templateBody i w) fun body => Gotoless body ∧
      (i.mnemonic.fallsThrough = false → body.any Stmt.ends = true) := by
  have hmnemonic : i.mnemonic = (opcodes i.opcode).1 := by rw [hd.op]
  unfold templateBody
  split
  next => exact finds_throw nofun
  next => exact finds_pure ⟨by simp [Gotoless, Stmt.gotos], fun _ => rfl⟩
  next t hret ht =>
    refine finds_pure ⟨by simp [Gotoless, Stmt.gotos], fun hout => ?_⟩
    have hop := opcodes_leave i.opcode (hmnemonic ▸ hout)
    simp only [List.mem_cons, List.not_mem_nil, or_false, not_or] at hop hjmp
    have hstop : i.mnemonic.isStop = true := by
      rw [hmnemonic] at hbranch ⊢
      rcases hop with hop | hop | hop | hop | hop | hop | hop | hop | hop | hop | hop | hop | hop |
        hop
      · rw [hop] at ht
        cases w <;> cases ht
        exact (hret _ rfl).elim
      · rw [hop] at ht
        cases w <;> cases ht
        exact (hret _ rfl).elim
      · exact absurd hop hrti
      · exact absurd (.inr (.inl (by rw [hop]; rfl))) hbranch
      · exact absurd (.inr (.inr (by rw [hop]; rfl))) hbranch
      · exact absurd hop hjmp.1
      · rw [hop] at ht
        cases w <;> cases ht
      · exact absurd hop hjmp.2.1
      · exact absurd hop hjmp.2.2
      · rw [hop] at ht
        cases w <;> cases ht
      all_goals
        rw [hop]
        rfl
    rw [List.any_cons, Stmt.ends, hstop]
    rfl

end

/-! Against what was decoded. -/

section

variable {S : Type} {R : Resolver S} {I : S → Prop} {mem : Image} {entry : BitVec 24}
  {st : State} {P : BitVec 24 → State → Prop} {fn : Func} {found : List (Found S)} {f : Found S}
  {reg : Registry} {overlay : Option String}

/-- Where an instruction goes on is decoded. -/
theorem Decoded.goes_decoded (h : Decoded R I mem entry st P fn found) (hf : f ∈ found)
    {w : BitVec 24 × State} (hw : w ∈ fn.goes f.i f.nxt) :
    (w.1, w.2.key) ∈ fn.insns.map (·.key) := by
  obtain ⟨v, hv, haddr, hkey⟩ := h.goes_next hf rfl hw
  obtain ⟨g, hg, hgkey⟩ := h.closed f hf v hv
  rw [← haddr, ← hkey, ← hgkey]
  exact List.mem_map.mpr ⟨g.i, h.insns.mem_iff.mpr (List.mem_map.mpr ⟨g, hg, rfl⟩), rfl⟩

/-- An instruction that is no call has its own state after it and no other, and no exits. -/
theorem Decoded.no_call (h : Decoded R I mem entry st P fn found) (hf : f ∈ found)
    (hcall : f.i.isCall = false) : fn.postOf f.i.key = f.nxt.key ∧
      fn.callExits.lookup f.i.key = none := by
  have hd := h.dicts hf
  have hnone : f.added.post = none ∧ f.added.callExits = none := by
    have hnotcall : f.i.mnemonic ≠ .JSR ∧ f.i.mnemonic ≠ .JSL := by
      simpa [Insn.isCall] using hcall
    have hfollows := h.follows hf
    generalize hr : (f.added, f.next) = r at hfollows
    have hadded : f.added = r.1 := by rw [← hr]
    rw [hadded]
    cases hfollows with
    | ret | branch | always | tail | interpTail | jump | dynJump | tableJump | stop | plain =>
      exact ⟨rfl, rfl⟩
    | call hm | interpCall hm =>
      rcases hm with ⟨hm, -⟩ | ⟨hm, -⟩
      · exact absurd hm hnotcall.1
      · exact absurd hm hnotcall.2
    | dynCall hm | tableCall hm => exact absurd hm.1 hnotcall.1
  unfold Func.postOf
  rw [hd.post, hd.callExits, hnone.1, hnone.2]
  exact ⟨rfl, rfl⟩

theorem Mnemonic.of_fallsThrough {mn : Mnemonic} (h : mn.fallsThrough = true) :
    mn.isReturn = false ∧ mn.isStop = false ∧ mn ≠ .BRA ∧ mn ≠ .BRL ∧ mn ≠ .JMP ∧ mn ≠ .JML := by
  simpa [Mnemonic.fallsThrough, and_assoc] using h

theorem goes_on {i : Insn} {nxt : State} (hcall : i.isCall = false)
    (hon : i.mnemonic.fallsThrough = true) : (i.nextAddr, nxt) ∈ fn.goes i nxt := by
  have hnotcall : i.mnemonic ≠ .JSR ∧ i.mnemonic ≠ .JSL := by simpa [Insn.isCall] using hcall
  by_cases hbranch : i.mnemonic.isBranch = true
  · rw [goes_branch hbranch]
    exact List.mem_cons_self
  · have hplain : i.mnemonic.isControl = false ∨ i.mnemonic = .WDM := by
      cases hm : i.mnemonic <;> simp_all [Mnemonic.isControl, Mnemonic.fallsThrough]
    rcases hplain with hplain | hwdm
    · rw [goes_plain hplain]
      exact List.mem_cons_self
    · unfold Func.goes
      rw [hwdm]
      exact List.mem_cons_self

/-- Each place a call or a running on goes to is decoded. -/
theorem Decoded.onward_decoded (h : Decoded R I mem entry st P fn found) (hf : f ∈ found)
    (hon : f.i.mnemonic.fallsThrough = true) :
    ∀ k ∈ (fn.callExits.lookup f.i.key).getD [fn.postOf f.i.key],
      (f.i.nextAddr, k) ∈ fn.insns.map (·.key) := by
  intro k hk
  by_cases hcall : f.i.isCall = true
  · refine h.goes_decoded hf (w := (f.i.nextAddr, f.nxt.inMode k)) ?_
    rw [goes_call hcall]
    exact List.mem_map.mpr ⟨k, hk, rfl⟩
  · obtain ⟨hpost, hexits⟩ := h.no_call hf (Bool.eq_false_of_not_eq_true hcall)
    rw [hexits, hpost] at hk
    rw [List.mem_singleton.mp hk]
    exact h.goes_decoded hf (goes_on (Bool.eq_false_of_not_eq_true hcall) hon)

/-- What an instruction that runs on is followed by is its successor. -/
theorem Decoded.onward_succ (h : Decoded R I mem entry st P fn found) (hf : f ∈ found)
    (hon : f.i.mnemonic.fallsThrough = true) (hexits : fn.callExits.lookup f.i.key = none) :
    (f.i.nextAddr, fn.postOf f.i.key) ∈ fn.succ f.i.key := by
  have hd := h.dicts hf
  have hby := h.byKey (h.insns.mem_iff.mpr (List.mem_map.mpr ⟨f, hf, rfl⟩))
  have htails : fn.tails.lookup f.i.key = none ∧ fn.interpTails.lookup f.i.key = none := by
    rw [hd.tails, hd.interpTails]
    have hfollows := h.follows hf
    generalize hr : (f.added, f.next) = r at hfollows
    have hadded : f.added = r.1 := by rw [← hr]
    rw [hadded]
    cases hfollows with
    | ret | branch | always | jump | dynJump | tableJump | stop | plain => exact ⟨rfl, rfl⟩
    | tail _ hm => rcases hm with ⟨hm, -⟩ | ⟨hm, -, -⟩ <;> rw [hm] at hon <;> cases hon
    | interpTail hm =>
      rw [hm] at hon
      cases hon
    | call _ hr | interpCall _ hr | dynCall _ hr | tableCall _ hr =>
      obtain ⟨sorted, -, hback⟩ := continueCall_cases hr
      exact ⟨hback.kept.2.1, hback.kept.2.2.2.2.2.1⟩
  unfold Func.succ
  rw [hby]
  dsimp only
  rw [htails.1, htails.2, hexits]
  obtain ⟨hret, hstop, hbra, hbrl, hjmp, hjml⟩ := Mnemonic.of_fallsThrough hon
  by_cases hbranch : f.i.mnemonic.isBranch = true
  · simp [hret, hjmp, hjml, hbranch]
  · simp [hret, hstop, hbra, hbrl, hjmp, hjml, hbranch]

/-- The body of an instruction that does not run on ends. -/
structure Insn.Fits (fn : Func) (i : Insn) (body : List Stmt) : Prop where
  gotos : ∀ s ∈ body, ∀ k ∈ s.gotos, k ∈ fn.insns.map (·.key)
  ends : i.mnemonic.fallsThrough = false → body.any Stmt.ends = true

theorem Gotoless.gotos {body : List Stmt} (h : Gotoless body) :
    ∀ s ∈ body, ∀ k ∈ s.gotos, k ∈ fn.insns.map (·.key) :=
  fun s hs _ hk => absurd (h s hs ▸ hk) List.not_mem_nil

theorem Gotoless.fits {i : Insn} {body : List Stmt} (h : Gotoless body)
    (hends : i.mnemonic.fallsThrough = false → body.any Stmt.ends = true) : i.Fits fn body :=
  ⟨h.gotos, hends⟩

theorem fits_goto {i : Insn} {s : Stmt} {dest : Key} (hs : s.gotos = [dest])
    (hdest : dest ∈ fn.insns.map (·.key))
    (hends : i.mnemonic.fallsThrough = false → s.ends = true) : i.Fits fn [s] where
  gotos := List.forall_mem_singleton.mpr fun k hk => by
    rw [hs] at hk
    rw [List.mem_singleton.mp hk]
    exact hdest
  ends hout := by rw [List.any_cons, hends hout, Bool.true_or]

theorem label_finds {fn : Func} {site : BitVec 24} {key : Key}
    (h : key ∈ fn.insns.map (·.key)) : Finds (label fn site key) fun k => k = key := by
  unfold label
  rw [if_pos h]
  exact finds_pure rfl

theorem Decoded.insnBody_finds (h : Decoded R I mem entry st P fn found) (hf : f ∈ found)
    (fuel : Nat) : Finds (insnBody reg fuel overlay fn f.i (fn.postOf f.i.key)) (f.i.Fits fn) := by
  have hd := decodeInsn_decoded (h.holds f hf).decoded
  have hmnemonic : f.i.mnemonic = (opcodes f.i.opcode).1 := by rw [hd.op]
  have hmode : f.i.mode = (opcodes f.i.opcode).2 := by rw [hd.op]
  unfold insnBody
  split
  next => exact finds_throw nofun
  next w hw =>
  refine spec_ite (fun _ => ?_) fun hrti => spec_ite (fun hop => ?_) fun htable =>
    spec_ite (fun hop => ?_) fun hcall => spec_ite (fun hop => ?_) fun hfar =>
    spec_ite (fun hop => ?_) fun hjump => spec_ite (fun hbranch => ?_) fun hbranch => ?_
  · exact finds_pure (Gotoless.fits (by simp [Gotoless, Stmt.gotos]) fun _ => rfl)
  · split
    · refine finds_pure (Gotoless.fits ?_ fun hout => ?_)
      · unfold dynTableBody
        split <;> simp [Gotoless, Stmt.gotos]
      · have hjump : f.i.opcode = 0x7C := hop.resolve_left fun hop => by
          rw [hmnemonic, hop] at hout
          cases hout
        unfold dynTableBody
        rw [if_pos hjump]
        rfl
    · refine (tableBody_finds fuel f.i _ _).post fun body _ hbody => hbody.1.fits fun hout => ?_
      refine hbody.2 fun hop => ?_
      rw [hmnemonic, hop] at hout
      cases hout
    · exact finds_throw nofun
  · have hon (hout : f.i.mnemonic.fallsThrough = false) : False := by
      rcases hop with hop | hop <;> rw [hmnemonic, hop] at hout <;> cases hout
    split
    · refine finds_pure (Gotoless.fits ?_ fun hout => (hon hout).elim)
      unfold interpCallBody
      split <;> simp [Gotoless, Stmt.gotos]
    · exact spec_ite
        (fun _ => (jsrBody_finds fuel f.i _ _).post fun _ _ hbody =>
          hbody.fits fun hout => (hon hout).elim)
        fun _ => (jslBody_finds fuel f.i _ _).post fun _ _ hbody =>
          hbody.fits fun hout => (hon hout).elim
    · exact finds_throw nofun
  · split
    · exact finds_pure (Gotoless.fits (by simp [Gotoless, Stmt.gotos]) fun _ => rfl)
    · refine (tailBody_finds fuel _ _).bind fun body hbody => finds_pure (Gotoless.fits ?_ fun _ => ?_)
      · exact List.forall_mem_cons.mpr ⟨rfl, hbody.1⟩
      · rw [List.any_cons, hbody.2, Bool.or_true]
    · exact finds_throw nofun
  · split
    · exact (tailBody_finds fuel _ _).post fun _ _ hbody => hbody.1.fits fun _ => hbody.2
    next hnone =>
      have hcall : f.i.isCall = false := by
        rw [Insn.isCall, hmnemonic, hop]
        rfl
      have hjmp : f.i.mnemonic = .JMP ∧ f.i.mode = .abs := by
        rw [hmnemonic, hmode, hop]
        exact ⟨rfl, rfl⟩
      have hdest := h.goes_decoded hf (w := (f.i.jumpTo, f.nxt)) (by
        rw [goes_jmp hjmp.1, if_pos ⟨hjmp.2, hnone⟩]
        exact List.mem_cons_self)
      rw [(h.no_call hf hcall).1]
      exact (label_finds hdest).bind fun k hk => finds_pure (fits_goto rfl (hk ▸ hdest) fun _ => rfl)
  · have hcall : f.i.isCall = false := by
      rcases hbranch with hm | hm | hm
      · obtain ⟨hjsr, hjsl, -⟩ := Mnemonic.of_isBranch hm
        simp [Insn.isCall, hjsr, hjsl]
      · simp [Insn.isCall, hm]
      · simp [Insn.isCall, hm]
    have hdest := h.goes_decoded hf (w := (f.i.branchTarget, f.nxt)) (by
      rcases hbranch with hm | hm
      · rw [goes_branch hm]
        exact List.mem_cons_of_mem _ List.mem_cons_self
      · rw [goes_always hm]
        exact List.mem_cons_self)
    rw [(h.no_call hf hcall).1]
    refine (label_finds hdest).bind fun k hk => finds_pure (fits_goto rfl (hk ▸ hdest) fun hout => ?_)
    have halways : f.i.mnemonic = .BRA ∨ f.i.mnemonic = .BRL := hbranch.resolve_left fun hm => by
      obtain ⟨-, -, hjmp, hjml, hbra, hbrl, hret, hstop⟩ := Mnemonic.of_isBranch hm
      simp [Mnemonic.fallsThrough, hjmp, hjml, hbra, hbrl, hret, hstop] at hout
    simpa [Stmt.ends] using halways
  · refine (templateBody_finds hd w hrti ?_ hbranch).post fun _ _ hbody => hbody.1.fits hbody.2
    simp only [List.mem_cons, List.not_mem_nil, or_false, not_or]
    exact ⟨hjump, fun hop => htable (.inr hop), hfar⟩

/-- Where each call comes back to has its goto. -/
theorem gotoModes_finds {i : Insn} {ks : List Mode}
    (h : ∀ k ∈ ks, (i.nextAddr, k) ∈ fn.insns.map (·.key)) :
    Finds (gotoModes fn i ks) fun body => ∀ s ∈ body, ∀ k ∈ s.gotos, k ∈ fn.insns.map (·.key) := by
  induction ks with
  | nil => exact finds_pure (List.forall_mem_nil _)
  | cons k ks ih =>
    obtain ⟨hk, hks⟩ := List.forall_mem_cons.mp h
    have hint (b : Option Bool) : Finds (intFlag i.addr b) fun _ => True := by
      cases b with
      | none => exact finds_throw nofun
      | some b => exact finds_pure trivial
    refine (hint _).then fun m => (hint _).then fun x => (label_finds hk).bind fun dest hdest =>
      (ih hks).bind fun rest hrest => finds_pure (List.forall_mem_cons.mpr ⟨fun k' hk' => ?_, hrest⟩)
    rw [List.mem_singleton.mp hk', hdest]
    exact hk

theorem Decoded.onward_finds (h : Decoded R I mem entry st P fn found) (hf : f ∈ found)
    (body : List Stmt) (nxt : Option Insn) :
    Finds (onward fn f.i (fn.postOf f.i.key) body nxt) fun next =>
      (∀ s ∈ next, ∀ k ∈ s.gotos, k ∈ fn.insns.map (·.key)) ∧
      (next.any Stmt.ends = false → f.i.mnemonic.fallsThrough = true →
        nxt.map (·.key) = some (f.i.nextAddr, fn.postOf f.i.key) ∧
          (f.i.nextAddr, fn.postOf f.i.key) ∈ fn.succ f.i.key) := by
  have honward := h.onward_decoded hf
  have hsucc := h.onward_succ hf
  have hcalls : fn.callExits.lookup f.i.key ≠ none → f.i.mnemonic.fallsThrough = true := by
    intro hsome
    by_contra hout
    have hcall : f.i.isCall = false := by
      rw [Insn.isCall]
      revert hout
      cases f.i.mnemonic <;> simp [Mnemonic.fallsThrough, Mnemonic.isReturn, Mnemonic.isStop]
    exact hsome (h.no_call hf hcall).2
  unfold onward
  cases hexits : fn.callExits.lookup f.i.key with
  | none =>
    rw [hexits] at honward
    refine spec_ite (fun hmore => ?_) fun hmore => finds_pure ⟨List.forall_mem_nil _, fun _ hon => ?_⟩
    · have hdest := honward hmore.1 _ List.mem_cons_self
      refine (label_finds hdest).bind fun dest hd => finds_pure ⟨?_, fun hends => by cases hends⟩
      refine List.forall_mem_singleton.mpr fun k hk => ?_
      rw [List.mem_singleton.mp hk, hd]
      exact hdest
    · refine ⟨by_contra fun hnot => hmore ⟨hon, hnot⟩, hsucc hon hexits⟩
  | some exits =>
    rw [hexits] at honward
    have hdests := honward (hcalls (by rw [hexits]; exact Option.some_ne_none _))
    cases exits with
    | nil =>
      refine finds_pure ⟨?_, fun hends => ?_⟩
      · split <;> simp [Stmt.gotos]
      · rw [List.any_append] at hends
        simp [Stmt.ends] at hends
    | cons k ks =>
      refine (gotoModes_finds hdests).bind fun body hbody => finds_pure ⟨?_, fun hends => ?_⟩
      · refine List.forall_mem_append.mpr ⟨hbody, ?_⟩
        simp [Stmt.gotos]
      · rw [List.any_append] at hends
        simp [Stmt.ends] at hends

/-- What a block has, before an instruction. -/
structure Block.Flows (fn : Func) (b : Block) (nxt : Option Insn) : Prop where
  gotos : ∀ s ∈ b.body, ∀ k ∈ s.gotos, k ∈ fn.insns.map (·.key)
  runsOn : b.runsOn = true → nxt.map (·.key) = some (b.i.nextAddr, fn.postOf b.i.key) ∧
    (b.i.nextAddr, fn.postOf b.i.key) ∈ fn.succ b.i.key

theorem Decoded.emitInsn_finds (h : Decoded R I mem entry st P fn found) (hf : f ∈ found)
    (fuel : Nat) (nxt : Option Insn) :
    Finds (emitInsn reg fuel overlay fn f.i nxt) fun b => b.i = f.i ∧ b.Flows fn nxt := by
  refine (h.insnBody_finds hf fuel).bind fun body hbody =>
    (plpCheck_finds f.i _).bind fun plp hplp => (h.onward_finds hf _ nxt).bind fun next hnext =>
    finds_pure ⟨rfl, ?_, fun hon => ?_⟩
  · exact List.forall_mem_append.mpr
      ⟨List.forall_mem_append.mpr ⟨hbody.gotos, hplp.gotos⟩, hnext.1⟩
  · have hends : (body ++ plp ++ next).any Stmt.ends = false := by simpa [Block.runsOn] using hon
    rw [List.any_append, List.any_append, Bool.or_eq_false_iff, Bool.or_eq_false_iff] at hends
    refine hnext.2 hends.2 ?_
    by_contra hout
    rw [hbody.ends (Bool.eq_false_of_not_eq_true hout)] at hends
    cases hends.1.1

/-- One block after the other, each before what the last one was emitted for. -/
theorem Decoded.emitInsns_finds (h : Decoded R I mem entry st P fn found) (fuel : Nat)
    {is : List Insn} (his : ∀ i ∈ is, ∃ f ∈ found, f.i = i) :
    Finds (emitInsns reg fuel overlay fn is) fun bs => bs.map (·.i) = is ∧
      ∀ before b after, bs = before ++ b :: after → b.Flows fn (after.map (·.i)).head? := by
  induction is with
  | nil =>
    refine finds_pure ⟨rfl, fun before b after hsplit => ?_⟩
    cases before <;> cases hsplit
  | cons i is ih =>
    obtain ⟨⟨f, hf, rfl⟩, hrest⟩ := List.forall_mem_cons.mp his
    refine (h.emitInsn_finds hf fuel is.head?).bind fun b hb => (ih hrest).bind fun bs hbs =>
      finds_pure ⟨?_, fun before b' after hsplit => ?_⟩
    · rw [List.map_cons, hb.1, hbs.1]
    · cases before with
      | nil =>
        cases hsplit
        rw [hbs.1]
        exact hb.2
      | cons b'' before =>
        cases hsplit
        exact hbs.2 before b' after rfl

/-! Labels. -/

/-- What counts once is one element. -/
theorem eq_of_count_map {α β : Type} [DecidableEq β] {f : α → β} {as : List α} {b : β}
    (h : (as.map f).count b = 1) {a a' : α} (ha : a ∈ as) (ha' : a' ∈ as) (hb : f a = b)
    (hb' : f a' = b) : a = a' := by
  rw [List.count, List.countP_map, List.countP_eq_length_filter] at h
  obtain ⟨c, hc⟩ := List.length_eq_one_iff.mp h
  have honly {a : α} (ha : a ∈ as) (hb : f a = b) : a = c := by
    refine List.mem_singleton.mp (hc ▸ List.mem_filter.mpr ⟨ha, ?_⟩)
    exact beq_iff_eq.mpr hb
  rw [honly ha hb, honly ha' hb']

/-- Two instructions of one function decoded in native mode have two labels. -/
theorem labelOf_nodup (hnodup : (fn.insns.map (·.key)).Nodup)
    (hnative : ∀ i ∈ fn.insns, i.e = false) :
    (fn.insns.map fun i => fn.labelOf i.key).Nodup := by
  refine List.Nodup.map_on (fun i hi j hj hlabel => ?_) (List.Nodup.of_map _ hnodup)
  by_cases hone : (fn.insns.map (·.addr)).count i.key.1 = 1
  · have haddr : j.addr = i.addr := by
      unfold Func.labelOf at hlabel
      rw [if_pos hone] at hlabel
      split at hlabel
      · exact (CodeLabel.alone.inj hlabel).symm
      · cases hlabel
    exact eq_of_count_map hone hi hj rfl haddr
  · refine List.inj_on_of_nodup_map hnodup hi hj ?_
    unfold Func.labelOf at hlabel
    rw [if_neg hone] at hlabel
    split at hlabel
    · cases hlabel
    · obtain ⟨haddr, hm, hx⟩ := CodeLabel.tagged.inj hlabel
      have he : i.e = j.e := (hnative i hi).trans (hnative j hj).symm
      exact Prod.ext haddr (Prod.ext hm (Prod.ext hx he))

/-- Blocks that flow, one for each instruction, are closed. -/
theorem flowClosed_of_flows {E : EmittedFn} (hwhole : E.blocks.map (·.i) = E.fn.insns)
    (hlabels : (E.fn.insns.map fun i => E.fn.labelOf i.key).Nodup)
    (hentry : (E.fn.entry, E.fn.state.key) ∈ E.fn.insns.map (·.key))
    (hflows : ∀ before b after, E.blocks = before ++ b :: after →
      b.Flows E.fn (after.map (·.i)).head?) : E.FlowClosed := by
  have hkeys : E.blocks.map (·.i.key) = E.fn.insns.map (·.key) := by
    rw [← hwhole, List.map_map]
    rfl
  refine ⟨hwhole, ?_, hkeys ▸ hentry, ?_, ?_⟩
  · rw [← hwhole, List.map_map] at hlabels
    exact hlabels
  · intro b hb s hs k hk
    obtain ⟨before, after, hsplit⟩ := List.append_of_mem hb
    rw [hkeys]
    exact (hflows before b after hsplit).gotos s hs k hk
  · intro before b after hsplit hon
    obtain ⟨hnext, hsucc⟩ := (hflows before b after hsplit).runsOn hon
    cases after with
    | nil => cases hnext
    | cons b' rest =>
      have hkey : b'.i.key = _ := Option.some.inj hnext
      exact ⟨b', rest, rfl, hkey, hkey ▸ hsucc⟩

/-- Emitting a decoded function finds each label, and what it emits is closed. -/
theorem Decoded.emitFunction_finds
    (h : Decoded R I mem entry st (fun _ s => s.e = false) fn found) (fuel : Nat) :
    Finds (emitFunction reg fuel overlay fn) fun E => E.fn = fn ∧ E.FlowClosed := by
  have hkeys : (fn.insns.map (·.key)).Perm (found.map (·.i.key)) := by
    have hmap := h.insns.map (·.key)
    rwa [List.map_map] at hmap
  have hnative : ∀ i ∈ fn.insns, i.e = false := by
    intro i hi
    obtain ⟨f, hf, rfl⟩ := h.find hi
    have hkey := (decodeInsn_key (h.holds f hf).decoded).2
    exact (congrArg (fun k : Key => k.2.2.2) hkey).trans (h.reached f hf)
  have hentry : (fn.entry, fn.state.key) ∈ fn.insns.map (·.key) := by
    obtain ⟨f, hf, hkey⟩ := h.first
    rw [h.start.1, h.start.2, ← hkey]
    exact hkeys.mem_iff.mpr (List.mem_map.mpr ⟨f, hf, rfl⟩)
  have hlabels := labelOf_nodup (hkeys.nodup_iff.mpr h.nodup) hnative
  refine (externEdges_finds fuel).then fun edges => (label_finds hentry).then fun _ =>
    (h.emitInsns_finds fuel fun i hi => ?_).bind fun blocks hblocks =>
      finds_pure ⟨rfl, flowClosed_of_flows hblocks.1 hlabels hentry hblocks.2⟩
  obtain ⟨f, hf, rfl⟩ := h.find hi
  exact ⟨f, hf, rfl⟩

end

/-- Emitting a function decoded from a native entry state asks for no label that is not there,
and what it emits goes to its own labels and runs on into successors only. -/
theorem emitFunction_closed {S : Type} {R : Resolver S} {n : Nat} {mem : Image}
    {entry : BitVec 24} {st : State} {fn : Func} {s s' : S}
    (h : decodeFunction R n mem entry st s = (.ok fn, s')) (hst : st.e = false) (reg : Registry)
    (fuel : Nat) (overlay : Option String) (t : EmitState) :
    (∀ site, (emitFunction reg fuel overlay fn t).1 ≠ .error (.notDecoded site)) ∧
      ∀ E t', emitFunction reg fuel overlay fn t = (.ok E, t') → E.fn = fn ∧ E.FlowClosed := by
  obtain ⟨-, found, hd⟩ := (decodeFunction_decoded (resolver_keeps_true R)
    (carries_native R _ mem entry st) hst n).ok trivial h
  have hfinds : Finds (emitFunction reg fuel overlay fn) _ := hd.emitFunction_finds fuel
  refine ⟨fun site hsite => ?_, fun E t' hrun => hfinds.ok trivial hrun⟩
  exact hfinds.error trivial (Prod.ext hsite rfl) site rfl

/-- Nothing is compiled but what is emitted. -/
def bareRegistry : Registry := ⟨fun _ => none, [], fun _ => none, fun _ => none⟩

theorem emitFunction_closed_plp : ∃ E t',
    emitFunction bareRegistry 1 none plpFunc ⟨.init, fun _ => none⟩ = (.ok E, t') ∧
      E.fn = plpFunc ∧ E.FlowClosed := by
  have hok : (emitFunction bareRegistry 1 none plpFunc ⟨.init, fun _ => none⟩).1.isOk = true := by
    decide +kernel
  have hclosed := (emitFunction_closed plpFunc_decoded rfl bareRegistry 1 none ⟨.init, fun _ => none⟩).2
  generalize hr : emitFunction bareRegistry 1 none plpFunc ⟨.init, fun _ => none⟩ = r at hok
  obtain ⟨e | E, t'⟩ := r
  · cases hok
  · exact ⟨E, t', rfl, hclosed E t' hr⟩

end CtRecomp
