import CtRecomp.AssumedCalls

namespace CtRecomp

/-! When `assumed_calls` has every call that an interpreted callee can change. -/

section

variable {S : Type} {R : Resolver S} {I : S → Prop} {mem : Image} {entry : BitVec 24}
  {st : State} {P : BitVec 24 → State → Prop} {fn : Func} {found : List (Found S)}

theorem Decoded.find (h : Decoded R I mem entry st P fn found) {i : Insn} (hi : i ∈ fn.insns) :
    ∃ f ∈ found, f.i = i := List.mem_map.mp (h.insns.mem_iff.mp hi)

theorem Decoded.byKey (h : Decoded R I mem entry st P fn found) {i : Insn} (hi : i ∈ fn.insns) :
    fn.byKey i.key = some i := by
  unfold Func.byKey
  cases hj : fn.insns.find? fun j => j.key = i.key with
  | none =>
    have hnot := List.find?_eq_none.mp hj i hi
    simp at hnot
  | some j =>
    have hkey : j.key = i.key := by simpa using List.find?_some hj
    have hnodup : (fn.insns.map (·.key)).Nodup := by
      refine (h.insns.map _).nodup_iff.mpr ?_
      rw [List.map_map]
      exact h.nodup
    have hinj := List.inj_on_of_nodup_map hnodup (List.mem_of_find?_eq_some hj) hi hkey
    rw [hinj]

theorem Decoded.follows (h : Decoded R I mem entry st P fn found) {f : Found S}
    (hf : f ∈ found) : f.i.Follows f.nxt (f.added, f.next) :=
  (follow_cases R f.nxt entry st f.i).ok trivial (h.holds f hf).followed

/-- What the dictionaries of `fn` hold of an instruction. -/
structure Found.In (f : Found S) (fn : Func) : Prop where
  calls : fn.calls.lookup f.i.key = f.added.call
  tails : fn.tails.lookup f.i.key = f.added.tail
  tables : fn.tables.lookup f.i.key = f.added.table
  post : fn.post.lookup f.i.key = some (f.added.post.getD f.nxt.key)
  callExits : fn.callExits.lookup f.i.key = f.added.callExits
  interpCalls : fn.interpCalls.lookup f.i.key = f.added.interpCall
  dynTables : fn.dynTables.lookup f.i.key = f.added.dynTable
  interpTails : fn.interpTails.lookup f.i.key = f.added.interpTail
  tableInterp : fn.tableInterp.lookup f.i.key = f.added.tableInterp

theorem Decoded.dicts (h : Decoded R I mem entry st P fn found) {f : Found S} (hf : f ∈ found) :
    f.In fn where
  calls := h.lookup Func.calls (·.added.call) (fun _ _ => rfl) rfl (fun _ _ => rfl) hf
  tails := h.lookup Func.tails (·.added.tail) (fun _ _ => rfl) rfl (fun _ _ => rfl) hf
  tables := h.lookup Func.tables (·.added.table) (fun _ _ => rfl) rfl (fun _ _ => rfl) hf
  post := h.lookup Func.post (fun f => some (f.added.post.getD f.nxt.key)) (fun _ _ => rfl) rfl
    (fun _ _ => rfl) hf
  callExits := h.lookup Func.callExits (·.added.callExits) (fun _ _ => rfl) rfl
    (fun _ _ => rfl) hf
  interpCalls := h.lookup Func.interpCalls (·.added.interpCall) (fun _ _ => rfl) rfl
    (fun _ _ => rfl) hf
  dynTables := h.lookup Func.dynTables (·.added.dynTable) (fun _ _ => rfl) rfl (fun _ _ => rfl) hf
  interpTails := h.lookup Func.interpTails (·.added.interpTail) (fun _ _ => rfl) rfl
    (fun _ _ => rfl) hf
  tableInterp := h.lookup Func.tableInterp (·.added.tableInterp) (fun _ _ => rfl) rfl
    (fun _ _ => rfl) hf

theorem Mnemonic.of_isReturn {mn : Mnemonic} (h : mn.isReturn) :
    mn ≠ .JSR ∧ mn ≠ .JSL ∧ mn ≠ .JMP ∧ mn ≠ .BRA ∧ mn ≠ .BRL := by
  cases mn <;> simp_all [Mnemonic.isReturn]

theorem Mnemonic.of_isStop {mn : Mnemonic} (h : mn.isStop) :
    mn ≠ .JSR ∧ mn ≠ .JSL ∧ mn ≠ .JMP ∧ mn ≠ .BRA ∧ mn ≠ .BRL := by
  cases mn <;> simp_all [Mnemonic.isStop]

theorem Mnemonic.of_isBranch {mn : Mnemonic} (h : mn.isBranch) :
    mn ≠ .JSR ∧ mn ≠ .JSL ∧ mn ≠ .JMP ∧ mn ≠ .JML ∧ mn ≠ .BRA ∧ mn ≠ .BRL ∧
      mn.isReturn = false ∧ mn.isStop = false := by
  cases mn <;> simp_all [Mnemonic.isBranch, Mnemonic.isReturn, Mnemonic.isStop]

theorem Mnemonic.of_plain {mn : Mnemonic} (h : mn.isControl = false) :
    mn ≠ .JSR ∧ mn ≠ .JSL ∧ mn ≠ .JMP ∧ mn ≠ .JML ∧ mn ≠ .BRA ∧ mn ≠ .BRL ∧
      mn.isReturn = false ∧ mn.isStop = false ∧ mn.isBranch = false := by
  cases mn <;> simp_all [Mnemonic.isControl, Mnemonic.isBranch, Mnemonic.isReturn, Mnemonic.isStop]

theorem goes_leaves {i : Insn} {nxt : State}
    (h : i.mnemonic.isReturn ∨ i.mnemonic.isStop ∨ i.mnemonic = .JML) : fn.goes i nxt = [] := by
  unfold Func.goes
  cases hm : i.mnemonic <;> simp_all [Mnemonic.isReturn, Mnemonic.isStop]

theorem goes_branch {i : Insn} {nxt : State} (h : i.mnemonic.isBranch) :
    fn.goes i nxt = [(i.nextAddr, nxt), (i.branchTarget, nxt)] := by
  unfold Func.goes
  cases hm : i.mnemonic <;> simp_all [Mnemonic.isReturn, Mnemonic.isStop, Mnemonic.isBranch]

theorem goes_always {i : Insn} {nxt : State} (h : i.mnemonic = .BRA ∨ i.mnemonic = .BRL) :
    fn.goes i nxt = [(i.branchTarget, nxt)] := by
  unfold Func.goes
  rcases h with hm | hm <;> rw [hm]

theorem goes_jmp {i : Insn} {nxt : State} (h : i.mnemonic = .JMP) : fn.goes i nxt =
    if i.mode = .abs ∧ fn.tails.lookup i.key = none then [(i.jumpTo, nxt)] else [] := by
  unfold Func.goes
  rw [h]

theorem goes_plain {i : Insn} {nxt : State} (h : i.mnemonic.isControl = false) :
    fn.goes i nxt = [(i.nextAddr, nxt)] := by
  unfold Func.goes
  cases hm : i.mnemonic <;>
    simp_all [Mnemonic.isControl, Mnemonic.isReturn, Mnemonic.isStop, Mnemonic.isBranch]

/-- A path that is at no call goes where `assumed_calls` follows it. -/
theorem Decoded.goes_succ (h : Decoded R I mem entry st P fn found) {i : Insn}
    (hi : i ∈ fn.insns) {cur nxt : State} (hcur : i.key.2 = cur.key)
    (hnxt : nextState i cur = .ok nxt) (hcall : i.isCall = false) (hplp : i.mnemonic ≠ .PLP)
    {w : BitVec 24 × State} (hw : w ∈ fn.goes i nxt) :
    w.2 = nxt ∧ (w.1, w.2.key) ∈ fn.succ i.key := by
  obtain ⟨f, hf, rfl⟩ := h.find hi
  have hd := h.dicts hf
  have hholds := h.holds f hf
  have hkey : f.nxt.key = nxt.key := by
    have hfound : f.i.key.2 = f.cur.key := by rw [(decodeInsn_key hholds.decoded).2]
    exact nextState_key hplp (hfound.symm.trans hcur) hholds.transfer hnxt
  have hnotcall : f.i.mnemonic ≠ .JSR ∧ f.i.mnemonic ≠ .JSL := by
    simpa [Insn.isCall] using hcall
  have hby := h.byKey hi
  have hfollows := h.follows hf
  generalize hr : (f.added, f.next) = r at hfollows
  have hadded : f.added = r.1 := by rw [← hr]
  have hpost (hnone : r.1.post = none) : fn.postOf f.i.key = nxt.key := by
    unfold Func.postOf
    rw [hd.post, hadded, hnone]
    exact hkey
  unfold Func.succ
  rw [hby]
  dsimp only
  rw [hd.tails, hd.interpTails, hd.tables, hd.dynTables, hd.callExits, hadded]
  cases hfollows with
  | ret hm =>
    rw [goes_leaves (.inl hm)] at hw
    cases hw
  | branch hm =>
    obtain ⟨h₁, h₂, h₃, h₄, h₅, h₆, h₇, h₈⟩ := Mnemonic.of_isBranch hm
    rw [goes_branch hm] at hw
    rw [hpost rfl]
    simp only [Added.none, h₃, h₄, h₇, hm]
    rcases List.mem_cons.mp hw with rfl | hw
    · simp
    · rw [List.mem_singleton.mp hw]
      simp
  | always hm =>
    rw [goes_always hm] at hw
    rw [hpost rfl]
    rw [List.mem_singleton.mp hw]
    rcases hm with hm | hm
    · simp [Added.none, hm, Mnemonic.isReturn, Mnemonic.isBranch]
    · simp [Added.none, hm, Mnemonic.isReturn, Mnemonic.isBranch]
  | tail _ hm =>
    rcases hm with ⟨hm, -⟩ | ⟨hm, -, -⟩
    · rw [goes_leaves (.inr (.inr hm))] at hw
      cases hw
    · rw [goes_jmp hm, hd.tails, hadded] at hw
      simp at hw
  | interpTail hm =>
    rw [goes_leaves (.inr (.inr hm))] at hw
    cases hw
  | jump hm =>
    rw [goes_jmp hm.1, hd.tails, hadded, if_pos ⟨hm.2, rfl⟩] at hw
    rw [hpost rfl]
    rw [List.mem_singleton.mp hw]
    simp [Added.none, hm, Mnemonic.isReturn, Mnemonic.isBranch]
  | stop hm =>
    rw [goes_leaves (.inr (.inl hm))] at hw
    cases hw
  | plain hm =>
    obtain ⟨h₁, h₂, h₃, h₄, h₅, h₆, h₇, h₈, h₉⟩ := Mnemonic.of_plain hm
    rw [goes_plain hm] at hw
    rw [hpost rfl]
    rw [List.mem_singleton.mp hw]
    simp [Added.none, h₃, h₄, h₅, h₆, h₇, h₈, h₉]
  | dynJump hm =>
    rw [goes_jmp hm.1, if_neg (by simp [hm.2])] at hw
    cases hw
  | tableJump _ _ _ hm =>
    rw [goes_jmp hm.1, if_neg (by simp [hm.2])] at hw
    cases hw
  | call hm _ =>
    rcases hm with ⟨hm, -⟩ | ⟨hm, -⟩
    · exact absurd hm hnotcall.1
    · exact absurd hm hnotcall.2
  | interpCall hm _ =>
    rcases hm with ⟨hm, -⟩ | ⟨hm, -⟩
    · exact absurd hm hnotcall.1
    · exact absurd hm hnotcall.2
  | dynCall hm _ => exact absurd hm.1 hnotcall.1
  | tableCall hm _ => exact absurd hm.1 hnotcall.1

theorem goes_call {i : Insn} {nxt : State} (h : i.isCall) : fn.goes i nxt =
    ((fn.callExits.lookup i.key).getD [fn.postOf i.key]).map
      fun k => (i.nextAddr, nxt.inMode k) := by
  unfold Func.goes
  unfold Insn.isCall at h
  rw [Bool.or_eq_true, decide_eq_true_iff, decide_eq_true_iff] at h
  rcases h with hm | hm <;> rw [hm]

/-- A path that comes back from a call that runs no compiled code is at a seed. -/
theorem Decoded.goes_seed (h : Decoded R I mem entry st P fn found) {i : Insn}
    (hi : i ∈ fn.insns) {nxt : State} (hcall : i.isCall) (hbyway : fn.byway i = false)
    {w : BitVec 24 × State} (hw : w ∈ fn.goes i nxt) :
    ((w.1, w.2.key), Finset.univ) ∈ fn.seeds := by
  obtain ⟨f, hf, rfl⟩ := h.find hi
  have hd := h.dicts hf
  have hinterp : fn.interpreted f.i := by
    unfold Func.byway at hbyway
    rw [Bool.or_eq_false_iff, Bool.or_eq_false_iff, hd.calls, hd.tables] at hbyway
    obtain ⟨⟨-, hcalls⟩, htables⟩ := hbyway
    unfold Func.interpreted
    rw [hd.interpCalls, hd.dynTables]
    have hmnemonic : f.i.mnemonic = .JSR ∨ f.i.mnemonic = .JSL := by
      simpa [Insn.isCall] using hcall
    have hfollows := h.follows hf
    generalize hr : (f.added, f.next) = r at hfollows
    have hadded : f.added = r.1 := by rw [← hr]
    rw [hadded] at hcalls htables ⊢
    cases hfollows with
    | call _ hr =>
      obtain ⟨sorted, -, hback⟩ := continueCall_cases hr
      rw [hback.kept.1] at hcalls
      cases hcalls
    | interpCall _ hr =>
      obtain ⟨sorted, -, hback⟩ := continueCall_cases hr
      rw [hback.kept.2.2.2.1]
      rfl
    | dynCall hm hr =>
      obtain ⟨sorted, -, hback⟩ := continueCall_cases hr
      rw [hback.kept.2.2.2.2.1, hm.1]
      simp
    | tableCall _ hr =>
      obtain ⟨sorted, -, hback⟩ := continueCall_cases hr
      rw [hback.kept.2.2.1] at htables
      cases htables
    | ret hm =>
      obtain ⟨h₁, h₂, -⟩ := Mnemonic.of_isReturn hm
      exact absurd hmnemonic (not_or.mpr ⟨h₁, h₂⟩)
    | branch hm =>
      obtain ⟨h₁, h₂, -⟩ := Mnemonic.of_isBranch hm
      exact absurd hmnemonic (not_or.mpr ⟨h₁, h₂⟩)
    | stop hm =>
      obtain ⟨h₁, h₂, -⟩ := Mnemonic.of_isStop hm
      exact absurd hmnemonic (not_or.mpr ⟨h₁, h₂⟩)
    | plain hm =>
      obtain ⟨h₁, h₂, -⟩ := Mnemonic.of_plain hm
      exact absurd hmnemonic (not_or.mpr ⟨h₁, h₂⟩)
    | always hm | tail _ hm | interpTail hm | jump hm | dynJump hm | tableJump _ _ _ hm =>
      exfalso
      rcases hmnemonic with hmn | hmn <;> simp [hmn] at hm
  have hback : (w.1, w.2.key) ∈ (fn.comesBack f.i.key).map fun k => (f.i.nextAddr, k) := by
    rw [goes_call hcall] at hw
    obtain ⟨k, hk, rfl⟩ := List.mem_map.mp hw
    refine List.mem_map.mpr ⟨k, ?_, rfl⟩
    unfold Func.comesBack
    cases hexits : fn.callExits.lookup f.i.key with
    | none =>
      rw [hexits] at hk
      exact hk
    | some es =>
      rw [hexits] at hk
      cases es with
      | nil => cases hk
      | cons e es => exact hk
  unfold Func.seeds
  refine List.mem_flatMap.mpr ⟨f.i, hi, ?_⟩
  rw [if_pos hinterp]
  obtain ⟨k, hk, heq⟩ := List.mem_map.mp hback
  exact List.mem_map.mpr ⟨k, hk, by rw [heq]⟩

theorem Decoded.grounds_keep (h : Decoded R I mem entry st P fn found) {i : Insn}
    (hi : i ∈ fn.insns) {b : Dep} (hb : i.grounds b = false) : b ∈ fn.keep i.key := by
  unfold Func.keep
  rw [h.byKey hi]
  simp [hb]

theorem goes_state {i : Insn} {nxt : State} (hcall : i.isCall = false) {w : BitVec 24 × State}
    (hw : w ∈ fn.goes i nxt) : w.2 = nxt := by
  have hnot : i.mnemonic ≠ .JSR ∧ i.mnemonic ≠ .JSL := by simpa [Insn.isCall] using hcall
  unfold Func.goes at hw
  split at hw
  case h_1 hm => exact absurd hm hnot.1
  case h_2 hm => exact absurd hm hnot.2
  case h_3 =>
    split at hw
    · rw [List.mem_singleton.mp hw]
    · cases hw
  case h_4 | h_5 => rw [List.mem_singleton.mp hw]
  case h_6 =>
    split at hw
    · cases hw
    · split at hw
      · rcases List.mem_cons.mp hw with rfl | hw
        · rfl
        · rw [List.mem_singleton.mp hw]
      · rw [List.mem_singleton.mp hw]

/-- Off the byways, a flag an interpreted callee changed is one `assumed_calls` marks. -/
theorem Func.Replay.marked (h : Decoded R I mem entry st P fn found) {d : Bool} {i : Insn}
    {cur : State} {s : Actual} (hr : fn.Replay d i cur s) :
    i ∈ fn.insns ∧ i.key.2 = cur.key ∧ (cur.e = true → s.Agrees cur) ∧
      (d = true ∨ ∀ b, ¬s.AgreesAt cur b → fn.spread.Marked fn.seeds b i.key) := by
  induction hr with
  | entry hi hkey _ ha =>
    exact ⟨hi, by rw [hkey], fun _ => ha, .inr fun b hb => absurd (ha b) hb⟩
  | @step d i j cur nxt s s' w hr hnxt hw hj hkey hs ih =>
    obtain ⟨hi, hcur, he, hmarked⟩ := ih
    have hnode : j.key ∈ fn.spread.nodes := List.mem_map.mpr ⟨j, hj, rfl⟩
    refine ⟨hj, by rw [hkey], ?_, ?_⟩
    · intro hback
      by_cases hcall : i.isCall
      · rw [if_pos hcall] at hs
        rcases hs.2 with ha | ⟨hnative, -⟩
        · exact ha
        · rw [hback] at hnative
          cases hnative
      · rw [if_neg hcall] at hs
        have hnxtw := goes_state (Bool.eq_false_of_not_eq_true hcall) hw
        rw [hnxtw] at hback ⊢
        have hcure : cur.e = true := by
          by_contra hnot
          rw [nextState_native hnxt (Bool.eq_false_of_not_eq_true hnot)] at hback
          cases hback
        exact fun b => nextState_agrees (.inr hcure) hnxt hs (.inr (he hcure b))
    · cases hmarked with
      | inl hd =>
        left
        rw [hd, Bool.true_or]
      | inr hmarked =>
        cases hby : fn.byway i with
        | true =>
          by_cases ha : s'.Agrees w.2
          · exact .inr fun b hb => absurd (ha b) hb
          · left
            simp [ha]
        | false =>
          right
          intro b hb
          rw [hkey]
          rw [hkey] at hnode
          by_cases hcall : i.isCall
          · exact .seed (h.goes_seed hi hcall hby hw) (Finset.mem_univ b) hnode
          · have hcall := Bool.eq_false_of_not_eq_true hcall
            rw [if_neg (by rw [hcall]; decide)] at hs
            have hplp : i.mnemonic ≠ .PLP := by
              intro hplp
              simp [Func.byway, hplp] at hby
            obtain ⟨hnxtw, hsucc⟩ := h.goes_succ hi hcur hnxt hcall hplp hw
            rw [hnxtw] at hb
            have hflag : ¬(i.grounds b ∧ cur.e = false) ∧ ¬s.AgreesAt cur b := by
              constructor
              · exact fun hg => hb (nextState_agrees (.inl hplp) hnxt hs (.inl hg))
              · exact fun ha => hb (nextState_agrees (.inl hplp) hnxt hs (.inr ha))
            have hnative : cur.e = false := by
              cases hcure : cur.e with
              | true => exact absurd (he hcure b) hflag.2
              | false => rfl
            have hground : i.grounds b = false := by
              cases hg : i.grounds b with
              | true => exact absurd ⟨hg, hnative⟩ hflag.1
              | false => rfl
            exact .step (hmarked b hflag.2) (h.grounds_keep hi hground) hsucc hnode

end

theorem resolver_keeps_true {S : Type} (R : Resolver S) : R.Keeps fun _ => True where
  resolve _ _ _ _ := returns_any _
  tail _ _ _ := returns_any _
  tailRequired _ _ _ := returns_any _

/-- `assumed_calls` has every call whose M or X an interpreted callee can change, if and only
if each it can change past a PLP or a call of compiled code is also reached without a REP or
SEP of M, or of X, from where an interpreted call came back. -/
theorem assumedCalls_exact {S : Type} {R : Resolver S} {n : Nat} {mem : Image}
    {entry : BitVec 24} {st : State} {fn : Func} {s s' : S}
    (h : decodeFunction R n mem entry st s = (.ok fn, s')) :
    (∀ k ∈ fn.callKeys, fn.Depends k → k ∈ fn.assumedCalls) ↔
      ∀ k ∈ fn.callKeys, fn.DependsByway k → fn.Direct k := by
  have hcarries : Carries R (fun _ => True) mem entry st fun _ _ => True :=
    fun _ _ _ _ _ => trivial
  obtain ⟨-, found, hd⟩ := (decodeFunction_decoded (resolver_keeps_true R) hcarries trivial n).ok
    trivial h
  constructor
  · rintro hall k hk ⟨i, cur, a, hr, hkey, hne⟩
    exact (mem_assumedCalls.mp (hall k hk ⟨true, i, cur, a, hr, hkey, hne⟩)).2
  · rintro hby k hk ⟨d, i, cur, a, hr, rfl, hne⟩
    refine mem_assumedCalls.mpr ⟨hk, ?_⟩
    obtain ⟨-, -, -, hd | hmarked⟩ := hr.marked hd
    · exact hby i.key hk ⟨i, cur, a, hd ▸ hr, rfl, hne⟩
    · have hflag : ∃ b, ¬a.AgreesAt cur b := by
        by_contra hall
        exact hne fun b => by_contra fun hb => hall ⟨b, hb⟩
      obtain ⟨b, hb⟩ := hflag
      exact ⟨b, hmarked b hb⟩

/-! A PLP that brings back what an interpreted callee returned with. -/

/-- Bytes at `base`, nothing elsewhere. -/
def codeAt (base : BitVec 24) (code : List (BitVec 8)) : Image := fun a =>
  if base ≤ a then code[(a - base).toNat]? else none

/-- $E48000: JSR $9000 / PHP / REP #$30 / PLP / JSR $9200 / RTS -/
def plpCode : Image :=
  codeAt 0xE48000 [0x20, 0x00, 0x90, 0x08, 0xC2, 0x30, 0x28, 0x20, 0x00, 0x92, 0x60]

/-- Nothing is compiled. -/
def noneCompiled : Resolver Unit where
  missing _ _ _ := true
  resolve site target st _ := throw (.missingTarget site target st)
  tail _ _ _ := pure none
  tailRequired site target st := throw (.missingTarget site target st)
  jumptables _ := false
  tableTargets i := .error (.noTable i.addr)

def plpInsn (k : Nat) : Insn :=
  [⟨0xE48000, 0x20, .JSR, .abs, 0x9000, 3, some true, some false, false⟩,
    ⟨0xE48003, 0x08, .PHP, .impl, 0, 1, some true, some false, false⟩,
    ⟨0xE48004, 0xC2, .REP, .imm, 0x30, 2, some true, some false, false⟩,
    ⟨0xE48006, 0x28, .PLP, .impl, 0, 1, some false, some false, false⟩,
    ⟨0xE48007, 0x20, .JSR, .abs, 0x9200, 3, some true, some false, false⟩].getD k
    ⟨0xE4800A, 0x60, .RTS, .impl, 0, 1, some true, some false, false⟩

def plpFunc : Func :=
  match (decodeFunction noneCompiled 8 plpCode 0xE48000 (.of (some true) (some false) false) ()).1
  with
  | .ok fn => fn
  | .error _ => .start 0 (.of none none false)

theorem plpFunc_decoded :
    decodeFunction noneCompiled 8 plpCode 0xE48000 (.of (some true) (some false) false) () =
      (.ok plpFunc, ()) := by
  have hok : (decodeFunction noneCompiled 8 plpCode 0xE48000
      (.of (some true) (some false) false) ()).1.isOk = true := by decide +kernel
  unfold plpFunc
  generalize hr : decodeFunction noneCompiled 8 plpCode 0xE48000
    (.of (some true) (some false) false) () = r at hok
  obtain ⟨e | fn, u⟩ := r
  · cases hok
  · rfl

theorem plpFunc_insns : plpFunc.insns = (List.range 6).map plpInsn := by decide +kernel

theorem plpInsn_mem (k : Fin 6) : plpInsn k ∈ plpFunc.insns := by
  rw [plpFunc_insns]
  exact List.mem_map.mpr ⟨k, List.mem_range.mpr k.isLt, rfl⟩

/-- $9000 clears M; the PLP brings M back as it left it. -/
theorem plpFunc_depends : plpFunc.Depends (plpInsn 4).key := by
  let st₀ : State := .of (some true) (some false) false
  let st₂ : State := { st₀ with stack := [some (some true, some false)] }
  let st₃ : State := { st₂ with m := some false }
  have h₀ : plpFunc.Replay false (plpInsn 0) st₀ ⟨true, false, []⟩ :=
    .entry (plpInsn_mem 0) (by decide +kernel) rfl (by decide)
  have h₁ : plpFunc.Replay false (plpInsn 1) st₀ ⟨false, false, []⟩ :=
    @Func.Replay.step plpFunc _ _ _ _ st₀ _ _ (0xE48003, st₀) h₀ (by decide +kernel)
      (by decide +kernel) (plpInsn_mem 1) (by decide)
      ⟨rfl, .inr ⟨rfl, .inl (by decide +kernel)⟩⟩
  have h₂ : plpFunc.Replay false (plpInsn 2) st₂ ⟨false, false, [some (false, false)]⟩ :=
    @Func.Replay.step plpFunc _ _ _ _ st₂ _ _ (0xE48004, st₂) h₁ (by decide +kernel)
      (by decide +kernel) (plpInsn_mem 2) (by decide) (by rfl)
  have h₃ : plpFunc.Replay false (plpInsn 3) st₃ ⟨false, false, [some (false, false)]⟩ :=
    @Func.Replay.step plpFunc _ _ _ _ st₃ _ _ (0xE48006, st₃) h₂ (by decide +kernel)
      (by decide +kernel) (plpInsn_mem 3) (by decide) (by rfl)
  have h₄ : plpFunc.Replay true (plpInsn 4) st₀ ⟨false, false, []⟩ :=
    @Func.Replay.step plpFunc _ _ _ _ st₀ _ ⟨false, false, []⟩ (0xE48007, st₀) h₃
      (by decide +kernel) (by decide +kernel) (plpInsn_mem 4) (by decide)
      ⟨rfl, fun mx hmx => by cases hmx; rfl⟩
  exact ⟨true, _, _, _, h₄, rfl, by decide⟩

theorem assumedCalls_exact_plp :
    (∀ k ∈ plpFunc.callKeys, plpFunc.Depends k → k ∈ plpFunc.assumedCalls) ↔
      ∀ k ∈ plpFunc.callKeys, plpFunc.DependsByway k → plpFunc.Direct k :=
  assumedCalls_exact plpFunc_decoded

theorem assumedCalls_misses_plp : ∃ fn, decodeFunction noneCompiled 8 plpCode 0xE48000
    (.of (some true) (some false) false) () = (.ok fn, ()) ∧
    ∃ k ∈ fn.callKeys, fn.Depends k ∧ k ∉ fn.assumedCalls :=
  ⟨plpFunc, plpFunc_decoded, (plpInsn 4).key, by decide +kernel, plpFunc_depends,
    by decide +kernel⟩

end CtRecomp
