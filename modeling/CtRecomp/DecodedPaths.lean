import CtRecomp.AssumedExact

namespace CtRecomp

open Loop

/-! Every path through a decoded function, with its own pushed bytes and carry, against the
states its instructions were decoded in. -/

/-- A path from the entry gets to this address in this state. -/
inductive Func.Reaches (fn : Func) : BitVec 24 → State → Prop
  | entry : Func.Reaches fn fn.entry fn.state
  | step {i : Insn} {cur nxt : State} {w : BitVec 24 × State} (h : Func.Reaches fn i.addr cur)
      (hi : i ∈ fn.insns) (hkey : i.key = (i.addr, cur.key)) (hnxt : nextState i cur = .ok nxt)
      (hw : w ∈ fn.goes i nxt) : Func.Reaches fn w.1 w.2

/-- Every path finds its instructions decoded in its own state, and no state transfer fails
on the way. -/
def Func.PathsAgree (fn : Func) : Prop :=
  ∀ addr cur, fn.Reaches addr cur → ∃ i ∈ fn.insns, i.key = (addr, cur.key) ∧
    ∃ nxt, nextState i cur = .ok nxt

/-- On every path the carry an XCE swaps is known clear, and a PLP restores an M and X that
what follows it is decoded in. -/
def Func.RestoresAgree (fn : Func) : Prop :=
  ∀ i ∈ fn.insns, ∀ cur, fn.Reaches i.addr cur → i.key = (i.addr, cur.key) →
    (i.mnemonic = .XCE → cur.ck = some false) ∧
    (i.mnemonic = .PLP → ∀ nxt, nextState i cur = .ok nxt →
      ∃ j ∈ fn.insns, j.key = (i.nextAddr, nxt.key))

theorem stackSize_key {st₁ st₂ : State} (hkey : st₁.key = st₂.key) (kind : StackKind)
    (addr : BitVec 24) : stackSize kind st₁ addr = stackSize kind st₂ addr := by
  obtain ⟨hm, hx, -⟩ : st₁.m = st₂.m ∧ st₁.x = st₂.x ∧ st₁.e = st₂.e := by
    simpa [State.key] using hkey
  cases kind <;> simp [stackSize, hm, hx]

/-- Apart from XCE, whether the state transfer fails is found from M and X. -/
theorem nextState_total {i : Insn} {st₁ st₂ nxt₁ : State} (hkey : st₁.key = st₂.key)
    (hxce : i.mnemonic = .XCE → st₂.ck = some false) (h : nextState i st₁ = .ok nxt₁) :
    ∃ nxt₂, nextState i st₂ = .ok nxt₂ := by
  have hbody : ∃ nxt₂, nextState' i st₂ = .ok nxt₂ := by
    obtain ⟨nxt', h', -⟩ := bind_eq_ok_iff.mp h
    unfold nextState' at h' ⊢
    split at h'
    case h_1 => exact ⟨_, rfl⟩
    case h_2 => exact ⟨_, rfl⟩
    case h_3 hm =>
      rw [hxce hm]
      exact ⟨_, rfl⟩
    case h_4 =>
      split at h'
      · obtain ⟨size, hsize, -⟩ := bind_eq_ok_iff.mp h'
        rw [stackSize_key hkey] at hsize
        simp only [hsize]
        exact ⟨_, rfl⟩
      · obtain ⟨size, hsize, -⟩ := bind_eq_ok_iff.mp h'
        rw [stackSize_key hkey] at hsize
        simp only [hsize]
        exact ⟨_, rfl⟩
      · exact ⟨_, rfl⟩
  obtain ⟨nxt', hnxt⟩ := hbody
  exact ⟨_, bind_eq_ok_iff.mpr ⟨nxt', hnxt, rfl⟩⟩

section

variable {S : Type} {R : Resolver S} {I : S → Prop} {mem : Image} {entry : BitVec 24}
  {st : State} {P : BitVec 24 → State → Prop} {fn : Func} {found : List (Found S)}

theorem ComesBack.goes {a : Added} {i : Insn} {nxt : State} {r : Added × Paths}
    {sorted : List (Option Bool × Option Bool)} (h : ComesBack a i nxt sorted r)
    (hexits : a.callExits = none) {k : Mode}
    (hk : k ∈ r.1.callExits.getD [r.1.post.getD nxt.key]) :
    ∃ w ∈ r.2, w.1 = i.nextAddr ∧ w.2.key = k := by
  cases h with
  | never => cases hk
  | one mx =>
    rw [show ({ a with post := some (nxt.withMx mx).key } : Added).callExits = none from hexits]
      at hk
    exact ⟨_, List.mem_cons_self, rfl, (List.mem_singleton.mp hk).symm⟩
  | several mx mx' rest =>
    obtain ⟨mx'', hmx, rfl⟩ := List.mem_map.mp hk
    rcases List.mem_cons.mp hmx with rfl | hmx
    · exact ⟨_, List.mem_cons_self, rfl, rfl⟩
    · exact ⟨_, List.mem_cons_of_mem _ (List.mem_map.mpr ⟨mx'', List.mem_reverse.mpr hmx, rfl⟩),
        rfl, rfl⟩

/-- Where a path goes on, the decoder went on. -/
theorem Decoded.goes_next (h : Decoded R I mem entry st P fn found) {f : Found S}
    (hf : f ∈ found) {nxt : State} (hkey : nxt.key = f.nxt.key) {w : BitVec 24 × State}
    (hw : w ∈ fn.goes f.i nxt) : ∃ v ∈ f.next, v.1 = w.1 ∧ v.2.key = w.2.key := by
  have hd := h.dicts hf
  have hfollows := h.follows hf
  generalize hr : (f.added, f.next) = r at hfollows
  have hadded : f.added = r.1 := by rw [← hr]
  have hnext : f.next = r.2 := by rw [← hr]
  rw [hnext]
  have hcall {a : Added} {sorted : List (Option Bool × Option Bool)} (hcall : f.i.isCall)
      (hexits : a.callExits = none) (hback : ComesBack a f.i f.nxt sorted r) :
    ∃ v ∈ r.2, v.1 = w.1 ∧ v.2.key = w.2.key := by
    rw [goes_call hcall, hd.callExits, hadded] at hw
    obtain ⟨k, hk, rfl⟩ := List.mem_map.mp hw
    refine hback.goes hexits ?_
    have hrecorded : fn.postOf f.i.key = r.1.post.getD f.nxt.key := by
      unfold Func.postOf
      rw [hd.post, hadded]
      rfl
    rw [hrecorded] at hk
    exact hk
  cases hfollows with
  | ret hm =>
    rw [goes_leaves (.inl hm)] at hw
    cases hw
  | stop hm =>
    rw [goes_leaves (.inr (.inl hm))] at hw
    cases hw
  | interpTail hm =>
    rw [goes_leaves (.inr (.inr hm))] at hw
    cases hw
  | branch hm =>
    rw [goes_branch hm] at hw
    rcases List.mem_cons.mp hw with rfl | hw
    · exact ⟨_, List.mem_cons_self, rfl, hkey.symm⟩
    · rw [List.mem_singleton.mp hw]
      exact ⟨_, List.mem_cons_of_mem _ List.mem_cons_self, rfl, hkey.symm⟩
  | always hm =>
    rw [goes_always hm] at hw
    rw [List.mem_singleton.mp hw]
    exact ⟨_, List.mem_cons_self, rfl, hkey.symm⟩
  | plain hm =>
    rw [goes_plain hm] at hw
    rw [List.mem_singleton.mp hw]
    exact ⟨_, List.mem_cons_self, rfl, hkey.symm⟩
  | jump hm =>
    rw [goes_jmp hm.1, hd.tails, hadded, if_pos ⟨hm.2, rfl⟩] at hw
    rw [List.mem_singleton.mp hw]
    exact ⟨_, List.mem_cons_self, rfl, hkey.symm⟩
  | tail _ hm =>
    rcases hm with ⟨hm, -⟩ | ⟨hm, -, -⟩
    · rw [goes_leaves (.inr (.inr hm))] at hw
      cases hw
    · rw [goes_jmp hm, hd.tails, hadded] at hw
      simp at hw
  | dynJump hm | tableJump _ _ _ hm =>
    rw [goes_jmp hm.1, if_neg (by simp [hm.2])] at hw
    cases hw
  | call hm hr =>
    obtain ⟨sorted, -, hback⟩ := continueCall_cases hr
    refine hcall ?_ rfl hback
    rcases hm with ⟨hm, -⟩ | ⟨hm, -⟩ <;> simp [Insn.isCall, hm]
  | interpCall hm hr =>
    obtain ⟨sorted, -, hback⟩ := continueCall_cases hr
    refine hcall ?_ rfl hback
    rcases hm with ⟨hm, -⟩ | ⟨hm, -⟩ <;> simp [Insn.isCall, hm]
  | dynCall hm hr =>
    obtain ⟨sorted, -, hback⟩ := continueCall_cases hr
    exact hcall (by simp [Insn.isCall, hm.1]) rfl hback
  | tableCall hm hr =>
    obtain ⟨sorted, -, hback⟩ := continueCall_cases hr
    exact hcall (by simp [Insn.isCall, hm.1]) rfl hback

theorem Decoded.reaches_decoded (h : Decoded R I mem entry st P fn found)
    (hre : fn.RestoresAgree) {addr : BitVec 24} {cur : State} (hr : fn.Reaches addr cur) :
    ∃ i ∈ fn.insns, i.key = (addr, cur.key) := by
  induction hr with
  | entry =>
    obtain ⟨f, hf, hkey⟩ := h.first
    refine ⟨f.i, h.insns.mem_iff.mpr (List.mem_map.mpr ⟨f, hf, rfl⟩), ?_⟩
    rw [hkey, h.made]
    simp
  | @step i cur nxt w hr hi hkey hnxt hw ih =>
    by_cases hplp : i.mnemonic = .PLP
    · obtain ⟨j, hj, hjkey⟩ := (hre i hi cur hr hkey).2 hplp nxt hnxt
      refine ⟨j, hj, ?_⟩
      rw [goes_plain (by rw [hplp]; rfl)] at hw
      rw [hjkey, List.mem_singleton.mp hw]
    · obtain ⟨f, hf, rfl⟩ := h.find hi
      have hcur : f.cur.key = cur.key := by
        have hfound := (decodeInsn_key (h.holds f hf).decoded).2
        exact (Prod.mk.inj (hfound.symm.trans hkey)).2
      have hsame := nextState_key hplp hcur (h.holds f hf).transfer hnxt
      obtain ⟨v, hv, haddr, hvkey⟩ := h.goes_next hf hsame.symm hw
      obtain ⟨g, hg, hgkey⟩ := h.closed f hf v hv
      refine ⟨g.i, h.insns.mem_iff.mpr (List.mem_map.mpr ⟨g, hg, rfl⟩), ?_⟩
      rw [hgkey, haddr, hvkey]

end

/-- Merging paths on (address, M, X, E) alone is harmless if and only if it is at each PLP
and each XCE. -/
theorem paths_agree_iff {S : Type} {R : Resolver S} {n : Nat} {mem : Image} {entry : BitVec 24}
    {st : State} {fn : Func} {s s' : S}
    (h : decodeFunction R n mem entry st s = (.ok fn, s')) :
    fn.PathsAgree ↔ fn.RestoresAgree := by
  have hcarries : Carries R (fun _ => True) mem entry st fun _ _ => True :=
    fun _ _ _ _ _ => trivial
  obtain ⟨-, found, hd⟩ := (decodeFunction_decoded (resolver_keeps_true R) hcarries trivial n).ok
    trivial h
  have hsame {i j : Insn} (hi : i ∈ fn.insns) (hj : j ∈ fn.insns) (hkey : i.key = j.key) :
      i = j := by
    have hby := hd.byKey hi
    rw [hkey, hd.byKey hj] at hby
    exact (Option.some.inj hby).symm
  constructor
  · intro hagree i hi cur hr hkey
    refine ⟨fun hxce => ?_, fun hplp nxt hnxt => ?_⟩
    · obtain ⟨j, hj, hjkey, nxt, hnxt⟩ := hagree i.addr cur hr
      obtain rfl := hsame hi hj (hkey.trans hjkey.symm)
      obtain ⟨nxt', hnxt', -⟩ := bind_eq_ok_iff.mp hnxt
      unfold nextState' at hnxt'
      simp only [hxce] at hnxt'
      split at hnxt'
      · cases hnxt'
      · cases hnxt'
      · assumption
    · have hw : (i.nextAddr, nxt) ∈ fn.goes i nxt := by
        rw [goes_plain (by rw [hplp]; rfl)]
        exact List.mem_cons_self
      obtain ⟨j, hj, hjkey, -⟩ := hagree _ _ (.step hr hi hkey hnxt hw)
      exact ⟨j, hj, hjkey⟩
  · intro hre addr cur hr
    obtain ⟨i, hi, hkey⟩ := hd.reaches_decoded hre hr
    refine ⟨i, hi, hkey, ?_⟩
    obtain ⟨f, hf, rfl⟩ := hd.find hi
    have haddr : f.i.addr = addr := (Prod.mk.inj hkey).1
    have hcur : f.cur.key = cur.key := by
      have hfound := (decodeInsn_key (hd.holds f hf).decoded).2
      exact (Prod.mk.inj (hfound.symm.trans hkey)).2
    subst haddr
    exact nextState_total hcur (hre f.i hi cur hr hkey).1 (hd.holds f hf).transfer

/-! A path into an XCE past the CLC before it. -/

/-- $E48000: BEQ $8003 / CLC / XCE / RTS -/
def xceCode : Image := codeAt 0xE48000 [0xF0, 0x01, 0x18, 0xFB, 0x60]

def xceFunc : Func :=
  match (decodeFunction noneCompiled 8 xceCode 0xE48000 (.of (some true) (some true) false) ()).1
  with
  | .ok fn => fn
  | .error _ => .start 0 (.of none none false)

theorem xceFunc_decoded :
    decodeFunction noneCompiled 8 xceCode 0xE48000 (.of (some true) (some true) false) () =
      (.ok xceFunc, ()) := by
  have hok : (decodeFunction noneCompiled 8 xceCode 0xE48000
      (.of (some true) (some true) false) ()).1.isOk = true := by decide +kernel
  unfold xceFunc
  generalize hr : decodeFunction noneCompiled 8 xceCode 0xE48000
    (.of (some true) (some true) false) () = r at hok
  obtain ⟨e | fn, u⟩ := r
  · cases hok
  · rfl

theorem paths_agree_iff_xce : xceFunc.PathsAgree ↔ xceFunc.RestoresAgree :=
  paths_agree_iff xceFunc_decoded

/-- The branch gets to the XCE with its carry unknown. -/
theorem xceFunc_paths_differ : ∃ fn, decodeFunction noneCompiled 8 xceCode 0xE48000
    (.of (some true) (some true) false) () = (.ok fn, ()) ∧ ¬fn.PathsAgree := by
  refine ⟨xceFunc, xceFunc_decoded, fun hagree => ?_⟩
  let st₀ : State := .of (some true) (some true) false
  have hentry : xceFunc.Reaches 0xE48000 st₀ := .entry
  have hbeq : (⟨0xE48000, 0xF0, .BEQ, .rel, 0x01, 2, some true, some true, false⟩ : Insn) ∈
      xceFunc.insns := by decide +kernel
  have hxce : xceFunc.Reaches 0xE48003 st₀ :=
    @Func.Reaches.step xceFunc _ st₀ st₀ (0xE48003, st₀) hentry hbeq (by decide)
      (by decide +kernel) (by decide +kernel)
  obtain ⟨i, hi, hkey, nxt, hnxt⟩ := hagree _ _ hxce
  have hfail : ∀ i ∈ xceFunc.insns, i.key = (0xE48003, st₀.key) →
      (nextState i st₀).isOk = false := by decide +kernel
  have hnot := hfail i hi hkey
  rw [hnxt] at hnot
  cases hnot

end CtRecomp
