import CtRecomp.Marking
import CtRecomp.Decoded

namespace CtRecomp

open Loop

/-! `assumed_calls` (decode.py): the calls whose M or X rests on what an
interpreted callee kept. -/

instance : Fintype Dep where
  elems := {.m, .x}
  complete := by
    intro b
    cases b <;> decide

/-- `by_key` -/
def Func.byKey (fn : Func) (k : Key) : Option Insn := fn.insns.find? fun i => i.key = k

def Func.postOf (fn : Func) (k : Key) : Mode := (fn.post.lookup k).getD k.2

/-- `fn.call_exits.get(key) or [fn.post[key]]` -/
def Func.comesBack (fn : Func) (k : Key) : List Mode :=
  match fn.callExits.lookup k with
  | some (e :: es) => e :: es
  | _ => [fn.postOf k]

def Func.interpreted (fn : Func) (i : Insn) : Bool :=
  (fn.interpCalls.lookup i.key).isSome ||
    ((fn.dynTables.lookup i.key).isSome && i.mnemonic = .JSR)

/-- Where the interpreted calls come back: M and X are guesses there. -/
def Func.seeds (fn : Func) : List (Key × Finset Dep) :=
  fn.insns.flatMap fun i =>
    if fn.interpreted i then (fn.comesBack i.key).map fun k => ((i.nextAddr, k), Finset.univ)
    else []

/-- M's bit (0x20) of the operand, and X's (0x10). -/
def Insn.bit (i : Insn) : Dep → Bool
  | .m => i.operand.getLsbD 5
  | .x => i.operand.getLsbD 4

/-- A REP or SEP of the flag. -/
def Insn.grounds (i : Insn) (b : Dep) : Bool :=
  (i.mnemonic = .REP || i.mnemonic = .SEP) && i.bit b

def Func.keep (fn : Func) (k : Key) : Finset Dep :=
  match fn.byKey k with
  | some i => Finset.univ.filter fun b => !i.grounds b
  | none => ∅

/-- `succ` -/
def Func.succ (fn : Func) (k : Key) : List Key :=
  match fn.byKey k with
  | none => []
  | some i =>
    let post := fn.postOf k
    if i.mnemonic.isReturn || (fn.tails.lookup k).isSome || (fn.interpTails.lookup k).isSome ||
        ((i.mnemonic = .JMP || i.mnemonic = .JML) &&
          ((fn.tables.lookup k).isSome || (fn.dynTables.lookup k).isSome)) then []
    else
      match fn.callExits.lookup k with
      | some es => es.map fun e => (i.nextAddr, e)
      | none =>
        if i.mnemonic.isBranch then [(i.branchTarget, post), (i.nextAddr, post)]
        else if i.mnemonic = .BRA ∨ i.mnemonic = .BRL then [(i.branchTarget, post)]
        else if i.mnemonic = .JMP ∧ i.mode = .abs then [(i.jumpTo, post)]
        else if i.mnemonic.isStop ∨ i.mnemonic = .JMP ∨ i.mnemonic = .JML then []
        else [(i.nextAddr, post)]

def Func.spread (fn : Func) : Spread Key Dep := ⟨fn.insns.map (·.key), fn.keep, fn.succ⟩

def Func.callKeys (fn : Func) : List Key :=
  fn.calls.map (·.1) ++ fn.interpCalls.map (·.1) ++ fn.tables.map (·.1) ++ fn.dynTables.map (·.1)

/-- The worklist marks an instruction at most twice. -/
def Func.assumedCalls (fn : Func) : List Key :=
  let guess := fn.spread.run (2 * fn.insns.length) (fn.spread.start fn.seeds)
  fn.callKeys.filter fun k => guess.labels k ≠ ∅

/-- A REP- or SEP-free way from an interpreted call's return: of M, or of X. -/
def Func.Direct (fn : Func) (k : Key) : Prop := ∃ b, fn.spread.Marked fn.seeds b k

theorem mem_assumedCalls {fn : Func} {k : Key} :
    k ∈ fn.assumedCalls ↔ k ∈ fn.callKeys ∧ fn.Direct k := by
  have hn : fn.spread.nodes.length * Fintype.card Dep ≤ 2 * fn.insns.length := by
    have hcard : Fintype.card Dep = 2 := rfl
    have hlen : fn.spread.nodes.length = fn.insns.length := List.length_map _
    rw [hcard, hlen, Nat.mul_comm]
  unfold Func.assumedCalls
  rw [List.mem_filter]
  refine and_congr_right fun _ => ?_
  rw [decide_eq_true_iff, ← Finset.nonempty_iff_ne_empty]
  exact exists_congr fun b => Spread.mem_labels_run hn

/-! What a callee that returns in another M or X changes. -/

/-- M and X as they may be on a path, with the bytes pushed since entry. -/
structure Actual where
  m : Bool
  x : Bool
  stack : List (Option (Bool × Bool))
deriving DecidableEq

def State.flag (st : State) : Dep → Option Bool
  | .m => st.m
  | .x => st.x

def Actual.flag (s : Actual) : Dep → Bool
  | .m => s.m
  | .x => s.x

/-- M and X are what the static state knows of them. -/
def Actual.Agrees (s : Actual) (st : State) : Prop := ∀ b, ∀ v ∈ st.flag b, s.flag b = v

instance (s : Actual) (st : State) : Decidable (s.Agrees st) := by
  unfold Actual.Agrees
  infer_instance

def Actual.size (s : Actual) : StackKind → Nat
  | .m => if s.m then 1 else 2
  | .x => if s.x then 1 else 2
  | .bytes n => n

/-- An instruction that is no call; `e` is the mode it runs in. -/
def Actual.Moves (e : Bool) (i : Insn) (s s' : Actual) : Prop :=
  match i.mnemonic with
  | .REP => s' = if e then s else { s with m := s.m && !i.bit .m, x := s.x && !i.bit .x }
  | .SEP => s' = { s with m := s.m || i.bit .m, x := s.x || i.bit .x }
  | .XCE => s' = if e then { s with m := true, x := true } else s
  | .PLP =>
    s'.stack = s.stack.dropLast ∧
      if e then s'.m ∧ s'.x
      else ∀ mx, s.stack.getLast? = some (some mx) → (s'.m, s'.x) = mx
  | mn => match stackPush mn, stackPull mn with
    | some kind, _ =>
      let item := if mn = .PHP then some (s.m, s.x) else none
      s' = { s with stack := s.stack ++ List.replicate (s.size kind) item }
    | none, some kind => s' = { s with stack := s.stack.take (s.stack.length - s.size kind) }
    | none, none => s' = s

/-- All or part of the callees are run by the interpreter. -/
def Func.assumes (fn : Func) (k : Key) : Bool :=
  (fn.interpCalls.lookup k).isSome || (fn.dynTables.lookup k).isSome ||
    (fn.tableInterp.lookup k).isSome

/-- A call from `nxt` that the path goes on from in `back`: an interpreted
callee may return in any M and X, and so may one entered in another M or X. -/
def Func.Comes (fn : Func) (k : Key) (nxt back : State) (s s' : Actual) : Prop :=
  s'.stack = s.stack ∧
    (s'.Agrees back ∨ back.e = false ∧ (fn.assumes k ∨ ¬s.Agrees nxt))

def State.inMode (st : State) (k : Mode) : State :=
  { st with m := k.1, x := k.2.1, e := k.2.2, ck := none }

/-- Where a path through the decoded instructions goes on: each branch either way,
each call back in any of its recorded states. -/
def Func.goes (fn : Func) (i : Insn) (nxt : State) : Paths :=
  match i.mnemonic with
  | .JSR | .JSL =>
    ((fn.callExits.lookup i.key).getD [fn.postOf i.key]).map fun k => (i.nextAddr, nxt.inMode k)
  | .JMP =>
    if i.mode = .abs ∧ fn.tails.lookup i.key = none then [(i.jumpTo, nxt)] else []
  | .BRA | .BRL => [(i.branchTarget, nxt)]
  | mn =>
    if mn.isReturn ∨ mn.isStop ∨ mn = .JML then []
    else if mn.isBranch then [(i.nextAddr, nxt), (i.branchTarget, nxt)]
    else [(i.nextAddr, nxt)]

def Insn.isCall (i : Insn) : Bool := i.mnemonic = .JSR || i.mnemonic = .JSL

/-- A PLP, or a call that runs compiled code. -/
def Func.byway (fn : Func) (i : Insn) : Bool :=
  i.mnemonic = .PLP || (fn.calls.lookup i.key).isSome || (fn.tables.lookup i.key).isSome

/-- A path from the entry with its own pushed bytes: its static state, and a run of it in
which interpreted callees return in what M and X they like. True: a byway has left the two
apart. -/
inductive Func.Replay (fn : Func) : Bool → Insn → State → Actual → Prop
  | entry {i : Insn} {s : Actual} (hi : i ∈ fn.insns) (hkey : i.key = (fn.entry, fn.state.key))
      (hs : s.stack = []) (ha : s.Agrees fn.state) : Func.Replay fn false i fn.state s
  | step {d : Bool} {i j : Insn} {cur nxt : State} {s s' : Actual} {w : BitVec 24 × State}
      (h : Func.Replay fn d i cur s) (hnxt : nextState i cur = .ok nxt) (hw : w ∈ fn.goes i nxt)
      (hj : j ∈ fn.insns) (hkey : j.key = (w.1, w.2.key))
      (hs : if i.isCall then fn.Comes i.key nxt w.2 s s' else s.Moves cur.e i s') :
      Func.Replay fn (d || fn.byway i && !decide (s'.Agrees w.2)) j w.2 s'

/-- An interpreted callee's M or X can change this instruction's. -/
def Func.Depends (fn : Func) (k : Key) : Prop :=
  ∃ d i cur s, fn.Replay d i cur s ∧ i.key = k ∧ ¬s.Agrees cur

/-- The same, on a path where a byway left M or X changed. -/
def Func.DependsByway (fn : Func) (k : Key) : Prop :=
  ∃ i cur s, fn.Replay true i cur s ∧ i.key = k ∧ ¬s.Agrees cur

/-! The transfer of M and X, flag by flag. -/

/-- Neither sets M or X nor pulls them. -/
def Mnemonic.keepsMode (mn : Mnemonic) : Prop := mn ≠ .REP ∧ mn ≠ .SEP ∧ mn ≠ .XCE ∧ mn ≠ .PLP

theorem State.pull_flag {st : State} {mn : Mnemonic} {size : Nat} (h : mn ≠ .PLP) (b : Dep) :
    (st.pull mn size).flag b = st.flag b := by
  unfold State.pull
  simp only [if_neg h]
  split <;> cases b <;> rfl

theorem nextState_ok {i : Insn} {st nxt : State} (h : nextState i st = .ok nxt) :
    ∃ nxt', nextState' i st = .ok nxt' ∧ (∀ b, nxt.flag b = nxt'.flag b) ∧ nxt.e = nxt'.e := by
  obtain ⟨nxt', hnxt, h⟩ := bind_eq_ok_iff.mp h
  cases h
  exact ⟨nxt', hnxt, fun b => by cases b <;> rfl, rfl⟩

theorem nextState'_keeps {i : Insn} {st nxt : State} (hm : i.mnemonic.keepsMode)
    (h : nextState' i st = .ok nxt) : (∀ b, nxt.flag b = st.flag b) ∧ nxt.e = st.e := by
  unfold nextState' at h
  split at h
  case h_1 hrep => exact absurd hrep hm.1
  case h_2 hsep => exact absurd hsep hm.2.1
  case h_3 hxce => exact absurd hxce hm.2.2.1
  case h_4 =>
    split at h
    · obtain ⟨size, -, h⟩ := bind_eq_ok_iff.mp h
      cases h
      exact ⟨fun b => by cases b <;> rfl, rfl⟩
    · obtain ⟨size, -, h⟩ := bind_eq_ok_iff.mp h
      cases h
      exact ⟨State.pull_flag hm.2.2.2, State.pull_e _ _ _⟩
    · cases h
      exact ⟨fun _ => rfl, rfl⟩

theorem Actual.Moves.keeps {e : Bool} {i : Insn} {s s' : Actual} (hm : i.mnemonic.keepsMode)
    (h : s.Moves e i s') (b : Dep) : s'.flag b = s.flag b := by
  unfold Actual.Moves at h
  split at h
  case h_1 hrep => exact absurd hrep hm.1
  case h_2 hsep => exact absurd hsep hm.2.1
  case h_3 hxce => exact absurd hxce hm.2.2.1
  case h_4 hplp => exact absurd hplp hm.2.2.2
  case h_5 =>
    split at h
    all_goals
      subst h
      cases b <;> rfl

/-- A flag is what the static state knows of it. -/
def Actual.AgreesAt (s : Actual) (st : State) (b : Dep) : Prop := ∀ v ∈ st.flag b, s.flag b = v

theorem State.flag_rep (st : State) (i : Insn) (b : Dep) : (st.rep i.operand).flag b =
    if st.e then st.flag b else if i.bit b then some false else st.flag b := by
  unfold State.rep
  split <;> cases b <;> rfl

theorem State.flag_sep (st : State) (i : Insn) (b : Dep) :
    (st.sep i.operand).flag b = if i.bit b then some true else st.flag b := by
  cases b <;> rfl

theorem Actual.Moves.rep {e : Bool} {i : Insn} {s s' : Actual} (hm : i.mnemonic = .REP)
    (h : s.Moves e i s') (b : Dep) : s'.flag b = if e then s.flag b else s.flag b && !i.bit b := by
  unfold Actual.Moves at h
  simp only [hm] at h
  subst h
  split <;> cases b <;> rfl

theorem Actual.Moves.sep {e : Bool} {i : Insn} {s s' : Actual} (hm : i.mnemonic = .SEP)
    (h : s.Moves e i s') (b : Dep) : s'.flag b = (s.flag b || i.bit b) := by
  unfold Actual.Moves at h
  simp only [hm] at h
  subst h
  cases b <;> rfl

theorem Actual.Moves.xce {e : Bool} {i : Insn} {s s' : Actual} (hm : i.mnemonic = .XCE)
    (h : s.Moves e i s') (b : Dep) : s'.flag b = if e then true else s.flag b := by
  unfold Actual.Moves at h
  simp only [hm] at h
  subst h
  split <;> cases b <;> rfl

theorem Actual.Moves.plp {i : Insn} {s s' : Actual} (hm : i.mnemonic = .PLP)
    (h : s.Moves true i s') (b : Dep) : s'.flag b = true := by
  unfold Actual.Moves at h
  simp only [hm] at h
  obtain ⟨-, hmode⟩ := h
  cases b
  · exact hmode.1
  · exact hmode.2

theorem nextState'_grounds {i : Insn} {st nxt : State} {s s' : Actual} {b : Dep}
    (hg : i.grounds b) (he : st.e = false) (h : nextState' i st = .ok nxt)
    (hs : s.Moves st.e i s') : s'.AgreesAt nxt b := by
  unfold Insn.grounds at hg
  rw [Bool.and_eq_true, Bool.or_eq_true, decide_eq_true_iff, decide_eq_true_iff] at hg
  obtain ⟨hm | hm, hbit⟩ := hg
  all_goals
    unfold nextState' at h
    simp only [hm] at h
    cases h
    intro v hv
  · rw [State.flag_rep, he, if_neg (by decide), if_pos hbit] at hv
    rw [hs.rep hm, he, if_neg (by decide), hbit, Bool.not_true, Bool.and_false]
    exact Option.some.inj hv
  · rw [State.flag_sep, if_pos hbit] at hv
    rw [hs.sep hm, hbit, Bool.or_true]
    exact Option.some.inj hv

theorem nextState'_agrees {i : Insn} {st nxt : State} {s s' : Actual} {b : Dep}
    (hm : i.mnemonic ≠ .PLP ∨ st.e = true) (h : nextState' i st = .ok nxt)
    (hs : s.Moves st.e i s') (ha : s.AgreesAt st b) : s'.AgreesAt nxt b := by
  by_cases hkeeps : i.mnemonic.keepsMode
  · intro v hv
    rw [(nextState'_keeps hkeeps h).1] at hv
    rw [hs.keeps hkeeps]
    exact ha v hv
  by_cases hg : i.grounds b ∧ st.e = false
  · exact nextState'_grounds hg.1 hg.2 h hs
  intro v hv
  by_cases hrep : i.mnemonic = .REP
  · have hbit : st.e = false → ¬i.bit b := by
      intro he hbit
      exact hg ⟨by simp [Insn.grounds, hrep, hbit], he⟩
    unfold nextState' at h
    simp only [hrep] at h
    cases h
    rw [State.flag_rep] at hv
    rw [hs.rep hrep]
    cases he : st.e with
    | true =>
      rw [if_pos he] at hv
      rw [if_pos rfl]
      exact ha v hv
    | false =>
      rw [if_neg (by rw [he]; decide), if_neg (hbit he)] at hv
      rw [if_neg (by decide), Bool.eq_false_of_not_eq_true (hbit he), Bool.not_false, Bool.and_true]
      exact ha v hv
  by_cases hsep : i.mnemonic = .SEP
  · unfold nextState' at h
    simp only [hsep] at h
    cases h
    rw [State.flag_sep] at hv
    rw [hs.sep hsep]
    cases hbit : i.bit b with
    | true =>
      rw [if_pos hbit] at hv
      rw [Bool.or_true]
      exact Option.some.inj hv
    | false =>
      rw [if_neg (by rw [hbit]; decide)] at hv
      rw [Bool.or_false]
      exact ha v hv
  by_cases hxce : i.mnemonic = .XCE
  · unfold nextState' at h
    simp only [hxce] at h
    split at h
    · cases h
    · cases h
    · cases h
      rw [hs.xce hxce]
      cases he : st.e with
      | true =>
        have hset : v = true := by cases b <;> simpa [State.flag, he] using hv.symm
        rw [if_pos rfl, hset]
      | false =>
        have hkept : st.flag b = some v := by cases b <;> simpa [State.flag, he] using hv
        rw [if_neg (by decide)]
        exact ha v hkept
  · have hplp : i.mnemonic = .PLP := by
      by_contra hplp
      exact hkeeps ⟨hrep, hsep, hxce, hplp⟩
    have he : st.e = true := hm.resolve_left (not_not.mpr hplp)
    have hpull : nextState' i st = .ok (st.pull .PLP 1) := by
      unfold nextState'
      simp only [hplp]
      rfl
    rw [hpull] at h
    cases h
    rw [he] at hs
    have hset : v = true := by
      unfold State.pull at hv
      cases b <;> simp only [State.flag, State.plp, he] at hv <;> split at hv <;>
        simpa using hv.symm
    rw [hs.plp hplp, hset]

theorem nextState_agrees {i : Insn} {st nxt : State} {s s' : Actual} {b : Dep}
    (hm : i.mnemonic ≠ .PLP ∨ st.e = true) (h : nextState i st = .ok nxt)
    (hs : s.Moves st.e i s') (ha : i.grounds b ∧ st.e = false ∨ s.AgreesAt st b) :
    s'.AgreesAt nxt b := by
  obtain ⟨nxt', hnxt, hflag, -⟩ := nextState_ok h
  have hagrees : s'.AgreesAt nxt' b := by
    rcases ha with ⟨hg, he⟩ | ha
    · exact nextState'_grounds hg he hnxt hs
    · exact nextState'_agrees hm hnxt hs ha
  intro v hv
  rw [hflag] at hv
  exact hagrees v hv

/-- Apart from PLP, the state after an instruction is found from the state before it
without the pushed bytes. -/
theorem nextState_key {i : Insn} {st₁ st₂ nxt₁ nxt₂ : State} (hm : i.mnemonic ≠ .PLP)
    (hkey : st₁.key = st₂.key) (h₁ : nextState i st₁ = .ok nxt₁)
    (h₂ : nextState i st₂ = .ok nxt₂) : nxt₁.key = nxt₂.key := by
  have hparts (st : State) : st.key = (st.flag .m, st.flag .x, st.e) := rfl
  obtain ⟨nxt₁', h₁, hflag₁, he₁⟩ := nextState_ok h₁
  obtain ⟨nxt₂', h₂, hflag₂, he₂⟩ := nextState_ok h₂
  have hgoal (h : nxt₁'.key = nxt₂'.key) : nxt₁.key = nxt₂.key := by
    rw [hparts, hparts] at h ⊢
    rw [hflag₁, hflag₁, he₁, hflag₂, hflag₂, he₂]
    exact h
  refine hgoal ?_
  have hsplit := hkey
  rw [hparts, hparts, Prod.mk.injEq, Prod.mk.injEq] at hsplit
  obtain ⟨hmflag, hxflag, he⟩ := hsplit
  have hflags (b : Dep) : st₁.flag b = st₂.flag b := by
    cases b
    · exact hmflag
    · exact hxflag
  by_cases hkeeps : i.mnemonic.keepsMode
  · obtain ⟨hf₁, he₁⟩ := nextState'_keeps hkeeps h₁
    obtain ⟨hf₂, he₂⟩ := nextState'_keeps hkeeps h₂
    rw [hparts, hparts, hf₁, hf₁, hf₂, hf₂, he₁, he₂, ← hparts, ← hparts]
    exact hkey
  unfold nextState' at h₁ h₂
  by_cases hrep : i.mnemonic = .REP
  · simp only [hrep] at h₁ h₂
    cases h₁
    cases h₂
    have he_rep (st : State) : (st.rep i.operand).e = st.e := by
      unfold State.rep
      split <;> rfl
    rw [hparts, hparts]
    simp only [State.flag_rep, he_rep, hflags, he]
  by_cases hsep : i.mnemonic = .SEP
  · simp only [hsep] at h₁ h₂
    cases h₁
    cases h₂
    have he_sep (st : State) : (st.sep i.operand).e = st.e := rfl
    rw [hparts, hparts]
    simp only [State.flag_sep, he_sep, hflags, he]
  have hxce : i.mnemonic = .XCE := by
    by_contra hxce
    exact hkeeps ⟨hrep, hsep, hxce, hm⟩
  simp only [hxce] at h₁ h₂
  split at h₁
  · cases h₁
  · cases h₁
  split at h₂
  · cases h₂
  · cases h₂
  cases h₁
  cases h₂
  have hmx : st₁.m = st₂.m ∧ st₁.x = st₂.x := ⟨hmflag, hxflag⟩
  simp only [State.key, hmx, he]

end CtRecomp
