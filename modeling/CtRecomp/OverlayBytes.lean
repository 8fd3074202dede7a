import CtRecomp.Fetch
import CtRecomp.Decoded
import CtRecomp.EmitProgram

namespace CtRecomp

/-! The bytes that a function was decoded from. -/

/-- The addresses its bytes are read at. -/
def Insn.bytes (i : Insn) : List (BitVec 24) :=
  i.addr :: (List.range (i.size - 1)).map i.operandAddr

section

variable {mem mem' : Image} {addr : BitVec 24} {cur : State} {i : Insn}

def operandAt (addr : BitVec 24) (k : Nat) : BitVec 24 :=
  bank addr ++ (low addr + 1 + BitVec.ofNat 16 k)

theorem operandAddr_eq (i : Insn) (k : Nat) : i.operandAddr k = operandAt i.addr k := by
  unfold Insn.operandAddr operandAt
  rw [Nat.add_comm k 1, BitVec.ofNat_add, ← BitVec.add_assoc]
  rfl

theorem readOperand_congr {n : Nat} (h : ∀ k < n, mem' (operandAt addr k) = mem (operandAt addr k)) :
    readOperand mem' addr n = readOperand mem addr n := by
  induction n with
  | zero => rfl
  | succ n ih =>
    unfold readOperand
    rw [ih fun k hk => h k (Nat.lt_succ_of_lt hk)]
    have hlast := h n (Nat.lt_succ_self n)
    unfold operandAt at hlast
    rw [hlast]

/-- The operand has nothing but its bytes. -/
theorem readOperand_bytes {n : Nat} (hn : n ≤ 3) {v : BitVec 24}
    (h : readOperand mem addr n = some v) :
    (∀ k < n, mem (operandAt addr k) = some (v.extractLsb' (8 * k) 8)) ∧
      ∀ j, 8 * n ≤ j → v.getLsbD j = false := by
  induction n generalizing v with
  | zero =>
    cases h
    exact ⟨nofun, fun j _ => BitVec.getLsbD_zero⟩
  | succ n ih =>
    unfold readOperand at h
    obtain ⟨w, hw, h⟩ := Option.bind_eq_some_iff.mp h
    obtain ⟨b, hb, h⟩ := Option.bind_eq_some_iff.mp h
    cases h
    obtain ⟨hbytes, hhigh⟩ := ih (Nat.le_of_succ_le hn) hw
    constructor
    · intro k hk
      rcases Nat.lt_succ_iff_lt_or_eq.mp hk with hlt | rfl
      · rw [hbytes k hlt]
        congr 1
        ext t ht
        have hout : 8 * k + t < 8 * n := by omega
        simp [hout]
      · unfold operandAt
        rw [hb]
        congr 1
        ext t ht
        have hin : 8 * k + t < 24 := by omega
        have hzero := hhigh (8 * k + t) (by omega)
        rw [BitVec.getLsbD_eq_getElem hin] at hzero
        simp [hin, ht, hzero]
    · intro j hj
      simp [hhigh j (by omega), BitVec.getLsbD_of_ge b (j - 8 * n) (by omega)]

theorem operandBytes_le {mode : AddrMode} {m x : Option Bool} {n : Nat}
    (h : operandBytes mode m x = some n) : n ≤ 3 := by
  unfold operandBytes at h
  split at h
  · obtain ⟨b, -, rfl⟩ := Option.map_eq_some_iff.mp h
    split <;> decide
  · obtain ⟨b, -, rfl⟩ := Option.map_eq_some_iff.mp h
    split <;> decide
  all_goals
    cases h
    decide

theorem decodeInsn_reads (h : decodeInsn mem addr cur = .ok i) :
    i.addr = addr ∧ 0 < i.size ∧ i.size - 1 ≤ 3 ∧ mem i.addr = some i.opcode ∧
      readOperand mem i.addr (i.size - 1) = some i.operand := by
  unfold decodeInsn at h
  split at h
  · cases h
  next opcode hop =>
    dsimp only at h
    split at h
    · cases h
    next n hn =>
      split at h
      · cases h
      next operand hread =>
        cases h
        have hsize : 1 + n - 1 = n := by omega
        refine ⟨rfl, Nat.add_pos_left Nat.one_pos n, ?_, hop, ?_⟩
        · dsimp only
          rw [hsize]
          exact operandBytes_le hn
        · dsimp only
          rw [hsize]
          exact hread

theorem decodeInsn_congr (h : decodeInsn mem addr cur = .ok i)
    (hsame : ∀ a ∈ i.bytes, mem' a = mem a) : decodeInsn mem' addr cur = .ok i := by
  obtain ⟨rfl, -, -, hop, hread⟩ := decodeInsn_reads h
  have hfirst := hsame i.addr List.mem_cons_self
  have hrest : readOperand mem' i.addr (i.size - 1) = readOperand mem i.addr (i.size - 1) :=
    readOperand_congr fun k hk => by
      rw [← operandAddr_eq]
      exact hsame _ (List.mem_cons_of_mem _ (List.mem_map_of_mem (List.mem_range.mpr hk)))
  unfold decodeInsn at h ⊢
  rw [hop] at h
  rw [hfirst, hop]
  dsimp only at h ⊢
  split at h
  · cases h
  next n hn =>
    have hsize : i.size = 1 + n := by
      split at h
      · cases h
      · exact (congrArg Insn.size (Except.ok.inj h)).symm
    have hn' : i.size - 1 = n := by omega
    rw [hn'] at hrest hread
    rw [hrest]
    exact h

/-- The same instruction, the same bytes. -/
theorem decodeInsn_bytes {cur' : State} (h : decodeInsn mem addr cur = .ok i)
    (h' : decodeInsn mem' addr cur' = .ok i) : ∀ a ∈ i.bytes, mem' a = mem a := by
  obtain ⟨-, -, hle, hop, hread⟩ := decodeInsn_reads h
  obtain ⟨-, -, -, hop', hread'⟩ := decodeInsn_reads h'
  intro a ha
  rcases List.mem_cons.mp ha with rfl | ha
  · exact hop'.trans hop.symm
  · obtain ⟨k, hk, rfl⟩ := List.mem_map.mp ha
    rw [operandAddr_eq]
    exact ((readOperand_bytes hle hread').1 k (List.mem_range.mp hk)).trans
      ((readOperand_bytes hle hread).1 k (List.mem_range.mp hk)).symm

end

/-! Two images with the same bytes where a function was decoded. -/

section

variable {S : Type} {R : Resolver S} {mem mem' : Image}

theorem step_insns {d d' : Decoding} {s s' : S} (h : d.step R mem s = (.ok d', s')) :
    ∀ i ∈ d.fn.insns, i ∈ d'.fn.insns := by
  unfold Decoding.step at h
  cases hwork : d.work with
  | nil =>
    rw [hwork] at h
    cases h
    exact fun _ hi => hi
  | cons w work =>
    rw [hwork] at h
    dsimp only at h
    by_cases hseen : (w.1, w.2.key) ∈ d.seen
    · rw [if_pos hseen] at h
      cases h
      exact fun _ hi => hi
    · rw [if_neg hseen] at h
      obtain ⟨i, s₁, -, h⟩ := bind_ok h
      obtain ⟨nxt, s₂, -, h⟩ := bind_ok h
      obtain ⟨r, s₃, -, h⟩ := bind_ok h
      cases h
      exact fun j hj => List.mem_cons_of_mem _ hj

theorem step_congr {d d' : Decoding} {s s' : S} (h : d.step R mem s = (.ok d', s'))
    (hsame : ∀ i ∈ d'.fn.insns, ∀ a ∈ i.bytes, mem' a = mem a) :
    d.step R mem' s = (.ok d', s') := by
  unfold Decoding.step at h ⊢
  cases hwork : d.work with
  | nil =>
    rw [hwork] at h
    exact h
  | cons w work =>
    rw [hwork] at h
    dsimp only at h ⊢
    by_cases hseen : (w.1, w.2.key) ∈ d.seen
    · rw [if_pos hseen] at h ⊢
      exact h
    · rw [if_neg hseen] at h ⊢
      obtain ⟨i, s₁, hi, h⟩ := bind_ok h
      have hfound := h
      obtain ⟨nxt, s₂, -, hfound⟩ := bind_ok hfound
      obtain ⟨r, s₃, -, hfound⟩ := bind_ok hfound
      cases hfound
      cases hdecode : decodeInsn mem w.1 w.2 with
      | error e =>
        rw [hdecode] at hi
        cases hi
      | ok j =>
        rw [hdecode] at hi
        cases hi
        rw [bind_run, decodeInsn_congr hdecode (hsame i List.mem_cons_self)]
        exact h

theorem run_insns {n : Nat} {d d' : Decoding} {s s' : S} (h : d.run R mem n s = (.ok d', s')) :
    ∀ i ∈ d.fn.insns, i ∈ d'.fn.insns := by
  induction n generalizing d s with
  | zero => cases h
  | succ n ih =>
    unfold Decoding.run at h
    by_cases hwork : d.work = []
    · rw [if_pos hwork] at h
      cases h
      exact fun _ hi => hi
    · rw [if_neg hwork] at h
      obtain ⟨d₁, s₁, hstep, h⟩ := bind_ok h
      exact fun i hi => ih h i (step_insns hstep i hi)

theorem run_congr {n : Nat} {d d' : Decoding} {s s' : S} (h : d.run R mem n s = (.ok d', s'))
    (hsame : ∀ i ∈ d'.fn.insns, ∀ a ∈ i.bytes, mem' a = mem a) :
    d.run R mem' n s = (.ok d', s') := by
  induction n generalizing d s with
  | zero => cases h
  | succ n ih =>
    unfold Decoding.run at h ⊢
    by_cases hwork : d.work = []
    · rw [if_pos hwork] at h ⊢
      exact h
    · rw [if_neg hwork] at h ⊢
      obtain ⟨d₁, s₁, hstep, h⟩ := bind_ok h
      rw [bind_run, step_congr hstep fun i hi => hsame i (run_insns h i hi)]
      exact ih h

/-- The decoder reads nothing but the bytes of what it decodes. -/
theorem decodeFunction_congr {n : Nat} {entry : BitVec 24} {st : State} {fn : Func} {s s' : S}
    (h : decodeFunction R n mem entry st s = (.ok fn, s'))
    (hsame : ∀ i ∈ fn.insns, ∀ a ∈ i.bytes, mem' a = mem a) :
    decodeFunction R n mem' entry st s = (.ok fn, s') := by
  obtain ⟨d, s₁, hrun, hfn⟩ := bind_ok h
  cases hfn
  have hrun' := run_congr hrun fun i hi => hsame i <|
    (List.perm_insertionSort _ _).mem_iff.mpr (List.mem_reverse.mpr hi)
  unfold decodeFunction
  rw [bind_run, hrun']
  rfl

end

/-! The range recorded of a function. -/

def Insn.lastByte (i : Insn) : Nat := i.addr.toNat + i.size - 1

/-- `extent`; no function is without instructions. -/
def Func.extent (fn : Func) : Option (Nat × Nat) :=
  match fn.insns with
  | [] => none
  | i :: is => some (i.addr.toNat, (is.map Insn.lastByte).foldl max i.lastByte)

/-- `insns` are sorted by address, whatever the state. -/
def Func.Sorted (fn : Func) : Prop := fn.insns.Pairwise fun i j => i.addr.toNat ≤ j.addr.toNat

theorem le_foldl_max (n : Nat) (ns : List Nat) :
    n ≤ ns.foldl max n ∧ ∀ m ∈ ns, m ≤ ns.foldl max n := by
  induction ns generalizing n with
  | nil => exact ⟨Nat.le_refl _, nofun⟩
  | cons a ns ih =>
    obtain ⟨hfirst, hrest⟩ := ih (max n a)
    refine ⟨Nat.le_trans (Nat.le_max_left n a) hfirst, fun m hm => ?_⟩
    rcases List.mem_cons.mp hm with rfl | hm
    · exact Nat.le_trans (Nat.le_max_right n m) hfirst
    · exact hrest m hm

theorem Func.Sorted.extent {fn : Func} (hsorted : fn.Sorted) {lo hi : Nat}
    (h : fn.extent = some (lo, hi)) {i : Insn} (hmem : i ∈ fn.insns) :
    lo ≤ i.addr.toNat ∧ i.lastByte ≤ hi := by
  unfold Func.extent at h
  unfold Func.Sorted at hsorted
  cases hins : fn.insns with
  | nil =>
    rw [hins] at hmem
    cases hmem
  | cons j is =>
    rw [hins] at h hmem hsorted
    cases h
    obtain ⟨hfirst, hrest⟩ := le_foldl_max j.lastByte (is.map Insn.lastByte)
    rcases List.mem_cons.mp hmem with rfl | hmem
    · exact ⟨Nat.le_refl _, hfirst⟩
    · exact ⟨(List.pairwise_cons.mp hsorted).1 i hmem, hrest _ (List.mem_map_of_mem hmem)⟩

theorem before_addr {i j : Insn} (h : i.before j = true) : i.addr.toNat ≤ j.addr.toNat := by
  have hle := of_decide_eq_true h
  have he := Bool.toNat_le j.e
  -- the ranks of M and X are at most 2
  rcases hm : j.m with _ | _ | _ <;> rcases hx : j.x with _ | _ | _ <;>
    (simp only [hm, hx] at hle; omega)

theorem before_total (i j : Insn) : i.before j = true ∨ j.before i = true := by
  unfold Insn.before
  rw [decide_eq_true_iff, decide_eq_true_iff]
  exact Nat.le_total _ _

theorem before_trans {i j k : Insn} (h : i.before j = true) (h' : j.before k = true) :
    i.before k = true := by
  unfold Insn.before at *
  rw [decide_eq_true_iff] at *
  exact Nat.le_trans h h'

section

variable {S : Type} {R : Resolver S} {mem : Image} {n : Nat} {entry : BitVec 24} {st : State}
  {fn : Func} {s s' : S}

theorem decodeFunction_sorted (h : decodeFunction R n mem entry st s = (.ok fn, s')) :
    fn.Sorted := by
  obtain ⟨d, s₁, -, hfn⟩ := bind_ok h
  cases hfn
  have htotal : Std.Total fun i j : Insn => i.before j = true := ⟨before_total⟩
  have htrans : IsTrans Insn fun i j => i.before j = true := ⟨fun _ _ _ => before_trans⟩
  exact (List.pairwise_insertionSort (fun i j : Insn => i.before j = true) _).imp before_addr

theorem decodeFunction_found (h : decodeFunction R n mem entry st s = (.ok fn, s')) {i : Insn}
    (hi : i ∈ fn.insns) : ∃ cur, decodeInsn mem i.addr cur = .ok i := by
  have hR : R.Keeps fun _ => True :=
    ⟨fun _ _ _ _ => returns_any _, fun _ _ _ => returns_any _, fun _ _ _ => returns_any _⟩
  obtain ⟨-, found, hfound⟩ := (decodeFunction_decoded hR (P := fun _ _ => True)
    (fun _ _ _ _ _ => trivial) trivial n).ok trivial h
  obtain ⟨f, hf, rfl⟩ := List.mem_map.mp (hfound.insns.mem_iff.mp hi)
  exact ⟨f.cur, (hfound.holds f hf).decoded⟩

end

theorem append_toNat (hi : BitVec 8) (lo : BitVec 16) :
    (hi ++ lo).toNat = hi.toNat * 65536 + lo.toNat := by
  rw [BitVec.toNat_append, ← Nat.shiftLeft_add_eq_or_of_lt lo.isLt, Nat.shiftLeft_eq]

/-- A byte before its instruction is one its operand wraps to. -/
theorem bytes_lastByte {i : Insn} (hpos : 0 < i.size) (hsize : i.size - 1 ≤ 3) {a : BitVec 24}
    (ha : a ∈ i.bytes) (hnot : ¬a < i.addr) : i.addr.toNat ≤ a.toNat ∧ a.toNat ≤ i.lastByte := by
  have hle : i.addr.toNat ≤ a.toNat := Nat.le_of_not_lt fun h => hnot (BitVec.lt_def.mpr h)
  refine ⟨hle, ?_⟩
  unfold Insn.lastByte
  rcases List.mem_cons.mp ha with rfl | ha
  · omega
  · obtain ⟨k, hk, rfl⟩ := List.mem_map.mp ha
    have hk' := List.mem_range.mp hk
    have haddr : i.addr.toNat = (bank i.addr).toNat * 65536 + (low i.addr).toNat := by
      rw [← append_toNat, bank_append_low]
    have hbyte : (i.operandAddr k).toNat =
        (bank i.addr).toNat * 65536 + ((low i.addr).toNat + (k + 1)) % 65536 := by
      unfold Insn.operandAddr
      rw [append_toNat, BitVec.toNat_add, BitVec.toNat_ofNat, Nat.add_mod_mod]
    omega

/-! What the overlay's emission takes from its image. -/

section

variable {reg : Registry} {fuel : Nat} {ov : OverlaySource} {addr : BitVec 24} {st : State}
  {s s' : EmitState} {E : EmittedFn}

theorem emitFunction_fn {overlay : Option String} {fn : Func}
    (h : emitFunction reg fuel overlay fn s = (.ok E, s')) : E.fn = fn := by
  obtain ⟨edges, s₁, -, h⟩ := bind_ok h
  obtain ⟨entry, s₂, -, h⟩ := bind_ok h
  obtain ⟨blocks, s₃, -, h⟩ := bind_ok h
  cases h
  rfl

theorem fromRegistry_ok {α : Type} {m : RegM α} {a : α} (h : fromRegistry m s = (.ok a, s')) :
    m s.reg = (.ok a, s'.reg) ∧ s' = { s with reg := s'.reg } := by
  unfold fromRegistry at h
  match hm : m s.reg with
  | (.ok b, r) =>
    rw [hm] at h
    cases h
    exact ⟨rfl, rfl⟩
  | (.error e, r) =>
    rw [hm] at h
    cases h

/-- A kept entry: decoded, in its image, taking no hook, and emitted. -/
theorem emitOverlayEntry_ok (h : emitOverlayEntry reg fuel ov addr st s = (.ok E, s')) :
    ∃ r, decodeFunction (reg.resolver (reg.function fuel)) fuel (ov.image reg) addr st s.reg =
        (.ok E.fn, r) ∧ (∀ i ∈ E.fn.insns, ov.covers i.addr = true) ∧
      takesHook reg E.fn = false ∧
      emitFunction reg fuel (some ov.name) E.fn { s with reg := r } = (.ok E, s') := by
  obtain ⟨fn, s₁, hdecode, h⟩ := bind_ok h
  obtain ⟨hdecode, hs₁⟩ := fromRegistry_ok hdecode
  by_cases hall : (fn.insns.all fun i => ov.covers i.addr) = true
  · rw [if_pos hall] at h
    by_cases htakes : takesHook reg fn = true
    · rw [if_pos htakes] at h
      cases h
    · rw [if_neg htakes] at h
      have hfn := emitFunction_fn h
      subst hfn
      exact ⟨s₁.reg, hdecode, List.all_eq_true.mp hall, Bool.eq_false_of_not_eq_true htakes,
        hs₁ ▸ h⟩
  · rw [if_neg hall] at h
    cases h

theorem emitOverlayEntry_of {r : RegState} (hdecode : decodeFunction
      (reg.resolver (reg.function fuel)) fuel (ov.image reg) addr st s.reg = (.ok E.fn, r))
    (hall : ∀ i ∈ E.fn.insns, ov.covers i.addr = true) (htakes : takesHook reg E.fn = false)
    (hemit : emitFunction reg fuel (some ov.name) E.fn { s with reg := r } = (.ok E, s')) :
    emitOverlayEntry reg fuel ov addr st s = (.ok E, s') := by
  unfold emitOverlayEntry
  have hfrom : fromRegistry (decodeFunction (reg.resolver (reg.function fuel)) fuel
      (ov.image reg) addr st) s = (.ok E.fn, { s with reg := r }) := by
    unfold fromRegistry
    rw [hdecode]
  rw [bind_run, hfrom]
  dsimp only
  rw [if_pos (List.all_eq_true.mpr hall), htakes, if_neg Bool.false_ne_true]
  exact hemit

/-- With other bytes in the image. -/
def OverlaySource.withData (ov : OverlaySource) (data : List (BitVec 8)) : OverlaySource :=
  { ov with data }

/-- The range recorded is enough if and only if no operand wraps, at the end of its bank, to bytes
of the image below the range. -/
theorem overlay_range_exact (h : emitOverlayEntry reg fuel ov addr st s = (.ok E, s'))
    {lo hi : Nat} (hextent : E.fn.extent = some (lo, hi)) :
    (∀ data, data.length = ov.data.length →
      (∀ a, lo ≤ a → a ≤ hi → data[a - ov.base.toNat]? = ov.data[a - ov.base.toNat]?) →
      emitOverlayEntry reg fuel (ov.withData data) addr st s = (.ok E, s')) ↔
    ∀ i ∈ E.fn.insns, ∀ a ∈ i.bytes, a < i.addr → ov.covers a = true → lo ≤ a.toNat := by
  obtain ⟨r, hdecode, hall, htakes, hemit⟩ := emitOverlayEntry_ok h
  have hsorted := decodeFunction_sorted hdecode
  constructor
  · intro henough i hi a ha hwraps hcovers
    refine Nat.le_of_not_lt fun hbelow => ?_
    obtain ⟨hbase, hend⟩ := Bool.and_eq_true_iff.mp hcovers
    have hbase := of_decide_eq_true hbase
    have hend := of_decide_eq_true hend
    have hin : a.toNat - ov.base.toNat < ov.data.length := by omega
    -- the same image but for the byte at `a`
    let data := ov.data.set (a.toNat - ov.base.toNat) (ov.data[a.toNat - ov.base.toNat] + 1)
    have hlength : data.length = ov.data.length := List.length_set
    have hother := henough data hlength fun b hlo _ => by
      refine List.getElem?_set_ne ?_
      omega
    obtain ⟨r', hdecode', -⟩ := emitOverlayEntry_ok hother
    obtain ⟨cur, hcur⟩ := decodeFunction_found hdecode hi
    obtain ⟨cur', hcur'⟩ := decodeFunction_found hdecode' hi
    have hsame := decodeInsn_bytes hcur hcur' a ha
    have hcovers' : (ov.withData data).covers a = true := by
      unfold OverlaySource.covers OverlaySource.withData
      dsimp only
      rw [hlength]
      exact hcovers
    unfold OverlaySource.image at hsame
    rw [if_pos hcovers, if_pos hcovers'] at hsame
    change data[a.toNat - ov.base.toNat]? = ov.data[a.toNat - ov.base.toNat]? at hsame
    rw [List.getElem?_set_self hin, List.getElem?_eq_getElem hin] at hsame
    have hbyte := Option.some.inj hsame
    bv_omega
  · intro hnone data hlength hagree
    have hcovers (a : BitVec 24) : (ov.withData data).covers a = ov.covers a := by
      unfold OverlaySource.covers OverlaySource.withData
      dsimp only
      rw [hlength]
    refine emitOverlayEntry_of (decodeFunction_congr hdecode fun i hi a ha => ?_)
      (fun i hi => (hcovers _).trans (hall i hi)) htakes hemit
    unfold OverlaySource.image
    rw [hcovers]
    by_cases hin : ov.covers a = true
    · rw [if_pos hin, if_pos hin]
      obtain ⟨cur, hcur⟩ := decodeFunction_found hdecode hi
      obtain ⟨hfirst, hlast⟩ := hsorted.extent hextent hi
      obtain ⟨-, hpos, hsize, -⟩ := decodeInsn_reads hcur
      by_cases hwraps : a < i.addr
      · refine hagree a.toNat (hnone i hi a ha hwraps hin) ?_
        have hbefore := BitVec.lt_def.mp hwraps
        unfold Insn.lastByte at hlast
        omega
      · obtain ⟨hle, hge⟩ := bytes_lastByte hpos hsize ha hwraps
        exact hagree a.toNat (Nat.le_trans hfirst hle) (Nat.le_trans hge hlast)
    · rw [if_neg hin, if_neg hin]

end

/-! An operand that wraps. -/

def noCalls : Registry := ⟨fun _ => none, [], fun _ => none, fun _ => none⟩

/-- All of bank $7E: LDA dp at its last byte, the operand at its first, then RTS. -/
def wrapping (v : BitVec 8) : OverlaySource where
  name := "wrap"
  base := 0x7E0000
  data := v :: 0x60 :: (List.replicate 65533 0 ++ [0xA5])
  entries := [(0x7EFFFF, [(true, true)])]

/-- What is read of it. -/
def wrappingCode (v : BitVec 8) : Image := fun a =>
  if a = 0x7EFFFF then some 0xA5
  else if a = 0x7E0000 then some v
  else if a = 0x7E0001 then some 0x60 else none

def wrappingInsns (v : BitVec 8) : List Insn :=
  [⟨0x7E0001, 0x60, .RTS, .impl, 0, 1, some true, some true, false⟩,
    ⟨0x7EFFFF, 0xA5, .LDA, .dp, v.setWidth 24, 2, some true, some true, false⟩]

def wrappingEntry : State := .of (some true) (some true) false

/-- It decodes and emits. -/
def wrappingKept (v : BitVec 8) : Bool :=
  match decodeFunction (noCalls.resolver (noCalls.function 8)) 8 (wrappingCode v) 0x7EFFFF
    wrappingEntry .init with
  | (.ok fn, r) => decide (fn.insns = wrappingInsns v) && !takesHook noCalls fn &&
      (emitFunction noCalls 8 (some "wrap") fn ⟨r, fun _ => none⟩).1.isOk
  | (.error _, _) => false

theorem wrapping_length (v : BitVec 8) : (wrapping v).data.length = 65536 := by
  unfold wrapping
  rw [List.length_cons, List.length_cons, List.length_append, List.length_replicate,
    List.length_singleton]

theorem wrapping_base (v : BitVec 8) : (wrapping v).base.toNat = 0x7E0000 := by
  change (0x7E0000 : BitVec 24).toNat = 0x7E0000
  decide

theorem wrapping_covers {v : BitVec 8} {a : BitVec 24} (h : a.toNat / 65536 = 0x7E) :
    (wrapping v).covers a = true := by
  unfold OverlaySource.covers
  rw [wrapping_length, wrapping_base, Bool.and_eq_true_iff, decide_eq_true_iff, decide_eq_true_iff]
  omega

theorem wrapping_image (v : BitVec 8) {i : Insn} (hi : i ∈ wrappingInsns v) {a : BitVec 24}
    (ha : a ∈ i.bytes) : (wrapping v).image noCalls a = wrappingCode v a := by
  have hat : a = 0x7EFFFF ∨ a = 0x7E0000 ∨ a = 0x7E0001 := by
    rcases List.mem_cons.mp hi with rfl | hi
    · change a ∈ [0x7E0001] at ha
      exact .inr (.inr (List.mem_singleton.mp ha))
    · cases List.mem_singleton.mp hi
      have hwraps : bank (0x7EFFFF : BitVec 24) ++ (low 0x7EFFFF + BitVec.ofNat 16 (0 + 1)) =
          0x7E0000 := by decide
      change a ∈ [0x7EFFFF, bank 0x7EFFFF ++ (low 0x7EFFFF + BitVec.ofNat 16 (0 + 1))] at ha
      rw [hwraps] at ha
      rcases List.mem_cons.mp ha with rfl | ha
      · exact .inl rfl
      · exact .inr (.inl (List.mem_singleton.mp ha))
  unfold OverlaySource.image
  rcases hat with rfl | rfl | rfl
  · rw [if_pos (wrapping_covers (by decide))]
    have hlast : (List.replicate 65533 (0 : BitVec 8) ++ [0xA5])[65533]? = some 0xA5 := by
      rw [List.getElem?_append_right (by rw [List.length_replicate]), List.length_replicate]
      rfl
    have hcons (l : List (BitVec 8)) (h : l[65533]? = some 0xA5) :
        (v :: 0x60 :: l)[65535]? = some 0xA5 := by
      rw [List.getElem?_cons_succ, List.getElem?_cons_succ]
      exact h
    have hindex : (0x7EFFFF : BitVec 24).toNat - (wrapping v).base.toNat = 65535 := by
      change (0x7EFFFF : BitVec 24).toNat - (0x7E0000 : BitVec 24).toNat = 65535
      decide
    rw [hindex]
    exact hcons _ hlast
  · rw [if_pos (wrapping_covers (by decide))]
    rfl
  · rw [if_pos (wrapping_covers (by decide))]
    rfl

theorem wrapping_entry {v : BitVec 8} (h : wrappingKept v = true) : ∃ E s,
    emitOverlayEntry noCalls 8 (wrapping v) 0x7EFFFF wrappingEntry .init = (.ok E, s) ∧
      E.fn.insns = wrappingInsns v := by
  unfold wrappingKept at h
  match hdecode : decodeFunction (noCalls.resolver (noCalls.function 8)) 8 (wrappingCode v)
    0x7EFFFF wrappingEntry .init with
  | (.error e, r) =>
    rw [hdecode] at h
    cases h
  | (.ok fn, r) =>
    rw [hdecode] at h
    obtain ⟨hboth, hemits⟩ := Bool.and_eq_true_iff.mp h
    obtain ⟨hins, htakes⟩ := Bool.and_eq_true_iff.mp hboth
    have hins := of_decide_eq_true hins
    match hemit : emitFunction noCalls 8 (some "wrap") fn ⟨r, fun _ => none⟩ with
    | (.error e, s) =>
      rw [hemit] at hemits
      cases hemits
    | (.ok E, s) =>
      have hfn := emitFunction_fn hemit
      subst hfn
      refine ⟨E, s, emitOverlayEntry_of (r := r) ?_ (fun i hi => ?_) (by simpa using htakes) hemit,
        hins⟩
      · exact decodeFunction_congr hdecode fun i hi a ha =>
          wrapping_image v (hins ▸ hi) ha
      · rw [hins] at hi
        have hlast : (0x7EFFFF : BitVec 24).toNat / 65536 = 0x7E := by decide
        rcases List.mem_cons.mp hi with rfl | hi
        · exact wrapping_covers (by decide)
        · cases List.mem_singleton.mp hi
          exact wrapping_covers hlast

theorem wrapping_extent {fn : Func} {v : BitVec 8} (h : fn.insns = wrappingInsns v) :
    fn.extent = some (0x7E0001, 0x7F0000) := by
  unfold Func.extent
  rw [h]
  rfl

set_option maxRecDepth 10000 in
theorem wrapping_keeps : wrappingKept 0x10 = true ∧ wrappingKept 0x20 = true := by decide +kernel

theorem overlay_range_exact_wrapping : ∃ E s,
    emitOverlayEntry noCalls 8 (wrapping 0x10) 0x7EFFFF wrappingEntry .init = (.ok E, s) ∧
    ¬∀ data, data.length = (wrapping 0x10).data.length →
      (∀ a, 0x7E0001 ≤ a → a ≤ 0x7F0000 → data[a - (0x7E0000 : BitVec 24).toNat]? =
        (wrapping 0x10).data[a - (0x7E0000 : BitVec 24).toNat]?) →
      emitOverlayEntry noCalls 8 ((wrapping 0x10).withData data) 0x7EFFFF wrappingEntry .init =
        (.ok E, s) := by
  obtain ⟨E, s, hemit, hins⟩ := wrapping_entry wrapping_keeps.1
  refine ⟨E, s, hemit, fun henough => ?_⟩
  have hmem : (wrappingInsns 0x10)[1] ∈ E.fn.insns := by
    rw [hins]
    exact List.getElem_mem _
  have hlo := (overlay_range_exact hemit (wrapping_extent hins)).mp henough _ hmem 0x7E0000
    (by decide) (by decide) (wrapping_covers (by decide))
  exact absurd hlo (by decide)

/-- The byte the operand wraps to is not in the range, and two images that differ there alone
are translated differently. -/
theorem overlay_range_wraps : ∃ E E' s s',
    emitOverlayEntry noCalls 8 (wrapping 0x10) 0x7EFFFF wrappingEntry .init = (.ok E, s) ∧
    emitOverlayEntry noCalls 8 (wrapping 0x20) 0x7EFFFF wrappingEntry .init = (.ok E', s') ∧
    E.fn.extent = some (0x7E0001, 0x7F0000) ∧
    (wrapping 0x20).data.length = (wrapping 0x10).data.length ∧
    (∀ a, 0x7E0001 ≤ a → a ≤ 0x7F0000 →
      (wrapping 0x20).data[a - 0x7E0000]? = (wrapping 0x10).data[a - 0x7E0000]?) ∧
    E.fn.insns ≠ E'.fn.insns := by
  obtain ⟨E, s, hemit, hins⟩ := wrapping_entry wrapping_keeps.1
  obtain ⟨E', s', hemit', hins'⟩ := wrapping_entry wrapping_keeps.2
  have hlength : (wrapping 0x20).data.length = (wrapping 0x10).data.length :=
    (wrapping_length _).trans (wrapping_length _).symm
  refine ⟨E, E', s, s', hemit, hemit', wrapping_extent hins, hlength, fun a hlo _ => ?_, ?_⟩
  · obtain ⟨k, hk⟩ : ∃ k, a - 0x7E0000 = k + 1 := ⟨a - 0x7E0001, by omega⟩
    rw [hk]
    unfold wrapping
    dsimp only
    rw [List.getElem?_cons_succ, List.getElem?_cons_succ]
  · rw [hins, hins']
    decide

end CtRecomp
