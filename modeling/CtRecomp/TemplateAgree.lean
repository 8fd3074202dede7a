import CtRecomp.Bodies

namespace CtRecomp

/-! Emitted bodies against whole interpreter steps. -/

variable {σ : Type} [Board σ]

/-- The interpreter's step on the instruction at PB:PC, opcode fetch included. -/
def interpInsn (h : Host σ) (c : Exec) : BusM σ Exec := do
  let site := c.pbpc
  let (op, c) ← fetch8 c
  step h c site op

def interpTimes (h : Host σ) : Nat → Exec → BusM σ Exec
  | 0, c => return c
  | n + 1, c => interpInsn h c >>= interpTimes h n

/-- MVN runs once a byte, until A wraps; any other instruction once. -/
def executions (i : Insn) (r : RegFile) : Nat := if i.opcode = 0x54 then r.A.toNat + 1 else 1

/-- Where an emitted body leaves control. -/
def Flow.dest (i : Insn) : Flow → BitVec 24
  | .next => i.nextAddr
  | .goto t => t

section

variable {c : Exec} {w : Wire σ} {i : Insn}

/-- The interpreter's state once the opcode is fetched. -/
def Exec.opened (c : Exec) (b : Bus σ) : Exec :=
  { c with PC := c.PC + 1, fetched := c.fetched ++ [busAccessClocks b.fastrom c.pbpc] }

theorem interpInsn_opened (h : Host σ) (hpc : c.pbpc = i.addr) (hp : Placed w.bus i) :
    interpInsn h c w = step h (c.opened w.bus) i.addr i.opcode { w with mdr := i.opcode } := by
  unfold interpInsn
  have hf := fetch8_bind (c := c) (w := w) hpc hp.opcode fun p => step h p.2 c.pbpc p.1
  refine hf.trans ?_
  rw [hpc, Exec.opened, hpc]

theorem Exec.opened_located (hpc : c.pbpc = i.addr) (hp : Placed w.bus i) :
    Located (c.opened w.bus) w.bus i where
  pb := by rw [← hpc]; exact (bank_append _ _).symm
  pc := by
    have hlow : c.PC = low i.addr := by rw [← hpc]; exact (low_append _ _).symm
    rw [← hlow]
    rfl
  placed := hp

theorem pbpc_after (hl : Located c w.bus i) : (c.after w.bus i).pbpc = i.nextAddr := by
  change c.PB ++ low i.nextAddr = _
  rw [hl.pb, Insn.nextAddr, low_append]

theorem arrive_view (hl : Located c w.bus i) (p : RegFile × Flow) :
    (((c.after w.bus i).arrive p).toRegFile, ((c.after w.bus i).arrive p).pbpc) =
      (p.1, p.2.dest i) := by
  obtain ⟨r, f⟩ := p
  cases f with
  | next => exact Prod.ext rfl (pbpc_after hl : (c.after w.bus i).pbpc = i.nextAddr)
  | goto t => exact Prod.ext rfl (bank_append_low t)

/-- The state after one byte of a block move left the registers `r`. -/
def Exec.moved (c : Exec) (b : Bus σ) (i : Insn) (r : RegFile) : Exec :=
  { (((c.opened b).after b i).setRegs r) with
    PC := if r.A ≠ 0xFFFF then low i.addr else low i.nextAddr }

theorem mvn_decoded (hd : i.Decoded) (hop : i.opcode = 0x54) :
    i.mnemonic = .MVN ∧ i.size = 3 := by
  obtain ⟨hmn, hmd⟩ := hd.at hop rfl
  exact ⟨hmn, hd.size_eq (by rw [hmd]; rfl)⟩

theorem interpInsn_mvn (h : Host σ) (hd : i.Decoded) (hop : i.opcode = 0x54)
    (hpc : c.pbpc = i.addr) (hp : Placed w.bus i) (hx : c.x = false) :
    interpInsn h c w =
      (mvnByte (i.operandByte 0) (i.operandByte 1) { c.toRegFile with DB := i.operandByte 0 } >>=
        fun r => return c.moved w.bus i r) { w with mdr := i.operandByte 1 } := by
  obtain ⟨-, hs⟩ := mvn_decoded hd hop
  have hl := Exec.opened_located hpc hp
  rw [interpInsn_opened h hpc hp, hop]
  change blockMove (c.opened w.bus) i.addr 1 _ = _
  have hf := fetch8_twice (w := { w with mdr := 0x54 }) hl hs
    fun dst p => moveByte p.2 i.addr 1 dst p.1
  refine hf.trans ?_
  have hx' : ((c.opened w.bus).after w.bus i).x = false := hx
  unfold moveByte mvnByte
  simp only [bind_assoc, pure_bind, hx', Bool.false_eq_true, ↓reduceIte]
  refine congrFun (congrArg _ (funext fun v => congrArg _ (funext fun _ => congrArg _ ?_))) _
  unfold Exec.moved
  by_cases hA : c.A - 1 = 0xFFFF
  · exact (if_neg (not_not.mpr hA)).trans (by rw [if_neg (not_not.mpr hA), ← hx]; rfl)
  · exact (if_pos hA).trans (by rw [if_pos hA, ← hx]; rfl)

/-- The interpreter's side of the comparison: registers, PB:PC, and the globals. -/
def view (p : Exec × Wire σ) : RegFile × BitVec 24 × Wire σ := (p.1.toRegFile, p.1.pbpc, p.2)

/-- The same of an emitted body's outcome. -/
def emittedView (i : Insn) (p : (RegFile × Flow) × Wire σ) : RegFile × BitVec 24 × Wire σ :=
  (p.1.1, p.1.2.dest i, p.2)

theorem mvnByte_regs {dst src : BitVec 8} {r r' : RegFile} {w w' : Wire σ}
    (h : mvnByte dst src r w = some (r', w')) :
    r' = { r with X := r.X + 1, Y := r.Y + 1, A := r.A - 1 } := by
  obtain ⟨⟨v, w1⟩, -, h⟩ := Option.bind_eq_some_iff.mp h
  obtain ⟨⟨_, w2⟩, -, h⟩ := Option.bind_eq_some_iff.mp h
  cases h
  rfl

theorem moved_pbpc (hpc : c.pbpc = i.addr) (r : RegFile) :
    (c.moved w.bus i r).pbpc = if r.A ≠ 0xFFFF then i.addr else i.nextAddr := by
  have hpb : c.PB = bank i.addr := by rw [← hpc]; exact (bank_append _ _).symm
  change c.PB ++ (if r.A ≠ 0xFFFF then low i.addr else low i.nextAddr) = _
  rw [hpb]
  split
  · exact bank_append_low _
  · rw [Insn.nextAddr, low_append]

theorem interpInsn_moved (h : Host σ) (hd : i.Decoded) (hop : i.opcode = 0x54)
    (hpc : c.pbpc = i.addr) (hp : Placed w.bus i) (hx : c.x = false) {r : RegFile} {w' : Wire σ}
    (hb : mvnByte (i.operandByte 0) (i.operandByte 1) { c.toRegFile with DB := i.operandByte 0 }
      { w with mdr := i.operandByte 1 } = some (r, w')) :
    interpInsn h c w = some (c.moved w.bus i r, w') := by
  rw [interpInsn_mvn h hd hop hpc hp hx]
  change (mvnByte _ _ _ _).bind _ = _
  rw [hb]
  rfl

theorem mvn_stuck (h : Host σ) (hd : i.Decoded) (hop : i.opcode = 0x54) (hpc : c.pbpc = i.addr)
    (hp : Placed w.bus i) (hx : c.x = false) {n : Nat}
    (hb : mvnByte (i.operandByte 0) (i.operandByte 1) { c.toRegFile with DB := i.operandByte 0 }
      { w with mdr := i.operandByte 1 } = none) :
    interpTimes h (n + 1) c w = none ∧
      mvnLoop (i.operandByte 0) (i.operandByte 1) (n + 1)
        { c.toRegFile with DB := i.operandByte 0 } { w with mdr := i.operandByte 1 } = none := by
  constructor
  · change (interpInsn h c w).bind _ = _
    rw [interpInsn_mvn h hd hop hpc hp hx]
    change ((mvnByte _ _ _ _).bind _).bind _ = _
    rw [hb]
    rfl
  · change (mvnByte _ _ _ _).bind _ = _
    rw [hb]
    rfl

/-- The emitted loop of a block move, byte by byte as the interpreter. -/
theorem mvnLoop_agrees (h : Host σ) (hd : i.Decoded) (hop : i.opcode = 0x54) :
    ∀ {n : Nat} {c : Exec} {w : Wire σ}, c.A.toNat = n → c.pbpc = i.addr → c.x = false →
      (∀ k ≤ n, ∀ c' w', interpTimes h k c w = some (c', w') → Placed w'.bus i) →
      (interpTimes h (n + 1) c w).map view =
        (mvnLoop (i.operandByte 0) (i.operandByte 1) (n + 1)
          { c.toRegFile with DB := i.operandByte 0 } { w with mdr := i.operandByte 1 }).map
          fun p => (p.1, i.nextAddr, p.2) := by
  intro n
  induction n with
  | zero =>
    intro c w hA hpc hx hcode
    have hp : Placed w.bus i := hcode 0 le_rfl c w rfl
    have hA0 : c.A = 0 := BitVec.eq_of_toNat_eq hA
    cases hb : mvnByte (i.operandByte 0) (i.operandByte 1)
        { c.toRegFile with DB := i.operandByte 0 } { w with mdr := i.operandByte 1 } with
    | none =>
      obtain ⟨hinterp, hemit⟩ := mvn_stuck h hd hop hpc hp hx hb (n := 0)
      rw [hinterp, hemit]
      rfl
    | some p =>
      obtain ⟨r, w'⟩ := p
      have hlast : r.A = 0xFFFF := by
        rw [mvnByte_regs hb]
        change c.A - 1 = 0xFFFF
        rw [hA0]
        rfl
      have hpc' := moved_pbpc (w := w) hpc r
      rw [if_neg (not_not.mpr hlast)] at hpc'
      have hinterp : interpTimes h 1 c w = some (c.moved w.bus i r, w') := by
        change (interpInsn h c w).bind _ = _
        rw [interpInsn_moved h hd hop hpc hp hx hb]
        rfl
      have hemit : mvnLoop (i.operandByte 0) (i.operandByte 1) 1
          { c.toRegFile with DB := i.operandByte 0 } { w with mdr := i.operandByte 1 } =
          some (r, w') := by
        change (mvnByte _ _ _ _).bind _ = _
        rw [hb]
        simp only [Option.bind_some, hlast, ↓reduceIte]
        rfl
      rw [hinterp, hemit]
      exact congrArg some (Prod.ext rfl (Prod.ext hpc' rfl))
  | succ n ih =>
    intro c w hA hpc hx hcode
    have hp : Placed w.bus i := hcode 0 (Nat.zero_le _) c w rfl
    cases hb : mvnByte (i.operandByte 0) (i.operandByte 1)
        { c.toRegFile with DB := i.operandByte 0 } { w with mdr := i.operandByte 1 } with
    | none =>
      obtain ⟨hinterp, hemit⟩ := mvn_stuck h hd hop hpc hp hx hb (n := n + 1)
      rw [hinterp, hemit]
      rfl
    | some p =>
      obtain ⟨r, w'⟩ := p
      have hr := mvnByte_regs hb
      have hrA : r.A = c.A - 1 := by rw [hr]
      have hlt := c.A.isLt
      have hn : r.A.toNat = n := by
        rw [hrA]
        bv_omega
      have hne : r.A ≠ 0xFFFF := by
        intro hlast
        rw [hlast] at hn
        change 0xFFFF = n at hn
        omega
      have hpc' := moved_pbpc (w := w) hpc r
      rw [if_pos hne] at hpc'
      have hx' : (c.moved w.bus i r).x = false := by
        change r.x = false
        rw [hr]
        exact hx
      have hDB : { r with DB := i.operandByte 0 } = r := by rw [hr]
      have hrun := interpInsn_moved h hd hop hpc hp hx hb
      have hshift (k : Nat) : interpTimes h (k + 1) c w =
          interpTimes h k (c.moved w.bus i r) w' := by
        change (interpInsn h c w).bind _ = _
        rw [hrun]
        rfl
      have hnext := ih (c := c.moved w.bus i r) (w := w') hn hpc' hx' fun k hk c' w'' hk' =>
        hcode (k + 1) (by omega) c' w'' ((hshift k).trans hk')
      have hemit : mvnLoop (i.operandByte 0) (i.operandByte 1) (n + 1 + 1)
          { c.toRegFile with DB := i.operandByte 0 } { w with mdr := i.operandByte 1 } =
          mvnLoop (i.operandByte 0) (i.operandByte 1) (n + 1) r
            { w' with mdr := i.operandByte 1 } := by
        change (mvnByte _ _ _ _).bind _ = _
        rw [hb]
        simp only [Option.bind_some, hne, ↓reduceIte]
        rfl
      change (interpTimes h (n + 1) (c.moved w.bus i r) w').map view =
        (mvnLoop _ _ (n + 1) { r with DB := i.operandByte 0 } _).map _ at hnext
      rw [hDB] at hnext
      rw [hshift, hemit, hnext]

theorem mvn_body {body : RegFile → BusM σ (RegFile × Flow)} (hb : plainBody i = some body)
    (hd : i.Decoded) (hop : i.opcode = 0x54) :
    i.x = some false ∧ body = fun r =>
      mvn16 (i.operandByte 0) (i.operandByte 1) r >>= fun r => return (r, .next) := by
  obtain ⟨hmn, -⟩ := mvn_decoded hd hop
  unfold plainBody at hb
  rw [if_neg (by rw [hop]; decide)] at hb
  obtain ⟨wd, hwd, hb⟩ := Option.bind_eq_some_iff.mp hb
  obtain ⟨t, ht, hb⟩ := Option.bind_eq_some_iff.mp hb
  rw [hop] at ht
  cases wd with
  | w8 => cases ht
  | any => cases ht
  | w16 =>
    cases ht
    cases hb
    refine ⟨?_, rfl⟩
    rw [Insn.width, hmn] at hwd
    obtain ⟨x, hx, hxw⟩ := Option.map_eq_some_iff.mp hwd
    rw [hx]
    cases x with
    | false => rfl
    | true => cases hxw

/-- The emitted body, after `ct_insn`, against the interpreter on the same
instruction: the same registers, data accesses with the bus values seen,
cycle facts, and destination, or both stop. -/
theorem template_agrees (h : Host σ) {body : RegFile → BusM σ (RegFile × Flow)}
    (hb : plainBody i = some body) (hd : i.Decoded) (hpc : c.pbpc = i.addr)
    (hk : KnownWidths c.toRegFile i) (he : c.e = false) (hn : c.toRegFile.Narrow)
    (hwai : i.opcode = 0xCB → h.sys = false)
    (hcode : ∀ k < executions i c.toRegFile, ∀ c' w', interpTimes h k c w = some (c', w') →
      Placed w'.bus i) :
    (interpTimes h (executions i c.toRegFile) c w).map view =
      ((ctInsn i >>= fun _ => body c.toRegFile) w).map (emittedView i) := by
  by_cases hop : i.opcode = 0x54
  · obtain ⟨hx, hbody⟩ := mvn_body hb hd hop
    have hlast : i.last = i.operandByte 1 := by
      simp [Insn.last, Insn.operandByte, (mvn_decoded hd hop).2]
    unfold executions at hcode ⊢
    rw [if_pos hop] at hcode ⊢
    rw [mvnLoop_agrees h hd hop rfl hpc (hk.x _ hx) fun k hk => hcode k (by omega), hbody]
    change _ = ((mvn16 _ _ _ { w with mdr := i.last }).bind _).map _
    rw [hlast, mvn16]
    cases mvnLoop (i.operandByte 0) (i.operandByte 1) (c.A.toNat + 1)
      { c.toRegFile with DB := i.operandByte 0 } { w with mdr := i.operandByte 1 } <;> rfl
  · have hp : Placed w.bus i := hcode 0 (by unfold executions; split <;> omega) c w rfl
    have hl := Exec.opened_located hpc hp
    have hemu := plain_emulates h hb hd hl (w := { w with mdr := i.opcode }) rfl hk he hn hop hwai
    unfold executions
    rw [if_neg hop]
    change ((interpInsn h c w).bind _).map view = _
    rw [interpInsn_opened h hpc hp, hemu]
    change (((body c.toRegFile _).bind _).bind _).map view =
      (body c.toRegFile { w with mdr := i.last }).map _
    cases body c.toRegFile { w with mdr := i.last } with
    | none => rfl
    | some q =>
      have hview := arrive_view hl q.1
      exact congrArg some (Prod.ext (Prod.mk.inj hview).1 (Prod.ext (Prod.mk.inj hview).2 rfl))

end

/-- A board with a few bytes of ROM from $C00000 and no registers but MEMSEL. -/
structure Probe where
  fastrom : Bool

def probeRom : List (BitVec 8) := [0xCB, 0x0C, 0x10, 0x00]

instance : Board Probe where
  rom off := probeRom.getD off.toNat 0
  hwRd _ := none
  hwWr _ := none
  fastrom := Probe.fastrom

def probeWire : Wire Probe := ⟨⟨fun _ => 0x81, fun _ => 0, ⟨false⟩⟩, 0, [], false, false, 0⟩

def probeRegs : RegFile :=
  ⟨0x1234, 5, 6, 0x1FF, 0, 0, false, false, true, true, false, false, false, false, false⟩

def probeExec (pc : BitVec 24) : Exec := ⟨⟨probeRegs, bank pc, low pc⟩, false, [], []⟩

/-- `TSB $0010` at $C00001 -/
def tsbInsn : Insn := ⟨0xC00001, 0x0C, .TSB, .abs, 0x10, 3, some true, some true, false⟩

theorem tsbInsn_placed : Placed probeWire.bus tsbInsn where
  opcode := rfl
  operand k hk := by
    have h3 : k + 1 < 3 := hk
    obtain rfl | rfl : k = 0 ∨ k = 1 := by omega
    · rfl
    · rfl

theorem template_agrees_tsb : ∃ body, plainBody (σ := Probe) tsbInsn = some body ∧
    (interpTimes ⟨true, [], []⟩ 1 (probeExec 0xC00001) probeWire).map view =
      ((ctInsn tsbInsn >>= fun _ => body probeRegs) probeWire).map (emittedView tsbInsn) := by
  refine ⟨_, rfl, template_agrees (i := tsbInsn) (c := probeExec 0xC00001) ⟨true, [], []⟩ rfl
    ⟨rfl, rfl, by decide⟩ rfl ⟨?_, ?_⟩ rfl (fun _ => ⟨by decide, by decide⟩) (by decide) ?_⟩
  · intro b hb
    exact Option.some.inj hb
  · intro b hb
    exact Option.some.inj hb
  · intro k hk c' w' hrun
    obtain rfl : k = 0 := Nat.lt_one_iff.mp hk
    cases hrun
    exact tsbInsn_placed

/-- `WAI` at $C00000 -/
def waiInsn : Insn := ⟨0xC00000, 0xCB, .WAI, .impl, 0, 1, some true, some true, false⟩

theorem waiInsn_placed : Placed probeWire.bus waiInsn where
  opcode := rfl
  operand k hk := absurd (show k + 1 < 1 from hk) (by omega)

/-- In system mode the interpreter waits where the emitted code stops. -/
theorem template_disagrees_wai : ¬∀ (h : Host Probe) (i : Insn) (c : Exec) (w : Wire Probe)
    (body : RegFile → BusM Probe (RegFile × Flow)), plainBody i = some body → i.Decoded →
    c.pbpc = i.addr → KnownWidths c.toRegFile i → c.e = false → c.toRegFile.Narrow →
    (∀ k < executions i c.toRegFile, ∀ c' w', interpTimes h k c w = some (c', w') →
      Placed w'.bus i) →
    (interpTimes h (executions i c.toRegFile) c w).map view =
      ((ctInsn i >>= fun _ => body c.toRegFile) w).map (emittedView i) := by
  intro hall
  have h := hall ⟨true, [], []⟩ waiInsn (probeExec 0xC00000) probeWire _ rfl
    ⟨rfl, rfl, by decide⟩ rfl
    ⟨fun _ hb => Option.some.inj hb, fun _ hb => Option.some.inj hb⟩ rfl
    (fun _ => ⟨by decide, by decide⟩) (by
      intro k hk c' w' hrun
      obtain rfl : k = 0 := Nat.lt_one_iff.mp hk
      cases hrun
      exact waiInsn_placed)
  have hsome := congrArg Option.isSome h
  have hleft : ((interpTimes ⟨true, [], []⟩ 1 (probeExec 0xC00000) probeWire).map view).isSome =
      true := rfl
  exact absurd (hleft.symm.trans hsome) (by decide)

end CtRecomp
