import CtRecomp.Interp
import CtRecomp.Isa

namespace CtRecomp

/-! Fetching an instruction whose bytes are in RAM or ROM. -/

variable {σ : Type} [Board σ]

/-- Address of operand byte `k`: operands wrap within the bank. -/
def Insn.operandAddr (i : Insn) (k : Nat) : BitVec 24 :=
  bank i.addr ++ (low i.addr + BitVec.ofNat 16 (k + 1))

def Insn.operandByte (i : Insn) (k : Nat) : BitVec 8 := i.operand.extractLsb' (8 * k) 8

/-- The bytes of `i` are the ones in memory. -/
structure Placed (b : Bus σ) (i : Insn) : Prop where
  opcode : b.mem i.addr = some i.opcode
  operand : ∀ k, k + 1 < i.size → b.mem (i.operandAddr k) = some (i.operandByte k)

/-- Clocks of the operand fetches. -/
def operandClocks (b : Bus σ) (i : Insn) : List Nat :=
  (List.range (i.size - 1)).map fun k => busAccessClocks b.fastrom (i.operandAddr k)

/-- The interpreter's state once the operand of `i` is fetched too. -/
def Exec.after (c : Exec) (b : Bus σ) (i : Insn) : Exec :=
  { c with PC := low i.nextAddr, fetched := c.fetched ++ operandClocks b i }

/-- The interpreter has just fetched the opcode of `i`. -/
structure Located (c : Exec) (b : Bus σ) (i : Insn) : Prop where
  pb : c.PB = bank i.addr
  pc : c.PC = low i.addr + 1
  placed : Placed b i

@[simp] theorem Exec.after_toRegFile (c : Exec) (b : Bus σ) (i : Insn) :
    (c.after b i).toRegFile = c.toRegFile := rfl

@[simp] theorem Exec.setRegs_toRegFile (c : Exec) (r : RegFile) : (c.setRegs r).toRegFile = r := rfl

theorem fetch8_bind {α : Type} {c : Exec} {w : Wire σ} {v : BitVec 8} {a : BitVec 24}
    (ha : c.pbpc = a) (h : w.bus.mem a = some v) (k : BitVec 8 × Exec → BusM σ α) :
    (fetch8 c >>= k) w =
      k (v, { c with PC := c.PC + 1, fetched := c.fetched ++ [busAccessClocks w.bus.fastrom a] })
        { w with mdr := v } := by
  have hr := busRead_mem h
  rw [← ha] at hr ⊢
  change (fetch8 c w).bind _ = _
  unfold fetch8
  rw [hr]
  rfl

/-- The interpreter's state after `n` operand bytes. -/
def Exec.part (c : Exec) (b : Bus σ) (i : Insn) (n : Nat) : Exec :=
  { c with
    PC := low i.addr + BitVec.ofNat 16 (n + 1)
    fetched := c.fetched ++
      (List.range n).map fun k => busAccessClocks b.fastrom (i.operandAddr k) }

theorem Located.part_zero {c : Exec} {b : Bus σ} {i : Insn} (hl : Located c b i) :
    c.part b i 0 = c := by
  have hpc : low i.addr + BitVec.ofNat 16 (0 + 1) = c.PC := hl.pc.symm
  unfold Exec.part
  rw [hpc]
  simp

theorem Exec.part_after (c : Exec) (b : Bus σ) {i : Insn} {n : Nat} (hs : i.size = n + 1) :
    c.part b i n = c.after b i := by
  simp only [Exec.part, Exec.after, operandClocks, Insn.nextAddr, low_append, hs,
    Nat.add_sub_cancel]

theorem fetch8_part {α : Type} {c : Exec} {w : Wire σ} {i : Insn} {n : Nat}
    (hl : Located c w.bus i) (hn : n + 1 < i.size) (k : BitVec 8 × Exec → BusM σ α) :
    (fetch8 (c.part w.bus i n) >>= k) w =
      k (i.operandByte n, c.part w.bus i (n + 1)) { w with mdr := i.operandByte n } := by
  have ha : (c.part w.bus i n).pbpc = i.operandAddr n := by
    change c.PB ++ (low i.addr + BitVec.ofNat 16 (n + 1)) = _
    rw [hl.pb]
    rfl
  have hpc : low i.addr + BitVec.ofNat 16 (n + 1) + 1 = low i.addr + BitVec.ofNat 16 (n + 1 + 1) := by
    rw [BitVec.add_assoc]
    congr 1
    exact (BitVec.ofNat_add (n + 1) 1).symm
  have hnext : { c.part w.bus i n with
      PC := (c.part w.bus i n).PC + 1
      fetched := (c.part w.bus i n).fetched ++ [busAccessClocks w.bus.fastrom (i.operandAddr n)] } =
      c.part w.bus i (n + 1) := by
    simp only [Exec.part, hpc, List.range_succ, List.map_append, List.append_assoc, List.map_cons,
      List.map_nil]
  rw [fetch8_bind ha (hl.placed.operand n hn), hnext]

theorem fetch16_part {α : Type} {c : Exec} {w : Wire σ} {i : Insn} (hl : Located c w.bus i)
    (hs : 3 ≤ i.size) (k : BitVec 16 × Exec → BusM σ α) :
    (fetch16 (c.part w.bus i 0) >>= k) w =
      k (i.lo16, c.part w.bus i 2) { w with mdr := i.operandByte 1 } := by
  have hlo : i.operandByte 1 ++ i.operandByte 0 = i.lo16 :=
    BitVec.extractLsb'_append_extractLsb'_eq_extractLsb' rfl
  unfold fetch16
  rw [bind_assoc, fetch8_part hl (by omega)]
  simp only [bind_assoc, pure_bind]
  have h := fetch8_part (w := { w with mdr := i.operandByte 0 }) hl (n := 1) (by omega)
    (fun p => k (p.1 ++ i.operandByte 0, p.2))
  exact h.trans (by rw [hlo])

/-- A block move's two banks. -/
theorem fetch8_twice {α : Type} {c : Exec} {w : Wire σ} {i : Insn} (hl : Located c w.bus i)
    (hs : i.size = 3) (k : BitVec 8 → BitVec 8 × Exec → BusM σ α) :
    (fetch8 c >>= fun p => fetch8 p.2 >>= k p.1) w =
      k (i.operandByte 0) (i.operandByte 1, c.after w.bus i) { w with mdr := i.operandByte 1 } := by
  have h := fetch8_part hl (n := 0) (by omega) fun p => fetch8 p.2 >>= k p.1
  rw [hl.part_zero] at h
  refine h.trans ?_
  have h2 := fetch8_part (w := { w with mdr := i.operandByte 0 }) hl (n := 1) (by omega)
    (k (i.operandByte 0))
  refine h2.trans ?_
  rw [Exec.part_after _ _ hs]

theorem fetch8_operand {α : Type} {c : Exec} {w : Wire σ} {i : Insn} (hl : Located c w.bus i)
    (hs : i.size = 2) (k : BitVec 8 × Exec → BusM σ α) :
    (fetch8 c >>= k) w = k (i.lo8, c.after w.bus i) { w with mdr := i.last } := by
  have hlast : i.last = i.operandByte 0 := by simp [Insn.operandByte, Insn.last, hs]
  have h := fetch8_part hl (n := 0) (by omega) k
  rw [hl.part_zero, c.part_after w.bus hs] at h
  rw [hlast]
  exact h

theorem fetch16_operand {α : Type} {c : Exec} {w : Wire σ} {i : Insn} (hl : Located c w.bus i)
    (hs : i.size = 3) (k : BitVec 16 × Exec → BusM σ α) :
    (fetch16 c >>= k) w = k (i.lo16, c.after w.bus i) { w with mdr := i.last } := by
  have hlast : i.last = i.operandByte 1 := by simp [Insn.operandByte, Insn.last, hs]
  have h := fetch16_part hl (by omega) k
  rwa [hl.part_zero, c.part_after w.bus hs, ← hlast] at h

theorem fetch24_operand {α : Type} {c : Exec} {w : Wire σ} {i : Insn} (hl : Located c w.bus i)
    (hs : i.size = 4) (k : BitVec 24 × Exec → BusM σ α) :
    (fetch24 c >>= k) w = k (i.operand, c.after w.bus i) { w with mdr := i.last } := by
  have hlast : i.last = i.operandByte 2 := by simp [Insn.operandByte, Insn.last, hs]
  have hop : i.operandByte 2 ++ i.lo16 = i.operand := by
    have h : i.operandByte 2 ++ i.lo16 = i.operand.extractLsb' 0 (8 + 16) :=
      BitVec.extractLsb'_append_extractLsb'_eq_extractLsb' rfl
    exact h.trans BitVec.extractLsb'_eq_self
  unfold fetch24
  rw [bind_assoc]
  have h := fetch16_part hl (by omega) fun p => fetch8 p.2 >>= fun q => k (q.1 ++ p.1, q.2)
  rw [hl.part_zero] at h
  simp only [bind_assoc, pure_bind]
  refine h.trans ?_
  have h2 := fetch8_part (w := { w with mdr := i.operandByte 1 }) hl (n := 2) (by omega)
    (fun q => k (q.1 ++ i.lo16, q.2))
  rw [h2, hop, hlast, c.part_after w.bus hs]

end CtRecomp
