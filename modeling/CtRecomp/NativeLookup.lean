import CtRecomp.LowerBound
import CtRecomp.Lockstep
import Mathlib.Data.List.Sort

namespace CtRecomp

open LowerBound

/-! The recompiled functions by address (sched.c `native_build`, `native_lookup`). -/

/-- `ct_func`: one M and X on entry, and DB and DP where they are known, else a negative one. -/
structure CtFunc (φ : Type) where
  addr : BitVec 32
  m : BitVec 8
  x : BitVec 8
  db : Int
  dp : Int
  callsExtern : BitVec 8
  /-- Its code, if it has any. -/
  fn : Option φ
deriving DecidableEq

section

variable {φ : Type} {funcs : List (CtFunc φ)}

/-- `by_addr` -/
def CtFunc.byAddr (f g : CtFunc φ) : Int :=
  if f.addr < g.addr then -1 else if g.addr < f.addr then 1 else 0

/-- What `native_build` takes from the table. -/
def CtFunc.dispatched (f : CtFunc φ) : Bool := f.fn.isSome && f.callsExtern == 0

/-- `native`, as `qsort` leaves entries of one address. -/
structure NativeTable (funcs : List (CtFunc φ)) where
  native : List (CtFunc φ)
  perm : native.Perm (funcs.filter CtFunc.dispatched)
  sorted : native.Pairwise fun f g => f.byAddr g ≤ 0

/-- Compiled for the M, X, DB and DP the CPU has. -/
def CtFunc.fits (f : CtFunc φ) (c : Cpu) : Bool :=
  f.m.toNat = c.m.toNat && f.x.toNat = c.x.toNat && (f.db < 0 || f.db = c.DB.toNat) &&
    (f.dp < 0 || f.dp = c.DP.toNat)

def nativeFirst (native : List (CtFunc φ)) (at' : BitVec 32) : Nat :=
  lowerBound (fun k => (native[k]?).any fun f => f.addr < at') native.length 0 native.length

/-- The loop over the entries of one address. -/
def nativeScan (c : Cpu) (at' : BitVec 32) : List (CtFunc φ) → Option (CtFunc φ)
  | [] => none
  | f :: rest =>
    if f.addr = at' then if f.fits c then some f else nativeScan c at' rest
    else none

/-- `native_lookup` -/
def nativeLookup (native : List (CtFunc φ)) (nativeOn : Bool) (c : Cpu) : Option (CtFunc φ) :=
  if !nativeOn || c.e || native.length == 0 then none
  else
    let at' := c.pbpc.setWidth 32
    nativeScan c at' (native.drop (nativeFirst native at'))

theorem byAddr_le {f g : CtFunc φ} : f.byAddr g ≤ 0 ↔ f.addr ≤ g.addr := by
  unfold CtFunc.byAddr
  split
  next h => exact iff_of_true (by omega) (BitVec.le_of_lt h)
  next h =>
    split
    next h' => exact iff_of_false (by omega) (BitVec.not_le.mpr h')
    next h' => exact iff_of_true (Int.le_refl 0) (BitVec.not_lt.mp h')

/-- Some table there always is. -/
def NativeTable.ofSort (funcs : List (CtFunc φ)) : NativeTable funcs where
  native := (funcs.filter CtFunc.dispatched).insertionSort fun f g => f.byAddr g ≤ 0
  perm := List.perm_insertionSort _ _
  sorted := by
    have htotal : Std.Total fun f g : CtFunc φ => f.byAddr g ≤ 0 :=
      ⟨fun f g => by rw [byAddr_le, byAddr_le]; exact BitVec.le_total _ _⟩
    have htrans : IsTrans (CtFunc φ) fun f g => f.byAddr g ≤ 0 :=
      ⟨fun f g h hfg hgh => byAddr_le.mpr
        (BitVec.le_trans (byAddr_le.mp hfg) (byAddr_le.mp hgh))⟩
    exact List.pairwise_insertionSort _ _

theorem NativeTable.mem (nt : NativeTable funcs) {f : CtFunc φ} :
    f ∈ nt.native ↔ f ∈ funcs ∧ f.fn.isSome = true ∧ f.callsExtern = 0 := by
  rw [nt.perm.mem_iff, List.mem_filter, CtFunc.dispatched, Bool.and_eq_true, beq_iff_eq]

/-- The search leaves the entries at the address and after it. -/
theorem NativeTable.drop_first (nt : NativeTable funcs) (at' : BitVec 32) :
    nt.native.drop (nativeFirst nt.native at') =
      nt.native.filter fun f => !decide (f.addr < at') := by
  refine drop_lowerBound (nt.sorted.imp fun hle hless => ?_)
  have hle := BitVec.le_def.mp (byAddr_le.mp hle)
  have hless := BitVec.lt_def.mp (of_decide_eq_true hless)
  exact decide_eq_true (BitVec.lt_def.mpr (Nat.lt_of_le_of_lt hle hless))

/-- With the source's `unsigned` indices too: there are not 2^31 functions. -/
theorem nativeFirst_unsigned {native : List (CtFunc φ)} (h : 2 * native.length ≤ 2 ^ 32)
    (at' : BitVec 32) :
    lowerBoundMod 32 (fun k => (native[k]?).any fun f => f.addr < at') native.length 0
      native.length = nativeFirst native at' := lowerBoundMod_eq h

/-! What the scan finds. -/

variable {c : Cpu} {at' : BitVec 32} {l : List (CtFunc φ)} {f : CtFunc φ}

theorem nativeScan_some (h : nativeScan c at' l = some f) :
    f ∈ l ∧ f.addr = at' ∧ f.fits c = true := by
  induction l with
  | nil => cases h
  | cons g rest ih =>
    unfold nativeScan at h
    by_cases haddr : g.addr = at'
    · rw [if_pos haddr] at h
      by_cases hfits : g.fits c = true
      · rw [if_pos hfits] at h
        cases h
        exact ⟨List.mem_cons_self, haddr, hfits⟩
      · rw [if_neg hfits] at h
        obtain ⟨hmem, hrest⟩ := ih h
        exact ⟨List.mem_cons_of_mem _ hmem, hrest⟩
    · rw [if_neg haddr] at h
      cases h

/-- Where addresses only grow, none before `at'`, it stops past the last there is. -/
theorem nativeScan_isSome (hsorted : l.Pairwise fun f g => f.byAddr g ≤ 0)
    (hreached : ∀ f ∈ l, at' ≤ f.addr) (hf : f ∈ l) (haddr : f.addr = at')
    (hfits : f.fits c = true) : (nativeScan c at' l).isSome = true := by
  induction l with
  | nil => cases hf
  | cons g rest ih =>
    obtain ⟨hlater, hrest⟩ := List.pairwise_cons.mp hsorted
    have hgat : g.addr = at' := by
      rcases List.mem_cons.mp hf with rfl | hf
      · exact haddr
      · exact BitVec.le_antisymm (haddr ▸ byAddr_le.mp (hlater f hf))
          (hreached g List.mem_cons_self)
    unfold nativeScan
    rw [if_pos hgat]
    by_cases hg : g.fits c = true
    · rw [if_pos hg]
      rfl
    · rw [if_neg hg]
      refine ih hrest (fun f hf => hreached f (List.mem_cons_of_mem _ hf)) ?_
      exact (List.mem_cons.mp hf).resolve_left fun heq => hg (heq ▸ hfits)

/-- Compiled with no hook of its own, for the CPU's place and state. -/
structure CtFunc.Enters (f : CtFunc φ) (c : Cpu) : Prop where
  body : f.fn.isSome = true
  hookless : f.callsExtern = 0
  place : f.addr = c.pbpc.setWidth 32
  m : f.m.toNat = c.m.toNat
  x : f.x.toNat = c.x.toNat
  db : f.db < 0 ∨ f.db = c.DB.toNat
  dp : f.dp < 0 ∨ f.dp = c.DP.toNat

theorem fits_iff : f.fits c = true ↔ f.m.toNat = c.m.toNat ∧ f.x.toNat = c.x.toNat ∧
    (f.db < 0 ∨ f.db = c.DB.toNat) ∧ (f.dp < 0 ∨ f.dp = c.DP.toNat) := by
  unfold CtFunc.fits
  rw [Bool.and_eq_true, Bool.and_eq_true, Bool.and_eq_true, Bool.or_eq_true, Bool.or_eq_true]
  simp only [decide_eq_true_iff, and_assoc]

theorem NativeTable.enters_iff (nt : NativeTable funcs) : f ∈ funcs ∧ f.Enters c ↔
    f ∈ nt.native ∧ f.addr = c.pbpc.setWidth 32 ∧ f.fits c = true := by
  rw [nt.mem, fits_iff]
  constructor
  · rintro ⟨hf, h⟩
    exact ⟨⟨hf, h.body, h.hookless⟩, h.place, h.m, h.x, h.db, h.dp⟩
  · rintro ⟨⟨hf, hbody, hhookless⟩, hplace, hm, hx, hdb, hdp⟩
    exact ⟨hf, hbody, hhookless, hplace, hm, hx, hdb, hdp⟩

/-- What is found is entered by the CPU as it is. -/
theorem nativeLookup_some (nt : NativeTable funcs) {nativeOn : Bool}
    (h : nativeLookup nt.native nativeOn c = some f) :
    nativeOn = true ∧ c.e = false ∧ f ∈ funcs ∧ f.Enters c := by
  unfold nativeLookup at h
  by_cases hnone : (!nativeOn || c.e || nt.native.length == 0) = true
  · rw [if_pos hnone] at h
    cases h
  · rw [if_neg hnone] at h
    obtain ⟨hmem, haddr, hfits⟩ := nativeScan_some h
    rw [Bool.or_eq_true, Bool.or_eq_true, not_or, not_or, Bool.not_eq_true', Bool.not_eq_false,
      Bool.not_eq_true] at hnone
    exact ⟨hnone.1.1, hnone.1.2, nt.enters_iff.mpr ⟨List.mem_of_mem_drop hmem, haddr, hfits⟩⟩

/-- Where one is entered, there is something to find. -/
theorem nativeLookup_isSome (nt : NativeTable funcs) (he : c.e = false) (hf : f ∈ funcs)
    (henters : f.Enters c) : (nativeLookup nt.native true c).isSome = true := by
  obtain ⟨hmem, haddr, hfits⟩ := nt.enters_iff.mp ⟨hf, henters⟩
  have hany : nt.native.length ≠ 0 := fun h =>
    List.ne_nil_of_mem hmem (List.length_eq_zero_iff.mp h)
  unfold nativeLookup
  rw [he, beq_false_of_ne hany, if_neg (by decide)]
  have hsorted := nt.sorted.sublist (List.drop_sublist
    (nativeFirst nt.native (c.pbpc.setWidth 32)) nt.native)
  refine nativeScan_isSome hsorted (fun g hg => ?_) ?_ haddr hfits
  · rw [nt.drop_first] at hg
    have hnot := (List.mem_filter.mp hg).2
    rw [Bool.not_eq_true', decide_eq_false_iff_not] at hnot
    exact BitVec.not_lt.mp hnot
  · rw [nt.drop_first]
    refine List.mem_filter.mpr ⟨hmem, ?_⟩
    rw [Bool.not_eq_true', decide_eq_false_iff_not, haddr]
    exact BitVec.lt_irrefl _

/-- An entry is found exactly when one is entered by the CPU as it is, in native mode with
dispatch on; and no other is. -/
theorem nativeLookup_exact (funcs : List (CtFunc φ)) (nt : NativeTable funcs) (nativeOn : Bool)
    (c : Cpu) :
    ((nativeLookup nt.native nativeOn c).isSome = true ↔
      nativeOn = true ∧ c.e = false ∧ ∃ f ∈ funcs, f.Enters c) ∧
    ∀ f, nativeLookup nt.native nativeOn c = some f → f ∈ funcs ∧ f.Enters c := by
  refine ⟨⟨fun hfound => ?_, ?_⟩, fun f hf => (nativeLookup_some nt hf).2.2⟩
  · obtain ⟨f, hf⟩ := Option.isSome_iff_exists.mp hfound
    obtain ⟨hon, he, hmem, henters⟩ := nativeLookup_some nt hf
    exact ⟨hon, he, f, hmem, henters⟩
  · rintro ⟨rfl, he, f, hf, henters⟩
    exact nativeLookup_isSome nt he hf henters

/-- Of two entries of one place and state, the one for the DB there is. -/
example : (nativeLookup (NativeTable.ofSort
    [⟨0x009000, 1, 1, -1, -1, 0, some 0⟩, ⟨0x008000, 1, 1, 0x7E, -1, 0, some 1⟩,
      ⟨0x008000, 1, 1, 0, -1, 0, some 2⟩]).native true irqCpu).bind CtFunc.fn = some 2 := by decide

end

/-! The dispatcher with a table. -/

section

variable {δ ν : Type} {D : Devices δ} {P : Program δ ν} {mxe : ν → Bool × Bool × Bool}
  {funcs : List (CtFunc ν)} {nt : NativeTable funcs} {nativeOn : Bool}

/-- The functions' code is entered at its first control point. -/
def Program.dispatching (P : Program δ ν) (native : List (CtFunc ν)) (nativeOn : Bool) :
    Program δ ν :=
  { P with nativeLookup := fun c => (CtRecomp.nativeLookup native nativeOn c).bind CtFunc.fn }

/-- The code begins at the entry's address, compiled for its M and X in native mode. -/
def CtFunc.Begins (P : Program δ ν) (mxe : ν → Bool × Bool × Bool) (f : CtFunc ν) : Prop :=
  ∀ n, f.fn = some n → f.addr = (P.addr n).setWidth 32 ∧ f.m.toNat = (mxe n).1.toNat ∧
    f.x.toNat = (mxe n).2.1.toNat ∧ (mxe n).2.2 = false

/-- `sched_set_native(0)`: the interpreter alone. -/
theorem dispatching_off (native : List (CtFunc ν)) :
    P.dispatching native false = P.interpreted := rfl

theorem bool_of_toNat {a b : Bool} (h : a.toNat = b.toNat) : a = b := by
  cases b with
  | false => exact Bool.toNat_eq_zero.mp h
  | true => exact Bool.toNat_eq_one.mp h

/-- Code is entered with the CPU where and as it was compiled for. -/
theorem dispatching_at (hbegins : ∀ f ∈ funcs, f.Begins P mxe) {c : Cpu} {n : ν}
    (h : (P.dispatching nt.native nativeOn).nativeLookup c = some n) : P.At mxe n c := by
  obtain ⟨f, hfound, hcode⟩ := Option.bind_eq_some_iff.mp h
  obtain ⟨-, he, hmem, henters⟩ := nativeLookup_some nt hfound
  obtain ⟨haddr, hm, hx, hnative⟩ := hbegins f hmem n hcode
  have hplace : c.pbpc.setWidth 32 = (P.addr n).setWidth 32 := henters.place.symm.trans haddr
  have hstate : c.m = (mxe n).1 ∧ c.x = (mxe n).2.1 :=
    ⟨bool_of_toNat (henters.m.symm.trans hm), bool_of_toNat (henters.x.symm.trans hx)⟩
  have hpbpc := congrArg (BitVec.setWidth 24) hplace
  rw [BitVec.setWidth_setWidth_of_le _ (by decide), BitVec.setWidth_setWidth_of_le _ (by decide),
    BitVec.setWidth_eq, BitVec.setWidth_eq] at hpbpc
  refine ⟨hpbpc, ?_⟩
  exact Prod.ext hstate.1 (Prod.ext hstate.2 (he.trans hnative.symm))

/-- A table of code with the interpreter's effect stands for a program that has it. -/
theorem dispatching_faithful (hP : Faithful P mxe) (hbegins : ∀ f ∈ funcs, f.Begins P mxe) :
    Faithful (P.dispatching nt.native nativeOn) mxe where
  lookup _ _ h := dispatching_at hbegins h
  body := hP.body
  resume := hP.resume

end

end CtRecomp
