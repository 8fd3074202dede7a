import Mathlib.Algebra.Ring.Nat
import Mathlib.Data.List.Basic
import Mathlib.Logic.Function.Basic
import CtRecomp.Cpu

namespace CtRecomp

/-! Recompiled code in WRAM (overlay.h, overlay.c, bus.c `wram_store`): what is running
natively, the bytes watched for it, and the check of its bytes. -/

/-- `ct_overlay_func`: the bytes `lo..hi` it was compiled from, in WRAM, and their hash. -/
structure OverlayFunc where
  addr : BitVec 24
  m : Bool
  x : Bool
  lo : Nat
  hi : Nat
  hash : BitVec 64
  ordered : lo ≤ hi
  placed : 0x7E0000 ≤ lo ∧ hi < 0x800000

/-- `[lo, lo + len)` of WRAM; nothing where `len` is 0. -/
structure WatchRange where
  lo : Nat
  len : Nat
deriving DecidableEq, Repr

/-- `overlay_act` -/
structure OverlayAct where
  f : OverlayFunc
  /-- In the lookup. -/
  idx : Nat
  s0 : BitVec 16
  /-- Handed its rest over: no more of its code runs. -/
  dormant : Bool
  /-- Watched before it entered. -/
  saved : WatchRange

/-- The last check of a function. `stores` is not in the source: the counts behind the
sum of counters kept in `gens`. -/
structure OverlayCheck where
  gens : Nat
  valid : Bool
  stores : BitVec 9 → Nat

abbrev overlayMaxAct : Nat := 64

structure Overlays where
  wram : BitVec 17 → BitVec 8
  /-- Writes to each 256-byte page so far. -/
  stores : BitVec 9 → Nat
  watch : WatchRange
  hit : Bool
  /-- By index in the lookup; none: not checked yet. -/
  cache : Nat → Option OverlayCheck
  /-- Outermost first. -/
  act : List OverlayAct
  /-- WRAM writes of the instruction under way that are in its journal. -/
  journal : List (BitVec 17 × BitVec 8)

def pageOf (off : BitVec 17) : BitVec 9 := off.extractLsb' 8 9

/-- `ct_wram_gen`, a `uint32_t`. -/
def Overlays.gen (s : Overlays) (p : BitVec 9) : Nat := s.stores p % 2 ^ 32

/-! The function's bytes and pages. -/

def OverlayFunc.first (f : OverlayFunc) : Nat := f.lo % 0x20000

def OverlayFunc.last (f : OverlayFunc) : Nat := f.hi % 0x20000

def OverlayFunc.pages (f : OverlayFunc) : List (BitVec 9) :=
  (List.range' (f.first / 256) (f.last / 256 + 1 - f.first / 256)).map (BitVec.ofNat 9)

def pageGens (s : Overlays) (f : OverlayFunc) : Nat := (f.pages.map s.gen).sum

def fnv (bytes : List (BitVec 8)) : BitVec 64 :=
  bytes.foldl (fun h b => (h ^^^ b.setWidth 64) * 0x100000001B3) 0xCBF29CE484222325

def OverlayFunc.offsets (f : OverlayFunc) : List (BitVec 17) :=
  (List.range' f.lo (f.hi + 1 - f.lo)).map (BitVec.ofNat 17)

/-- `matches` -/
def OverlayFunc.intact (f : OverlayFunc) (wram : BitVec 17 → BitVec 8) : Bool :=
  fnv (f.offsets.map wram) == f.hash

/-! The check. -/

/-- The function of index `k` looked at again. -/
def Overlays.recheck (s : Overlays) (f : OverlayFunc) (k : Nat) : Bool × Overlays :=
  let c : OverlayCheck := ⟨pageGens s f, f.intact s.wram, s.stores⟩
  (c.valid, { s with cache := Function.update s.cache k (some c) })

/-- `valid` -/
def Overlays.valid (s : Overlays) (f : OverlayFunc) (k : Nat) : Bool × Overlays :=
  match s.cache k with
  | none => s.recheck f k
  | some c => if c.gens = pageGens s f then (c.valid, s) else s.recheck f k

/-- Those compiled for where the CPU is; the lookup is sorted by address. -/
def overlayCandidates (table : List OverlayFunc) (c : Cpu) : List (OverlayFunc × Nat) :=
  if c.e || (c.PB != 0x7E && c.PB != 0x7F) then []
  else table.zipIdx.filter fun e => e.1.addr == c.pbpc && e.1.m == c.m && e.1.x == c.x

/-- The first of them whose bytes match. -/
def Overlays.firstValid (s : Overlays) :
    List (OverlayFunc × Nat) → Option (OverlayFunc × Nat) × Overlays
  | [] => (none, s)
  | (f, k) :: rest =>
    let (v, s) := s.valid f k
    if v then (some (f, k), s) else s.firstValid rest

/-- `overlay_lookup` -/
def Overlays.lookup (s : Overlays) (table : List OverlayFunc) (c : Cpu) :
    Option (OverlayFunc × Nat) × Overlays := s.firstValid (overlayCandidates table c)

/-- The outermost of `act`, numbered from `n`, that is not dormant and whose bytes no longer
match. -/
def Overlays.firstStale (s : Overlays) : List OverlayAct → Nat → Option Nat × Overlays
  | [], _ => (none, s)
  | a :: act, n =>
    if a.dormant then s.firstStale act (n + 1)
    else
      let (v, s) := s.valid a.f a.idx
      if v then s.firstStale act (n + 1) else (some n, s)

/-- `overlay_stale_active` -/
def Overlays.staleActive (s : Overlays) : Option Nat × Overlays := s.firstStale s.act 0

/-! The watched range. -/

/-- The range widened to the function's bytes. -/
def WatchRange.widen (w : WatchRange) (f : OverlayFunc) : WatchRange :=
  let lo := f.first
  let hi := f.last + 1
  if w.len = 0 then ⟨lo, hi - lo⟩
  else
    let lo' := if w.lo < lo then w.lo else lo
    let hi' := if hi < w.lo + w.len then w.lo + w.len else hi
    ⟨lo', hi' - lo'⟩

/-- `off - ct_wram_watch_lo < ct_wram_watch_len`, unsigned. -/
def WatchRange.has (w : WatchRange) (off : BitVec 17) : Bool :=
  (off.toNat + 2 ^ 32 - w.lo) % 2 ^ 32 < w.len

/-- `rewatch` -/
def rewatch (act : List OverlayAct) : WatchRange :=
  act.foldl (fun w a => if a.dormant then w else w.widen a.f) ⟨0, 0⟩

/-- `overlay_enter`; none: too many nested. -/
def Overlays.enter (s : Overlays) (f : OverlayFunc) (idx : Nat) (s0 : BitVec 16) :
    Option Overlays :=
  if s.act.length = overlayMaxAct then none
  else some { s with
    act := s.act ++ [⟨f, idx, s0, false, s.watch⟩]
    watch := s.watch.widen f }

/-- `overlay_leave` of entry `n`, and of everything entered after it. -/
def Overlays.leave (s : Overlays) (n : Nat) : Overlays :=
  match s.act[n]? with
  | none => s
  | some a => { s with watch := a.saved, act := s.act.take n }

def OverlayAct.sleep (a : OverlayAct) : OverlayAct := { a with dormant := true }

/-- `go_dormant` -/
def Overlays.goDormant (s : Overlays) : Overlays :=
  match s.act.getLast? with
  | none => s
  | some a =>
    if a.dormant then s
    else
      let act := s.act.dropLast ++ [a.sleep]
      { s with act, watch := rewatch act }

/-- `overlay_reset_active` -/
def Overlays.resetActive (s : Overlays) : Overlays :=
  { s with act := [], watch := ⟨0, 0⟩, hit := false }

/-- `wram_store` -/
def Overlays.store (s : Overlays) (off : BitVec 17) (v : BitVec 8) (journaled : Bool) : Overlays :=
  { s with
    stores := Function.update s.stores (pageOf off) (s.stores (pageOf off) + 1)
    hit := s.hit || s.watch.has off
    journal := if journaled then s.journal ++ [(off, v)] else s.journal
    wram := Function.update s.wram off v }

/-- What `edge_hook` leaves: the journaled writes from the frame edge on, rolled back for
the hook, are made again. -/
def Overlays.edge (s : Overlays) (undoFrom : Nat) : Overlays :=
  { s with wram := (s.journal.drop undoFrom).foldl (fun w e => Function.update w e.1 e.2) s.wram }

/-! A function's bytes are those between its first and last. -/

def OverlayFunc.Holds (f : OverlayFunc) (off : BitVec 17) : Prop :=
  f.first ≤ off.toNat ∧ off.toNat ≤ f.last

theorem OverlayFunc.first_eq (f : OverlayFunc) : f.first = f.lo - 0x7E0000 := by
  have := f.ordered
  have := f.placed
  unfold first
  omega

theorem OverlayFunc.last_eq (f : OverlayFunc) : f.last = f.hi - 0x7E0000 := by
  have := f.ordered
  have := f.placed
  unfold last
  omega

theorem OverlayFunc.first_le_last (f : OverlayFunc) : f.first ≤ f.last := by
  rw [f.first_eq, f.last_eq]
  exact Nat.sub_le_sub_right f.ordered _

theorem OverlayFunc.last_lt (f : OverlayFunc) : f.last < 0x20000 := Nat.mod_lt _ (by decide)

theorem OverlayFunc.mem_offsets {f : OverlayFunc} {off : BitVec 17} (h : off ∈ f.offsets) :
    f.Holds off := by
  obtain ⟨a, ha, rfl⟩ := List.mem_map.mp h
  rw [List.mem_range'_1] at ha
  have := f.placed
  rw [Holds, f.first_eq, f.last_eq, BitVec.toNat_ofNat]
  omega

theorem OverlayFunc.intact_congr {f : OverlayFunc} {w w' : BitVec 17 → BitVec 8}
    (h : ∀ off, f.Holds off → w' off = w off) : f.intact w' = f.intact w := by
  unfold intact
  rw [List.map_congr_left fun off hoff => h off (mem_offsets hoff)]

theorem OverlayFunc.page_mem {f : OverlayFunc} {off : BitVec 17} (h : f.Holds off) :
    pageOf off ∈ f.pages := by
  obtain ⟨hfirst, hlast⟩ := h
  refine List.mem_map.mpr ⟨off.toNat / 256, ?_, ?_⟩
  · rw [List.mem_range'_1]
    have := Nat.div_le_div_right (c := 256) hfirst
    have := Nat.div_le_div_right (c := 256) hlast
    omega
  · refine BitVec.eq_of_toNat_eq ?_
    rw [pageOf, BitVec.extractLsb'_toNat, BitVec.toNat_ofNat, Nat.shiftRight_eq_div_pow]

/-! The range as a cover. -/

def WatchRange.Covers (w : WatchRange) (f : OverlayFunc) : Prop :=
  w.lo ≤ f.first ∧ f.last < w.lo + w.len

def WatchRange.Bounded (w : WatchRange) : Prop := w.lo + w.len ≤ 0x20000

theorem WatchRange.has_iff {w : WatchRange} (hw : w.Bounded) (off : BitVec 17) :
    w.has off = true ↔ w.lo ≤ off.toNat ∧ off.toNat < w.lo + w.len := by
  have hoff := off.isLt
  unfold Bounded at hw
  rw [has, decide_eq_true_iff]
  omega

theorem WatchRange.Covers.has {w : WatchRange} {f : OverlayFunc} {off : BitVec 17}
    (h : w.Covers f) (hw : w.Bounded) (hoff : f.Holds off) : w.has off = true :=
  (has_iff hw off).mpr ⟨Nat.le_trans h.1 hoff.1, Nat.lt_of_le_of_lt hoff.2 h.2⟩

theorem WatchRange.widen_bounded {w : WatchRange} (hw : w.Bounded) (f : OverlayFunc) :
    (w.widen f).Bounded := by
  have := f.first_le_last
  have := f.last_lt
  unfold Bounded at hw ⊢
  unfold widen
  dsimp only
  split
  · dsimp only
    omega
  · dsimp only
    split <;> split <;> omega

theorem WatchRange.widen_covers (w : WatchRange) (f : OverlayFunc) : (w.widen f).Covers f := by
  have := f.first_le_last
  unfold Covers widen
  dsimp only
  split
  · dsimp only
    omega
  · dsimp only
    split <;> split <;> omega

theorem WatchRange.Covers.widen {w : WatchRange} {g : OverlayFunc} (h : w.Covers g)
    (f : OverlayFunc) : (w.widen f).Covers g := by
  have := f.first_le_last
  have := g.first_le_last
  obtain ⟨hlo, hhi⟩ := h
  unfold Covers WatchRange.widen
  dsimp only
  split
  · dsimp only
    omega
  · dsimp only
    split <;> split <;> omega

end CtRecomp
