import CtRecomp.Cpu
import CtRecomp.Probe
import Mathlib.Algebra.BigOperators.Fin

namespace CtRecomp

/-! The native coverage profile (sched.c): interpreted instructions, charged to the function they
run in. -/

def profSlots : Nat := 8192

def profDepth : Nat := 256

/-- Not an entry, but where native code handed its rest over. -/
def profRest : BitVec 64 := 0x8000000

structure ProfSlot where
  key : BitVec 64
  count : Nat

structure ShadowEntry where
  key : BitVec 64
  s0 : BitVec 16

structure Profile where
  native : Nat
  interp : Nat
  prof : Fin profSlots → ProfSlot
  /-- The newest entry first. -/
  shadow : List ShadowEntry

/-- As `sched_init` leaves it. -/
def profileInit : Profile := ⟨0, 0, fun _ => ⟨0, 0⟩, []⟩

def entryKey (c : Cpu) : BitVec 64 :=
  c.PB.setWidth 64 <<< 16 ||| c.PC.setWidth 64 ||| (BitVec.ofBool c.m).setWidth 64 <<< 24 |||
    (BitVec.ofBool c.x).setWidth 64 <<< 25 ||| (BitVec.ofBool c.e).setWidth 64 <<< 26 |||
    0x80000000 ||| c.DB.setWidth 64 <<< 32 ||| c.DP.setWidth 64 <<< 40

/-- Drop the entries that have returned. -/
def shadowSettle (s : BitVec 16) (shadow : List ShadowEntry) : List ShadowEntry :=
  shadow.dropWhile fun e => e.s0 < s

def shadowPushKey (s : BitVec 16) (key : BitVec 64) (s0 : BitVec 16) (shadow : List ShadowEntry) :
    List ShadowEntry :=
  let shadow := shadowSettle s shadow
  ⟨key, s0⟩ :: (if shadow.length = profDepth then shadow.dropLast else shadow)

def shadowPush (c : Cpu) (shadow : List ShadowEntry) : List ShadowEntry :=
  shadowPushKey c.S (entryKey c) c.S shadow

def shadowRest (c : Cpu) (s0 : BitVec 16) (shadow : List ShadowEntry) : List ShadowEntry :=
  let key := entryKey c ||| profRest
  match shadowSettle c.S shadow with
  | [] => shadowPushKey c.S key s0 []
  | e :: shadow =>
    if e.key &&& profRest ≠ 0 ∧ e.s0 = s0 then ⟨key, s0⟩ :: shadow
    else shadowPushKey c.S key s0 (e :: shadow)

/-- The key an instruction is charged to; outside any call, that of no entry. -/
def shadowTop (shadow : List ShadowEntry) : BitVec 64 :=
  match shadow with
  | [] => 0x80000000
  | e :: _ => e.key

/-- Where the search for a key starts. -/
def profHash (key : BitVec 64) : Fin profSlots :=
  let h := (key ^^^ key >>> 29).setWidth 32 * 2654435761#32
  ⟨h.toNat % profSlots, Nat.mod_lt _ (by decide)⟩

/-- A key of 0 is none. -/
def ProfSlot.held (slot : ProfSlot) : Option (BitVec 64) :=
  if slot.key = 0 then none else some slot.key

def profKeys (prof : Fin profSlots → ProfSlot) (k : Fin profSlots) : Option (BitVec 64) :=
  (prof k).held

def profCount (prof : Fin profSlots → ProfSlot) (key : BitVec 64) : Fin profSlots → ProfSlot :=
  match Probe.search (profKeys prof) key profSlots (profHash key) with
  | some k => Function.update prof k ⟨key, (prof k).count + 1⟩
  | none => prof

/-- `prof_charge` -/
def profCharge (s : BitVec 16) (p : Profile) : Profile :=
  let shadow := shadowSettle s p.shadow
  { p with shadow, prof := profCount p.prof (shadowTop shadow) }

/-- What the scheduler does with the profile. -/
inductive ProfOp
  /-- An instruction of native code (`tick`). -/
  | native
  /-- An interpreted one, with its S. -/
  | insn (s : BitVec 16)
  | push (c : Cpu)
  | rest (c : Cpu) (s0 : BitVec 16)
  /-- `soft_reset` -/
  | reset
  /-- `sched_profile_clear` -/
  | clear

def ProfOp.run (p : Profile) : ProfOp → Profile
  | .native => { p with native := p.native + 1 }
  | .insn s => profCharge s { p with interp := p.interp + 1 }
  | .push c => { p with shadow := shadowPush c p.shadow }
  | .rest c s0 => { p with shadow := shadowRest c s0 p.shadow }
  | .reset => { p with shadow := [] }
  | .clear => { p with native := 0, interp := 0, prof := fun _ => ⟨0, 0⟩ }

/-- The keys charged since the last clear. -/
def ProfOp.charged (p : Profile) (ks : List (BitVec 64)) : ProfOp → List (BitVec 64)
  | .insn s => ks ++ [shadowTop (shadowSettle s p.shadow)]
  | .native | .push _ | .rest _ _ | .reset => ks
  | .clear => []

/-- A run from `sched_init`, with the keys charged in it. -/
def profileRun (ops : List ProfOp) : Profile × List (BitVec 64) :=
  ops.foldl (fun r op => (op.run r.1, op.charged r.1 r.2)) (profileInit, [])

/-! The report. -/

/-- The entry a key is of, whatever its DB and DP. -/
def rowKey (key : BitVec 64) : BitVec 32 := key.setWidth 32

/-- A group is counted at its first slot. -/
def profSum (prof : Fin profSlots → ProfSlot) (k : Fin profSlots) : Nat :=
  if (prof k).key = 0 then 0
  else go (List.finRange profSlots) 0
where
  go : List (Fin profSlots) → Nat → Nat
  | [], sum => sum
  | j :: js, sum =>
    if (prof j).key ≠ 0 ∧ rowKey (prof j).key = rowKey (prof k).key then
      if j < k then sum else go js (sum + (prof j).count)
    else go js sum

/-- The largest sum's slot. -/
@[irreducible] def profBest (sum : Fin profSlots → Nat) : Option (Fin profSlots) :=
  (List.finRange profSlots).foldl (fun best k =>
    match best with
    | none => if sum k ≠ 0 then some k else none
    | some b => if sum k ≠ 0 ∧ sum b < sum k then some k else some b) none

/-- The rows of `sched_profile_report`: each an entry and its instructions. -/
def profRows (prof : Fin profSlots → ProfSlot) : Nat → (Fin profSlots → Nat) →
    List (BitVec 32 × Nat)
  | 0, _ => []
  | top + 1, sum =>
    match profBest sum with
    | none => []
    | some b => (rowKey (prof b).key, sum b) :: profRows prof top (Function.update sum b 0)

def profileReport (top : Nat) (p : Profile) : List (BitVec 32 × Nat) :=
  profRows p.prof top (profSum p.prof)

/-! The table. -/

variable {prof : Fin profSlots → ProfSlot} {ks : List (BitVec 64)} {key : BitVec 64}

/-- What the slots hold once these keys have been charged. -/
structure Counted (prof : Fin profSlots → ProfSlot) (ks : List (BitVec 64)) : Prop where
  after : Probe.After profHash (profKeys prof) ks
  count : ∀ t k, profKeys prof t = some k → (prof t).count = ks.count k
  empty : ∀ t, profKeys prof t = none → (prof t).count = 0

theorem counted_init : Counted profileInit.prof [] where
  after := Probe.after_nil
  count _ _ h := by cases h
  empty _ _ := rfl

theorem profKeys_update (hkey : key ≠ 0) (t : Fin profSlots) (n : Nat) :
    profKeys (Function.update prof t ⟨key, n⟩) = Function.update (profKeys prof) t (some key) := by
  funext u
  unfold profKeys
  by_cases hu : u = t
  · subst hu
    rw [Function.update_self, Function.update_self]
    exact if_neg hkey
  · rw [Function.update_of_ne hu, Function.update_of_ne hu]

theorem profCount_counted (h : Counted prof ks) (hkey : key ≠ 0) :
    Counted (profCount prof key) (ks ++ [key]) := by
  unfold profCount
  split
  next t hfound =>
    have hold : (prof t).count = ks.count key := by
      obtain ⟨-, -, -, hfit, -⟩ := Probe.search_found hfound
      rcases hfit with hnone | hsome
      · have hnew : key ∉ ks := by
          intro hmem
          obtain ⟨u, hu⟩ := h.after.all_stored hnone hmem
          have hut : u = t := Option.some.inj ((h.after.sound u key hu).symm.trans hfound)
          rw [hut, hnone] at hu
          cases hu
        rw [h.empty t hnone, List.count_eq_zero_of_not_mem hnew]
      · exact h.count t key hsome
    refine ⟨?_, fun u k hu => ?_, fun u hu => ?_⟩
    · rw [profKeys_update hkey]
      exact h.after.found hfound
    · rw [profKeys_update hkey] at hu
      by_cases hut : u = t
      · subst hut
        rw [Function.update_self] at hu
        cases hu
        rw [Function.update_self, List.count_append, List.count_singleton_self, hold]
      · rw [Function.update_of_ne hut] at hu
        have hne : key ≠ k := by
          rintro rfl
          exact hut (Option.some.inj ((h.after.sound u key hu).symm.trans hfound))
        rw [Function.update_of_ne hut, List.count_append, List.count_singleton, h.count u k hu]
        simp [hne]
    · rw [profKeys_update hkey] at hu
      by_cases hut : u = t
      · subst hut
        rw [Function.update_self] at hu
        cases hu
      · rw [Function.update_of_ne hut] at hu ⊢
        exact h.empty u hu
  next hmissed =>
    refine ⟨h.after.missed hmissed, fun u k hu => ?_, h.empty⟩
    have hne : key ≠ k := by
      rintro rfl
      exact (Probe.search_full hmissed u).2 hu
    rw [List.count_append, List.count_singleton, h.count u k hu]
    simp [hne]

/-! A run. -/

theorem entryKey_ne_zero (c : Cpu) : entryKey c ≠ 0 := by
  intro h
  have hbit := congrArg (fun k : BitVec 64 => k.getLsbD 31) h
  simp [entryKey] at hbit

theorem restKey_ne_zero (c : Cpu) : entryKey c ||| profRest ≠ 0 := by
  intro h
  have hbit := congrArg (fun k : BitVec 64 => k.getLsbD 31) h
  simp [entryKey] at hbit

/-- Each entry is one: its key is none of an empty slot. -/
def Keyed (shadow : List ShadowEntry) : Prop := ∀ e ∈ shadow, e.key ≠ 0

variable {shadow : List ShadowEntry}

theorem Keyed.settle (h : Keyed shadow) (s : BitVec 16) : Keyed (shadowSettle s shadow) :=
  fun e he => h e ((List.dropWhile_sublist _).subset he)

theorem Keyed.pushKey (h : Keyed shadow) (s : BitVec 16) {key : BitVec 64} (hkey : key ≠ 0)
    (s0 : BitVec 16) : Keyed (shadowPushKey s key s0 shadow) := by
  refine List.forall_mem_cons.mpr ⟨hkey, fun e he => h.settle s e ?_⟩
  split at he
  next => exact List.dropLast_subset _ he
  next => exact he

theorem Keyed.rest (h : Keyed shadow) (c : Cpu) (s0 : BitVec 16) :
    Keyed (shadowRest c s0 shadow) := by
  have hkey := restKey_ne_zero c
  have hsettled := h.settle c.S
  unfold shadowRest
  dsimp only
  split
  next => exact Keyed.pushKey (List.forall_mem_nil _) _ hkey _
  next e shadow' heq =>
    rw [heq] at hsettled
    split
    next => exact List.forall_mem_cons.mpr ⟨hkey, (List.forall_mem_cons.mp hsettled).2⟩
    next => exact hsettled.pushKey _ hkey _

theorem Keyed.top (h : Keyed shadow) : shadowTop shadow ≠ 0 := by
  unfold shadowTop
  split
  next => decide
  next e _ => exact h e List.mem_cons_self

structure Profile.Follows (p : Profile) (ks : List (BitVec 64)) : Prop where
  counted : Counted p.prof ks
  keyed : Keyed p.shadow
  interp : p.interp = ks.length

theorem profOp_follows {p : Profile} (h : p.Follows ks) (op : ProfOp) :
    (op.run p).Follows (op.charged p ks) := by
  cases op with
  | native => exact ⟨h.counted, h.keyed, h.interp⟩
  | insn s =>
    refine ⟨profCount_counted h.counted (h.keyed.settle s).top, h.keyed.settle s, ?_⟩
    rw [ProfOp.charged, List.length_append, ← h.interp]
    rfl
  | push c => exact ⟨h.counted, h.keyed.pushKey _ (entryKey_ne_zero c) _, h.interp⟩
  | rest c s0 => exact ⟨h.counted, h.keyed.rest c s0, h.interp⟩
  | reset => exact ⟨h.counted, List.forall_mem_nil _, h.interp⟩
  | clear => exact ⟨counted_init, h.keyed, rfl⟩

theorem profileRun_follows (ops : List ProfOp) :
    (profileRun ops).1.Follows (profileRun ops).2 := by
  induction ops using List.reverseRec with
  | nil => exact ⟨counted_init, List.forall_mem_nil _, rfl⟩
  | append_singleton ops op ih =>
    unfold profileRun at ih ⊢
    rw [List.foldl_append]
    exact profOp_follows ih op

/-! The rows. -/

/-- Does a slot belong to the group of `r`? -/
def ProfSlot.inRow (r : BitVec 32) (slot : ProfSlot) : Prop := slot.key ≠ 0 ∧ rowKey slot.key = r

instance profSlotInRow (r : BitVec 32) (slot : ProfSlot) : Decidable (slot.inRow r) :=
  inferInstanceAs (Decidable (_ ∧ _))

/-- The instructions charged to an entry that has a slot. -/
def rowTotal (ks : List (BitVec 64)) (r : BitVec 32) : Nat :=
  ks.countP fun k => rowKey k = r ∧ k ∈ (Probe.firsts ks).take profSlots

theorem profSum_cons (k j : Fin profSlots) (js : List (Fin profSlots)) (sum : Nat) :
    profSum.go prof k (j :: js) sum =
      if (prof j).inRow (rowKey (prof k).key) then
        if j < k then sum else profSum.go prof k js (sum + (prof j).count)
      else profSum.go prof k js sum := rfl

theorem profSum_go {k : Fin profSlots} {js : List (Fin profSlots)} (hjs : js.Pairwise (· < ·))
    (sum : Nat) : profSum.go prof k js sum =
      if ∃ j ∈ js, (prof j).inRow (rowKey (prof k).key) ∧ j < k then sum
      else sum + ((js.filter fun j => (prof j).inRow (rowKey (prof k).key)).map
        fun j => (prof j).count).sum := by
  induction js generalizing sum with
  | nil => simp [profSum.go]
  | cons j js ih =>
    obtain ⟨hj, hjs⟩ := List.pairwise_cons.mp hjs
    by_cases hrow : (prof j).inRow (rowKey (prof k).key)
    · rw [profSum_cons, if_pos hrow]
      by_cases hlt : j < k
      · rw [if_pos hlt, if_pos ⟨j, List.mem_cons_self, hrow, hlt⟩]
      · have hnone : ¬∃ j' ∈ js, (prof j').inRow (rowKey (prof k).key) ∧ j' < k := by
          rintro ⟨j', hj', -, hlt'⟩
          exact hlt ((hj j' hj').trans hlt')
        have hnone' : ¬∃ j' ∈ j :: js, (prof j').inRow (rowKey (prof k).key) ∧ j' < k := by
          rintro ⟨j', hj', hrow', hlt'⟩
          rcases List.mem_cons.mp hj' with rfl | hj'
          · exact hlt hlt'
          · exact hnone ⟨j', hj', hrow', hlt'⟩
        rw [if_neg hlt, ih hjs, if_neg hnone, if_neg hnone', List.filter_cons_of_pos (by simpa),
          List.map_cons, List.sum_cons, Nat.add_assoc]
    · have hsame : (∃ j' ∈ j :: js, (prof j').inRow (rowKey (prof k).key) ∧ j' < k) ↔
          ∃ j' ∈ js, (prof j').inRow (rowKey (prof k).key) ∧ j' < k := by
        constructor
        · rintro ⟨j', hj', hrow', hlt'⟩
          rcases List.mem_cons.mp hj' with rfl | hj'
          · exact absurd hrow' hrow
          · exact ⟨j', hj', hrow', hlt'⟩
        · rintro ⟨j', hj', h⟩
          exact ⟨j', List.mem_cons_of_mem j hj', h⟩
      rw [profSum_cons, if_neg hrow, ih hjs, List.filter_cons_of_neg (by simpa)]
      simp only [hsame]

theorem inRow_keys (h : Counted prof ks) (r : BitVec 32) (js : List (Fin profSlots)) :
    ((js.filter fun j => (prof j).inRow r).map fun j => (prof j).count).sum =
      (((js.filterMap (profKeys prof)).filter fun k => rowKey k = r).map ks.count).sum := by
  induction js with
  | nil => rfl
  | cons j js ih =>
    by_cases hkey : (prof j).key = 0
    · have hheld : profKeys prof j = none := if_pos hkey
      rw [List.filter_cons_of_neg (by simp [ProfSlot.inRow, hkey]), List.filterMap_cons, hheld]
      exact ih
    · have hheld : profKeys prof j = some (prof j).key := if_neg hkey
      rw [List.filterMap_cons, hheld]
      by_cases hrow : rowKey (prof j).key = r
      · have hin : decide ((prof j).inRow r) = true := decide_eq_true ⟨hkey, hrow⟩
        rw [List.filter_cons_of_pos (p := fun j => decide ((prof j).inRow r)) hin,
          List.filter_cons_of_pos (by simpa), List.map_cons, List.map_cons, List.sum_cons,
          List.sum_cons, ih, h.count j _ hheld]
      · rw [List.filter_cons_of_neg (by simp [ProfSlot.inRow, hrow]),
          List.filter_cons_of_neg (by simpa)]
        exact ih

/-- A group's counts are its instructions. -/
theorem inRow_total (h : Counted prof ks) (r : BitVec 32) :
    (((List.finRange profSlots).filter fun j => (prof j).inRow r).map
      fun j => (prof j).count).sum = rowTotal ks r := by
  have hperm : ((Probe.keys (profKeys prof)).filter fun k => rowKey k = r).Perm
      (ks.dedup.filter fun k => rowKey k = r ∧ k ∈ (Probe.firsts ks).take profSlots) := by
    refine (List.perm_ext_iff_of_nodup (h.after.sound.nodup.filter _)
      ((List.nodup_dedup ks).filter _)).mpr fun k => ?_
    rw [List.mem_filter, List.mem_filter, Probe.mem_keys, h.after.stored k, List.mem_dedup]
    simp only [decide_eq_true_eq, Bool.decide_and, Bool.and_eq_true]
    constructor
    · rintro ⟨hk, hrow⟩
      exact ⟨Probe.mem_firsts.mp (List.mem_of_mem_take hk), hrow, hk⟩
    · rintro ⟨-, hrow, hk⟩
      exact ⟨hk, hrow⟩
  rw [inRow_keys h]
  refine ((hperm.map ks.count).sum_eq).trans ?_
  exact List.sum_map_count_dedup_filter_eq_countP _ ks

/-- The first slot of a group. -/
def FirstOf (prof : Fin profSlots → ProfSlot) (k : Fin profSlots) : Prop :=
  (prof k).key ≠ 0 ∧ ∀ j, (prof j).inRow (rowKey (prof k).key) → k ≤ j

theorem profSum_eq (h : Counted prof ks) (k : Fin profSlots) :
    (FirstOf prof k → profSum prof k = rowTotal ks (rowKey (prof k).key)) ∧
      (¬FirstOf prof k → profSum prof k = 0) := by
  have hgo : profSum.go prof k (List.finRange profSlots) 0 = _ :=
    profSum_go (List.pairwise_lt_finRange profSlots) 0
  rw [inRow_total h, Nat.zero_add] at hgo
  constructor
  · rintro ⟨hkey, hfirst⟩
    rw [profSum, if_neg hkey, hgo, if_neg]
    rintro ⟨j, -, hrow, hlt⟩
    exact absurd (hfirst j hrow) (not_le.mpr hlt)
  · intro hnot
    by_cases hkey : (prof k).key = 0
    · rw [profSum, if_pos hkey]
    · rw [profSum, if_neg hkey, hgo, if_pos]
      by_contra hnone
      refine hnot ⟨hkey, fun j hrow => ?_⟩
      by_contra hlt
      exact hnone ⟨j, List.mem_finRange j, hrow, not_le.mp hlt⟩

/-- The best of the slots seen so far. -/
structure BestOf (sum : Fin profSlots → Nat) (seen : List (Fin profSlots))
    (best : Option (Fin profSlots)) : Prop where
  none : best = none → ∀ k ∈ seen, sum k = 0
  some : ∀ b, best = some b → sum b ≠ 0 ∧ ∀ k ∈ seen, sum k ≤ sum b

theorem profBest_best (sum : Fin profSlots → Nat) :
    BestOf sum (List.finRange profSlots) (profBest sum) := by
  unfold profBest
  induction List.finRange profSlots using List.reverseRec with
  | nil => exact ⟨fun _ => List.forall_mem_nil _, fun b hb => (Option.some_ne_none b hb.symm).elim⟩
  | append_singleton ks k ih =>
    rw [List.foldl_append, List.foldl_cons, List.foldl_nil]
    generalize List.foldl _ none ks = best at ih
    have hsnoc {p : Fin profSlots → Prop} (hks : ∀ j ∈ ks, p j) (hk : p k) :
        ∀ j ∈ ks ++ [k], p j := by
      intro j hj
      rcases List.mem_append.mp hj with hj | hj
      · exact hks j hj
      · exact List.mem_singleton.mp hj ▸ hk
    cases best with
    | none =>
      have hzero := ih.none rfl
      dsimp only
      split
      next hk =>
        refine ⟨fun hb => (Option.some_ne_none k hb).elim, fun b hb => ?_⟩
        cases hb
        exact ⟨hk, hsnoc (fun j hj => (hzero j hj).trans_le (Nat.zero_le _)) (Nat.le_refl _)⟩
      next hk =>
        refine ⟨fun _ => hsnoc hzero (not_not.mp hk), fun b hb => ?_⟩
        exact (Option.some_ne_none b hb.symm).elim
    | some b =>
      obtain ⟨hb, hle⟩ := ih.some b rfl
      dsimp only
      split
      next hk =>
        refine ⟨fun hb' => (Option.some_ne_none _ hb').elim, fun b' hb' => ?_⟩
        cases hb'
        exact ⟨hk.1, hsnoc (fun j hj => (hle j hj).trans hk.2.le) (Nat.le_refl _)⟩
      next hk =>
        refine ⟨fun hb' => (Option.some_ne_none _ hb').elim, fun b' hb' => ?_⟩
        cases hb'
        refine ⟨hb, hsnoc hle ?_⟩
        by_contra hlt
        exact hk ⟨by omega, by omega⟩

/-- A group has one sum. -/
def Grouped (prof : Fin profSlots → ProfSlot) (sum : Fin profSlots → Nat) : Prop :=
  ∀ a b, sum a ≠ 0 → sum b ≠ 0 → rowKey (prof a).key = rowKey (prof b).key → a = b

/-- The rows of a table of sums. -/
structure Rows (prof : Fin profSlots → ProfSlot) (top : Nat) (sum : Fin profSlots → Nat)
    (rows : List (BitVec 32 × Nat)) : Prop where
  summed : ∀ r ∈ rows, ∃ b, sum b ≠ 0 ∧ r = (rowKey (prof b).key, sum b)
  distinct : (rows.map Prod.fst).Nodup
  sorted : rows.Pairwise fun r r' => r'.2 ≤ r.2
  complete : ∀ b, sum b ≠ 0 → rowKey (prof b).key ∈ rows.map Prod.fst ∨
    rows.length = top ∧ ∀ r ∈ rows, sum b ≤ r.2

theorem profRows_rows {sum : Fin profSlots → Nat} (hgroup : Grouped prof sum) (top : Nat) :
    Rows prof top sum (profRows prof top sum) := by
  induction top generalizing sum with
  | zero =>
    refine ⟨List.forall_mem_nil _, List.nodup_nil, .nil, fun b _ => .inr ⟨rfl, ?_⟩⟩
    exact List.forall_mem_nil _
  | succ top ih =>
    have hbest := profBest_best sum
    rw [profRows]
    cases hb : profBest sum with
    | none =>
      have hzero := hbest.none hb
      exact ⟨List.forall_mem_nil _, List.nodup_nil, .nil,
        fun b hne => absurd (hzero b (List.mem_finRange b)) hne⟩
    | some b =>
      obtain ⟨hpos, hle⟩ := hbest.some b hb
      have hother {a : Fin profSlots} (ha : Function.update sum b 0 a ≠ 0) : a ≠ b := by
        rintro rfl
        exact ha (Function.update_self ..)
      have hsame {a : Fin profSlots} (hab : a ≠ b) : Function.update sum b 0 a = sum a :=
        Function.update_of_ne hab _ _
      have hrest : Rows prof top (Function.update sum b 0) _ := ih fun a a' ha ha' hkey => by
        rw [hsame (hother ha)] at ha
        rw [hsame (hother ha')] at ha'
        exact hgroup a a' ha ha' hkey
      have hrow {r : BitVec 32 × Nat} (hr : r ∈ profRows prof top (Function.update sum b 0)) :
          ∃ a, a ≠ b ∧ sum a ≠ 0 ∧ r = (rowKey (prof a).key, sum a) := by
        obtain ⟨a, ha, hr⟩ := hrest.summed r hr
        rw [hsame (hother ha)] at hr
        exact ⟨a, hother ha, hsame (hother ha) ▸ ha, hr⟩
      refine ⟨List.forall_mem_cons.mpr ⟨⟨b, hpos, rfl⟩, fun r hr => ?_⟩, ?_, ?_, fun a ha => ?_⟩
      · obtain ⟨a, -, ha, hr⟩ := hrow hr
        exact ⟨a, ha, hr⟩
      · rw [List.map_cons, List.nodup_cons]
        refine ⟨fun hmem => ?_, hrest.distinct⟩
        obtain ⟨r, hr, hkey⟩ := List.mem_map.mp hmem
        obtain ⟨a, hab, ha, rfl⟩ := hrow hr
        exact hab (hgroup a b ha hpos hkey)
      · refine List.pairwise_cons.mpr ⟨fun r hr => ?_, hrest.sorted⟩
        obtain ⟨a, -, -, rfl⟩ := hrow hr
        exact hle a (List.mem_finRange a)
      · by_cases hab : a = b
        · subst hab
          exact .inl List.mem_cons_self
        · have ha' : Function.update sum b 0 a ≠ 0 := by rwa [hsame hab]
          rcases hrest.complete a ha' with hmem | ⟨hlen, hmin⟩
          · exact .inl (List.mem_cons_of_mem _ hmem)
          · rw [hsame hab] at hmin
            refine .inr ⟨congrArg (· + 1) hlen, List.forall_mem_cons.mpr ⟨?_, hmin⟩⟩
            exact hle a (List.mem_finRange a)

theorem grouped_sums (h : Counted prof ks) : Grouped prof (profSum prof) := by
  intro a b ha hb hkey
  have hfirst {k : Fin profSlots} (hk : profSum prof k ≠ 0) : FirstOf prof k := by
    by_contra hnot
    exact hk ((profSum_eq h k).2 hnot)
  obtain ⟨ha0, hafirst⟩ := hfirst ha
  obtain ⟨hb0, hbfirst⟩ := hfirst hb
  exact le_antisymm (hafirst b ⟨hb0, hkey.symm⟩) (hbfirst a ⟨ha0, hkey⟩)

/-- A key that has a slot is counted at the first one of its group. -/
theorem stored_row (h : Counted prof ks) {k : BitVec 64}
    (hk : k ∈ (Probe.firsts ks).take profSlots) :
    ∃ b, FirstOf prof b ∧ rowKey (prof b).key = rowKey k ∧ 0 < rowTotal ks (rowKey k) := by
  obtain ⟨t, ht⟩ := (h.after.stored k).mpr hk
  have hkey : (prof t).key ≠ 0 ∧ (prof t).key = k := by
    unfold profKeys ProfSlot.held at ht
    split at ht
    next => cases ht
    next hne => exact ⟨hne, Option.some.inj ht⟩
  have hrow : ∃ b, (prof b).inRow (rowKey k) := ⟨t, hkey.1, congrArg rowKey hkey.2⟩
  obtain ⟨b, hb, hmin⟩ := exists_minimal_of_wellFoundedLT (fun b => (prof b).inRow (rowKey k)) hrow
  refine ⟨b, ⟨hb.1, fun j hj => ?_⟩, hb.2, ?_⟩
  · rw [hb.2] at hj
    exact (le_total b j).elim id fun hle => hmin hj hle
  · refine List.countP_pos_iff.mpr ⟨k, Probe.mem_firsts.mp (List.mem_of_mem_take hk), ?_⟩
    simpa using hk

/-- After any run the report's rows are the entries charged most, each with the instructions
charged to it (with any DB and DP): largest first, no entry twice and none left out for a smaller
one. Only keys after the first 8192 are not counted. -/
theorem profile_report_exact (ops : List ProfOp) (top : Nat) :
    let p := (profileRun ops).1
    let ks := (profileRun ops).2
    let rows := profileReport top p
    p.interp = ks.length ∧ (∀ r ∈ rows, r.2 = rowTotal ks r.1 ∧ 0 < r.2) ∧
      (rows.map Prod.fst).Nodup ∧ (rows.Pairwise fun r r' => r'.2 ≤ r.2) ∧
      ∀ k ∈ (Probe.firsts ks).take profSlots, rowKey k ∈ rows.map Prod.fst ∨
        rows.length = top ∧ ∀ r ∈ rows, rowTotal ks (rowKey k) ≤ r.2 := by
  have h := profileRun_follows ops
  have hsum := profSum_eq h.counted
  obtain ⟨hsummed, hdistinct, hsorted, hcomplete⟩ := profRows_rows (grouped_sums h.counted) top
  refine ⟨h.interp, fun r hr => ?_, hdistinct, hsorted, fun k hk => ?_⟩
  · obtain ⟨b, hb, rfl⟩ := hsummed r hr
    have hfirst : FirstOf (profileRun ops).1.prof b := by
      by_contra hnot
      exact hb ((hsum b).2 hnot)
    exact ⟨(hsum b).1 hfirst, Nat.pos_of_ne_zero hb⟩
  · obtain ⟨b, hfirst, hrow, hpos⟩ := stored_row h.counted hk
    have hb := (hsum b).1 hfirst
    rw [hrow] at hb
    rw [← hb, ← hrow]
    exact hcomplete b (by omega)

end CtRecomp
