import Mathlib.Data.List.Basic

/-! A queue of bounded capacity that drops its oldest item when full, and the circular
array that holds one. -/

namespace DropQueue

variable {α : Type}

def push (cap : Nat) (x : α) (q : List α) : List α :=
  if q.length < cap then q ++ [x] else (q ++ [x]).tail

inductive Op (α : Type)
  | push (x : α)
  | take (max : Nat)

/-- What is held, all that was put in, and what each take gave. -/
structure Run (α : Type) where
  held : List α
  made : List α
  takes : List (List α)

def Op.step (cap : Nat) (r : Run α) : Op α → Run α
  | .push x => { r with held := DropQueue.push cap x r.held, made := r.made ++ [x] }
  | .take max => { r with held := r.held.drop max, takes := r.takes ++ [r.held.take max] }

def run (cap : Nat) (ops : List (Op α)) : Run α := ops.foldl (Op.step cap) ⟨[], [], []⟩

/-- The items taken were put in at the places `at'`: in order, each once. What is held was put
in last; an item neither taken nor held had `cap` newer ones. -/
structure Run.InOrder (cap : Nat) (r : Run α) (at' : List Nat) : Prop where
  room : r.held.length ≤ cap
  within : r.held.length ≤ r.made.length
  held : r.held = r.made.drop (r.made.length - r.held.length)
  taken : r.takes.flatten.map some = at'.map fun i => r.made[i]?
  sorted : at'.Pairwise (· < ·)
  before : ∀ i ∈ at', i < r.made.length - r.held.length
  lost : ∀ i, i < r.made.length - r.held.length → i ∈ at' ∨ i + cap < r.made.length

variable {cap : Nat} {r : Run α} {at' : List Nat}

variable (cap) in
theorem push_length (x : α) (q : List α) :
    (push cap x q).length = if q.length < cap then q.length + 1 else q.length := by
  unfold push
  split
  next => simp
  next => simp

theorem Run.InOrder.push (h : r.InOrder cap at') (x : α) :
    (Op.step cap r (.push x)).InOrder cap at' := by
  obtain ⟨hroom, hwithin, hheld, htaken, hsorted, hbefore, hlost⟩ := h
  have hlen := push_length cap x r.held
  have hmade : (r.made ++ [x]).length = r.made.length + 1 := by simp
  have hdropped : ∀ n, n ≤ r.made.length → r.made.drop n ++ [x] = (r.made ++ [x]).drop n := by
    intro n hn
    rw [List.drop_append_of_le_length hn]
  refine ⟨?_, ?_, ?_, ?_, hsorted, fun i hi => ?_, fun i hi => ?_⟩
  · change (DropQueue.push cap x r.held).length ≤ cap
    rw [hlen]
    split <;> omega
  · change (DropQueue.push cap x r.held).length ≤ (r.made ++ [x]).length
    rw [hlen, hmade]
    split <;> omega
  · change DropQueue.push cap x r.held =
      (r.made ++ [x]).drop ((r.made ++ [x]).length - (DropQueue.push cap x r.held).length)
    rw [hlen, hmade, DropQueue.push]
    have hbegin : r.held ++ [x] = (r.made ++ [x]).drop (r.made.length - r.held.length) := by
      rw [← hdropped _ (Nat.sub_le _ _), ← hheld]
    split
    next =>
      have hsame : r.made.length + 1 - (r.held.length + 1) = r.made.length - r.held.length := by omega
      rw [hsame, hbegin]
    next =>
      have hnext : r.made.length + 1 - r.held.length = r.made.length - r.held.length + 1 := by omega
      rw [hnext, hbegin, List.tail_drop]
  · change r.takes.flatten.map some = at'.map fun i => (r.made ++ [x])[i]?
    rw [htaken]
    refine List.map_congr_left fun i hi => ?_
    rw [List.getElem?_append_left (by have := hbefore i hi; omega)]
  · have hi' := hbefore i hi
    change i < (r.made ++ [x]).length - (DropQueue.push cap x r.held).length
    rw [hlen, hmade]
    split <;> omega
  · change i < (r.made ++ [x]).length - (DropQueue.push cap x r.held).length at hi
    change i ∈ at' ∨ i + cap < (r.made ++ [x]).length
    rw [hlen, hmade] at hi
    rw [hmade]
    by_cases hold : i < r.made.length - r.held.length
    · exact (hlost i hold).imp_right fun hi => by omega
    · right
      split at hi
      next => omega
      next => omega

theorem take_drop_places (l : List α) {s n : Nat} (h : s + n ≤ l.length) :
    ((l.drop s).take n).map some = (List.range' s n).map fun i => l[i]? := by
  refine List.ext_getElem? fun k => ?_
  rw [List.getElem?_map, List.getElem?_map, List.getElem?_take]
  by_cases hk : k < n
  · have hin : s + k < l.length := by omega
    rw [if_pos hk, List.getElem?_drop, List.getElem?_range' hk]
    simp [List.getElem?_eq_getElem hin]
  · rw [if_neg hk, List.getElem?_eq_none (by simp; omega)]
    rfl

theorem Run.InOrder.take (h : r.InOrder cap at') (max : Nat) :
    (Op.step cap r (.take max)).InOrder cap
      (at' ++ List.range' (r.made.length - r.held.length) (min max r.held.length)) := by
  obtain ⟨hroom, hwithin, hheld, htaken, hsorted, hbefore, hlost⟩ := h
  have hlen : (r.held.drop max).length = r.held.length - max := List.length_drop ..
  refine ⟨?_, ?_, ?_, ?_, ?_, fun i hi => ?_, fun i hi => ?_⟩
  · change (r.held.drop max).length ≤ cap
    omega
  · change (r.held.drop max).length ≤ r.made.length
    omega
  · change r.held.drop max = r.made.drop (r.made.length - (r.held.drop max).length)
    rw [hlen]
    by_cases hall : r.held.length ≤ max
    · rw [List.drop_of_length_le hall, List.drop_of_length_le (by omega)]
    · conv => lhs; rw [hheld]
      rw [List.drop_drop]
      congr 1
      omega
  · change (r.takes ++ [r.held.take max]).flatten.map some = _
    rw [List.flatten_append, List.map_append, htaken, List.map_append]
    congr 1
    simp only [List.flatten_cons, List.flatten_nil, List.append_nil]
    have hplaces := take_drop_places r.made (s := r.made.length - r.held.length)
      (n := min max r.held.length) (by omega)
    rw [← hheld] at hplaces
    rw [List.take_eq_take_min]
    exact hplaces
  · refine List.pairwise_append.mpr ⟨hsorted, List.pairwise_lt_range' .., fun i hi j hj => ?_⟩
    have hi := hbefore i hi
    have hj := (List.mem_range'_1.mp hj).1
    omega
  · change i < r.made.length - (r.held.drop max).length
    rw [hlen]
    rcases List.mem_append.mp hi with hi | hi
    · have hi := hbefore i hi
      omega
    · have hi := List.mem_range'_1.mp hi
      omega
  · change i < r.made.length - (r.held.drop max).length at hi
    rw [hlen] at hi
    by_cases hold : i < r.made.length - r.held.length
    · exact (hlost i hold).imp_left fun hi => List.mem_append_left _ hi
    · refine .inl (List.mem_append_right _ (List.mem_range'_1.mpr ?_))
      omega

theorem run_inOrder (cap : Nat) (ops : List (Op α)) : ∃ at', (run cap ops).InOrder cap at' := by
  have hstart : Run.InOrder cap (⟨[], [], []⟩ : Run α) [] :=
    ⟨Nat.zero_le _, Nat.le_refl _, rfl, rfl, List.Pairwise.nil, nofun, fun i hi => by cases hi⟩
  have hrun : ∀ r : Run α, (∃ at', r.InOrder cap at') →
      ∃ at', (ops.foldl (Op.step cap) r).InOrder cap at' := by
    induction ops with
    | nil => exact fun r hr => hr
    | cons op ops ih =>
      rintro r ⟨at', hr⟩
      cases op with
      | push x => exact ih _ ⟨_, hr.push x⟩
      | take max => exact ih _ ⟨_, hr.take max⟩
  exact hrun _ ⟨[], hstart⟩

/-! A circular array of `n` slots, read from a place on. -/

def circular (n : Nat) (slots : Nat → α) (start len : Nat) : List α :=
  (List.range len).map fun i => slots ((start + i) % n)

def write (slots : Nat → α) (k : Nat) (x : α) : Nat → α := fun j => if j = k then x else slots j

theorem circular_getElem? (n : Nat) (slots : Nat → α) (start : Nat) {len k : Nat} (h : k < len) :
    (circular n slots start len)[k]? = some (slots ((start + k) % n)) := by
  simp [circular, h]

theorem circular_length (n : Nat) (slots : Nat → α) (start len : Nat) :
    (circular n slots start len).length = len := by
  simp [circular]

theorem circular_take (n : Nat) (slots : Nat → α) (start len m : Nat) :
    (circular n slots start len).take m = circular n slots start (min m len) := by
  simp [circular, ← List.map_take, List.take_range]

theorem circular_drop (n : Nat) (slots : Nat → α) (start len m : Nat) :
    (circular n slots start len).drop m = circular n slots (start + m) (len - m) := by
  refine List.ext_getElem? fun k => ?_
  rw [List.getElem?_drop]
  by_cases hk : k < len - m
  · rw [circular_getElem? n slots start (by omega), circular_getElem? n slots (start + m) hk,
      Nat.add_assoc]
  · rw [List.getElem?_eq_none (by rw [circular_length]; omega),
      List.getElem?_eq_none (by rw [circular_length]; omega)]

theorem circular_start (n : Nat) (slots : Nat → α) (start len : Nat) :
    circular n slots (start % n) len = circular n slots start len := by
  simp [circular]

theorem circular_congr {n start start' : Nat} (slots : Nat → α) (len : Nat)
    (h : start % n = start' % n) : circular n slots start len = circular n slots start' len := by
  rw [← circular_start, h, circular_start]

theorem circular_cons (n : Nat) (slots : Nat → α) (start len : Nat) :
    circular n slots start (len + 1) =
      slots (start % n) :: circular n slots (start + 1) len := by
  simp only [circular, List.range_succ_eq_map, List.map_cons, List.map_map, Nat.add_zero,
    List.cons.injEq, true_and]
  refine List.map_congr_left fun i _ => ?_
  simp only [Function.comp, Nat.succ_eq_add_one, Nat.add_assoc, Nat.add_comm 1 i]

/-- Two places less than `n` apart are different slots. -/
theorem slot_ne {n a b : Nat} (hlt : a < b) (hnear : b < a + n) : a % n ≠ b % n := by
  intro hsame
  have hdiv : n ∣ b - a := Nat.dvd_of_mod_eq_zero (Nat.sub_mod_eq_zero_of_mod_eq hsame.symm)
  have hle := Nat.le_of_dvd (by omega) hdiv
  omega

/-- A write elsewhere. -/
theorem circular_write {n start len k : Nat} (slots : Nat → α) (x : α)
    (h : ∀ i < len, (start + i) % n ≠ k) :
    circular n (write slots k x) start len = circular n slots start len := by
  refine List.map_congr_left fun i hi => if_neg (h i (List.mem_range.mp hi))

/-- A write behind what is held, in an array with a slot to spare. -/
theorem circular_push {n : Nat} (start : Nat) {len : Nat} (slots : Nat → α) (x : α) (h : len < n) :
    circular n (write slots ((start + len) % n) x) start (len + 1) =
      circular n slots start len ++ [x] := by
  have hlast : circular n (write slots ((start + len) % n) x) start (len + 1) =
      circular n (write slots ((start + len) % n) x) start len ++ [x] := by
    simp [circular, List.range_succ, write]
  rw [hlast, circular_write]
  exact fun i hi => slot_ne (by omega) (by omega)

/-- In a full one it takes the place of the oldest item. -/
theorem circular_push_full {n : Nat} (start : Nat) (slots : Nat → α) (x : α) (hn : 0 < n) :
    circular n (write slots (start % n) x) (start + 1) n =
      (circular n slots start n ++ [x]).tail := by
  have hlast : start + 1 + (n - 1) = start + n := by omega
  have hpush := circular_push (n := n) (start + 1) slots x (Nat.sub_lt hn Nat.one_pos)
  rw [hlast, Nat.add_mod_right, Nat.sub_add_cancel hn] at hpush
  rw [hpush, ← List.drop_one, List.drop_append_of_le_length (by rw [circular_length]; exact hn),
    circular_drop]

end DropQueue
