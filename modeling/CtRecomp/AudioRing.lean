import CtRecomp.DropQueue

namespace CtRecomp

open DropQueue

/-! DSP output kept until taken (sched.c `dsp_out`, `sched_audio_take`). -/

abbrev audioRing : Nat := 8192

/-- A stereo pair. -/
abbrev Sample : Type := BitVec 16 × BitVec 16

structure AudioRing where
  ring : Vector Sample audioRing
  ringHead : Nat
  ringLen : Nat

/-- As `sched_init` leaves it, whatever the array holds. -/
def AudioRing.reset (a : AudioRing) : AudioRing := { a with ringHead := 0, ringLen := 0 }

def dspOut (l r : BitVec 16) (a : AudioRing) : AudioRing where
  ring := a.ring.setIfInBounds a.ringHead (l, r)
  ringHead := (a.ringHead + 1) % audioRing
  ringLen := if a.ringLen < audioRing then a.ringLen + 1 else a.ringLen

def takeLoop (ring : Vector Sample audioRing) : Nat → Nat → List Sample
  | 0, _ => []
  | n + 1, at' => ring[at']! :: takeLoop ring n ((at' + 1) % audioRing)

def schedAudioTake (max : Nat) (a : AudioRing) : List Sample × AudioRing :=
  let n := min a.ringLen max
  let at' := (a.ringHead + audioRing - a.ringLen) % audioRing
  (takeLoop a.ring n at', { a with ringLen := a.ringLen - n })

inductive AudioOp
  | sample (l r : BitVec 16)
  | take (max : Nat)

/-- The ring, all the samples produced, and what each take gave. -/
structure Heard where
  ring : AudioRing
  made : List Sample
  takes : List (List Sample)

def AudioOp.run (h : Heard) : AudioOp → Heard
  | .sample l r => { h with ring := dspOut l r h.ring, made := h.made ++ [(l, r)] }
  | .take max =>
    let (got, ring) := schedAudioTake max h.ring
    { h with ring, takes := h.takes ++ [got] }

/-- From `sched_init` on. -/
def audioRun (a : AudioRing) (ops : List AudioOp) : Heard :=
  ops.foldl AudioOp.run ⟨a.reset, [], []⟩

/-- The queue's side of it. -/
def AudioOp.queued : AudioOp → Op Sample
  | .sample l r => .push (l, r)
  | .take max => .take max

/-- The array as slots. -/
def AudioRing.slots (a : AudioRing) (k : Nat) : Sample := a.ring[k]!

/-- The samples held, oldest first. -/
def AudioRing.held (a : AudioRing) : List Sample :=
  circular audioRing a.slots (a.ringHead + audioRing - a.ringLen) a.ringLen

structure AudioRing.Valid (a : AudioRing) : Prop where
  ringHead : a.ringHead < audioRing
  ringLen : a.ringLen ≤ audioRing

theorem dspOut_valid {a : AudioRing} (h : a.Valid) (l r : BitVec 16) : (dspOut l r a).Valid := by
  have hlen := h.ringLen
  refine ⟨Nat.mod_lt _ (by decide), ?_⟩
  change (if a.ringLen < audioRing then a.ringLen + 1 else a.ringLen) ≤ audioRing
  split <;> omega

theorem dspOut_slots {a : AudioRing} (h : a.Valid) (l r : BitVec 16) :
    (dspOut l r a).slots = write a.slots a.ringHead (l, r) := by
  funext k
  have hin := h.ringHead
  unfold AudioRing.slots write dspOut
  dsimp only
  by_cases hk : k < audioRing
  · rw [getElem!_pos (a.ring.setIfInBounds a.ringHead (l, r)) k hk, getElem!_pos a.ring k hk,
      Vector.getElem_setIfInBounds hk]
    by_cases hhead : a.ringHead = k
    · rw [if_pos hhead, if_pos hhead.symm]
    · rw [if_neg hhead, if_neg fun h => hhead h.symm]
  · rw [getElem!_neg (a.ring.setIfInBounds a.ringHead (l, r)) k hk, getElem!_neg a.ring k hk,
      if_neg (by omega)]

/-- A full ring drops its oldest sample. -/
theorem dspOut_held {a : AudioRing} (h : a.Valid) (l r : BitVec 16) :
    (dspOut l r a).held = push audioRing (l, r) a.held := by
  obtain ⟨hhead, hlen⟩ := h
  unfold AudioRing.held push
  rw [dspOut_slots ⟨hhead, hlen⟩, circular_length]
  have hhere : a.ringHead % audioRing = a.ringHead := Nat.mod_eq_of_lt hhead
  by_cases hroom : a.ringLen < audioRing
  · have hlast : (a.ringHead + audioRing - a.ringLen + a.ringLen) % audioRing = a.ringHead := by
      rw [Nat.sub_add_cancel (by omega), Nat.add_mod_right, hhere]
    have hpush := circular_push (a.ringHead + audioRing - a.ringLen) a.slots (l, r) hroom
    rw [hlast] at hpush
    have hnewLen : (dspOut l r a).ringLen = a.ringLen + 1 := if_pos hroom
    have hnewHead : (dspOut l r a).ringHead = (a.ringHead + 1) % audioRing := rfl
    rw [if_pos hroom, hnewLen, ← hpush, hnewHead]
    refine circular_congr _ _ ?_
    simp only [audioRing] at hhead hroom ⊢
    omega
  · have hfull : a.ringLen = audioRing := by omega
    have hpush := circular_push_full (n := audioRing) a.ringHead a.slots (l, r) (by decide)
    have hnewLen : (dspOut l r a).ringLen = audioRing := (if_neg hroom).trans hfull
    have hnewHead : (dspOut l r a).ringHead = (a.ringHead + 1) % audioRing := rfl
    rw [hhere] at hpush
    rw [if_neg hroom, hnewLen, hnewHead, Nat.add_sub_cancel, circular_start, hpush, hfull,
      Nat.add_sub_cancel]

theorem takeLoop_eq (a : AudioRing) (n at' : Nat) (h : at' < audioRing) :
    takeLoop a.ring n at' = circular audioRing a.slots at' n := by
  induction n generalizing at' with
  | zero => rfl
  | succ n ih =>
    have hnext : (at' + 1) % audioRing < audioRing := Nat.mod_lt _ (by decide)
    have hhere : at' % audioRing = at' := Nat.mod_eq_of_lt h
    rw [takeLoop, ih _ hnext, circular_start, circular_cons, hhere]
    rfl

theorem take_held {a : AudioRing} (h : a.Valid) (max : Nat) :
    (schedAudioTake max a).1 = a.held.take max ∧ (schedAudioTake max a).2.held = a.held.drop max := by
  obtain ⟨hhead, hlen⟩ := h
  refine ⟨?_, ?_⟩
  · unfold AudioRing.held
    rw [circular_take, ← circular_start, Nat.min_comm]
    exact takeLoop_eq a _ _ (Nat.mod_lt _ (by decide))
  · have hnewLen : (schedAudioTake max a).2.ringLen = a.ringLen - min a.ringLen max := rfl
    have hnewHead : (schedAudioTake max a).2.ringHead = a.ringHead := rfl
    have hslots : (schedAudioTake max a).2.slots = a.slots := rfl
    unfold AudioRing.held
    rw [circular_drop, hnewLen, hnewHead, hslots]
    by_cases hall : a.ringLen ≤ max
    · have hnone : a.ringLen - max = 0 := by omega
      have hnone' : a.ringLen - min a.ringLen max = 0 := by omega
      rw [hnone, hnone']
      rfl
    · have hsome : min a.ringLen max = max := by omega
      have hstart : a.ringHead + audioRing - (a.ringLen - max) =
          a.ringHead + audioRing - a.ringLen + max := by omega
      rw [hsome, hstart]

theorem take_valid {a : AudioRing} (h : a.Valid) (max : Nat) : (schedAudioTake max a).2.Valid :=
  ⟨h.ringHead, Nat.le_trans (Nat.sub_le _ _) h.ringLen⟩

/-- The ring and the queue after the same doings. -/
structure Heard.Queued (h : Heard) (q : Run Sample) : Prop where
  valid : h.ring.Valid
  held : h.ring.held = q.held
  made : h.made = q.made
  takes : h.takes = q.takes

theorem AudioOp.run_queued {h : Heard} {q : Run Sample} (hq : h.Queued q) (op : AudioOp) :
    (op.run h).Queued (op.queued.step audioRing q) := by
  obtain ⟨hvalid, hheld, hmade, htakes⟩ := hq
  cases op with
  | sample l r =>
    refine ⟨dspOut_valid hvalid l r, (dspOut_held hvalid l r).trans ?_, ?_, htakes⟩
    · rw [hheld]
      rfl
    · exact congrArg (· ++ [(l, r)]) hmade
  | take max =>
    obtain ⟨hgot, hrest⟩ := take_held hvalid max
    refine ⟨take_valid hvalid max, hrest.trans ?_, hmade, ?_⟩
    · rw [hheld]
      rfl
    · change h.takes ++ [(schedAudioTake max h.ring).1] = q.takes ++ [q.held.take max]
      rw [hgot, hheld, htakes]

theorem audioRun_queued (a : AudioRing) (ops : List AudioOp) :
    (audioRun a ops).Queued (DropQueue.run audioRing (ops.map AudioOp.queued)) := by
  have hstart : Heard.Queued ⟨a.reset, [], []⟩ ⟨[], [], []⟩ :=
    ⟨⟨Nat.zero_lt_succ _, Nat.zero_le _⟩, rfl, rfl, rfl⟩
  have hrun : ∀ (h : Heard) (q : Run Sample), h.Queued q →
      (ops.foldl AudioOp.run h).Queued ((ops.map AudioOp.queued).foldl (Op.step audioRing) q) := by
    induction ops with
    | nil => exact fun _ _ hq => hq
    | cons op ops ih => exact fun h q hq => ih _ _ (AudioOp.run_queued hq op)
  exact hrun _ _ hstart

/-- Whatever is produced and taken in whatever order: the ring is the queue that drops its
oldest sample when full. The samples taken were produced at rising places, the samples held
are the newest, one lost has 8192 newer ones, and a take gives as many as it may of those
held. -/
theorem audio_queue (a : AudioRing) (ops : List AudioOp) :
    let h := audioRun a ops
    let q := DropQueue.run audioRing (ops.map AudioOp.queued)
    h.ring.held = q.held ∧ h.takes = q.takes ∧
      (∀ max, (schedAudioTake max h.ring).1 = h.ring.held.take max ∧
        (schedAudioTake max h.ring).1.length = min max h.ring.held.length) ∧
      ∃ at' : List Nat, at'.Pairwise (· < ·) ∧
        h.takes.flatten.map some = at'.map (fun i => h.made[i]?) ∧
        h.ring.held = h.made.drop (h.made.length - h.ring.held.length) ∧
        h.ring.held.length ≤ audioRing ∧
        (∀ i ∈ at', i < h.made.length - h.ring.held.length) ∧
        ∀ i, i < h.made.length - h.ring.held.length → i ∈ at' ∨ i + audioRing < h.made.length := by
  obtain ⟨hvalid, hheld, hmade, htakes⟩ := audioRun_queued a ops
  obtain ⟨at', horder⟩ := run_inOrder audioRing (ops.map AudioOp.queued)
  refine ⟨hheld, htakes, fun max => ?_, at', horder.sorted, ?_, ?_, ?_, ?_, ?_⟩
  · obtain ⟨hgot, -⟩ := take_held hvalid max
    exact ⟨hgot, by rw [hgot, List.length_take]⟩
  · rw [htakes, hmade]
    exact horder.taken
  · rw [hheld, hmade]
    exact horder.held
  · rw [hheld]
    exact horder.room
  · rw [hheld, hmade]
    exact horder.before
  · rw [hheld, hmade]
    exact horder.lost

end CtRecomp
