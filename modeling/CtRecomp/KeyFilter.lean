import Mathlib.Data.List.Basic
import Mathlib.Tactic.Common

namespace CtRecomp

/-! `key_filter` (input.c): the keys held, beside a controller whose buttons send keys of their
own. -/

/-- `KEY_FILTER_FRAMES` -/
def keyFilterFrames : Int := 2

/-- For `n` scancodes (`SDL_NUM_SCANCODES`). -/
structure KeyFilter (n : Nat) where
  held : Fin n → Bool
  /-- Pressed, filtered until released. -/
  ignored : Fin n → Bool
  pressedAt : Fin n → Int
  /-- Frame of the last controller press. -/
  lastButton : Int
  /-- A game controller is active. -/
  controller : Bool

section

variable {n : Nat}

def keyFilterInit : KeyFilter n := ⟨fun _ => false, fun _ => false, fun _ => 0, -1000, false⟩

def KeyFilter.nearButton (kf : KeyFilter n) (frame : Int) : Bool :=
  let d := frame - kf.lastButton
  kf.controller && decide (-keyFilterFrames ≤ d) && decide (d ≤ keyFilterFrames)

def KeyFilter.setHeld (kf : KeyFilter n) (k : Fin n) (on : Bool) : KeyFilter n :=
  { kf with held := Function.update kf.held k on }

def KeyFilter.setIgnored (kf : KeyFilter n) (k : Fin n) (on : Bool) : KeyFilter n :=
  { kf with ignored := Function.update kf.ignored k on }

def keyFilterKey (kf : KeyFilter n) (sc : BitVec 32) (down : Bool) (frame : Int) : KeyFilter n :=
  if h : sc.toNat < n then
    let k : Fin n := ⟨sc.toNat, h⟩
    if !down then (kf.setHeld k false).setIgnored k false
    else
      let kf := { kf with pressedAt := Function.update kf.pressedAt k frame }
      if kf.nearButton frame then (kf.setIgnored k true).setHeld k false
      else if !kf.ignored k then kf.setHeld k true
      else kf
  else kf

/-- A held key that came just before the button. -/
def KeyFilter.duplicate (kf : KeyFilter n) (frame : Int) (k : Fin n) : Bool :=
  kf.held k && decide (frame - kf.pressedAt k ≤ keyFilterFrames)

def keyFilterButton (kf : KeyFilter n) (frame : Int) : KeyFilter n :=
  let kf := { kf with lastButton := frame }
  if !kf.controller then kf
  else
    { kf with
      held := fun k => if kf.duplicate frame k then false else kf.held k
      ignored := fun k => if kf.duplicate frame k then true else kf.ignored k }

/-- What `poll_input` passes on, each with its frame. -/
inductive KeyEvent
  /-- Whether there is a controller, at the start of a poll. -/
  | controller (on : Bool)
  | key (sc : BitVec 32) (down : Bool)
  | button

def KeyEvent.run (kf : KeyFilter n) (frame : Int) : KeyEvent → KeyFilter n
  | .controller on => { kf with controller := on }
  | .key sc down => keyFilterKey kf sc down frame
  | .button => keyFilterButton kf frame

/-- The events so far, the newest first. -/
abbrev KeyHistory := List (Int × KeyEvent)

def keyFilterRun (es : KeyHistory) : KeyFilter n :=
  es.foldr (fun e kf => e.2.run kf e.1) keyFilterInit

/-! What the filter goes by. -/

def KeyEvent.releases (k : Fin n) : KeyEvent → Bool
  | .key sc down => sc.toNat = k && !down
  | _ => false

def KeyEvent.presses (k : Fin n) : KeyEvent → Bool
  | .key sc down => sc.toNat = k && down
  | _ => false

def KeyEvent.isButton : KeyEvent → Bool
  | .button => true
  | _ => false

namespace KeyHistory

/-- The frames of a key's presses since it was last released. -/
def presses (k : Fin n) (es : KeyHistory) : List Int :=
  ((es.takeWhile fun e => !e.2.releases k).filter fun e => e.2.presses k).map Prod.fst

/-- The frames of the controller's presses. -/
def buttons (es : KeyHistory) : List Int := (es.filter fun e => e.2.isButton).map Prod.fst

def controllerOn : KeyHistory → Bool
  | [] => false
  | (_, .controller on) :: _ => on
  | _ :: es => controllerOn es

/-- Since a key was last released, a press of it came within two frames of a controller's, in
either order, with the controller active when the later of them came. -/
inductive Clash (k : Fin n) : KeyHistory → Prop
  | press {e : Int × KeyEvent} {es : KeyHistory} {g : Int} (he : e.2.presses k = true)
    (hg : g ∈ es.buttons) (hnear : e.1 - g ≤ keyFilterFrames) (hon : es.controllerOn = true) :
    Clash k (e :: es)
  | button {e : Int × KeyEvent} {es : KeyHistory} {f : Int} (he : e.2.isButton = true)
    (hf : f ∈ es.presses k) (hnear : e.1 - f ≤ keyFilterFrames) (hon : es.controllerOn = true) :
    Clash k (e :: es)
  | older {e : Int × KeyEvent} {es : KeyHistory} (h : Clash k es) (he : e.2.releases k = false) :
    Clash k (e :: es)

/-- In order, from frame 0 on. -/
structure InOrder (es : KeyHistory) : Prop where
  sorted : es.Pairwise fun e e' => e'.1 ≤ e.1
  start : ∀ e ∈ es, 0 ≤ e.1

variable {k : Fin n} {e : Int × KeyEvent} {es : KeyHistory} {kf : KeyFilter n}

theorem presses_cons : presses k (e :: es) =
    if e.2.releases k then [] else if e.2.presses k then e.1 :: es.presses k else es.presses k := by
  unfold presses
  rw [List.takeWhile_cons]
  by_cases hr : e.2.releases k = true
  · simp [hr]
  · by_cases hp : e.2.presses k = true
    · simp [hr, hp]
    · simp [hr, hp]

theorem clash_cons : Clash k (e :: es) ↔
    (e.2.presses k = true ∧ es.controllerOn = true ∧ ∃ g ∈ es.buttons, e.1 - g ≤ keyFilterFrames) ∨
    (e.2.isButton = true ∧ es.controllerOn = true ∧
      ∃ f ∈ es.presses k, e.1 - f ≤ keyFilterFrames) ∨
    (es.Clash k ∧ e.2.releases k = false) := by
  constructor
  · intro h
    cases h with
    | press he hg hnear hon => exact .inl ⟨he, hon, _, hg, hnear⟩
    | button he hf hnear hon => exact .inr (.inl ⟨he, hon, _, hf, hnear⟩)
    | older h he => exact .inr (.inr ⟨h, he⟩)
  · rintro (⟨he, hon, g, hg, hnear⟩ | ⟨he, hon, f, hf, hnear⟩ | ⟨h, he⟩)
    · exact .press he hg hnear hon
    · exact .button he hf hnear hon
    · exact .older h he

theorem InOrder.tail (h : InOrder (e :: es)) : es.InOrder :=
  ⟨(List.pairwise_cons.mp h.sorted).2, fun e' he => h.start e' (List.mem_cons_of_mem e he)⟩

theorem buttons_before (h : InOrder (e :: es)) : ∀ g ∈ es.buttons, g ≤ e.1 := by
  intro g hg
  obtain ⟨e', he', rfl⟩ := List.mem_map.mp hg
  exact (List.pairwise_cons.mp h.sorted).1 e' (List.mem_of_mem_filter he')

theorem buttons_sorted (h : es.InOrder) : es.buttons.Pairwise fun g g' => g' ≤ g :=
  List.pairwise_map.mpr (h.sorted.sublist List.filter_sublist)

theorem presses_sorted (h : es.InOrder) : (es.presses k).Pairwise fun f f' => f' ≤ f :=
  List.pairwise_map.mpr
    (h.sorted.sublist (List.filter_sublist.trans (List.takeWhile_sublist _)))

/-- Neither a press nor a release of the key, nor a button. -/
theorem clash_other (hp : e.2.presses k = false) (hr : e.2.releases k = false)
    (hb : e.2.isButton = false) : Clash k (e :: es) ↔ es.Clash k := by
  rw [clash_cons, hp, hr, hb]
  simp

theorem presses_other (hp : e.2.presses k = false) (hr : e.2.releases k = false) :
    presses k (e :: es) = es.presses k := by
  rw [presses_cons, hp, hr]
  rfl

end KeyHistory

open KeyHistory

variable {k : Fin n} {e : Int × KeyEvent} {es : KeyHistory} {kf : KeyFilter n}

/-- The filter after the events of a history. -/
structure KeyFilter.Follows (kf : KeyFilter n) (es : KeyHistory) : Prop where
  lastButton : kf.lastButton = es.buttons.headD (-1000)
  controller : kf.controller = es.controllerOn
  pressedAt : ∀ k f, (es.presses k).head? = some f → kf.pressedAt k = f
  ignored : ∀ k, kf.ignored k = true ↔ es.Clash k
  held : ∀ k, kf.held k = true ↔ es.presses k ≠ [] ∧ ¬es.Clash k

theorem keyFilterInit_follows : (keyFilterInit : KeyFilter n).Follows [] where
  lastButton := rfl
  controller := rfl
  pressedAt _ _ h := by cases h
  ignored _ := iff_of_false Bool.false_ne_true (fun h => by cases h)
  held _ := iff_of_false Bool.false_ne_true fun h => h.1 rfl

theorem nearButton_eq (kf : KeyFilter n) (frame : Int) : kf.nearButton frame = true ↔
    kf.controller = true ∧ -2 ≤ frame - kf.lastButton ∧ frame - kf.lastButton ≤ 2 := by
  change (kf.controller && decide (-2 ≤ frame - kf.lastButton) &&
    decide (frame - kf.lastButton ≤ 2)) = true ↔ _
  simp [and_assoc]

/-- The last button is the nearest. -/
theorem nearButton_iff (h : kf.Follows es) (ho : InOrder (e :: es)) :
    kf.nearButton e.1 = true ↔
      es.controllerOn = true ∧ ∃ g ∈ es.buttons, e.1 - g ≤ keyFilterFrames := by
  have hstart : 0 ≤ e.1 := ho.start e List.mem_cons_self
  have hbefore := buttons_before ho
  have hsorted := buttons_sorted ho.tail
  rw [nearButton_eq, h.lastButton, h.controller]
  unfold keyFilterFrames
  cases hb : es.buttons with
  | nil =>
    rw [List.headD_nil]
    constructor
    · rintro ⟨-, -, hnear⟩
      omega
    · rintro ⟨-, g, hg, -⟩
      cases hg
  | cons g gs =>
    rw [hb] at hbefore hsorted
    have hg := hbefore g List.mem_cons_self
    rw [List.headD_cons]
    constructor
    · rintro ⟨hon, -, hnear⟩
      exact ⟨hon, g, List.mem_cons_self, hnear⟩
    · rintro ⟨hon, g', hg', hnear⟩
      have hle : g' ≤ g := by
        rcases List.mem_cons.mp hg' with rfl | hg'
        · exact Int.le_refl _
        · exact (List.pairwise_cons.mp hsorted).1 g' hg'
      exact ⟨hon, by omega, by omega⟩

/-- The last press is the nearest. -/
theorem duplicate_iff (h : kf.Follows es) (ho : InOrder (e :: es)) (k : Fin n) :
    kf.duplicate e.1 k = true ↔
      ¬es.Clash k ∧ ∃ f ∈ es.presses k, e.1 - f ≤ keyFilterFrames := by
  have hsorted := presses_sorted (k := k) ho.tail
  have hlast := h.pressedAt k
  unfold KeyFilter.duplicate
  rw [Bool.and_eq_true, h.held k, decide_eq_true_eq]
  cases hp : es.presses k with
  | nil => simp
  | cons f fs =>
    rw [hp] at hsorted hlast
    rw [hlast f rfl]
    constructor
    · rintro ⟨⟨-, hclash⟩, hnear⟩
      exact ⟨hclash, f, List.mem_cons_self, hnear⟩
    · rintro ⟨hclash, f', hf', hnear⟩
      have hle : f' ≤ f := by
        rcases List.mem_cons.mp hf' with rfl | hf'
        · exact Int.le_refl _
        · exact (List.pairwise_cons.mp hsorted).1 f' hf'
      exact ⟨⟨List.cons_ne_nil f fs, hclash⟩, by omega⟩

theorem follows_controller (h : kf.Follows es) (f : Int) (on : Bool) :
    ({ kf with controller := on } : KeyFilter n).Follows ((f, .controller on) :: es) where
  lastButton := h.lastButton
  controller := rfl
  pressedAt k f' hf := h.pressedAt k f' (by rwa [presses_other rfl rfl] at hf)
  ignored k := (h.ignored k).trans (clash_other rfl rfl rfl).symm
  held k := by
    rw [presses_other rfl rfl, clash_other rfl rfl rfl]
    exact h.held k

theorem follows_button {f : Int} (h : kf.Follows es) (ho : InOrder ((f, .button) :: es)) :
    (keyFilterButton kf f).Follows ((f, .button) :: es) := by
  have hclash (k : Fin n) : Clash k ((f, .button) :: es) ↔
      es.controllerOn = true ∧ (∃ f' ∈ es.presses k, f - f' ≤ keyFilterFrames) ∨ es.Clash k := by
    rw [clash_cons]
    simp [KeyEvent.presses, KeyEvent.isButton, KeyEvent.releases]
  have hpresses (k : Fin n) : KeyHistory.presses k ((f, .button) :: es) =
      es.presses k := presses_other rfl rfl
  unfold keyFilterButton
  dsimp only
  split
  next hoff =>
    have hoff' : es.controllerOn = false := by
      rw [← h.controller]
      simpa using hoff
    refine ⟨rfl, h.controller, fun k f' hf => ?_, fun k => ?_, fun k => ?_⟩
    · rw [hpresses] at hf
      exact h.pressedAt k f' hf
    · rw [hclash, hoff']
      simpa using h.ignored k
    · rw [hpresses, hclash, hoff']
      simpa using h.held k
  next hon =>
    have hon' : es.controllerOn = true := by
      rw [← h.controller]
      simpa using hon
    have hdup := duplicate_iff (e := (f, .button)) h ho
    have hnew (k : Fin n) : Clash k ((f, .button) :: es) ↔
        kf.duplicate f k = true ∨ es.Clash k := by
      rw [hclash, hdup, hon']
      by_cases hc : es.Clash k
      · exact iff_of_true (.inr hc) (.inr hc)
      · simp only [hc, true_and, not_false_iff, or_false]
    refine ⟨rfl, h.controller, fun k f' hf => ?_, fun k => ?_, fun k => ?_⟩
    · rw [hpresses] at hf
      exact h.pressedAt k f' hf
    · rw [hnew]
      change (if kf.duplicate f k then true else kf.ignored k) = true ↔ _
      split
      next hd => exact iff_of_true rfl (.inl hd)
      next hd =>
        rw [h.ignored k]
        exact (or_iff_right hd).symm
    · rw [hpresses, hnew]
      change (if kf.duplicate f k then false else kf.held k) = true ↔ _
      split
      next hd => exact iff_of_false Bool.false_ne_true fun hheld => hheld.2 (.inl hd)
      next hd => rw [h.held k, or_iff_right hd]

theorem KeyEvent.key_other {sc : BitVec 32} (down : Bool) (hk : sc.toNat ≠ k) :
    (KeyEvent.key sc down).presses k = false ∧ (KeyEvent.key sc down).releases k = false := by
  simp [KeyEvent.presses, KeyEvent.releases, hk]

/-- A key event changes what is kept of its own key. -/
theorem KeyFilter.Follows.of_key {kf' : KeyFilter n} {sc : BitVec 32} {down : Bool} {f : Int}
    (h : kf.Follows es) (hk : sc.toNat = k) (hlast : kf'.lastButton = kf.lastButton)
    (hon : kf'.controller = kf.controller)
    (hothers : ∀ j ≠ k, kf'.pressedAt j = kf.pressedAt j ∧ kf'.ignored j = kf.ignored j ∧
      kf'.held j = kf.held j)
    (hpressed : ∀ f', (KeyHistory.presses k ((f, .key sc down) :: es)).head? = some f' →
      kf'.pressedAt k = f')
    (hignored : kf'.ignored k = true ↔ Clash k ((f, .key sc down) :: es))
    (hheld : kf'.held k = true ↔ KeyHistory.presses k ((f, .key sc down) :: es) ≠ [] ∧
      ¬Clash k ((f, .key sc down) :: es)) : kf'.Follows ((f, .key sc down) :: es) := by
  have hother (j : Fin n) (hj : j ≠ k) : sc.toNat ≠ j := fun hsc => hj (Fin.ext (hsc.symm.trans hk))
  refine ⟨hlast.trans h.lastButton, hon.trans h.controller, fun j f' hf => ?_, fun j => ?_,
    fun j => ?_⟩
  · by_cases hj : j = k
    · subst hj
      exact hpressed f' hf
    · obtain ⟨hp, hr⟩ := KeyEvent.key_other down (hother j hj)
      rw [presses_other hp hr] at hf
      exact (hothers j hj).1.trans (h.pressedAt j f' hf)
  · by_cases hj : j = k
    · subst hj
      exact hignored
    · obtain ⟨hp, hr⟩ := KeyEvent.key_other down (hother j hj)
      rw [(hothers j hj).2.1, clash_other hp hr rfl]
      exact h.ignored j
  · by_cases hj : j = k
    · subst hj
      exact hheld
    · obtain ⟨hp, hr⟩ := KeyEvent.key_other down (hother j hj)
      rw [(hothers j hj).2.2, presses_other hp hr, clash_other hp hr rfl]
      exact h.held j

theorem follows_release {sc : BitVec 32} {f : Int} (h : kf.Follows es) (hk : sc.toNat = k) :
    ((kf.setHeld k false).setIgnored k false).Follows ((f, .key sc false) :: es) := by
  have hr : (KeyEvent.key sc false).releases k = true := by simp [KeyEvent.releases, hk]
  have hp : (KeyEvent.key sc false).presses k = false := by simp [KeyEvent.presses]
  have hclash : ¬Clash k ((f, .key sc false) :: es) := by
    rw [clash_cons, hp, hr]
    simp [KeyEvent.isButton]
  have hpresses : KeyHistory.presses k ((f, .key sc false) :: es) = [] := by
    rw [presses_cons, hr]
    rfl
  refine h.of_key hk rfl rfl (fun j hj => ⟨rfl, Function.update_of_ne hj _ _,
    Function.update_of_ne hj _ _⟩) (fun f' hf => ?_) ?_ ?_
  · rw [hpresses] at hf
    cases hf
  · exact iff_of_false (by simp [KeyFilter.setIgnored]) hclash
  · exact iff_of_false (by simp [KeyFilter.setIgnored, KeyFilter.setHeld])
      fun hheld => hheld.1 hpresses

/-- `pressed_at` is set first. -/
def KeyFilter.pressed (kf : KeyFilter n) (k : Fin n) (frame : Int) : KeyFilter n :=
  { kf with pressedAt := Function.update kf.pressedAt k frame }

theorem follows_press {sc : BitVec 32} {f : Int} (h : kf.Follows es)
    (ho : InOrder ((f, .key sc true) :: es)) (hk : sc.toNat = k) :
    (let kf := kf.pressed k f
      if kf.nearButton f then (kf.setIgnored k true).setHeld k false
      else if !kf.ignored k then kf.setHeld k true
      else kf).Follows ((f, .key sc true) :: es) := by
  have hr : (KeyEvent.key sc true).releases k = false := by simp [KeyEvent.releases]
  have hp : (KeyEvent.key sc true).presses k = true := by simp [KeyEvent.presses, hk]
  have hnear := nearButton_iff (e := (f, .key sc true)) h ho
  have hclash : Clash k ((f, .key sc true) :: es) ↔ kf.nearButton f = true ∨ es.Clash k := by
    rw [clash_cons, hp, hr, hnear]
    simp [KeyEvent.isButton]
  have hpresses : KeyHistory.presses k ((f, .key sc true) :: es) = f :: es.presses k := by
    rw [presses_cons, hr, hp]
    rfl
  have hpressed : ∀ f', (KeyHistory.presses k ((f, .key sc true) :: es)).head? = some f' →
      Function.update kf.pressedAt k f k = f' := by
    intro f' hf
    rw [hpresses] at hf
    rw [Function.update_self]
    exact Option.some.inj hf
  have hother (j : Fin n) (hj : j ≠ k) : Function.update kf.pressedAt k f j = kf.pressedAt j :=
    Function.update_of_ne hj _ _
  have hsame : (kf.pressed k f).nearButton f = kf.nearButton f := rfl
  dsimp only
  rw [hsame]
  split
  next hn =>
    have hc : Clash k ((f, .key sc true) :: es) := hclash.mpr (.inl hn)
    refine h.of_key hk rfl rfl (fun j hj => ⟨hother j hj, Function.update_of_ne hj _ _,
      Function.update_of_ne hj _ _⟩) hpressed ?_ ?_
    · exact iff_of_true (by simp [KeyFilter.setHeld, KeyFilter.setIgnored]) hc
    · exact iff_of_false (by simp [KeyFilter.setHeld]) fun hheld => hheld.2 hc
  next hn =>
    have hold : Clash k ((f, .key sc true) :: es) ↔ es.Clash k := by
      rw [hclash]
      simp [hn]
    split
    next hi =>
      have hc : ¬es.Clash k := fun hc => by simp [KeyFilter.pressed, (h.ignored k).mpr hc] at hi
      refine h.of_key hk rfl rfl (fun j hj => ⟨hother j hj, rfl, Function.update_of_ne hj _ _⟩)
        hpressed ((h.ignored k).trans hold.symm) ?_
      rw [hold, hpresses]
      exact iff_of_true (by simp [KeyFilter.setHeld]) ⟨List.cons_ne_nil _ _, hc⟩
    next hi =>
      have hc : es.Clash k := (h.ignored k).mp (by simpa [KeyFilter.pressed] using hi)
      refine h.of_key hk rfl rfl (fun j hj => ⟨hother j hj, rfl, rfl⟩) hpressed
        ((h.ignored k).trans hold.symm) ?_
      have hoff : kf.held k ≠ true := fun hheld => ((h.held k).mp hheld).2 hc
      exact iff_of_false hoff fun hheld => hheld.2 (hold.mpr hc)

/-- Each event does to the filter what it does to the history. -/
theorem run_follows (h : kf.Follows es) (ho : InOrder (e :: es)) :
    (e.2.run kf e.1).Follows (e :: es) := by
  obtain ⟨f, ev⟩ := e
  cases ev with
  | controller on => exact follows_controller h f on
  | button => exact follows_button h ho
  | key sc down =>
    change (keyFilterKey kf sc down f).Follows _
    unfold keyFilterKey
    split
    next hsc =>
      cases down with
      | false => exact follows_release (k := ⟨sc.toNat, hsc⟩) h rfl
      | true => exact follows_press (k := ⟨sc.toNat, hsc⟩) h ho rfl
    next hsc =>
      have hother (k : Fin n) : sc.toNat ≠ k := fun hk => hsc (hk ▸ k.isLt)
      refine ⟨h.lastButton, h.controller, fun k f' hf => ?_, fun k => ?_, fun k => ?_⟩
      · obtain ⟨hp, hr⟩ := KeyEvent.key_other down (hother k)
        rw [presses_other hp hr] at hf
        exact h.pressedAt k f' hf
      · obtain ⟨hp, hr⟩ := KeyEvent.key_other down (hother k)
        rw [clash_other hp hr rfl]
        exact h.ignored k
      · obtain ⟨hp, hr⟩ := KeyEvent.key_other down (hother k)
        rw [presses_other hp hr, clash_other hp hr rfl]
        exact h.held k

theorem keyFilterRun_follows (ho : es.InOrder) : (keyFilterRun es : KeyFilter n).Follows es := by
  induction es with
  | nil => exact keyFilterInit_follows
  | cons e es ih => exact run_follows (ih ho.tail) ho

/-- After any events, a key is held when it has been pressed since its last release and none of
those presses came within two frames of the controller's. It is ignored when one did. -/
theorem key_filter_exact {es : KeyHistory} (ho : es.InOrder) (k : Fin n) :
    ((keyFilterRun es : KeyFilter n).held k = true ↔ es.presses k ≠ [] ∧ ¬es.Clash k) ∧
      ((keyFilterRun es : KeyFilter n).ignored k = true ↔ es.Clash k) :=
  ⟨(keyFilterRun_follows ho).held k, (keyFilterRun_follows ho).ignored k⟩

/-- Key 4 goes down on frame 10, and the controller's button on frame 12. -/
theorem key_filter_exact_late :
    (keyFilterRun [(12, .button), (10, .key 4 true), (9, .controller true)] : KeyFilter 8).held 4 =
      false ∧
    Clash (4 : Fin 8) [(12, .button), (10, .key 4 true), (9, .controller true)] := by
  have ho : InOrder [(12, .button), (10, .key 4 true), (9, .controller true)] :=
    ⟨by simp, by simp⟩
  have hheld : (keyFilterRun [(12, .button), (10, .key 4 true), (9, .controller true)] :
      KeyFilter 8).held 4 = false := by decide
  refine ⟨hheld, ?_⟩
  by_contra hclash
  have hon := (key_filter_exact ho (4 : Fin 8)).1.mpr ⟨by decide, hclash⟩
  rw [hheld] at hon
  cases hon

end

end CtRecomp
