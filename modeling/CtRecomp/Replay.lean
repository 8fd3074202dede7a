import CtRecomp.Scan
import Mathlib.Data.List.Basic

namespace CtRecomp

open Scan

/-! Input replay scripts and their recorder (replay.c). -/

/-- `names` -/
def replayNames : List (List Char × BitVec 16) :=
  [(['b'], 0x8000), (['y'], 0x4000), (['s', 'e', 'l', 'e', 'c', 't'], 0x2000),
    (['s', 't', 'a', 'r', 't'], 0x1000), (['u', 'p'], 0x0800), (['d', 'o', 'w', 'n'], 0x0400),
    (['l', 'e', 'f', 't'], 0x0200), (['r', 'i', 'g', 'h', 't'], 0x0100), (['a'], 0x0080),
    (['x'], 0x0040), (['l'], 0x0020), (['r'], 0x0010)]

structure ReplaySpan where
  start : Int
  stop : Int
  buttons : BitVec 16

/-- The arrays as lists: growing them does not fail. -/
structure Replay where
  spans : List ReplaySpan
  resets : List Int

/-- Names joined by '+', or none: a name is not in the table. -/
def buttonNames (s : List Char) : Option (BitVec 16) :=
  (tokens '+' s).foldlM (fun b t => do
    let name ← replayNames.find? fun name => t = name.1
    pure (b ||| name.2)) 0

def hexMask (s : List Char) : Option (BitVec 16) :=
  let (v, stop) := strtoulHex s
  if stop ≠ [] ∨ v > 0xFFFF then none else some (BitVec.ofNat 16 v)

/-- `%ld-%ld:%127s` -/
def scanSpan (spec : List Char) : Option (Int × Int × List Char) := do
  let (start, s) ← scanLong spec
  let s ← literal '-' s
  let (stop, s) ← scanLong s
  let s ← literal ':' s
  let buttons ← scanWord 127 s
  pure (start, stop, buttons)

/-- No value: -1, and the script is as before. -/
def replayAdd (r : Replay) (spec : List Char) : Option Replay := do
  let (start, stop, buttons) ← scanSpan spec
  if start < 1 ∨ stop < start then none
  else
    let b ← match buttons with
      | '0' :: 'x' :: s => hexMask s
      | s => buttonNames s
    pure { r with spans := r.spans ++ [⟨start, stop, b⟩] }

/-- ` reset %ld %c` stopping at the blank before the last. -/
def scanReset (line : List Char) : Option Int := do
  let s ← literals ['r', 'e', 's', 'e', 't'] (skipSpaces line)
  let (frame, s) ← scanLong s
  if skipSpaces s = [] ∧ frame ≥ 1 then some frame else none

/-- A line as a C string, up to a '#'. -/
def scriptPart (line : List Char) : List Char :=
  (line.takeWhile (· ≠ nul)).takeWhile (· ≠ '#')

/-- A line as `fgets` gives it. No value: a bad span. -/
def replayLine (r : Replay) (line : List Char) : Option Replay :=
  let line := scriptPart line
  match scanReset line with
  | some frame => some { r with resets := r.resets ++ [frame] }
  | none =>
    match scanWord 159 line with
    | none => some r
    | some tok => replayAdd r tok

/-- Whether a line is bad, and the script up to it. -/
def replayLines (r : Replay) : List (List Char) → Bool × Replay
  | [] => (false, r)
  | line :: rest =>
    match replayLine r line with
    | none => (true, r)
    | some r => replayLines r rest

/-- What `replay_load` returns, with the text of the file. -/
def replayLoad (r : Replay) (text : List Char) : Int × Replay :=
  let (bad, r) := replayLines r (lines 255 [] text)
  (if bad then -1 else 0, r)

def replayButtons (r : Replay) (frame : Int) : BitVec 16 :=
  r.spans.foldl (fun b s => if frame ≥ s.start ∧ frame ≤ s.stop then b ||| s.buttons else b) 0

/-- `text` is what the file has, unless it is closed. -/
structure ReplayRec where
  text : List Char
  opened : Bool
  start : Int
  last : Int
  buttons : BitVec 16

def replayRecOpen (source : List Char) : ReplayRec where
  text := "# Pad 1 input recorded by ".toList ++ source ++
    ", one span per run of held buttons.\n".toList ++
    "# Replay: ct_boot --script FILE --frames N (N on the last line).\n".toList
  opened := true
  start := 0
  last := 0
  buttons := 0

/-- The loop of `flush_span` over the names. -/
def printButtons (buttons : BitVec 16) : List Char → List (List Char × BitVec 16) → List Char
  | _, [] => []
  | sep, name :: names =>
    if buttons &&& name.2 ≠ 0 then sep ++ name.1 ++ printButtons buttons ['+'] names
    else printButtons buttons sep names

def flushSpan (w : ReplayRec) : ReplayRec :=
  if w.buttons = 0 then w
  else
    { w with
      text := w.text ++ (printLong w.start ++ ['-'] ++ printLong w.last ++ [':'] ++
        printButtons w.buttons [] replayNames ++ ['\n']) }

def replayRecFrame (w : ReplayRec) (frame : Int) (buttons : BitVec 16) : ReplayRec :=
  if !w.opened then w
  else
    let buttons := buttons &&& 0xFFF0
    let w :=
      if buttons ≠ w.buttons ∨ frame ≠ w.last + 1 then
        { flushSpan w with buttons, start := frame }
      else w
    { w with last := frame }

def replayRecClose (w : ReplayRec) : ReplayRec :=
  if !w.opened then w
  else
    let w := flushSpan w
    { w with text := w.text ++ ("# frames ".toList ++ printLong w.last ++ ['\n']), opened := false }

/-- Words for the frames from `frame` on. -/
def replayRecFrames : ReplayRec → Int → List (BitVec 16) → ReplayRec
  | w, _, [] => w
  | w, frame, word :: words => replayRecFrames (replayRecFrame w frame word) (frame + 1) words

/-! Names out and names in. -/

/-- The names of the buttons held. -/
def heldNames (buttons : BitVec 16) (names : List (List Char × BitVec 16)) : List (List Char) :=
  (names.filter fun name => buttons &&& name.2 ≠ 0).map Prod.fst

theorem intercalate_cons {α : Type} (sep l : List α) {rest : List (List α)} (h : rest ≠ []) :
    List.intercalate sep (l :: rest) = l ++ (sep ++ List.intercalate sep rest) := by
  cases rest with
  | nil => exact absurd rfl h
  | cons m rest => simp [List.intercalate]

theorem printButtons_eq (buttons : BitVec 16) (sep : List Char)
    (names : List (List Char × BitVec 16)) :
    printButtons buttons sep names =
      if heldNames buttons names = [] then []
      else sep ++ List.intercalate ['+'] (heldNames buttons names) := by
  induction names generalizing sep with
  | nil => rfl
  | cons name names ih =>
    unfold printButtons
    by_cases hheld : buttons &&& name.2 ≠ 0
    · have hcons : heldNames buttons (name :: names) = name.1 :: heldNames buttons names := by
        rw [heldNames, List.filter_cons_of_pos (by simpa using hheld)]
        rfl
      rw [if_pos hheld, ih, hcons, if_neg (List.cons_ne_nil _ _), List.append_assoc]
      by_cases hrest : heldNames buttons names = []
      · rw [if_pos hrest, hrest, List.append_nil]
        simp [List.intercalate]
      · rw [if_neg hrest, intercalate_cons _ _ hrest]
    · have hskip : heldNames buttons (name :: names) = heldNames buttons names := by
        rw [heldNames, List.filter_cons_of_neg (by simpa using hheld)]
        rfl
      rw [if_neg hheld, ih, hskip]

theorem printButtons_chars {buttons : BitVec 16} {sep : List Char}
    {names : List (List Char × BitVec 16)} {c : Char} (h : c ∈ printButtons buttons sep names) :
    c ∈ sep ∨ c = '+' ∨ ∃ name ∈ names, c ∈ name.1 := by
  induction names generalizing sep with
  | nil => cases h
  | cons name names ih =>
    unfold printButtons at h
    split at h
    next =>
      rcases List.mem_append.mp h with h | h
      · rcases List.mem_append.mp h with h | h
        · exact Or.inl h
        · exact Or.inr (Or.inr ⟨name, List.mem_cons_self, h⟩)
      · rcases ih h with h | h | ⟨name', hname, h⟩
        · exact Or.inr (Or.inl (List.mem_singleton.mp h))
        · exact Or.inr (Or.inl h)
        · exact Or.inr (Or.inr ⟨name', List.mem_cons_of_mem _ hname, h⟩)
    next =>
      rcases ih h with h | h | ⟨name', hname, h⟩
      · exact Or.inl h
      · exact Or.inr (Or.inl h)
      · exact Or.inr (Or.inr ⟨name', List.mem_cons_of_mem _ hname, h⟩)

theorem printButtons_length (buttons : BitVec 16) {sep : List Char} (hsep : sep.length ≤ 1)
    (names : List (List Char × BitVec 16)) :
    (printButtons buttons sep names).length ≤ (names.map fun name => name.1.length + 1).sum := by
  induction names generalizing sep with
  | nil => exact Nat.le_refl _
  | cons name names ih =>
    rw [List.map_cons, List.sum_cons]
    unfold printButtons
    split
    next =>
      have : (printButtons buttons ['+'] names).length ≤ _ := ih (Nat.le_refl _)
      rw [List.length_append, List.length_append]
      omega
    next =>
      have := ih hsep
      omega

theorem replayNames_letters : ∀ name ∈ replayNames, ∀ c ∈ name.1, 'a' ≤ c ∧ c ≤ 'z' := by
  have hall : (replayNames.all fun name => name.1.all fun c => decide ('a' ≤ c ∧ c ≤ 'z')) = true := by
    decide
  intro name hname c hc
  exact of_decide_eq_true (List.all_eq_true.mp (List.all_eq_true.mp hall name hname) c hc)

theorem replayNames_find :
    ∀ name ∈ replayNames, replayNames.find? (fun other => name.1 = other.1) = some name := by
  decide

/-- Every name is of one bit. -/
theorem replayNames_bit : ∀ name ∈ replayNames, ∃ i : Fin 16, name.2 = BitVec.twoPow 16 i := by
  decide

theorem held_or {name : List Char × BitVec 16} (h : name ∈ replayNames) (b buttons : BitVec 16) :
    (if buttons &&& name.2 ≠ 0 then b ||| name.2 else b) = b ||| buttons &&& name.2 := by
  obtain ⟨i, hi⟩ := replayNames_bit name h
  rw [hi, BitVec.and_twoPow]
  by_cases hbit : buttons.getLsbD i
  · rw [if_pos hbit]
    have hne : BitVec.twoPow 16 i ≠ 0 := by
      have : ∀ i : Fin 16, BitVec.twoPow 16 i ≠ 0 := by decide
      exact this i
    rw [if_pos hne]
  · rw [if_neg hbit, if_neg (by simp)]
    simp

theorem foldl_or_and (buttons b : BitVec 16) (names : List (List Char × BitVec 16)) :
    names.foldl (fun b name => b ||| buttons &&& name.2) (buttons &&& b) =
      buttons &&& names.foldl (fun b name => b ||| name.2) b := by
  induction names generalizing b with
  | nil => rfl
  | cons name names ih =>
    rw [List.foldl_cons, List.foldl_cons, ← BitVec.and_or_distrib_left, ih]

theorem foldlM_held {names : List (List Char × BitVec 16)} (h : ∀ name ∈ names, name ∈ replayNames)
    (b : BitVec 16) :
    (names.map Prod.fst).foldlM (fun b t => do
      let name ← replayNames.find? fun name => t = name.1
      pure (b ||| name.2)) b = some (names.foldl (fun b name => b ||| name.2) b) := by
  induction names generalizing b with
  | nil => rfl
  | cons name names ih =>
    rw [List.map_cons, List.foldlM_cons, replayNames_find name (h name List.mem_cons_self)]
    exact ih (fun name hname => h name (List.mem_cons_of_mem _ hname)) _

/-- The names printed for the buttons of a pad name just these. -/
theorem buttonNames_print {buttons : BitVec 16} (hpad : buttons &&& 0xFFF0 = buttons)
    (hne : buttons ≠ 0) :
    buttonNames (printButtons buttons [] replayNames) = some buttons ∧
      printButtons buttons [] replayNames ≠ [] := by
  have hsub : ∀ name ∈ replayNames.filter (fun name => buttons &&& name.2 ≠ 0),
      name ∈ replayNames := fun name h => List.mem_of_mem_filter h
  have hall : (replayNames.filter fun name => buttons &&& name.2 ≠ 0).foldl
      (fun b name => b ||| name.2) 0 = buttons := by
    have hzero : (0 : BitVec 16) = buttons &&& 0 := by simp
    have hor : replayNames.foldl (fun b name => b ||| name.2) 0 = 0xFFF0 := by decide
    calc _ = replayNames.foldl (fun b name => b ||| buttons &&& name.2) 0 := by
          rw [List.foldl_filter]
          refine List.foldl_ext _ _ _ fun b name hname => ?_
          simpa using held_or hname b buttons
      _ = buttons &&& 0xFFF0 := by
          rw [hzero, foldl_or_and, hor]
      _ = buttons := hpad
  have hheld : heldNames buttons replayNames ≠ [] := fun h => by
    have hnil : (replayNames.filter fun name => buttons &&& name.2 ≠ 0) = [] :=
      List.map_eq_nil_iff.mp h
    rw [hnil] at hall
    exact hne hall.symm
  have hname : ∀ w ∈ heldNames buttons replayNames, ∃ name ∈ replayNames, name.1 = w := fun w hw => by
    obtain ⟨name, hmem, rfl⟩ := List.mem_map.mp hw
    exact ⟨name, hsub name hmem, rfl⟩
  have htokens : tokens '+' (printButtons buttons [] replayNames) =
      heldNames buttons replayNames := by
    rw [printButtons_eq, if_neg hheld, List.nil_append]
    refine tokens_intercalate hheld (fun w hw hplus => ?_) fun w hw => ?_
    · obtain ⟨name, hmem, rfl⟩ := hname w hw
      exact absurd (replayNames_letters name hmem _ hplus).1 (by decide)
    · obtain ⟨name, hmem, rfl⟩ := hname w hw
      have : ∀ name ∈ replayNames, name.1 ≠ [] := by decide
      exact this name hmem
  refine ⟨?_, fun hnil => ?_⟩
  · rw [buttonNames, htokens, heldNames, foldlM_held hsub, hall]
  · rw [hnil] at htokens
    exact hheld htokens.symm

/-! A line out and a line in. -/

/-- What the recorder writes of a span, up to the newline. -/
def spanText (s : ReplaySpan) : List Char :=
  printLong s.start ++ ['-'] ++ printLong s.stop ++ [':'] ++ printButtons s.buttons [] replayNames

/-- Frames of a `long`, and buttons held. -/
structure ReplaySpan.Good (s : ReplaySpan) : Prop where
  start : 1 ≤ s.start
  stop : s.start ≤ s.stop
  long : s.stop < 2 ^ 63
  pad : s.buttons &&& 0xFFF0 = s.buttons
  held : s.buttons ≠ 0

/-- Digits, letters and what stands between them. -/
def spanChar (c : Char) : Bool := c.isDigit || 'a' ≤ c && c ≤ 'z' || c = '-' || c = ':' || c = '+'

theorem spanChar_plain {c : Char} (h : spanChar c = true) :
    isSpace c = false ∧ c ≠ '#' ∧ c ≠ nul := by
  simp only [spanChar, Bool.or_eq_true, Bool.and_eq_true, decide_eq_true_eq] at h
  rcases h with (((h | h) | rfl) | rfl) | rfl
  · exact ⟨isSpace_of_isDigit h, fun hc => absurd h (by rw [hc]; decide),
      fun hc => absurd h (by rw [hc]; decide)⟩
  · have hlow : ('a' : Char).val ≤ c.val := h.1
    have hspace : c ≠ ' ' := fun hc => by
      rw [hc] at hlow
      exact absurd hlow (by decide)
    have hreturn : ¬ c ≤ '\r' := fun hc => by
      have hle : c.val ≤ '\r'.val := hc
      exact absurd (UInt32.le_trans hlow hle) (by decide)
    refine ⟨by simp [isSpace, hspace, hreturn], fun hc => ?_, fun hc => ?_⟩
    all_goals
      rw [hc] at hlow
      exact absurd hlow (by decide)
  all_goals exact ⟨by decide, by decide, by decide⟩

theorem printButtons_letters {buttons : BitVec 16} {c : Char}
    (h : c ∈ printButtons buttons [] replayNames) : c = '+' ∨ 'a' ≤ c ∧ c ≤ 'z' := by
  rcases printButtons_chars h with h | h | ⟨name, hname, hc⟩
  · cases h
  · exact Or.inl h
  · exact Or.inr (replayNames_letters name hname c hc)

theorem printButtons_plain {buttons : BitVec 16} {c : Char}
    (h : c ∈ printButtons buttons [] replayNames) : spanChar c = true := by
  rcases printButtons_letters h with rfl | ⟨hlow, hhigh⟩
  · decide
  · simp [spanChar, hlow, hhigh]

theorem printButtons_fits (buttons : BitVec 16) :
    (printButtons buttons [] replayNames).length ≤ 44 :=
  printButtons_length buttons (show ([] : List Char).length ≤ 1 from Nat.zero_le 1) replayNames

theorem scriptPart_plain {line : List Char} (h : ∀ c ∈ line, c ≠ '#' ∧ c ≠ nul) :
    scriptPart line = line := by
  have hall {p : Char → Bool} (hp : ∀ c ∈ line, p c = true) : line.takeWhile p = line := by
    obtain ⟨htake, -⟩ := takeWhile_stop [] hp (by simp)
    rwa [List.append_nil] at htake
  rw [scriptPart, hall fun c hc => decide_eq_true (h c hc).2]
  exact hall fun c hc => decide_eq_true (h c hc).1

namespace ReplaySpan.Good

variable {s : ReplaySpan}

/-- The frames as counts. -/
theorem frames (h : s.Good) :
    ∃ a b : Nat, s.start = a ∧ s.stop = b ∧ a < 2 ^ 63 ∧ b < 2 ^ 63 := by
  obtain ⟨a, ha⟩ := Int.eq_ofNat_of_zero_le (Int.le_trans (by decide) h.start)
  obtain ⟨b, hb⟩ := Int.eq_ofNat_of_zero_le
    (Int.le_trans (Int.le_trans (by decide) h.start) h.stop)
  have := h.stop
  have := h.long
  exact ⟨a, b, ha, hb, by omega, by omega⟩

theorem plain (h : s.Good) : ∀ c ∈ spanText s, spanChar c = true := by
  intro c hc
  obtain ⟨a, b, ha, hb, -, -⟩ := h.frames
  rw [spanText, ha, hb] at hc
  simp only [List.mem_append, List.mem_singleton] at hc
  rcases hc with (((hc | rfl) | hc) | rfl) | hc
  · simp [spanChar, printLong_digits hc]
  · decide
  · simp [spanChar, printLong_digits hc]
  · decide
  · exact printButtons_plain hc

theorem fits (h : s.Good) : (spanText s).length ≤ 84 := by
  obtain ⟨a, b, ha, hb, ha', hb'⟩ := h.frames
  have hstart := printLong_length ha'
  have hstop := printLong_length hb'
  have hnames := printButtons_fits s.buttons
  rw [spanText, ha, hb]
  simp only [List.length_append, List.length_singleton]
  omega

/-- A span's text starts with a digit. -/
theorem first (h : s.Good) : ∃ c rest, spanText s = c :: rest ∧ c.isDigit = true := by
  obtain ⟨a, b, ha, hb, ha', -⟩ := h.frames
  cases hp : printLong a with
  | nil =>
    have hscan : scanLong (printLong a ++ []) = some ((a : Int), []) :=
      scanLong_print ha' (by simp)
    rw [hp] at hscan
    exact absurd hscan (by simp [scanLong, skipSpaces, scanSign])
  | cons c rest =>
    rw [spanText, ha, hp]
    exact ⟨c, _, rfl, printLong_digits (n := a) (by rw [hp]; exact List.mem_cons_self)⟩

theorem scanSpan_text (h : s.Good) :
    scanSpan (spanText s) =
      some (s.start, s.stop, printButtons s.buttons [] replayNames) := by
  obtain ⟨a, b, ha, hb, ha', hb'⟩ := h.frames
  obtain ⟨-, hne⟩ := buttonNames_print h.pad h.held
  have hword : scanWord 127 (printButtons s.buttons [] replayNames) =
      some (printButtons s.buttons [] replayNames) := by
    have hspace : ∀ c ∈ printButtons s.buttons [] replayNames, isSpace c = false :=
      fun c hc => (spanChar_plain (printButtons_plain hc)).1
    obtain ⟨htake, -⟩ := takeWhile_stop [] (p := fun c => !isSpace c)
      (s := printButtons s.buttons [] replayNames) (fun c hc => by rw [hspace c hc]; rfl) (by simp)
    have hfits := printButtons_fits s.buttons
    have hskip : skipSpaces (printButtons s.buttons [] replayNames) =
        printButtons s.buttons [] replayNames := by
      cases hp : printButtons s.buttons [] replayNames with
      | nil => rfl
      | cons c rest =>
        exact skipSpaces_cons (hspace c (by rw [hp]; exact List.mem_cons_self))
    rw [List.append_nil] at htake
    rw [scanWord, hskip, htake, List.take_of_length_le (by omega), if_neg hne]
  have htext : spanText s = printLong a ++ ('-' :: (printLong b ++
      (':' :: printButtons s.buttons [] replayNames))) := by
    rw [spanText, ha, hb]
    simp only [List.append_assoc, List.cons_append, List.nil_append]
  rw [scanSpan, htext, scanLong_print ha' (by simp)]
  simp only [Option.bind_eq_bind, Option.bind_some, literal, if_true]
  rw [scanLong_print hb' (by simp)]
  simp only [Option.bind_some, if_true, hword, Option.pure_def, ha, hb]

theorem add (h : s.Good) (r : Replay) :
    replayAdd r (spanText s) = some { r with spans := r.spans ++ [s] } := by
  obtain ⟨hnames, -⟩ := buttonNames_print h.pad h.held
  have hrange : ¬ (s.start < 1 ∨ s.stop < s.start) := by
    have := h.start
    have := h.stop
    omega
  rw [replayAdd, h.scanSpan_text]
  simp only [Option.bind_eq_bind, Option.bind_some, if_neg hrange]
  split
  next t ht =>
    have hzero : '0' ∈ printButtons s.buttons [] replayNames := by
      rw [ht]
      exact List.mem_cons_self
    exact absurd (printButtons_letters hzero) (by decide)
  next =>
    rw [hnames]
    rfl

/-- The line of a span. -/
theorem line (h : s.Good) (r : Replay) :
    replayLine r (spanText s ++ ['\n']) = some { r with spans := r.spans ++ [s] } := by
  obtain ⟨c, rest, htext, hc⟩ := h.first
  have hplain := h.plain
  have hnohash : scriptPart (spanText s ++ ['\n']) = spanText s ++ ['\n'] := by
    refine scriptPart_plain fun c hc => ?_
    rcases List.mem_append.mp hc with hc | hc
    · exact (spanChar_plain (hplain c hc)).2
    · rw [List.mem_singleton.mp hc]
      decide
  have hskip : skipSpaces (spanText s ++ ['\n']) = spanText s ++ ['\n'] := by
    rw [htext]
    exact skipSpaces_cons (isSpace_of_isDigit hc)
  have hreset : scanReset (spanText s ++ ['\n']) = none := by
    have hr : c ≠ 'r' := fun heq => absurd hc (by rw [heq]; decide)
    rw [scanReset, hskip, htext]
    simp [literals, literal, hr]
  have hword : scanWord 159 (spanText s ++ ['\n']) = some (spanText s) := by
    obtain ⟨htake, -⟩ := takeWhile_stop ['\n'] (s := spanText s)
      (p := fun c => !isSpace c) (fun c hc => by rw [(spanChar_plain (hplain c hc)).1]; rfl)
      (fun c hc => by cases hc; rfl)
    have hfits := h.fits
    have hne : spanText s ≠ [] := by
      rw [htext]
      exact List.cons_ne_nil _ _
    rw [scanWord, hskip, htake, List.take_of_length_le (by omega), if_neg hne]
  rw [replayLine, hnohash, hreset, hword]
  exact h.add r

end ReplaySpan.Good

theorem replayLine_comment (r : Replay) (s : List Char) : replayLine r ('#' :: s) = some r := by
  have hpart : scriptPart ('#' :: s) = [] := by
    rw [scriptPart, List.takeWhile_cons_of_pos (by decide), List.takeWhile_cons_of_neg (by simp)]
  rw [replayLine, hpart]
  rfl

/-! A recording in. -/

/-- The spans' part of a file. -/
def spanLines (spans : List ReplaySpan) : List Char := (spans.map fun s => spanText s ++ ['\n']).flatten

theorem spanLines_snoc (spans : List ReplaySpan) (s : ReplaySpan) :
    spanLines (spans ++ [s]) = spanLines spans ++ (spanText s ++ ['\n']) := by
  simp [spanLines]

theorem replayLines_spans {spans : List ReplaySpan} (h : ∀ s ∈ spans, s.Good) (r : Replay)
    (rest : List Char) :
    replayLines r (lines 255 [] (spanLines spans ++ rest)) =
      replayLines { r with spans := r.spans ++ spans } (lines 255 [] rest) := by
  induction spans generalizing r with
  | nil =>
    rw [List.append_nil]
    rfl
  | cons s spans ih =>
    have hgood := h s List.mem_cons_self
    have hnewline : '\n' ∉ spanText s := fun hc =>
      absurd (spanChar_plain (hgood.plain _ hc)).1 (by decide)
    have hfits := hgood.fits
    have htext : spanLines (s :: spans) ++ rest =
        spanText s ++ '\n' :: (spanLines spans ++ rest) := by
      simp [spanLines]
    rw [htext, lines_cons hnewline (by simp; omega), List.nil_append, replayLines, hgood.line]
    dsimp only
    rw [ih fun s hs => h s (List.mem_cons_of_mem _ hs), List.append_assoc]
    rfl

theorem replayLines_comment {text : List Char} (hline : '\n' ∉ text) (hfits : text.length ≤ 253)
    (r : Replay) (rest : List Char) :
    replayLines r (lines 255 [] ('#' :: text ++ '\n' :: rest)) =
      replayLines r (lines 255 [] rest) := by
  have hline' : '\n' ∉ '#' :: text := by
    rw [List.mem_cons, not_or]
    exact ⟨by decide, hline⟩
  have hroom : ([] : List Char).length + ('#' :: text).length + 1 ≤ 255 := by
    rw [List.length_nil, List.length_cons]
    omega
  rw [lines_cons hline' hroom, List.nil_append, List.cons_append, replayLines,
    replayLine_comment]

theorem held_none (b : BitVec 16) : b ||| 0 = b := BitVec.or_zero

theorem none_held (b : BitVec 16) : 0 ||| b = b := BitVec.zero_or

theorem replayButtons_snoc (spans : List ReplaySpan) (resets : List Int) (s : ReplaySpan)
    (frame : Int) :
    replayButtons ⟨spans ++ [s], resets⟩ frame = replayButtons ⟨spans, resets⟩ frame |||
      (if frame ≥ s.start ∧ frame ≤ s.stop then s.buttons else 0) := by
  unfold replayButtons
  rw [List.foldl_append, List.foldl_cons, List.foldl_nil]
  split
  next => rfl
  next => exact (held_none _).symm

/-! The recorder. -/

/-- The words recorded are those of the spans written and of the one still held. -/
structure ReplayRec.Recorded (header : List Char) (word : Int → BitVec 16)
    (spans : List ReplaySpan) (w : ReplayRec) : Prop where
  text : w.text = header ++ spanLines spans
  opened : w.opened = true
  good : ∀ s ∈ spans, s.Good
  start : w.buttons ≠ 0 → 1 ≤ w.start
  order : w.start ≤ w.last
  last : 0 ≤ w.last ∧ w.last < 2 ^ 63
  pad : w.buttons &&& 0xFFF0 = w.buttons
  words : ∀ f, word f = replayButtons ⟨spans, []⟩ f |||
    (if w.start ≤ f ∧ f ≤ w.last then w.buttons else 0)
  later : ∀ f, w.last < f → word f = 0

namespace ReplayRec.Recorded

variable {header : List Char} {word : Int → BitVec 16} {spans : List ReplaySpan} {w : ReplayRec}

/-- A span flushed holds what was held. -/
theorem flush (h : w.Recorded header word spans) :
    ∃ spans', (flushSpan w).text = header ++ spanLines spans' ∧ (∀ s ∈ spans', s.Good) ∧
      (flushSpan w).opened = true ∧ (flushSpan w).last = w.last ∧
      ∀ f, replayButtons ⟨spans', []⟩ f = word f := by
  unfold flushSpan
  by_cases hnone : w.buttons = 0
  · rw [if_pos hnone]
    refine ⟨spans, h.text, h.good, h.opened, rfl, fun f => ?_⟩
    rw [h.words, hnone, ite_self, held_none]
  · have hgood : ReplaySpan.Good ⟨w.start, w.last, w.buttons⟩ :=
      ⟨h.start hnone, h.order, h.last.2, h.pad, hnone⟩
    rw [if_neg hnone]
    refine ⟨spans ++ [⟨w.start, w.last, w.buttons⟩], ?_, fun s hs => ?_, h.opened, rfl,
      fun f => ?_⟩
    · dsimp only
      rw [spanLines_snoc, ← List.append_assoc header, ← h.text]
      rfl
    · rcases List.mem_append.mp hs with hs | hs
      · exact h.good s hs
      · rw [List.mem_singleton.mp hs]
        exact hgood
    · rw [replayButtons_snoc, h.words]

theorem frame (h : w.Recorded header word spans) {frame : Int} (hnext : w.last < frame)
    (hlong : frame < 2 ^ 63) (b : BitVec 16) :
    ∃ spans', (replayRecFrame w frame b).Recorded header
      (fun f => if f = frame then b &&& 0xFFF0 else word f) spans' ∧
      (replayRecFrame w frame b).last = frame := by
  have hlast := h.last
  have hpad : b &&& 0xFFF0 &&& 0xFFF0 = b &&& 0xFFF0 := by
    rw [BitVec.and_assoc, BitVec.and_self]
  have hlater : ∀ f, frame < f → (if f = frame then b &&& 0xFFF0 else word f) = 0 := fun f hf => by
    rw [if_neg (by omega)]
    exact h.later f (by omega)
  unfold replayRecFrame
  simp only [h.opened, Bool.not_true, Bool.false_eq_true, if_false]
  by_cases hchange : b &&& 0xFFF0 ≠ w.buttons ∨ frame ≠ w.last + 1
  · obtain ⟨spans', htext, hgood, hopened, -, hword⟩ := h.flush
    rw [if_pos hchange]
    refine ⟨spans', ⟨htext, hopened, hgood, fun _ => by dsimp only; omega, Int.le_refl _,
      ⟨by dsimp only; omega, hlong⟩, hpad, fun f => ?_, hlater⟩, trivial⟩
    dsimp only
    by_cases hf : f = frame
    · have hclear : replayButtons ⟨spans', []⟩ f = 0 := by
        rw [hword]
        exact h.later f (by omega)
      rw [if_pos hf, if_pos ⟨by omega, by omega⟩, hclear, none_held]
    · rw [if_neg hf, if_neg (by omega), hword, held_none]
  · obtain ⟨hsame, hframe⟩ : b &&& 0xFFF0 = w.buttons ∧ frame = w.last + 1 := by
      simpa [not_or] using hchange
    have horder := h.order
    rw [if_neg hchange]
    refine ⟨spans, ⟨h.text, h.opened, h.good, h.start, by dsimp only; omega,
      ⟨by dsimp only; omega, hlong⟩, h.pad, fun f => ?_, hlater⟩, trivial⟩
    dsimp only
    by_cases hf : f = frame
    · -- No span reaches the frame: the word there was 0 so far.
      have hclear : replayButtons ⟨spans, []⟩ f = 0 := by
        have hzero := h.later f (by omega)
        rw [h.words, if_neg (by omega), held_none] at hzero
        exact hzero
      rw [if_pos hf, if_pos ⟨by omega, by omega⟩, hclear, none_held, hsame]
    · have hsame' : (w.start ≤ f ∧ f ≤ frame) ↔ (w.start ≤ f ∧ f ≤ w.last) := by omega
      rw [if_neg hf, h.words]
      simp only [hsame']

theorem frames (h : w.Recorded header word spans) {frame : Int} (hnext : w.last < frame)
    (words : List (BitVec 16)) (hlong : frame + words.length ≤ 2 ^ 63) :
    ∃ spans' word', (replayRecFrames w frame words).Recorded header word' spans' ∧
      ∀ f, word' f = if frame ≤ f then
        match words[(f - frame).toNat]? with
        | some b => b &&& 0xFFF0
        | none => word f
      else word f := by
  induction words generalizing w frame word spans with
  | nil => exact ⟨spans, word, h, fun f => by simp⟩
  | cons b words ih =>
    rw [List.length_cons] at hlong
    obtain ⟨spans₁, h₁, hlast₁⟩ := h.frame hnext (by omega) b
    have hnext₁ : (replayRecFrame w frame b).last < frame + 1 := by omega
    obtain ⟨spans', word', hdone, hword⟩ := ih h₁ hnext₁ (by omega)
    refine ⟨spans', word', hdone, fun f => ?_⟩
    rw [hword]
    by_cases hlow : frame ≤ f
    · rw [if_pos hlow]
      by_cases hf : f = frame
      · have hat : (f - frame).toNat = 0 := by omega
        rw [if_neg (by omega), if_pos hf, hat]
        rfl
      · have hat : (f - frame).toNat = (f - (frame + 1)).toNat + 1 := by omega
        rw [if_pos (by omega), if_neg hf, hat, List.getElem?_cons_succ]
    · rw [if_neg hlow, if_neg (by omega), if_neg (by omega)]

end ReplayRec.Recorded

/-- The header of a recording, with its newlines. -/
def recordHeader (source : List Char) : List Char := (replayRecOpen source).text

/-- A recorder's name on one line of the file, as the callers' are. -/
structure FitsHeader (source : List Char) : Prop where
  line : '\n' ∉ source
  fits : source.length ≤ 190

theorem replayLines_header {source : List Char} (h : FitsHeader source) (r : Replay)
    (rest : List Char) :
    replayLines r (lines 255 [] (recordHeader source ++ rest)) =
      replayLines r (lines 255 [] rest) := by
  have hsplit : recordHeader source ++ rest =
      '#' :: (" Pad 1 input recorded by ".toList ++ source ++
        ", one span per run of held buttons.".toList) ++ '\n' ::
      ('#' :: " Replay: ct_boot --script FILE --frames N (N on the last line).".toList ++
        '\n' :: rest) := by
    have hfirst : "# Pad 1 input recorded by ".toList =
        '#' :: " Pad 1 input recorded by ".toList := by decide
    have hheld : ", one span per run of held buttons.\n".toList =
        ", one span per run of held buttons.".toList ++ ['\n'] := by decide
    have hreplay : "# Replay: ct_boot --script FILE --frames N (N on the last line).\n".toList =
        '#' :: " Replay: ct_boot --script FILE --frames N (N on the last line).".toList ++
          ['\n'] := by decide
    unfold recordHeader replayRecOpen
    dsimp only
    rw [hfirst, hheld, hreplay]
    simp only [List.append_assoc, List.cons_append, List.nil_append]
  have hfirst : '\n' ∉ " Pad 1 input recorded by ".toList ++ source ++
      ", one span per run of held buttons.".toList := by
    simp only [List.mem_append, not_or]
    exact ⟨⟨by decide, h.line⟩, by decide⟩
  have hlength : (" Pad 1 input recorded by ".toList ++ source ++
      ", one span per run of held buttons.".toList).length ≤ 253 := by
    have hpad : " Pad 1 input recorded by ".toList.length = 25 := by decide
    have hheld : ", one span per run of held buttons.".toList.length = 35 := by decide
    have := h.fits
    rw [List.length_append, List.length_append, hpad, hheld]
    omega
  rw [hsplit, replayLines_comment hfirst hlength,
    replayLines_comment (by decide) (by decide)]

/-- What is recorded of consecutive frames, closed and loaded, holds the words recorded, the
pad's low bits cleared, and nothing at any other frame. -/
theorem replay_round_trip (source : List Char) (hsource : FitsHeader source) (first : Int)
    (hfirst : 1 ≤ first) (words : List (BitVec 16)) (hlong : first + words.length ≤ 2 ^ 63) :
    let w := replayRecClose (replayRecFrames (replayRecOpen source) first words)
    ∃ r, replayLoad ⟨[], []⟩ w.text = (0, r) ∧
      ∀ f : Int, replayButtons r f =
        if first ≤ f then
          match words[(f - first).toNat]? with
          | some word => word &&& 0xFFF0
          | none => 0
        else 0 := by
  have hopen : (replayRecOpen source).Recorded (recordHeader source) (fun _ => 0) [] := by
    refine ⟨(List.append_nil _).symm, rfl, fun s hs => absurd hs (by simp), fun hne => ?_,
      Int.le_refl _, ⟨Int.le_refl 0, show (0 : Int) < 2 ^ 63 by decide⟩,
      show (0 : BitVec 16) &&& 0xFFF0 = 0 by decide, fun f => ?_,
      fun _ _ => rfl⟩
    · exact absurd rfl hne
    · change 0 = 0 ||| (if _ then (0 : BitVec 16) else 0)
      rw [ite_self, held_none]
  obtain ⟨spans, word, hdone, hword⟩ := hopen.frames (by change (0 : Int) < first; omega) words hlong
  obtain ⟨spans', htext, hgood, -, hlast, hheld⟩ := hdone.flush
  obtain ⟨n, hn⟩ := Int.eq_ofNat_of_zero_le hdone.last.1
  have hn63 : n < 2 ^ 63 := by
    have := hdone.last.2
    omega
  have hclosed : (replayRecClose (replayRecFrames (replayRecOpen source) first words)).text =
      recordHeader source ++ (spanLines spans' ++
        ('#' :: (" frames ".toList ++ printLong n) ++ '\n' :: [])) := by
    have hframes : "# frames ".toList = '#' :: " frames ".toList := by decide
    unfold replayRecClose
    rw [hdone.opened]
    dsimp only
    rw [htext, hlast, hn, hframes]
    simp
  have hline : '\n' ∉ " frames ".toList ++ printLong n := by
    simp only [List.mem_append, not_or]
    exact ⟨by decide, fun hc => absurd (printLong_digits hc) (by decide)⟩
  have hfits : (" frames ".toList ++ printLong n).length ≤ 253 := by
    have hframes : " frames ".toList.length = 8 := by decide
    have := printLong_length hn63
    rw [List.length_append, hframes]
    omega
  refine ⟨⟨spans', []⟩, ?_, fun f => ?_⟩
  · unfold replayLoad
    rw [hclosed, replayLines_header hsource, replayLines_spans hgood,
      replayLines_comment hline hfits]
    rfl
  · rw [hheld, hword]

/-- Two frames of start and one of nothing, recorded by the front end from frame 7 on. -/
theorem replay_round_trip_start :
    let w := replayRecClose (replayRecFrames (replayRecOpen "ct_sdl --record".toList) 7
      [0x100F, 0x1000, 0x000F])
    ∃ r, replayLoad ⟨[], []⟩ w.text = (0, r) ∧ replayButtons r 8 = 0x1000 ∧
      replayButtons r 9 = 0 := by
  obtain ⟨r, hload, hheld⟩ := replay_round_trip "ct_sdl --record".toList
    ⟨by decide, by decide⟩ 7 (by decide) [0x100F, 0x1000, 0x000F] (by decide)
  exact ⟨r, hload, (hheld 8).trans (by decide), (hheld 9).trans (by decide)⟩

end CtRecomp
