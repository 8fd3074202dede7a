import Mathlib.Data.List.TakeWhile
import CtRecomp.Replay

namespace CtRecomp

open Scan

/-! Scripts with their comments and without (replay.c). -/

/-- A text from inside a comment or not, without its comments. -/
def stripComments : Bool → List Char → List Char
  | _, [] => []
  | inside, c :: s =>
    if c = '\n' then c :: stripComments false s
    else if inside ∨ c = '#' then stripComments true s
    else c :: stripComments inside s

/-- Whether the next line `fgets` gives starts inside a comment, after one that did or not. -/
def carried (inside : Bool) (line : List Char) : Bool :=
  (inside || line.contains '#') && !line.contains '\n'

/-- `replay_load` stops at it. -/
def badLine (line : List Char) : Prop := replayLine ⟨[], []⟩ line = none

/-- Of the lines read, each that starts inside a comment gives nothing. -/
def commentsUnread (inside : Bool) : List (List Char) → Prop
  | [] => True
  | line :: rest =>
    (inside = true → scanReset (scriptPart line) = none ∧ scanWord 159 (scriptPart line) = none) ∧
      (¬badLine line → commentsUnread (carried inside line) rest)

/-- Of the lines read, each that starts inside a comment is blank, at least up to another '#'. -/
def cutsBlank (inside : Bool) : List (List Char) → Prop
  | [] => True
  | line :: rest =>
    (inside = true → ∀ c ∈ scriptPart line, isSpace c = true) ∧
      (¬badLine line → cutsBlank (carried inside line) rest)

/-! A blank line, and a newline at the end of one. -/

section

variable {s : List Char} {r : Replay}

theorem skipSpaces_blank : skipSpaces s = [] ↔ ∀ c ∈ s, isSpace c = true := by
  unfold skipSpaces
  rw [List.dropWhile_eq_nil_iff]

theorem scanWord_none {width : Nat} (hwidth : 0 < width) :
    scanWord width s = none ↔ ∀ c ∈ s, isSpace c = true := by
  rw [← skipSpaces_blank]
  unfold scanWord
  dsimp only
  cases hskip : skipSpaces s with
  | nil => simp
  | cons c t =>
    have hc : isSpace c = false := by
      have hhead := List.head?_dropWhile_not isSpace s
      unfold skipSpaces at hskip
      rw [hskip] at hhead
      simpa using hhead
    obtain ⟨n, rfl⟩ : ∃ n, width = n + 1 := ⟨width - 1, by omega⟩
    simp [hc]

theorem scanReset_blank (h : ∀ c ∈ s, isSpace c = true) : scanReset s = none := by
  unfold scanReset
  rw [skipSpaces_blank.mpr h]
  rfl

theorem replayLine_blank {line : List Char} (h : ∀ c ∈ scriptPart line, isSpace c = true) :
    replayLine r line = some r := by
  unfold replayLine
  dsimp only
  rw [scanReset_blank h, (scanWord_none (by decide)).mpr h]

theorem commentsUnread_iff {inside : Bool} {pieces : List (List Char)} :
    commentsUnread inside pieces ↔ cutsBlank inside pieces := by
  induction pieces generalizing inside with
  | nil => exact Iff.rfl
  | cons line rest ih =>
    have hline : (scanReset (scriptPart line) = none ∧ scanWord 159 (scriptPart line) = none) ↔
        ∀ c ∈ scriptPart line, isSpace c = true :=
      ⟨fun h => (scanWord_none (by decide)).mp h.2,
        fun h => ⟨scanReset_blank h, (scanWord_none (by decide)).mpr h⟩⟩
    rw [commentsUnread, cutsBlank, hline, ih]

theorem skipSpaces_newline (s : List Char) :
    skipSpaces (s ++ ['\n']) = if skipSpaces s = [] then [] else skipSpaces s ++ ['\n'] := by
  induction s with
  | nil => rfl
  | cons c s ih =>
    unfold skipSpaces at ih ⊢
    by_cases hc : isSpace c = true
    · rw [List.cons_append, List.dropWhile_cons_of_pos hc, List.dropWhile_cons_of_pos hc]
      exact ih
    · rw [List.cons_append, List.dropWhile_cons_of_neg hc, List.dropWhile_cons_of_neg hc,
        if_neg (List.cons_ne_nil _ _)]
      rfl

theorem while_newline {p : Char → Bool} (hp : p '\n' = false) (s : List Char) :
    (s ++ ['\n']).takeWhile p = s.takeWhile p ∧
      (s ++ ['\n']).dropWhile p = s.dropWhile p ++ ['\n'] := by
  induction s with
  | nil => simp [hp]
  | cons c s ih =>
    by_cases hc : p c = true
    · rw [List.cons_append, List.takeWhile_cons_of_pos hc, List.takeWhile_cons_of_pos hc,
        List.dropWhile_cons_of_pos hc, List.dropWhile_cons_of_pos hc, ih.1, ih.2]
      exact ⟨rfl, rfl⟩
    · rw [List.cons_append, List.takeWhile_cons_of_neg hc, List.takeWhile_cons_of_neg hc,
        List.dropWhile_cons_of_neg hc, List.dropWhile_cons_of_neg hc]
      exact ⟨rfl, rfl⟩

theorem literals_newline {w : List Char} (hw : '\n' ∉ w) (s : List Char) :
    literals w (s ++ ['\n']) = (literals w s).map (· ++ ['\n']) := by
  induction w generalizing s with
  | nil => rfl
  | cons c w ih =>
    have hc : '\n' ≠ c := fun h => hw (h ▸ List.mem_cons_self)
    have ih := ih fun h => hw (List.mem_cons_of_mem _ h)
    unfold literals at ih ⊢
    rw [List.foldlM_cons, List.foldlM_cons]
    cases s with
    | nil => simp [literal, hc]
    | cons d s =>
      rw [List.cons_append, literal, literal]
      by_cases hd : d = c
      · rw [if_pos hd, if_pos hd]
        exact ih s
      · rw [if_neg hd, if_neg hd]
        rfl

theorem scanSign_newline {c : Char} {s : List Char} :
    scanSign (c :: s ++ ['\n']) = ((scanSign (c :: s)).1, (scanSign (c :: s)).2 ++ ['\n']) := by
  by_cases hminus : c = '-'
  · subst hminus
    rfl
  by_cases hplus : c = '+'
  · subst hplus
    rfl
  have hsign (t : List Char) : scanSign (c :: t) = (false, c :: t) := by
    unfold scanSign
    split
    next h => exact absurd (List.cons_eq_cons.mp h).1 hminus
    next h => exact absurd (List.cons_eq_cons.mp h).1 hplus
    next => rfl
  rw [List.cons_append, hsign, hsign]
  rfl

theorem scanLong_newline (s : List Char) :
    scanLong (s ++ ['\n']) = (scanLong s).map fun p => (p.1, p.2 ++ ['\n']) := by
  unfold scanLong
  rw [skipSpaces_newline]
  cases hskip : skipSpaces s with
  | nil => rfl
  | cons c t =>
    rw [if_neg (List.cons_ne_nil _ _), scanSign_newline]
    obtain ⟨negative, u⟩ := scanSign (c :: t)
    obtain ⟨htake, hdrop⟩ := while_newline (p := Char.isDigit) (by decide) u
    dsimp only
    rw [htake, hdrop]
    split
    · rfl
    · rfl

theorem scanReset_newline (s : List Char) : scanReset (s ++ ['\n']) = scanReset s := by
  unfold scanReset
  rw [skipSpaces_newline]
  by_cases hskip : skipSpaces s = []
  · rw [if_pos hskip, hskip]
  · rw [if_neg hskip, literals_newline (by decide)]
    cases literals ['r', 'e', 's', 'e', 't'] (skipSpaces s) with
    | none => rfl
    | some t =>
      simp only [Option.map_some, Option.bind_eq_bind, Option.bind_some]
      rw [scanLong_newline]
      cases scanLong t with
      | none => rfl
      | some p =>
        simp only [Option.map_some, Option.bind_some]
        rw [skipSpaces_newline]
        by_cases hrest : skipSpaces p.2 = []
        · rw [if_pos hrest, hrest]
        · rw [if_neg hrest, if_neg (by simp), if_neg (by simp [hrest])]

theorem scanWord_newline (width : Nat) (s : List Char) :
    scanWord width (s ++ ['\n']) = scanWord width s := by
  unfold scanWord
  rw [skipSpaces_newline]
  by_cases hskip : skipSpaces s = []
  · rw [if_pos hskip, hskip]
  · rw [if_neg hskip, (while_newline (by decide) _).1]

/-! A line up to its comment. -/

theorem scriptPart_cons (c : Char) (s : List Char) :
    scriptPart (c :: s) = if c = nul ∨ c = '#' then [] else c :: scriptPart s := by
  unfold scriptPart
  by_cases hnul : c = nul
  · rw [if_pos (.inl hnul), List.takeWhile_cons_of_neg (by simp [hnul])]
    rfl
  · rw [List.takeWhile_cons_of_pos (by simp [hnul])]
    by_cases hhash : c = '#'
    · rw [if_pos (.inr hhash), List.takeWhile_cons_of_neg (by simp [hhash])]
    · rw [if_neg (by simp [hnul, hhash]), List.takeWhile_cons_of_pos (by simp [hhash])]

theorem scriptPart_comment {s : List Char} (rest : List Char) :
    scriptPart (s ++ '#' :: rest) = scriptPart s := by
  induction s with
  | nil =>
    rw [List.nil_append, scriptPart_cons, if_pos (.inr rfl)]
    rfl
  | cons c s ih => rw [List.cons_append, scriptPart_cons, scriptPart_cons, ih]

theorem scriptPart_newline (s : List Char) :
    scriptPart (s ++ ['\n']) = scriptPart s ∨ scriptPart (s ++ ['\n']) = scriptPart s ++ ['\n'] := by
  induction s with
  | nil => exact .inr (by decide)
  | cons c s ih =>
    rw [List.cons_append, scriptPart_cons, scriptPart_cons]
    split
    · exact .inl rfl
    · rcases ih with ih | ih
      · exact .inl (by rw [ih])
      · exact .inr (by rw [ih]; rfl)

theorem replayLine_comment_after (r : Replay) (s rest : List Char) :
    replayLine r (s ++ '#' :: rest) = replayLine r s := by
  unfold replayLine
  rw [scriptPart_comment]

theorem replayLine_newline (r : Replay) (s : List Char) :
    replayLine r (s ++ ['\n']) = replayLine r s := by
  unfold replayLine
  rcases scriptPart_newline s with h | h
  · rw [h]
  · rw [h]
    dsimp only
    rw [scanReset_newline, scanWord_newline]

/-- Whether a line is bad does not depend on the script before it. -/
theorem badLine_iff {line : List Char} : badLine line ↔ replayLine r line = none := by
  have hadd (r : Replay) (tok : List Char) : replayAdd r tok = none ↔
      replayAdd ⟨[], []⟩ tok = none := by
    unfold replayAdd
    cases scanSpan tok with
    | none => simp
    | some p =>
      obtain ⟨start, stop, buttons⟩ := p
      simp only [Option.bind_eq_bind, Option.bind_some]
      split
      · simp
      · split <;> simp
  unfold badLine replayLine
  dsimp only
  cases scanReset (scriptPart line) with
  | some frame => simp
  | none =>
    cases scanWord 159 (scriptPart line) with
    | none => simp
    | some tok => exact (hadd r tok).symm

/-! The lines of a text and of the text without its comments. -/

theorem replayLines_cons (r : Replay) (line : List Char) (rest : List (List Char)) :
    replayLines r (line :: rest) =
      match replayLine r line with
      | none => (true, r)
      | some r => replayLines r rest := rfl

/-- What follows the end of the line. -/
def nextLine : List Char → List Char
  | [] => []
  | c :: s => if c = '\n' then s else nextLine s

theorem nextLine_cons (c : Char) (s : List Char) :
    nextLine (c :: s) = if c = '\n' then s else nextLine s := rfl

theorem stripComments_cons (inside : Bool) (c : Char) (s : List Char) :
    stripComments inside (c :: s) =
      if c = '\n' then c :: stripComments false s
      else if inside ∨ c = '#' then stripComments true s
      else c :: stripComments inside s := rfl

theorem lines_nil (acc : List Char) : lines 255 acc [] = if acc = [] then [] else [acc] := by
  rw [lines]

theorem lines_char (acc : List Char) (c : Char) (s : List Char) :
    lines 255 acc (c :: s) =
      if c = '\n' ∨ acc.length + 1 = 255 then (acc ++ [c]) :: lines 255 [] s
      else lines 255 (acc ++ [c]) s := by
  rw [lines]

theorem stripComments_inside (s : List Char) :
    stripComments true s = [] ∧ nextLine s = [] ∨
      stripComments true s = '\n' :: stripComments false (nextLine s) := by
  induction s with
  | nil => exact .inl ⟨rfl, rfl⟩
  | cons c s ih =>
    rw [stripComments_cons, nextLine_cons]
    by_cases hc : c = '\n'
    · rw [if_pos hc, if_pos hc, hc]
      exact .inr rfl
    · rw [if_neg hc, if_neg hc, if_pos (.inl rfl)]
      exact ih

/-- The text left of a line that ends in a comment is that line, then the next. -/
theorem replayLines_stripped (r : Replay) (acc s : List Char) :
    replayLines r (lines 255 acc (stripComments true s)) =
      match replayLine r acc with
      | none => (true, r)
      | some r => replayLines r (lines 255 [] (stripComments false (nextLine s))) := by
  rcases stripComments_inside s with ⟨hstrip, hnext⟩ | hstrip
  · rw [hstrip, hnext, lines_nil]
    by_cases hempty : acc = []
    · rw [hempty]
      rfl
    · rw [if_neg hempty, replayLines_cons]
      rfl
  · rw [hstrip, lines_char, if_pos (.inl rfl), replayLines_cons, replayLine_newline]

/-- Texts as long at most load as they do without their comments. -/
def LoadsStripped (n : Nat) : Prop :=
  ∀ s : List Char, s.length ≤ n → cutsBlank false (lines 255 [] s) →
    ∀ r, replayLines r (lines 255 [] s) = replayLines r (lines 255 [] (stripComments false s))

/-- Past a cut, blank lines up to the end of the comment. -/
theorem replayLines_cut {n : Nat} (hn : LoadsStripped n) {s acc : List Char} (hs : s.length ≤ n)
    (hacc : acc.length < 255) (hnew : '\n' ∉ acc) (hcuts : cutsBlank true (lines 255 acc s))
    (r : Replay) :
    replayLines r (lines 255 acc s) =
      replayLines r (lines 255 [] (stripComments false (nextLine s))) := by
  induction s generalizing acc with
  | nil =>
    rw [lines_nil] at hcuts ⊢
    by_cases hempty : acc = []
    · rw [if_pos hempty]
      rfl
    · rw [if_neg hempty] at hcuts ⊢
      rw [replayLines_cons, replayLine_blank (hcuts.1 rfl)]
      rfl
  | cons c s ih =>
    have hs' : s.length ≤ n := Nat.le_of_succ_le hs
    rw [lines_char] at hcuts
    rw [lines_char, nextLine_cons]
    by_cases hc : c = '\n'
    · rw [if_pos (.inl hc)] at hcuts ⊢
      have hblank := hcuts.1 rfl
      have hgood : ¬badLine (acc ++ [c]) := by
        rw [badLine, replayLine_blank hblank]
        simp
      have hend : carried true (acc ++ [c]) = false := by simp [carried, hc]
      have hrest := hcuts.2 hgood
      rw [hend] at hrest
      rw [if_pos hc, replayLines_cons, replayLine_blank hblank]
      exact hn s hs' hrest r
    · rw [if_neg hc]
      by_cases hfull : acc.length + 1 = 255
      · rw [if_pos (.inr hfull)] at hcuts ⊢
        have hblank := hcuts.1 rfl
        have hgood : ¬badLine (acc ++ [c]) := by
          rw [badLine, replayLine_blank hblank]
          simp
        have hmore : carried true (acc ++ [c]) = true := by
          simp [carried, hnew, Ne.symm hc]
        have hrest := hcuts.2 hgood
        rw [hmore] at hrest
        rw [replayLines_cons, replayLine_blank hblank]
        exact ih hs' (by decide) (by simp) hrest
      · rw [if_neg (by simp [hc, hfull])] at hcuts ⊢
        exact ih hs' (by rw [List.length_append, List.length_singleton]; omega)
          (by simp [hnew, Ne.symm hc]) hcuts

/-- From a comment's start, the line before it is read and no more of the comment. -/
theorem replayLines_comment_from {n : Nat} (hn : LoadsStripped n) {s acc rest : List Char}
    (hs : s.length ≤ n) (hacc : (acc ++ '#' :: rest).length < 255)
    (hnew : '\n' ∉ acc ++ '#' :: rest)
    (hcuts : cutsBlank false (lines 255 (acc ++ '#' :: rest) s)) (r : Replay) :
    replayLines r (lines 255 (acc ++ '#' :: rest) s) =
      replayLines r (lines 255 acc (stripComments true s)) := by
  rw [replayLines_stripped]
  induction s generalizing rest with
  | nil =>
    rw [lines_nil, if_neg (by simp), replayLines_cons, replayLine_comment_after]
    rfl
  | cons c s ih =>
    have hs' : s.length ≤ n := Nat.le_of_succ_le hs
    have hsnoc : acc ++ '#' :: rest ++ [c] = acc ++ '#' :: (rest ++ [c]) := by simp
    rw [lines_char] at hcuts
    rw [lines_char, nextLine_cons]
    by_cases hc : c = '\n'
    · rw [if_pos (.inl hc)] at hcuts ⊢
      have hend : carried false (acc ++ '#' :: rest ++ [c]) = false := by simp [carried, hc]
      rw [if_pos hc, replayLines_cons, hsnoc, replayLine_comment_after]
      cases hline : replayLine r acc with
      | none => rfl
      | some r' =>
        have hgood : ¬badLine (acc ++ '#' :: rest ++ [c]) := by
          rw [badLine_iff (r := r), hsnoc, replayLine_comment_after, hline]
          simp
        have hrest := hcuts.2 hgood
        rw [hend] at hrest
        exact hn s hs' hrest r'
    · rw [if_neg hc]
      by_cases hfull : (acc ++ '#' :: rest).length + 1 = 255
      · rw [if_pos (.inr hfull)] at hcuts ⊢
        have hmore : carried false (acc ++ '#' :: rest ++ [c]) = true := by
          have hnot : (acc ++ '#' :: rest ++ [c]).contains '\n' = false := by
            rw [List.contains_eq_mem, decide_eq_false_iff_not, List.mem_append,
              List.mem_singleton, not_or]
            exact ⟨hnew, Ne.symm hc⟩
          rw [carried, hnot]
          simp
        rw [replayLines_cons, hsnoc, replayLine_comment_after]
        cases hline : replayLine r acc with
        | none => rfl
        | some r' =>
          have hgood : ¬badLine (acc ++ '#' :: rest ++ [c]) := by
            rw [badLine_iff (r := r), hsnoc, replayLine_comment_after, hline]
            simp
          have hrest := hcuts.2 hgood
          rw [hmore] at hrest
          exact replayLines_cut hn hs' (by decide) (by simp) hrest r'
      · rw [if_neg (by simp only [hc, false_or]; exact hfull), hsnoc] at hcuts
        rw [if_neg (by simp only [hc, false_or]; exact hfull), hsnoc]
        refine ih hs' ?_ ?_ hcuts
        · rw [← hsnoc, List.length_append, List.length_singleton]
          omega
        · rw [← hsnoc, List.mem_append, List.mem_singleton, not_or]
          exact ⟨hnew, Ne.symm hc⟩

theorem replayLines_strip {n : Nat} (hn : LoadsStripped n) {s acc : List Char}
    (hs : s.length ≤ n + 1) (hacc : acc.length < 255) (hnew : '\n' ∉ acc) (hhash : '#' ∉ acc)
    (hcuts : cutsBlank false (lines 255 acc s)) (r : Replay) :
    replayLines r (lines 255 acc s) = replayLines r (lines 255 acc (stripComments false s)) := by
  induction s generalizing acc r with
  | nil => rfl
  | cons c s ih =>
    have hs' : s.length ≤ n := Nat.le_of_succ_le_succ hs
    rw [stripComments_cons]
    by_cases hc : c = '\n'
    · rw [if_pos hc]
      rw [lines_char, if_pos (.inl hc)] at hcuts
      rw [lines_char, if_pos (.inl hc), lines_char, if_pos (.inl hc), replayLines_cons,
        replayLines_cons]
      cases hline : replayLine r (acc ++ [c]) with
      | none => rfl
      | some r' =>
        have hend : carried false (acc ++ [c]) = false := by simp [carried, hc]
        have hgood : ¬badLine (acc ++ [c]) := by
          rw [badLine_iff (r := r), hline]
          simp
        have hrest := hcuts.2 hgood
        rw [hend] at hrest
        exact hn s hs' hrest r'
    by_cases hcomment : c = '#'
    · rw [if_neg hc, if_pos (.inr hcomment)]
      subst hcomment
      rw [lines_char] at hcuts
      rw [lines_char]
      by_cases hfull : acc.length + 1 = 255
      · rw [if_pos (.inr hfull)] at hcuts ⊢
        rw [replayLines_cons, replayLine_comment_after, replayLines_stripped]
        cases hline : replayLine r acc with
        | none => rfl
        | some r' =>
          have hmore : carried false (acc ++ ['#']) = true := by simp [carried, hnew]
          have hgood : ¬badLine (acc ++ ['#']) := by
            rw [badLine_iff (r := r), replayLine_comment_after, hline]
            simp
          have hrest := hcuts.2 hgood
          rw [hmore] at hrest
          exact replayLines_cut hn hs' (by decide) (by simp) hrest r'
      · rw [if_neg (by simp [hfull])] at hcuts ⊢
        refine replayLines_comment_from hn hs' ?_ (by simp [hnew]) hcuts r
        rw [List.length_append, List.length_singleton]
        omega
    · rw [if_neg hc, if_neg (by simp [hcomment])]
      rw [lines_char] at hcuts
      rw [lines_char, lines_char]
      by_cases hfull : acc.length + 1 = 255
      · rw [if_pos (.inr hfull)] at hcuts
        rw [if_pos (.inr hfull), if_pos (.inr hfull), replayLines_cons, replayLines_cons]
        cases hline : replayLine r (acc ++ [c]) with
        | none => rfl
        | some r' =>
          have hmore : carried false (acc ++ [c]) = false := by
            simp [carried, hhash, Ne.symm hcomment]
          have hgood : ¬badLine (acc ++ [c]) := by
            rw [badLine_iff (r := r), hline]
            simp
          have hrest := hcuts.2 hgood
          rw [hmore] at hrest
          exact hn s hs' hrest r'
      · rw [if_neg (by simp [hc, hfull])] at hcuts
        rw [if_neg (by simp [hc, hfull]), if_neg (by simp [hc, hfull])]
        exact ih (Nat.le_of_succ_le hs) (by rw [List.length_append, List.length_singleton]; omega)
          (by simp [hnew, Ne.symm hc]) (by simp [hhash, Ne.symm hcomment]) hcuts r

theorem loadsStripped (n : Nat) : LoadsStripped n := by
  induction n with
  | zero =>
    intro s hs _ r
    rw [List.length_eq_zero_iff.mp (Nat.le_zero.mp hs)]
    rfl
  | succ n ih =>
    intro s hs hcuts r
    exact replayLines_strip ih hs (by decide) (by simp) (by simp) hcuts r

end

/-- A script loads as it does without its comments, and none of their text is read, if and only
if what is left of a comment where a line is cut at 255 characters is blank up to the next '#',
on every line read. -/
theorem comments_exact (text : List Char) :
    ((∀ r, replayLoad r text = replayLoad r (stripComments false text)) ∧
      commentsUnread false (lines 255 [] text)) ↔
    cutsBlank false (lines 255 [] text) := by
  rw [commentsUnread_iff]
  refine ⟨fun h => h.2, fun h => ⟨fun r => ?_, h⟩⟩
  unfold replayLoad
  rw [loadsStripped text.length text (Nat.le_refl _) h]

/-- A comment of 255 characters, then what is a span by itself. -/
def cutScript : List Char :=
  '#' :: List.replicate 254 'x' ++ ['1', '-', '2', ':', 'a', '\n']

theorem comment_read : ¬∀ text : List Char,
    (∀ r, replayLoad r text = replayLoad r (stripComments false text)) ∧
      commentsUnread false (lines 255 [] text) := by
  intro hall
  have hsame := congrArg (fun p => p.2.spans.length) ((hall cutScript).1 ⟨[], []⟩)
  have hread : (replayLoad ⟨[], []⟩ cutScript).2.spans.length = 1 := by decide +kernel
  have hstripped : (replayLoad ⟨[], []⟩ (stripComments false cutScript)).2.spans.length = 0 := by
    decide +kernel
  rw [hread, hstripped] at hsame
  exact absurd hsame (by decide)

end CtRecomp
