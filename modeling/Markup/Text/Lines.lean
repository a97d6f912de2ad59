import Markup.Text.Basic
import Markup.Unicode.Space

/-! # Lines

Only `\n` ends a line. A text always has one line more than it has line breaks. -/
namespace Markup.Text

def line (t : Text) : Text := t.takeWhile (· != '\n')

/-- The text from the first line break on, the break included. -/
def afterLine (t : Text) : Text := t.dropWhile (· != '\n')

theorem line_append_afterLine (t : Text) : t.line ++ t.afterLine = t := List.takeWhile_append_dropWhile

def lines : Text → List Text
  | [] => [[]]
  | c :: t =>
    if c = '\n' then [] :: lines t
    else match lines t with
      | [] => [[c]]
      | l :: ls => (c :: l) :: ls

def joinLines (ls : List Text) : Text := ['\n'].intercalate ls

/-- The lines with a break after each. -/
def endLines (ls : List Text) : Text := ls.flatMap (· ++ ['\n'])

/-- The lines with a break before each. -/
def startLines (ls : List Text) : Text := ls.flatMap ('\n' :: ·)

theorem lines_ne_nil (t : Text) : t.lines ≠ [] := by
  cases t with
  | nil => simp [lines]
  | cons c t =>
    rw [lines]
    repeat' split
    all_goals simp

theorem joinLines_cons (l : Text) (ls : List Text) : joinLines (l :: ls) = l ++ startLines ls := by
  induction ls generalizing l with
  | nil => simp [joinLines, startLines, List.intercalate]
  | cons m ls ih =>
    have := ih m
    simp_all [joinLines, startLines, List.intercalate]

theorem joinLines_append {ls ms : List Text} (h : ms ≠ []) : joinLines (ls ++ ms) = endLines ls ++ joinLines ms := by
  induction ls with
  | nil => simp [endLines]
  | cons l ls ih =>
    cases ms with
    | nil => contradiction
    | cons m ms =>
      cases ls with
      | nil => simp [joinLines_cons, endLines, startLines]
      | cons k ls =>
        simp only [List.cons_append, joinLines_cons] at ih ⊢
        simp_all [endLines, startLines]

theorem joinLines_lines (t : Text) : joinLines t.lines = t := by
  induction t with
  | nil => rfl
  | cons c t ih =>
    cases h : lines t with
    | nil => exact absurd h (lines_ne_nil t)
    | cons l ls =>
      rw [h, joinLines_cons] at ih
      by_cases hc : c = '\n'
      · simp_all [lines, joinLines_cons, startLines]
      · simp_all [lines, joinLines_cons]

def breakLines (t : Text) : Text := t.flatMap fun c => if c = '\n' then "<br>".toList else [c]

/-- Removes `indent` from the lines that begin with it. -/
def stripIndent (indent t : Text) : Text :=
  joinLines (t.lines.map fun l => (indent.isPrefixOf? l).getD l)

def indent (t : Text) : Text := t.takeWhile isIndent

end Markup.Text
