import Markup.Html
import Markup.Match
import Markup.Rule.Basic
import Markup.Text.Lines

/-! # Definitions

A definition is a term, a colon and an indented body below it. The body goes on as long as the lines repeat the indent
of the first and hold something after it. A strict definition keeps term and colon on one line and has the body right
below; a list is a run of strict definitions without a gap. -/
namespace Markup.Listing

structure Definition where
  term : Text
  space : Text
  gap : Text
  indent : Text
  body : Text
  rest : Text
deriving DecidableEq, Repr

namespace Definition

def whole (d : Definition) : Text := d.term ++ d.space ++ ':' :: d.gap ++ d.body

def isTermChar (c : Char) : Bool := !":.\\\n".toList.contains c

def continues (indent l : Text) : Bool := indent.isPrefixOf l && indent.length < l.length

/-- The lines that continue a body, with their line breaks, and the text after them. -/
def bodyOf (indent t : Text) : Text × Text :=
  match t.lines.dropWhile (continues indent) with
  | [] => (t, [])
  | others => (Text.endLines (t.lines.takeWhile (continues indent)), Text.joinLines others)

def at? (strict : Bool) (t : Text) : Option Definition :=
  match t with
  | [] => none
  | c :: t =>
    if isSpace c then none else
    let term := c :: t.takeWhile isTermChar
    let afterTerm := t.dropWhile isTermChar
    let space := afterTerm.takeWhile isSpace
    match afterTerm.dropWhile isSpace with
    | ':' :: afterColon =>
      let blank := afterColon.takeWhile isSpace
      let below := afterColon.dropWhile isSpace
      let gap := (blank.reverse.dropWhile (· != '\n')).reverse
      let indent := (blank.reverse.takeWhile (· != '\n')).reverse
      if below.isEmpty || gap.isEmpty || indent.length < 2 then none
      else if strict && (space.contains '\n' || gap.count '\n' != 1) then none
      else
        let (body, rest) := bodyOf indent (indent ++ below)
        some ⟨term, space, gap, indent, body, rest⟩
    | _ => none

theorem bodyOf_append (indent t : Text) : (bodyOf indent t).1 ++ (bodyOf indent t).2 = t := by
  unfold bodyOf
  split
  · simp
  · next others h =>
    rw [← Text.joinLines_append h, List.takeWhile_append_dropWhile, Text.joinLines_lines]

theorem eq_of_at? {strict : Bool} {t : Text} {d : Definition} (h : at? strict t = some d) : t = d.whole ++ d.rest := by
  unfold at? at h
  split at h
  · contradiction
  · next c t =>
    split at h
    · contradiction
    simp only at h
    split at h
    · next afterColon hc =>
      repeat' split at h
      all_goals try contradiction
      obtain rfl := Option.some.inj h
      have blank := List.takeWhile_append_dropWhile (p := (· != '\n')) (l := (afterColon.takeWhile isSpace).reverse)
      replace blank := congrArg List.reverse blank
      rw [List.reverse_append, List.reverse_reverse] at blank
      simp only [whole, List.cons_append, List.append_assoc, List.cons.injEq, true_and]
      rw [bodyOf_append, ← List.append_assoc _ _ (List.dropWhile isSpace afterColon), blank,
        List.takeWhile_append_dropWhile, ← hc, List.takeWhile_append_dropWhile, List.takeWhile_append_dropWhile]
    · contradiction

theorem rest_length_lt {strict : Bool} {t : Text} {d : Definition} (h : at? strict t = some d) :
    d.rest.length < t.length := by
  rw [eq_of_at? h]
  simp [whole]
  omega

/-- The strict definitions that follow one another without a gap, and the text after them. -/
def listOf (t : Text) : List Definition × Text :=
  match _h : at? true t with
  | none => ([], t)
  | some d =>
    let (ds, rest) := listOf d.rest
    (d :: ds, rest)
termination_by t.length
decreasing_by exact rest_length_lt _h

end Definition

def atLineStart (prev : Option Char) : Bool := prev.all (· == '\n')

def definitionScanner : Scanner := fun prev t =>
  if atLineStart prev then
    (Definition.at? false t).map fun d => ⟨d.whole, d.rest, [some d.term, some d.body, some d.indent]⟩
  else none

def definitionListScanner : Scanner := fun prev t =>
  if atLineStart prev then
    match Definition.listOf t with
    | ([], _) => none
    | (ds, rest) => some ⟨ds.flatMap Definition.whole, rest, []⟩
  else none

def definitionMatcher : Matcher := .ofScanner definitionScanner .always

def definitionListMatcher : Matcher := .ofScanner definitionListScanner .always

def definition : Rule := .pattern "definition" definitionMatcher fun m => do
  let some term := m.group 1 | return none
  let some body := m.group 2 | return none
  let some indent := m.group 3 | return none
  let inner ← Program.rerun .block (Text.stripIndent indent body)
  let token ← Program.hide (Html.element "dt" term ++ '\n' :: Html.element "dd" ('\n' :: inner))
  return some (token ++ ['\n'])

end Markup.Listing
