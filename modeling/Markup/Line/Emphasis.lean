import Markup.Html
import Markup.Rule.Basic
import Markup.Unicode.Space

/-! # Emphasis

`_underlined_`, `**strong**` and `*emphatic*` text. The content stays on its line and has no white space at its ends.
The shortest content of at least two characters wins, then the content of one character; a `*` right before the closing
mark belongs to the content when the mark still follows it. -/
namespace Markup.Line

def marks : List Text := ["_".toList, "**".toList, "*".toList]

def isNameChar (c : Char) : Bool := c.isAlphanum || c == '_'

/-- Whether the closing mark stands here; the number tells how many `*` before it belong to the content. -/
def closes? (mark t : Text) : Option Nat :=
  if ('*' :: mark).isPrefixOf t then some 1
  else if mark.isPrefixOf t then some 0
  else none

/-- The length of the content when `n` characters are taken already and its last character is still to come. -/
def contentFrom (mark : Text) (n : Nat) : Text → Option Nat
  | [] => none
  | c :: t =>
    if c = '\n' then none
    else match (if isSpace c then none else closes? mark t) with
      | some k => some (n + 1 + k)
      | none => contentFrom mark (n + 1) t

def contentLength (mark : Text) : Text → Option Nat
  | [] => none
  | c :: t =>
    if isSpace c then none
    else contentFrom mark 1 t <|> (closes? mark t).map (1 + ·)

def emphasisWith (prev : Option Char) (t mark : Text) : Option Hit := do
  let inner ← mark.isPrefixOf? t
  if mark = "_".toList && prev.any isNameChar then none
  let n ← contentLength mark inner
  return ⟨mark ++ inner.take n ++ mark, inner.drop (n + mark.length), [some mark, some (inner.take n)]⟩

def emphasisScanner : Scanner := fun prev t =>
  match t with
  | '_' :: _ | '*' :: _ => marks.findSome? (emphasisWith prev t)
  | _ => none

/-- Group 1 is the mark and group 2 the content. -/
def emphasisMatcher : Matcher := .ofScanner emphasisScanner .never

def emphasisTag (mark : Text) : String :=
  if mark = "*".toList then "em" else if mark = "**".toList then "strong" else "u"

def emphasis : Rule := .pattern "emphasis" emphasisMatcher fun m => do
  let some mark := m.group 1 | return none
  let some content := m.group 2 | return none
  let inner ← Program.rerun .line content
  let token ← Program.hide inner
  return some (Html.element (emphasisTag mark) token)

end Markup.Line
