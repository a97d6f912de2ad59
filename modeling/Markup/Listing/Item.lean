import Markup.Html
import Markup.Pattern.Plan
import Markup.Rule.Basic
import Markup.Text.Lines

/-! # List items

An item is a line `* text` or `1. text`. The lines right below it belong to it as long as they begin with the indent
of the first of them, which is at least two characters wide. An item of one line holds a line, a longer one holds
blocks. -/
namespace Markup.Listing
open Pattern

def itemHead : Pattern :=
  lineStart ++ (atLeast 1 Char.isDigit ++ word "." <|> word "*") ++ atLeast 1 isSpace ++
    group 1 (atLeast 1 (· != '\n'))

/-- The indent and the lines that repeat it, and the lines after them, when `t` is what follows a line. -/
def continuation? (t : Text) : Option (Text × List Text × List Text) :=
  match t with
  | '\n' :: below =>
    let indent := Text.indent below
    let lines := Text.lines below
    if indent.length < 2 then none
    else some (indent, lines.takeWhile indent.isPrefixOf, lines.dropWhile indent.isPrefixOf)
  | _ => none

def itemScanner : Scanner := fun prev t => do
  let head ← itemHead.scanner prev t
  let content ← head.groups.head?.join
  match continuation? head.rest with
  | none => return ⟨head.whole, head.rest, [some content]⟩
  | some (indent, body, others) =>
    let tail := Text.startLines body
    return ⟨head.whole ++ tail, Text.startLines others, [some (content ++ tail), some tail, some indent]⟩

def mayBeginItem : Text → Bool := (itemHead.plan .done).may

theorem itemScanner_eq_none (prev : Option Char) {t : Text} (h : mayBeginItem t = false) :
    itemScanner prev t = none := by
  rw [itemScanner, itemHead.scanner_eq_none prev h]
  rfl

/-- Group 1 is the content, group 2 its part below the first line, and group 3 the indent of that part. -/
def itemMatcher : Matcher := .ofScannerWhere mayBeginItem itemScanner

theorem itemMatcher_eq : itemMatcher = .ofScanner itemScanner :=
  Matcher.ofScannerWhere_eq (fun prev _ => itemScanner_eq_none prev) _

def item : Rule := .pattern "item" itemMatcher fun m => do
  let some content := m.group 1 | return none
  let inner ← match m.group 3 with
    | some indent => Program.rerun .block (Text.stripIndent indent content)
    | none => Program.rerun .line content
  return some (Html.block "li" inner)

end Markup.Listing
