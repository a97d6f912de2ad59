import Markup.Pattern.Plan
import Markup.Rule.Basic
import Markup.Table.Cell

/-! # Table rows

A row is a line between pipes. It is a header when the line below holds nothing but pipes and equals signs between two
pipes; that line then belongs to the row. -/
namespace Markup.Table
open Pattern

/-- Group 1 is the row's body and group 2 the line that makes it a header. -/
def rowPattern : Pattern :=
  lineStart ++ group 1 (word "|" ++ atLeast 1 (· != '\n')) ++ word "|" ++
    optional (group 2 (word "\n|" ++ atLeast 1 (fun c => c == '|' || c == '=') ++ word "|")) ++ lineEnd

def renderRow (tag : String) (body : Text) : Text := Html.element "tr" ((splitCells body).flatMap (Cell.render tag))

def row : Rule := .pattern "row" rowPattern.matcher fun m => do
  let some body := m.group 1 | return none
  return some (renderRow (if (m.group 2).isSome then "th" else "td") body)

end Markup.Table
