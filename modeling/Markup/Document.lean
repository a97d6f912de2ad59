import Markup.Block.Structure

/-! # Documents

The document stage takes trailing white space away, hides code and escaped characters, and then runs the line rules
and the block rules over the whole text before it resolves the tokens. -/
namespace Markup.Document
open Pattern

def trailingSpace : Rule :=
  .pattern "trailing-whitespace" (matcher (atLeast 1 isIndent ++ lineEnd)) fun _ => return some []

def code : Rule := .pattern "fenced-code" (Block.fenced "@").matcher fun m => do
  let some code := m.group 1 | return none
  return some (← Program.hide (Html.element "pre" code))

def isEscapable (c : Char) : Bool := !isSpace c && !c.isAlphanum && c != '_'

def escape : Rule := .pattern "escape" (matcher (word "\\" ++ group 1 (one isEscapable))) fun m => do
  let some c := m.group 1 | return none
  return some (← Program.hide c)

def rules : List Rule :=
  [trailingSpace, code, escape, .stage "inline" .line, .stage "blocks" .block,
    .transform "detokenize" fun t => some <$> Program.reveal t]

end Markup.Document
