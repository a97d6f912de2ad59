import Markup.Html
import Markup.Pattern.Plan
import Markup.Rule.Basic

/-! # Titles and headings

A title is a line underlined with `=`; the line below the underline is its subtitle. A heading begins with one to five
`#` and is one level deeper than their number, because the title has the first level. -/
namespace Markup.Block
open Pattern

def inLine (c : Char) : Bool := c != '\n'

def underline : Pattern := word "\n" ++ atLeast 3 (· == '=')

def titleWithSubtitlePattern : Pattern :=
  lineStart ++ group 1 (atLeast 1 inLine) ++ underline ++ word "\n" ++ atLeast 0 isIndent ++
    group 2 (atLeast 1 inLine) ++ lineEnd

def titlePattern : Pattern := lineStart ++ group 1 (atLeast 1 inLine) ++ underline ++ lineEnd

def headingPattern : Pattern :=
  lineStart ++ group 1 (run (· == '#') 1 (some 5) true) ++ atLeast 1 isSpace ++ group 2 (reluctant inLine) ++
    atLeast 0 isSpace ++ lineEnd

def titleWithSubtitle : Rule := .pattern "title-with-subtitle" titleWithSubtitlePattern.matcher fun m => do
  let some title := m.group 1 | return none
  let some subtitle := m.group 2 | return none
  return some (← Program.hide (Html.element "header" (Html.element "h1" title ++ Html.element "strong" subtitle)))

def title : Rule := .pattern "title" titlePattern.matcher fun m => do
  let some title := m.group 1 | return none
  return some (← Program.hide (Html.element "header" (Html.element "h1" title)))

def headingTag (hashes : Nat) : String := "h" ++ toString (hashes + 1)

def heading : Rule := .pattern "heading" headingPattern.matcher fun m => do
  let some hashes := m.group 1 | return none
  let some text := m.group 2 | return none
  return some (← Program.hide (Html.element (headingTag hashes.length) text))

end Markup.Block
