import Markup.Block.Heading
import Markup.Listing.Definition

/-! # Quotes, rules, tables and lists

Every block becomes one token, so the rules after it see it as done. -/
namespace Markup.Block
open Pattern

def fenced (mark : String) : Pattern :=
  lineStart ++ word mark ++ word "\n" ++ group 1 (reluctant fun _ => true) ++ word "\n" ++ word mark ++ lineEnd

def quote : Rule := .pattern "blockquote" (fenced "\"").matcher fun m => do
  let some text := m.group 1 | return none
  return some (← Program.hide (Html.block "blockquote" (Text.breakLines text)))

def horizontalRule : Rule :=
  .pattern "horizontal-rule" (matcher (lineStart ++ group 1 (atLeast 3 (· == '-')) ++ lineEnd)) fun _ =>
    some <$> Program.hide "<hr>".toList

def lineBreak : Pattern := optional (word "\n")

/-- Rows on consecutive lines, each from pipe to pipe. The line's end is asked for right after the closing pipe: a row
that stops earlier could not be followed by another one. -/
def tablePattern : Pattern :=
  lineStart ++ plus (word "|" ++ atLeast 1 inLine ++ word "|" ++ lineEnd ++ lineBreak) ++ lineEnd

def table : Rule := .pattern "table" tablePattern.matcher fun m => do
  let rows ← Program.rerun .table m.whole
  return some (← Program.hide (Html.element "table" ('\n' :: rows)))

def itemLine (mark : Pattern) : Pattern := lineStart ++ mark ++ atLeast 1 isIndent ++ atLeast 1 inLine

def continuationLine : Pattern := lineStart ++ atLeast 2 isIndent ++ atLeast 1 inLine

def moreItems (mark : Pattern) : Pattern :=
  star (itemLine mark ++ lineBreak <|> continuationLine ++ lineBreak) ++ lineEnd

def bullet : Pattern := word "*"

def ordinal : Pattern := atLeast 1 Char.isDigit ++ word "."

def unorderedListPattern : Pattern := itemLine bullet ++ lineBreak ++ moreItems bullet

/-- The first item of an ordered list ends with a line break. -/
def orderedListPattern : Pattern := itemLine ordinal ++ word "\n" ++ moreItems ordinal

def listBlock (tag : String) (text : Text) : Program (Option Text) := do
  let items ← Program.rerun .list text
  return some (← Program.hide (Html.block tag items))

def unorderedList : Rule := .pattern "unordered-list" unorderedListPattern.matcher fun m => listBlock "ul" m.whole

def orderedList : Rule := .pattern "ordered-list" orderedListPattern.matcher fun m => listBlock "ol" m.whole

def definitionList : Rule :=
  .pattern "definition-list" Listing.definitionListMatcher fun m => listBlock "dl" m.whole

end Markup.Block
