import Markup.Html
import Markup.Match
import Markup.Rule.Basic
import Markup.Text.Lines

/-! # Paragraphs

A paragraph is as many lines in a row as are neither empty nor begin with a token. -/
namespace Markup.Block

def isProse (l : Text) : Bool := !l.isEmpty && !Token.leads l

def paragraphScanner : Scanner := fun prev t =>
  if prev.all (· == '\n') && isProse (Text.line t) then
    some ⟨Text.joinLines ((Text.lines t).takeWhile isProse), Text.startLines ((Text.lines t).dropWhile isProse), []⟩
  else none

def paragraphMatcher : Matcher := .ofScanner paragraphScanner .never

def paragraph : Rule := .pattern "paragraph" paragraphMatcher fun m =>
  some <$> Program.hide (Html.block "p" (Text.breakLines m.whole))

end Markup.Block
