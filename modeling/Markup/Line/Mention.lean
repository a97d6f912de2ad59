import Markup.Line.Link

/-! # Mail addresses, mentions, tags and superscripts -/
namespace Markup.Line
open Pattern

def isHandleChar (c : Char) : Bool := isLetter c || c.isDigit || c == '_'

def mailPattern : Pattern :=
  wordEdge ++ atLeast 1 (fun c => isHandleChar c || c == '.') ++ word "@" ++
    atLeast 1 (fun c => isHandleChar c || c == '.' || c == '-') ++ word "." ++ run isLetter 2 (some 10) true ++ wordEdge

def mail : Rule := .pattern "email" mailPattern.matcher fun m => do
  let token ← Program.hide m.whole
  return some (Html.anchor ("mailto:".toList ++ token) token)

def mention : Rule := .pattern "mention" (matcher (word "@" ++ group 1 (atLeast 1 isHandleChar))) fun m => do
  let some name := m.group 1 | return none
  let token ← Program.hide name
  return some (Html.anchor ("http://twitter.com/".toList ++ token) ('@' :: token))

def hashtag : Rule := .pattern "hashtag" (matcher (word "#" ++ group 1 (atLeast 1 isHandleChar))) fun m => do
  let some tag := m.group 1 | return none
  let token ← Program.hide tag
  return some (Html.anchor ("http://twitter.com/search?q=%23".toList ++ token ++ "&src=hash".toList) ('#' :: token))

/-- A caret raises the parenthesis after it, up to the first closing one, or else everything up to white space. -/
def superscriptPattern : Pattern :=
  word "^" ++ group 1 (word "(" ++ reluctant (· != '\n') ++ word ")" <|> atLeast 1 (!isSpace ·))

def superscript : Rule := .pattern "superscript" superscriptPattern.matcher fun m => do
  let some content := m.group 1 | return none
  let inner ← Program.rerun .line content
  let token ← Program.hide inner
  return some (Html.element "sup" token)

end Markup.Line
