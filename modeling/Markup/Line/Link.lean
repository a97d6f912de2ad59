import Markup.Html
import Markup.Pattern.Plan
import Markup.Rule.Basic

/-! # Links and images

`->address`, `->label(address)`, `[[source]]` and `[[label|source]]`. Addresses are hidden behind tokens, so that no
later rule reads into them; a label stays visible. -/
namespace Markup.Line
open Pattern

/-- Letters without regard to case; the long s and the Kelvin sign fold to ASCII letters too. -/
def isLetter (c : Char) : Bool := c.isAlpha || c == '\u017f' || c == '\u212a'

def isAddressChar (c : Char) : Bool := isLetter c || c.isDigit || "-._~:/?#[]@!$&'()*+,;=".toList.contains c

def address : Pattern :=
  atLeast 1 isLetter ++ word "://" ++ one (fun c => isLetter c || c.isDigit) ++ atLeast 0 isAddressChar <|>
  optional (word ".") ++ word "/" ++ atLeast 1 isAddressChar

/-- Group 1 is a bare address; groups 2 and 3 are a label and its address. -/
def linkPattern : Pattern :=
  word "->" ++ group 1 address <|>
  word "->" ++ group 2 (atLeast 1 fun c => c != '\n' && c != '(') ++
    word "(" ++ group 3 (atLeast 1 isAddressChar) ++ word ")"

def link : Rule := .pattern "link" linkPattern.matcher fun m => do
  if let (some label, some target) := (m.group 2, m.group 3) then
    let token ← Program.hide target
    return some (Html.anchor token label)
  let some target := m.group 1 | return none
  let token ← Program.hide target
  return some (Html.anchor token token)

def isImageChar (c : Char) : Bool := !"|[]<>\n".toList.contains c

def imagePattern : Pattern :=
  word "[[" ++ group 1 (atLeast 1 isImageChar) ++ optional (word "|" ++ group 2 (atLeast 0 isImageChar)) ++ word "]]"

/-- The first part is the label when there is a second one, and the source otherwise. -/
def image : Rule := .pattern "image" imagePattern.matcher fun m => do
  let some first := m.group 1 | return none
  let token ← Program.hide first
  match (m.group 2).filter (· ≠ []) with
  | some source =>
    let sourceToken ← Program.hide source
    return some (Html.image [("src", sourceToken), ("alt", token), ("title", token)])
  | none => return some (Html.image [("src", token), ("alt", [])])

end Markup.Line
