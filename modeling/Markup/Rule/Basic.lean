import Markup.Match
import Markup.Rule.Program
import Markup.Text.Quoted

/-! # Rules

A pattern rule replaces one match at a time and starts over until nothing is left to replace. A transform changes the
whole text once. -/
namespace Markup

inductive Action where
  /-- A replacement that is missing, or equal to the match, declines the match. -/
  | pattern (matcher : Matcher) (replace : Match → Program (Option Text))
  /-- A new text that is missing or empty leaves the text as it is. -/
  | transform (change : Text → Program (Option Text))

structure Rule where
  name : String
  action : Action

namespace Rule

def pattern (name : String) (matcher : Matcher) (replace : Match → Program (Option Text)) : Rule :=
  ⟨name, .pattern matcher replace⟩

def transform (name : String) (change : Text → Program (Option Text)) : Rule := ⟨name, .transform change⟩

def stage (name : String) (stage : Stage) : Rule := transform name fun t => some <$> Program.rerun stage t

def kind (r : Rule) : String :=
  match r.action with
  | .pattern _ _ => "pattern"
  | .transform _ => "transform"

def describe (r : Rule) : Text :=
  "Rule \x7b name: ".toList ++ Text.quoted r.name.toList ++ ", kind: ".toList ++ Text.quoted r.kind.toList ++
    " \x7d".toList

end Rule
end Markup
