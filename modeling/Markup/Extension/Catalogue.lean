import Markup.Dialect
import Markup.Extension.Template

/-! # Rules to add to a grammar

Rules are described by a name, a matcher from the catalogue and a template, and put into the stages of a grammar. A
description with a malformed pattern or an unknown name builds nothing. -/
namespace Markup.Extension
open Pattern

inductive BuildError where
  | malformedPattern
  | unknown (name : String)
deriving DecidableEq, Repr

def matcher? (name : String) (needle : Text) : Except BuildError Matcher :=
  match name with
  | "literal" => .ok (literal needle).matcher
  | "digits" => .ok (atLeast 1 Char.isDigit).matcher
  | "kv" =>
    .ok (group 1 (atLeast 1 Char.isLower) ++ word "=" ++ optional (group 2 (atLeast 1 Char.isDigit))).matcher
  | "strike" => .ok (word "~~" ++ group 1 (atLeast 1 fun c => c != '~' && c != '\n') ++ word "~~").matcher
  | "braces" =>
    .ok (word "\x7b" ++ group 1 (atLeast 0 fun c => c != '\x7b' && c != '\x7d') ++ word "\x7d").matcher
  | "xs" => .ok (atLeast 0 (· == 'x')).matcher
  | "line" => .ok (lineStart ++ atLeast 0 Block.inLine ++ lineEnd).matcher
  | "emphasis" => .ok Line.emphasisMatcher
  | "list-item" => .ok Listing.itemMatcher
  | "definition" => .ok Listing.definitionMatcher
  | "definitions" => .ok Listing.definitionListMatcher
  | "broken-group" | "broken-class" | "broken-repeat" => .error .malformedPattern
  | _ => .error (.unknown name)

inductive RuleSpec where
  /-- A rule of the dialect, with its own replacement or another one. -/
  | builtin (stage : Stage) (name : String) (replace : Option (Option Template))
  | pattern (name matcher : String) (needle : Text) (replace : Option Template)
  | rerun (name : String) (stage : Stage)
  | transform (name : String) (edit : Edit)

def builtin? (stage : Stage) (name : String) : Except BuildError Rule :=
  match (dialect.rules stage).find? (·.name == name) with
  | some r => .ok r
  | none => .error (.unknown name)

def builtinMatcher? (stage : Stage) (name : String) : Except BuildError Matcher := do
  match (← builtin? stage name).action with
  | .pattern matcher _ => return matcher
  | .transform _ => throw (.unknown name)

def RuleSpec.build : RuleSpec → Except BuildError Rule
  | .builtin stage name none => builtin? stage name
  | .builtin stage name (some template) => do
    let r ← builtin? stage name
    match r.action with
    | .pattern matcher _ => return .pattern r.name matcher (expand template)
    | .transform _ => return r
  | .pattern name matcher needle template => do
    return .pattern name (← matcher? matcher needle) (expand template)
  | .rerun name stage => return .stage name stage
  | .transform name edit => return .transform name fun text => edit.apply text

/-- The grammar with the rules put, in order, after those of the stages they are meant for. -/
def extend (g : Grammar) (added : List (Stage × RuleSpec)) : Except BuildError Grammar :=
  added.foldlM (fun g (stage, spec) => return g.add stage (← spec.build)) g

end Markup.Extension
