import Markup.Rule.Basic

/-! # Running rules

Rules run in order, each until it has nothing left to do. Rules may ask for stages, so running them needs a way to
answer such requests, and fuel for the rounds of a pattern rule. -/
namespace Markup

/-- How a stage is answered: the new text and the new store, or nothing when the fuel is used up. -/
abbrev Answer := Stage → Text → Store → Option (Text × Store)

/-- Where the search goes on after a declined match; an empty match is left by one character. -/
def Match.resume (m : Match) : Option (Text × Text) :=
  match m.whole, m.after with
  | [], [] => none
  | [], c :: rest => some (c :: m.behind, rest)
  | w, rest => some (w.reverse ++ m.behind, rest)

/-- Replaces the first match in `ahead`, over and over, until none is left that is not declined. The text before
`ahead` is `behind`, its last character first, and after a replacement the search begins at its start again. -/
def saturate (answer : Answer) (matcher : Matcher) (replace : Match → Program (Option Text)) :
    (fuel : Nat) → (behind ahead : Text) → Store → Option (Text × Store)
  | 0, _, _, _ => none
  | fuel + 1, behind, ahead, store =>
    match matcher.find behind ahead with
    | none => some (behind.reverse ++ ahead, store)
    | some found =>
      match (replace found).eval answer store with
      | none => none
      | some (replacement, store) =>
        match replacement.filter (· ≠ found.whole) with
        | some new => saturate answer matcher replace fuel [] (found.replaceBy new) store
        | none =>
          match found.resume with
          | some (behind, ahead) => saturate answer matcher replace fuel behind ahead store
          | none => some (found.text, store)

def Rule.apply (answer : Answer) (fuel : Nat) (r : Rule) (text : Text) (store : Store) : Option (Text × Store) :=
  match r.action with
  | .pattern matcher replace => saturate answer matcher replace fuel [] text store
  | .transform change =>
    match (change text).eval answer store with
    | none => none
    | some (result, store) => some ((result.filter (· ≠ [])).getD text, store)

def applyAll (answer : Answer) (fuel : Nat) : List Rule → Text → Store → Option (Text × Store)
  | [], text, store => some (text, store)
  | r :: rules, text, store =>
    match r.apply answer fuel text store with
    | some (text, store) => applyAll answer fuel rules text store
    | none => none

end Markup
