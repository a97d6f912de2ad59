import Markup.Rule.Basic

/-! # Replacement templates

A template builds a replacement from the groups of a match. A part that names a group which took no part in the match
declines it at once; tokens minted by the parts before stay minted. A template may also spare one text: a match of that
text is declined. -/
namespace Markup.Extension

inductive Part where
  | literal (t : Text)
  | group (index : Nat)
  | token (index : Nat)
  | run (stage : Stage) (index : Nat)

structure Template where
  parts : List Part
  spared : Option Text

def Part.expand (m : Match) : Part → Program (Option Text)
  | literal t => return some t
  | group i => return m.group i
  | token i => do
    let some t := m.group i | return none
    return some (← Program.hide t)
  | run stage i => do
    let some t := m.group i | return none
    return some (← Program.rerun stage t)

def expandAll (m : Match) : List Part → Program (Option Text)
  | [] => return some []
  | p :: ps => do
    let some t ← p.expand m | return none
    let some rest ← expandAll m ps | return none
    return some (t ++ rest)

/-- No template declines every match. -/
def expand (template : Option Template) (m : Match) : Program (Option Text) :=
  match template with
  | none => return none
  | some t => if t.spared = some m.whole then return none else expandAll m t.parts

inductive Edit where
  | nothing
  | blank
  | upper
  | append (t : Text)
  | tokenize
  | detokenize

def Edit.apply (text : Text) : Edit → Program (Option Text)
  | nothing => return none
  | blank => return some []
  | upper => return some (text.map Char.toUpper)
  | append t => return some (text ++ t)
  | tokenize => some <$> Program.hide text
  | detokenize => some <$> Program.reveal text

end Markup.Extension
