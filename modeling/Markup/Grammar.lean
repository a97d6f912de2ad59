import Markup.Rule.Run

/-! # Grammars

A grammar gives every stage its rules. Rules may run stages again, so a run is bounded by fuel: each stage inside a
stage and each round of a rule takes one unit. What a run answers does not depend on the fuel, only whether it answers
(`Grammar.Runs`). -/
namespace Markup

structure Grammar where
  rules : Stage → List Rule

namespace Grammar

def empty : Grammar := ⟨fun _ => []⟩

def add (g : Grammar) (stage : Stage) (r : Rule) : Grammar :=
  ⟨fun s => if s = stage then g.rules s ++ [r] else g.rules s⟩

def run (g : Grammar) : (fuel : Nat) → Answer
  | 0 => fun _ _ _ => none
  | fuel + 1 => fun stage text store => applyAll (g.run fuel) fuel (g.rules stage) text store

/-- Runs rules of one's own with the stages of the grammar. -/
def runRules (g : Grammar) (fuel : Nat) (rules : List Rule) (text : Text) (store : Store) : Option (Text × Store) :=
  applyAll (g.run fuel) fuel rules text store

def convert (g : Grammar) (fuel : Nat) (text : Text) : Option Text := (g.run fuel .document text .empty).map Prod.fst

/-- The conversion of a document with as much fuel as it takes: `fuel` at first, and more until the run comes to an
end. -/
def convertFully (g : Grammar) (fuel : Nat) (text : Text) : Option Text :=
  repeatM (fun fuel => some ((g.convert fuel text).elim (.inl (2 * fuel + 1)) .inr)) fuel

def Runs (g : Grammar) (stage : Stage) (text : Text) (store : Store) (out : Text) (after : Store) : Prop :=
  ∃ fuel, g.run fuel stage text store = some (out, after)

def Converts (g : Grammar) (text html : Text) : Prop := ∃ fuel, g.convert fuel text = some html

end Grammar

/-- More than any run that fits in a machine can use. -/
def ampleFuel : Nat := Nat.pow 2 60

end Markup
