import Markup.Html
import Markup.Unicode.Space

/-! # Table cells

The body of a row is its text without the closing pipe. A cell is a run of pipes and the text up to the next pipe; the
number of pipes is the number of columns it spans. White space at the ends of a cell sets its alignment. -/
namespace Markup.Table

inductive Alignment where
  | left
  | right
  | center
deriving DecidableEq, Repr

namespace Alignment

def ofCell (cell : Text) : Alignment :=
  match cell with
  | first :: second :: rest =>
    if isSpace first then if isSpace ((second :: rest).getLast (by simp)) then center else right
    else left
  | _ => left

def name : Alignment → String
  | left => "Left"
  | right => "Right"
  | center => "Center"

def attributes : Alignment → List (String × Text)
  | left => []
  | right => [("style", "text-align:right".toList)]
  | center => [("style", "text-align:center".toList)]

end Alignment

structure Cell where
  text : Text
  colspan : Nat
deriving DecidableEq, Repr

/-- The cells of a row's body; what does not begin with a pipe has none. -/
def splitCells (body : Text) : List Cell :=
  match body with
  | '|' :: t =>
    ⟨(t.dropWhile (· == '|')).takeWhile (· != '|'), (t.takeWhile (· == '|')).length + 1⟩ ::
      splitCells ((t.dropWhile (· == '|')).dropWhile (· != '|'))
  | _ => []
termination_by body.length
decreasing_by
  have h₁ := (List.dropWhile_suffix (l := t.dropWhile (· == '|')) (· != '|')).length_le
  have h₂ := (List.dropWhile_suffix (l := t) (· == '|')).length_le
  simp only [List.length_cons]
  omega

def joinCells (cells : List Cell) : Text := cells.flatMap fun c => List.replicate c.colspan '|' ++ c.text

def Cell.render (tag : String) (c : Cell) : Text :=
  let colspan := if c.colspan > 1 then [("colspan", Nat.toDigits 10 c.colspan)] else []
  let attrs := Html.attributes (colspan ++ (Alignment.ofCell c.text).attributes)
  '<' :: tag.toList ++ attrs ++ '>' :: Text.trim c.text ++ "</".toList ++ tag.toList ++ ['>']

end Markup.Table
