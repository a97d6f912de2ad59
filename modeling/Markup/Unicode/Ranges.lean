/-! # Tables of ranges

A character class is a table of ascending, disjoint ranges of code points, searched by halving. -/
namespace Markup

def inRangesBetween (table : Array (Nat × Nat)) (n lo hi : Nat) : Bool :=
  if _h : lo < hi then
    let mid := (lo + hi) / 2
    match table[mid]? with
    | none => false
    | some (first, last) =>
      if n < first then inRangesBetween table n lo mid
      else if last < n then inRangesBetween table n (mid + 1) hi
      else true
  else false
termination_by hi - lo

def inRanges (table : Array (Nat × Nat)) (n : Nat) : Bool := inRangesBetween table n 0 table.size

end Markup
