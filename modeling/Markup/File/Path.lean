import Markup.Text.Basic

/-! # Paths

A path is text; `/` separates its parts. The name of a path is its last part, when that is neither `..` nor missing;
empty parts and `.` behind it do not count. -/
namespace Markup.Path

def parts (p : Text) : List Text :=
  match p with
  | [] => [[]]
  | c :: t =>
    if c = '/' then [] :: parts t
    else match parts t with
      | [] => [[c]]
      | q :: qs => (c :: q) :: qs

/-- Whether a part leaves the place as it is. -/
def isIdle (part : Text) : Bool := part.isEmpty || part == ".".toList

def splitName? (p : Text) : Option (List Text × Text × List Text) :=
  match (parts p).reverse.dropWhile isIdle with
  | [] => none
  | name :: before =>
    if name = "..".toList then none
    else some (before.reverse, name, ((parts p).reverse.takeWhile isIdle).reverse)

/-- A name up to its last dot, and the extension after it; a dot at the beginning of a name starts no extension. -/
def stemAndExtension (name : Text) : Text × Option Text :=
  let extension := (name.reverse.takeWhile (· != '.')).reverse
  match (name.reverse.dropWhile (· != '.')).reverse.dropLast with
  | [] => (name, none)
  | stem => (stem, some extension)

/-- The path with `html` in the place of the extension of its name, or behind a name without one. Nothing follows the
new extension. A name that would be left with its dots alone becomes the parent directory. -/
def withHtml (p : Text) : Text :=
  match splitName? p with
  | none => p
  | some (before, name, behind) =>
    let stem := (stemAndExtension name).1
    let new := if stem = ".".toList ∧ behind = [] then "..".toList else stem ++ ".html".toList
    ['/'].intercalate (before ++ [new])

def relative (p : Text) : Text := ['/'].intercalate ((parts p).dropWhile isIdle)

end Markup.Path
