import Markup.Dialect
import Markup.File.Tree

/-! # Converting files

Reads a document, converts it, and where asked writes the fragment next to it. Any place that can read and write texts
will do: a tree, or the disk. -/
namespace Markup

structure Storage (m : Type → Type) where
  read : (path : Text) → m (Except FileError Text)
  write : (path text : Text) → m (Except FileError Unit)

def Tree.storage : Storage (StateM Tree) where
  read path := return (← get).read path
  write path text := do
    match (← get).write path text with
    | .ok t => set t; return .ok ()
    | .error e => return .error e

/-- The fragment of a document. There is more fuel behind `ampleFuel`, so that no document is too long for it. -/
def html (text : Text) : Text :=
  match dialect.convert ampleFuel text with
  | some fragment => fragment
  | none => (dialect.convertFully ampleFuel text).getD []

section
variable {m : Type → Type} [Monad m]

def convertFile (s : Storage m) (path : Text) : m (Except FileError Text) := do
  return (← s.read path).map html

def writeHtml (s : Storage m) (path : Text) : m (Except FileError Text) := do
  match ← convertFile s path with
  | .error e => return .error e
  | .ok fragment =>
    match ← s.write (Path.withHtml path) (fragment ++ ['\n']) with
    | .error e => return .error e
    | .ok () => return .ok (Path.withHtml path)

end
end Markup
