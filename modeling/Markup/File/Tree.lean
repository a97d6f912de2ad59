import Markup.File.Path
import Markup.Text.Position

/-! # File trees

A directory tree as far as converting documents can see it: which names lead to which contents, and why an access fails.
Paths start at the root of the tree; what lies outside of it is not known. -/
namespace Markup

inductive Content where
  | text (t : Text)
  | binary (bytes : List UInt8)
deriving DecidableEq, Repr

def Content.ofBytes (bytes : ByteArray) : Content :=
  match String.fromUTF8? bytes with
  | some s => .text s.toList
  | none => .binary bytes.toList

inductive FileError where
  | notFound
  | isADirectory
  | notADirectory
  | invalidData
  | nameTooLong
  | nulInPath
  | other (message : String)
deriving DecidableEq, Repr

def FileError.message : FileError → String
  | notFound => "No such file or directory (os error 2)"
  | isADirectory => "Is a directory (os error 21)"
  | notADirectory => "Not a directory (os error 20)"
  | invalidData => "stream did not contain valid UTF-8"
  | nameTooLong => "File name too long (os error 36)"
  | nulInPath => "file name contained an unexpected NUL byte"
  | other message => message

inductive Node where
  | file (content : Content)
  | directory
deriving DecidableEq, Repr

structure Tree where
  nodes : List (List Text × Node)
deriving DecidableEq, Repr

namespace Tree

/-- The node of a full name; a directory without an entry of its own is known by what it holds. -/
def node? (t : Tree) (name : List Text) : Option Node :=
  match t.nodes.find? (·.1 == name) with
  | some (_, n) => some n
  | none => if t.nodes.any fun (other, _) => name.isPrefixOf other then some .directory
            else if name.isEmpty then some .directory else none

def maxName : Nat := 255

def maxPath : Nat := 4095

/-- One part further from a directory; `none` is a place outside the tree. A name is looked up only in a directory, so
a name that is too long shows only there. -/
def step (t : Tree) (here : Option (List Text)) (part : Text) : Except FileError (Option (List Text)) := do
  match here with
  | none =>
    if part == "..".toList || Path.isIdle part then return none
    else if part.bytes > maxName then throw .nameTooLong
    else throw .notFound
  | some name =>
    match t.node? name with
    | none => throw .notFound
    | some (.file _) => throw .notADirectory
    | some .directory =>
      if Path.isIdle part then return some name
      else if part == "..".toList then
        return if name.isEmpty then none else some name.dropLast
      else if part.bytes > maxName then throw .nameTooLong
      else return some (name ++ [part])

/-- The full name that a path leads to, whether something has that name or not. A path from the root of the disk leads
out of the tree. -/
def resolve (t : Tree) (path : Text) : Except FileError (Option (List Text)) := do
  if path.contains '\x00' then throw .nulInPath
  if path.bytes > maxPath then throw .nameTooLong
  (Path.parts path).foldlM t.step (if path.head? = some '/' then none else some [])

def read (t : Tree) (path : Text) : Except FileError Text := do
  match ← t.resolve path with
  | none => throw .isADirectory
  | some name =>
    match t.node? name with
    | none => throw .notFound
    | some .directory => throw .isADirectory
    | some (.file (.binary _)) => throw .invalidData
    | some (.file (.text text)) => return text

def put (t : Tree) (name : List Text) (text : Text) : Tree :=
  let entry := (name, Node.file (.text text))
  if t.nodes.any (·.1 == name) then ⟨t.nodes.map fun n => if n.1 == name then entry else n⟩
  else ⟨t.nodes ++ [entry]⟩

def write (t : Tree) (path text : Text) : Except FileError Tree := do
  match ← t.resolve path with
  | none => throw .isADirectory
  | some name =>
    match t.node? name with
    | some .directory => throw .isADirectory
    | some (.file _) => return t.put name text
    | none => if t.node? name.dropLast = some .directory then return t.put name text else throw .notFound

def files (t : Tree) : List (Text × Content) :=
  t.nodes.filterMap fun
    | (name, .file content) => some (['/'].intercalate name, content)
    | (_, .directory) => none

end Tree
end Markup
