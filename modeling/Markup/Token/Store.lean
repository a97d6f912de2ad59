import Markup.Token.Basic

/-! # Token stores

A store holds the texts that tokens stand for; the number of a token is its index. Resolving a text puts the value of
every token in its place, and a value sees only the tokens minted before it, so resolution ends. -/
namespace Markup

structure Store where
  values : Array Text
deriving DecidableEq, Repr

namespace Store

def empty : Store := ⟨#[]⟩

def size (s : Store) : Nat := s.values.size

def isEmpty (s : Store) : Bool := s.values.isEmpty

def mint (s : Store) (value : Text) : Text × Store := (Token.ofId s.size, ⟨s.values.push value⟩)

/-- The value of a text that is exactly a token, as it was minted. -/
def get? (s : Store) (t : Text) : Option Text := do
  let id ← Token.id? t
  s.values[id]?

/-- The text with the tokens below `limit` resolved, each from the tokens below its own number; all else stays as
it is. -/
def resolve (s : Store) (limit : Nat) (t : Text) : Text :=
  (Token.pieces t).flatMap fun piece =>
    match piece.id? with
    | none => piece.text
    | some id =>
      if _h : id < limit then
        match s.values[id]? with
        | some value => s.resolve id value
        | none => piece.text
      else piece.text
termination_by limit
decreasing_by exact _h

def detokenize (s : Store) (t : Text) : Text := s.resolve s.size t

end Store
end Markup
