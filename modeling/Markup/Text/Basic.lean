/-! # Texts

A document is the list of its characters. Positions inside the library are cuts of such a list in two; byte
positions appear only at the edge (`Markup.Text.Position`). -/
namespace Markup

abbrev Text := List Char

namespace Text

@[simp] theorem isPrefixOf?_nil (t : Text) : List.isPrefixOf? [] t = some t := by cases t <;> rfl

@[simp] theorem isPrefixOf?_cons_nil (c : Char) (a : Text) : (c :: a).isPrefixOf? [] = none := rfl

@[simp] theorem isPrefixOf?_cons_cons (c d : Char) (a t : Text) :
    (c :: a).isPrefixOf? (d :: t) = if c == d then a.isPrefixOf? t else none := rfl

end Text

end Markup
