import Markup.Text.Basic

/-! # HTML

The elements that rules write around their contents. -/
namespace Markup.Html

def element (tag : String) (inner : Text) : Text :=
  '<' :: tag.toList ++ '>' :: inner ++ "</".toList ++ tag.toList ++ ['>']

def block (tag : String) (inner : Text) : Text := element tag ('\n' :: inner ++ ['\n'])

def attributes (attrs : List (String × Text)) : Text :=
  attrs.flatMap fun (name, value) => ' ' :: name.toList ++ "=\"".toList ++ value ++ ['"']

def anchor (target label : Text) : Text :=
  "<a".toList ++ attributes [("href", target)] ++ '>' :: label ++ "</a>".toList

def image (attrs : List (String × Text)) : Text := "<img".toList ++ attributes attrs ++ ['>']

end Markup.Html
