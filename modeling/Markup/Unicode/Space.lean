/-! # White space

The characters of the Unicode property `White_Space`. Every mention of white space in the dialect means this class;
zero-width characters such as U+200B and U+FEFF are not in it. -/
namespace Markup

def isSpace (c : Char) : Bool :=
  let n := c.toNat
  (0x9 ≤ n && n ≤ 0xD) || n == 0x20 || n == 0x85 || n == 0xA0 || n == 0x1680 || (0x2000 ≤ n && n ≤ 0x200A) ||
    n == 0x2028 || n == 0x2029 || n == 0x202F || n == 0x205F || n == 0x3000

def isIndent (c : Char) : Bool := isSpace c && c != '\n'

theorem isSpace_newline : isSpace '\n' = true := rfl

theorem isSpace_of_isIndent {c : Char} (h : isIndent c = true) : isSpace c = true := by
  simp_all [isIndent]

theorem ne_newline_of_isIndent {c : Char} (h : isIndent c = true) : c ≠ '\n' := by
  simp_all [isIndent]

namespace Text

def trim (t : List Char) : List Char :=
  ((t.dropWhile isSpace).reverse.dropWhile isSpace).reverse

end Text
end Markup
