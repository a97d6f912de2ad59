import Markup.Text.Basic
import Markup.Unicode.Printable

/-! # Quoted names

A name as diagnostics show it: between double quotes, printable characters as they are. -/
namespace Markup.Text

def quoteChar (c : Char) : Text :=
  if c = '"' ∨ c = '\\' then ['\\', c]
  else if c = '\n' then ['\\', 'n']
  else if c = '\r' then ['\\', 'r']
  else if c = '\t' then ['\\', 't']
  else if c = '\x00' then ['\\', '0']
  else if isPrintable c then [c]
  else "\\u\x7b".toList ++ Nat.toDigits 16 c.toNat ++ ['\x7d']

def quoted (t : Text) : Text := '"' :: t.flatMap quoteChar ++ ['"']

end Markup.Text
