/-! # Stages

The five lists of rules a conversion can run over a text: the whole conversion, then what spans whole lines, the rows
inside a table, the items inside a list, and what stands inside a line. -/
namespace Markup

inductive Stage where
  | document
  | block
  | table
  | list
  | line
deriving DecidableEq, Repr

namespace Stage

def all : List Stage := [document, block, table, list, line]

def name : Stage → String
  | document => "document"
  | block => "block"
  | table => "table"
  | list => "list"
  | line => "line"

end Stage
end Markup
