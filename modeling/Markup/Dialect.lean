import Markup.Block.Paragraph
import Markup.Document
import Markup.Line.Emphasis
import Markup.Line.Mention
import Markup.Listing.Item
import Markup.Grammar
import Markup.Table.Row

/-! # The dialect

The grammar that documents are converted with unless rules are added to it. -/
namespace Markup

def Line.rules : List Rule := [emphasis, link, image, mail, mention, hashtag, superscript]

def Block.rules : List Rule :=
  [quote, horizontalRule, titleWithSubtitle, title, heading, table, unorderedList, orderedList,
    definitionList, paragraph]

def Listing.rules : List Rule := [item, definition]

def dialect : Grammar where
  rules
    | .document => Document.rules
    | .block => Block.rules
    | .table => [Table.row]
    | .list => Listing.rules
    | .line => Line.rules

end Markup
