import Markup.Extension.Catalogue
import Markup.Main
import Markup.Proofs.Run
import Markup.Proofs.Weight
import Markup.Proofs.Pattern.Takes
import Markup.Proofs.Ends
import Markup.Proofs.Line.Shape
import Markup.Proofs.Block.Shape
import Markup.Proofs.Listing.Shape
import Markup.Proofs.Html
import Markup.Proofs.Line.Ends
import Markup.Proofs.Block.Ends
import Markup.Proofs.Dialect.Ends
import Markup.Proofs.Script.Basic
import Markup.Proofs.Script.Walk
import Markup.Proofs.Script.Search
import Markup.Proofs.Script.Lines
import Markup.Proofs.Line.Twin
import Markup.Proofs.Block.Twin
import Markup.Proofs.Listing.Twin
import Markup.Proofs.Script.Linked
import Markup.Proofs.Rule.Twin
import Markup.Proofs.Line.Rules
import Markup.Proofs.Table.Rules
import Markup.Proofs.Listing.Rules
import Markup.Proofs.Block.Rules
import Markup.Proofs.Document.Rules
import Markup.Proofs.Dialect.Twin
import Markup.Proofs.Dialect.Tokens
import Markup.Proofs.Seam.Rule
import Markup.Proofs.Seam.Walk
import Markup.Proofs.Line.Seam
import Markup.Proofs.Block.Seam
import Markup.Proofs.Listing.Seam
import Markup.Proofs.Dialect.Extension
import Markup.Proofs.Dialect.Seam
import Markup.Proofs.Dialect.Tally
import Markup.Proofs.Block.Hole
import Markup.Proofs.Dialect.Blind
import Markup.Proofs.Block.Bullets
import Markup.Proofs.Block.Fence
import Markup.Proofs.Block.Paragraph
import Markup.Proofs.Dialect.Code
import Markup.Proofs.Dialect.Literal
import Markup.Proofs.Dialect.Outline
import Markup.Proofs.Dialect.Prose
import Markup.Proofs.Rule.Context
import Markup.Proofs.Token.Shield
import Markup.Proofs.Dialect.Saturation
import Markup.Proofs.CommandLine.Written
import Markup.Proofs.Position.Basic
import Markup.Proofs.Position.Loop
import Markup.Proofs.Position.Stable
import Markup.Proofs.Dialect.Lines
import Markup.Proofs.Position.Emphasis
import Markup.Proofs.Position.Pattern
import Markup.Proofs.Position.Item
import Markup.Proofs.Position.Paragraph
import Markup.Proofs.Position.Term
import Markup.Proofs.Position.Body
import Markup.Proofs.Position.Definition
import Markup.Proofs.Position.Scanners
import Markup.Proofs.Line.Enclosed
import Markup.Proofs.Table.Lines
import Markup.Proofs.Table.Cells
import Markup.Proofs.Block.Settled
import Markup.Proofs.Listing.Continued
import Markup.Proofs.Position.First
import Markup.Proofs.Listing.Stands
import Markup.Proofs.Listing.Described
import Markup.Proofs.Listing.Apart
import Markup.Proofs.Dialect.Again
import Markup.Proofs.Dialect.Trailing
import Markup.Proofs.Listing.Phrase
import Markup.Proofs.Dialect.Phrases
import Markup.Proofs.Block.OneLine
import Markup.Proofs.Seam.Front
import Markup.Proofs.Dialect.Typed
import Markup.Proofs.Line.Address
import Markup.Proofs.Dialect.Address
import Markup.Proofs.Token.Readers
import Markup.Proofs.CommandLine.Printed
import Markup.Proofs.Dialect.Nest
