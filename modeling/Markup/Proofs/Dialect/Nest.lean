import Markup.Proofs.Document.Nest

/-! # Nested tags

The rules of a line leave their tags in the text, where the rules that run later may take one tag of a pair and not the
other. A superscript does so with an anchor, and a cell of a table with the anchor around its pipe; a definition takes
the closing tag of an item for its term. Where the signs of a line cannot get into each other's way, the tags of a
document are nested. -/
namespace Markup
variable {t : Text}

/-- A document in which no tag is written and no line is out of order: on a line with an arrow stand no pipe and no
caret, behind a caret begin no mention, tag, address and image, and no colon has only white space before it. It is
converted, and in its HTML every element is closed before the one around it. -/
theorem convert_nests_tags (ht : ¬ Token.marker <:+: t) (hsign : '<' ∉ t)
    (hlines : ∀ l ∈ t.lines, Line.Orderly l ∧ Line.Flush l) :
    (∃ html, dialect.Converts t html) ∧ ∀ html, dialect.Converts t html → Html.WellNested html := by
  refine ⟨dialect_converts t, fun html h => ?_⟩
  obtain ⟨s, hrun⟩ := Grammar.converts_iff.1 h
  obtain ⟨out, hout, rfl⟩ := (Document.runs_iff_unresolved ht).1 hrun
  exact (Document.tidy_of_unresolved ht hsign hlines hout).neat.wellNested

/-- A heading with an anchor, a list with a mention below an item, a row of a table, and a definition. -/
def tidyBlocks : Text := "# ->a(/b)\n\n* *c*^2\n* d\n    @e\n\n|f|\\||\n\ng:\n  h".toList

theorem convert_nests_tags_of_blocks :
    (¬ Token.marker <:+: tidyBlocks ∧ '<' ∉ tidyBlocks ∧ ∀ l ∈ tidyBlocks.lines, Line.Orderly l ∧ Line.Flush l) ∧
      (∃ html, dialect.Converts tidyBlocks html) ∧
        ∀ html, dialect.Converts tidyBlocks html → Html.WellNested html := by
  have ht : ¬ Token.marker <:+: tidyBlocks := by decide
  have hsign : '<' ∉ tidyBlocks := by decide
  have hlines : ∀ l ∈ tidyBlocks.lines, Line.Orderly l ∧ Line.Flush l := by decide
  exact ⟨⟨ht, hsign, hlines⟩, convert_nests_tags ht hsign hlines⟩

/-- The document has neither the marker nor a tag, and what it is converted to is not well nested. -/
def Crosses (t html : Text) : Prop :=
  (¬ Token.marker <:+: t ∧ '<' ∉ t) ∧ dialect.Converts t html ∧ ¬ Html.WellNested html

/-- A caret in the label of an anchor, a pipe in a label, and a colon below an item. -/
theorem tags_cross :
    Crosses "->x^2(http://x.com)".toList "<p>\n<a href=\"http://x.com\">x<sup>2</a></sup>\n</p>".toList ∧
    Crosses "|->a|b(/u)|".toList "<table>\n<tr><td><a href=\"/u\">a</td><td>b</a></td></tr></table>".toList ∧
    Crosses "* a\n    b\n  :\n  d".toList
      "<ul>\n<li>\n<p>\na<br>b\n</p>\n<dt></li></dt>\n<dd>\n<p>\nd\n</p></dd>\n\n</ul>".toList := by
  unfold Crosses
  refine ⟨⟨by decide, ⟨12, ?_⟩, by decide⟩, ⟨by decide, ⟨12, ?_⟩, by decide⟩, by decide, ⟨12, ?_⟩, by decide⟩
  all_goals decide +kernel

end Markup
