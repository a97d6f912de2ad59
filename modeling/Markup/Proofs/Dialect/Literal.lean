import Markup.Proofs.Document.Escape
import Markup.Proofs.Line.Quiet

/-! # Literal lines

A line in which everything that could mean something is escaped shows itself. It is a paragraph, unless it begins with a
token. -/
namespace Markup
open Grammar
open Document (needsEscape escaped tokened hidden)
variable {t : Text}

theorem isProse_tokened (hne : t ≠ []) (n : Nat) : Block.isProse (tokened n t) = !t.head?.any needsEscape := by
  obtain ⟨c, t, rfl⟩ := List.exists_cons_of_ne_nil hne
  cases hc : needsEscape c with
  | true =>
    rw [Document.tokened_cons hc, Block.isProse, Token.leads_ofId]
    simp [hc]
  | false =>
    have hsemi : ';' ≠ c := Ne.symm (Document.ne_of_plain hc (by decide))
    have hleads : Token.leads (c :: tokened n t) = false := by
      rw [Token.leads, Token.marker]
      simp [hsemi]
    rw [Document.tokened_cons_of_plain hc, Block.isProse, hleads]
    simp [hc]

/-- A line with everything escaped is literal. -/
theorem escaped_line_is_literal (hne : t ≠ []) (hline : '\n' ∉ t) (hscore : '_' ∉ t)
    (hlast : ∀ c ∈ t.getLast?, isSpace c = false) :
    dialect.Converts (escaped t)
      (if t.head?.any needsEscape then t else "<p>\n".toList ++ t ++ "\n</p>".toList) := by
  have hfree {c : Char} (hc : needsEscape c = true ∧ c ∉ Token.alphabet) : c ∉ tokened 0 t :=
    Document.not_mem_tokened hc 0
  have hstar : '*' ∉ tokened 0 t := hfree (by decide)
  have hemphasis := Line.emphasis_quiet (hfree (by decide)) hstar
  have hrules : ∀ r ∈ Line.rules, r.Quiet (tokened 0 t) := Line.rules_quiet hemphasis fun c hc =>
    hfree ((by decide : ∀ c ∈ Line.signs, needsEscape c = true ∧ c ∉ Token.alphabet) c hc)
  have hmarked : ∀ r ∈ Block.marked, r.Quiet (tokened 0 t) :=
    Block.marked_quiet hstar (Block.isNumbered_eq_false (hfree (by decide))) fun c hc =>
      hfree ((by decide : ∀ c ∈ Block.signs, needsEscape c = true ∧ c ∉ Token.alphabet) c hc)
  have hlines : (tokened 0 t).lines = [tokened 0 t] :=
    Text.lines_eq_singleton (Document.newline_not_mem_tokened hline 0)
  have hshow : ∀ l ∈ (tokened 0 t).lines, Shows (Store.empty.mintAll (hidden t)) l t := by
    rw [hlines, List.forall_mem_singleton]
    exact Document.shows_tokened t .empty
  have hhtml : (if t.head?.any needsEscape then t else "<p>\n".toList ++ t ++ "\n</p>".toList) =
      Text.joinLines ((Text.stretches Block.isProse (tokened 0 t).lines).map (Block.stretchHtml fun _ => t)) := by
    have hstretches : Text.stretches Block.isProse [tokened 0 t] = [[tokened 0 t]] := rfl
    rw [hlines, hstretches, List.map_singleton, Text.joinLines_singleton, Block.stretchHtml]
    cases hc : t.head?.any needsEscape <;>
      simp [isProse_tokened hne, hc, Text.joinLines_singleton, Block.paragraphOf, Html.block, Html.element]
  rw [hhtml]
  exact Document.converts_of_quiet (Document.applies_preparation_escaped hline hscore hlast .empty) hrules hmarked hshow

/-- A text that spells a token, and one with a backslash in it. -/
theorem escaped_line_is_literal_of_placeholder :
    (";;xsv;0; \\".toList ≠ [] ∧ '\n' ∉ ";;xsv;0; \\".toList ∧ '_' ∉ ";;xsv;0; \\".toList ∧
      ∀ c ∈ ";;xsv;0; \\".toList.getLast?, isSpace c = false) ∧
    dialect.Converts "\\;\\;xsv\\;0\\; \\\\".toList ";;xsv;0; \\".toList := by
  have hne : ";;xsv;0; \\".toList ≠ [] := by decide
  have hline : '\n' ∉ ";;xsv;0; \\".toList := by decide
  have hscore : '_' ∉ ";;xsv;0; \\".toList := by decide
  have hlast : ∀ c ∈ ";;xsv;0; \\".toList.getLast?, isSpace c = false := fun c hc => by
    obtain rfl : '\\' = c := by simpa using hc
    decide
  exact ⟨⟨hne, hline, hscore, hlast⟩, escaped_line_is_literal hne hline hscore hlast⟩

end Markup
