import Markup.Proofs.Document.Quiet
import Markup.Proofs.Line.Quiet

/-! # Plain text

A text without marks is its paragraphs: no rule but those for white space and for paragraphs finds anything in it. -/
namespace Markup
open Grammar
open Text (trimLines trimEnd stretches Stretch joinLines startLines)
variable {t : Text} {ls g : List Text} {gs : List (List Text)}

/-- The characters that no plain text has. -/
def marks : Text := "@\\_*-[^#\"=|:;".toList

/-- The lines without white space at their ends, with each longest run of lines that hold something as a paragraph. -/
def paragraphed (t : Text) : Text :=
  joinLines <| (stretches (!·.isEmpty) (t.lines.map trimEnd)).map fun g =>
    if g = [[]] then [] else "<p>\n".toList ++ "<br>".toList.intercalate g ++ "\n</p>".toList

theorem paragraphed_eq (hsemi : ';' ∉ t) :
    paragraphed t = joinLines ((stretches Block.isProse (trimLines t).lines).map (Block.stretchHtml id)) := by
  have hlines : ∀ l ∈ (trimLines t).lines, ';' ∉ l := fun _ => Text.not_mem_of_mem_lines_trimLines hsemi
  have hstretches : stretches Block.isProse (trimLines t).lines = stretches (!·.isEmpty) (trimLines t).lines :=
    Text.stretches_congr fun l hl => Block.isProse_eq (hlines l hl)
  rw [paragraphed, ← Text.lines_trimLines, ← hstretches]
  refine congrArg joinLines (List.map_congr_left fun g hg => ?_)
  have hmem {l : Text} (hl : l ∈ g) : l ∈ (trimLines t).lines := by
    rw [← Text.flatten_stretches Block.isProse (trimLines t).lines]
    exact List.mem_flatten_of_mem hg hl
  obtain ⟨-, hprose | ⟨l, rfl, hl⟩⟩ := Text.stretch_of_mem hg
  · have hne : g ≠ [[]] := by
      rintro rfl
      exact absurd (hprose [] (List.mem_singleton_self [])) (by decide)
    rw [if_neg hne, Block.stretchHtml, if_pos (List.all_eq_true.2 hprose), List.map_id]
    simp [Block.paragraphOf, Html.block, Html.element]
  · have hnil : l = [] := by
      rw [Block.isProse_eq (hlines l (hmem (List.mem_singleton_self l)))] at hl
      simpa using hl
    subst hnil
    rfl

theorem isNumbered_of_trimEnd {l : Text} (h : Block.isNumbered l.trimEnd = true) : Block.isNumbered l = true := by
  obtain ⟨w, hw, -⟩ := Text.exists_eq_trimEnd_append l
  obtain ⟨digits, rest, hne, hd, hl⟩ := Block.exists_of_isNumbered h
  rw [hw, hl, List.append_assoc, List.cons_append]
  exact Block.isNumbered_append hne hd

/-- A plain text is its paragraphs. -/
theorem plain_text_is_its_paragraphs (hmarks : ∀ c ∈ t, c ∉ marks)
    (hnumbered : ∀ l ∈ t.lines, Block.isNumbered l = false) : dialect.Converts t (paragraphed t) := by
  have hfree {c : Char} (hc : c ∈ marks) : c ∉ trimLines t :=
    Text.not_mem_trimLines (fun h => absurd (h ▸ hc) (by decide)) fun hmem => hmarks c hmem hc
  have hlists : ∀ l ∈ (trimLines t).lines, Block.isNumbered l = false := by
    rw [Text.lines_trimLines, List.forall_mem_map]
    intro l hl
    cases h : Block.isNumbered l.trimEnd with
    | false => rfl
    | true => exact absurd (isNumbered_of_trimEnd h) (by simp [hnumbered l hl])
  have hsemi : ';' ∉ t := fun h => hmarks _ h (by decide)
  have hemphasis := Line.emphasis_quiet (hfree (by decide)) (hfree (by decide))
  have hline : ∀ r ∈ Line.rules, r.Quiet (trimLines t) := Line.rules_quiet hemphasis fun c hc =>
    hfree ((by decide : ∀ c ∈ Line.signs, c ∈ marks) c hc)
  have hmarked : ∀ r ∈ Block.marked, r.Quiet (trimLines t) := Block.marked_quiet (hfree (by decide)) hlists fun c hc =>
    hfree ((by decide : ∀ c ∈ Block.signs, c ∈ marks) c hc)
  have hprep := Document.applies_preparation (fun h => hmarks _ h (by decide)) (fun h => hmarks _ h (by decide)) .empty
  rw [paragraphed_eq hsemi]
  exact Document.converts_of_quiet hprep hline hmarked fun l hl =>
    Shows.of_not_mem (Text.not_mem_of_mem_lines_trimLines hsemi hl)

/-- Two paragraphs with an empty line between them, which holds white space. -/
theorem plain_text_is_its_paragraphs_of_two :
    (∀ c ∈ "one \n two\n\t\n3 three".toList, c ∉ marks) ∧
    (∀ l ∈ Text.lines "one \n two\n\t\n3 three".toList, Block.isNumbered l = false) ∧
    dialect.Converts "one \n two\n\t\n3 three".toList "<p>\none<br> two\n</p>\n\n<p>\n3 three\n</p>".toList := by
  have hmarks : ∀ c ∈ "one \n two\n\t\n3 three".toList, c ∉ marks := by decide
  have hnumbered : ∀ l ∈ Text.lines "one \n two\n\t\n3 three".toList, Block.isNumbered l = false := by decide
  have hhtml : paragraphed "one \n two\n\t\n3 three".toList =
      "<p>\none<br> two\n</p>\n\n<p>\n3 three\n</p>".toList := by decide
  exact ⟨hmarks, hnumbered, hhtml ▸ plain_text_is_its_paragraphs hmarks hnumbered⟩

end Markup
