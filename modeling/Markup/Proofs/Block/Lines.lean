import Markup.Dialect
import Markup.Proofs.Block.Shape
import Markup.Proofs.Listing.Seam
import Markup.Proofs.Seam.Rule

/-! # Blocks take whole lines

Every block rule puts one token in the place of the lines that it takes. -/
namespace Markup.Block
open Pattern Program
open Text (Starts)
variable {name mark tag : String} {m : Matcher} {f : Match → Program (Option Text)}

theorem onLines {m : Match} (h : OnLines m) :
    Starts m.before ∧ (m.after.head?.all (· == '\n') = true ∨ Starts m.whole) := by
  refine ⟨?_, .inl h.stop⟩
  rw [Match.before, Starts, List.getLast?_reverse]
  exact h.start

theorem hidesLines_of_onLines (h : ∀ t found, m.find [] t = some found → found.text = t ∧ OnLines found ∧
      (f found).Yields dialect fun new => ∃ n, new = Token.ofId n) : (Rule.pattern name m f).HidesLines dialect := by
  refine Rule.hidesLines_pattern fun t found hf => ?_
  obtain ⟨htext, hl, hy⟩ := h t found hf
  exact ⟨htext, (onLines hl).1, (onLines hl).2, hy⟩

theorem fenced_hidesLines (make : Text → Text)
    (hf : ∀ m text, m.group 1 = some text → f m = do return some (← Program.hide (make text))) :
    (Rule.pattern name (fenced mark).matcher f).HidesLines dialect := by
  refine hidesLines_of_onLines fun t found h => ?_
  obtain ⟨hl, text, -, -, hg⟩ := fenced_shape h
  have h₁ : found.group 1 = some text := by simp [Match.group, hg]
  rw [hf found text h₁]
  exact ⟨(takes_of_find h).1, hl, yields_hide fun n => yields_pure ⟨n, rfl⟩⟩

theorem quote_hidesLines : quote.HidesLines dialect :=
  fenced_hidesLines (fun text => Html.block "blockquote" (Text.breakLines text)) fun m text h => by simp only [h]

theorem horizontalRule_hidesLines : horizontalRule.HidesLines dialect :=
  hidesLines_of_onLines fun _ _ h =>
    ⟨(takes_of_find h).1, (horizontalRule_shape h).1, yields_token fun n => ⟨n, rfl⟩⟩

theorem titleWithSubtitle_hidesLines : titleWithSubtitle.HidesLines dialect := by
  refine hidesLines_of_onLines fun t found h => ?_
  obtain ⟨hl, title, -, -, subtitle, -, -, -, -, -, -, -, hg⟩ := titleWithSubtitle_shape h
  have h₁ : found.group 1 = some title := by simp [Match.group, hg]
  have h₂ : found.group 2 = some subtitle := by simp [Match.group, hg]
  simp only [h₁, h₂]
  exact ⟨(takes_of_find h).1, hl, yields_hide fun n => yields_pure ⟨n, rfl⟩⟩

theorem title_hidesLines : title.HidesLines dialect := by
  refine hidesLines_of_onLines fun t found h => ?_
  obtain ⟨hl, title, -, -, -, -, -, hg⟩ := title_shape h
  have h₁ : found.group 1 = some title := by simp [Match.group, hg]
  simp only [h₁]
  exact ⟨(takes_of_find h).1, hl, yields_hide fun n => yields_pure ⟨n, rfl⟩⟩

theorem heading_hidesLines : heading.HidesLines dialect := by
  refine hidesLines_of_onLines fun t found h => ?_
  obtain ⟨hl, hashes, -, text, -, -, -, -, -, -, hg⟩ := heading_shape h
  have h₁ : found.group 1 = some hashes := by simp [Match.group, hg]
  have h₂ : found.group 2 = some text := by simp [Match.group, hg]
  simp only [h₁, h₂]
  exact ⟨(takes_of_find h).1, hl, yields_hide fun n => yields_pure ⟨n, rfl⟩⟩

theorem table_hidesLines : table.HidesLines dialect :=
  hidesLines_of_onLines fun _ _ h =>
    ⟨(takes_of_find h).1, (table_shape h).1, yields_rerun fun _ => yields_hide fun n => yields_pure ⟨n, rfl⟩⟩

theorem listBlock_yields (tag : String) (text : Text) :
    (listBlock tag text).Yields dialect fun new => ∃ n, new = Token.ofId n :=
  yields_rerun fun _ => yields_hide fun n => yields_pure ⟨n, rfl⟩

theorem unorderedList_hidesLines : unorderedList.HidesLines dialect :=
  hidesLines_of_onLines fun _ _ h => ⟨(takes_of_find h).1, (unorderedList_shape h).1, listBlock_yields _ _⟩

theorem orderedList_hidesLines : orderedList.HidesLines dialect :=
  hidesLines_of_onLines fun _ _ h => ⟨(takes_of_find h).1, (orderedList_shape h).1, listBlock_yields _ _⟩

theorem definitionList_hidesLines : definitionList.HidesLines dialect := by
  refine Rule.hidesLines_pattern fun t found h => ?_
  obtain ⟨hstart, hstop⟩ := Listing.definitionList_lines h
  exact ⟨(Listing.definitionList_shape h).1, hstart, hstop.imp_left fun h => by rw [h]; rfl, listBlock_yields _ _⟩

theorem paragraph_hidesLines : paragraph.HidesLines dialect :=
  hidesLines_of_onLines fun _ _ h =>
    ⟨(paragraphScanner_lawful.search_hit h).1, (paragraph_shape h).1, yields_token fun n => ⟨n, rfl⟩⟩

end Markup.Block
