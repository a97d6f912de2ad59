import Markup.Proofs.Block.Bullets
import Markup.Proofs.Document.Quiet
import Markup.Proofs.Line.Quiet

/-! # Documents that are bulleted lists

Where every line is an entry and nothing but its bullet is a mark, the document is shown as its items. -/
namespace Markup.Document
open Grammar Listing
open Text (joinLines)
variable {c items html : Text} {ls : List Text} {s s₁ : Store} (hc : Flush c) (hls : ∀ l ∈ ls, IsEntry l)

/-- The marks of all rules but for bullets and numbers. -/
def signs : Text := '@' :: '\\' :: ';' :: '_' :: (Line.signs ++ Block.signs)

include hc hls

/-- The block rules hide a list behind a token, and the token is no paragraph. -/
theorem runs_entries (hfree : ∀ l ∈ entry 0 c :: ls, ∀ d ∈ Block.signs, d ∉ l)
    (hrun : dialect.Runs .list (joinLines (entry 0 c :: ls)) s items s₁) :
    dialect.Runs .block (joinLines (entry 0 c :: ls)) s (Token.ofId s₁.size) (s₁.mint (Html.block "ul" items)).2 := by
  have hnothing : ∀ l ∈ ([] : List Text), '\n' ∉ l := fun l hl => absurd hl List.not_mem_nil
  have hmarked := Block.appliesAll_marked hnothing (fun l hl => absurd hl List.not_mem_nil) hc hls hfree hrun
  rw [List.nil_append, List.nil_append, Text.joinLines_singleton] at hmarked
  have hbreak : ∀ l ∈ [Token.ofId s₁.size], '\n' ∉ l := by simpa using Token.not_mem_ofId (by decide) s₁.size
  have hnone := Block.find_eq_none hbreak (by simpa using Block.isProse_ofId s₁.size)
  rw [Text.joinLines_singleton] at hnone
  have hparagraph : dialect.Applies Block.paragraph (Token.ofId s₁.size) _ _ _ :=
    saturates_done hnone (s₁.mint (Html.block "ul" items)).2
  exact runs_iff.2 (appliesAll_append.2 ⟨_, _, hmarked, appliesAll_cons.2 ⟨_, _, hparagraph, appliesAll_nil⟩⟩)

theorem converts_entries (hfree : ∀ l ∈ entry 0 c :: ls, ∀ d ∈ signs, d ∉ l)
    (hspaced : ∀ l ∈ entry 0 c :: ls, l.IsChain Line.Spaced) (htrim : ∀ l ∈ entry 0 c :: ls, l.trimEnd = l)
    (hrun : dialect.Runs .list (joinLines (entry 0 c :: ls)) .empty items s₁) (hshow : Shows s₁ items html) :
    dialect.Converts (joinLines (entry 0 c :: ls)) (Html.block "ul" html) := by
  have hbreak : ∀ l ∈ entry 0 c :: ls, '\n' ∉ l := by
    refine List.forall_mem_cons.2 ⟨newline_not_mem_entry hc 0, fun l hl => ?_⟩
    obtain ⟨depth, d, hd, rfl⟩ := hls l hl
    exact newline_not_mem_entry hd depth
  have hsigns : ∀ d ∈ signs, d ≠ '\n' := by decide
  have hmem {d : Char} (hd : d ∈ signs) : d ∉ joinLines (entry 0 c :: ls) := fun h => by
    obtain ⟨l, hl, hdl⟩ := Text.mem_of_mem_joinLines (hsigns d hd) h
    exact hfree l hl d hd hdl
  have hprep := applies_preparation (hmem (by decide)) (hmem (by decide)) .empty
  rw [Text.trimLines_eq_self (by rwa [Text.lines_joinLines (List.cons_ne_nil _ _) hbreak])] at hprep
  have hemphasis := Line.emphasis_quiet_of_isChain (hmem (by decide)) (Line.isChain_spaced_joinLines hspaced)
  have hline : dialect.Runs .line (joinLines (entry 0 c :: ls)) .empty _ _ :=
    runs_iff.2 (appliesAll_quiet (Line.rules_quiet hemphasis fun d hd =>
      hmem ((by decide : ∀ d ∈ Line.signs, d ∈ signs) d hd)) .empty)
  have hblock := runs_entries hc hls (fun l hl d hd =>
    hfree l hl d ((by decide : ∀ d ∈ Block.signs, d ∈ signs) d hd)) hrun
  have htag : ';' ∉ "ul".toList := by decide
  have hlist := (hshow.block htag).token (Html.block_ne_nil _ _)
  exact converts_of_shows hprep (Shows.of_not_mem (hmem (by decide))).sound hline hblock hlist

end Markup.Document
