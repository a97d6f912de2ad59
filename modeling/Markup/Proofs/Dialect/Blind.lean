import Markup.Dialect
import Markup.Proofs.Rule.Blind

/-! # The rules of the dialect do not look into the store

Nothing but the last rule of a document resolves tokens. -/
namespace Markup
open Program

theorem Rule.blind_pattern {name : String} {m : Matcher} {f : Match → Program (Option Text)} (h : ∀ m, (f m).Blind) :
    (pattern name m f).Blind := h

namespace Line

theorem emphasis_blind : emphasis.Blind := Rule.blind_pattern fun m => by
  split
  · split
    · exact blind_rerun (by decide) fun _ => blind_hide fun _ => blind_pure _
    · exact blind_pure _
  · exact blind_pure _

theorem link_blind : link.Blind := Rule.blind_pattern fun m => by
  split
  · exact blind_hide fun _ => blind_pure _
  · split
    · exact blind_hide fun _ => blind_pure _
    · exact blind_pure _

theorem image_blind : image.Blind := Rule.blind_pattern fun m => by
  split
  · refine blind_hide fun _ => ?_
    split
    · exact blind_hide fun _ => blind_pure _
    · exact blind_pure _
  · exact blind_pure _

theorem mail_blind : mail.Blind := Rule.blind_pattern fun _ => blind_hide fun _ => blind_pure _

theorem mention_blind : mention.Blind := Rule.blind_pattern fun m => by
  split
  · exact blind_hide fun _ => blind_pure _
  · exact blind_pure _

theorem hashtag_blind : hashtag.Blind := Rule.blind_pattern fun m => by
  split
  · exact blind_hide fun _ => blind_pure _
  · exact blind_pure _

theorem superscript_blind : superscript.Blind := Rule.blind_pattern fun m => by
  split
  · exact blind_rerun (by decide) fun _ => blind_hide fun _ => blind_pure _
  · exact blind_pure _

end Line

namespace Block

theorem quote_blind : quote.Blind := Rule.blind_pattern fun m => by
  split
  · exact blind_hide fun _ => blind_pure _
  · exact blind_pure _

theorem horizontalRule_blind : horizontalRule.Blind := Rule.blind_pattern fun _ => blind_hidden _

theorem titleWithSubtitle_blind : titleWithSubtitle.Blind := Rule.blind_pattern fun m => by
  split
  · split
    · exact blind_hide fun _ => blind_pure _
    · exact blind_pure _
  · exact blind_pure _

theorem title_blind : title.Blind := Rule.blind_pattern fun m => by
  split
  · exact blind_hide fun _ => blind_pure _
  · exact blind_pure _

theorem heading_blind : heading.Blind := Rule.blind_pattern fun m => by
  split
  · split
    · exact blind_hide fun _ => blind_pure _
    · exact blind_pure _
  · exact blind_pure _

theorem table_blind : table.Blind :=
  Rule.blind_pattern fun _ => blind_rerun (by decide) fun _ => blind_hide fun _ => blind_pure _

theorem listBlock_blind (tag : String) (text : Text) : (listBlock tag text).Blind :=
  blind_rerun (by decide) fun _ => blind_hide fun _ => blind_pure _

theorem paragraph_blind : paragraph.Blind := Rule.blind_pattern fun _ => blind_hidden _

end Block

namespace Listing

theorem item_blind : item.Blind := Rule.blind_pattern fun m => by
  split
  · split
    · exact blind_rerun (by decide) fun _ => blind_pure _
    · exact blind_rerun (by decide) fun _ => blind_pure _
  · exact blind_pure _

theorem definition_blind : definition.Blind := Rule.blind_pattern fun m => by
  split
  · split
    · split
      · exact blind_rerun (by decide) fun _ => blind_hide fun _ => blind_pure _
      · exact blind_pure _
    · exact blind_pure _
  · exact blind_pure _

end Listing

theorem Table.row_blind : row.Blind := Rule.blind_pattern fun m => by
  split
  · exact blind_pure _
  · exact blind_pure _

theorem dialect_blind (stage : Stage) (hs : stage ≠ .document) : ∀ r ∈ dialect.rules stage, r.Blind := by
  cases stage with
  | document => exact absurd rfl hs
  | block =>
    simp only [dialect, Block.rules, List.forall_mem_cons]
    exact ⟨Block.quote_blind, Block.horizontalRule_blind, Block.titleWithSubtitle_blind, Block.title_blind,
      Block.heading_blind, Block.table_blind, Rule.blind_pattern fun _ => Block.listBlock_blind _ _,
      Rule.blind_pattern fun _ => Block.listBlock_blind _ _, Rule.blind_pattern fun _ => Block.listBlock_blind _ _,
      Block.paragraph_blind, fun r hr => absurd hr List.not_mem_nil⟩
  | table =>
    simp only [dialect, List.forall_mem_cons]
    exact ⟨Table.row_blind, fun r hr => absurd hr List.not_mem_nil⟩
  | list =>
    simp only [dialect, Listing.rules, List.forall_mem_cons]
    exact ⟨Listing.item_blind, Listing.definition_blind, fun r hr => absurd hr List.not_mem_nil⟩
  | line =>
    simp only [dialect, Line.rules, List.forall_mem_cons]
    exact ⟨Line.emphasis_blind, Line.link_blind, Line.image_blind, Line.mail_blind, Line.mention_blind,
      Line.hashtag_blind, Line.superscript_blind, fun r hr => absurd hr List.not_mem_nil⟩

namespace Document

theorem code_blind : code.Blind := Rule.blind_pattern fun m => by
  split
  · exact blind_hide fun _ => blind_pure _
  · exact blind_pure _

theorem escape_blind : escape.Blind := Rule.blind_pattern fun m => by
  split
  · exact blind_hide fun _ => blind_pure _
  · exact blind_pure _

theorem stage_blind {name : String} {stage : Stage} (hs : stage ≠ .document) : (Rule.stage name stage).Blind := by
  intro t
  simp only [map_eq_pure_bind]
  exact blind_rerun hs fun _ => blind_pure _

end Document
end Markup
