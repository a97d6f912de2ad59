import Markup.Proofs.Block.Settled
import Markup.Proofs.Listing.Bulleted

/-! # What the list rules write

A definition is hidden, and an item becomes an element that stays in the open. An item of several lines holds blocks,
and those have left no line that begins an item; an item of one line holds that line, which may. -/
namespace Markup

namespace Listing
open Program

theorem isProse_of_bulleted {l : Text} (h : Bulleted l) : Block.isProse l = true := by
  obtain ⟨mark, tail, hm, rfl, -⟩ := h
  have hne : mark ++ tail ≠ [] := by simp [hm.ne_nil]
  have hhead : (mark ++ tail).head? ≠ some ';' := hm.head_ne (by decide) tail
  have hleads : Token.leads (mark ++ tail) = false := by
    rw [Token.leads]
    split
    · rfl
    · next rest hr =>
      rw [Token.eq_append_of_isPrefixOf? hr] at hhead
      exact absurd rfl hhead
  simp [Block.isProse, hleads, hne]

theorem definition_clears : definition.Clears dialect := by
  have hlawful := Matcher.lawful_ofScanner definitionScanner_lawful .always
  refine Rule.clears_of_mem ':' hlawful fun behind ahead found hf => ?_
  obtain ⟨d, hw, hg, -⟩ := definition_parts hf
  have h₁ : found.group 1 = some d.term := by simp [Match.group, hg]
  have h₂ : found.group 2 = some d.body := by simp [Match.group, hg]
  have h₃ : found.group 3 = some d.indent := by simp [Match.group, hg]
  simp only [h₁, h₂, h₃]
  refine ⟨by simp [hw, Definition.whole], writes_rerun fun _ _ _ _ => writes_hide fun n => writes_pure ?_⟩
  simp [Token.not_mem_ofId (show ':' ∉ Token.alphabet by decide) n]

/-- The element of an item holds an item again exactly when a line inside is bulleted, and only an item of one line can
have one. -/
theorem item_writes : item.Writes dialect fun found new => new ≠ found.whole ∧ ∃ inner, new = Html.block "li" inner ∧
    (item.Quiet new ↔ ∀ l ∈ inner.lines, ¬ Bulleted l) ∧ (found.group 3 ≠ none → item.Quiet new) := by
  refine Rule.writes_pattern fun behind ahead found hf => ?_
  obtain ⟨mark, space, content, -, hm, -, hw, h₁⟩ := item_parts hf
  have hne (inner : Text) : Html.block "li" inner ≠ found.whole := fun h => by
    have hhead := IsMark.head_ne hm (d := '<') (by decide) (space ++ content)
    rw [← List.append_assoc, ← hw, ← h] at hhead
    exact hhead rfl
  simp only [h₁]
  cases h₃ : found.group 3 with
  | none =>
    refine writes_rerun fun _ inner _ _ =>
      writes_pure ⟨hne inner, inner, rfl, item_quiet_block_iff, fun h => absurd rfl h⟩
  | some indent =>
    refine writes_rerun fun _ inner _ hrun => writes_pure ⟨hne inner, inner, rfl, item_quiet_block_iff, fun _ => ?_⟩
    refine item_quiet_block_iff.2 fun l hl hb => ?_
    have hprose := Block.not_isProse_of_runs hrun l hl
    rw [isProse_of_bulleted hb] at hprose
    contradiction

end Listing
end Markup
