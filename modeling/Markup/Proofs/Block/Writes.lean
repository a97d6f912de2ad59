import Markup.Proofs.Block.Paragraph
import Markup.Proofs.Block.Quiet
import Markup.Proofs.Rule.Writes

/-! # What the block rules write

Tokens and nothing else. Each rule but the last takes a character that no token has, and the last takes lines that do
not begin with tokens. -/
namespace Markup.Block
open Pattern Program

theorem writes_token {c : Char} (hc : c ∉ Token.alphabet) {v : Text} :
    Program.Writes dialect (fun new => c ∉ new) (do return some (← hide v)) :=
  writes_hide fun n => writes_pure (Token.not_mem_ofId hc n)

theorem quote_clears : quote.Clears dialect := by
  refine Rule.clears_of_mem '"' (matcher_lawful _) fun behind ahead found hf => ?_
  obtain ⟨-, text, -, hw, hg⟩ := fenced_shape hf
  have h₁ : found.group 1 = some text := by simp [Match.group, hg]
  simp only [h₁]
  exact ⟨by simp [hw], writes_token (by decide)⟩

theorem horizontalRule_clears : horizontalRule.Clears dialect := by
  refine Rule.clears_of_mem '-' (matcher_lawful _) fun behind ahead found hf => ?_
  obtain ⟨-, hl, hall⟩ := horizontalRule_shape hf
  exact ⟨mem_of_all hl hall, writes_hidden fun n => Token.not_mem_ofId (by decide) n⟩

theorem titleWithSubtitle_clears : titleWithSubtitle.Clears dialect := by
  refine Rule.clears_of_mem '=' (matcher_lawful _) fun behind ahead found hf => ?_
  obtain ⟨-, title, eqs, indent, subtitle, hl, hall, -, -, -, -, hw, hg⟩ := titleWithSubtitle_shape hf
  have h₁ : found.group 1 = some title := by simp [Match.group, hg]
  have h₂ : found.group 2 = some subtitle := by simp [Match.group, hg]
  simp only [h₁, h₂]
  exact ⟨by simp [hw, mem_of_all hl hall], writes_token (by decide)⟩

theorem title_clears : title.Clears dialect := by
  refine Rule.clears_of_mem '=' (matcher_lawful _) fun behind ahead found hf => ?_
  obtain ⟨-, title, eqs, hl, hall, -, hw, hg⟩ := title_shape hf
  have h₁ : found.group 1 = some title := by simp [Match.group, hg]
  simp only [h₁]
  exact ⟨by simp [hw, mem_of_all hl hall], writes_token (by decide)⟩

theorem heading_clears : heading.Clears dialect := by
  refine Rule.clears_of_mem '#' (matcher_lawful _) fun behind ahead found hf => ?_
  obtain ⟨-, hashes, space, text, space', hne, hall, -, -, hw, hg⟩ := heading_shape hf
  have h₁ : found.group 1 = some hashes := by simp [Match.group, hg]
  have h₂ : found.group 2 = some text := by simp [Match.group, hg]
  simp only [h₁, h₂]
  exact ⟨by simp [hw, mem_of_all (List.length_pos_iff.2 hne) hall], writes_token (by decide)⟩

theorem table_clears : table.Clears dialect := by
  refine Rule.clears_of_mem '|' (matcher_lawful _) fun behind ahead found hf => ?_
  obtain ⟨-, rest, hw⟩ := table_shape hf
  exact ⟨by simp [hw], writes_rerun fun _ _ _ _ => writes_token (by decide)⟩

theorem listBlock_writes {c : Char} (hc : c ∉ Token.alphabet) (tag : String) (text : Text) :
    (listBlock tag text).Writes dialect fun new => c ∉ new :=
  writes_rerun fun _ _ _ _ => writes_token hc

theorem unorderedList_clears : unorderedList.Clears dialect := by
  refine Rule.clears_of_mem '*' (matcher_lawful _) fun behind ahead found hf => ?_
  obtain ⟨-, rest, hw⟩ := unorderedList_shape hf
  exact ⟨by simp [hw], listBlock_writes (by decide) _ _⟩

theorem orderedList_clears : orderedList.Clears dialect := by
  refine Rule.clears_of_mem '.' (matcher_lawful _) fun behind ahead found hf => ?_
  obtain ⟨-, digits, rest, -, -, hw⟩ := orderedList_shape hf
  exact ⟨by simp [hw], listBlock_writes (by decide) _ _⟩

theorem definitionList_clears : definitionList.Clears dialect := by
  have hlawful := Matcher.lawful_ofScanner Listing.definitionListScanner_lawful .always
  refine Rule.clears_of_mem ':' hlawful fun behind ahead found hf => ?_
  obtain ⟨d, rest, hw⟩ := Listing.definitionList_parts hf
  exact ⟨by simp [hw, Listing.Definition.whole], listBlock_writes (by decide) _ _⟩

theorem paragraph_clears : paragraph.Clears dialect := by
  refine Rule.writes_pattern fun behind ahead found hf => writes_hidden fun n => ?_
  have hbreak : '\n' ∉ Token.ofId n := Token.not_mem_ofId (by decide) n
  obtain ⟨-, prose, others, hne, hprose, hlines, hw, -⟩ := paragraph_shape hf
  have hquiet : paragraphMatcher.find [] (Text.joinLines [Token.ofId n]) = none :=
    find_eq_none (by simpa using hbreak) (by simpa using isProse_ofId n)
  rw [Text.joinLines_singleton] at hquiet
  refine ⟨fun h => ?_, Rule.quiet_pattern_iff.2 hquiet⟩
  have hflat : ∀ l ∈ prose, '\n' ∉ l := fun l hl =>
    Text.not_mem_of_mem_lines (t := found.whole ++ found.after) (hlines ▸ List.mem_append_left others hl)
  have hsingle := Text.lines_eq_singleton hbreak
  rw [h, hw, Text.lines_joinLines hne hflat, ← hw, ← h] at hsingle
  have := hprose (Token.ofId n) (hsingle ▸ List.mem_singleton_self _)
  rw [isProse_ofId] at this
  contradiction

theorem rules_clear : ∀ r ∈ rules, r.Clears dialect := by
  simp only [rules, List.forall_mem_cons]
  exact ⟨quote_clears, horizontalRule_clears, titleWithSubtitle_clears, title_clears, heading_clears, table_clears,
    unorderedList_clears, orderedList_clears, definitionList_clears, paragraph_clears,
    fun r hr => absurd hr List.not_mem_nil⟩

end Markup.Block
