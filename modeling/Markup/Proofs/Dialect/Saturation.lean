import Markup.Proofs.Document.Rules
import Markup.Proofs.Line.Writes
import Markup.Proofs.Listing.Writes

/-! # Rules run out of matches

No rule of the dialect ever declines a match, so the loop of a rule begins again at the start of the text after each
round, and ends when there is nothing left to find. What a rule has written may still hold a match of the same rule: a
labelled link around a link, and an item of one line that reads like an item. -/
namespace Markup
open Pattern Program Grammar

namespace Table

theorem row_clears : row.Clears dialect := by
  refine Rule.clears_of_weight (.count '|') (matcher_lawful _) fun behind ahead found hf => ?_
  obtain ⟨inner, header, -, hw, h₁⟩ := row_parts hf
  simp only [h₁]
  refine ⟨hw ▸ Weight.pos_of_char rfl [] _, writes_pure (count_renderRow ?_ _)⟩
  split <;> decide

end Table

namespace Document

theorem trailingSpace_clears : trailingSpace.Clears dialect := by
  refine Rule.writes_pattern fun behind ahead found hf => writes_pure ⟨?_, Rule.quiet_pattern_iff.2 rfl⟩
  obtain ⟨caps, ht, -⟩ := takes_of_match hf
  have hsize : 1 ≤ found.whole.length := size_le_of_takes ht
  exact (List.ne_nil_of_length_pos hsize).symm

theorem code_clears : code.Clears dialect := by
  refine Rule.clears_of_mem '@' (matcher_lawful _) fun behind ahead found hf => ?_
  obtain ⟨-, text, -, hw, hg⟩ := Block.fenced_shape hf
  have h₁ : found.group 1 = some text := by simp [Match.group, hg]
  simp only [h₁]
  exact ⟨by simp [hw], Block.writes_token (by decide)⟩

theorem escape_clears : escape.Clears dialect := by
  refine Rule.clears_of_mem '\\' (matcher_lawful _) fun behind ahead found hf => ?_
  obtain ⟨c, hw, h₁⟩ := escape_shape hf
  simp only [h₁]
  exact ⟨by simp [hw], Block.writes_token (by decide)⟩

theorem clears_transform (name : String) (change : Text → Program (Option Text)) :
    (Rule.transform name change).Clears dialect := fun _ _ ha => nomatch ha

theorem rules_clear : ∀ r ∈ rules, r.Clears dialect := by
  simp only [rules, List.forall_mem_cons]
  exact ⟨trailingSpace_clears, code_clears, escape_clears, clears_transform _ _, clears_transform _ _,
    clears_transform _ _, fun r hr => absurd hr List.not_mem_nil⟩

end Document

namespace Line

theorem rules_clear : ∀ r ∈ rules, r = link ∨ r.Clears dialect := by
  simp only [rules, List.forall_mem_cons]
  exact ⟨.inr emphasis_clears, .inl trivial, .inr image_clears, .inr mail_clears, .inr mention_clears,
    .inr hashtag_clears,
    .inr superscript_clears, fun r hr => absurd hr List.not_mem_nil⟩

end Line

namespace Listing

theorem rules_clear : ∀ r ∈ rules, r = item ∨ r.Clears dialect := by
  simp only [rules, List.forall_mem_cons]
  exact ⟨.inl trivial, .inr definition_clears, fun r hr => absurd hr List.not_mem_nil⟩

theorem item_scans : item.Scans := by
  rw [item, itemMatcher_eq]
  exact Rule.scans_ofScanner _ _

end Listing

/-- All rules but two clear their matches. -/
theorem dialect_clears {stage : Stage} {r : Rule} (hr : r ∈ dialect.rules stage) :
    r = Line.link ∨ r = Listing.item ∨ r.Clears dialect := by
  cases stage with
  | document => exact .inr (.inr (Document.rules_clear r hr))
  | block => exact .inr (.inr (Block.rules_clear r hr))
  | table =>
    obtain rfl := List.mem_singleton.1 hr
    exact .inr (.inr Table.row_clears)
  | list => exact .inr (Listing.rules_clear r hr)
  | line => exact (Line.rules_clear r hr).imp_right .inr

theorem dialect_writes {stage : Stage} {r : Rule} (hr : r ∈ dialect.rules stage) :
    r.Writes dialect fun found new => new ≠ found.whole := by
  rcases dialect_clears hr with rfl | rfl | h
  · exact Line.link_writes.imp fun _ _ h => h.1
  · exact Listing.item_writes.imp fun _ _ h => h.1
  · exact h.imp fun _ _ h => h.1

theorem link_ne_item : Line.link ≠ Listing.item := fun h => absurd (congrArg Rule.name h) (by decide)

/-- Two rules may leave a match of their own in the open: a label that holds a link, and an item of one line in which a
line begins like an item. -/
theorem dialect_writes_iff {stage : Stage} {r : Rule} (hr : r ∈ dialect.rules stage) :
    r.Writes dialect fun found new => ¬ r.Quiet new ↔
      (r = Line.link ∧ ∃ label, found.group 2 = some label ∧ ¬ r.Quiet label) ∨
      (r = Listing.item ∧ found.group 3 = none ∧
        ∃ inner, new = Html.block "li" inner ∧ ∃ l ∈ inner.lines, Listing.Bulleted l) := by
  by_cases hlink : r = Line.link
  · subst hlink
    refine Line.link_writes.imp fun found new ⟨_, hnew⟩ => ?_
    rw [or_iff_left fun h => link_ne_item h.1, hnew]
    push Not
    simp
  by_cases hitem : r = Listing.item
  · subst hitem
    refine Listing.item_writes.imp fun found new ⟨_, inner, hblock, hnew, hone⟩ => ?_
    rw [or_iff_right fun h => link_ne_item h.1.symm]
    constructor
    · intro hagain
      refine ⟨rfl, not_not.1 fun h => hagain (hone h), inner, hblock, ?_⟩
      rw [hnew] at hagain
      push Not at hagain
      exact hagain
    · rintro ⟨-, -, inner, rfl, l, hl, hb⟩ hquiet
      exact Listing.item_quiet_block_iff.1 hquiet l hl hb
  · have hclears := ((dialect_clears hr).resolve_left hlink).resolve_left hitem
    exact hclears.imp fun found new ⟨_, hquiet⟩ => iff_of_false (not_not_intro hquiet) (by simp [hlink, hitem])

theorem dialect_scans (stage : Stage) : ∀ r ∈ dialect.rules stage, r.Scans := by
  have hnil : ∀ r ∈ ([] : List Rule), r.Scans := fun r hr => absurd hr List.not_mem_nil
  cases stage with
  | document =>
    simp only [dialect, Document.rules, List.forall_mem_cons]
    exact ⟨Rule.scans_pattern _, Rule.scans_pattern _, Rule.scans_pattern _, Rule.scans_transform _,
      Rule.scans_transform _, Rule.scans_transform _, hnil⟩
  | block =>
    simp only [dialect, Block.rules, List.forall_mem_cons]
    exact ⟨Rule.scans_pattern _, Rule.scans_pattern _, Rule.scans_pattern _, Rule.scans_pattern _, Rule.scans_pattern _,
      Rule.scans_pattern _, Rule.scans_pattern _, Rule.scans_pattern _, Rule.scans_ofScanner _ _,
      Rule.scans_ofScanner _ _, hnil⟩
  | table =>
    simp only [dialect, List.forall_mem_cons]
    exact ⟨Rule.scans_pattern _, hnil⟩
  | list =>
    simp only [dialect, Listing.rules, List.forall_mem_cons]
    exact ⟨Listing.item_scans, Rule.scans_ofScanner _ _, hnil⟩
  | line =>
    simp only [dialect, Line.rules, List.forall_mem_cons]
    exact ⟨Rule.scans_ofScanner _ _, Rule.scans_pattern _, Rule.scans_pattern _, Rule.scans_pattern _,
      Rule.scans_pattern _, Rule.scans_pattern _, Rule.scans_pattern _, hnil⟩

section
variable {stage : Stage} {r : Rule} {m : Matcher} {f : Match → Program (Option Text)}

/-- The loop of a rule ends from any text and any store. -/
theorem dialect_saturates (hr : r ∈ dialect.rules stage) (ha : r.action = .pattern m f) (t : Text) (s : Store) :
    ∃ out after, dialect.Saturates m f t s out after := by
  obtain ⟨Keep, ht, hend⟩ := dialect_rules_end stage t
  obtain ⟨out, after, h, -⟩ := (hend r hr).run t s ht
  exact ⟨out, after, (applies_iff ha).1 h⟩

/-- No rule declines a match, and the loop of a rule comes to an end, where the rule finds nothing from any place on. -/
theorem rules_saturate (hr : r ∈ dialect.rules stage) (ha : r.action = .pattern m f) :
    (∀ behind ahead found s, m.find behind ahead = some found →
      ∃ new mid, dialect.Evaluates (f found) s (some new) mid ∧ new ≠ found.whole) ∧
    ∀ t s, (∃ out after, dialect.Saturates m f t s out after) ∧ ∀ out after, dialect.Saturates m f t s out after →
      m.findAt out 0 = .ok none ∧ ∀ u v, out = u ++ v → m.find u.reverse v = none := by
  have hwrites := dialect_writes hr
  refine ⟨fun behind ahead found s hf => hwrites.exists_evaluates dialect_ends ha hf s, fun t s => ?_⟩
  refine ⟨dialect_saturates hr ha t s, fun out after h => ?_⟩
  have hnone := hwrites.find_eq_none dialect_ends ha h
  exact ⟨(m.findAt_zero out).trans (congrArg _ hnone), fun u v => (dialect_scans stage r hr).find_eq_none ha hnone⟩

theorem link_saturates : ∃ f, Line.link.action = .pattern Line.linkPattern.matcher f ∧ ∃ out after,
    dialect.Saturates Line.linkPattern.matcher f "->a->/b(c)".toList .empty out after ∧
      Line.linkPattern.matcher.find [] out = none := by
  refine ⟨_, rfl, ?_⟩
  have hr : Line.link ∈ dialect.rules .line := by simp [dialect, Line.rules]
  obtain ⟨⟨out, after, h⟩, hend⟩ := (rules_saturate hr rfl).2 "->a->/b(c)".toList .empty
  exact ⟨out, after, h, (hend out after h).2 [] out rfl⟩

/-- A rule finds a match in what it has written in just two cases: a label holds a link, and an item of one line holds a
line that begins like an item. -/
theorem written_finds_again_iff (hr : r ∈ dialect.rules stage) (ha : r.action = .pattern m f) {behind ahead : Text}
    {found : Match} (hf : m.find behind ahead = some found) (s : Store) :
    ∃ new mid, dialect.Evaluates (f found) s (some new) mid ∧ (m.find [] new ≠ none ↔
      (r = Line.link ∧ ∃ label, found.group 2 = some label ∧ m.find [] label ≠ none) ∨
      (r = Listing.item ∧ found.group 3 = none ∧
        ∃ inner, new = Html.block "li" inner ∧ ∃ l ∈ inner.lines, Listing.Bulleted l)) := by
  obtain ⟨new, mid, he, hnew⟩ := (dialect_writes_iff hr).exists_evaluates dialect_ends ha hf s
  simp only [Rule.quiet_iff ha] at hnew
  exact ⟨new, mid, he, hnew⟩

theorem anchor_finds_link : ∃ f found new mid, Line.link.action = .pattern Line.linkPattern.matcher f ∧
    Line.linkPattern.matcher.find [] "->a->/b(c)".toList = some found ∧
      dialect.Evaluates (f found) .empty (some new) mid ∧ Line.linkPattern.matcher.find [] new ≠ none := by
  have hf : Line.linkPattern.matcher.find [] "->a->/b(c)".toList =
      some ⟨[], "->a->/b(c)".toList, [], [none, some "a->/b".toList, some "c".toList]⟩ := by decide +kernel
  have hr : Line.link ∈ dialect.rules .line := by simp [dialect, Line.rules]
  obtain ⟨new, mid, he, hagain⟩ := written_finds_again_iff hr rfl hf .empty
  exact ⟨_, _, new, mid, rfl, hf, he, hagain.2 (.inl ⟨rfl, "a->/b".toList, rfl, by decide +kernel⟩)⟩

theorem element_finds_item : ∃ f found mid, Listing.item.action = .pattern Listing.itemMatcher f ∧
    Listing.itemMatcher.find [] "* * a".toList = some found ∧
      dialect.Evaluates (f found) .empty (some "<li>\n* a\n</li>".toList) mid ∧
      Listing.itemMatcher.find [] "<li>\n* a\n</li>".toList ≠ none :=
  ⟨_, ⟨[], "* * a".toList, [], [some "* a".toList]⟩, .empty, rfl, by decide +kernel, ⟨3, by decide +kernel⟩,
    by decide +kernel⟩

end
end Markup
