import Markup.Dialect
import Markup.Proofs.Block.Shape
import Markup.Proofs.Listing.Shape
import Markup.Proofs.Rule.Quiet

/-! # Texts without marks for the block rules

Each block rule but the last takes a character of its own; an ordered list also takes a line that begins with
a number. -/
namespace Markup.Block
open Pattern
variable {t : Text}

theorem mem_of_all {u : Text} {n : Nat} {c : Char} (hn : n + 1 ≤ u.length) (h : ∀ d ∈ u, d = c) : c ∈ u := by
  obtain ⟨d, hd⟩ := List.exists_mem_of_length_pos (Nat.lt_of_lt_of_le n.succ_pos hn)
  exact h d hd ▸ hd

theorem quote_quiet (h : '"' ∉ t) : quote.Quiet t :=
  Rule.quiet_of_not_mem (fun found hf => ⟨(takes_of_find hf).1, by
    obtain ⟨-, _, -, hw, -⟩ := fenced_shape hf
    simp [hw]⟩) h

theorem horizontalRule_quiet (h : '-' ∉ t) : horizontalRule.Quiet t :=
  Rule.quiet_of_not_mem (fun found hf => ⟨(takes_of_find hf).1, by
    obtain ⟨-, hl, hall⟩ := horizontalRule_shape hf
    exact mem_of_all hl hall⟩) h

theorem titleWithSubtitle_quiet (h : '=' ∉ t) : titleWithSubtitle.Quiet t :=
  Rule.quiet_of_not_mem (fun found hf => ⟨(takes_of_find hf).1, by
    obtain ⟨-, _, eqs, _, _, hl, hall, -, -, -, -, hw, -⟩ := titleWithSubtitle_shape hf
    simp [hw, mem_of_all hl hall]⟩) h

theorem title_quiet (h : '=' ∉ t) : title.Quiet t :=
  Rule.quiet_of_not_mem (fun found hf => ⟨(takes_of_find hf).1, by
    obtain ⟨-, _, eqs, hl, hall, -, hw, -⟩ := title_shape hf
    simp [hw, mem_of_all hl hall]⟩) h

theorem heading_quiet (h : '#' ∉ t) : heading.Quiet t :=
  Rule.quiet_of_not_mem (fun found hf => ⟨(takes_of_find hf).1, by
    obtain ⟨-, hashes, _, _, _, hne, hall, -, -, hw, -⟩ := heading_shape hf
    simp [hw, mem_of_all (List.length_pos_iff.2 hne) hall]⟩) h

theorem table_quiet (h : '|' ∉ t) : table.Quiet t :=
  Rule.quiet_of_not_mem (fun found hf => ⟨(takes_of_find hf).1, by
    obtain ⟨-, _, hw⟩ := table_shape hf
    simp [hw]⟩) h

theorem unorderedList_quiet (h : '*' ∉ t) : unorderedList.Quiet t :=
  Rule.quiet_of_not_mem (fun found hf => ⟨(takes_of_find hf).1, by
    obtain ⟨-, _, hw⟩ := unorderedList_shape hf
    simp [hw]⟩) h

theorem definitionList_quiet (h : ':' ∉ t) : definitionList.Quiet t :=
  Rule.quiet_of_not_mem (fun found hf => by
    obtain ⟨htext, d, _, hw⟩ := Listing.definitionList_shape hf
    exact ⟨htext, by simp [hw, Listing.Definition.whole]⟩) h

/-- Whether the line begins with digits and a period. -/
def isNumbered (l : Text) : Bool :=
  !(l.takeWhile Char.isDigit).isEmpty && (l.dropWhile Char.isDigit).head? == some '.'

theorem isNumbered_append {digits rest : Text} (hne : digits ≠ []) (hd : ∀ d ∈ digits, d.isDigit = true) :
    isNumbered (digits ++ '.' :: rest) = true := by
  have hdot : ¬ Char.isDigit '.' = true := by decide
  have hdrop : (digits ++ '.' :: rest).dropWhile Char.isDigit = '.' :: rest := by
    rw [List.dropWhile_append_of_pos hd, List.dropWhile_cons_of_neg hdot]
  obtain ⟨d, digits, rfl⟩ := List.exists_cons_of_ne_nil hne
  rw [isNumbered, hdrop]
  simp [hd d List.mem_cons_self]

theorem exists_of_isNumbered {l : Text} (h : isNumbered l = true) :
    ∃ digits rest : Text, digits ≠ [] ∧ (∀ d ∈ digits, d.isDigit = true) ∧ l = digits ++ '.' :: rest := by
  simp only [isNumbered, Bool.and_eq_true, Bool.not_eq_true', List.isEmpty_eq_false_iff, beq_iff_eq] at h
  obtain ⟨rest, hrest⟩ := List.head?_eq_some_iff.1 h.2
  exact ⟨_, rest, h.1, fun d hd => List.all_eq_true.1 List.all_takeWhile d hd,
    by rw [← hrest, List.takeWhile_append_dropWhile]⟩

theorem orderedList_quiet (h : ∀ l ∈ t.lines, isNumbered l = false) : orderedList.Quiet t := by
  refine ⟨_, _, rfl, ?_⟩
  cases hf : orderedListPattern.matcher.find [] t with
  | none => rfl
  | some found =>
    obtain ⟨hl, digits, rest, hne, hd, hw⟩ := orderedList_shape hf
    obtain ⟨ls, hls⟩ := Text.exists_lines_of_start hl.start
    have htext : t = found.behind.reverse ++ (digits ++ '.' :: (rest ++ found.after)) := by
      rw [← (takes_of_find hf).1, Match.text, Match.before, hw]
      simp
    obtain ⟨ms, hms⟩ := Text.exists_lines_eq_line_cons (digits ++ '.' :: (rest ++ found.after))
    have hline : Text.line (digits ++ '.' :: (rest ++ found.after)) =
        digits ++ '.' :: Text.line (rest ++ found.after) := by
      have hbreak : ∀ d ∈ digits, (d != '\n') = true := fun d hd' => by
        rw [bne_iff_ne]
        rintro rfl
        exact absurd (hd _ hd') (by decide)
      rw [Text.line, List.takeWhile_append_of_pos hbreak]
      rfl
    have hmem : digits ++ '.' :: Text.line (rest ++ found.after) ∈ t.lines := by
      rw [htext, hls, hms, hline]
      simp
    exact absurd (h _ hmem) (by rw [isNumbered_append hne hd]; decide)

theorem isNumbered_eq_false (h : '.' ∉ t) : ∀ l ∈ t.lines, isNumbered l = false := by
  intro l hl
  have hmem {c : Char} (hc : c ∈ l) : c ∈ t := (Text.infix_of_mem_lines hl).subset hc
  cases hn : isNumbered l with
  | false => rfl
  | true =>
    obtain ⟨_, _, -, -, rfl⟩ := exists_of_isNumbered hn
    exact absurd (hmem (List.mem_append_right _ List.mem_cons_self)) h

/-- The marks of the block rules but for those of lists. -/
def signs : Text := "\"-=#|:".toList

/-- The rules before those for lists. -/
def framed : List Rule := [quote, horizontalRule, titleWithSubtitle, title, heading, table]

theorem framed_quiet (h : ∀ c ∈ signs, c ∉ t) : ∀ r ∈ framed, r.Quiet t := by
  simp only [framed, List.forall_mem_cons]
  exact ⟨quote_quiet (h '"' (by decide)), horizontalRule_quiet (h '-' (by decide)),
    titleWithSubtitle_quiet (h '=' (by decide)), title_quiet (h '=' (by decide)), heading_quiet (h '#' (by decide)),
    table_quiet (h '|' (by decide)), fun r hr => absurd hr List.not_mem_nil⟩

/-- All rules before the last one. -/
def marked : List Rule := framed ++ [unorderedList, orderedList, definitionList]

theorem marked_quiet (hs : '*' ∉ t) (hn : ∀ l ∈ t.lines, isNumbered l = false) (h : ∀ c ∈ signs, c ∉ t) :
    ∀ r ∈ marked, r.Quiet t := by
  simp only [marked, List.forall_mem_append, List.forall_mem_cons]
  exact ⟨framed_quiet h, unorderedList_quiet hs, orderedList_quiet hn, definitionList_quiet (h ':' (by decide)),
    fun r hr => absurd hr List.not_mem_nil⟩

end Markup.Block
