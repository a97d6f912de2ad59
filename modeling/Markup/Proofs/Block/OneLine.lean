import Markup.Proofs.Block.Quiet
import Markup.Proofs.Listing.Stands

/-! # Blocks of one line

A block rule either takes more than one line or begins with a mark at the start of the line, so most texts of one line
are left to the last rule. -/
namespace Markup.Block
open Pattern Listing
variable {t : Text} {m : Match}

theorem isProse_of_head {c : Char} (h : t.head? = some c) (hc : c ≠ ';') : isProse t = true := by
  obtain ⟨u, rfl⟩ := List.head?_eq_some_iff.1 h
  have hmarker : Token.marker.isPrefixOf? (c :: u) = none := by
    rw [show Token.marker = ';' :: ";xsv;".toList from rfl, Text.isPrefixOf?_cons_cons,
      if_neg (by simpa using Ne.symm hc)]
  rw [isProse, Token.leads, hmarker]
  rfl

section
variable (hline : '\n' ∉ m.text) (hl : OnLines m)
include hline hl

theorem behind_eq_nil_of_line : m.behind = [] := by
  cases hb : m.behind with
  | nil => rfl
  | cons c u =>
    have hstart := hl.start
    rw [hb] at hstart
    obtain rfl : c = '\n' := by simpa using hstart
    exact absurd (by simp [Match.text, Match.before, hb]) hline

theorem after_eq_nil_of_line : m.after = [] := by
  cases ha : m.after with
  | nil => rfl
  | cons c u =>
    have hstop := hl.stop
    rw [ha] at hstop
    obtain rfl : c = '\n' := by simpa using hstop
    exact absurd (by simp [Match.text, ha]) hline

theorem whole_eq_of_line : m.whole = m.text := by
  simp [Match.text, Match.before, behind_eq_nil_of_line hline hl, after_eq_nil_of_line hline hl]

end

/-- Every match is whole lines, and has something that the text has not got. -/
theorem quiet_of_onLines {name : String} {p : Pattern} {f : Match → Program (Option Text)} {P : Text → Prop}
    (h : ∀ found, p.matcher.find [] t = some found → OnLines found ∧ P found.whole) (hline : '\n' ∉ t) (ht : ¬ P t) :
    (Rule.pattern name p.matcher f).Quiet t := by
  rw [Rule.quiet_pattern_iff]
  refine Option.eq_none_iff_forall_ne_some.2 fun found hf => ht ?_
  obtain ⟨hl, hP⟩ := h found hf
  obtain rfl := (takes_of_find hf).1
  rwa [whole_eq_of_line hline hl] at hP

section
variable (hline : '\n' ∉ t)
include hline

theorem quote_quiet_of_line : quote.Quiet t :=
  Rule.quiet_of_not_mem (fun found hf => ⟨(takes_of_find hf).1, by
    obtain ⟨-, _, -, hw, -⟩ := fenced_shape hf
    simp [hw]⟩) hline

theorem titleWithSubtitle_quiet_of_line : titleWithSubtitle.Quiet t :=
  Rule.quiet_of_not_mem (fun found hf => ⟨(takes_of_find hf).1, by
    obtain ⟨-, _, _, _, _, -, -, -, -, -, -, hw, -⟩ := titleWithSubtitle_shape hf
    simp [hw]⟩) hline

theorem title_quiet_of_line : title.Quiet t :=
  Rule.quiet_of_not_mem (fun found hf => ⟨(takes_of_find hf).1, by
    obtain ⟨-, _, _, -, -, -, hw, -⟩ := title_shape hf
    simp [hw]⟩) hline

theorem definitionList_quiet_of_line : definitionList.Quiet t := by
  have hnone : (definitions true).search [] t = none := Scanner.search_eq_none_iff.2 fun u v ht => by
    have hat : Definition.at? true v = none := by
      by_contra hne
      cases at?_ne_none_iff.1 hne
      exact hline (by simp [ht])
    rw [definitions_eq, hat, Option.map_none, ite_self]
  rw [definitionList, Rule.quiet_pattern_iff]
  exact hnone

theorem horizontalRule_quiet_of_line (hdash : ∃ c ∈ t, c ≠ '-') : horizontalRule.Quiet t := by
  refine quiet_of_onLines (P := fun u => ∀ c ∈ u, c = '-') (fun found hf => ?_) hline (by simpa using hdash)
  obtain ⟨hl, -, hall⟩ := horizontalRule_shape hf
  exact ⟨hl, hall⟩

theorem heading_quiet_of_line (hhead : t.head? ≠ some '#') : heading.Quiet t := by
  refine quiet_of_onLines (P := fun u => u.head? = some '#') (fun found hf => ?_) hline hhead
  obtain ⟨hl, hashes, _, _, _, hne, hall, -, -, hw, -⟩ := heading_shape hf
  obtain ⟨c, hashes, rfl⟩ := List.exists_cons_of_ne_nil hne
  refine ⟨hl, ?_⟩
  rw [hw, hall c List.mem_cons_self]
  rfl

theorem table_quiet_of_line (hhead : t.head? ≠ some '|') : table.Quiet t := by
  refine quiet_of_onLines (P := fun u => u.head? = some '|') (fun found hf => ?_) hline hhead
  obtain ⟨hl, _, hw⟩ := table_shape hf
  exact ⟨hl, by rw [hw]; rfl⟩

theorem unorderedList_quiet_of_line (hhead : t.head? ≠ some '*') : unorderedList.Quiet t := by
  refine quiet_of_onLines (P := fun u => u.head? = some '*') (fun found hf => ?_) hline hhead
  obtain ⟨hl, _, hw⟩ := unorderedList_shape hf
  exact ⟨hl, by rw [hw]; rfl⟩

theorem orderedList_quiet_of_line : orderedList.Quiet t :=
  Rule.quiet_of_not_mem (fun found hf => ⟨(takes_of_find hf).1, by
    obtain ⟨-, caps, ht, -⟩ := takes_of_find hf
    simp only [orderedListPattern, takes_append, takes_word] at ht
    obtain ⟨_, _, _, _, hw, -, ⟨_, _, _, _, rfl, -, -, rfl, -⟩, -⟩ := ht
    simp [hw]⟩) hline

/-- A line that begins with none of the marks is left to the last rule. -/
theorem marked_quiet_of_line (hhead : ∀ c ∈ "#|*".toList, t.head? ≠ some c) (hdash : ∃ c ∈ t, c ≠ '-') :
    ∀ r ∈ marked, r.Quiet t := by
  simp only [marked, framed, List.forall_mem_append, List.forall_mem_cons]
  exact ⟨⟨quote_quiet_of_line hline, horizontalRule_quiet_of_line hline hdash, titleWithSubtitle_quiet_of_line hline,
    title_quiet_of_line hline, heading_quiet_of_line hline (hhead '#' (by decide)),
    table_quiet_of_line hline (hhead '|' (by decide)), fun r hr => absurd hr List.not_mem_nil⟩,
    unorderedList_quiet_of_line hline (hhead '*' (by decide)), orderedList_quiet_of_line hline,
    definitionList_quiet_of_line hline, fun r hr => absurd hr List.not_mem_nil⟩

end
end Markup.Block
