import Markup.Proofs.Listing.Continued
import Markup.Proofs.Listing.Stands

/-! # Definitions as they are written

A definition is written as its term and a colon, and below it its lines with the indent before each. The scanner takes
it up to the last of them with the line break behind it, and without the indent its lines are what they were. -/
namespace Markup.Listing
open Definition (isTermChar continues bodyOf below?)
open Text (joinLines endLines startLines joinLines_cons)
variable {term w b tail : Text} {bs : List Text}

/-- A head whose term goes as far as it can is read as it is. -/
theorem headOf_of_reads {h : Head} {t : Text} (hr : h.Reads t)
    (hend : ∀ a ∈ (h.space ++ ':' :: h.after).head?, isTermChar a = false) : headOf t = some h := by
  obtain ⟨term, space, after⟩ := h
  obtain ⟨rfl, ⟨c, u, rfl, hc, hu⟩, hspace⟩ := hr
  have hsplit : Head.whole ⟨c :: u, space, after⟩ ++ after = c :: (u ++ (space ++ ':' :: after)) := by simp [Head.whole]
  have hcolon : ∀ a ∈ (':' :: after).head?, isSpace a = false := by
    rintro a ⟨⟩
    decide
  rw [hsplit, headOf, if_neg (by simp [hc])]
  simp only [Text.takeWhile_run hu hend, Text.dropWhile_run hu hend, Text.takeWhile_run hspace hcolon,
    Text.dropWhile_run hspace hcolon]
  rfl

theorem headOf_term (hfirst : term.head?.any (!isSpace ·) = true) (hterm : ∀ a ∈ term, isTermChar a = true)
    (after : Text) :
    headOf (term ++ ':' :: after) = some ⟨term, [], after⟩ := by
  apply headOf_of_reads
  · cases term with
    | nil => exact absurd hfirst (by decide)
    | cons c u =>
      refine ⟨by simp [Head.whole], ⟨c, u, rfl, by simpa using hfirst, ?_⟩, fun a ha => absurd ha List.not_mem_nil⟩
      intro a ha
      exact hterm a (List.mem_cons_of_mem c ha)
  · rintro a ⟨⟩
    decide

theorem Flush.ne_nil (hb : Flush b) : b ≠ [] := by
  obtain ⟨a, u, rfl, -⟩ := hb.exists_cons
  exact List.cons_ne_nil a u

theorem bodyOf_of_continues {t : Text} (h : ∀ l ∈ t.lines, continues w l = true) : bodyOf w t = (t, []) := by
  unfold bodyOf
  rw [List.dropWhile_eq_nil_iff.2 h]

/-- A body takes whole lines up to the first that does not continue it. -/
theorem bodyOf_endLines {ls : List Text} {rest : Text} (hls : ∀ l ∈ ls, continues w l = true)
    (hline : ∀ l ∈ ls, '\n' ∉ l)
    (hrest : continues w rest.line = false) : bodyOf w (endLines ls ++ rest) = (endLines ls, rest) := by
  obtain ⟨others, hothers⟩ := Text.exists_lines_eq_line_cons rest
  have hjoin := Text.joinLines_lines rest
  have hlines : Text.lines (endLines ls ++ rest) = ls ++ rest.lines := by
    rw [← hjoin, ← Text.joinLines_append (Text.lines_ne_nil rest), Text.lines_joinLines, hjoin]
    · exact List.append_ne_nil_of_right_ne_nil _ (Text.lines_ne_nil rest)
    · rw [List.forall_mem_append]
      exact ⟨hline, fun l => Text.not_mem_of_mem_lines⟩
  have hhead : ∀ l ∈ rest.lines.head?, continues w l = false := by
    rw [hothers]
    rintro l ⟨⟩
    exact hrest
  unfold bodyOf
  rw [hlines, Text.dropWhile_run hls hhead, Text.takeWhile_run hls hhead]
  rw [hothers] at hjoin ⊢
  simp only [hjoin]

section
variable (hw : ∀ a ∈ w, isIndent a = true) (hbs : ∀ l ∈ bs, l ≠ [] ∧ '\n' ∉ l)
include hbs

theorem continues_of_mem_indentedBy {l : Text} (hl : l ∈ indentedBy w bs) : continues w l = true := by
  obtain ⟨k, hk, rfl⟩ := List.mem_map.1 hl
  have hlen := List.length_pos_iff.2 (hbs k hk).1
  have hprefix : w.isPrefixOf (w ++ k) = true := List.isPrefixOf_iff_prefix.2 (List.prefix_append w k)
  simp [continues, hprefix, hlen]

include hw

theorem lines_indentedBy (hne : bs ≠ []) : Text.lines (joinLines (indentedBy w bs)) = indentedBy w bs := by
  apply Text.lines_joinLines
  · simpa [indentedBy] using hne
  · exact newline_not_mem_indentedBy (newline_not_mem_of_indent hw) fun l hl => (hbs l hl).2

/-- The body takes the lines that were written, and the line break behind them. -/
theorem bodyOf_indentedBy (hne : bs ≠ []) (htail : tail = [] ∨ ∃ below, tail = '\n' :: below ∧ ¬ w <+: below) :
    bodyOf w (joinLines (indentedBy w bs) ++ tail) = (joinLines (indentedBy w bs) ++ tail.take 1, tail.drop 1) := by
  have hall : ∀ l ∈ indentedBy w bs, continues w l = true := fun l hl => continues_of_mem_indentedBy hbs hl
  have hlines := lines_indentedBy hw hbs hne
  rcases htail with rfl | ⟨below, rfl, hbelow⟩
  · rw [List.append_nil, List.take_nil, List.append_nil]
    exact bodyOf_of_continues (hlines.symm ▸ hall)
  · have hstop : continues w (Text.line below) = false := by
      have hprefix : w.isPrefixOf below = false := Bool.eq_false_iff.2 (mt List.isPrefixOf_iff_prefix.1 hbelow)
      rw [continues, Text.isPrefixOf_line (newline_not_mem_of_indent hw), hprefix, Bool.false_and]
    have hend : joinLines (indentedBy w bs) ++ ['\n'] = Text.endLines (indentedBy w bs) :=
      Text.joinLines_newline (by simpa [indentedBy] using hne)
    rw [List.append_cons, hend, bodyOf_endLines hall ?_ hstop]
    · simp [hend]
    · exact newline_not_mem_indentedBy (newline_not_mem_of_indent hw) fun l hl => (hbs l hl).2

end

theorem stripIndent_body (hw : ∀ a ∈ w, isIndent a = true) (hne : bs ≠ []) (hbs : ∀ l ∈ bs, l ≠ [] ∧ '\n' ∉ l)
    (hwide : w ≠ []) (htail : tail = [] ∨ tail = ['\n']) :
    Text.stripIndent w (joinLines (indentedBy w bs) ++ tail) = joinLines bs ++ tail := by
  have hlines := lines_indentedBy hw hbs hne
  rcases htail with rfl | rfl
  · rw [List.append_nil, List.append_nil, Text.stripIndent, hlines, strip_indentedBy]
  · have hempty : (w.isPrefixOf? []).getD [] = ([] : Text) := by
      cases w with
      | nil => exact absurd rfl hwide
      | cons a w => rfl
    have hlast : Text.lines [] = [[]] := rfl
    rw [Text.stripIndent, Text.lines_append_newline, hlines, List.map_append, strip_indentedBy, hlast,
      List.map_singleton,
      hempty, Text.joinLines_append (List.cons_ne_nil _ _), Text.joinLines_newline hne]
    simp [Text.joinLines_singleton]

/-- A definition that has been written is read up to its last line and the line break there. -/
theorem at?_described (hfirst : term.head?.any (!isSpace ·) = true) (hterm : ∀ a ∈ term, isTermChar a = true)
    (hw : ∀ a ∈ w, isIndent a = true) (hlen : 2 ≤ w.length) (hb : Flush b) (hbs : ∀ l ∈ b :: bs, l ≠ [] ∧ '\n' ∉ l)
    (htail : tail = [] ∨ ∃ below, tail = '\n' :: below ∧ ¬ w <+: below) :
    Definition.at? false (term ++ ':' :: '\n' :: joinLines (indentedBy w (b :: bs)) ++ tail) =
      some ⟨term, [], ['\n'], w, joinLines (indentedBy w (b :: bs)) ++ tail.take 1, tail.drop 1⟩ := by
  obtain ⟨a, u, rfl, ha, -⟩ := hb.exists_cons
  have hsplit : joinLines (indentedBy w ((a :: u) :: bs)) ++ tail =
      w ++ (a :: u ++ startLines (indentedBy w bs) ++ tail) := by
    rw [indentedBy, List.map_cons, joinLines_cons, ← indentedBy]
    simp
  have hbody := bodyOf_indentedBy hw hbs (List.cons_ne_nil _ _) htail
  have hblank : ∀ a ∈ ([] : Text), isSpace a = true := fun a ha => absurd ha List.not_mem_nil
  have hstart : ∀ c ∈ (a :: u ++ startLines (indentedBy w bs) ++ tail).head?, isSpace c = false := by
    rintro c ⟨⟩
    exact ha
  have hbelow := below?_of_parts hblank hw hstart (List.cons_ne_nil _ _) hlen false []
  rw [← hsplit, hbody, List.nil_append, List.cons_append, ← hsplit] at hbelow
  have hhead := headOf_term hfirst hterm ('\n' :: (joinLines (indentedBy w ((a :: u) :: bs)) ++ tail))
  rw [at?_eq_head, List.append_assoc, List.cons_append, List.cons_append, hhead, Option.bind_some, hbelow]
  rfl

/-- A definition that has been written with an indent of at least two characters before each line is found as it was
written, with the line break behind it, up to a rest that does not go on with the indent; its lines are those that were
written. -/
theorem described_definition_is_recovered (hfirst : term.head?.any (!isSpace ·) = true)
    (hterm : ∀ a ∈ term, isTermChar a = true) (hw : ∀ a ∈ w, isIndent a = true) (hlen : 2 ≤ w.length) (hb : Flush b)
    (hbs : ∀ l ∈ bs, l ≠ [] ∧ '\n' ∉ l) (htail : tail = [] ∨ ∃ below, tail = '\n' :: below ∧ ¬ w <+: below) :
    definitionMatcher.findAt (term ++ ':' :: '\n' :: joinLines (indentedBy w (b :: bs)) ++ tail) 0 =
        .ok (some ⟨[], term ++ ':' :: '\n' :: joinLines (indentedBy w (b :: bs)) ++ tail.take 1, tail.drop 1,
          [some term, some (joinLines (indentedBy w (b :: bs)) ++ tail.take 1), some w]⟩) ∧
      Text.stripIndent w (joinLines (indentedBy w (b :: bs)) ++ tail.take 1) = joinLines (b :: bs) ++ tail.take 1 := by
  have hwide : w ≠ [] := List.ne_nil_of_length_pos (Nat.lt_of_lt_of_le Nat.two_pos hlen)
  have hbreak : tail.take 1 = [] ∨ tail.take 1 = ['\n'] := by
    rcases htail with rfl | ⟨below, rfl, -⟩
    · exact .inl rfl
    · exact .inr rfl
  have hlines : ∀ l ∈ b :: bs, l ≠ [] ∧ '\n' ∉ l := List.forall_mem_cons.2 ⟨⟨hb.ne_nil, hb.line⟩, hbs⟩
  refine ⟨?_, stripIndent_body hw (List.cons_ne_nil b bs) hlines hwide hbreak⟩
  have hat := at?_described hfirst hterm hw hlen hb hlines htail
  have hhit : definitionScanner ([] : Text).head? (term ++ ':' :: '\n' :: joinLines (indentedBy w (b :: bs)) ++ tail) =
      some ⟨term ++ ':' :: '\n' :: joinLines (indentedBy w (b :: bs)) ++ tail.take 1, tail.drop 1,
        [some term, some (joinLines (indentedBy w (b :: bs)) ++ tail.take 1), some w]⟩ := by
    rw [definitionScanner, hat]
    simp [atLineStart, Definition.whole]
  rw [Matcher.findAt_zero]
  exact congrArg Except.ok (Scanner.search_of_hit hhit)

/-- The indent is a wide space and a blank, the second line begins with a blank, and the text goes on with another
indent. -/
theorem described_definition_of_wide_indent_is_recovered :
    definitionMatcher.findAt "a b:\n\u3000 c: d\n\u3000  e\n \u3000f".toList 0 =
        .ok (some ⟨[], "a b:\n\u3000 c: d\n\u3000  e\n".toList, " \u3000f".toList,
          [some "a b".toList, some "\u3000 c: d\n\u3000  e\n".toList, some "\u3000 ".toList]⟩) ∧
      Text.stripIndent "\u3000 ".toList "\u3000 c: d\n\u3000  e\n".toList = "c: d\n e\n".toList := by
  have hterm : ∀ a ∈ "a b".toList, isTermChar a = true := by decide
  have hindent : ∀ a ∈ "\u3000 ".toList, isIndent a = true := by decide
  have hfirst : Flush "c: d".toList := ⟨by decide, by decide⟩
  have hlines : ∀ l ∈ [" e".toList], l ≠ [] ∧ '\n' ∉ l := by decide
  have hbelow : ¬ "\u3000 ".toList <+: " \u3000f".toList := by decide
  exact described_definition_is_recovered rfl hterm hindent (by decide) hfirst hlines (.inr ⟨_, rfl, hbelow⟩)

end Markup.Listing
