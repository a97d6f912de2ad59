import Markup.Proofs.Dialect.Ends
import Markup.Proofs.Document.Trim

/-! # White space that is not seen

A document reads the same with white space at the ends of its lines and without, so it does not matter which of the two
usual ways its lines are ended. -/
namespace Markup
open Grammar
open Text (trimLines trimEnd joinLines)

namespace Text
variable {l : Text} {ls : List Text}

/-- A carriage return stands before every line break. -/
def crlf (t : Text) : Text := "\r\n".toList.intercalate t.lines

theorem trimEnd_trimEnd (t : Text) : t.trimEnd.trimEnd = t.trimEnd := by
  refine trimEnd_eq_self ?_
  rw [trimEnd, List.getLast?_reverse, Option.all_eq_true]
  intro c hc
  simpa [Option.mem_def.1 hc] using List.head?_dropWhile_not isSpace t.reverse

theorem trimLines_trimLines (t : Text) : trimLines (trimLines t) = trimLines t := by
  refine trimLines_eq_self fun l hl => ?_
  rw [lines_trimLines] at hl
  obtain ⟨k, -, rfl⟩ := List.mem_map.1 hl
  exact trimEnd_trimEnd k

/-- A carriage return at the end of a line is white space there. -/
theorem trimLines_intercalate (hls : ∀ l ∈ ls, '\n' ∉ l) (hne : ls ≠ []) :
    trimLines ("\r\n".toList.intercalate ls) = joinLines (ls.map trimEnd) := by
  induction ls with
  | nil => contradiction
  | cons l ls ih =>
    rw [List.forall_mem_cons] at hls
    have hline : trimLines l = l.trimEnd := by
      rw [trimLines, lines_eq_singleton hls.1, List.map_singleton, joinLines_singleton]
    cases ls with
    | nil => simpa [List.intercalate, joinLines_singleton] using hline
    | cons k ls =>
      have hsplit : "\r\n".toList.intercalate (l :: k :: ls) =
          l ++ ['\r'] ++ '\n' :: "\r\n".toList.intercalate (k :: ls) := by simp [List.intercalate]
      rw [hsplit, trimLines_remove (by decide) rfl, trimLines_newline, hline, ih hls.2 (List.cons_ne_nil k ls)]
      simp only [List.map_cons, joinLines_cons_cons]

theorem trimLines_crlf (t : Text) : trimLines t.crlf = trimLines t :=
  trimLines_intercalate (fun _ => not_mem_of_mem_lines) (lines_ne_nil t)

end Text

variable {t u html : Text}

/-- What is left of the lines of a document once they are trimmed decides what it is converted to. -/
theorem converts_iff_of_trimLines (h : trimLines t = trimLines u) :
    dialect.Converts t html ↔ dialect.Converts u html := by
  have hfirst {t : Text} {s : Store} : dialect.Runs .document t .empty html s ↔
      dialect.AppliesAll Document.rules.tail (trimLines t) .empty html s := by
    have hrules : dialect.rules .document = Document.trailingSpace :: Document.rules.tail := rfl
    rw [runs_iff, hrules, appliesAll_cons]
    constructor
    · rintro ⟨v, mid, hv, hrest⟩
      obtain ⟨rfl, rfl⟩ := hv.unique (Document.applies_trailingSpace t .empty)
      exact hrest
    · exact fun hrest => ⟨_, _, Document.applies_trailingSpace t .empty, hrest⟩
  simp only [Grammar.converts_iff, hfirst, h]

/-- White space at the ends of lines is taken away, one stretch of it after the other, until every line is trimmed; a
document is converted to what it is converted to without it, and with carriage returns before its line breaks too. -/
theorem trailing_white_space_is_irrelevant (t : Text) :
    (∀ s, dialect.Applies Document.trailingSpace t s (joinLines (t.lines.map trimEnd)) s) ∧
    ∃ html, dialect.Converts t html ∧ dialect.Converts (joinLines (t.lines.map trimEnd)) html ∧
      dialect.Converts t.crlf html := by
  obtain ⟨html, h⟩ := dialect_converts t
  exact ⟨Document.applies_trailingSpace t, html, h, (converts_iff_of_trimLines (Text.trimLines_trimLines t)).2 h,
    (converts_iff_of_trimLines (Text.trimLines_crlf t)).2 h⟩

end Markup
