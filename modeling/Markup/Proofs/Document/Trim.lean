import Markup.Proofs.Document.Rules
import Markup.Proofs.Pattern.Forced
import Markup.Proofs.Seam.Rule
import Markup.Proofs.Text.Trim

/-! # White space at the ends of lines

The first rule of a document takes it away, and does nothing else. -/
namespace Markup.Document
open Pattern Grammar
open Text (trimLines trimEnd)
variable {t w v : Text}

theorem scanner_of_trailing {prev : Option Char} (hw : ∀ c ∈ w, isIndent c = true) (hne : w ≠ [])
    (hv : v.head?.all (· == '\n') = true) : (atLeast 1 isIndent ++ lineEnd).scanner prev (w ++ v) ≠ none := by
  have hstop : v.head?.any isIndent = false := by
    cases v with
    | nil => rfl
    | cons c v =>
      obtain rfl : c = '\n' := by simpa using hv
      rfl
  have hend (s : State) : lineEnd.walk some (s.behind w v) ≠ none := by
    rw [walk_lineEnd hv]
    exact Option.some_ne_none _
  rw [scanner, walk_append, walk_atLeast _ _ rfl hw hstop (List.length_pos_iff.2 hne) (hend _), walk_lineEnd hv]
  exact Option.some_ne_none _

theorem trimLines_of_find_eq_none (h : (matcher (atLeast 1 isIndent ++ lineEnd)).find [] t = none) :
    trimLines t = t := by
  refine Text.trimLines_eq_self fun l hl => ?_
  obtain ⟨ls, ms, rfl⟩ := Text.exists_of_mem_lines hl
  obtain ⟨w, hw, hspace⟩ := Text.exists_eq_trimEnd_append l
  by_cases hne : w = []
  · rw [hne, List.append_nil] at hw
    exact hw.symm
  have hindent : ∀ c ∈ w, isIndent c = true := fun c hc => by
    have hbreak : c ≠ '\n' := fun hn => Text.not_mem_of_mem_lines hl (hn ▸ hw ▸ List.mem_append_right _ hc)
    simp [isIndent, hspace c hc, hbreak]
  rw [matcher_eq] at h
  have hsplit : Text.endLines ls ++ (l ++ Text.startLines ms) =
      Text.endLines ls ++ l.trimEnd ++ (w ++ Text.startLines ms) := by
    conv_lhs => rw [hw]
    simp only [List.append_assoc]
  exact absurd (Scanner.search_eq_none_iff.1 h _ _ hsplit) (scanner_of_trailing hindent hne (Text.head?_startLines ms))

theorem applies_trailingSpace (t : Text) (s : Store) : dialect.Applies trailingSpace t s (trimLines t) s := by
  have hp := progresses (r := trailingSpace) (by simp [rules]) rfl
  obtain ⟨out, after, h, -⟩ := trailingSpace_ends.run t s trivial
  suffices out = trimLines t ∧ after = s by
    obtain ⟨rfl, rfl⟩ := this
    exact h
  rw [trailingSpace, applies_pattern, hp.saturates_iff] at h
  induction h with
  | done h => exact ⟨(trimLines_of_find_eq_none h).symm, rfl⟩
  | @step t new out s mid s' found hf he hne _ ih =>
    obtain ⟨hspace, hstop⟩ := trailingSpace_shape hf
    obtain ⟨hnew, rfl⟩ := evaluates_pure_iff.1 he
    obtain rfl := Option.some.inj hnew
    obtain ⟨rfl, -⟩ := takes_of_find hf
    rw [Match.replaceBy_eq, List.append_nil] at ih
    rw [ih.1, Match.text, Text.trimLines_remove hspace hstop]
    exact ⟨rfl, ih.2⟩

/-- A line that does not end with white space is left as it is. -/
theorem applies_trailingSpace_of_line (hline : '\n' ∉ t) (hlast : t.getLast?.all (!isSpace ·) = true) (s : Store) :
    dialect.Applies trailingSpace t s t s := by
  have ht : trimLines t = t := Text.trimLines_eq_self fun l hl => by
    rw [Text.lines_eq_singleton hline, List.mem_singleton] at hl
    exact hl ▸ Text.trimEnd_eq_self hlast
  have happly := applies_trailingSpace t s
  rwa [ht] at happly

end Markup.Document
