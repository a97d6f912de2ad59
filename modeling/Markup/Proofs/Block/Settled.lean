import Markup.Proofs.Block.Writes
import Markup.Proofs.Dialect.Ends

/-! # What the block stage leaves

The paragraph rule comes last and takes every longest run of prose, so behind it no line of prose is left: whatever the
rules before it have written, each line is empty or begins with a token. -/
namespace Markup.Block
open Grammar
open Text (Stretch Parted stretches joinLines)
variable {l t out : Text} {s s' : Store} {g : List Text} {gs : List (List Text)}

theorem isProse_eq_false_iff : isProse l = false ↔ l = [] ∨ Token.leads l = true := by
  rw [isProse, Bool.and_eq_false_iff, Bool.not_eq_false', Bool.not_eq_false', List.isEmpty_iff]

theorem paragraphHtml_eq (h : ∀ l ∈ g, '\n' ∉ l) :
    paragraphHtml g = "<p>\n".toList ++ "<br>".toList.intercalate g ++ "\n</p>".toList := by
  rw [paragraphHtml, Text.breakLines_joinLines h]
  simp [Html.block, Html.element]

theorem paragraphs_eq (hgs : ∀ l ∈ gs.flatten, '\n' ∉ l) : paragraphs gs =
    (gs.filter (·.all isProse)).map fun g => "<p>\n".toList ++ "<br>".toList.intercalate g ++ "\n</p>".toList := by
  rw [paragraphs]
  refine List.map_congr_left fun g hg => paragraphHtml_eq fun l hl => hgs l ?_
  exact List.mem_flatten_of_mem (List.mem_of_mem_filter hg) hl

theorem not_isProse_of_find_eq_none (h : paragraphMatcher.find [] t = none) : ∀ l ∈ t.lines, isProse l = false := by
  intro l hl
  have hbreak := Text.not_mem_of_mem_lines hl
  obtain ⟨ls, ms, htext⟩ := Text.exists_of_mem_lines hl
  have hmiss : paragraphScanner _ _ = none := Scanner.search_eq_none_iff.1 h _ _ htext
  have hline := Text.line_append_startLines hbreak ms
  have hstart := Text.head?_reverse_endLines ls
  cases hp : isProse l with
  | false => rfl
  | true =>
    rw [paragraphScanner, hline, hp, List.append_nil, hstart, Bool.and_true, if_pos rfl] at hmiss
    contradiction

/-- The block stage leaves no line of prose. -/
theorem not_isProse_of_runs (h : dialect.Runs .block t s out s') : ∀ l ∈ out.lines, isProse l = false := by
  have hrules : dialect.rules .block = marked ++ [paragraph] := rfl
  rw [runs_iff, hrules, appliesAll_append] at h
  obtain ⟨u, mid, -, h⟩ := h
  obtain ⟨v, mid', hlast, hnil⟩ := appliesAll_cons.1 h
  obtain ⟨rfl, -⟩ := hnil.unique appliesAll_nil
  exact not_isProse_of_find_eq_none ((paragraph_clears.imp fun _ _ h => h.1).find_eq_none dialect_ends rfl hlast)

/-- There is one way to part the lines into longest runs of prose and single other lines. The paragraph rule hides each
run behind a token of its own, from top to bottom, and keeps the other lines; behind the whole block stage every line is
empty or begins with a token. -/
theorem paragraphs_are_longest_runs_of_prose (t : Text) (s : Store) :
    (∃ gs, (∀ hs, Parted isProse t.lines hs ↔ hs = gs) ∧
      ∀ out s', dialect.Applies paragraph t s out s' ↔ out = joinLines (settle s.size gs) ∧
        s' = s.mintAll ((gs.filter (·.all isProse)).map fun g =>
          "<p>\n".toList ++ "<br>".toList.intercalate g ++ "\n</p>".toList)) ∧
    (∃ out s', dialect.Runs .block t s out s') ∧
      ∀ out s', dialect.Runs .block t s out s' → ∀ l ∈ out.lines, l = [] ∨ Token.leads l = true := by
  refine ⟨⟨stretches isProse t.lines, fun _ => Text.parted_iff, ?_⟩, dialect_ends .block t s, ?_⟩
  · intro out s'
    have happlies : dialect.Applies paragraph t s _ _ := applies_paragraph t s
    rw [paragraphs_eq (by rw [Text.flatten_stretches]; exact fun l => Text.not_mem_of_mem_lines)] at happlies
    constructor
    · intro h
      exact h.unique happlies
    · rintro ⟨rfl, rfl⟩
      exact happlies
  · intro out s' hrun l hl
    exact isProse_eq_false_iff.1 (not_isProse_of_runs hrun l hl)

end Markup.Block
