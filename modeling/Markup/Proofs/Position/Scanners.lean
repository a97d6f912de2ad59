import Markup.Proofs.Position.Definition
import Markup.Proofs.Position.Emphasis
import Markup.Proofs.Position.Item
import Markup.Proofs.Position.Paragraph

/-! # Scanners that count in bytes

Five scanners go through the text by hand. None of them leaves the text or cuts a character in two, and what they find
is what their matcher finds. -/
namespace Markup

inductive HandScanner where
  | emphasis
  | item
  | definition
  | definitionList
  | paragraph
deriving DecidableEq, Repr

/-- The places lie in the text, at or behind a position, on character boundaries. -/
structure Spans.Fits (s : Spans) (t : Text) (start : Nat) : Prop where
  start_le : start ≤ s.whole.start
  nonempty : s.whole.start < s.whole.stop
  stop_le : s.whole.stop ≤ t.bytes
  boundary_start : t.IsBoundary s.whole.start
  boundary_stop : t.IsBoundary s.whole.stop
  group_within : ∀ g, some g ∈ s.groups → g.Within s.whole
  group_boundary : ∀ g, some g ∈ s.groups → t.IsBoundary g.start ∧ t.IsBoundary g.stop

variable {t u v behind : Text} {m : Match} {s : Spans} {start : Nat}

theorem Spans.Of.fits (hs : s.Of m) (hstart : start ≤ m.start) (hne : m.whole ≠ []) : s.Fits m.text start := by
  have hwhole := m.covers_whole
  have hmore := Text.bytes_pos hne
  have hgroup := fun g hg => hs.group_mem (g := g) hg
  rw [← hs.whole] at hwhole hgroup
  refine ⟨by rw [hs.whole]; exact hstart, by rw [hs.whole]; exact Nat.lt_add_of_pos_right hmore,
    hwhole.boundary_stop.le, hwhole.boundary_start, hwhole.boundary_stop, fun g hg => ?_, fun g hg => ?_⟩
  · obtain ⟨w, -, hw⟩ := hgroup g hg
    exact hw
  · obtain ⟨w, hw, -⟩ := hgroup g hg
    exact ⟨hw.boundary_start, hw.boundary_stop⟩

namespace HandScanner

def matcher : HandScanner → Matcher
  | emphasis => Line.emphasisMatcher
  | item => Listing.itemMatcher
  | definition => Listing.definitionMatcher
  | definitionList => Listing.definitionListMatcher
  | paragraph => Block.paragraphMatcher

/-- The places of the first match at or after a position. -/
def spansAt : HandScanner → Text → Nat → Except PositionError (Option Spans)
  | emphasis => Line.emphasisSpans
  | item => Listing.itemSpans
  | definition => Listing.definitionsFrom false
  | definitionList => Listing.definitionsFrom true
  | paragraph => Block.paragraphSpans

theorem spansAt_locates (x : HandScanner) (h : t = u ++ v) :
    Locates (x.spansAt t u.bytes) (x.matcher.find u.reverse v) := by
  cases x with
  | emphasis => exact Line.emphasisSpans_locates h
  | item => exact Listing.itemSpans_locates h
  | definition => exact Listing.definitionsFrom_locates false h
  | definitionList => exact Listing.definitionsFrom_locates true h
  | paragraph => exact Block.paragraphSpans_locates h

theorem matcher_lawful (x : HandScanner) : x.matcher.Lawful := by
  cases x with
  | emphasis => exact Matcher.lawful_ofScanner Line.emphasisScanner_lawful _
  | item => exact Listing.itemMatcher_lawful
  | definition => exact Matcher.lawful_ofScanner Listing.definitionScanner_lawful _
  | definitionList => exact Matcher.lawful_ofScanner Listing.definitionListScanner_lawful _
  | paragraph => exact Matcher.lawful_ofScanner Block.paragraphScanner_lawful _

theorem whole_ne_nil (x : HandScanner) (h : x.matcher.find behind t = some m) : m.whole ≠ [] := by
  cases x with
  | emphasis =>
    obtain ⟨mark, -, content, hne, hw, -⟩ := Line.emphasis_shape h
    simp [hw, hne]
  | item =>
    obtain ⟨mark, space, content, hne, -, -, hw, -⟩ := Listing.item_parts h
    simp [hw, hne]
  | definition =>
    obtain ⟨d, hw, -⟩ := Listing.definition_parts h
    simp [hw, Listing.Definition.whole]
  | definitionList =>
    obtain ⟨d, rest, hw⟩ := Listing.definitionList_parts h
    simp [hw, Listing.Definition.whole]
  | paragraph =>
    obtain ⟨-, prose, others, hne, hprose, -, hw, -⟩ := Block.paragraph_shape h
    obtain ⟨l, prose, rfl⟩ := List.exists_cons_of_ne_nil hne
    have hl : l ≠ [] := by
      rintro rfl
      exact absurd (hprose [] List.mem_cons_self) (by decide)
    simp [hw, Text.joinLines_cons, hl]

/-- From a character boundary each scanner gets through the text: it finds nothing, or what its matcher finds, which is
not empty and lies behind the position in the text, with its groups inside. -/
theorem scans_inside_text (x : HandScanner) (h : t.IsBoundary start) : ∃ r, x.spansAt t start = .ok r ∧
    x.matcher.findAt t start = r.mapM (Match.ofSpans t) ∧ ∀ s ∈ r, s.Fits t start := by
  obtain ⟨u, v, ht, rfl⟩ := Text.isBoundary_iff.1 h
  obtain ⟨r, hr, hof⟩ := x.spansAt_locates ht
  refine ⟨r, hr, ?_⟩
  have hat := x.matcher.findAt_of_eq ht rfl
  cases hf : x.matcher.find u.reverse v with
  | none =>
    rw [hf] at hof hat
    cases hof
    exact ⟨hat, fun s hs => nomatch hs⟩
  | some m =>
    rw [hf] at hof hat
    obtain @⟨s, _, hs⟩ := hof
    have htext := (x.matcher_lawful _ _ _ hf).1
    rw [List.reverse_reverse, ← ht] at htext
    have hstart := Matcher.le_of_findAt x.matcher_lawful hat
    refine ⟨?_, fun s' hs' => ?_⟩
    · have hslices := hs.ofSpans
      rw [htext] at hslices
      simp [hat, hslices]
    · obtain rfl := Option.mem_some.1 hs'
      exact htext ▸ hs.fits hstart (x.whole_ne_nil hf)

/-- The body is indented by two wide spaces. -/
theorem wide_indent_inside_text : Text.IsBoundary "é\nä:\n\u3000\u3000ö".toList 2 ∧
    ∃ s, definition.spansAt "é\nä:\n\u3000\u3000ö".toList 2 = .ok (some s) ∧
      s.Fits "é\nä:\n\u3000\u3000ö".toList 2 := by
  have hstart : Text.IsBoundary "é\nä:\n\u3000\u3000ö".toList 2 := by decide
  have hsome : (definition.matcher.findAt "é\nä:\n\u3000\u3000ö".toList 2).toOption.join.isSome = true := by decide
  obtain ⟨r, hr, hfind, hfits⟩ := definition.scans_inside_text hstart
  cases r with
  | none =>
    rw [hfind] at hsome
    contradiction
  | some s => exact ⟨hstart, s, hr, hfits s rfl⟩

end HandScanner
end Markup
