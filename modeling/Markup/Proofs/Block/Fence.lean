import Markup.Proofs.Block.Shape
import Markup.Proofs.Pattern.Forced
import Markup.Proofs.Script.Search
import Markup.Proofs.Seam.Lines

/-! # The first fence

Lines between two marks are taken as soon as a line holds the mark alone, up to the next line that does. -/
namespace Markup.Block
open Pattern
open Text (Starts)
variable {mark : String} {prev : Option Char} {before text after x y : Text}

theorem mark_mem_lines {m : Text} (hm : '\n' ∉ m) (hy : y.head?.all (· == '\n') = true) :
    m ∈ (x ++ '\n' :: (m ++ y)).lines.tail := by
  obtain ⟨l, ls, hl⟩ := List.exists_cons_of_ne_nil (Text.lines_ne_nil x)
  rw [Text.lines_append_newline, hl, List.cons_append, List.tail_cons, Text.lines_append_of_not_mem hm,
    Text.line_eq_nil hy, List.append_nil]
  exact List.mem_append_right _ List.mem_cons_self

theorem closing_eq_none (hm : '\n' ∉ mark.toList) (hlines : ∀ l ∈ (x ++ y).lines.tail, l ≠ mark.toList)
    (hy : y ≠ []) {s : State} (hs : s.ahead = y ++ '\n' :: (mark.toList ++ after)) (next : State → Option State) :
    (word "\n" ++ (word mark ++ lineEnd)).walk next s = none := by
  cases h : (word "\n" ++ (word mark ++ lineEnd)).walk next s with
  | none => rfl
  | some r =>
    obtain ⟨u, caps, e, hpast, ht, -⟩ := walk_takes h
    simp only [takes_append, takes_word, takes_lineEnd] at ht
    obtain ⟨_, _, _, _, rfl, -, ⟨rfl, -⟩, _, _, _, _, rfl, -, ⟨rfl, -⟩, hstop, rfl, -⟩ := ht
    obtain ⟨c, y, rfl⟩ := List.exists_cons_of_ne_nil hy
    obtain ⟨rfl, hsplit⟩ : c = '\n' ∧ y ++ '\n' :: (mark.toList ++ after) = mark.toList ++ e.ahead := by
      simpa using hs.symm.trans hpast.ahead
    rcases List.append_eq_append_iff.1 hsplit with ⟨z, hmark, hz⟩ | ⟨z, rfl, hz⟩
    · cases z with
      | nil =>
        rw [List.append_nil] at hmark
        have hmem := mark_mem_lines (x := x) (y := []) hm rfl
        rw [List.append_nil] at hmem
        exact absurd rfl (hlines _ (hmark ▸ hmem))
      | cons d z =>
        obtain ⟨rfl, -⟩ := List.cons.inj hz
        exact absurd (hmark ▸ List.mem_append_right _ List.mem_cons_self) hm
    · refine absurd rfl (hlines _ (mark_mem_lines hm ?_))
      cases z with
      | nil => rfl
      | cons d z => simpa [hz] using hstop

theorem fencedScanner (hm : '\n' ∉ mark.toList) (hprev : prev.all (· == '\n') = true) (hne : text ≠ [])
    (hlines : ∀ l ∈ text.lines.tail, l ≠ mark.toList) (hafter : after.head?.all (· == '\n') = true) :
    (fenced mark).scanner prev (mark.toList ++ '\n' :: text ++ '\n' :: mark.toList ++ after) =
      some ⟨mark.toList ++ '\n' :: text ++ '\n' :: mark.toList, after, [some text]⟩ := by
  obtain ⟨e, he, hrest⟩ : ∃ e, (fenced mark).walk some
      ⟨prev, 0, mark.toList ++ '\n' :: text ++ '\n' :: mark.toList ++ after, []⟩ = some e ∧ e.ahead = after := by
    simp only [fenced, walk_append]
    rw [walk_lineStart hprev, walk_word ('\n' :: text ++ '\n' :: mark.toList ++ after) (by simp),
      walk_word (text ++ '\n' :: (mark.toList ++ after)) (by simp [State.behind]), walk_group,
      walk_reluctant text ('\n' :: (mark.toList ++ after)) rfl (fun _ _ => rfl) hne ?_ ?_]
    · rw [walk_word (mark.toList ++ after) rfl, walk_word after rfl, walk_lineEnd hafter]
      exact ⟨_, rfl, rfl⟩
    · rintro x y rfl - hy
      exact closing_eq_none (x := x) hm hlines hy rfl some
    · rw [walk_word (mark.toList ++ after) rfl, walk_word after rfl, walk_lineEnd hafter]
      exact Option.some_ne_none _
  have hs : (fenced mark).scanner prev (mark.toList ++ '\n' :: text ++ '\n' :: mark.toList ++ after) =
      some (State.hit 1 (mark.toList ++ '\n' :: text ++ '\n' :: mark.toList ++ after) e) := by
    rw [scanner, he]
    rfl
  obtain ⟨hsplit, caps, ht, hg⟩ := takes_of_scanner hs
  obtain ⟨-, -, text', -, hw, rfl⟩ := fenced_takes ht
  have hrest : (State.hit 1 (mark.toList ++ '\n' :: text ++ '\n' :: mark.toList ++ after) e).rest = after := hrest
  rw [hs]
  generalize State.hit 1 (mark.toList ++ '\n' :: text ++ '\n' :: mark.toList ++ after) e = hit at hsplit hg hw hrest ⊢
  obtain ⟨whole, rest, groups⟩ := hit
  obtain rfl : rest = after := hrest
  obtain rfl : mark.toList ++ '\n' :: text ++ '\n' :: mark.toList = whole := List.append_cancel_right hsplit
  obtain rfl : text = text' := by simpa using hw
  obtain rfl : groups = [some text] := hg
  rfl

/-- No fence begins in a text without a line that holds the mark alone. -/
theorem fencedScanner_eq_none (hm : '\n' ∉ mark.toList) (hstart : Starts (x ++ y))
    (hlines : ∀ l ∈ (x ++ y).lines, l ≠ mark.toList) (hy : y ≠ []) :
    (fenced mark).scanner x.reverse.head? (y ++ after) = none := by
  cases h : (fenced mark).scanner x.reverse.head? (y ++ after) with
  | none => rfl
  | some hit =>
    obtain ⟨hsplit, caps, ht, -⟩ := takes_of_scanner h
    obtain ⟨hprev, -, text, -, hw, -⟩ := fenced_takes ht
    rw [List.head?_reverse] at hprev
    obtain ⟨ls, hls⟩ := Starts.exists_lines hprev
    have hbreak : '\n' ∈ y := by
      rw [Starts, List.getLast?_append_of_ne_nil _ hy, List.getLast?_eq_some_getLast hy] at hstart
      have hlast : y.getLast hy = '\n' := by simpa using hstart
      exact hlast ▸ List.getLast_mem hy
    rw [hw, List.append_assoc, List.append_assoc] at hsplit
    rcases List.append_eq_append_iff.1 hsplit with ⟨z, hmark, -⟩ | ⟨z, rfl, hz⟩
    · exact absurd (hmark ▸ List.mem_append_left z hbreak) hm
    · cases z with
      | nil =>
        rw [List.append_nil] at hbreak
        exact absurd hbreak hm
      | cons d z =>
        obtain rfl : '\n' = d := by simpa using congrArg List.head? hz
        refine absurd rfl (hlines mark.toList ?_)
        rw [hls, Text.lines_append_newline, Text.lines_eq_singleton hm]
        simp

theorem find_fenced (hm : '\n' ∉ mark.toList) (hstart : Starts before) (hbefore : ∀ l ∈ before.lines, l ≠ mark.toList)
    (hne : text ≠ []) (hlines : ∀ l ∈ text.lines.tail, l ≠ mark.toList) (hafter : after.head?.all (· == '\n') = true) :
    (fenced mark).matcher.find []
      (before ++ (mark.toList ++ '\n' :: text ++ '\n' :: mark.toList ++ after)) =
      some ⟨before.reverse, mark.toList ++ '\n' :: text ++ '\n' :: mark.toList, after, [some text]⟩ := by
  have hprev : before.reverse.head?.all (· == '\n') = true := by rwa [List.head?_reverse]
  rw [matcher_eq]
  refine (Scanner.search_skip fun x y hxy hy => ?_).trans ?_
  · rw [List.append_nil]
    exact fencedScanner_eq_none hm (hxy ▸ hstart) (hxy ▸ hbefore) hy
  · rw [List.append_nil]
    exact Scanner.search_of_hit (fencedScanner hm hprev hne hlines hafter)

end Markup.Block
