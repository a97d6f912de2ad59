import Markup.Dialect
import Markup.Proofs.Listing.Outline
import Markup.Proofs.Rule.Quiet
import Markup.Proofs.Script.Shows
import Markup.Proofs.Text.Trim

/-! # Items one after the other

The item rule takes the items of a forest from the first to the last one. What it has made of an item stays in the text
and begins no item again. -/
namespace Markup.Listing
open Grammar Outline
open Text (joinLines startLines endLines joinLines_cons)
variable {g : Grammar} {t : Outline} {ts : List Outline} {u c mark space inner out text : Text}
  {done ls : List Text} {s s' s'' : Store}

/-- No line of the text begins an item. -/
def Headless (u : Text) : Prop := ∀ l ∈ u.lines, l.head?.all (fun a => a != '*' && !a.isDigit) = true

theorem headless_block (h : Headless inner) : Headless (Html.block "li" inner) := by
  have hblock : Html.block "li" inner = "<li>".toList ++ '\n' :: (inner ++ '\n' :: "</li>".toList) := by
    simp [Html.block, Html.element]
  have hopening : Text.lines "<li>".toList = ["<li>".toList] := rfl
  have hclosing : Text.lines "</li>".toList = ["</li>".toList] := rfl
  rw [Headless, hblock, Text.lines_append_newline, Text.lines_append_newline, hopening, hclosing]
  simp only [List.forall_mem_append, List.forall_mem_singleton]
  exact ⟨by decide, h, by decide⟩

theorem newline_not_mem_of_flatMap_lines {l : Text} (hl : l ∈ done.flatMap Text.lines) : '\n' ∉ l := by
  obtain ⟨u, -, hl⟩ := List.mem_flatMap.1 hl
  exact Text.not_mem_of_mem_lines hl

theorem evaluates_itemBlock {stage : Stage} {content : Text} (hrun : g.Runs stage content s inner s') :
    g.Evaluates (Program.rerun stage content >>= fun inner => pure (some (Html.block "li" inner))) s
      (some (Html.block "li" inner)) s' :=
  evaluates_rerun_bind.2 ⟨inner, s', hrun, evaluates_pure _ s'⟩

section
variable (hdone : ∀ l ∈ done.flatMap Text.lines, itemScanner.Passes l)
include hdone

theorem find_item_eq_none : itemMatcher.find [] (joinLines done) = none := by
  rw [itemMatcher_eq]
  by_cases hne : done = []
  · subst hne
    rfl
  · rw [← Text.joinLines_flatMap_lines]
    exact Scanner.search_joinLines itemScanner_inLine (fun _ => newline_not_mem_of_flatMap_lines) hdone
      (Text.flatMap_lines_ne_nil hne) []

theorem find_item {w rest : Text} {groups : List (Option Text)} (hne : ls ≠ [])
    (hit : ∀ prev : Option Char, prev.all (· == '\n') = true →
      itemScanner prev (joinLines ls) = some ⟨w, rest, groups⟩) :
    itemMatcher.find [] (joinLines (done ++ ls)) = some ⟨(endLines done).reverse, w, rest, groups⟩ := by
  have hskip : itemScanner.search [] (endLines (done.flatMap Text.lines) ++ joinLines ls) = _ :=
    Scanner.search_endLines itemScanner_inLine (fun _ => newline_not_mem_of_flatMap_lines) hdone
  rw [Text.endLines_flatMap_lines, List.append_nil] at hskip
  rw [itemMatcher_eq, Text.joinLines_append hne]
  exact hskip.trans (Scanner.search_of_hit (hit _ (Text.head?_reverse_endLines done)))

/-- The first item is a mark and a line, with nothing below: its element takes its place. -/
theorem applies_item_line (hothers : ∀ l ∈ ls.head?, l.head?.all (!isIndent ·) = true) (hm : IsMark mark)
    (hspace : space ≠ [] ∧ ∀ b ∈ space, isSpace b = true) (hc : Flush c) (hrun : g.Runs .line c s inner s') :
    g.Applies item (joinLines (done ++ (mark ++ space ++ c) :: ls)) s out s'' ↔
      g.Applies item (joinLines (done ++ Html.block "li" inner :: ls)) s' out s'' := by
  have hfind := find_item hdone (List.cons_ne_nil _ _) fun _ => itemScanner_of_line hm hspace hc hothers
  have hnew : Html.block "li" inner ≠ mark ++ space ++ c := fun h =>
    hm.head_ne (d := '<') (by decide) (space ++ c) (by rw [← List.append_assoc, ← h]; rfl)
  refine (saturates_step hfind (evaluates_itemBlock hrun) hnew).trans ?_
  rw [Match.replaceBy_reverse, Text.joinLines_append_cons, List.append_assoc]
  rfl

end

section
variable (hdone : ∀ u ∈ done, Headless u)
include hdone

theorem passes_of_headless {l : Text} (hl : l ∈ done.flatMap Text.lines) : itemScanner.Passes l := by
  obtain ⟨u, hu, hl⟩ := List.mem_flatMap.1 hl
  exact itemScanner_passes (hdone u hu l hl)

theorem find_parent (label : Label) {children : List Outline} (hne : children ≠ []) (ts : List Outline) :
    itemMatcher.find [] (joinLines (done ++ allLines (.item label children :: ts))) =
      some ⟨(endLines done).reverse, joinLines (entry 0 label.text :: indented (allLines children)),
        startLines (allLines ts), [some (joinLines (label.text :: indented (allLines children))),
          some (startLines (indented (allLines children))), some "  ".toList]⟩ := by
  obtain ⟨k, ks, rfl⟩ := List.exists_cons_of_ne_nil hne
  have hbelow : ∀ l ∈ allLines (k :: ks), '\n' ∉ l := fun l => newline_not_mem
  have hothers : ∀ l ∈ allLines ts, '\n' ∉ l := fun l => newline_not_mem
  refine find_item (fun _ => passes_of_headless hdone) (List.cons_ne_nil _ _) fun prev hprev => ?_
  rw [allLines_cons] at hbelow
  rw [allLines_cons, Outline.children, Outline.label, allLines_cons]
  exact itemScanner_of_indented hprev label.flush hbelow hothers (next_allLines ts)

theorem applies_item_cons (hrun : g.Runs t.stage t.content s inner s') :
    g.Applies item (joinLines (done ++ allLines (t :: ts))) s out s'' ↔
      g.Applies item (joinLines (done ++ Html.block "li" inner :: allLines ts)) s' out s'' := by
  obtain ⟨label, children⟩ := t
  by_cases hne : children = []
  · subst hne
    have hline : g.Runs .line label.text s inner s' := by
      simpa [Outline.stage, Outline.content, Outline.label, Outline.children, allLines,
        Text.joinLines_singleton] using hrun
    exact applies_item_line (fun _ => passes_of_headless hdone)
      (isIndent_eq_false_of_next (next_allLines ts)) (.inl rfl)
      isSpace_blank label.flush hline
  · have hblock : g.Runs .block (joinLines (label.text :: allLines children)) s inner s' := by
      simpa [Outline.stage, Outline.content, Outline.label, Outline.children, hne] using hrun
    rw [← stripIndent_indented label.flush fun l => newline_not_mem] at hblock
    have hnew : Html.block "li" inner ≠ joinLines (entry 0 label.text :: indented (allLines children)) := fun h => by
      have hhead := congrArg List.head? h
      rw [joinLines_cons] at hhead
      exact absurd hhead (by simp [Html.block, Html.element, entry_zero])
    refine (saturates_step (find_parent hdone label hne ts) (evaluates_itemBlock hblock) hnew).trans ?_
    rw [Match.replaceBy_reverse, Text.joinLines_append_cons, List.append_assoc]
    rfl

end

/-- What an outline holds runs to the inside of its element. -/
structure Renders (t : Outline) (s : Store) (inner : Text) (s' : Store) : Prop where
  runs : dialect.Runs t.stage t.content s inner s'
  le : s.Le s'
  shows : Shows s' (Html.block "li" inner) t.html
  headless : Headless inner
  colon : ':' ∉ inner

/-- One item after the other: what lies behind is done, and what lies ahead is as it was written. -/
theorem applies_items (hts : ∀ t ∈ ts, ∀ s, ∃ inner s', Renders t s inner s') (hdone : ∀ u ∈ done, Headless u)
    (s : Store) :
    ∃ outs s', dialect.Applies item (joinLines (done ++ allLines ts)) s (joinLines (done ++ outs)) s' ∧ s.Le s' ∧
      List.Forall₂ (Shows s') outs (allHtml ts) ∧ ∀ u ∈ outs, ':' ∉ u := by
  induction ts generalizing done s with
  | nil =>
    refine ⟨[], s, ?_, .refl s, .nil, by simp⟩
    rw [allLines, List.append_nil]
    exact saturates_done (find_item_eq_none fun _ => passes_of_headless hdone) s
  | cons t ts ih =>
    rw [List.forall_mem_cons] at hts
    obtain ⟨inner, s₁, h⟩ := hts.1 s
    have hdone' : ∀ u ∈ done ++ [Html.block "li" inner], Headless u := by
      rw [List.forall_mem_append, List.forall_mem_singleton]
      exact ⟨hdone, headless_block h.headless⟩
    obtain ⟨outs, s', happlies, hle, hshows, hcolon⟩ := ih hts.2 hdone' s₁
    rw [List.append_assoc, List.singleton_append, List.append_assoc, List.singleton_append] at happlies
    refine ⟨Html.block "li" inner :: outs, s', (applies_item_cons hdone h.runs).2 happlies, h.le.trans hle,
      .cons (h.shows.mono hle) hshows, List.forall_mem_cons.2 ⟨?_, hcolon⟩⟩
    simp [Html.block, Html.element, h.colon]

theorem definition_quiet (h : ':' ∉ text) : definition.Quiet text :=
  Rule.quiet_of_not_mem (fun found hf => by
    obtain ⟨htext, d, hw, -⟩ := definition_shape hf
    exact ⟨htext, by simp [hw, Definition.whole]⟩) h

theorem runs_list (hts : ∀ t ∈ ts, ∀ s, ∃ inner s', Renders t s inner s') (s : Store) :
    ∃ items s', dialect.Runs .list (joinLines (allLines ts)) s items s' ∧ s.Le s' ∧
      Shows s' items (joinLines (allHtml ts)) := by
  have hnil : ∀ u ∈ ([] : List Text), Headless u := fun u hu => absurd hu List.not_mem_nil
  obtain ⟨outs, s', happlies, hle, hshows, hcolon⟩ := applies_items hts hnil s
  have hquiet : ':' ∉ joinLines outs := fun h => by
    obtain ⟨u, hu, hmem⟩ := Text.mem_of_mem_joinLines (by decide) h
    exact hcolon u hu hmem
  exact ⟨joinLines outs, s', runs_iff.2 (appliesAll_cons.2 ⟨_, s', happlies,
    appliesAll_cons.2 ⟨_, s', (definition_quiet hquiet).applies s', appliesAll_nil⟩⟩), hle, .joinLines hshows⟩

end Markup.Listing
