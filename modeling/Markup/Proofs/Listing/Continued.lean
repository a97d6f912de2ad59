import Markup.Proofs.Listing.Shape
import Markup.Proofs.Match
import Markup.Proofs.Pattern.Forced
import Markup.Proofs.Text.Lines

/-! # Items with lines below

An item is written as its mark, a blank and its first line, with the indent before every other line. The scanner takes
it as far as it has been written, and without the indent its lines are what they were. -/
namespace Markup.Listing
open Pattern
open Text (joinLines startLines joinLines_cons)
variable {prev : Option Char} {mark c l w rest : Text} {ls others : List Text} {next : State → Option State} {s : State}

/-- A line that does not begin with white space. -/
structure Flush (c : Text) : Prop where
  head : c.head?.any (!isSpace ·) = true
  line : '\n' ∉ c

theorem Flush.exists_cons (hc : Flush c) : ∃ a u, c = a :: u ∧ isSpace a = false ∧ isIndent a = false := by
  cases c with
  | nil => exact absurd hc.head (by decide)
  | cons a u =>
    have ha : isSpace a = false := by simpa using hc.head
    exact ⟨a, u, rfl, ha, by rw [isIndent, ha, Bool.false_and]⟩

theorem walk_mark (hm : IsMark mark) (hs : s.ahead = mark ++ rest) (hn : next (s.behind mark rest) ≠ none) :
    (atLeast 1 Char.isDigit ++ word "." <|> word "*").walk next s = next (s.behind mark rest) := by
  rw [walk_orElse, walk_append]
  rcases hm with rfl | ⟨digits, hne, hd, rfl⟩
  · rw [walk_atLeast_eq_none (by rw [hs]; rfl), walk_word rest hs]
    rfl
  · rw [List.append_assoc] at hs
    have hpoint : (word ".").walk next (s.behind digits ('.' :: rest)) = next (s.behind (digits ++ ['.']) rest) := by
      rw [walk_word rest rfl, State.behind_behind]
      rfl
    obtain ⟨r, hr⟩ := Option.ne_none_iff_exists'.1 hn
    rw [walk_atLeast digits ('.' :: rest) hs hd rfl (List.length_pos_iff.2 hne) (hpoint ▸ hn), hpoint, hr]
    rfl

section
variable {space : Text} (hspace : space ≠ [] ∧ ∀ b ∈ space, isSpace b = true)
include hspace

/-- White space and the line behind it are taken up to the end of the line. -/
theorem walk_content (hc : Flush c) (hrest : rest.head?.all (· == '\n') = true) (hs : s.ahead = space ++ (c ++ rest)) :
    (atLeast 1 isSpace).walk ((group 1 (atLeast 1 (· != '\n'))).walk some) s =
      some { s.behind (space ++ c) rest with captures := ⟨1, c ++ rest, c.length⟩ :: s.captures } := by
  obtain ⟨a, u, hau, ha, -⟩ := hc.exists_cons
  have hstop : (c ++ rest).head?.any isSpace = false := by simpa [hau] using ha
  have hbreak : rest.head?.any (· != '\n') = false := by
    cases rest with
    | nil => rfl
    | cons b rest => simpa using hrest
  have hline : ∀ b ∈ c, (b != '\n') = true := fun b hb => by
    rw [bne_iff_ne]
    exact fun he => hc.line (he ▸ hb)
  have hgroup {s : State} (hs : s.ahead = c ++ rest) : (group 1 (atLeast 1 (· != '\n'))).walk some s =
      some { s.behind c rest with captures := ⟨1, c ++ rest, c.length⟩ :: s.captures } := by
    rw [walk_group, walk_atLeast c rest hs hline hbreak (by simp [hau])]
    · simp [State.behind, hs]
    · exact Option.some_ne_none _
  rw [walk_atLeast space (c ++ rest) hs hspace.2 hstop (List.length_pos_iff.2 hspace.1), hgroup rfl,
    State.behind_behind]
  · rfl
  · rw [hgroup rfl]
    exact Option.some_ne_none _

/-- The head of an item is its mark, white space and the line. -/
theorem itemHead_scanner (hm : IsMark mark) (hprev : prev.all (· == '\n') = true) (hc : Flush c)
    (hrest : rest.head?.all (· == '\n') = true) :
    itemHead.scanner prev (mark ++ space ++ c ++ rest) = some ⟨mark ++ space ++ c, rest, [some c]⟩ := by
  have hahead : mark ++ space ++ c ++ rest = mark ++ (space ++ (c ++ rest)) := by simp
  have hwalk : itemHead.walk some ⟨prev, 0, mark ++ space ++ c ++ rest, []⟩ =
      some { State.behind ⟨prev, 0, [], []⟩ (mark ++ (space ++ c)) rest with
        captures := [⟨1, c ++ rest, c.length⟩] } := by
    simp only [itemHead, walk_append]
    rw [walk_lineStart hprev, walk_mark hm hahead, walk_content hspace hc hrest rfl, State.behind_behind]
    · rfl
    · rw [walk_content hspace hc hrest rfl]
      exact Option.some_ne_none _
  have hgroups : itemHead.groupCount = 1 := rfl
  have hfind : Capture.find? [⟨1, c ++ rest, c.length⟩] 1 = some c := by simp [Capture.find?]
  rw [scanner, hwalk, hgroups, Option.map_some, State.hit, List.range_one, List.map_singleton, hfind,
    State.behind, Nat.zero_add,
    ← List.append_assoc, List.take_left]

end

theorem isSpace_blank : [' '] ≠ [] ∧ ∀ b ∈ [' '], isSpace b = true := ⟨List.cons_ne_nil _ _, by decide⟩

theorem itemHead_scanner_blank (hm : IsMark mark) (hprev : prev.all (· == '\n') = true) (hc : Flush c)
    (hrest : rest.head?.all (· == '\n') = true) :
    itemHead.scanner prev (mark ++ ' ' :: c ++ rest) = some ⟨mark ++ ' ' :: c, rest, [some c]⟩ := by
  have hblank := itemHead_scanner isSpace_blank hm hprev hc hrest
  rwa [List.append_assoc mark, List.singleton_append] at hblank

/-- The lines with the indent before them. -/
def indentedBy (w : Text) (ls : List Text) : List Text := ls.map (w ++ ·)

theorem newline_not_mem_of_indent (hw : ∀ c ∈ w, isIndent c = true) : '\n' ∉ w := fun h => absurd (hw _ h) (by decide)

theorem newline_not_mem_indentedBy (hw : '\n' ∉ w) (h : ∀ l ∈ ls, '\n' ∉ l) : ∀ l ∈ indentedBy w ls, '\n' ∉ l := by
  simpa [indentedBy, hw] using h

theorem startLines_indentedBy_cons (w l : Text) (ls others : List Text) :
    startLines (indentedBy w (l :: ls) ++ others) =
    '\n' :: joinLines (indentedBy w (l :: ls) ++ others) := by
  rw [indentedBy, List.map_cons, List.cons_append, joinLines_cons, startLines, List.flatMap_cons, startLines,
    List.cons_append]

/-- The white space before the second line is the indent, unless the line itself begins with white space. -/
theorem indent_indentedBy (hw : ∀ c ∈ w, isIndent c = true) (hl : l.head?.all (!isSpace ·) = true)
    (ls others : List Text) :
    Text.indent (joinLines (indentedBy w (l :: ls) ++ others)) = w := by
  have hstop : (l ++ startLines (indentedBy w ls ++ others)).takeWhile isIndent = [] := by
    cases l with
    | nil =>
      cases indentedBy w ls ++ others with
      | nil => rfl
      | cons k ks => rfl
    | cons a l =>
      have ha : isSpace a = false := by simpa using hl
      rw [List.cons_append, List.takeWhile_cons_of_neg (by simp [isIndent, ha])]
  rw [indentedBy, List.map_cons, List.cons_append, joinLines_cons, List.append_assoc, Text.indent,
    List.takeWhile_append_of_pos hw, ← indentedBy, hstop, List.append_nil]

section
variable (hw : ∀ c ∈ w, isIndent c = true) (hlen : 2 ≤ w.length) (hl : l.head?.all (!isSpace ·) = true)
  (hls : ∀ k ∈ l :: ls, '\n' ∉ k) (hothers : ∀ k ∈ others, '\n' ∉ k)
  (hnext : ∀ k ∈ others.head?, w.isPrefixOf k = false)
include hw hlen hl hls hothers hnext

/-- The item goes on as far as the indent of its second line is repeated. -/
theorem continuation?_of_continued :
    continuation? (startLines (indentedBy w (l :: ls) ++ others)) = some (w, indentedBy w (l :: ls), others) := by
  have hlines : (joinLines (indentedBy w (l :: ls) ++ others)).lines = indentedBy w (l :: ls) ++ others :=
    Text.lines_joinLines (by simp [indentedBy])
      (List.forall_mem_append.2 ⟨newline_not_mem_indentedBy (newline_not_mem_of_indent hw) hls, hothers⟩)
  have hall : ∀ k ∈ indentedBy w (l :: ls), w.isPrefixOf k = true := by
    unfold indentedBy
    rw [List.forall_mem_map]
    intro k _
    exact List.isPrefixOf_iff_prefix.2 (List.prefix_append w k)
  rw [startLines_indentedBy_cons, continuation?]
  simp only [indent_indentedBy hw hl, hlines, Text.takeWhile_run hall hnext, Text.dropWhile_run hall hnext]
  rw [if_neg (Nat.not_lt.2 hlen)]

/-- An item with lines below is taken up to the last of them. -/
theorem itemScanner_of_continued (hm : IsMark mark) (hprev : prev.all (· == '\n') = true) (hc : Flush c) :
    itemScanner prev (mark ++ ' ' :: joinLines (c :: indentedBy w (l :: ls)) ++ startLines others) =
      some ⟨mark ++ ' ' :: joinLines (c :: indentedBy w (l :: ls)), startLines others,
        [some (joinLines (c :: indentedBy w (l :: ls))), some (startLines (indentedBy w (l :: ls))), some w]⟩ := by
  have hstart : startLines (indentedBy w (l :: ls)) ++ startLines others =
      startLines (indentedBy w (l :: ls) ++ others) :=
    List.flatMap_append.symm
  have htext : mark ++ ' ' :: joinLines (c :: indentedBy w (l :: ls)) ++ startLines others =
      mark ++ ' ' :: c ++ startLines (indentedBy w (l :: ls) ++ others) := by
    rw [← hstart, joinLines_cons]
    simp
  rw [htext, itemScanner, itemHead_scanner_blank hm hprev hc (Text.head?_startLines _)]
  simp only [Option.bind_eq_bind, Option.bind_some, List.head?_cons, Option.join_some,
    continuation?_of_continued hw hlen hl hls hothers hnext, joinLines_cons]
  simp

end

theorem strip_indentedBy (w : Text) (ls : List Text) :
    (indentedBy w ls).map (fun l => (w.isPrefixOf? l).getD l) = ls := by
  rw [indentedBy, List.map_map]
  refine (List.map_congr_left fun l _ => ?_).trans (List.map_id ls)
  rw [Function.comp_apply, Token.isPrefixOf?_append]
  rfl

theorem stripIndent_indentedBy (hw : ∀ c ∈ w, isIndent c = true) (hne : w ≠ []) (hc : Flush c)
    (hls : ∀ l ∈ ls, '\n' ∉ l) :
    Text.stripIndent w (joinLines (c :: indentedBy w ls)) = joinLines (c :: ls) := by
  have hhead : (w.isPrefixOf? c).getD c = c := by
    obtain ⟨a, u, rfl, -, ha⟩ := hc.exists_cons
    obtain ⟨b, w, rfl⟩ := List.exists_cons_of_ne_nil hne
    have hba : (b == a) = false := by
      rw [beq_eq_false_iff_ne]
      rintro rfl
      exact Bool.false_ne_true (ha.symm.trans (hw b List.mem_cons_self))
    rw [Text.isPrefixOf?_cons_cons, hba]
    rfl
  rw [Text.stripIndent, Text.lines_joinLines (List.cons_ne_nil c _) (List.forall_mem_cons.2
    ⟨hc.line, newline_not_mem_indentedBy (newline_not_mem_of_indent hw) hls⟩), List.map_cons, hhead, strip_indentedBy]

/-- Nothing, or lines the first of which does not begin with the indent. -/
theorem exists_others (hw : '\n' ∉ w) (h : rest = [] ∨ ∃ below, rest = '\n' :: below ∧ ¬ w <+: below) :
    ∃ others, rest = startLines others ∧ (∀ k ∈ others, '\n' ∉ k) ∧ ∀ k ∈ others.head?, w.isPrefixOf k = false := by
  rcases h with rfl | ⟨below, rfl, hbelow⟩
  · exact ⟨[], rfl, by simp, by simp⟩
  · obtain ⟨ls, hls⟩ := Text.exists_lines_eq_line_cons below
    have hjoin := Text.joinLines_lines below
    rw [hls, joinLines_cons] at hjoin
    refine ⟨Text.lines below, ?_, fun k => Text.not_mem_of_mem_lines, ?_⟩
    · rw [hls, startLines, List.flatMap_cons, ← startLines, List.cons_append, hjoin]
    · rw [hls]
      rintro k ⟨⟩
      rw [Text.isPrefixOf_line hw, ← Bool.not_eq_true, List.isPrefixOf_iff_prefix]
      exact hbelow

/-- An item that has been written with an indent of at least two characters before each line but the first is found as
it was written, up to a rest that does not go on with the indent, and its lines are those that were written. -/
theorem continued_item_is_recovered {first second : Text} {more : List Text} (hm : IsMark mark) (hlen : 2 ≤ w.length)
    (hw : ∀ c ∈ w, isIndent c = true) (hfirst : Flush first) (hsecond : second.head?.all (!isSpace ·) = true)
    (hlines : ∀ l ∈ second :: more, '\n' ∉ l) (hrest : rest = [] ∨ ∃ below, rest = '\n' :: below ∧ ¬ w <+: below) :
    itemMatcher.findAt (mark ++ ' ' :: joinLines (first :: indentedBy w (second :: more)) ++ rest) 0 =
        .ok (some ⟨[], mark ++ ' ' :: joinLines (first :: indentedBy w (second :: more)), rest,
          [some (joinLines (first :: indentedBy w (second :: more))), some (startLines (indentedBy w (second :: more))),
            some w]⟩) ∧
      Text.stripIndent w (joinLines (first :: indentedBy w (second :: more))) =
      joinLines (first :: second :: more) := by
  have hne : w ≠ [] := List.ne_nil_of_length_pos (Nat.lt_of_lt_of_le Nat.two_pos hlen)
  obtain ⟨others, rfl, hothers, hnext⟩ := exists_others (newline_not_mem_of_indent hw) hrest
  have hprev : ([] : Text).head?.all (· == '\n') = true := rfl
  have hfind := Scanner.search_of_hit (itemScanner_of_continued hw hlen hsecond hlines hothers hnext hm hprev hfirst)
  refine ⟨?_, stripIndent_indentedBy hw hne hfirst hlines⟩
  rw [Matcher.findAt_zero, itemMatcher_eq]
  exact congrArg Except.ok hfind

/-- The indent is a wide space and a blank, and the second line is empty. -/
theorem continued_item_of_wide_indent_is_recovered :
    itemMatcher.findAt "12. a b\n\u3000 \n\u3000  c\n \u3000d".toList 0 =
        .ok (some ⟨[], "12. a b\n\u3000 \n\u3000  c".toList, "\n \u3000d".toList,
          [some "a b\n\u3000 \n\u3000  c".toList, some "\n\u3000 \n\u3000  c".toList, some "\u3000 ".toList]⟩) ∧
      Text.stripIndent "\u3000 ".toList "a b\n\u3000 \n\u3000  c".toList = "a b\n\n c".toList := by
  have hmark : IsMark "12.".toList := .inr ⟨"12".toList, by decide, by decide, rfl⟩
  have hfirst : Flush "a b".toList := ⟨by decide, by decide⟩
  have hlines : ∀ l ∈ [[], " c".toList], '\n' ∉ l := by decide
  have hbelow : ¬ "\u3000 ".toList <+: " \u3000d".toList := by decide
  exact continued_item_is_recovered hmark (by decide) (by decide) hfirst rfl hlines (.inr ⟨_, rfl, hbelow⟩)

end Markup.Listing
