import Markup.Proofs.Run
import Markup.Proofs.Table.Rules
import Markup.Proofs.Text.Lines

/-! # Tables line by line

The table stage comes to the same as one pass over the lines from top to bottom: a row is rendered in its place, a line
that makes the row above a header goes away with it, and every other line stays. -/
namespace Markup.Table
open Pattern Grammar
open Text (joinLines startLines endLines)
variable {prev : Option Char} {l k t rest : Text} {done ls : List Text}

/-- The columns of a cell, where there are several. -/
def cellSpan (columns : Nat) : Text :=
  if 1 < columns then " colspan=\"".toList ++ Nat.toDigits 10 columns ++ ['"'] else []

/-- White space before a text moves it to the right, and white space on both sides to the center. -/
def cellStyle (t : Text) : Text :=
  if 2 ≤ t.length ∧ t.head?.any isSpace = true then
    if t.getLast?.any isSpace =
      true then " style=\"text-align:center\"".toList else " style=\"text-align:right\"".toList
  else []

def cellHtml (tag : String) (c : Cell) : Text :=
  '<' :: tag.toList ++ cellSpan c.colspan ++ cellStyle c.text ++ '>' :: Text.trim c.text ++
    "</".toList ++ tag.toList ++ ['>']

/-- A row in the place of its line. -/
def rowHtml (tag : String) (l : Text) : Text :=
  "<tr>".toList ++ (splitCells l.dropLast).flatMap (cellHtml tag) ++ "</tr>".toList

/-- A line that is no header. -/
def lineHtml (l : Text) : Text := if isRow l then rowHtml "td" l else l

/-- The lines from top to bottom; a divider goes away with the row above. -/
def rowLines : List Text → List Text
  | [] => []
  | [l] => [lineHtml l]
  | l :: k :: ls => if isRow l && isDivider k then rowHtml "th" l :: rowLines ls else lineHtml l :: rowLines (k :: ls)

theorem render_eq_cellHtml (tag : String) (c : Cell) : c.render tag = cellHtml tag c := by
  have hspan : Html.attributes (if c.colspan > 1 then [("colspan", Nat.toDigits 10 c.colspan)] else []) =
      cellSpan c.colspan := by
    unfold cellSpan
    split
    · simp [Html.attributes]
    · rfl
  have hstyle : Html.attributes (Alignment.ofCell c.text).attributes = cellStyle c.text := by
    rw [ofCell_eq, cellStyle]
    split
    · split <;> rfl
    · rfl
  rw [render_eq, cellOpening, Html.attributes_append, hspan, hstyle]
  simp [cellHtml, Html.closing]

theorem renderRow_eq_rowHtml (tag : String) (l : Text) : renderRow tag l.dropLast = rowHtml tag l := by
  simp [renderRow, Html.element, rowHtml, funext (render_eq_cellHtml tag)]

theorem newline_not_mem_rowHtml {tag : String} (ht : '\n' ∉ tag.toList) (hl : '\n' ∉ l) : '\n' ∉ rowHtml tag l := by
  rw [← renderRow_eq_rowHtml]
  refine not_mem_renderRow (.inr rfl) ht fun c hc hmem => hl ?_
  exact List.dropLast_subset l (mem_of_mem_splitCells hc hmem)

theorem isRow_rowHtml (tag : String) (l : Text) : isRow (rowHtml tag l) = false := by
  have hhead : (rowHtml tag l).head? = some '<' := rfl
  exact isRow_eq_false_of_head (by rw [hhead]; decide)

theorem newline_not_mem_lineHtml (hl : '\n' ∉ l) : '\n' ∉ lineHtml l := by
  unfold lineHtml
  split
  · exact newline_not_mem_rowHtml (by decide) hl
  · exact hl

theorem isRow_lineHtml (l : Text) : isRow (lineHtml l) = false := by
  unfold lineHtml
  split
  · exact isRow_rowHtml "td" l
  · next h => exact Bool.eq_false_iff.2 h

theorem row_inLine (c : Char) (t : Text) (hc : c ≠ '\n') : rowPattern.scanner (some c) t = none := by
  rw [Option.eq_none_iff_forall_ne_some]
  intro hit hs
  obtain ⟨-, caps, htakes, -⟩ := takes_of_scanner hs
  have hprev := (rowPattern_takes_iff.1 htakes).1
  exact hc (by simpa using hprev)

theorem row_passes (hl : '\n' ∉ l) (h : isRow l = false) : rowPattern.scanner.Passes l := by
  intro prev t ht
  rw [Option.eq_none_iff_forall_ne_some]
  intro hit hs
  obtain ⟨hcut, caps, htakes, -⟩ := takes_of_scanner hs
  obtain ⟨-, hend, l', hrow, hl', ⟨hw, -⟩ | ⟨k, -, hw, -⟩⟩ := rowPattern_takes_iff.1 htakes
  · obtain ⟨rfl, -⟩ := Text.cut_line hl hl' ht hend (hcut.trans (by rw [hw]))
    exact Bool.false_ne_true (h.symm.trans hrow)
  · have hbreak : ('\n' :: (k ++ hit.rest)).head?.all (· == '\n') = true := rfl
    obtain ⟨rfl, -⟩ := Text.cut_line hl hl' ht hbreak (hcut.trans (by rw [hw, List.append_assoc, List.cons_append]))
    exact Bool.false_ne_true (h.symm.trans hrow)

/-- A row does not end above a line that makes it a header. -/
theorem rest_ne_divider {hit : Hit} (hs : rowPattern.scanner prev t = some hit) (hw : '\n' ∉ hit.whole)
    (hk : isDivider k = true) (hr : rest.head?.all (· == '\n') = true) : hit.rest ≠ '\n' :: (k ++ rest) := by
  obtain ⟨r, hwalk, rfl⟩ := Option.map_eq_some_iff.1 hs
  intro hrest
  rw [rowPattern_eq, walk_append, walk_append] at hwalk
  obtain ⟨u, c, e, hpast, -, hwalk⟩ := walk_takes hwalk
  rcases walk_optional hwalk with hwalk | ⟨hnone, hwalk⟩
  · obtain ⟨v, d, e', hpast', htakes, hwalk⟩ := walk_takes hwalk
    obtain ⟨k', -, rfl, -⟩ := divider_takes_iff.1 htakes
    obtain ⟨w, _, e'', hpast'', -, hlast⟩ := walk_takes hwalk
    obtain rfl : e'' = r := Option.some.inj hlast
    have hall := (hpast.trans hpast').trans hpast''
    have htext : t = u ++ '\n' :: k' ++ w ++ e''.ahead := hall.ahead
    have hwhole : t.take e''.taken = u ++ '\n' :: k' ++ w := by
      rw [hall.taken, Nat.zero_add, htext]
      exact List.take_left
    refine hw ?_
    rw [State.hit, hwhole]
    simp
  · obtain ⟨w, _, _, hpast', ⟨-, rfl, -⟩, hlast⟩ := walk_takes hwalk
    obtain rfl := Option.some.inj hlast
    have hahead : e.ahead = '\n' :: k ++ rest := hpast'.ahead.trans hrest
    refine walk_ne_none (by decide) (divider_takes_iff.2 ⟨k, hk, rfl, rfl⟩) rfl hahead ?_ hnone
    intro e' _ he'
    rw [walk_lineEnd (he' ▸ hr)]
    exact Option.some_ne_none _

/-- A row with a divider below is taken as a header, with the divider. -/
theorem row_scanner_header (hprev : prev.all (· == '\n') = true) (hrow : isRow l = true) (hl : '\n' ∉ l)
    (hk : isDivider k = true) (hr : rest.head?.all (· == '\n') = true) :
    rowPattern.scanner prev (l ++ '\n' :: k ++ rest) =
    some ⟨l ++ '\n' :: k, rest, [some l.dropLast, some ('\n' :: k)]⟩ := by
  have hsome := scanner_ne_none (by decide) (rowPattern_takes_iff.2 ⟨hprev, hr, l, hrow, hl, .inr ⟨k, hk, rfl, rfl⟩⟩)
  obtain ⟨⟨whole, below, groups⟩, hs⟩ := Option.ne_none_iff_exists'.1 hsome
  obtain ⟨hcut, caps, htakes, hgroups⟩ := takes_of_scanner hs
  rw [List.append_assoc] at hcut
  obtain ⟨-, hend, l', -, hl', ⟨rfl, -⟩ | ⟨k', hk', rfl, rfl⟩⟩ := rowPattern_takes_iff.1 htakes
  · obtain ⟨-, hbelow⟩ := Text.cut_line hl hl' rfl hend hcut
    exact absurd hbelow.symm (rest_ne_divider hs hl' hk hr)
  · rw [List.append_assoc] at hcut
    obtain ⟨rfl, hbelow⟩ := Text.cut_line hl hl' rfl rfl hcut
    obtain ⟨rfl, rfl⟩ := Text.cut_line (newline_not_mem_of_isDivider hk) (newline_not_mem_of_isDivider hk') hr hend
      (List.cons.inj hbelow).2
    obtain rfl : groups = _ := hgroups
    exact hs

theorem row_scanner_alone (hprev : prev.all (· == '\n') = true) (hrow : isRow l = true) (hl : '\n' ∉ l)
    (hls : ∀ k ∈ ls, '\n' ∉ k) (hdiv : ∀ k ∈ ls.head?, isDivider k = false) :
    rowPattern.scanner prev (l ++ startLines ls) = some ⟨l, startLines ls, [some l.dropLast, none]⟩ := by
  have hr := Text.head?_startLines ls
  have hsome := scanner_ne_none (by decide) (rowPattern_takes_iff.2 ⟨hprev, hr, l, hrow, hl, .inl ⟨rfl, rfl⟩⟩)
  obtain ⟨⟨whole, below, groups⟩, hs⟩ := Option.ne_none_iff_exists'.1 hsome
  obtain ⟨hcut, caps, htakes, hgroups⟩ := takes_of_scanner hs
  obtain ⟨-, hend, l', -, hl', ⟨rfl, rfl⟩ | ⟨k', hk', rfl, -⟩⟩ := rowPattern_takes_iff.1 htakes
  · obtain ⟨rfl, rfl⟩ := Text.cut_line hl hl' hr hend hcut
    obtain rfl : groups = [some l.dropLast, none] := hgroups
    exact hs
  · rw [List.append_assoc] at hcut
    obtain ⟨-, hbelow⟩ := Text.cut_line hl hl' hr rfl hcut
    cases ls with
    | nil => contradiction
    | cons k ls =>
      obtain ⟨rfl, -⟩ := Text.cut_line (hls k List.mem_cons_self) (newline_not_mem_of_isDivider hk')
        (Text.head?_startLines ls) hend
        (List.cons.inj hbelow).2
      exact absurd ((hdiv k rfl).symm.trans hk') Bool.false_ne_true

/-- Lines at which there is nothing to do. -/
structure Rowless (ls : List Text) : Prop where
  line : ∀ l ∈ ls, '\n' ∉ l
  other : ∀ l ∈ ls, isRow l = false

theorem Rowless.concat (h : Rowless ls) (hl : '\n' ∉ l) (hrow : isRow l = false) : Rowless (ls ++ [l]) where
  line := List.forall_mem_append.2 ⟨h.line, List.forall_mem_singleton.2 hl⟩
  other := List.forall_mem_append.2 ⟨h.other, List.forall_mem_singleton.2 hrow⟩

theorem Rowless.passes (h : Rowless ls) : ∀ l ∈ ls, rowPattern.scanner.Passes l :=
  fun l hl => row_passes (h.line l hl) (h.other l hl)

section
variable {G : Grammar} {s s' : Store} {out : Text} (hdone : Rowless done)
include hdone

theorem applies_rowless (s : Store) : G.Applies row (joinLines done) s (joinLines done) s := by
  refine saturates_done ?_ s
  rw [matcher_eq]
  by_cases hne : done = []
  · subst hne
    decide
  · exact Scanner.search_joinLines row_inLine hdone.line hdone.passes hne []

theorem applies_row (taken : List Text) (header : Option Text) (hne : taken ≠ [])
    (hhit : rowPattern.scanner (endLines done).reverse.head? (joinLines (taken ++ ls)) =
      some ⟨joinLines taken, startLines ls, [some l.dropLast, header]⟩) (hhead : (joinLines taken).head? = some '|') :
    G.Applies row (joinLines (done ++ (taken ++ ls))) s out s' ↔
      G.Applies row (joinLines (done ++ [rowHtml (if header.isSome then "th" else "td") l] ++ ls)) s out s' := by
  let found : Match := ⟨(endLines done).reverse, joinLines taken, startLines ls, [some l.dropLast, header]⟩
  have hfind : rowPattern.matcher.find [] (joinLines (done ++ (taken ++ ls))) = some found := by
    rw [matcher_eq, Text.joinLines_append (List.append_ne_nil_of_left_ne_nil hne ls)]
    refine (Scanner.search_endLines row_inLine hdone.line hdone.passes).trans ?_
    rw [List.append_nil]
    exact Scanner.search_of_hit hhit
  have hnew : renderRow (if header.isSome then "th" else "td") l.dropLast ≠ joinLines taken := by
    intro h
    rw [← h] at hhead
    exact absurd (Option.some.inj hhead) (by decide)
  have htext (html : Text) : endLines done ++ html ++ startLines ls = joinLines (done ++ [html] ++ ls) := by
    rw [← List.append_cons, Text.joinLines_append_cons, List.append_assoc]
  rw [row, applies_pattern, saturates_step hfind (evaluates_pure _ s) hnew, Match.replaceBy_reverse, htext,
    renderRow_eq_rowHtml]
  rfl

/-- One round, or none: a line without a divider below is rendered by itself. -/
theorem applies_line (hline : '\n' ∉ l) (hls : ∀ k ∈ ls, '\n' ∉ k)
    (hdiv : isRow l = true → ∀ k ∈ ls.head?, isDivider k = false) :
    G.Applies row (joinLines (done ++ l :: ls)) s out s' ↔
    G.Applies row (joinLines (done ++ [lineHtml l] ++ ls)) s out s' := by
  unfold lineHtml
  split
  · next hrow =>
    refine applies_row hdone [l] none (List.cons_ne_nil l []) ?_ ?_
    · rw [Text.joinLines_singleton, List.singleton_append, Text.joinLines_cons]
      exact row_scanner_alone (Text.head?_reverse_endLines done) hrow hline hls (hdiv hrow)
    · obtain ⟨inner, -, rfl⟩ := isRow_iff.1 hrow
      rfl
  · rw [List.append_assoc, List.singleton_append]

theorem applies_header (hrow : isRow l = true) (hline : '\n' ∉ l) (hk : isDivider k = true) :
    G.Applies row (joinLines (done ++ l :: k :: ls)) s out s' ↔
      G.Applies row (joinLines (done ++ [rowHtml "th" l] ++ ls)) s out s' := by
  have htaken : joinLines [l, k] = l ++ '\n' :: k := by rw [Text.joinLines_cons_cons, Text.joinLines_singleton]
  refine applies_row hdone [l, k] (some ('\n' :: k)) (List.cons_ne_nil l [k]) ?_ ?_
  · rw [← Text.joinLines_append_startLines (List.cons_ne_nil l [k]), htaken]
    exact row_scanner_header (Text.head?_reverse_endLines done) hrow hline hk (Text.head?_startLines ls)
  · obtain ⟨inner, -, rfl⟩ := isRow_iff.1 hrow
    rw [htaken]
    rfl

theorem applies_rowLines (ls : List Text) (hls : ∀ l ∈ ls, '\n' ∉ l) (s : Store) :
    G.Applies row (joinLines (done ++ ls)) s (joinLines (done ++ rowLines ls)) s := by
  fun_induction rowLines ls generalizing done with
  | case1 =>
    rw [List.append_nil]
    exact applies_rowless hdone s
  | case2 l =>
    rw [List.forall_mem_singleton] at hls
    rw [applies_line hdone hls (by simp) (by simp), List.append_nil]
    exact applies_rowless (hdone.concat (newline_not_mem_lineHtml hls) (isRow_lineHtml l)) s
  | case3 l k ls hheader ih =>
    simp only [List.forall_mem_cons, Bool.and_eq_true] at hls hheader
    rw [List.append_cons done (rowHtml "th" l) (rowLines ls), applies_header hdone hheader.1 hls.1 hheader.2]
    exact ih (hdone.concat (newline_not_mem_rowHtml (by decide) hls.1) (isRow_rowHtml "th" l)) hls.2.2
  | case4 l k ls hheader ih =>
    rw [List.forall_mem_cons] at hls
    have hdiv : isRow l = true → isDivider k = false := by
      intro hrow
      simpa [hrow] using hheader
    rw [List.append_cons done (lineHtml l) (rowLines (k :: ls)), applies_line hdone hls.1 hls.2 (by simpa using hdiv)]
    exact ih (hdone.concat (newline_not_mem_lineHtml hls.1) (isRow_lineHtml l)) hls.2

end

/-- The table stage renders the rows line by line. -/
theorem table_renders_line_by_line (t out : Text) (s s' : Store) :
    dialect.Runs .table t s out s' ↔ out = joinLines (rowLines t.lines) ∧ s' = s := by
  have hnone : Rowless [] := ⟨by simp, by simp⟩
  have hrow : dialect.Applies row t s (joinLines (rowLines t.lines)) s := by
    have h : dialect.Applies row (joinLines t.lines) s (joinLines (rowLines t.lines)) s :=
      applies_rowLines hnone t.lines (fun _ => Text.not_mem_of_mem_lines) s
    rwa [Text.joinLines_lines] at h
  have hrun : dialect.Runs .table t s (joinLines (rowLines t.lines)) s :=
    runs_iff.2 (appliesAll_cons.2 ⟨_, s, hrow, appliesAll_nil⟩)
  constructor
  · intro h
    exact h.unique hrun
  · rintro ⟨rfl, rfl⟩
    exact hrun

end Markup.Table
