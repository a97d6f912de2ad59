import Markup.Proofs.Block.Paragraph
import Markup.Proofs.Position.Spans
import Markup.Proofs.Seam.Lines
import Markup.Proofs.Seam.Walk

/-! # Paragraphs by positions

The scanner goes from line start to line start: to the first one where a paragraph opens, and then on while the next
line opens one. -/
namespace Markup.Token

theorem leads_newline (t u : Text) : leads (t ++ '\n' :: u) = leads t := by
  cases h : marker.isPrefixOf? t with
  | none =>
    have hmore : marker.isPrefixOf? (t ++ '\n' :: u) = none :=
      Pattern.isPrefixOf?_append_eq_none rfl (.inr (.inl (by decide))) h
    rw [leads, leads, h, hmore]
  | some rest =>
    have hsplit := eq_append_of_isPrefixOf? h
    rw [hsplit, List.append_assoc, leads, leads, isPrefixOf?_append, isPrefixOf?_append]
    simp only
    rw [takeWhile_append_cons_of_rejects (by decide), dropWhile_append_cons_of_rejects (by decide)]
    cases rest.dropWhile Char.isDigit <;> rfl

theorem leads_line (t : Text) : leads t.line = leads t := Text.eq_of_line leads_newline t

end Markup.Token

namespace Markup.Block
variable {t u v : Text} {ls : List Text}

/-- Whether the line at a position belongs to a paragraph. -/
def opensParagraph (t : Text) (line : Nat) : Except PositionError Bool := do
  let rest ← t.sliceFrom line
  return !rest.isEmpty && !List.isPrefixOf ['\n'] rest && !Token.leads rest

/-- The first line from a line on where a paragraph opens. -/
def firstProse (t : Text) (line : Nat) : Except PositionError (Option Nat) := do
  if ← opensParagraph t line then return some line
  else
    match _h : t.lineEnd line with
    | .ok stop => if stop + 1 ≤ t.bytes then firstProse t (stop + 1) else return none
    | .error e => throw e
termination_by t.bytes - line
decreasing_by
  have := Text.le_of_lineEnd _h
  omega

/-- The end of the paragraph, from the end of one of its lines on. -/
def proseEnd (t : Text) : Nat → Except PositionError Nat :=
  t.lastLineEnd fun stop => pure (decide (stop < t.bytes)) <&&> opensParagraph t (stop + 1)

/-- The first paragraph from a line start on. -/
def paragraphFrom (t : Text) (first : Nat) : Except PositionError (Option Spans) := do
  match ← firstProse t first with
  | none => return none
  | some line =>
    let stop ← proseEnd t (← t.lineEnd line)
    return some ⟨⟨line, stop⟩, []⟩

def paragraphSpans (t : Text) (start : Nat) : Except PositionError (Option Spans) := do
  match ← t.nextLineStart start with
  | none => return none
  | some first => paragraphFrom t first

theorem opensParagraph_eq (h : t = u ++ v) : opensParagraph t u.bytes = .ok (isProse v.line) := by
  rw [opensParagraph, Text.sliceFrom_of_eq h rfl, isProse, Token.leads_line, ok_bind, pure_eq]
  cases v with
  | nil => rfl
  | cons c v =>
    by_cases hc : c = '\n'
    · subst hc
      rfl
    · simp [Text.line, hc, List.isPrefixOf, Ne.symm hc]

theorem proseEnd_eq (hl : ∀ l ∈ ls, '\n' ∉ l) (h : t = u ++ Text.startLines ls) :
    proseEnd t u.bytes = .ok (u.bytes + Text.bytes (Text.startLines (ls.takeWhile isProse))) := by
  refine Text.lastLineEnd_eq ?_ (fun x l ls hl hx => ?_) hl h
  · rw [decide_eq_false (Nat.lt_irrefl _)]
    rfl
  · have hmore : x.bytes < t.bytes := by
      have := Text.bytes_pos (List.cons_ne_nil '\n' (l ++ Text.startLines ls))
      rw [hx, Text.bytes_append]
      exact Nat.lt_add_of_pos_right this
    have hbelow : t = (x ++ ['\n']) ++ (l ++ Text.startLines ls) := by rw [hx, List.append_assoc]; rfl
    have hopens := opensParagraph_eq hbelow
    rw [Text.line_append_startLines hl, Text.bytes_append] at hopens
    rw [decide_eq_true hmore]
    exact hopens

/-- The paragraph at the beginning of a text. -/
def paragraphHit (t : Text) : Hit :=
  ⟨Text.joinLines (t.lines.takeWhile isProse), Text.startLines (t.lines.dropWhile isProse), []⟩

theorem firstProse_of_prose (h : t = u ++ v) (hp : isProse v.line = true) :
    firstProse t u.bytes = .ok (some u.bytes) := by
  rw [firstProse, opensParagraph_eq h, ok_bind, if_pos hp]
  rfl

theorem firstProse_of_other {l below : Text} (hl : '\n' ∉ l) (h : t = u ++ (l ++ '\n' :: below))
    (hp : ¬ isProse l = true) :
    firstProse t u.bytes = firstProse t (Text.bytes (u ++ (l ++ ['\n']))) := by
  have hline : Text.line (l ++ '\n' :: below) = l := by
    rw [Text.line_append_of_not_mem hl, Text.line_eq_nil rfl, List.append_nil]
  have hstop := Text.lineEnd_of_eq h rfl
  have hopens := opensParagraph_eq h
  rw [hline] at hstop hopens
  have hle : u.bytes + l.bytes + 1 ≤ t.bytes := by
    rw [h, ← Text.bytes_nextLine]
    simp
  rw [firstProse, hopens, ok_bind, if_neg hp, Text.bytes_nextLine]
  split
  · next stop hstop' =>
    obtain rfl := Except.ok.inj (hstop.symm.trans hstop')
    rw [if_pos hle]
  · next hstop' => cases hstop.symm.trans hstop'

theorem firstProse_of_last (hv : '\n' ∉ v) (h : t = u ++ v) (hp : ¬ isProse v = true) :
    firstProse t u.bytes = .ok none := by
  have hstop := Text.lineEnd_of_eq h rfl
  have hopens := opensParagraph_eq h
  rw [Text.line_eq_self hv] at hstop hopens
  rw [firstProse, hopens, ok_bind, if_neg hp]
  split
  · next stop hstop' =>
    obtain rfl := Except.ok.inj (hstop.symm.trans hstop')
    rw [if_neg (by rw [h, Text.bytes_append]; omega)]
    rfl
  · next hstop' => cases hstop.symm.trans hstop'

/-- From a line start on the search ends at the first line where a paragraph opens. -/
theorem firstProse_eq (hstart : u.getLast?.all (· == '\n') = true) (h : t = u ++ v) :
    (firstProse t u.bytes = .ok none ∧ paragraphScanner.search u.reverse v = none) ∨
    ∃ x y, v = x ++ y ∧ firstProse t u.bytes = .ok (some (u ++ x).bytes) ∧ isProse (Text.line y) = true ∧
      paragraphScanner.search u.reverse v = some ((paragraphHit y).toMatch (u ++ x).reverse) := by
  induction hn : v.length using Nat.strongRecOn generalizing u v with
  | ind n ih =>
    by_cases hp : isProse v.line = true
    · have hhit : paragraphScanner u.reverse.head? v = some (paragraphHit v) := by
        rw [paragraphScanner, List.head?_reverse, hstart, hp]
        rfl
      exact .inr ⟨[], v, rfl, by rw [firstProse_of_prose h hp, List.append_nil], hp,
        by rw [Scanner.search_of_hit hhit, List.append_nil]; rfl⟩
    · have hmiss : paragraphScanner u.reverse.head? v = none := by rw [paragraphScanner, if_neg (by simp [hp])]
      have hl := v.not_mem_line
      rcases v.eq_line_or_newline with ⟨hv, -⟩ | ⟨below, hv, -⟩
      · rw [← hv] at hl hp
        exact .inl ⟨firstProse_of_last hl h hp, Scanner.search_last paragraphScanner_inLine hl hmiss⟩
      · generalize v.line = l at hv hp hl
        subst hv
        have hsplit : t = (u ++ (l ++ ['\n'])) ++ below := by simp [h]
        have hsearch : paragraphScanner.search u.reverse (l ++ '\n' :: below) =
            paragraphScanner.search (u ++ (l ++ ['\n'])).reverse below := by
          rw [Scanner.search_line paragraphScanner_inLine hl hmiss]
          simp
        have hlen : below.length < n := by
          rw [← hn, List.length_append, List.length_cons]
          omega
        rw [firstProse_of_other hl h hp, hsearch]
        rcases ih _ hlen (by simp) hsplit rfl with hnone | ⟨x, y, rfl, hfirst, hy, hfound⟩
        · exact .inl hnone
        · refine .inr ⟨l ++ ['\n'] ++ x, y, by simp, ?_, hy, ?_⟩
          · rw [hfirst, List.append_assoc u]
          · rw [hfound, List.append_assoc u]

theorem paragraphFrom_locates (hstart : u.getLast?.all (· == '\n') = true) (h : t = u ++ v) :
    Locates (paragraphFrom t u.bytes) (paragraphScanner.search u.reverse v) := by
  rw [paragraphFrom]
  rcases firstProse_eq hstart h with ⟨hfirst, hnone⟩ | ⟨x, y, rfl, hfirst, hy, hfound⟩
  · rw [hfirst, hnone]
    exact locates_none
  · obtain ⟨ls, hlines⟩ := Text.exists_lines_eq_line_cons y
    have hl : ∀ l ∈ ls, '\n' ∉ l := fun l hl => Text.not_mem_of_mem_lines (hlines ▸ List.mem_cons_of_mem _ hl)
    have hsplit : t = (u ++ x) ++ y := by rw [h, List.append_assoc]
    have hends : t = (u ++ x ++ Text.line y) ++ Text.startLines ls := by
      rw [List.append_assoc (u ++ x), ← Text.joinLines_cons, ← hlines, Text.joinLines_lines, hsplit]
    have hend := proseEnd_eq hl hends
    rw [Text.bytes_append (u ++ x)] at hend
    have hwhole : (paragraphHit y).whole = Text.line y ++ Text.startLines (ls.takeWhile isProse) := by
      rw [paragraphHit, hlines, List.takeWhile_cons_of_pos hy, Text.joinLines_cons]
    rw [hfirst, ok_bind, hfound]
    simp only
    rw [Text.lineEnd_of_eq hsplit rfl, ok_bind, hend]
    refine Spans.Of.locates ⟨?_, .nil⟩
    rw [Hit.start_toMatch, Hit.stop_toMatch, hwhole, Text.bytes_append (Text.line y), Nat.add_assoc]

theorem paragraphSpans_locates (h : t = u ++ v) :
    Locates (paragraphSpans t u.bytes) (paragraphMatcher.find u.reverse v) := by
  change Locates _ (paragraphScanner.search u.reverse v)
  rw [paragraphSpans]
  by_cases hstart : u.getLast?.all (· == '\n') = true
  · rw [Text.nextLineStart_of_start h hstart]
    exact paragraphFrom_locates hstart h
  · have hmiss : paragraphScanner u.reverse.head? v = none := by
      rw [paragraphScanner, List.head?_reverse, if_neg (by simp [hstart])]
    rw [Text.nextLineStart_of_inside h hstart, ok_bind]
    rcases v.eq_line_or_newline with ⟨hv, hafter⟩ | ⟨below, hv, hafter⟩
    · rw [hafter, Scanner.search_last paragraphScanner_inLine (hv ▸ v.not_mem_line) hmiss]
      exact locates_none
    · have hl := v.not_mem_line
      rw [hafter]
      generalize v.line = l at hv hl
      subst hv
      have hnext : t = (u ++ (l ++ ['\n'])) ++ below := by simp [h]
      have hlocates := paragraphFrom_locates (by simp) hnext
      rw [Text.bytes_nextLine] at hlocates
      rw [Scanner.search_line paragraphScanner_inLine hl hmiss]
      simpa using hlocates

end Markup.Block
