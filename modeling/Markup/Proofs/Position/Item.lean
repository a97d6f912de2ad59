import Markup.Proofs.Listing.Shape
import Markup.Proofs.Position.Pattern
import Markup.Proofs.Text.Lines

/-! # List items by positions

An item begins where its head does, and goes on over the lines that begin with the indent below the head. -/
namespace Markup.Listing
open Pattern

/-- The end of the lines from one line end on that begin with the indent. -/
def continuationEnd (t indent : Text) : Nat → Except PositionError Nat :=
  t.lastLineEnd fun stop => t.startsAt ['\n'] stop <&&> t.startsAt indent (stop + 1)

/-- The place of the indent of an item whose first line ends at a position, and the end of the item. -/
def continuation (t : Text) (eol : Nat) : Except PositionError (Option (Span × Nat)) := do
  if ← t.startsAt ['\n'] eol then
    let indent : Span := ⟨eol + 1, eol + 1 + (← t.indentWidth (eol + 1))⟩
    let white ← t.slice indent.start indent.stop
    if white.length < 2 then return none
    else
      let stop ← continuationEnd t white (← t.lineEnd indent.stop)
      return some (indent, stop)
  else return none

def itemSpans (t : Text) (start : Nat) : Except PositionError (Option Spans) := do
  match ← itemHead.spansAt t start with
  | some ⟨whole, some content :: _⟩ =>
    match ← continuation t content.stop with
    | some (indent, stop) =>
      return some ⟨⟨whole.start, stop⟩, [some ⟨content.start, stop⟩, some ⟨content.stop, stop⟩, some indent]⟩
    | none => return some ⟨whole, [some content]⟩
  | _ => return none

variable {t u v indent rest : Text} {ls : List Text}

theorem continuationEnd_eq (hi : '\n' ∉ indent) (hl : ∀ l ∈ ls, '\n' ∉ l) (h : t = u ++ Text.startLines ls) :
    continuationEnd t indent u.bytes =
    .ok (u.bytes + Text.bytes (Text.startLines (ls.takeWhile indent.isPrefixOf))) := by
  refine Text.lastLineEnd_eq ?_ (fun x l ls hl hx => ?_) hl h
  · rw [Text.startsAt_of_eq (List.append_nil t).symm rfl]
    rfl
  · have hbelow : t = (x ++ ['\n']) ++ (l ++ Text.startLines ls) := by rw [hx, List.append_assoc]; rfl
    have hindent := Text.startsAt_of_eq hbelow (Text.bytes_append _ _) indent
    rw [← Text.isPrefixOf_line hi, Text.line_append_startLines hl] at hindent
    rw [Text.startsAt_of_eq hx rfl]
    exact hindent

/-- The lines below a line break, the first of which begins with its own indent. -/
theorem exists_lines_below (below : Text) : ∃ w ls, below = below.indent ++ w ++ Text.startLines ls ∧
    below.lines = (below.indent ++ w) :: ls := by
  obtain ⟨ls, hlines⟩ := Text.exists_lines_eq_line_cons below
  have hindent : '\n' ∉ below.indent := fun h => absurd (List.all_eq_true.1 List.all_takeWhile _ h) (by decide)
  have hsplit : below.indent ++ below.dropWhile isIndent = below := List.takeWhile_append_dropWhile
  have hline : below.line = below.indent ++ Text.line (below.dropWhile isIndent) := by
    rw [← Text.line_append_of_not_mem hindent, hsplit]
  refine ⟨_, ls, ?_, by rw [hlines, hline]⟩
  rw [← hline, ← Text.joinLines_cons, ← hlines, Text.joinLines_lines]

/-- At a line break the indent is sliced out first, and then the rest of its line. -/
theorem continuation_newline {below : Text} (h : t = u ++ '\n' :: below) :
    continuation t u.bytes = .ok ((continuation? ('\n' :: below)).map fun c =>
      (⟨u.bytes + 1, u.bytes + 1 + Text.bytes c.1⟩, u.bytes + Text.bytes (Text.startLines c.2.1))) := by
  have hbelow : t = (u ++ ['\n']) ++ below := by rw [h, List.append_assoc]; rfl
  have hpos : Text.bytes (u ++ ['\n']) = u.bytes + 1 := Text.bytes_append _ _
  have hwidth := Text.indentWidth_of_eq hbelow hpos
  obtain ⟨w, ls, hw, hlines⟩ := exists_lines_below below
  have hnl : ∀ l ∈ (Text.indent below ++ w) :: ls, '\n' ∉ l := fun l hl => Text.not_mem_of_mem_lines (hlines ▸ hl)
  obtain ⟨hfirst, hrest⟩ := List.forall_mem_cons.1 hnl
  rw [List.mem_append, not_or] at hfirst
  have hbreak : ['\n'].isPrefixOf ('\n' :: below) = true := rfl
  rw [continuation, Text.startsAt_of_eq h rfl, hbreak]
  simp only [continuation?, hlines]
  generalize Text.indent below = indent at *
  have hindent : t = (u ++ ['\n']) ++ indent ++ (w ++ Text.startLines ls) := by rw [hbelow, hw]; simp
  have hstop : t = (u ++ '\n' :: (indent ++ w)) ++ Text.startLines ls := by rw [hindent]; simp
  have hslice := Text.slice_of_eq hindent hpos (Text.bytes_append _ _)
  have heol := Text.lineEnd_of_eq hindent (Text.bytes_append _ _)
  rw [Text.line_append_startLines hfirst.2] at heol
  have hend := continuationEnd_eq hfirst.1 hrest hstop
  have hstart : Text.bytes (u ++ '\n' :: (indent ++ w)) = u.bytes + 1 + indent.bytes + Text.bytes w := by
    simp [Nat.add_assoc]
  rw [hpos] at hslice heol
  rw [hstart] at hend
  have hprefix : indent.isPrefixOf (indent ++ w) = true := List.isPrefixOf_iff_prefix.2 (List.prefix_append _ _)
  simp only [ok_bind, hwidth, hslice, heol, hend, if_true]
  split
  · rfl
  · have hbody : Text.bytes (Text.startLines ((indent ++ w) :: ls.takeWhile indent.isPrefixOf)) =
        1 + (indent.bytes + Text.bytes w) + Text.bytes (Text.startLines (ls.takeWhile indent.isPrefixOf)) := by
      simp [Text.startLines, Nat.add_assoc]
    rw [Option.map_some, List.takeWhile_cons, if_pos hprefix, hbody]
    simp only [pure_eq, Except.ok.injEq, Option.some.injEq, Prod.mk.injEq, true_and]
    omega

theorem continuation_eq (h : t = u ++ rest) : continuation t u.bytes = .ok ((continuation? rest).map fun c =>
    (⟨u.bytes + 1, u.bytes + 1 + Text.bytes c.1⟩, u.bytes + Text.bytes (Text.startLines c.2.1))) := by
  by_cases hbreak : ∃ below, rest = '\n' :: below
  · obtain ⟨below, rfl⟩ := hbreak
    exact continuation_newline h
  · have hother : ['\n'].isPrefixOf rest = false := by
      cases rest with
      | nil => rfl
      | cons c below =>
        have hc : c ≠ '\n' := fun hc => hbreak ⟨below, by rw [hc]⟩
        simp [List.isPrefixOf, Ne.symm hc]
    rw [continuation, Text.startsAt_of_eq h rfl, hother, continuation?]
    · rfl
    · exact fun below h => hbreak ⟨below, h⟩

/-- An item is its head, with what the lines below it add. -/
def withLines (head : Hit) : Hit :=
  match continuation? head.rest with
  | none => head
  | some (indent, body, others) =>
    let tail := Text.startLines body
    ⟨head.whole ++ tail, Text.startLines others,
      [(head.groups.head?.join).map (· ++ tail), some tail, some indent]⟩

theorem itemScanner_eq_map (prev : Option Char) (t : Text) :
    itemScanner prev t = (itemHead.scanner prev t).map withLines := by
  rw [itemScanner]
  cases hh : itemHead.scanner prev t with
  | none => rfl
  | some head =>
    obtain ⟨-, caps, ht, hg⟩ := takes_of_scanner hh
    obtain ⟨-, _, _, content, -, -, -, -, rfl⟩ := itemHead_takes ht
    have hg : head.groups = [some content] := hg
    obtain ⟨whole, rest, groups⟩ := head
    obtain rfl : groups = [some content] := hg
    simp only [Option.bind_eq_bind, Option.bind_some, Option.map_some, withLines]
    cases continuation? rest <;> rfl

theorem startLines_of_continuation? {body others : List Text} (h : continuation? t = some (indent, body, others)) :
    ∃ w, Text.startLines body = '\n' :: (indent ++ w) := by
  unfold continuation? at h
  split at h
  · next below =>
    obtain ⟨w, ls, -, hlines⟩ := exists_lines_below below
    have hprefix : (Text.indent below).isPrefixOf (Text.indent below ++ w) = true :=
      List.isPrefixOf_iff_prefix.2 (List.prefix_append _ _)
    simp only [hlines, List.takeWhile_cons, if_pos hprefix] at h
    split at h
    · contradiction
    · simp only [Option.some.injEq, Prod.mk.injEq] at h
      obtain ⟨rfl, rfl, -⟩ := h
      exact ⟨w ++ Text.startLines (ls.takeWhile (Text.indent below).isPrefixOf), by simp [Text.startLines]⟩
  · contradiction

theorem itemSpans_locates (h : t = u ++ v) : Locates (itemSpans t u.bytes) (itemMatcher.find u.reverse v) := by
  have hfind : itemMatcher.find u.reverse v = (itemHead.matcher.find u.reverse v).map fun m =>
      (withLines ⟨m.whole, m.after, m.groups⟩).toMatch m.behind := by
    rw [itemMatcher_eq, matcher_eq]
    exact Scanner.search_map itemScanner_eq_map _ _
  rw [itemSpans, itemHead.spansAt_of_eq h, hfind]
  cases hf : itemHead.matcher.find u.reverse v with
  | none => exact locates_none
  | some m =>
    obtain ⟨e, w, content, he, hw, hg, hspans⟩ := spansOf_append_group rfl hf
    have htext : t = (m.before ++ m.whole) ++ m.after := by
      rw [← Match.text, (itemHead.matcher_lawful _ _ _ hf).1, List.reverse_reverse, h]
    have hstop : Text.bytes (m.before ++ m.whole) = m.stop := Text.bytes_append _ _
    have hcont := continuation_eq htext
    rw [hstop] at hcont
    have hhead : itemHead.walk some (.ofMatch m) = some e := he
    have hspans : itemHead.spansOf m e = ⟨⟨m.start, m.stop⟩, [some ⟨m.start + Text.bytes w, m.stop⟩]⟩ := hspans
    simp only [ok_bind, Option.bind_some, hhead, Option.map_some, hspans, hcont, withLines, hg]
    cases hc : continuation? m.after with
    | none =>
      refine Spans.Of.locates ⟨rfl, .cons (.some ?_) .nil⟩
      exact Match.covers_inside (x := w) (y := []) (by simp [Hit.toMatch, hw]) rfl
        (by simp [Match.stop_eq, hw, Nat.add_assoc])
    | some c =>
      obtain ⟨indent, body, others⟩ := c
      obtain ⟨more, hmore⟩ := startLines_of_continuation? hc
      have hwhole : m.whole ++ Text.startLines body = w ++ content ++ ['\n'] ++ indent ++ more := by simp [hw, hmore]
      have hbytes : m.stop = m.start + (Text.bytes w + Text.bytes content) := by
        rw [Match.stop_eq, hw, Text.bytes_append]
      have hnl : Text.bytes ['\n'] = 1 := rfl
      have hlong : m.stop + Text.bytes (Text.startLines body) =
          m.start + Text.bytes (m.whole ++ Text.startLines body) := by
        rw [Match.stop_eq, Text.bytes_append, Nat.add_assoc]
      refine Spans.Of.locates ⟨?_, .cons (.some ?_) (.cons (.some ?_) (.cons (.some ?_) .nil))⟩
      · exact congrArg (Span.mk m.start) hlong
      · exact Match.covers_inside (x := w) (y := []) (by simp [Hit.toMatch, hw]) rfl
          (by simp [hbytes, Nat.add_assoc])
      · exact Match.covers_inside (x := w ++ content) (y := []) (by simp [Hit.toMatch, hw])
          (by simp [hbytes, Match.start, Match.before, Hit.toMatch]) rfl
      · exact Match.covers_inside (x := w ++ content ++ ['\n']) (y := more) hwhole
          (by simp [hbytes, hnl, Match.start, Match.before, Hit.toMatch, Nat.add_assoc]) rfl

end Markup.Listing
