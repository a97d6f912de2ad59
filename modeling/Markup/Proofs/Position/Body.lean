import Markup.Proofs.Position.Spans
import Markup.Proofs.Seam.Lines
import Markup.Listing.Definition

/-! # Bodies by positions

Below its term a definition has white space and a body. The last line break of the white space splits off the indent;
the body goes on from line end to line end while the next line begins with the indent and holds something more. -/
namespace Markup.Text
variable {t u : Text}

/-- How many bytes stand before the last line break. -/
def lastBreak : Text → Option Nat
  | [] => none
  | c :: t => (lastBreak t).map (c.utf8Size + ·) <|> if c = '\n' then some 0 else none

theorem lastBreak_eq_none (h : '\n' ∉ t) : lastBreak t = none := by
  induction t with
  | nil => rfl
  | cons c t ih =>
    rw [List.mem_cons, not_or] at h
    rw [lastBreak, ih h.2, if_neg (Ne.symm h.1)]
    rfl

theorem lastBreak_append (t : Text) (h : '\n' ∉ u) : lastBreak (t ++ '\n' :: u) = some t.bytes := by
  induction t with
  | nil => simp [lastBreak, lastBreak_eq_none h]
  | cons c t ih => rw [List.cons_append, lastBreak, ih]; rfl

end Markup.Text

namespace Markup.Listing
open Definition (continues bodyOf)
variable {t u v indent : Text}

/-- Whether a body goes on with the line at a position. -/
def goesOn (t indent : Text) (stop : Nat) : Except PositionError Bool :=
  (·.getLast? == some '\n') <$> t.sliceTo stop <&&> t.startsAt indent stop <&&>
    (!·) <$> t.startsAt ['\n'] (stop + indent.bytes) <&&> pure (decide (stop + indent.bytes < t.bytes))

/-- The end of a body, from one of its lines on. -/
def bodyEnd (t indent : Text) (hi : 2 ≤ indent.length) (stop : Nat) : Except PositionError Nat := do
  if ← goesOn t indent stop then
    match _h : t.lineStop (stop + indent.bytes) with
    | .ok next => bodyEnd t indent hi next
    | .error e => throw e
  else return stop
termination_by t.bytes - stop
decreasing_by
  have hle := Text.le_of_lineStop _h
  have hlen := Text.length_le_bytes indent
  omega

/-- The end of a body whose first line begins with the indent at the given place. -/
def bodyAt (t : Text) (indent : Span) : Except PositionError (Option Nat) := do
  let white ← t.slice indent.start indent.stop
  if hi : 2 ≤ white.length then
    let stop ← bodyEnd t white hi (← t.lineStop indent.stop)
    return some stop
  else return none

theorem le_of_bodyEnd {t indent : Text} {hi : 2 ≤ indent.length} {stop r : Nat} (h : bodyEnd t indent hi stop = .ok r)
    (hs : stop ≤ t.bytes) : stop ≤ r ∧ r ≤ t.bytes := by
  induction hn : t.bytes - stop using Nat.strongRecOn generalizing stop with
  | ind n ih =>
    rw [bodyEnd] at h
    obtain ⟨goesOn, -, h⟩ := bind_eq_ok_iff.1 h
    split at h
    · split at h
      · next next hnext =>
        have hle := Text.le_of_lineStop hnext
        have hlen := Text.length_le_bytes indent
        have hrest := ih _ (by omega) h hle.2 rfl
        omega
      · contradiction
    · obtain rfl := Except.ok.inj h
      exact ⟨Nat.le_refl _, hs⟩

theorem lt_of_bodyAt {t : Text} {indent : Span} {stop : Nat} (h : bodyAt t indent = .ok (some stop)) :
    indent.start < stop ∧ stop ≤ t.bytes := by
  obtain ⟨white, hwhite, h⟩ := bind_eq_ok_iff.1 h
  split at h
  · next hi =>
    obtain ⟨first, hfirst, h⟩ := bind_eq_ok_iff.1 h
    obtain ⟨last, hlast, h⟩ := bind_eq_ok_iff.1 h
    obtain rfl : last = stop := by simpa using h
    obtain ⟨u, v, -, hstart, hstop⟩ := Text.slice_eq_ok_iff.1 hwhite
    rw [Text.bytes_append] at hstop
    have hlen := white.length_le_bytes
    have hle := Text.le_of_lineStop hfirst
    have hend := le_of_bodyEnd hlast hle.2
    omega
  · cases h

/-- A body is a first line with its break, and a body below it. -/
theorem fst_bodyOf (indent v : Text) : (bodyOf indent v).1 =
    if continues indent v.line then v.line ++ v.afterLine.take 1 ++ (bodyOf indent (v.afterLine.drop 1)).1 else [] := by
  have hempty : bodyOf indent [] = ([], []) := by simp [bodyOf, Text.lines, continues, Text.endLines, Text.joinLines]
  have hl := v.not_mem_line
  obtain ⟨ls, hlines⟩ := Text.exists_lines_eq_line_cons v
  by_cases hc : continues indent v.line = true
  · rw [if_pos hc]
    rcases v.eq_line_or_newline with ⟨hv, hafter⟩ | ⟨below, hv, hafter⟩
    · have hone : v.lines = [v.line] := by
        conv_lhs => rw [hv]
        exact Text.lines_eq_singleton hl
      have hall : v.lines.dropWhile (continues indent) = [] := by
        rw [hone, List.dropWhile_cons_of_pos hc, List.dropWhile_nil]
      rw [hafter, List.drop_nil, hempty, List.take_nil, List.append_nil, List.append_nil, ← hv, bodyOf, hall]
    · have hlines : v.lines = v.line :: Text.lines below := by
        conv_lhs => rw [hv, Text.lines_append_newline, Text.lines_eq_singleton hl]
        rfl
      rw [hafter, bodyOf, hlines, List.dropWhile_cons_of_pos hc, List.takeWhile_cons_of_pos hc, List.drop_one,
        List.tail_cons,
        bodyOf]
      cases (Text.lines below).dropWhile (continues indent) with
      | nil => simpa using hv
      | cons => simp [Text.endLines]
  · simp [bodyOf, hlines, hc, Text.endLines]

theorem goesOn_eq {indent : Text} (hn : '\n' ∉ indent) (hi : indent ≠ []) (hu : v = [] ∨ u.getLast? = some '\n')
    (ht : t = u ++ v) : goesOn t indent u.bytes = .ok (continues indent v.line) := by
  have hlast : (·.getLast? == some '\n') <$> t.sliceTo u.bytes = .ok (u.getLast? == some '\n') := by
    rw [Text.sliceTo_of_eq ht rfl]
    rfl
  rw [goesOn, hlast, ok_and, Text.startsAt_of_eq ht rfl, ok_and, continues, Text.isPrefixOf_line hn]
  by_cases hp : indent <+: v
  · obtain ⟨w, rfl⟩ := hp
    have hsplit : t = (u ++ indent) ++ w := by rw [ht, List.append_assoc]
    have hline : Text.line (indent ++ w) = indent ++ Text.line w := Text.line_append_of_not_mem hn w
    have hpf : indent.isPrefixOf (indent ++ w) = true := List.isPrefixOf_iff_prefix.2 (List.prefix_append _ _)
    have hend : u.getLast? = some '\n' := hu.resolve_left fun h => hi (List.append_eq_nil_iff.1 h).1
    have hbytes : t.bytes = u.bytes + indent.bytes + Text.bytes w := by
      rw [hsplit, Text.bytes_append (u ++ indent), Text.bytes_append]
    rw [hend, hpf, hline, Text.startsAt_of_eq hsplit (Text.bytes_append _ _), hbytes]
    cases w with
    | nil => simp [Text.line]
    | cons c w =>
      have hc := c.utf8Size_pos
      by_cases hb : '\n' = c
      · subst hb
        simp [Text.line]
      · have hmore : u.bytes + indent.bytes < u.bytes + indent.bytes + Text.bytes (c :: w) := by
          rw [Text.bytes_cons]
          omega
        have hline : Text.line (c :: w) = c :: Text.line w := by simp [Text.line, Ne.symm hb]
        have hother : ['\n'].isPrefixOf (c :: w) = false := by simp [List.isPrefixOf, hb]
        rw [hother, decide_eq_true hmore, hline]
        simp
  · have hpf : indent.isPrefixOf v = false := Bool.eq_false_iff.2 (mt List.isPrefixOf_iff_prefix.1 hp)
    rw [hpf]
    split <;> rfl

theorem bodyEnd_of_goesOn {hi : 2 ≤ indent.length} {stop next : Nat} (h : goesOn t indent stop = .ok true)
    (hnext : t.lineStop (stop + indent.bytes) = .ok next) : bodyEnd t indent hi stop = bodyEnd t indent hi next := by
  rw [bodyEnd, h, ok_bind, if_pos rfl]
  split
  · next hok =>
    obtain rfl := Except.ok.inj (hnext.symm.trans hok)
    rfl
  · next herror => cases hnext.symm.trans herror

theorem bodyEnd_eq (hi : 2 ≤ indent.length) (hn : '\n' ∉ indent) (hu : v = [] ∨ u.getLast? = some '\n')
    (ht : t = u ++ v) : bodyEnd t indent hi u.bytes = .ok (u.bytes + Text.bytes (bodyOf indent v).1) := by
  induction hlen : v.length using Nat.strongRecOn generalizing u v with
  | ind n ih =>
    have hne : indent ≠ [] := List.ne_nil_of_length_pos (Nat.lt_of_lt_of_le Nat.two_pos hi)
    have hgo := goesOn_eq hn hne hu ht
    rw [fst_bodyOf]
    by_cases hc : continues indent v.line = true
    · rw [hc] at hgo
      rw [if_pos hc]
      rw [continues, Bool.and_eq_true, decide_eq_true_iff, Text.isPrefixOf_line hn, List.isPrefixOf_iff_prefix] at hc
      obtain ⟨⟨w, rfl⟩, hshort⟩ := hc
      have hstop := Text.lineStop_of_inside hn ht
      have hsplit := Text.line_append_afterLine (indent ++ w)
      have hrest := Text.eq_line_or_newline (indent ++ w)
      generalize Text.line (indent ++ w) = l, Text.afterLine (indent ++ w) = below at *
      have hnext : t = (u ++ (l ++ below.take 1)) ++ below.drop 1 := by
        rw [ht, ← hsplit, List.append_assoc, List.append_assoc, List.take_append_drop]
      have hless : (below.drop 1).length < n := by
        have := congrArg List.length hsplit
        rw [List.length_append] at this
        rw [List.length_drop]
        omega
      have hstart : below.drop 1 = [] ∨ (u ++ (l ++ below.take 1)).getLast? = some '\n' := by
        rcases hrest with ⟨-, rfl⟩ | ⟨below, -, rfl⟩
        · exact .inl rfl
        · exact .inr (by simp)
      have hend := ih _ hless hstart hnext rfl
      rw [Text.bytes_append u] at hend
      rw [bodyEnd_of_goesOn hgo hstop, hend, Text.bytes_append (l ++ _), Nat.add_assoc]
    · rw [bodyEnd, hgo, ok_bind, if_neg hc, if_neg hc]
      rfl

theorem continues_line {indent below : Text} (hn : '\n' ∉ indent) (hbelow : below.line ≠ []) :
    continues indent (Text.line (indent ++ below)) = true := by
  have hlen := List.length_pos_iff.2 hbelow
  rw [continues, Text.line_append_of_not_mem hn]
  simpa using hlen

theorem line_dropWhile_ne_nil (h : t.dropWhile isSpace ≠ []) : Text.line (t.dropWhile isSpace) ≠ [] := by
  have hhead := List.head?_dropWhile_not isSpace t
  obtain ⟨c, below, hbelow⟩ := List.exists_cons_of_ne_nil h
  rw [hbelow] at hhead ⊢
  have hc : c ≠ '\n' := by
    rintro rfl
    exact Bool.noConfusion hhead
  simp [Text.line, hc]

/-- A body ends where the lines that continue it do. -/
theorem bodyAt_eq {gap indent below : Text} (hn : '\n' ∉ indent) (hbelow : below.line ≠ [])
    (ht : t = u ++ (gap ++ '\n' :: indent) ++ below) :
    bodyAt t ⟨u.bytes + gap.bytes + 1, u.bytes + Text.bytes (gap ++ '\n' :: indent)⟩ =
      .ok (if 2 ≤ indent.length then
        some (u.bytes + gap.bytes + 1 + Text.bytes (bodyOf indent (indent ++ below)).1) else none) := by
  have hsplit : t = (u ++ (gap ++ ['\n'])) ++ (indent ++ below) := by simp [ht]
  have hpos : Text.bytes (u ++ (gap ++ ['\n'])) = u.bytes + gap.bytes + 1 := by
    rw [Text.bytes_append, Text.bytes_append, Nat.add_assoc]
    rfl
  have hstop : u.bytes + Text.bytes (gap ++ '\n' :: indent) = u.bytes + gap.bytes + 1 + Text.bytes indent := by
    rw [← hpos, ← Text.bytes_append, ← Text.bytes_append]
    simp
  have hlast : (u ++ (gap ++ ['\n'])).getLast? = some '\n' := by simp
  have hwhite : t.slice (u.bytes + gap.bytes + 1) (u.bytes + gap.bytes + 1 + Text.bytes indent) = .ok indent :=
    Text.slice_of_eq (by rw [hsplit, List.append_assoc _ indent]) hpos (by rw [Text.bytes_append, hpos])
  rw [hstop, bodyAt, hwhite, ok_bind]
  split
  · next hi =>
    have hne : indent ≠ [] := List.ne_nil_of_length_pos (Nat.lt_of_lt_of_le Nat.two_pos hi)
    have hgo := goesOn_eq hn hne (.inr hlast) hsplit
    rw [continues_line hn hbelow] at hgo
    have hfirst := Text.lineStop_of_inside hn hsplit
    have hend := bodyEnd_eq hi hn (.inr hlast) hsplit
    rw [bodyEnd_of_goesOn hgo hfirst, hpos] at hend
    rw [hpos] at hfirst
    rw [hfirst, ok_bind, hend]
    rfl
  · rfl

theorem newline_not_mem_indent (blank : Text) : '\n' ∉ (blank.reverse.takeWhile (· != '\n')).reverse := fun h =>
  Text.not_mem_line blank.reverse (List.mem_reverse.1 h)

/-- White space has no line break, or its last one splits it in gap and indent. -/
theorem gap_and_indent (blank : Text) :
    '\n' ∉ blank ∧ (blank.reverse.dropWhile (· != '\n')).reverse = [] ∨
    ∃ gap, blank = gap ++ '\n' :: (blank.reverse.takeWhile (· != '\n')).reverse ∧
      (blank.reverse.dropWhile (· != '\n')).reverse = gap ++ ['\n'] := by
  rcases Text.eq_line_or_newline blank.reverse with ⟨hblank, hgap⟩ | ⟨gap, hblank, hgap⟩
  · refine .inl ⟨fun h => ?_, by rw [← Text.afterLine, hgap]; rfl⟩
    exact Text.not_mem_line blank.reverse (hblank ▸ List.mem_reverse.2 h)
  · refine .inr ⟨gap.reverse, ?_, by rw [← Text.afterLine, hgap, List.reverse_cons]⟩
    conv_lhs => rw [← List.reverse_reverse blank, hblank]
    simp [Text.line]

end Markup.Listing
