import Markup.Match
import Markup.Proofs.Fallible
import Markup.Proofs.Text.Lines

/-! # Slices

A slice of a text at byte positions exists when its positions are boundaries of the text in the right order. At a
boundary the text falls into the two parts that a search holds. -/
namespace Markup

namespace Text
variable {t u v w r : Text} {pos start stop : Nat}

/-- The position lies between two characters of the text, or at one of its ends. -/
def IsBoundary (t : Text) (pos : Nat) : Prop := (t.cut? pos).isSome

instance (t : Text) (pos : Nat) : Decidable (t.IsBoundary pos) := inferInstanceAs (Decidable (_ = true))

theorem isBoundary_iff : t.IsBoundary pos ↔ ∃ u v, t = u ++ v ∧ u.bytes = pos := by
  rw [IsBoundary, Option.isSome_iff_exists]
  simp only [Prod.exists, cut?_eq_some_iff]

theorem isBoundary_append (u v : Text) : (u ++ v).IsBoundary u.bytes := isBoundary_iff.2 ⟨u, v, rfl, rfl⟩

theorem IsBoundary.le (h : t.IsBoundary pos) : pos ≤ t.bytes := by
  obtain ⟨u, v, rfl, rfl⟩ := isBoundary_iff.1 h
  simp

@[simp] theorem utf8Size_newline : '\n'.utf8Size = 1 := rfl

theorem bytes_nextLine (u l : Text) : bytes (u ++ (l ++ ['\n'])) = u.bytes + l.bytes + 1 := by
  rw [bytes_append, bytes_append, ← Nat.add_assoc]
  rfl

theorem bytes_pos (h : t ≠ []) : 0 < t.bytes := by
  obtain ⟨c, t, rfl⟩ := List.exists_cons_of_ne_nil h
  have := c.utf8Size_pos
  rw [bytes_cons]
  omega

theorem head?_behind (u x : Text) : (x.reverse ++ u.reverse).head? = (u ++ x).getLast? := by
  rw [← List.reverse_append, List.head?_reverse]

theorem bytes_reverse (t : Text) : bytes t.reverse = t.bytes := by
  induction t with
  | nil => rfl
  | cons c t ih => simp [ih, Nat.add_comm]

theorem length_le_bytes (t : Text) : t.length ≤ t.bytes := by
  induction t with
  | nil => exact Nat.le_refl 0
  | cons c t ih =>
    have := c.utf8Size_pos
    rw [List.length_cons, bytes_cons]
    omega

/-- Of two cuts of a text the one at the smaller position comes first. -/
theorem prefix_of_bytes_le {x y : Text} (h : u ++ v = x ++ y) (hb : u.bytes ≤ x.bytes) : u <+: x := by
  rcases List.append_eq_append_iff.1 h with ⟨z, rfl, -⟩ | ⟨z, rfl, -⟩
  · exact List.prefix_append u z
  · cases z with
    | nil => simp
    | cons c z =>
      have := c.utf8Size_pos
      rw [bytes_append, bytes_cons] at hb
      omega

theorem cut_of_eq (h : t = u ++ v) (hp : u.bytes = pos) : t.cut pos = .ok (u, v) := by
  rw [cut, cut?_eq_some_iff.2 ⟨h, hp⟩]

theorem cut_eq_ok_iff : t.cut pos = .ok (u, v) ↔ t = u ++ v ∧ u.bytes = pos := by
  rw [cut, ← cut?_eq_some_iff]
  cases t.cut? pos <;> simp

theorem cutUp?_of_eq (h : t = u ++ v) (hp : u.bytes = pos) : t.cutUp? pos = some (u, v) := by
  subst h hp
  induction u with
  | nil => cases v <;> rfl
  | cons c u ih =>
    have hc := c.utf8Size_pos
    obtain ⟨n, hn⟩ : ∃ n, bytes (c :: u) = n + 1 := ⟨bytes (c :: u) - 1, by rw [bytes_cons]; omega⟩
    have hrest : n + 1 - c.utf8Size = bytes u := by
      rw [bytes_cons] at hn
      omega
    rw [hn, List.cons_append, cutUp?, hrest, ih]
    rfl

theorem cutUp?_eq_some (h : t.cutUp? pos = some (u, v)) : t = u ++ v ∧ pos ≤ u.bytes := by
  fun_induction cutUp? t pos generalizing u with
  | case1 =>
    cases h
    exact ⟨rfl, Nat.zero_le _⟩
  | case2 => contradiction
  | case3 c t n ih =>
    obtain ⟨⟨s, r⟩, hs, he⟩ := Option.map_eq_some_iff.1 h
    obtain ⟨rfl, rfl⟩ := Prod.mk.inj he
    obtain ⟨rfl, hle⟩ := ih hs
    refine ⟨rfl, ?_⟩
    rw [bytes_cons]
    omega

/-- The text from a position on. -/
def sliceFrom (t : Text) (pos : Nat) : Except PositionError Text := Prod.snd <$> t.cut pos

/-- The text up to a position. -/
def sliceTo (t : Text) (pos : Nat) : Except PositionError Text := Prod.fst <$> t.cut pos

/-- The text between two positions. -/
def slice (t : Text) (start stop : Nat) : Except PositionError Text := do
  let seen ← t.sliceTo stop
  seen.sliceFrom start

/-- The text with another one in the place of what stands between two positions. -/
def replaceRange (t : Text) (start stop : Nat) (new : Text) : Except PositionError Text := do
  let seen ← t.sliceTo stop
  return (← seen.sliceTo start) ++ new ++ (← t.sliceFrom stop)

/-- Whether another text stands at a position. -/
def startsAt (t w : Text) (pos : Nat) : Except PositionError Bool := w.isPrefixOf <$> t.sliceFrom pos

theorem sliceFrom_of_eq (h : t = u ++ v) (hp : u.bytes = pos) : t.sliceFrom pos = .ok v := by
  rw [sliceFrom, cut_of_eq h hp]
  rfl

theorem sliceTo_of_eq (h : t = u ++ v) (hp : u.bytes = pos) : t.sliceTo pos = .ok u := by
  rw [sliceTo, cut_of_eq h hp]
  rfl

theorem slice_of_eq (h : t = u ++ w ++ v) (hs : u.bytes = start) (he : (u ++ w).bytes = stop) :
    t.slice start stop = .ok w := by
  rw [slice, sliceTo_of_eq h he]
  exact sliceFrom_of_eq rfl hs

theorem slice_eq_ok_iff : t.slice start stop = .ok w ↔
    ∃ u v, t = u ++ w ++ v ∧ u.bytes = start ∧ (u ++ w).bytes = stop := by
  constructor
  · intro h
    obtain ⟨seen, hseen, h⟩ := bind_eq_ok_iff.1 h
    obtain ⟨⟨seen, v⟩, hstop, rfl⟩ := map_eq_ok_iff.1 hseen
    obtain ⟨⟨u, w⟩, hstart, rfl⟩ := map_eq_ok_iff.1 h
    obtain ⟨rfl, rfl⟩ := cut_eq_ok_iff.1 hstop
    obtain ⟨rfl, rfl⟩ := cut_eq_ok_iff.1 hstart
    exact ⟨u, v, rfl, rfl, rfl⟩
  · rintro ⟨u, v, h, hs, he⟩
    exact slice_of_eq h hs he

theorem replaceRange_of_eq (h : t = u ++ w ++ v) (hs : u.bytes = start) (he : (u ++ w).bytes = stop) (new : Text) :
    t.replaceRange start stop new = .ok (u ++ new ++ v) := by
  simp [replaceRange, sliceTo_of_eq h he, sliceFrom_of_eq h he, sliceTo_of_eq rfl hs]

theorem startsAt_of_eq (h : t = u ++ v) (hp : u.bytes = pos) (w : Text) : t.startsAt w pos = .ok (w.isPrefixOf v) := by
  rw [startsAt, sliceFrom_of_eq h hp]
  rfl

theorem indentWidth_of_eq (h : t = u ++ v) (hp : u.bytes = pos) : t.indentWidth pos = .ok v.indent.bytes := by
  simp [indentWidth, cut_of_eq h hp]

theorem lineEnd_of_eq (h : t = u ++ v) (hp : u.bytes = pos) : t.lineEnd pos = .ok (pos + v.line.bytes) := by
  simp [lineEnd, cut_of_eq h hp]

/-- The end of a line lies at or behind the position, and not behind the text. -/
theorem le_of_lineEnd (h : t.lineEnd pos = .ok stop) : pos ≤ stop ∧ stop ≤ t.bytes := by
  obtain ⟨⟨u, v⟩, hcut, hstop⟩ := bind_eq_ok_iff.1 h
  obtain ⟨rfl, rfl⟩ := cut_eq_ok_iff.1 hcut
  obtain rfl := Except.ok.inj hstop
  have hline : v.line.bytes + v.afterLine.bytes = v.bytes := by rw [← bytes_append, line_append_afterLine]
  rw [bytes_append]
  omega

/-- The end of the line at a position, with its line break. -/
def lineStop (t : Text) (pos : Nat) : Except PositionError Nat := do
  let stop ← t.lineEnd pos
  return if ← t.startsAt ['\n'] stop then stop + 1 else stop

theorem startsAt_eq_ok_true (h : t.startsAt w pos = .ok true) : ∃ u v, t = u ++ (w ++ v) ∧ u.bytes = pos := by
  obtain ⟨v, hv, hw⟩ := map_eq_ok_iff.1 h
  obtain ⟨⟨u, v⟩, hcut, rfl⟩ := map_eq_ok_iff.1 hv
  obtain ⟨v, rfl⟩ := List.isPrefixOf_iff_prefix.1 hw
  exact ⟨u, v, cut_eq_ok_iff.1 hcut⟩

theorem le_of_lineStop (h : t.lineStop pos = .ok stop) : pos ≤ stop ∧ stop ≤ t.bytes := by
  obtain ⟨eol, heol, h⟩ := bind_eq_ok_iff.1 h
  obtain ⟨more, hmore, h⟩ := bind_eq_ok_iff.1 h
  have hle := le_of_lineEnd heol
  cases more with
  | false =>
    obtain rfl := Except.ok.inj h
    exact hle
  | true =>
    obtain rfl := Except.ok.inj h
    obtain ⟨u, v, rfl, rfl⟩ := startsAt_eq_ok_true hmore
    have hbytes : bytes (u ++ (['\n'] ++ v)) = u.bytes + (1 + v.bytes) := by
      rw [bytes_append, bytes_append]
      rfl
    rw [if_pos rfl]
    omega

theorem lineStop_of_eq (h : t = u ++ v) (hp : u.bytes = pos) :
    t.lineStop pos = .ok (pos + bytes (v.line ++ v.afterLine.take 1)) := by
  have hline : t = (u ++ v.line) ++ v.afterLine := by rw [List.append_assoc, line_append_afterLine, h]
  have hpos : bytes (u ++ v.line) = pos + v.line.bytes := by rw [bytes_append, hp]
  rw [lineStop, lineEnd_of_eq h hp, ok_bind, startsAt_of_eq hline hpos, ok_bind]
  rcases v.eq_line_or_newline with ⟨-, hafter⟩ | ⟨below, -, hafter⟩
  · simp [hafter]
  · rw [hafter, bytes_append, ← Nat.add_assoc]
    rfl

theorem lineStop_of_inside (hw : '\n' ∉ w) (h : t = u ++ (w ++ v)) :
    t.lineStop (u.bytes + w.bytes) = .ok (u.bytes + bytes (line (w ++ v) ++ (afterLine (w ++ v)).take 1)) := by
  have hsplit : t = (u ++ w) ++ v := by rw [h, List.append_assoc]
  rw [lineStop_of_eq hsplit (bytes_append u w), line_append_of_not_mem hw, afterLine_append_of_not_mem hw]
  simp only [bytes_append, Nat.add_assoc]

theorem nextLineStart_of_start (h : t = u ++ v) (hu : u.getLast?.all (· == '\n') = true) :
    t.nextLineStart u.bytes = .ok (some u.bytes) := by
  rw [nextLineStart, cut_of_eq h rfl, ok_bind]
  cases hl : u.getLast? with
  | none =>
    obtain rfl := List.getLast?_eq_none_iff.1 hl
    rfl
  | some c =>
    obtain rfl : c = '\n' := by simpa [hl] using hu
    simp [hl]

theorem nextLineStart_of_inside (h : t = u ++ v) (hu : ¬ u.getLast?.all (· == '\n') = true) :
    t.nextLineStart u.bytes =
      .ok (match v.afterLine with | [] => none | _ :: _ => some (u.bytes + v.line.bytes + 1)) := by
  have hne : u ≠ [] := by
    rintro rfl
    exact hu rfl
  have hlast : u.getLast? ≠ some '\n' := fun hl => hu (by rw [hl]; rfl)
  rw [nextLineStart, cut_of_eq h rfl, ok_bind]
  simp only [List.isEmpty_eq_false_iff.2 hne, beq_eq_false_iff_ne.2 hlast]
  cases v.afterLine <;> rfl

/-- From the end of a line to that of the next one, as long as it goes on. -/
def lastLineEnd (goesOn : Nat → Except PositionError Bool) (t : Text) (stop : Nat) : Except PositionError Nat := do
  if ← goesOn stop then
    match _h : t.lineEnd (stop + 1) with
    | .ok next => lastLineEnd goesOn t next
    | .error e => throw e
  else return stop
termination_by t.bytes - stop
decreasing_by
  have := le_of_lineEnd _h
  omega

theorem lastLineEnd_of_goesOn {goesOn : Nat → Except PositionError Bool} {next : Nat} (h : goesOn stop = .ok true)
    (hnext : t.lineEnd (stop + 1) = .ok next) : lastLineEnd goesOn t stop = lastLineEnd goesOn t next := by
  rw [lastLineEnd, h, ok_bind, if_pos rfl]
  split
  · next hok =>
    obtain rfl := Except.ok.inj (hnext.symm.trans hok)
    rfl
  · next herror => cases hnext.symm.trans herror

/-- The walk from line end to line end takes the lines of which each one goes on. -/
theorem lastLineEnd_eq {goesOn : Nat → Except PositionError Bool} {p : Text → Bool} {ls : List Text}
    (hend : goesOn t.bytes = .ok false)
    (hgo : ∀ (x l : Text) (ls : List Text), '\n' ∉ l → t = x ++ '\n' :: (l ++ startLines ls) →
      goesOn x.bytes = .ok (p l))
    (hl : ∀ l ∈ ls, '\n' ∉ l) (h : t = u ++ startLines ls) :
    lastLineEnd goesOn t u.bytes = .ok (u.bytes + bytes (startLines (ls.takeWhile p))) := by
  induction ls generalizing u with
  | nil =>
    obtain rfl : t = u := by simpa [startLines] using h
    rw [lastLineEnd, hend]
    rfl
  | cons l ls ih =>
    rw [List.forall_mem_cons] at hl
    have hline : t = u ++ '\n' :: (l ++ startLines ls) := by rw [h]; rfl
    have hhere := hgo u l ls hl.1 hline
    rw [List.takeWhile_cons]
    by_cases hp : p l = true
    · have hbelow : t = (u ++ ['\n']) ++ (l ++ startLines ls) := by rw [hline, List.append_assoc]; rfl
      have hbreak : bytes (u ++ ['\n']) = u.bytes + 1 := bytes_append _ _
      have hstop := lineEnd_of_eq hbelow hbreak
      rw [line_append_startLines hl.1] at hstop
      have hnext := ih (u := u ++ '\n' :: l) hl.2 (by rw [hline, List.append_assoc]; rfl)
      have hpos : u.bytes + 1 + l.bytes = bytes (u ++ '\n' :: l) := by simp [Nat.add_assoc]
      rw [hp] at hhere
      rw [lastLineEnd_of_goesOn hhere hstop, hpos, hnext, if_pos hp]
      simp [startLines, Nat.add_assoc]
    · rw [lastLineEnd, hhere, ok_bind, if_neg hp, if_neg hp]
      rfl

end Text

variable {t u v : Text} {pos : Nat}

theorem Matcher.findAt_of_eq (m : Matcher) (h : t = u ++ v) (hp : u.bytes = pos) :
    m.findAt t pos = .ok (m.find u.reverse v) := by
  cases hr : m.rounding <;> simp [findAt, hr, Text.cut_of_eq h hp, Text.cutUp?_of_eq h hp]

theorem Match.start_eq (m : Match) : m.start = m.behind.bytes := by rw [start, before, Text.bytes_reverse]

theorem Matcher.exists_find_of_findAt {m : Matcher} {found : Match} (h : m.findAt t pos = .ok (some found)) :
    ∃ u v, t = u ++ v ∧ pos ≤ u.bytes ∧ m.find u.reverse v = some found := by
  rw [findAt] at h
  split at h
  · obtain ⟨⟨u, v⟩, hcut, h⟩ := bind_eq_ok_iff.1 h
    obtain ⟨ht, hu⟩ := Text.cut_eq_ok_iff.1 hcut
    exact ⟨u, v, ht, Nat.le_of_eq hu.symm, Except.ok.inj h⟩
  all_goals
    split at h
    · next u v hcut =>
      obtain ⟨ht, hle⟩ := Text.cutUp?_eq_some hcut
      exact ⟨u, v, ht, hle, Except.ok.inj h⟩
  · split at h <;> cases h
  · cases h

section
variable {m : Matcher} {found : Match} (hm : m.Lawful) (h : m.findAt t pos = .ok (some found))
include hm h

theorem Matcher.le_of_findAt : pos ≤ found.start := by
  obtain ⟨u, v, -, hle, hfind⟩ := exists_find_of_findAt h
  obtain ⟨w, hw⟩ := (hm _ _ _ hfind).2
  rw [Match.start_eq, ← hw, Text.bytes_append, Text.bytes_reverse]
  exact Nat.le_add_left_of_le hle

theorem Matcher.text_of_findAt : found.text = t := by
  obtain ⟨u, v, rfl, -, hfind⟩ := exists_find_of_findAt h
  rw [(hm _ _ _ hfind).1, List.reverse_reverse]

end

end Markup
