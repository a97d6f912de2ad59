import Markup.Proofs.Listing.Seam
import Markup.Proofs.Pattern.Forced
import Markup.Proofs.Position.Pattern

/-! # Terms by positions

A definition begins with a term, white space and a colon at the start of a line. The pattern that looks for such a head
finds the first one there is. -/
namespace Markup.Listing
open Pattern

def termHead : Pattern :=
  lineStart ++ group 1 (one (!isSpace ·) ++ atLeast 0 Definition.isTermChar) ++ atLeast 0 isSpace ++ word ":"

/-- A term at the beginning of a text. -/
structure Head where
  term : Text
  /-- White space before the colon. -/
  space : Text
  /-- What stands behind the colon. -/
  after : Text

def Head.whole (h : Head) : Text := h.term ++ h.space ++ [':']

open Definition in
def headOf : Text → Option Head
  | [] => none
  | c :: t =>
    if isSpace c then none
    else
      let colon := (t.dropWhile isTermChar).dropWhile isSpace
      if colon.head? = some ':' then
        some ⟨c :: t.takeWhile isTermChar, (t.dropWhile isTermChar).takeWhile isSpace, colon.tail⟩
      else none

/-- What makes a text the head of a definition. -/
structure Head.Reads (h : Head) (t : Text) : Prop where
  text : t = h.whole ++ h.after
  term : ∃ c w, h.term = c :: w ∧ isSpace c = false ∧ ∀ d ∈ w, Definition.isTermChar d = true
  space : ∀ c ∈ h.space, isSpace c = true

variable {prev : Option Char} {t u v : Text} {h : Head}

theorem at?_eq_head (strict : Bool) (t : Text) : Definition.at? strict t = (headOf t).bind fun h =>
    (Definition.below? strict h.space h.after).map fun b => ⟨h.term, h.space, b.1, b.2.1, b.2.2.1, b.2.2.2⟩ := by
  cases t with
  | nil => rfl
  | cons c t =>
    rw [Definition.at?_eq, headOf]
    simp only
    repeat' split
    all_goals rfl

/-- The term is as long as it can be. -/
theorem reads_of_headOf (hh : headOf t = some h) :
    h.Reads t ∧ (h.space ++ ':' :: h.after).head?.any Definition.isTermChar = false := by
  cases t with
  | nil => contradiction
  | cons c t =>
    rw [headOf] at hh
    split at hh
    · contradiction
    · next hc =>
      simp only at hh
      split at hh
      · next hcolon =>
        obtain rfl := Option.some.inj hh
        obtain ⟨after, hafter⟩ := List.head?_eq_some_iff.1 hcolon
        have hspace := List.takeWhile_append_dropWhile (p := isSpace) (l := t.dropWhile Definition.isTermChar)
        have hterm := List.takeWhile_append_dropWhile (p := Definition.isTermChar) (l := t)
        rw [hafter] at hspace
        refine ⟨⟨?_, ⟨c, _, rfl, by simpa using hc, List.all_eq_true.1 List.all_takeWhile⟩,
          List.all_eq_true.1 List.all_takeWhile⟩, ?_⟩
        · simp only [Head.whole, hafter, List.tail_cons, List.cons_append, List.append_assoc, List.nil_append,
            hspace, hterm]
        · have hhead := List.head?_dropWhile_not Definition.isTermChar t
          rw [hafter, List.tail_cons, hspace]
          cases hd : (t.dropWhile Definition.isTermChar).head? <;> simp_all
      · contradiction

theorem headOf_ne_none (hr : h.Reads t) : headOf t ≠ none := by
  obtain ⟨rfl, ⟨c, w, hterm, hc, hw⟩, hspace⟩ := hr
  have hsplit : h.whole ++ h.after = c :: (w ++ (h.space ++ ':' :: h.after)) := by simp [Head.whole, hterm]
  have hcolon : ((w ++ (h.space ++ ':' :: h.after)).dropWhile Definition.isTermChar).dropWhile isSpace =
      ':' :: h.after := by
    have hrest : (h.space.dropWhile Definition.isTermChar).dropWhile isSpace = [] :=
      List.dropWhile_eq_nil_iff.2 fun d hd => hspace d (List.dropWhile_suffix _ |>.subset hd)
    rw [List.dropWhile_append_of_pos hw, dropWhile_append_cons_of_rejects (by decide),
      dropWhile_append_cons_of_rejects (by decide), hrest, List.nil_append]
  rw [hsplit, headOf, if_neg (by simp [hc])]
  simp [hcolon]

theorem Head.Reads.take_term (hr : h.Reads t) : t.take h.term.length = h.term := by
  rw [hr.text, Head.whole, List.append_assoc, List.append_assoc, List.take_left]

theorem termHead_walk (hprev : prev.all (· == '\n') = true) (hh : headOf t = some h) :
    ∃ e, termHead.walk some ⟨prev, 0, t, []⟩ = some e ∧ e.ahead = h.after ∧ e.taken = h.whole.length ∧
      e.captures = [⟨1, t, h.term.length⟩] := by
  obtain ⟨⟨ht, ⟨c, w, hterm, hc, hw⟩, hspace⟩, hend⟩ := reads_of_headOf hh
  have hsplit : t = c :: (w ++ (h.space ++ ':' :: h.after)) := by rw [ht]; simp [Head.whole, hterm]
  let opened : State := State.behind ⟨prev, 0, t, []⟩ [c] (w ++ (h.space ++ ':' :: h.after))
  let named := opened.behind w (h.space ++ ':' :: h.after)
  let captured : State := { named with captures := [⟨1, t, named.taken⟩] }
  let spaced := captured.behind h.space (':' :: h.after)
  have hcolon : (word ":").walk some spaced = some (spaced.behind [':'] h.after) := walk_word h.after rfl
  have hspaces : (atLeast 0 isSpace).walk ((word ":").walk some) captured = some (spaced.behind [':'] h.after) := by
    rw [walk_atLeast h.space (':' :: h.after) rfl hspace rfl (Nat.zero_le _)
      (by rw [hcolon]; exact Option.some_ne_none _),
      hcolon]
  have hname : (atLeast 0 Definition.isTermChar).walk (fun e => (atLeast 0 isSpace).walk ((word ":").walk some)
      { e with captures := ⟨1, t, e.taken - 0⟩ :: e.captures }) opened = some (spaced.behind [':'] h.after) := by
    have hgo : (atLeast 0 isSpace).walk ((word ":").walk some) captured ≠ none := hspaces ▸ Option.some_ne_none _
    exact (walk_atLeast w (h.space ++ ':' :: h.after) rfl hw hend (Nat.zero_le _) hgo).trans hspaces
  refine ⟨spaced.behind [':'] h.after, ?_, rfl, ?_, ?_⟩
  · rw [termHead, walk_append, walk_append, walk_append, walk_lineStart hprev, walk_group, walk_append,
      walk_one hsplit (by simp [hc])]
    exact hname
  · simp [spaced, captured, named, opened, State.behind, Head.whole, hterm]
    omega
  · simp [spaced, captured, named, opened, State.behind, hterm, Nat.add_comm]

theorem termHead_takes {rest : Text} {caps : List (Nat × Text)} (h : termHead.Takes prev u rest caps) :
    prev.all (· == '\n') = true ∧ ∃ h : Head, h.Reads (u ++ rest) := by
  simp only [termHead, takes_append, takes_lineStart, takes_group, takes_one, takes_atLeast, takes_word] at h
  obtain ⟨_, _, _, _, rfl, -, ⟨_, space, _, _, rfl, -, ⟨_, term, _, _, rfl, -, ⟨hprev, rfl, -⟩, _,
    ⟨_, w, _, _, rfl, -, ⟨c, hc, rfl, -⟩, hw, -, -⟩, -⟩, hspace, -, -⟩, rfl, -⟩ := h
  exact ⟨hprev, ⟨[c] ++ w, space, rest⟩, by simp [Head.whole], ⟨c, w, rfl, by simpa using hc, hw⟩, hspace⟩

/-- The pattern reads the head off a text at the start of a line. -/
theorem termHead_scanner (prev : Option Char) (t : Text) : termHead.scanner prev t =
    if prev.all (· == '\n') then (headOf t).map fun h => ⟨h.whole, h.after, [some h.term]⟩ else none := by
  have hnone (h : ¬ (prev.all (· == '\n') = true ∧ headOf t ≠ none)) : termHead.scanner prev t = none := by
    refine Option.eq_none_iff_forall_ne_some.2 fun hit hhit => h ?_
    obtain ⟨ht, caps, htakes, -⟩ := takes_of_scanner hhit
    obtain ⟨hprev, head, hreads⟩ := termHead_takes htakes
    exact ⟨hprev, headOf_ne_none (ht ▸ hreads)⟩
  split
  · next hprev =>
    cases hh : headOf t with
    | none => exact hnone fun h => h.2 hh
    | some h =>
      obtain ⟨e, he, hahead, htaken, hcaptures⟩ := termHead_walk hprev hh
      obtain ⟨hreads, -⟩ := reads_of_headOf hh
      have hwhole : t.take e.taken = h.whole := by rw [htaken, hreads.text, List.take_left]
      have hgroups : (List.range termHead.groupCount).map (fun i => Capture.find? e.captures (i + 1)) =
          [some h.term] := by
        rw [hcaptures]
        exact congrArg (fun w => [some w]) hreads.take_term
      rw [scanner, he, Option.map_some, State.hit, hwhole, hahead, hgroups]
      rfl
  · next hprev => exact hnone fun h => hprev h.1

/-- The head at a place. -/
def headAt (prev : Option Char) (t : Text) : Option Head := if prev.all (· == '\n') then headOf t else none

theorem headAt_eq_none_iff : headAt prev t = none ↔ termHead.scanner prev t = none := by
  rw [termHead_scanner, headAt]
  split <;> simp

theorem headAt_eq_some (hh : headAt prev t = some h) : prev.all (· == '\n') = true ∧ headOf t = some h := by
  rw [headAt] at hh
  split at hh
  · next hprev => exact ⟨hprev, hh⟩
  · contradiction

/-- The place of a head and of its term. -/
def Head.spans (h : Head) (pos : Nat) : Spans :=
  ⟨⟨pos, pos + h.whole.bytes⟩, [some ⟨pos, pos + h.term.bytes⟩]⟩

/-- Where a match is a head, the walk through it tells the places of the head. -/
theorem spansOf_termHead {m : Match} (hprev : m.behind.head?.all (· == '\n') = true)
    (hh : headOf (m.whole ++ m.after) = some h) (hwhole : h.whole = m.whole) :
    ∃ e, termHead.walk some (.ofMatch m) = some e ∧ termHead.spansOf m e = h.spans m.start := by
  obtain ⟨e, he, -, -, hcaptures⟩ := termHead_walk hprev hh
  obtain ⟨hreads, -⟩ := reads_of_headOf hh
  have hplace : m.text.bytes - Text.bytes (m.whole ++ m.after) = m.start := by
    rw [Match.text, List.append_assoc, Text.bytes_append, Match.start]
    exact Nat.add_sub_cancel _ _
  have hgroup : spansOf termHead m e =
      ⟨⟨m.start, m.stop⟩, [some (Capture.span m.text ⟨1, m.whole ++ m.after, h.term.length⟩)]⟩ := by
    rw [spansOf, hcaptures]
    rfl
  refine ⟨e, he, ?_⟩
  rw [hgroup, Capture.span, hplace, hreads.take_term, Match.stop_eq, ← hwhole]
  rfl

theorem termHead_spansAt (ht : t = u ++ v) :
    (termHead.spansAt t u.bytes = .ok none ∧ ∀ x y, v = x ++ y → headAt (u ++ x).getLast? y = none) ∨
    ∃ x y h, v = x ++ y ∧ headAt (u ++ x).getLast? y = some h ∧
      termHead.spansAt t u.bytes = .ok (some (h.spans (u ++ x).bytes)) ∧
      ∀ a b, x = a ++ b → b ≠ [] → headAt (u ++ a).getLast? (b ++ y) = none := by
  rw [termHead.spansAt_of_eq ht, matcher_eq]
  cases hf : (Matcher.ofScanner termHead.scanner).find u.reverse v with
  | none =>
    refine .inl ⟨rfl, fun x y hxy => ?_⟩
    rw [headAt_eq_none_iff, ← Text.head?_behind]
    exact Scanner.search_eq_none_iff.1 hf x y hxy
  | some m =>
    obtain ⟨x, y, hxy, hbehind, hhit, hbefore⟩ := Scanner.search_eq_some hf
    have hprev : m.behind.head? = (u ++ x).getLast? := by rw [hbehind, Text.head?_behind]
    have hstart : m.start = (u ++ x).bytes := by
      rw [Match.start_eq, hbehind, ← List.reverse_append, Text.bytes_reverse]
    rw [termHead_scanner] at hhit
    split at hhit
    · next hline =>
      obtain ⟨h, hh, hm⟩ := Option.map_eq_some_iff.1 hhit
      obtain ⟨hwhole, hafter, -⟩ := Hit.mk.injEq .. |>.mp hm
      have hy := (reads_of_headOf hh).1.text
      rw [hwhole, hafter] at hy
      obtain ⟨e, hwalk, hspans⟩ := spansOf_termHead hline (hy ▸ hh) hwhole
      refine .inr ⟨x, y, h, hxy, by rw [headAt, ← hprev, if_pos hline, hh], ?_, fun a b hab hb => ?_⟩
      · rw [Option.bind_some, hwalk, Option.map_some, hspans, hstart]
      · rw [headAt_eq_none_iff, ← Text.head?_behind]
        exact hbefore a b hab hb
    · contradiction

end Markup.Listing
