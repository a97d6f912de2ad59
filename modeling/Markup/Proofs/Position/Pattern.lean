import Markup.Proofs.Pattern.Takes
import Markup.Proofs.Position.Spans

/-! # Patterns by positions

A capture holds the text from its start on, so its place can be told from the length of that text. Whatever way the
search goes, it stays inside the text, and what it captures lies behind the start of the match and before the place
where it is. -/
namespace Markup.Pattern

/-- The place of a group in the text. -/
def Capture.span (t : Text) (c : Capture) : Span :=
  let start := t.bytes - c.source.bytes
  ⟨start, start + Text.bytes (c.source.take c.size)⟩

/-- The place where a match begins, with nothing taken. -/
def State.ofMatch (m : Match) : State := ⟨m.behind.head?, 0, m.whole ++ m.after, []⟩

/-- The places of a match and of the groups that its pattern captured on the way to a place. -/
def spansOf (p : Pattern) (m : Match) (e : State) : Spans :=
  ⟨⟨m.start, m.stop⟩, (List.range p.groupCount).map fun i =>
    (e.captures.find? (·.index == i + 1)).map (Capture.span m.text)⟩

/-- The places of the leftmost match at or after a position. -/
def spansAt (p : Pattern) (t : Text) (pos : Nat) : Except PositionError (Option Spans) := do
  let found ← p.matcher.findAt t pos
  return found.bind fun m => (p.walk some (.ofMatch m)).map (p.spansOf m)

/-- The place lies in the text, and so do the captures before it. -/
structure State.InText (t : Text) (s : State) : Prop where
  ahead : s.ahead = t.drop s.taken
  taken_le : s.taken ≤ t.length
  captures : ∀ c ∈ s.captures, ∃ i, c.source = t.drop i ∧ i + c.size ≤ s.taken

theorem State.inText_ofMatch (m : Match) : (State.ofMatch m).InText (m.whole ++ m.after) :=
  ⟨rfl, Nat.zero_le _, fun _ h => absurd h List.not_mem_nil⟩

variable {t u v behind : Text} {s e r : State} {next : State → Option State} {p q : Pattern} {m : Match}

theorem State.InText.forward (hs : s.InText t) (ha : s.ahead = u ++ e.ahead) (ht : e.taken = s.taken + u.length)
    (hc : e.captures = s.captures) : e.InText t where
  ahead := by rw [ht, ← List.drop_drop, ← hs.ahead, ha, List.drop_left]
  taken_le := by
    have hlen := congrArg List.length (hs.ahead.symm.trans ha)
    rw [List.length_drop, List.length_append] at hlen
    have := hs.taken_le
    omega
  captures c h := by
    obtain ⟨i, hi, hle⟩ := hs.captures c (hc ▸ h)
    exact ⟨i, hi, by omega⟩

theorem captures_of_mem_runEnds {accepts : Char → Bool} {least : Nat} {most : Option Nat}
    (h : e ∈ runEnds accepts least most s u) : e.captures = s.captures := by
  induction u generalizing least most s with
  | nil =>
    rw [runEnds] at h
    split at h
    · rw [List.mem_singleton.1 h]
    · exact absurd h List.not_mem_nil
  | cons c u ih =>
    rw [runEnds_eq, List.mem_append] at h
    rcases h with h | h
    · split at h
      · rw [List.mem_singleton.1 h]
      · exact absurd h List.not_mem_nil
    · rw [furtherEnds] at h
      split at h
      · exact (ih h).trans rfl
      · exact absurd h List.not_mem_nil

theorem repeats_inside {n : Nat}
    (step : ∀ {next : State → Option State} {s : State}, p.walk next s = some r → s.InText t →
      ∃ e, next e = some r ∧ e.InText t ∧ s.taken ≤ e.taken)
    (h : repeats p.walk next n s = some r) (hs : s.InText t) :
    ∃ e, next e = some r ∧ e.InText t ∧ s.taken ≤ e.taken := by
  induction n generalizing s with
  | zero => exact ⟨s, h, hs, Nat.le_refl _⟩
  | succ n ih =>
    rw [repeats, Option.orElse_eq_orElse, Option.orElse_eq_or, Option.or_eq_some_iff] at h
    rcases h with h | ⟨-, h⟩
    · obtain ⟨m, hm, hin, hle⟩ := step h hs
      obtain ⟨e, he, hin, hle'⟩ := ih hm hin
      exact ⟨e, he, hin, Nat.le_trans hle hle'⟩
    · exact ⟨s, h, hs, Nat.le_refl _⟩

theorem walk_inside (h : p.walk next s = some r) (hs : s.InText t) :
    ∃ e, next e = some r ∧ e.InText t ∧ s.taken ≤ e.taken := by
  induction p generalizing next s with
  | literal w =>
    rw [walk] at h
    split at h
    · next rest hw =>
      refine ⟨_, h, hs.forward (u := w) (Token.eq_append_of_isPrefixOf? hw) rfl rfl, Nat.le_add_right _ _⟩
    · contradiction
  | run accepts least most greedy =>
    rw [walk] at h
    obtain ⟨e, he, hn⟩ := List.exists_of_findSome?_eq_some h
    have he : e ∈ runEnds accepts least most s s.ahead := by
      split at he
      · exact List.mem_reverse.1 he
      · exact he
    obtain ⟨u, -, -, -, hp⟩ := past_of_mem_runEnds he
    exact ⟨e, hn, hs.forward hp.ahead hp.taken
      (captures_of_mem_runEnds he), by rw [hp.taken]; exact Nat.le_add_right _ _⟩
  | both p q ihp ihq =>
    obtain ⟨m, hm, hin, hle⟩ := ihp h hs
    obtain ⟨e, he, hin, hle'⟩ := ihq hm hin
    exact ⟨e, he, hin, Nat.le_trans hle hle'⟩
  | either p q ihp ihq =>
    rw [walk, Option.orElse_eq_orElse, Option.orElse_eq_or, Option.or_eq_some_iff] at h
    rcases h with h | ⟨-, h⟩
    · exact ihp h hs
    · exact ihq h hs
  | star p ih => exact repeats_inside ih h hs
  | group i p ih =>
    obtain ⟨e, he, hin, hle⟩ := ih h hs
    refine ⟨_, he, ⟨hin.ahead, hin.taken_le, fun c hc => ?_⟩, hle⟩
    rcases List.mem_cons.1 hc with rfl | hc
    · exact ⟨s.taken, hs.ahead, by simp only; omega⟩
    · exact hin.captures c hc
  | lineStart | lineEnd | wordEdge =>
    rw [walk] at h
    split at h
    · exact ⟨s, h, hs, Nat.le_refl _⟩
    · contradiction

theorem exists_walk_of_find (h : p.matcher.find behind v = some m) : ∃ e, p.walk some (.ofMatch m) = some e ∧
    e.InText (m.whole ++ m.after) ∧ e.taken = m.whole.length ∧
    m.groups = (List.range p.groupCount).map fun i => Capture.find? e.captures (i + 1) := by
  rw [matcher_eq] at h
  obtain ⟨e, he, hhit⟩ := Option.map_eq_some_iff.1 (p.scanner_lawful.hit_of_search h)
  obtain ⟨e', hlast, hin, -⟩ := walk_inside he (State.inText_ofMatch m)
  obtain rfl : e = e' := (Option.some.inj hlast).symm
  obtain ⟨hwhole, -, hgroups⟩ := Hit.mk.injEq .. |>.mp hhit
  exact ⟨e, he, hin, by rw [← hwhole, List.length_take, Nat.min_eq_left hin.taken_le], hgroups.symm⟩

theorem spansAt_of_eq (p : Pattern) (h : t = u ++ v) : p.spansAt t u.bytes =
    .ok ((p.matcher.find u.reverse v).bind fun m => (p.walk some (.ofMatch m)).map (p.spansOf m)) := by
  rw [spansAt, p.matcher.findAt_of_eq h rfl]
  rfl

/-- Wherever the position is, what is found lies at it or behind it. -/
theorem le_of_spansAt {pos : Nat} {spans : Spans} (h : p.spansAt t pos = .ok (some spans)) :
    pos ≤ spans.whole.start ∧ spans.whole.start ≤ spans.whole.stop := by
  obtain ⟨found, hfound, h⟩ := bind_eq_ok_iff.1 h
  rw [pure_eq, Except.ok.injEq] at h
  obtain ⟨m, rfl, h⟩ := Option.bind_eq_some_iff.1 h
  obtain ⟨e, -, rfl⟩ := Option.map_eq_some_iff.1 h
  exact ⟨Matcher.le_of_findAt p.matcher_lawful hfound, Nat.le_add_right _ _⟩

/-- A group at the end of a pattern goes to the end of the match. -/
theorem spansOf_append_group (hg : (p ++ group 1 q).groupCount = 1)
    (h : (p ++ group 1 q).matcher.find behind v = some m) :
      ∃ e w content, (p ++ group 1 q).walk some (.ofMatch m) = some e ∧
      m.whole = w ++ content ∧ m.groups = [some content] ∧
      (p ++ group 1 q).spansOf m e = ⟨⟨m.start, m.stop⟩, [some ⟨m.start + w.bytes, m.stop⟩]⟩ := by
  obtain ⟨e, he, -, htaken, hgroups⟩ := exists_walk_of_find h
  have hwalk : p.walk ((group 1 q).walk some) (.ofMatch m) = some e := he
  obtain ⟨s, hgroup, hin, -⟩ := walk_inside hwalk (State.inText_ofMatch m)
  obtain ⟨e', hlast, -, hle⟩ := walk_inside (p := q) hgroup hin
  obtain rfl := Option.some.inj hlast
  simp only at htaken
  have hsplit : m.whole = m.whole.take s.taken ++ m.whole.drop s.taken := (List.take_append_drop _ _).symm
  have hahead : s.ahead = m.whole.drop s.taken ++ m.after := by
    rw [hin.ahead, List.drop_append_of_le_length (by omega)]
  have htake : s.ahead.take (e'.taken - s.taken) = m.whole.drop s.taken := by
    rw [hahead, htaken, ← List.length_drop, List.take_left]
  refine ⟨_, _, _, he, hsplit, ?_, ?_⟩
  · rw [hgroups, hg]
    simp [Capture.find?, htake]
  · have hbytes : m.whole.bytes = Text.bytes (m.whole.take s.taken) + Text.bytes (m.whole.drop s.taken) := by
      rw [← Text.bytes_append, ← hsplit]
    have hspan : Capture.span m.text ⟨1, s.ahead, e'.taken - s.taken⟩ =
        ⟨m.start + Text.bytes (m.whole.take s.taken), m.stop⟩ := by
      rw [Capture.span, htake]
      simp only [Span.mk.injEq, hahead, Match.text, Match.start, Match.stop, Text.bytes_append]
      omega
    rw [spansOf, hg]
    simp [hspan]

end Markup.Pattern
