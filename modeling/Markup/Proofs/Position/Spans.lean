import Markup.Proofs.Match
import Markup.Proofs.Position.Basic
import Mathlib.Data.List.Forall2
import Mathlib.Data.Option.Basic

/-! # Matches by positions

A scanner that counts in bytes answers with the place of a match and the places of its groups; the texts are sliced out
afterwards. `Spans.Of` ties such places to a match: the groups are stretches of the text that lie in the match. -/
namespace Markup

structure Span where
  start : Nat
  stop : Nat
deriving DecidableEq, Repr

/-- The place of a match and the places of its groups. -/
structure Spans where
  whole : Span
  groups : List (Option Span)
deriving DecidableEq, Repr

/-- The span is the place of a stretch of the text. -/
def Span.Covers (g : Span) (t w : Text) : Prop := ∃ x y, t = x ++ w ++ y ∧ x.bytes = g.start ∧ (x ++ w).bytes = g.stop

/-- The span lies inside another one. -/
def Span.Within (g s : Span) : Prop := s.start ≤ g.start ∧ g.start ≤ g.stop ∧ g.stop ≤ s.stop

/-- The places of the match and of its groups. -/
structure Spans.Of (s : Spans) (m : Match) : Prop where
  whole : s.whole = ⟨m.start, m.stop⟩
  groups : List.Forall₂ (Option.Rel fun g w => g.Covers m.text w ∧ g.Within ⟨m.start, m.stop⟩) s.groups m.groups

/-- The text of a group, where it took part. -/
def Text.group (t : Text) : Option Span → Except PositionError (Option Text)
  | none => return none
  | some g => some <$> t.slice g.start g.stop

/-- The match at the given places of a text. -/
def Match.ofSpans (t : Text) (s : Spans) : Except PositionError Match := do
  let (before, _) ← t.cut s.whole.start
  let whole ← t.slice s.whole.start s.whole.stop
  let after ← t.sliceFrom s.whole.stop
  let groups ← s.groups.mapM t.group
  return ⟨before.reverse, whole, after, groups⟩

variable {t w : Text} {g : Span} {s : Spans} {m : Match}

namespace Span

theorem Covers.slice (h : g.Covers t w) : t.slice g.start g.stop = .ok w := by
  obtain ⟨x, y, rfl, hx, hw⟩ := h
  exact Text.slice_of_eq rfl hx hw

theorem Covers.boundary_start (h : g.Covers t w) : t.IsBoundary g.start := by
  obtain ⟨x, y, rfl, hx, -⟩ := h
  exact Text.isBoundary_iff.2 ⟨x, w ++ y, by rw [List.append_assoc], hx⟩

theorem Covers.boundary_stop (h : g.Covers t w) : t.IsBoundary g.stop := by
  obtain ⟨x, y, rfl, -, hw⟩ := h
  exact Text.isBoundary_iff.2 ⟨x ++ w, y, rfl, hw⟩

end Span

namespace Match

theorem covers_whole (m : Match) : Span.Covers ⟨m.start, m.stop⟩ m.text m.whole :=
  ⟨m.before, m.after, rfl, rfl, Text.bytes_append _ _⟩

/-- The place of a stretch of the match lies inside that of the match. -/
theorem covers_inside {x y : Text} (h : m.whole = x ++ w ++ y) (hs : m.start + x.bytes = g.start)
    (he : g.start + w.bytes = g.stop) : g.Covers m.text w ∧ g.Within ⟨m.start, m.stop⟩ := by
  refine ⟨⟨m.before ++ x, y ++ m.after, by simp [text, h], by simp [start, ← hs], ?_⟩, ?_⟩
  · simp [← he, ← hs, start, Nat.add_assoc]
  · rw [stop_eq, h, Span.Within]
    simp only [Text.bytes_append]
    omega

end Match

namespace Spans

theorem Of.mapM_group {gs : List (Option Span)} {ws : List (Option Text)}
    (h : List.Forall₂ (Option.Rel fun g w => Span.Covers g t w ∧ g.Within ⟨m.start, m.stop⟩) gs ws) :
    gs.mapM t.group = .ok ws := by
  induction h with
  | nil => rfl
  | cons hg _ ih =>
    rw [List.mapM_cons, ih]
    cases hg with
    | none => rfl
    | some hg => simp [Text.group, hg.1.slice]

theorem Of.ofSpans (h : s.Of m) : Match.ofSpans m.text s = .ok m := by
  have hcut : m.text.cut m.start = .ok (m.before, m.whole ++ m.after) :=
    Text.cut_of_eq (by rw [Match.text, List.append_assoc]) rfl
  have hafter : m.text.sliceFrom m.stop = .ok m.after := Text.sliceFrom_of_eq rfl (Text.bytes_append _ _)
  rw [Match.ofSpans, h.whole]
  simp [hcut, m.covers_whole.slice, hafter, mapM_group h.groups, Match.before]

theorem Of.group_mem (h : s.Of m) (hg : some g ∈ s.groups) : ∃ w, g.Covers m.text w ∧ g.Within ⟨m.start, m.stop⟩ := by
  have hgroups := h.groups
  generalize s.groups = gs, m.groups = ws at hg hgroups
  induction hgroups with
  | nil => exact absurd hg List.not_mem_nil
  | cons hhead _ ih =>
    rcases List.mem_cons.1 hg with rfl | hg
    · obtain @⟨_, w, hw⟩ := hhead
      exact ⟨w, hw⟩
    · exact ih hg

end Spans

/-- What is found are the places of the match; where there is no match nothing is found. -/
def Locates (r : Except PositionError (Option Spans)) (m : Option Match) : Prop :=
  ∃ o, r = .ok o ∧ Option.Rel Spans.Of o m

theorem locates_none : Locates (.ok none) none := ⟨none, rfl, .none⟩

theorem Spans.Of.locates (h : s.Of m) : Locates (.ok (some s)) (some m) := ⟨some s, rfl, .some h⟩

@[simp] theorem Hit.start_toMatch (u : Text) (h : Hit) : (h.toMatch u.reverse).start = u.bytes := by
  rw [toMatch, Match.start_eq, Text.bytes_reverse]

@[simp] theorem Hit.stop_toMatch (u : Text) (h : Hit) : (h.toMatch u.reverse).stop = u.bytes + h.whole.bytes := by
  rw [Match.stop_eq, start_toMatch]
  rfl

/-- The first character from a position on for which something is found. -/
def Text.findPlace {α : Type} (f : Nat → Char → Except PositionError (Option α)) :
    Nat → Text → Except PositionError (Option α)
  | _, [] => return none
  | pos, c :: t => firstFound (f pos c) (findPlace f (pos + c.utf8Size) t)

theorem Locates.firstFound {a b : Except PositionError (Option Spans)} {x y : Option Match} (ha : Locates a x)
    (hb : Locates b y) : Locates (firstFound a b) (x <|> y) := by
  obtain ⟨_, rfl, h⟩ := ha
  cases h with
  | none => exact hb
  | some h => exact h.locates

/-- A scanner that hits at no end of a text is a look at one character after the other. -/
theorem Scanner.search_located {sc : Scanner} {f : Nat → Char → Except PositionError (Option Spans)}
    (hend : ∀ prev, sc prev [] = none)
    (hstep : ∀ (u : Text) c v, t = u ++ c :: v →
      Locates (f u.bytes c) ((sc u.getLast? (c :: v)).map (Hit.toMatch u.reverse)))
    {u v : Text} (ht : t = u ++ v) : Locates (Text.findPlace f u.bytes v) (sc.search u.reverse v) := by
  induction v generalizing u with
  | nil =>
    have hnone : sc.search u.reverse [] = none := by simp [search, hend]
    rw [hnone]
    exact locates_none
  | cons c v ih =>
    have hnext := ih (u := u ++ [c]) (by rw [ht, List.append_assoc]; rfl)
    have hsplit : sc.search u.reverse (c :: v) = ((sc u.getLast? (c :: v)).map (Hit.toMatch u.reverse) <|>
        sc.search (u ++ [c]).reverse v) := by
      rw [search, List.head?_reverse, List.reverse_append]
      cases sc u.getLast? (c :: v) <;> rfl
    rw [hsplit]
    have hpos : (u ++ [c]).bytes = u.bytes + c.utf8Size := by simp
    rw [hpos] at hnext
    exact (hstep u c v ht).firstFound hnext

end Markup
