import Markup.Match

/-! # Searches

Where a search ends: the scanner hits there and nowhere before. -/
namespace Markup

/-- The replacement between the text before a match and the text after it. -/
theorem Match.replaceBy_reverse (u w rest : Text) (groups : List (Option Text)) (new : Text) :
    (⟨u.reverse, w, rest, groups⟩ : Match).replaceBy new = u ++ new ++ rest := by
  rw [replaceBy_eq, before, List.reverse_reverse]

theorem Match.getLast?_before (m : Match) : m.before.getLast? = m.behind.head? := List.getLast?_reverse

theorem Matcher.findAt_zero (m : Matcher) (t : Text) : m.findAt t 0 = .ok (m.find [] t) := by
  cases t <;> cases h : m.rounding <;> simp only [findAt, h] <;> rfl

/-- The match that a hit behind a text stands for. -/
def Hit.toMatch (behind : Text) (h : Hit) : Match := ⟨behind, h.whole, h.rest, h.groups⟩

/-- A scanner that reads more out of each hit of another one ends at the same place. -/
theorem Scanner.search_map {s s' : Scanner} {f : Hit → Hit} (h : ∀ prev t, s' prev t = (s prev t).map f)
    (behind t : Text) : s'.search behind t = (s.search behind t).map fun m =>
      (f ⟨m.whole, m.after, m.groups⟩).toMatch m.behind := by
  induction t generalizing behind with
  | nil =>
    rw [search, search, h]
    cases s behind.head? [] <;> rfl
  | cons c t ih =>
    rw [search, search, h]
    cases s behind.head? (c :: t) with
    | none => exact ih (c :: behind)
    | some hit => rfl

theorem Scanner.search_eq_some {s : Scanner} {behind t : Text} {m : Match} (h : s.search behind t = some m) :
    ∃ u rest, t = u ++ rest ∧ m.behind = u.reverse ++ behind ∧
      s m.behind.head? rest = some ⟨m.whole, m.after, m.groups⟩ ∧
      ∀ a b, u = a ++ b → b ≠ [] → s (a.reverse ++ behind).head? (b ++ rest) = none := by
  induction t generalizing behind with
  | nil =>
    obtain ⟨hit, hh, rfl⟩ := Option.map_eq_some_iff.1 h
    refine ⟨[], [], rfl, rfl, hh, fun a b hu hb => absurd ?_ hb⟩
    exact (List.append_eq_nil_iff.1 hu.symm).2
  | cons c t ih =>
    rw [search] at h
    split at h
    · next hit hh =>
      obtain rfl := Option.some.inj h
      refine ⟨[], c :: t, rfl, rfl, hh, fun a b hu hb => absurd ?_ hb⟩
      exact (List.append_eq_nil_iff.1 hu.symm).2
    · next hn =>
      obtain ⟨u, rest, rfl, hb, hh, before⟩ := ih h
      refine ⟨c :: u, rest, rfl, by simp [hb], hh, fun a b hu hb => ?_⟩
      cases a with
      | nil =>
        obtain rfl : c :: u = b := hu
        exact hn
      | cons d a =>
        obtain ⟨rfl, hu'⟩ := List.cons.inj hu
        simpa using before a b hu' hb

theorem Scanner.search_eq_none_iff {s : Scanner} {behind t : Text} :
    s.search behind t = none ↔ ∀ u v, t = u ++ v → s (u.reverse ++ behind).head? v = none := by
  induction t generalizing behind with
  | nil => simp [search]
  | cons c t ih =>
    rw [search]
    constructor
    · intro h u v huv
      split at h
      · contradiction
      · next hn =>
        rcases List.cons_eq_append_iff.1 huv with ⟨rfl, rfl⟩ | ⟨u, rfl, ht⟩
        · exact hn
        · simpa using ih.1 h u v ht
    · intro h
      have here := h [] (c :: t) rfl
      simp only [List.reverse_nil, List.nil_append] at here
      rw [here]
      exact ih.2 fun u v huv => by simpa using h (c :: u) v (by rw [huv]; rfl)

theorem Scanner.search_of_hit {s : Scanner} {behind t : Text} {h : Hit} (hh : s behind.head? t = some h) :
    s.search behind t = some ⟨behind, h.whole, h.rest, h.groups⟩ := by
  cases t with
  | nil => simp [search, hh]
  | cons c t => rw [search, hh]

theorem Scanner.search_skip {s : Scanner} {behind u rest : Text}
    (h : ∀ a b, u = a ++ b → b ≠ [] → s (a.reverse ++ behind).head? (b ++ rest) = none) :
    s.search behind (u ++ rest) = s.search (u.reverse ++ behind) rest := by
  induction u generalizing behind with
  | nil => rfl
  | cons c u ih =>
    have here := h [] (c :: u) rfl (List.cons_ne_nil c u)
    simp only [List.reverse_nil, List.nil_append, List.cons_append] at here
    rw [List.cons_append, search, here]
    simp only
    rw [ih fun a b hu hb => ?_]
    · simp
    · simpa using h (c :: a) b (by rw [hu]; rfl) hb

theorem Scanner.Lawful.hit_of_search {s : Scanner} (hs : s.Lawful) {behind t : Text} {m : Match}
    (h : s.search behind t = some m) :
    s m.behind.head? (m.whole ++ m.after) = some ⟨m.whole, m.after, m.groups⟩ := by
  obtain ⟨u, rest, -, -, hh, -⟩ := search_eq_some h
  have hr : m.whole ++ m.after = rest := hs _ _ _ hh
  exact hr ▸ hh

/-- A lawful search over a whole text cuts that text, and the scanner hits at the cut. -/
theorem Scanner.Lawful.search_hit {s : Scanner} (hs : s.Lawful) {t : Text} {m : Match}
    (h : s.search [] t = some m) :
    m.text = t ∧ s m.behind.head? (m.whole ++ m.after) = some ⟨m.whole, m.after, m.groups⟩ :=
  ⟨(hs.search h).1, hs.hit_of_search h⟩

/-- The scanner does not hit at a line that reads like this. -/
def Scanner.Passes (s : Scanner) (l : Text) : Prop :=
  ∀ prev t, t.head?.all (· == '\n') = true → s prev (l ++ t) = none

section
variable {s : Scanner} {ls : List Text} (hs : ∀ c t, c ≠ '\n' → s (some c) t = none)
include hs

theorem Scanner.search_line {behind l t : Text} (hl : '\n' ∉ l) (hnone : s behind.head? (l ++ '\n' :: t) = none) :
    s.search behind (l ++ '\n' :: t) = s.search ('\n' :: (l.reverse ++ behind)) t := by
  induction l generalizing behind with
  | nil =>
    rw [List.nil_append] at hnone ⊢
    rw [search, hnone]
    rfl
  | cons c l ih =>
    rw [List.mem_cons, not_or] at hl
    rw [List.cons_append] at hnone ⊢
    rw [search, hnone]
    simp only
    have hnext : s (c :: behind).head? (l ++ '\n' :: t) = none := hs c _ (Ne.symm hl.1)
    rw [ih hl.2 hnext]
    simp

theorem Scanner.search_last {behind l : Text} (hl : '\n' ∉ l) (hnone : s behind.head? l = none) :
    s.search behind l = none := by
  induction l generalizing behind with
  | nil => rw [search, hnone, Option.map_none]
  | cons c l ih =>
    rw [List.mem_cons, not_or] at hl
    rw [search, hnone]
    have hnext : s (c :: behind).head? l = none := hs c _ (Ne.symm hl.1)
    exact ih hl.2 hnext

variable (hl : ∀ l ∈ ls, '\n' ∉ l) (hpass : ∀ l ∈ ls, s.Passes l)
include hl hpass

theorem Scanner.search_endLines {behind t : Text} :
    s.search behind (Text.endLines ls ++ t) = s.search ((Text.endLines ls).reverse ++ behind) t := by
  induction ls generalizing behind with
  | nil => rfl
  | cons l ls ih =>
    rw [List.forall_mem_cons] at hl hpass
    have hsplit : Text.endLines (l :: ls) ++ t = l ++ '\n' :: (Text.endLines ls ++ t) := by simp [Text.endLines]
    rw [hsplit, search_line hs hl.1 (hpass.1 _ _ (by rfl)), ih hl.2 hpass.2]
    simp [Text.endLines]

theorem Scanner.search_joinLines (hne : ls ≠ []) (behind : Text) : s.search behind (Text.joinLines ls) = none := by
  obtain ⟨ls, l, rfl⟩ : ∃ ks l, ls = ks ++ [l] := ⟨_, _, (List.dropLast_concat_getLast hne).symm⟩
  rw [List.forall_mem_append] at hl hpass
  have hnone := hpass.2 l (List.mem_singleton_self l) ((Text.endLines ls).reverse ++ behind).head? [] rfl
  rw [List.append_nil] at hnone
  rw [Text.joinLines_append (List.cons_ne_nil l []), search_endLines hs hl.1 hpass.1, Text.joinLines_cons,
    Text.startLines,
    List.flatMap_nil, List.append_nil]
  exact search_last hs (hl.2 l (List.mem_singleton_self l)) hnone

end

end Markup
