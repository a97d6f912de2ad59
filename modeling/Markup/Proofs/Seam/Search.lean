import Markup.Proofs.Match

/-! # Searches on both sides of a seam

A seam is a line break between two texts. A scanner that sees its sides apart finds in the whole what it finds in the
left text alone, and if there is nothing what it finds in the right text alone. -/
namespace Markup

/-- The hit with more text behind it. -/
def Hit.extend (more : Text) (h : Hit) : Hit := { h with rest := h.rest ++ more }

namespace Match

/-- The match with more text behind it. -/
def extend (more : Text) (m : Match) : Match := { m with after := m.after ++ more }

/-- The match with more text in front of it, the last character first. -/
def shift (front : Text) (m : Match) : Match := { m with behind := m.behind ++ front }

theorem replaceBy_extend (m : Match) (more new : Text) : (m.extend more).replaceBy new = m.replaceBy new ++ more := by
  simp [replaceBy_eq, extend, before]

theorem replaceBy_shift (m : Match) (front new : Text) :
    (m.shift front).replaceBy new = front.reverse ++ m.replaceBy new := by
  simp [replaceBy_eq, shift, before]

end Match

/-- The scanner sees nothing beyond a line break between `a` and `b`, from either side. -/
structure Scanner.Seam (s : Scanner) (a b : Text) : Prop where
  left : ∀ u v, a = u ++ v → s u.getLast? (v ++ '\n' :: b) = (s u.getLast? v).map (Hit.extend ('\n' :: b))
  right : s (some '\n') b = s none b

/-- The leftmost match is that of `a`, or else that of `b`. -/
def Matcher.Seam (m : Matcher) (a b : Text) : Prop :=
  m.find [] (a ++ '\n' :: b) =
    ((m.find [] a).map (Match.extend ('\n' :: b))).or ((m.find [] b).map (Match.shift ('\n' :: a.reverse)))

namespace Scanner
variable {s : Scanner} {a b t : Text}

theorem search_append_cons (behind : Text) {c : Char} (h : ∀ u v, t = u ++ v →
    s (u.reverse ++ behind).head? (v ++ c :: b) = (s (u.reverse ++ behind).head? v).map (Hit.extend (c :: b))) :
    s.search behind (t ++ c :: b) =
      ((s.search behind t).map (Match.extend (c :: b))).or (s.search (c :: (t.reverse ++ behind)) b) := by
  induction t generalizing behind with
  | nil =>
    have here := h [] [] rfl
    simp only [List.reverse_nil, List.nil_append] at here
    rw [List.nil_append, search, search, here]
    cases s behind.head? [] <;> rfl
  | cons d t ih =>
    have here := h [] (d :: t) rfl
    simp only [List.reverse_nil, List.nil_append, List.cons_append] at here
    rw [List.cons_append, search, search, here]
    cases s behind.head? (d :: t) with
    | some hit => rfl
    | none =>
      simp only [Option.map_none]
      rw [ih _ fun u v hu => ?_]
      · simp
      · simpa using h (d :: u) v (by rw [hu]; rfl)

theorem search_shift {behind : Text} (hb : behind ≠ []) (front t : Text) :
    s.search (behind ++ front) t = (s.search behind t).map (Match.shift front) := by
  have hhead : (behind ++ front).head? = behind.head? := by
    obtain ⟨c, rest, rfl⟩ := List.exists_cons_of_ne_nil hb
    rfl
  induction t generalizing behind with
  | nil =>
    rw [search, search, hhead]
    cases s behind.head? [] <;> rfl
  | cons c t ih =>
    rw [search, search, hhead]
    cases s behind.head? (c :: t) with
    | some hit => rfl
    | none => exact ih (List.cons_ne_nil c behind) rfl

/-- At the beginning of a line the scanner sees what it sees at the beginning of a text. -/
theorem search_newline (h : s (some '\n') b = s none b) (front : Text) :
    s.search ('\n' :: front) b = (s.search [] b).map (Match.shift ('\n' :: front)) := by
  cases b with
  | nil =>
    rw [search, search, List.head?_cons, h, List.head?_nil]
    cases s none [] <;> rfl
  | cons c t =>
    rw [search, search, List.head?_cons, h, List.head?_nil]
    cases s none (c :: t) with
    | some hit => rfl
    | none => exact search_shift (List.cons_ne_nil c []) _ t

theorem Seam.matcher (h : s.Seam a b) (r : Rounding) : (Matcher.ofScanner s r).Seam a b := by
  have left := search_append_cons (s := s) [] fun u v hu => by
    simpa using h.left u v hu
  rw [List.append_nil, search_newline h.right] at left
  exact left

/-- A scanner that sees the sides of every seam apart hits within a line. -/
theorem newline_not_mem (hl : s.Lawful) (h : ∀ a b, s.Seam a b) {prev : Option Char} {hit : Hit}
    (hs : s prev t = some hit) : '\n' ∉ hit.whole := by
  intro hmem
  obtain ⟨x, y, hw, hx⟩ := List.eq_append_cons_of_mem hmem
  have ht : t = x ++ '\n' :: (y ++ hit.rest) := by simp [← hl _ _ _ hs, hw]
  have hleft := (h (prev.toList ++ x) (y ++ hit.rest)).left prev.toList x rfl
  rw [← ht, show prev.toList.getLast? = prev by cases prev <;> rfl, hs, eq_comm, Option.map_eq_some_iff] at hleft
  obtain ⟨hit', hs', hextend⟩ := hleft
  rw [← hextend] at hmem
  refine hx ?_
  rw [← hl _ _ _ hs']
  exact List.mem_append_left _ hmem

end Scanner
end Markup
