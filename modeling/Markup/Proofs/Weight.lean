import Markup.Match
import Markup.Proofs.Text.Lines
import Markup.Proofs.Token.Written
import Mathlib.Algebra.Order.BigOperators.Group.List
import Mathlib.Data.List.Basic

/-! # Weights

A weight counts marks in a text: some characters, and some pairs of neighbours. What rules write around their contents
weighs nothing, so a rewrite that takes a mark away makes the whole text lighter. -/
namespace Markup

structure Weight where
  char : Char → Bool
  /-- Each entry counts a character of its first class right before one of its second class. -/
  pairs : List ((Char → Bool) × (Char → Bool)) := []

namespace Weight
variable {w : Weight} {u v t : Text}

/-- The number of one character. -/
def count (c : Char) : Weight := ⟨(· == c), []⟩

def pair (w : Weight) (c d : Char) : Bool := w.pairs.any fun x => x.1 c && x.2 d

def of (w : Weight) : Text → Nat
  | [] => 0
  | c :: t => (w.char c).toNat + (t.head?.any (w.pair c)).toNat + w.of t

/-- What two texts weigh more together than apart. -/
def seam (w : Weight) (u v : Text) : Nat := (u.getLast?.any fun c => v.head?.any (w.pair c)).toNat

theorem of_append (w : Weight) (u v : Text) : w.of (u ++ v) = w.of u + w.seam u v + w.of v := by
  induction u with
  | nil => simp [of, seam]
  | cons c u ih =>
    cases u with
    | nil => simp [of, seam]
    | cons d u =>
      simp only [List.cons_append, of, List.head?_cons] at ih ⊢
      have hs : w.seam (c :: d :: u) v = w.seam (d :: u) v := by simp [seam]
      rw [hs]
      omega

theorem pos_of_char {c : Char} (h : w.char c = true) (u v : Text) : 1 ≤ w.of (u ++ c :: v) := by
  rw [of_append, of, h]
  simp only [Bool.toNat_true]
  omega

theorem pos_of_pair {c d : Char} (h : w.pair c d = true) (u v : Text) : 1 ≤ w.of (u ++ c :: d :: v) := by
  rw [of_append, of, List.head?_cons, Option.any_some, h]
  simp only [Bool.toNat_true]
  omega

theorem of_le_of_slice (h : u <:+: t) : w.of u ≤ w.of t := by
  obtain ⟨a, b, rfl⟩ := h
  rw [of_append, of_append]
  omega

/-- A text that makes no pair with what stands beside it, and keeps its two sides apart. -/
def Apart (w : Weight) (t : Text) : Prop :=
  t ≠ [] ∧ ∀ x ∈ w.pairs, t.head?.all (!x.2 ·) ∧ t.getLast?.all (!x.1 ·)

/-- What stands apart and weighs nothing. -/
def Plain (w : Weight) (t : Text) : Prop := w.Apart t ∧ w.of t = 0

instance (w : Weight) (t : Text) : Decidable (w.Apart t) := inferInstanceAs (Decidable (_ ∧ _))

instance (w : Weight) (t : Text) : Decidable (w.Plain t) := inferInstanceAs (Decidable (_ ∧ _))

theorem seam_eq_zero_of_left (h : ∀ x ∈ w.pairs, u.getLast?.all (!x.1 ·)) (v : Text) : w.seam u v = 0 := by
  rw [seam, Bool.toNat_eq_zero]
  cases hl : u.getLast? with
  | none => rfl
  | some c =>
    cases hh : v.head? with
    | none => rfl
    | some d =>
      simp only [hl, Option.all_some, Bool.not_eq_true'] at h
      simp only [Option.any_some, pair, List.any_eq_false, Bool.and_eq_true, not_and]
      intro x hx hc
      simp [h x hx] at hc

theorem seam_eq_zero_of_right (h : ∀ x ∈ w.pairs, v.head?.all (!x.2 ·)) (u : Text) : w.seam u v = 0 := by
  rw [seam, Bool.toNat_eq_zero]
  cases hl : u.getLast? with
  | none => rfl
  | some c =>
    cases hh : v.head? with
    | none => rfl
    | some d =>
      simp only [hh, Option.all_some, Bool.not_eq_true'] at h
      simp only [Option.any_some, pair, List.any_eq_false, Bool.and_eq_true, not_and]
      intro x hx _ hd
      simp [h x hx] at hd

theorem Apart.of_append_left (h : w.Apart u) (v : Text) : w.of (u ++ v) = w.of u + w.of v := by
  rw [of_append, seam_eq_zero_of_left fun x hx => (h.2 x hx).2]
  omega

theorem Apart.of_append_right (h : w.Apart v) (u : Text) : w.of (u ++ v) = w.of u + w.of v := by
  rw [of_append, seam_eq_zero_of_right fun x hx => (h.2 x hx).1]
  omega

theorem Apart.between (hu : w.Apart u) (hv : w.Apart v) (t : Text) : w.Apart (u ++ t ++ v) := by
  refine ⟨by simp [hu.1], fun x hx => ⟨?_, ?_⟩⟩
  · rw [List.append_assoc, List.head?_append_of_ne_nil _ hu.1]
    exact (hu.2 x hx).1
  · rw [List.getLast?_append_of_ne_nil _ hv.1]
    exact (hv.2 x hx).2

theorem Apart.append (hu : w.Apart u) (hv : w.Apart v) : w.Apart (u ++ v) := by
  simpa using hu.between hv []

theorem Plain.of_append_right (h : w.Plain v) (u : Text) : w.of (u ++ v) = w.of u := by
  rw [h.1.of_append_right, h.2, Nat.add_zero]

theorem Plain.append (hu : w.Plain u) (hv : w.Plain v) : w.Plain (u ++ v) :=
  ⟨hu.1.append hv.1, by rw [hu.1.of_append_left, hu.2, hv.2]⟩

theorem Plain.of_between (hu : w.Plain u) (hv : w.Plain v) (t : Text) : w.of (u ++ t ++ v) = w.of t := by
  rw [hv.1.of_append_right, hu.1.of_append_left, hu.2, hv.2]
  omega

theorem Apart.of_sides (h : w.Apart t) (u v : Text) : w.of (u ++ t ++ v) = w.of u + w.of t + w.of v := by
  have hs : w.seam u (t ++ v) = w.seam u t := by
    obtain ⟨c, r, rfl⟩ := List.exists_cons_of_ne_nil h.1
    rfl
  rw [List.append_assoc, of_append, hs, seam_eq_zero_of_right fun x hx => (h.2 x hx).1, h.of_append_left]
  omega

/-- Putting `new` in the place of a match changes the weight by no more than the two weigh by themselves. -/
theorem Apart.of_replaceBy {new : Text} (h : w.Apart new) (m : Match) :
    w.of (m.replaceBy new) + w.of m.whole ≤ w.of m.text + w.of new := by
  rw [Match.replaceBy_eq, Match.text, h.of_sides, List.append_assoc, of_append, of_append]
  omega

/-- Whether tokens weigh nothing and pair with nothing. -/
def IgnoresTokens (w : Weight) : Prop :=
  (∀ c ∈ Token.alphabet, w.char c = false) ∧
    ∀ x ∈ w.pairs, x.1 ';' = false ∧ x.2 ';' = false ∧
      ∀ c ∈ Token.alphabet, ∀ d ∈ Token.alphabet, (x.1 c && x.2 d) = false

instance (w : Weight) : Decidable w.IgnoresTokens := inferInstanceAs (Decidable (_ ∧ _))

theorem of_eq_zero (hc : ∀ c ∈ t, w.char c = false) (hp : ∀ c ∈ t, ∀ d ∈ t, w.pair c d = false) : w.of t = 0 := by
  induction t with
  | nil => rfl
  | cons c t ih =>
    rw [of, hc c List.mem_cons_self, ih (fun d hd => hc d (List.mem_cons_of_mem _ hd))
      (fun d hd e he => hp d (List.mem_cons_of_mem _ hd) e (List.mem_cons_of_mem _ he))]
    cases t with
    | nil => rfl
    | cons d t => simp [hp c List.mem_cons_self d (by simp)]

theorem IgnoresTokens.plain (h : w.IgnoresTokens) (n : Nat) : w.Plain (Token.ofId n) := by
  refine ⟨⟨Token.ofId_ne_nil n, fun x hx => ?_⟩,
    of_eq_zero (fun c hc => h.1 c (Token.mem_alphabet hc)) fun c hc d hd => ?_⟩
  · rw [Token.head?_ofId, Token.getLast?_ofId]
    simp [(h.2 x hx).1, (h.2 x hx).2.1]
  · rw [pair, List.any_eq_false]
    intro x hx
    rw [(h.2 x hx).2.2 c (Token.mem_alphabet hc) d (Token.mem_alphabet hd)]
    exact Bool.false_ne_true

/-- Whether line breaks weigh nothing and pair with nothing. -/
def IgnoresBreaks (w : Weight) : Prop :=
  w.char '\n' = false ∧ ∀ x ∈ w.pairs, x.1 '\n' = false ∧ x.2 '\n' = false

instance (w : Weight) : Decidable w.IgnoresBreaks := inferInstanceAs (Decidable (_ ∧ _))

theorem IgnoresBreaks.plain (h : w.IgnoresBreaks) : w.Plain ['\n'] :=
  ⟨⟨by simp, fun x hx => by simp [h.2 x hx]⟩, by simp [of, h.1]⟩

theorem of_endLines (h : w.IgnoresBreaks) (ls : List Text) : w.of (Text.endLines ls) = (ls.map w.of).sum := by
  induction ls with
  | nil => rfl
  | cons l ls ih =>
    have hc : Text.endLines (l :: ls) = l ++ (['\n'] ++ Text.endLines ls) := by simp [Text.endLines]
    have hs : w.seam l (['\n'] ++ Text.endLines ls) = 0 := seam_eq_zero_of_right (fun x hx => by simp [h.2 x hx]) l
    rw [hc, of_append, hs, h.plain.1.of_append_left, h.plain.2, ih, List.map_cons, List.sum_cons]
    omega

theorem of_lines (h : w.IgnoresBreaks) (t : Text) : w.of t = (t.lines.map w.of).sum := by
  rw [← of_endLines h, Text.endLines_lines, h.plain.1.of_append_right, h.plain.2, Nat.add_zero]

theorem of_stripIndent_le (h : w.IgnoresBreaks) (indent t : Text) : w.of (Text.stripIndent indent t) ≤ w.of t := by
  have hj : w.of (Text.stripIndent indent t) =
      (t.lines.map fun l => w.of ((indent.isPrefixOf? l).getD l)).sum := by
    have := h.plain.1.of_append_right (Text.stripIndent indent t)
    rw [h.plain.2, Text.stripIndent, Text.joinLines_newline (by simp [Text.lines_ne_nil]), of_endLines h,
      List.map_map] at this
    exact this.symm
  rw [hj, of_lines h t]
  refine List.sum_le_sum fun l _ => of_le_of_slice ?_
  cases hl : indent.isPrefixOf? l with
  | none => exact ⟨[], [], by simp⟩
  | some r =>
    have he := Token.eq_append_of_isPrefixOf? hl
    exact ⟨indent, [], by simp only [Option.getD_some]; simp [he]⟩

end Weight
end Markup
