import Markup.Proofs.Pattern.Complete
import Markup.Table.Row
import Mathlib.Data.List.Basic

/-! # Shapes of rows

A row is a whole line between two pipes, and the line below belongs to it when it divides a header from the rows. -/
namespace Markup.Table
open Pattern
variable {prev : Option Char} {l k u rest : Text} {caps : List (Nat × Text)}

/-- Whether the line stands between two pipes, with something in between. -/
def isRow (l : Text) : Bool := decide (3 ≤ l.length) && l.head? == some '|' && l.getLast? == some '|'

/-- Whether the line is one of pipes and equals signs only. -/
def isDivider (k : Text) : Bool := isRow k && k.all fun c => c == '|' || c == '='

theorem isRow_iff : isRow l = true ↔ ∃ inner : Text, inner ≠ [] ∧ l = '|' :: (inner ++ ['|']) := by
  constructor
  · intro h
    simp only [isRow, Bool.and_eq_true, decide_eq_true_eq, beq_iff_eq] at h
    obtain ⟨⟨hlen, hhead⟩, hlast⟩ := h
    obtain ⟨t, rfl⟩ := List.head?_eq_some_iff.1 hhead
    rcases List.eq_nil_or_concat' t with rfl | ⟨inner, c, rfl⟩
    · exact absurd hlen (by simp)
    · obtain rfl : c = '|' := by simpa [List.getLast?_cons] using hlast
      refine ⟨inner, ?_, rfl⟩
      rintro rfl
      exact absurd hlen (by simp)
  · rintro ⟨inner, hne, rfl⟩
    have hpos := List.length_pos_iff.2 hne
    have hlast : ('|' :: (inner ++ ['|'])).getLast? = some '|' := List.getLast?_concat (l := '|' :: inner)
    rw [isRow, hlast]
    simp
    omega

theorem isDivider_iff : isDivider k = true ↔
    ∃ bars : Text, bars ≠ [] ∧ (∀ c ∈ bars, (c == '|' || c == '=') = true) ∧ k = '|' :: (bars ++ ['|']) := by
  rw [isDivider, Bool.and_eq_true, isRow_iff]
  constructor
  · rintro ⟨⟨bars, hne, rfl⟩, hall⟩
    refine ⟨bars, hne, fun c hc => List.all_eq_true.1 hall c ?_, rfl⟩
    exact List.mem_cons_of_mem _ (List.mem_append_left _ hc)
  · rintro ⟨bars, hne, hall, rfl⟩
    exact ⟨⟨bars, hne, rfl⟩, by simpa [or_imp, forall_and] using hall⟩

theorem isRow_eq_false_of_head (h : l.head? ≠ some '|') : isRow l = false := by simp [isRow, h]

theorem dropLast_row (inner : Text) : List.dropLast ('|' :: (inner ++ ['|'])) = '|' :: inner := by
  rw [← List.cons_append]
  exact List.dropLast_concat

theorem mem_divider (h : isDivider k = true) {c : Char} (hc : c ∈ k) : c = '|' ∨ c = '=' := by
  rw [isDivider, Bool.and_eq_true, List.all_eq_true] at h
  simpa using h.2 c hc

theorem newline_not_mem_of_isDivider (h : isDivider k = true) : '\n' ∉ k := by
  intro hmem
  rcases mem_divider h hmem with hc | hc <;> exact absurd hc (by decide)

/-- The line below a row that makes it a header. -/
def divider : Pattern := group 2 (word "\n|" ++ atLeast 1 (fun c => c == '|' || c == '=') ++ word "|")

theorem divider_takes_iff : divider.Takes prev u rest caps ↔ ∃ k, isDivider k = true ∧ u = '\n' :: k ∧
    caps = [(2, u)] := by
  simp only [divider, takes_group, takes_append, takes_word, takes_atLeast, isDivider_iff]
  constructor
  · rintro ⟨_, ⟨_, _, _, _, rfl, rfl, ⟨_, bars, _, _, rfl, rfl, ⟨rfl, rfl⟩, hall, hlen, rfl⟩, rfl, rfl⟩, rfl⟩
    exact ⟨'|' :: (bars ++ ['|']), ⟨bars, List.ne_nil_of_length_pos hlen, hall, rfl⟩, rfl, rfl⟩
  · rintro ⟨k, ⟨bars, hne, hall, rfl⟩, rfl, rfl⟩
    refine ⟨[], ⟨"\n|".toList ++ bars, "|".toList, [], [], rfl, rfl,
      ⟨"\n|".toList, bars, [], [], rfl, rfl, ⟨rfl, rfl⟩, hall,
      List.length_pos_iff.2 hne, rfl⟩, rfl, rfl⟩, rfl⟩

/-- The line of a row, with its body as the first group. -/
def rowLine : Pattern := lineStart ++ group 1 (word "|" ++ atLeast 1 (· != '\n')) ++ word "|"

theorem rowLine_takes_iff : rowLine.Takes prev u rest caps ↔
    prev.all (· == '\n') = true ∧ isRow u = true ∧ '\n' ∉ u ∧ caps = [(1, u.dropLast)] := by
  simp only [rowLine, takes_append, takes_group, takes_word, takes_atLeast, takes_lineStart, isRow_iff]
  constructor
  · rintro ⟨_, _, _, _, rfl, rfl,
      ⟨_, _, _, _, rfl, rfl, ⟨hprev, rfl, rfl⟩, _, ⟨_, inner, _, _, rfl, rfl, ⟨rfl, rfl⟩, hall,
      hlen, rfl⟩, rfl⟩, rfl, rfl⟩
    have hline : '\n' ∉ inner := fun h => by simpa using hall _ h
    exact ⟨hprev, ⟨inner, List.ne_nil_of_length_pos hlen, rfl⟩, by simpa using hline,
      congrArg (fun body => [(1, body)]) (dropLast_row inner).symm⟩
  · rintro ⟨hprev, ⟨inner, hne, rfl⟩, hline, rfl⟩
    have hall : ∀ c ∈ inner, (c != '\n') = true := by
      intro c hc
      rw [bne_iff_ne]
      rintro rfl
      exact hline (by simp [hc])
    rw [dropLast_row]
    exact ⟨'|' :: inner, "|".toList, [(1, '|' :: inner)], [], rfl, rfl,
      ⟨[], '|' :: inner, [], [(1, '|' :: inner)], rfl, rfl,
      ⟨hprev, rfl, rfl⟩, [],
      ⟨"|".toList, inner, [], [], rfl, rfl, ⟨rfl, rfl⟩, hall, List.length_pos_iff.2 hne, rfl⟩, rfl⟩,
      rfl, rfl⟩

theorem rowPattern_eq : rowPattern = rowLine ++ optional divider ++ lineEnd := rfl

theorem rowPattern_takes_iff : rowPattern.Takes prev u rest caps ↔
    prev.all (· == '\n') = true ∧ rest.head?.all (· == '\n') = true ∧ ∃ l, isRow l = true ∧ '\n' ∉ l ∧
      (u = l ∧ caps = [(1, l.dropLast)] ∨
        ∃ k, isDivider k = true ∧ u = l ++ '\n' :: k ∧ caps = [(2, '\n' :: k), (1, l.dropLast)]) := by
  rw [rowPattern_eq]
  simp only [takes_append, takes_optional, takes_lineEnd, rowLine_takes_iff, divider_takes_iff]
  constructor
  · rintro ⟨_, _, _, _, rfl, rfl,
      ⟨l, _, _, _, rfl, rfl, ⟨hprev, hrow, hline, rfl⟩, ⟨k, hk, rfl, rfl⟩ | ⟨rfl, rfl⟩⟩, hend,
      rfl, rfl⟩
    · exact ⟨hprev, hend, l, hrow, hline, .inr ⟨k, hk, by simp, rfl⟩⟩
    · exact ⟨hprev, hend, l, hrow, hline, .inl ⟨by simp, rfl⟩⟩
  · rintro ⟨hprev, hend, l, hrow, hline, ⟨rfl, rfl⟩ | ⟨k, hk, rfl, rfl⟩⟩
    · exact ⟨u, [], _, [], by simp, rfl,
        ⟨u, [], _, [], by simp, rfl, ⟨hprev, hrow, hline, rfl⟩, .inr ⟨rfl, rfl⟩⟩, hend, rfl,
        rfl⟩
    · exact ⟨l ++ '\n' :: k, [], _, [], by simp, rfl, ⟨l, '\n' :: k, _, _, rfl, rfl, ⟨hprev, hrow, hline, rfl⟩,
        .inl ⟨k, hk, rfl, rfl⟩⟩, hend, rfl, rfl⟩

end Markup.Table
