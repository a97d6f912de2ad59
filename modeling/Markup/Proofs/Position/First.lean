import Markup.Proofs.Match
import Markup.Proofs.Position.Basic
import Mathlib.Order.Bounds.Basic

/-! # The first place of a hit

A search goes from one character to the next, so it ends at the least position, counted in bytes, at which the scanner
hits. -/
namespace Markup.Scanner
variable {s : Scanner} {t u v x : Text} {m : Match} {pos : Nat}

/-- The scanner hits at a position of the text. -/
def HitsAt (s : Scanner) (t : Text) (pos : Nat) : Prop :=
  ∃ x y, t = x ++ y ∧ x.bytes = pos ∧ s x.getLast? y ≠ none

theorem exists_of_hitsAt (h : t = u ++ v) (hle : u.bytes ≤ pos) (hhit : s.HitsAt t pos) :
    ∃ p q, v = p ++ q ∧ (u ++ p).bytes = pos ∧ s (p.reverse ++ u.reverse).head? q ≠ none := by
  obtain ⟨x, q, hxq, rfl, hhit⟩ := hhit
  obtain ⟨p, rfl⟩ : u <+: x := Text.prefix_of_bytes_le (h.symm.trans hxq) hle
  rw [h, List.append_assoc] at hxq
  refine ⟨p, q, List.append_cancel_left hxq, rfl, ?_⟩
  rw [Text.head?_behind]
  exact hhit

theorem search_eq_none_iff_hitsAt (h : t = u ++ v) :
    s.search u.reverse v = none ↔ ∀ pos, u.bytes ≤ pos → ¬ s.HitsAt t pos := by
  constructor
  · intro hnone pos hle hhit
    obtain ⟨p, q, hv, -, hhit⟩ := exists_of_hitsAt h hle hhit
    exact hhit (search_eq_none_iff.1 hnone p q hv)
  · intro hnone
    rw [search_eq_none_iff]
    intro p q hv
    by_contra hhit
    rw [Text.head?_behind] at hhit
    apply hnone (u ++ p).bytes
    · rw [Text.bytes_append]
      exact Nat.le_add_right _ _
    · exact ⟨u ++ p, q, by rw [h, hv, List.append_assoc], rfl, hhit⟩

theorem isLeast_of_search (h : t = u ++ v) (hs : s.search u.reverse v = some m) :
    IsLeast {pos | u.bytes ≤ pos ∧ s.HitsAt t pos} m.start := by
  obtain ⟨w, ahead, rfl, hbehind, hit, hearlier⟩ := search_eq_some hs
  have hstart : m.start = (u ++ w).bytes := by
    rw [Match.start_eq, hbehind, ← List.reverse_append, Text.bytes_reverse]
  rw [hbehind, Text.head?_behind] at hit
  constructor
  · refine ⟨?_, u ++ w, ahead, by rw [h, List.append_assoc], hstart.symm, ?_⟩
    · rw [hstart, Text.bytes_append]
      exact Nat.le_add_right _ _
    · rw [hit]
      exact Option.some_ne_none _
  · rintro pos ⟨hle, hhit⟩
    by_contra hlt
    obtain ⟨p, q, hpq, hp, hsome⟩ := exists_of_hitsAt h hle hhit
    rw [Nat.not_le, hstart, ← hp, Text.bytes_append, Text.bytes_append, Nat.add_lt_add_iff_left] at hlt
    obtain ⟨r, rfl⟩ : p <+: w := Text.prefix_of_bytes_le hpq.symm (Nat.le_of_lt hlt)
    have hr : r ≠ [] := by
      rintro rfl
      rw [List.append_nil] at hlt
      exact Nat.lt_irrefl _ hlt
    rw [List.append_assoc, List.append_cancel_left_eq] at hpq
    exact hsome (hpq ▸ hearlier p r rfl hr)

end Markup.Scanner
