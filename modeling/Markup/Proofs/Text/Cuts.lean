import Mathlib.Data.List.Infix

/-! # Two cuts of one list

One list that is cut in two ways: where the parts of the one cut stand with regard to those of the other. -/
namespace Markup

section
variable {α : Type} {a b m n u v w : List α} {d x : α}

theorem List.append_append_eq_append_cons (h : u ++ w ++ v = a ++ x :: b) :
    (∃ c, a = u ++ w ++ c ∧ v = c ++ x :: b) ∨ (∃ c, u = a ++ x :: c ∧ b = c ++ w ++ v) ∨
      ∃ c d, a = u ++ c ∧ w = c ++ x :: d ∧ b = d ++ v := by
  rcases List.append_eq_append_iff.1 h with ⟨c, ha, hv⟩ | ⟨c, huw, hb⟩
  · exact .inl ⟨c, ha, hv⟩
  · cases c with
    | nil => exact .inl ⟨[], by simpa using huw.symm, hb.symm⟩
    | cons y c =>
      obtain ⟨rfl, rfl⟩ := List.cons.inj hb
      rcases List.append_eq_append_iff.1 huw with ⟨d, ha, hw⟩ | ⟨d, hu, hw⟩
      · exact .inr (.inr ⟨d, c, ha, hw, rfl⟩)
      · cases d with
        | nil => exact .inr (.inr ⟨[], c, by simpa using hu.symm, hw.symm, rfl⟩)
        | cons y d =>
          obtain ⟨rfl, rfl⟩ := List.cons.inj hw
          exact .inr (.inl ⟨d, hu, by simp⟩)

/-- A part stands on one side of an element that it has not. -/
theorem List.side_of_not_mem (hx : x ∉ m) (h : a ++ m ++ b = u ++ x :: v) :
    (∃ c, u = a ++ m ++ c ∧ b = c ++ x :: v) ∨ ∃ c, a = u ++ x :: c ∧ v = c ++ m ++ b := by
  rcases List.append_append_eq_append_cons h with hleft | hright | ⟨_, _, -, rfl, -⟩
  · exact .inl hleft
  · exact .inr hright
  · simp at hx

theorem List.infix_of_not_mem (hx : x ∉ m) (h : m <:+: u ++ x :: v) : m <:+: u ∨ m <:+: v := by
  obtain ⟨a, b, h⟩ := h
  rcases List.side_of_not_mem hx h with ⟨c, rfl, -⟩ | ⟨c, -, rfl⟩
  · exact .inl (List.infix_append a m c)
  · exact .inr (List.infix_append c m b)

/-- A stretch stands on one side of a part when it has not the first element of the part, nor the part its own. -/
theorem List.side_of_stretch (hx : x ∉ d :: n) (hd : d ∉ m) (h : b ++ (d :: n) ++ a = u ++ (x :: m) ++ v) :
    (∃ c, b = u ++ (x :: m) ++ c ∧ v = c ++ (d :: n) ++ a) ∨ ∃ c, u = b ++ (d :: n) ++ c ∧ a = c ++ (x :: m) ++ v := by
  have hdx : d ∉ x :: m := by
    rw [List.mem_cons, not_or] at hx ⊢
    exact ⟨Ne.symm hx.1, hd⟩
  have hfirst : u ++ (x :: m) ++ v = b ++ d :: (n ++ a) := by rw [← h, List.append_assoc, List.cons_append]
  rcases List.side_of_not_mem hdx hfirst with ⟨c, rfl, rfl⟩ | ⟨c, rfl, hc⟩
  · exact .inl ⟨c, rfl, by simp⟩
  · have hn : [] ++ n ++ a = c ++ x :: (m ++ v) := by simpa using hc
    rcases List.side_of_not_mem (List.not_mem_of_not_mem_cons hx) hn with ⟨e, rfl, rfl⟩ | ⟨e, he, -⟩
    · exact .inr ⟨e, by simp, by simp⟩
    · exact absurd he (by simp)

/-- A part that begins with no element of the front stands behind it. -/
theorem List.exists_eq_append_of_front (hx : x ∉ u) (h : u ++ v = a ++ x :: b) : ∃ c, a = u ++ c ∧ v = c ++ x :: b := by
  rcases List.append_eq_append_iff.1 h with ⟨c, ha, hv⟩ | ⟨c, rfl, hb⟩
  · exact ⟨c, ha, hv⟩
  · cases c with
    | nil => exact ⟨[], by simp, hb.symm⟩
    | cons y c =>
      obtain ⟨rfl, -⟩ := List.cons.inj hb
      simp at hx

theorem List.eq_of_first (hu : x ∉ u) (ha : x ∉ a) (h : u ++ x :: v = a ++ x :: b) : u = a ∧ v = b := by
  rcases List.append_eq_append_iff.1 h with ⟨c, rfl, hc⟩ | ⟨c, rfl, hc⟩
  all_goals
    cases c with
    | nil => simpa [eq_comm] using hc
    | cons y c =>
      obtain ⟨rfl, -⟩ := List.cons.inj hc
      simp at hu ha

theorem List.eq_of_only (hu : x ∉ u) (hv : x ∉ v) (h : u ++ d :: v = a ++ x :: b) : a = u := by
  have hmiddle : u ++ [d] ++ v = a ++ x :: b := by simpa using h
  rcases List.append_append_eq_append_cons hmiddle with ⟨c, -, rfl⟩ | ⟨c, rfl, -⟩ | ⟨c, e, rfl, hd, -⟩
  · simp at hv
  · simp at hu
  · obtain ⟨rfl, -⟩ : c = [] ∧ _ := by
      cases c with
      | nil => exact ⟨rfl, trivial⟩
      | cons y c => simp at hd
    simp

end

end Markup
