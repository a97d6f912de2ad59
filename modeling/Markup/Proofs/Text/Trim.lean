import Markup.Proofs.Script.Clean
import Markup.Proofs.Seam.Lines

/-! # Lines without white space at their ends -/
namespace Markup.Text
variable {t u v l : Text}

/-- Every line without the white space at its end. -/
def trimLines (t : Text) : Text := joinLines (t.lines.map trimEnd)

theorem exists_eq_trimEnd_append (t : Text) : ∃ w, t = t.trimEnd ++ w ∧ ∀ c ∈ w, isSpace c = true := by
  refine ⟨(t.reverse.takeWhile isSpace).reverse, ?_, fun c hc => ?_⟩
  · rw [trimEnd, ← List.reverse_append, List.takeWhile_append_dropWhile, List.reverse_reverse]
  · exact List.all_eq_true.1 List.all_takeWhile c (List.mem_reverse.1 hc)

theorem trimEnd_subset (t : Text) : t.trimEnd ⊆ t := by
  obtain ⟨w, hw, -⟩ := exists_eq_trimEnd_append t
  intro c hc
  rw [hw]
  exact List.mem_append_left w hc

theorem trimEnd_eq_self (h : t.getLast?.all (!isSpace ·) = true) : t.trimEnd = t := by
  rcases List.eq_nil_or_concat' t with rfl | ⟨t, c, rfl⟩
  · rfl
  · have hc : isSpace c = false := by simpa using h
    rw [trimEnd, List.reverse_append, List.reverse_singleton, List.singleton_append,
      List.dropWhile_cons_of_neg (by simp [hc]), List.reverse_cons, List.reverse_reverse]

theorem lines_trimLines (t : Text) : (trimLines t).lines = t.lines.map trimEnd := by
  refine lines_joinLines (by simp [lines_ne_nil]) fun l hl => ?_
  obtain ⟨k, hk, rfl⟩ := List.mem_map.1 hl
  exact fun h => not_mem_of_mem_lines hk (trimEnd_subset k h)

theorem trimLines_eq_self (h : ∀ l ∈ t.lines, l.trimEnd = l) : trimLines t = t := by
  have hmap : t.lines.map trimEnd = t.lines := by
    simpa using List.map_congr_left (g := id) h
  rw [trimLines, hmap, joinLines_lines]

theorem trimLines_newline (u v : Text) : trimLines (u ++ '\n' :: v) = trimLines u ++ '\n' :: trimLines v := by
  have hjoin {ls ms : List Text} (hl : ls ≠ []) (hm : ms ≠ []) :
      joinLines (ls ++ ms) = joinLines ls ++ '\n' :: joinLines ms := by
    obtain ⟨m, ms, rfl⟩ := List.exists_cons_of_ne_nil hm
    rw [← joinLines_append_startLines hl, joinLines_cons, startLines, List.flatMap_cons]
    rfl
  rw [trimLines, lines_append_newline, List.map_append, hjoin (by simp [lines_ne_nil]) (by simp [lines_ne_nil])]
  rfl

/-- A text that ends with a line break is trimmed on its own. -/
theorem Starts.trimLines_append (h : Starts u) (v : Text) : trimLines (u ++ v) = trimLines u ++ trimLines v := by
  rcases List.eq_nil_or_concat' u with rfl | ⟨u, c, rfl⟩
  · rfl
  · obtain rfl : c = '\n' := by simpa [Starts] using h
    rw [List.append_assoc, List.singleton_append, trimLines_newline, trimLines_newline]
    simp [trimLines, lines, trimEnd, joinLines_cons, startLines]

theorem Starts.trimLines (h : Starts u) : Starts (trimLines u) := by
  rcases List.eq_nil_or_concat' u with rfl | ⟨u, c, rfl⟩
  · rfl
  · obtain rfl : c = '\n' := by simpa [Starts] using h
    rw [trimLines_newline]
    simp [Text.trimLines, lines, trimEnd, joinLines_cons, startLines, Starts]

theorem trimLines_remove {b w c : Text} (hw : ∀ d ∈ w, isIndent d = true) (hc : c.head?.all (· == '\n') = true) :
    trimLines (b ++ w ++ c) = trimLines (b ++ c) := by
  obtain ⟨ls, l, hl, hlines⟩ := exists_lines_append b
  have hpart : '\n' ∉ l ++ w := fun hm => by
    rcases List.mem_append.1 hm with hm | hm
    · exact hl hm
    · exact ne_newline_of_isIndent (hw _ hm) rfl
  have hline : c.line = [] := line_eq_nil hc
  have hspace : ∀ d ∈ w, isSpace d = true := fun d hd => isSpace_of_isIndent (hw d hd)
  have hleft : lines (b ++ w ++ c) = ls ++ (l ++ w) :: c.lines.tail := by
    rw [List.append_assoc, hlines, ← List.append_assoc, lines_append_of_not_mem hpart, hline, List.append_nil]
  have hright : lines (b ++ c) = ls ++ l :: c.lines.tail := by
    rw [hlines, lines_append_of_not_mem hl, hline, List.append_nil]
  simp only [trimLines, hleft, hright, List.map_append, List.map_cons, trimEnd_append l hspace]

theorem exists_infix_of_joinLines {m : Text} (hm : '\n' ∉ m) (hne : m ≠ []) {ls : List Text} (h : m <:+: joinLines ls) :
    ∃ l ∈ ls, m <:+: l := by
  cases ls with
  | nil => exact absurd (List.infix_nil.1 h) hne
  | cons l ls =>
    rw [joinLines_cons] at h
    induction ls generalizing l with
    | nil => exact ⟨l, List.mem_singleton_self l, by simpa [startLines] using h⟩
    | cons k ls ih =>
      rw [startLines, List.flatMap_cons, List.cons_append] at h
      rcases List.infix_of_not_mem hm h with h | h
      · exact ⟨l, List.mem_cons_self, h⟩
      · obtain ⟨j, hj, hmj⟩ := ih k h
        exact ⟨j, List.mem_cons_of_mem l hj, hmj⟩

/-- A word within a line is nowhere in the trimmed text when it is nowhere in the text. -/
theorem not_infix_trimLines {m : Text} (hm : '\n' ∉ m) (hne : m ≠ []) (h : ¬ m <:+: t) : ¬ m <:+: trimLines t := by
  intro hinfix
  obtain ⟨k, hk, hmk⟩ := exists_infix_of_joinLines hm hne hinfix
  obtain ⟨l, hl, rfl⟩ := List.mem_map.1 hk
  obtain ⟨w, hw, -⟩ := exists_eq_trimEnd_append l
  have hline : l.trimEnd <:+: l := ⟨[], w, by rw [List.nil_append]; exact hw.symm⟩
  exact h (hmk.trans (hline.trans (infix_of_mem_lines hl)))

theorem mem_of_mem_joinLines {c : Char} (hc : c ≠ '\n') {ls : List Text} (h : c ∈ joinLines ls) : ∃ l ∈ ls, c ∈ l := by
  have hinfix : [c] <:+: joinLines ls := by
    obtain ⟨u, v, hsplit⟩ := List.append_of_mem h
    exact ⟨u, v, by simp [hsplit]⟩
  obtain ⟨l, hl, hcl⟩ := exists_infix_of_joinLines (by simpa using Ne.symm hc) (List.cons_ne_nil c []) hinfix
  exact ⟨l, hl, hcl.subset (List.mem_singleton_self c)⟩

theorem not_mem_trimLines {c : Char} (hc : c ≠ '\n') (h : c ∉ t) : c ∉ trimLines t := by
  intro hmem
  obtain ⟨k, hk, hck⟩ := mem_of_mem_joinLines hc hmem
  obtain ⟨l, hl, rfl⟩ := List.mem_map.1 hk
  exact h ((infix_of_mem_lines hl).subset (trimEnd_subset l hck))

theorem not_mem_of_mem_lines_trimLines {c : Char} (h : c ∉ t) (hl : l ∈ (trimLines t).lines) : c ∉ l := by
  rw [lines_trimLines] at hl
  obtain ⟨k, hk, rfl⟩ := List.mem_map.1 hl
  exact fun hc => h ((infix_of_mem_lines hk).subset (trimEnd_subset k hc))

end Markup.Text
