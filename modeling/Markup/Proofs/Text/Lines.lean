import Markup.Text.Lines

/-! # Lines of a text in parts

A line break in the middle of a text splits its lines in two lists. -/
namespace Markup.Text
variable {t u v l : Text} {ls : List Text}

theorem lines_eq_singleton (h : '\n' ∉ t) : lines t = [t] := by
  induction t with
  | nil => rfl
  | cons c t ih =>
    rw [List.mem_cons, not_or] at h
    rw [lines, if_neg (Ne.symm h.1), ih h.2]

theorem exists_lines_eq_line_cons (t : Text) : ∃ ls, lines t = line t :: ls := by
  induction t with
  | nil => exact ⟨[], rfl⟩
  | cons c t ih =>
    rw [lines, line, List.takeWhile_cons]
    split
    · next hc => exact ⟨lines t, by simp [hc]⟩
    · next hc =>
      obtain ⟨ls, hl⟩ := ih
      exact ⟨ls, by simp [hl, hc, line]⟩

theorem line_eq_nil (h : t.head?.all (· == '\n') = true) : line t = [] := by
  cases t with
  | nil => rfl
  | cons c t =>
    obtain rfl : c = '\n' := by simpa using h
    rfl

theorem line_append_of_not_mem {u : Text} (h : '\n' ∉ u) (v : Text) : line (u ++ v) = u ++ line v := by
  have hall : ∀ c ∈ u, (c != '\n') = true := fun c hc => by
    rw [bne_iff_ne]
    rintro rfl
    exact h hc
  exact List.takeWhile_append_of_pos hall

/-- A text is cut at the end of its line in one way only. -/
theorem cut_line {k r r' : Text} (hl : '\n' ∉ l) (hk : '\n' ∉ k) (hr : r.head?.all (· == '\n') = true)
    (hr' : r'.head?.all (· == '\n') = true) (h : l ++ r = k ++ r') : l = k ∧ r = r' := by
  have hline := congrArg line h
  rw [line_append_of_not_mem hl, line_append_of_not_mem hk, line_eq_nil hr, line_eq_nil hr', List.append_nil,
    List.append_nil] at hline
  exact ⟨hline, List.append_cancel_left (hline ▸ h)⟩

theorem line_eq_self (h : '\n' ∉ t) : line t = t := by
  have hnil : line [] = [] := rfl
  have hline := line_append_of_not_mem h []
  rwa [hnil, List.append_nil] at hline

theorem afterLine_append_of_not_mem {u : Text} (h : '\n' ∉ u) (v : Text) : afterLine (u ++ v) = afterLine v := by
  have hsplit := line_append_afterLine (u ++ v)
  rw [line_append_of_not_mem h, List.append_assoc, List.append_cancel_left_eq] at hsplit
  exact List.append_cancel_left (hsplit.trans (line_append_afterLine v).symm)

theorem not_mem_line (t : Text) : '\n' ∉ t.line := fun h => by simpa using List.all_eq_true.1 List.all_takeWhile _ h

theorem eq_line_or_newline (t : Text) : t = t.line ∧ t.afterLine = [] ∨
    ∃ below, t = t.line ++ '\n' :: below ∧ t.afterLine = '\n' :: below := by
  have hsplit := t.line_append_afterLine
  have hhead := List.head?_dropWhile_not (· != '\n') t
  rw [← afterLine] at hhead
  cases h : t.afterLine with
  | nil =>
    rw [h, List.append_nil] at hsplit
    exact .inl ⟨hsplit.symm, rfl⟩
  | cons c below =>
    obtain rfl : c = '\n' := by simpa [h] using hhead
    exact .inr ⟨below, by rw [← h, hsplit], rfl⟩

/-- What looks no further than a line break sees the first line only. -/
theorem eq_of_line {α : Type} {f : Text → α} (h : ∀ t below, f (t ++ '\n' :: below) = f t) (t : Text) :
    f t.line = f t := by
  rcases t.eq_line_or_newline with ⟨ht, -⟩ | ⟨below, ht, -⟩
  · rw [← ht]
  · have hnewline := h t.line below
    rw [← ht] at hnewline
    exact hnewline.symm

theorem head?_afterLine (t : Text) : (afterLine t).head?.all (· == '\n') = true := by
  rcases eq_line_or_newline t with ⟨-, hnil⟩ | ⟨below, -, hbelow⟩
  · rw [hnil]
    rfl
  · rw [hbelow]
    rfl

theorem isPrefixOf_newline {u : Text} (h : '\n' ∉ u) (t b : Text) :
    u.isPrefixOf (t ++ '\n' :: b) = u.isPrefixOf t := by
  induction u generalizing t with
  | nil => simp
  | cons c u ih =>
    rw [List.mem_cons, not_or] at h
    cases t with
    | nil =>
      have hc : (c == '\n') = false := beq_eq_false_iff_ne.2 (Ne.symm h.1)
      simp [List.isPrefixOf, hc]
    | cons d t => simp [List.isPrefixOf, ih h.2]

theorem isPrefixOf_line {u : Text} (h : '\n' ∉ u) (t : Text) : u.isPrefixOf t.line = u.isPrefixOf t :=
  eq_of_line (isPrefixOf_newline h) t

theorem lines_append_of_not_mem (h : '\n' ∉ l) (t : Text) : lines (l ++ t) = (l ++ line t) :: (lines t).tail := by
  induction l with
  | nil =>
    obtain ⟨ls, hls⟩ := exists_lines_eq_line_cons t
    rw [List.nil_append, List.nil_append, hls, List.tail_cons]
  | cons c l ih =>
    rw [List.mem_cons, not_or] at h
    rw [List.cons_append, lines, if_neg (Ne.symm h.1), ih h.2]
    rfl

theorem joinLines_append_startLines {ms : List Text} (h : ls ≠ []) :
    joinLines ls ++ startLines ms = joinLines (ls ++ ms) := by
  obtain ⟨l, ls, rfl⟩ := List.exists_cons_of_ne_nil h
  simp [joinLines_cons, startLines]

theorem joinLines_append_cons (ls : List Text) (l : Text) (ms : List Text) :
    joinLines (ls ++ l :: ms) = endLines ls ++ (l ++ startLines ms) := by
  rw [joinLines_append (List.cons_ne_nil l ms), joinLines_cons]

theorem exists_of_mem_lines (h : l ∈ lines t) : ∃ ls ms, t = endLines ls ++ (l ++ startLines ms) := by
  obtain ⟨ls, ms, hsplit⟩ := List.append_of_mem h
  refine ⟨ls, ms, ?_⟩
  rw [← joinLines_append_cons, ← hsplit, joinLines_lines]

theorem infix_of_mem_lines (h : l ∈ lines t) : l <:+: t := by
  obtain ⟨ls, ms, htext⟩ := exists_of_mem_lines h
  exact ⟨endLines ls, startLines ms, by rw [htext, List.append_assoc]⟩

section
variable {α : Type} {p : α → Bool} {run ls : List α} (hrun : ∀ l ∈ run, p l = true) (hls : ∀ l ∈ ls.head?, p l = false)
include hrun hls

/-- A run is taken up to the first one that does not belong to it. -/
theorem takeWhile_run : (run ++ ls).takeWhile p = run := by
  rw [List.takeWhile_append_of_pos hrun]
  cases ls with
  | nil => exact List.append_nil run
  | cons l ls => rw [List.takeWhile_cons_of_neg (by simp [hls l rfl]), List.append_nil]

theorem dropWhile_run : (run ++ ls).dropWhile p = ls := by
  rw [List.dropWhile_append_of_pos hrun]
  cases ls with
  | nil => rfl
  | cons l ls => rw [List.dropWhile_cons_of_neg (by simp [hls l rfl])]

theorem run_unique {run' ls' : List α} (h : run ++ ls = run' ++ ls') (hrun' : ∀ l ∈ run', p l = true)
    (hls' : ∀ l ∈ ls'.head?, p l = false) : run = run' ∧ ls = ls' := by
  have hsame : run = run' := by
    rw [← takeWhile_run hrun hls, h, takeWhile_run hrun' hls']
  subst hsame
  exact ⟨rfl, List.append_cancel_left h⟩

end

theorem lines_append_newline (u v : Text) : lines (u ++ '\n' :: v) = lines u ++ lines v := by
  induction u with
  | nil => simp [lines]
  | cons c u ih =>
    simp only [List.cons_append, lines, ih]
    split
    · rfl
    · cases h : lines u with
      | nil => exact absurd h (lines_ne_nil u)
      | cons l ls => rfl

/-- Before the start of a line there are whole lines. -/
theorem exists_lines_of_start {behind : Text} (h : behind.head?.all (· == '\n') = true) :
    ∃ ls, ∀ v, lines (behind.reverse ++ v) = ls ++ lines v := by
  cases behind with
  | nil => exact ⟨[], fun v => rfl⟩
  | cons c behind =>
    obtain rfl : c = '\n' := by simpa using h
    exact ⟨lines behind.reverse, fun v => by simp [lines_append_newline]⟩

theorem not_mem_of_mem_lines (h : l ∈ lines t) : '\n' ∉ l := by
  induction t generalizing l with
  | nil => simp_all [lines]
  | cons c t ih =>
    rw [lines] at h
    split at h
    · rcases List.mem_cons.1 h with rfl | h
      · exact List.not_mem_nil
      · exact ih h
    · next hc =>
      cases ht : lines t with
      | nil => exact absurd ht (lines_ne_nil t)
      | cons m ms =>
        rw [ht] at h ih
        rcases List.mem_cons.1 h with rfl | h
        · have := ih List.mem_cons_self
          simp [this, Ne.symm hc]
        · exact ih (List.mem_cons_of_mem _ h)

theorem lines_startLines (t : Text) (h : ∀ l ∈ ls, '\n' ∉ l) : lines (t ++ startLines ls) = lines t ++ ls := by
  induction ls generalizing t with
  | nil => simp [startLines]
  | cons l ls ih =>
    have hl := lines_eq_singleton (h l List.mem_cons_self)
    have := ih (t ++ '\n' :: l) fun m hm => h m (List.mem_cons_of_mem _ hm)
    rw [lines_append_newline, hl] at this
    simpa [startLines] using this

theorem lines_joinLines (hne : ls ≠ []) (h : ∀ l ∈ ls, '\n' ∉ l) : lines (joinLines ls) = ls := by
  obtain ⟨l, ls, rfl⟩ := List.exists_cons_of_ne_nil hne
  rw [List.forall_mem_cons] at h
  rw [joinLines_cons, lines_startLines l h.2, lines_eq_singleton h.1, List.singleton_append]

theorem joinLines_singleton (l : Text) : joinLines [l] = l := List.append_nil l

theorem joinLines_cons_cons (l k : Text) (ls : List Text) :
    joinLines (l :: k :: ls) = l ++ '\n' :: joinLines (k :: ls) := by
  simp [joinLines_cons, startLines]

theorem lines_endLines (h : ∀ l ∈ ls, '\n' ∉ l) : lines (endLines ls) = ls ++ [[]] := by
  induction ls with
  | nil => rfl
  | cons l ls ih =>
    rw [List.forall_mem_cons] at h
    have hsplit : endLines (l :: ls) = l ++ '\n' :: endLines ls := by simp [endLines]
    rw [hsplit, lines_append_newline, lines_eq_singleton h.1, ih h.2]
    rfl

theorem head?_startLines (ls : List Text) : (startLines ls).head?.all (· == '\n') = true := by
  cases ls <;> simp [startLines]

theorem line_append_startLines (h : '\n' ∉ l) (ls : List Text) : line (l ++ startLines ls) = l := by
  rw [line_append_of_not_mem h, line_eq_nil (head?_startLines ls), List.append_nil]

theorem startLines_newline (ls : List Text) : startLines ls ++ ['\n'] = '\n' :: endLines ls := by
  induction ls with
  | nil => rfl
  | cons l ls ih =>
    simp only [startLines, endLines, List.flatMap_cons, List.cons_append, List.append_assoc] at ih ⊢
    rw [ih]
    rfl

theorem joinLines_newline (h : ls ≠ []) : joinLines ls ++ ['\n'] = endLines ls := by
  obtain ⟨l, ls, rfl⟩ := List.exists_cons_of_ne_nil h
  rw [joinLines_cons, List.append_assoc, startLines_newline]
  simp [endLines]

theorem head?_reverse_endLines (ls : List Text) : (endLines ls).reverse.head?.all (· == '\n') = true := by
  by_cases hne : ls = []
  · subst hne
    rfl
  · rw [← joinLines_newline hne, List.reverse_append]
    rfl

theorem endLines_lines (t : Text) : endLines t.lines = t ++ ['\n'] := by
  rw [← joinLines_newline (lines_ne_nil t), joinLines_lines]

/-- Texts with a break after each are their lines with a break after each. -/
theorem endLines_flatMap_lines (ts : List Text) : endLines (ts.flatMap lines) = endLines ts := by
  rw [endLines, List.flatMap_assoc]
  exact congrArg (ts.flatMap ·) (funext endLines_lines)

theorem flatMap_lines_ne_nil {ts : List Text} (h : ts ≠ []) : ts.flatMap lines ≠ [] := by
  obtain ⟨t, ts, rfl⟩ := List.exists_cons_of_ne_nil h
  simp [lines_ne_nil]

theorem joinLines_flatMap_lines (ts : List Text) : joinLines (ts.flatMap lines) = joinLines ts := by
  by_cases h : ts = []
  · subst h
    rfl
  · have hbreak : joinLines (ts.flatMap lines) ++ ['\n'] = joinLines ts ++ ['\n'] := by
      rw [joinLines_newline (flatMap_lines_ne_nil h), joinLines_newline h, endLines_flatMap_lines]
    exact List.append_cancel_right hbreak

theorem breakLines_append (t u : Text) : breakLines (t ++ u) = breakLines t ++ breakLines u := List.flatMap_append

theorem breakLines_of_not_mem (h : '\n' ∉ t) : breakLines t = t := by
  induction t with
  | nil => rfl
  | cons c t ih =>
    rw [List.mem_cons, not_or] at h
    rw [breakLines, List.flatMap_cons, if_neg (Ne.symm h.1)]
    exact congrArg (c :: ·) (ih h.2)

theorem breakLines_joinLines (h : ∀ l ∈ ls, '\n' ∉ l) : breakLines (joinLines ls) = "<br>".toList.intercalate ls := by
  cases ls with
  | nil => rfl
  | cons l ls =>
    induction ls generalizing l with
    | nil => simpa [joinLines, List.intercalate] using breakLines_of_not_mem (h l List.mem_cons_self)
    | cons k ls ih =>
      rw [List.forall_mem_cons] at h
      have hjoin : joinLines (l :: k :: ls) = l ++ '\n' :: joinLines (k :: ls) := by
        simp [joinLines_cons, startLines]
      have hbreak (u : Text) : breakLines ('\n' :: u) = "<br>".toList ++ breakLines u := rfl
      rw [hjoin, breakLines_append, breakLines_of_not_mem h.1, hbreak, ih k h.2]
      simp [List.intercalate]

end Markup.Text
