import Markup.Match
import Markup.Proofs.Text.Lines
import Markup.Proofs.Token.Written
import Mathlib.Data.List.Basic

/-! # Lines at a seam

What the text on the left must not end with, and the text on the right not begin with, for a line break between them to
be a seam; and that this stays so while parts of lines are replaced by tokens. -/
namespace Markup

section
variable {α : Type} {p : α → Bool} {xs : List α} {x : α}

theorem takeWhile_append_of_mem (hx : x ∈ xs) (hp : p x = false) (ys : List α) :
    (xs ++ ys).takeWhile p = xs.takeWhile p := by
  induction xs with
  | nil => exact absurd hx List.not_mem_nil
  | cons y xs ih =>
    rw [List.cons_append, List.takeWhile_cons, List.takeWhile_cons]
    split
    · next hy =>
      rcases List.mem_cons.1 hx with rfl | hx
      · simp [hp] at hy
      · rw [ih hx]
    · rfl

theorem dropWhile_append_of_mem (hx : x ∈ xs) (hp : p x = false) (ys : List α) :
    (xs ++ ys).dropWhile p = xs.dropWhile p ++ ys := by
  induction xs with
  | nil => exact absurd hx List.not_mem_nil
  | cons y xs ih =>
    rw [List.cons_append, List.dropWhile_cons, List.dropWhile_cons]
    split
    · next hy =>
      rcases List.mem_cons.1 hx with rfl | hx
      · simp [hp] at hy
      · rw [ih hx]
    · rfl

theorem takeWhile_append_cons_of_rejects (hp : p x = false) (xs ys : List α) :
    (xs ++ x :: ys).takeWhile p = xs.takeWhile p := by
  rw [List.append_cons, takeWhile_append_of_mem (List.mem_append_right xs List.mem_cons_self) hp]
  induction xs with
  | nil => simp [hp]
  | cons y xs ih => simp [List.takeWhile_cons, ih]

theorem dropWhile_append_cons_of_rejects (hp : p x = false) (xs ys : List α) :
    (xs ++ x :: ys).dropWhile p = xs.dropWhile p ++ x :: ys := by
  induction xs with
  | nil => simp [hp]
  | cons y xs ih =>
    rw [List.cons_append, List.dropWhile_cons, List.dropWhile_cons, ih]
    split <;> rfl

end

namespace Text
variable {t u v w l b c new : Text}

/-- The text without the white space at its end. -/
def trimEnd (t : Text) : Text := (t.reverse.dropWhile isSpace).reverse

/-- A line that opens code or a quote, or that leaves the text of its heading to the next one. -/
def Bare (l : Text) : Prop := l = ['@'] ∨ l = ['"'] ∨ ∃ n, 1 ≤ n ∧ n ≤ 5 ∧ l = List.replicate n '#'

/-- No line is bare, whatever white space it ends with. -/
def Tame (t : Text) : Prop := ∀ l ∈ t.lines, ¬ Bare l.trimEnd

/-- The first line is not blank. -/
def Opens (t : Text) : Prop := ∃ c ∈ t.line, isSpace c = false

instance (l : Text) : Decidable (Bare l) :=
  decidable_of_iff (l = ['@'] ∨ l = ['"'] ∨ ∃ n ∈ List.range 6, 1 ≤ n ∧ l = List.replicate n '#') <| by
    refine or_congr_right (or_congr_right (exists_congr fun n => ?_))
    rw [List.mem_range, Nat.lt_succ_iff, ← and_assoc, ← and_assoc, and_comm (a := n ≤ 5)]

instance (t : Text) : Decidable (Tame t) := List.decidableBAll (fun l : Text => ¬ Bare l.trimEnd) t.lines

instance (t : Text) : Decidable (Opens t) := List.decidableBEx (fun c => isSpace c = false) t.line

/-- A line begins behind the text. -/
def Starts (t : Text) : Prop := t.getLast?.all (· == '\n') = true

/-- The last line is empty, or holds tokens and nothing else. -/
def Closed (t : Text) : Prop := ∃ u, ∃ ns : List Nat, t = u ++ ns.flatMap Token.ofId ∧ Starts u

/-- What the text on the left is like before its headings are done: it ends with a line break. -/
structure Paused (t : Text) : Prop where
  last : t.getLast? = some '\n'
  tame : Tame t

/-- What the text on the left is like later, when blocks may have taken its last line break. -/
structure Settled (t : Text) : Prop where
  closed : Closed t
  tame : Tame t

/-- Part of a line, with a semicolon in it. -/
structure Stamped (t : Text) : Prop where
  semicolon : ';' ∈ t
  inLine : '\n' ∉ t

theorem stamped_ofId (n : Nat) : Stamped (Token.ofId n) :=
  ⟨List.mem_of_mem_head? (Token.head?_ofId n), Token.not_mem_ofId (by decide) n⟩

theorem Stamped.append (h : Stamped t) (hu : '\n' ∉ u) (hv : '\n' ∉ v) : Stamped (u ++ t ++ v) where
  semicolon := by simp [h.semicolon]
  inLine := by simp [h.inLine, hu, hv]

theorem exists_starts (t : Text) : ∃ u l, t = u ++ l ∧ '\n' ∉ l ∧ Starts u := by
  refine ⟨(t.reverse.dropWhile (· != '\n')).reverse, (t.reverse.takeWhile (· != '\n')).reverse, ?_, ?_, ?_⟩
  · rw [← List.reverse_append, List.takeWhile_append_dropWhile, List.reverse_reverse]
  · intro h
    have := List.all_eq_true.1 List.all_takeWhile '\n' (List.mem_reverse.1 h)
    simp at this
  · rw [Starts, List.getLast?_reverse]
    have := List.head?_dropWhile_not (· != '\n') t.reverse
    cases hd : (t.reverse.dropWhile (· != '\n')).head? with
    | none => rfl
    | some c => simpa [hd] using this

theorem Starts.exists_lines (h : Starts u) : ∃ ls, ∀ v, lines (u ++ v) = ls ++ lines v := by
  rw [Starts, ← List.head?_reverse] at h
  simpa using exists_lines_of_start h

theorem exists_lines_append (u : Text) : ∃ ls l, '\n' ∉ l ∧ ∀ v, lines (u ++ v) = ls ++ lines (l ++ v) := by
  obtain ⟨u, l, rfl, hl, hu⟩ := exists_starts u
  obtain ⟨ls, hls⟩ := hu.exists_lines
  exact ⟨ls, l, hl, fun v => by rw [List.append_assoc, hls]⟩

theorem line_append_of_mem (h : '\n' ∈ u) (v : Text) : line (u ++ v) = line u := by
  obtain ⟨x, y, rfl, hx⟩ := List.eq_append_cons_of_mem h
  have hall : ∀ c ∈ x, (c != '\n') = true := fun c hc => by
    rw [bne_iff_ne]
    rintro rfl
    exact hx hc
  rw [line, line, List.append_assoc, List.takeWhile_append_of_pos hall, List.takeWhile_append_of_pos hall]
  rfl

theorem Starts.unique (hu : Starts u) (hv : Starts v) (hw : '\n' ∉ w) (hl : '\n' ∉ l)
    (h : u ++ w = v ++ l) : w = l := by
  have shorter {u v w l : Text} (hv : Starts v) (hw : '\n' ∉ w) (h : ∃ c, v = u ++ c ∧ w = c ++ l) : w = l := by
    obtain ⟨c, rfl, rfl⟩ := h
    rcases List.eq_nil_or_concat' c with rfl | ⟨c, d, rfl⟩
    · rfl
    · obtain rfl : d = '\n' := by simpa [Starts] using hv
      simp at hw
  rcases List.append_eq_append_iff.1 h with h | ⟨c, hc, hl'⟩
  · exact shorter hv hw h
  · exact (shorter hu hl ⟨c, hc, hl'⟩).symm

theorem mem_trimEnd {d : Char} (h : d ∈ t) (hd : isSpace d = false) : d ∈ t.trimEnd := by
  rw [trimEnd, List.mem_reverse]
  have hsplit := List.takeWhile_append_dropWhile (p := isSpace) (l := t.reverse)
  have hmem : d ∈ t.reverse.takeWhile isSpace ++ t.reverse.dropWhile isSpace := by
    rw [hsplit]
    exact List.mem_reverse.2 h
  rcases List.mem_append.1 hmem with h | h
  · have := List.all_eq_true.1 List.all_takeWhile d h
    simp [hd] at this
  · exact h

theorem trimEnd_append (t : Text) (h : ∀ d ∈ w, isSpace d = true) : (t ++ w).trimEnd = t.trimEnd := by
  rw [trimEnd, List.reverse_append, List.dropWhile_append_of_pos fun d hd => h d (List.mem_reverse.1 hd), trimEnd]

theorem Bare.not_mem (h : Bare l) : ';' ∉ l := by
  rcases h with rfl | rfl | ⟨n, -, -, rfl⟩
  · decide
  · decide
  · intro hm
    exact absurd (List.eq_of_mem_replicate hm) (by decide)

theorem Tame.replace (h : Tame (b ++ w ++ c)) (hnew : Stamped new) : Tame (b ++ new ++ c) := by
  obtain ⟨ls, l, hl, hlines⟩ := exists_lines_append b
  obtain ⟨ms, k, hk, hold⟩ := exists_lines_append (b ++ w)
  have hpart : '\n' ∉ l ++ new := by simp [hl, hnew.inLine]
  intro m hm
  rw [List.append_assoc, hlines, ← List.append_assoc, lines_append_of_not_mem hpart, List.mem_append,
    List.mem_cons] at hm
  rcases hm with hm | rfl | hm
  · refine h m ?_
    rw [List.append_assoc, hlines]
    exact List.mem_append_left _ hm
  · have hsemi : ';' ∈ l ++ new ++ c.line := by simp [hnew.semicolon]
    exact fun hb => hb.not_mem (mem_trimEnd hsemi (by decide))
  · refine h m ?_
    rw [hold, lines_append_of_not_mem hk]
    exact List.mem_append_right _ (List.mem_cons_of_mem _ hm)

theorem Tame.strip (h : Tame (b ++ w ++ c)) (hw : ∀ d ∈ w, isIndent d = true)
    (hc : c.head?.all (· == '\n') = true) : Tame (b ++ c) := by
  obtain ⟨ls, l, hl, hlines⟩ := exists_lines_append b
  have hpart : '\n' ∉ l ++ w := fun hm => by
    rcases List.mem_append.1 hm with hm | hm
    · exact hl hm
    · exact absurd (hw _ hm) (by decide)
  have hline : c.line = [] := line_eq_nil hc
  intro m hm
  rw [Tame, List.append_assoc, hlines, ← List.append_assoc, lines_append_of_not_mem hpart, hline,
    List.append_nil] at h
  rw [hlines, lines_append_of_not_mem hl, hline, List.append_nil, List.mem_append, List.mem_cons] at hm
  rcases hm with hm | rfl | hm
  · exact h m (List.mem_append_left _ hm)
  · have hold := h (m ++ w) (List.mem_append_right _ List.mem_cons_self)
    rwa [trimEnd_append m fun d hd => isSpace_of_isIndent (hw d hd)] at hold
  · exact h m (List.mem_append_right _ (List.mem_cons_of_mem _ hm))

theorem Opens.replace (h : Opens (b ++ w ++ c)) (hnew : Stamped new) : Opens (b ++ new ++ c) := by
  by_cases hb : '\n' ∈ b
  · rw [Opens, List.append_assoc, line_append_of_mem hb] at h ⊢
    exact h
  · have hpart : '\n' ∉ b ++ new := by simp [hb, hnew.inLine]
    refine ⟨';', ?_, by decide⟩
    rw [line_append_of_not_mem hpart]
    simp [hnew.semicolon]

theorem Opens.strip (h : Opens (b ++ w ++ c)) (hw : ∀ d ∈ w, isIndent d = true)
    (hc : c.head?.all (· == '\n') = true) : Opens (b ++ c) := by
  by_cases hb : '\n' ∈ b
  · rw [Opens, List.append_assoc, line_append_of_mem hb] at h
    rw [Opens, line_append_of_mem hb]
    exact h
  · have hpart : '\n' ∉ b ++ w := fun hm => by
      rcases List.mem_append.1 hm with hm | hm
      · exact hb hm
      · exact absurd (hw _ hm) (by decide)
    have hline : c.line = [] := line_eq_nil hc
    obtain ⟨d, hd, hs⟩ := h
    rw [line_append_of_not_mem hpart, hline, List.append_nil, List.mem_append] at hd
    refine ⟨d, ?_, hs⟩
    rw [line_append_of_not_mem hb, hline, List.append_nil]
    rcases hd with hd | hd
    · exact hd
    · simp [isSpace_of_isIndent (hw d hd)] at hs

theorem getLast?_replace (h : (b ++ w ++ c).getLast? = some '\n') (hw : w ≠ []) (hlast : w.getLast? ≠ some '\n')
    (new : Text) : (b ++ new ++ c).getLast? = some '\n' := by
  cases c with
  | nil =>
    rw [List.append_nil, List.getLast?_append_of_ne_nil _ hw] at h
    contradiction
  | cons d c => rwa [List.getLast?_append_of_ne_nil _ (List.cons_ne_nil d c)] at h ⊢

theorem ne_nil_of_getLast? (h : (u ++ v ++ w).getLast? = some '\n') (hv : v ≠ []) (hlast : v.getLast? ≠ some '\n') :
    w ≠ [] := by
  rintro rfl
  rw [List.append_nil, List.getLast?_append_of_ne_nil _ hv] at h
  exact hlast h

theorem newline_not_mem_tokens (ns : List Nat) : '\n' ∉ ns.flatMap Token.ofId := by
  intro h
  obtain ⟨n, -, hn⟩ := List.mem_flatMap.1 h
  exact Token.not_mem_ofId (by decide) n hn

theorem Starts.closed (h : Starts t) : Closed t := ⟨t, [], by simp, h⟩

theorem closed_of_getLast? (h : t.getLast? = some '\n') : Closed t := by
  refine Starts.closed ?_
  rw [Starts, h]
  rfl

theorem Paused.settled (h : Paused t) : Settled t := ⟨closed_of_getLast? h.last, h.tame⟩

theorem Starts.append_left (h : Starts u) (hu : u ≠ []) (t : Text) : Starts (t ++ u) := by
  rwa [Starts, List.getLast?_append_of_ne_nil _ hu]

theorem Starts.append (ht : Starts t) (hu : Starts u) : Starts (t ++ u) := by
  by_cases h : u = []
  · rwa [h, List.append_nil]
  · exact hu.append_left h t

/-- What stands before a line break does not decide whether the last line is closed. -/
theorem Closed.of_append (h : Closed (b ++ c)) (hc : '\n' ∈ c) (new : Text) : Closed (new ++ c) := by
  obtain ⟨u, ns, heq, hu⟩ := h
  obtain ⟨v, l, rfl, hl, hv⟩ := exists_starts c
  have hne : v ≠ [] := by
    rintro rfl
    exact hl hc
  rw [← List.append_assoc] at heq
  obtain rfl := (hv.append_left hne _).unique hu hl (newline_not_mem_tokens ns) heq
  exact ⟨new ++ v, ns, by rw [List.append_assoc _ v], hv.append_left hne _⟩

/-- A token in the place of whole lines leaves the last line closed. -/
theorem Closed.replace (h : Closed (b ++ w ++ c)) (hb : Starts b)
    (hc : c.head?.all (· == '\n') = true ∨ Starts w) (k : Nat) :
    Closed (b ++ Token.ofId k ++ c) := by
  by_cases hmem : '\n' ∈ c
  · exact h.of_append hmem _
  · obtain ⟨u, ns, heq, hu⟩ := h
    have htokens := newline_not_mem_tokens ns
    rcases hc with hc | hc
    · obtain rfl : c = [] := by
        cases c with
        | nil => rfl
        | cons d c =>
          obtain rfl : d = '\n' := by simpa using hc
          simp at hmem
      exact ⟨b, [k], by simp, hb⟩
    · obtain rfl := (hb.append hc).unique hu hmem htokens heq
      exact ⟨b, k :: ns, by simp, hb⟩

theorem Closed.of_starts (h : Closed (u ++ v)) (hu : Starts u) : Closed v := by
  obtain ⟨x, ns, heq, hx⟩ := h
  obtain ⟨y, l, rfl, hl, hy⟩ := exists_starts v
  rw [← List.append_assoc] at heq
  obtain rfl := (hu.append hy).unique hx hl (newline_not_mem_tokens ns) heq
  exact ⟨y, ns, rfl, hy⟩

theorem Closed.exists_line (h : Closed t) : ∃ ns : List Nat, ns.flatMap Token.ofId ∈ t.lines := by
  obtain ⟨u, ns, rfl, hu⟩ := h
  obtain ⟨ls, hls⟩ := hu.exists_lines
  refine ⟨ns, ?_⟩
  rw [hls, lines_eq_singleton (newline_not_mem_tokens ns)]
  exact List.mem_append_right _ List.mem_cons_self

/-- A character that no token has is followed by a line break. -/
theorem Closed.newline_mem {d : Char} (h : Closed (u ++ d :: v)) (hd : d ∉ Token.alphabet) (hn : d ≠ '\n') :
    '\n' ∈ v := by
  by_contra hv
  obtain ⟨x, ns, heq, hx⟩ := h
  obtain ⟨y, l, rfl, hl, hy⟩ := exists_starts u
  have hpart : '\n' ∉ l ++ d :: v := by simp [hl, hv, Ne.symm hn]
  rw [List.append_assoc] at heq
  have htokens := hy.unique hx hpart (newline_not_mem_tokens ns) heq
  have hmem : d ∈ ns.flatMap Token.ofId := by simp [← htokens]
  obtain ⟨n, -, hmem⟩ := List.mem_flatMap.1 hmem
  exact hd (Token.mem_alphabet hmem)

theorem head?_tokens (ns : List Nat) : ∀ d ∈ (ns.flatMap Token.ofId).head?, d = ';' := by
  intro d hd
  cases ns with
  | nil => simp at hd
  | cons n ns =>
    rw [List.flatMap_cons, List.head?_append, Token.head?_ofId] at hd
    simpa [eq_comm] using hd

theorem startLines_lines (t : Text) : startLines t.lines = '\n' :: t := by
  obtain ⟨l, ls, hl⟩ := List.exists_cons_of_ne_nil (lines_ne_nil t)
  have hjoin := joinLines_lines t
  rw [hl, joinLines_cons] at hjoin
  rw [hl, ← hjoin]
  rfl

theorem exists_startLines (h : t.head?.all (· == '\n') = true) : ∃ ls, t = startLines ls ∧ ∀ l ∈ ls, '\n' ∉ l := by
  cases t with
  | nil => exact ⟨[], rfl, fun l hl => absurd hl List.not_mem_nil⟩
  | cons c t =>
    obtain rfl : c = '\n' := by simpa using h
    exact ⟨lines t, (startLines_lines t).symm, fun l hl => not_mem_of_mem_lines hl⟩

theorem Starts.exists_lines_around (hu : Starts u) (hv : v.head?.all (· == '\n') = true) :
    ∃ ls ms, ∀ w, lines (u ++ w ++ v) = ls ++ (lines w ++ ms) := by
  obtain ⟨ls, hls⟩ := hu.exists_lines
  obtain ⟨ms, rfl, hms⟩ := exists_startLines hv
  exact ⟨ls, ms, fun w => by rw [List.append_assoc, hls, lines_startLines w hms]⟩

end Text
end Markup
