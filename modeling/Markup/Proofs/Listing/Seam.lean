import Markup.Proofs.Listing.Shape
import Markup.Proofs.Seam.Lines
import Markup.Proofs.Seam.Search
import Mathlib.Data.List.Count
import Mathlib.Data.List.TakeWhile

/-! # Definition lists on both sides of a seam

A strict definition keeps its colon on the line of its term and its body right below, and a body stops at the first line
that does not repeat its indent. So no definition on the left goes on beyond the seam, whatever stands there. -/
namespace Markup.Listing
open Text
variable {t u v indent : Text}

namespace Definition

/-- The definition with more text behind it. -/
def extend (more : Text) (d : Definition) : Definition := { d with rest := d.rest ++ more }

theorem not_continues (hl : 2 ≤ indent.length) (hi : ∀ c ∈ indent, isSpace c = true) (ns : List Nat) :
    continues indent (ns.flatMap Token.ofId) = false := by
  obtain ⟨c, indent, rfl⟩ := List.exists_cons_of_length_pos (show 0 < indent.length by omega)
  have hhead := head?_tokens ns
  cases ht : ns.flatMap Token.ofId with
  | nil => simp [continues]
  | cons d l =>
    obtain rfl : d = ';' := hhead d (by rw [ht]; rfl)
    have hc : (c == ';') = false := by
      rw [beq_eq_false_iff_ne]
      rintro rfl
      exact absurd (hi _ List.mem_cons_self) (by decide)
    simp [continues, List.isPrefixOf, hc]

theorem bodyOf_newline (h : Closed t) (hl : 2 ≤ indent.length) (hi : ∀ c ∈ indent, isSpace c = true) (b : Text) :
    bodyOf indent (t ++ '\n' :: b) = ((bodyOf indent t).1, (bodyOf indent t).2 ++ '\n' :: b) := by
  obtain ⟨ns, hline⟩ := h.exists_line
  have hstop := not_continues hl hi ns
  have hne : t.lines.dropWhile (continues indent) ≠ [] := fun h => by
    have := List.dropWhile_eq_nil_iff.1 h _ hline
    simp [hstop] at this
  unfold bodyOf
  rw [lines_append_newline, dropWhile_append_of_mem hline hstop, takeWhile_append_of_mem hline hstop]
  obtain ⟨o, os, ho⟩ := List.exists_cons_of_ne_nil hne
  rw [ho]
  simp only [List.cons_append]
  rw [← List.cons_append, ← joinLines_append_startLines (List.cons_ne_nil o os), startLines_lines]

/-- The line breaks between a colon and the body are all in the gap. -/
theorem count_gap (blank : Text) :
    (blank.reverse.dropWhile (· != '\n')).reverse.count '\n' = blank.count '\n' := by
  have hsplit := List.takeWhile_append_dropWhile (p := (· != '\n')) (l := blank.reverse)
  have hzero : (blank.reverse.takeWhile (· != '\n')).count '\n' = 0 := by
    refine List.count_eq_zero.2 fun h => ?_
    have := List.all_eq_true.1 List.all_takeWhile '\n' h
    simp at this
  have hcount := congrArg (List.count '\n') hsplit
  rw [List.count_append, hzero, Nat.zero_add, List.count_reverse] at hcount
  rw [List.count_reverse, hcount]

theorem starts_gap (blank : Text) : Starts (blank.reverse.dropWhile (· != '\n')).reverse := by
  have := List.head?_dropWhile_not (· != '\n') blank.reverse
  rw [Starts, List.getLast?_reverse]
  cases hd : (blank.reverse.dropWhile (· != '\n')).head? with
  | none => rfl
  | some c => simpa [hd] using this

/-- The white space in front of the body has an end without line breaks, its indent. -/
theorem gap_append_indent (y : Text) :
    ((y.takeWhile isSpace).reverse.dropWhile (· != '\n')).reverse ++
        (((y.takeWhile isSpace).reverse.takeWhile (· != '\n')).reverse ++ y.dropWhile isSpace) = y := by
  rw [← List.append_assoc, ← List.reverse_append, List.takeWhile_append_dropWhile, List.reverse_reverse,
    List.takeWhile_append_dropWhile]

/-- With a body on the left, what stands below the colon is the same when a seam follows. -/
theorem below?_newline_of_body {w y : Text} {c : Char} (h : Closed (w ++ ':' :: y)) (hc : c ∈ y)
    (hs : isSpace c = false)
    (space b : Text) : below? true space (y ++ '\n' :: b) =
      (below? true space y).map fun d => (d.1, d.2.1, d.2.2.1, d.2.2.2 ++ '\n' :: b) := by
  have hspaces : ∀ c ∈ ((y.takeWhile isSpace).reverse.takeWhile (· != '\n')).reverse, isSpace c = true := fun c hc =>
    List.all_eq_true.1 List.all_takeWhile c (List.mem_reverse.1 (List.takeWhile_subset _ (List.mem_reverse.1 hc)))
  have hne : y.dropWhile isSpace ≠ [] := fun h => by
    have := List.dropWhile_eq_nil_iff.1 h c hc
    simp [hs] at this
  have hgap := starts_gap (y.takeWhile isSpace)
  have hyeq := gap_append_indent y
  simp only [below?, takeWhile_append_of_mem hc hs, dropWhile_append_of_mem hc hs]
  generalize ((y.takeWhile isSpace).reverse.dropWhile (· != '\n')).reverse = gap at hyeq hgap ⊢
  generalize ((y.takeWhile isSpace).reverse.takeWhile (· != '\n')).reverse = indent at hyeq hspaces ⊢
  generalize y.dropWhile isSpace = below at hyeq hne ⊢
  subst hyeq
  have hempty : (below ++ '\n' :: b).isEmpty = below.isEmpty := by
    cases below with
    | nil => contradiction
    | cons c below => rfl
  rw [hempty]
  split
  · rfl
  · next hcond =>
    split
    · rfl
    · simp only [Bool.or_eq_true, List.isEmpty_iff, decide_eq_true_eq, not_or, Nat.not_lt] at hcond
      have hstart : Starts ((w ++ [':']) ++ gap) := hgap.append_left hcond.1.2 _
      have hclosed : Closed (indent ++ below) := Closed.of_starts (by simpa using h) hstart
      rw [← List.append_assoc, bodyOf_newline hclosed hcond.2 hspaces]
      rfl

/-- Without a body on the left nothing stands below the colon: the gap would have the line break of the left text and
that of the seam. -/
theorem below?_newline_of_blank {w y : Text} (h : Closed (w ++ ':' :: y)) (hall : ∀ c ∈ y, isSpace c = true)
    (space b : Text) : below? true space y = none ∧ below? true space (y ++ '\n' :: b) = none := by
  have hnil : y.dropWhile isSpace = [] := List.dropWhile_eq_nil_iff.2 hall
  refine ⟨by simp [below?, hnil], ?_⟩
  have hbreak := h.newline_mem (by decide) (by decide)
  have hblank : (y ++ '\n' :: b).takeWhile isSpace = y ++ '\n' :: b.takeWhile isSpace := by
    rw [List.takeWhile_append_of_pos hall]
    rfl
  have hcount : 2 ≤ (y ++ '\n' :: b.takeWhile isSpace).count '\n' := by
    have := List.count_pos_iff.2 hbreak
    rw [List.count_append, List.count_cons_self]
    omega
  have hmany : ((y ++ '\n' :: b.takeWhile isSpace).count '\n' != 1) = true := by
    rw [bne_iff_ne]
    omega
  rw [below?]
  simp only [hblank, count_gap]
  rw [hmany]
  simp

/-- What stands below the colon is the same when a seam follows. -/
theorem below?_newline {w y : Text} (h : Closed (w ++ ':' :: y)) (space b : Text) :
    below? true space (y ++ '\n' :: b) =
      (below? true space y).map fun d => (d.1, d.2.1, d.2.2.1, d.2.2.2 ++ '\n' :: b) := by
  by_cases hy : ∃ c ∈ y, isSpace c = false
  · obtain ⟨c, hc, hs⟩ := hy
    exact below?_newline_of_body h hc hs space b
  · have hall : ∀ c ∈ y, isSpace c = true := fun c hc => by
      by_contra hs
      exact hy ⟨c, hc, Bool.eq_false_iff.2 hs⟩
    obtain ⟨hleft, hboth⟩ := below?_newline_of_blank h hall space b
    rw [hleft, hboth]
    rfl

/-- A colon beyond the seam is not on the line of its term. -/
theorem at?_newline (h : Closed t) (b : Text) : at? true (t ++ '\n' :: b) = (at? true t).map (extend ('\n' :: b)) := by
  cases t with
  | nil => rw [List.nil_append, at?_eq, if_pos isSpace_newline]; rfl
  | cons c t =>
    rw [List.cons_append, at?_eq, at?_eq]
    split
    · rfl
    · have hterm : isTermChar '\n' = false := by decide
      have hsplit := List.takeWhile_append_dropWhile (p := isTermChar) (l := t)
      simp only [takeWhile_append_cons_of_rejects hterm, dropWhile_append_cons_of_rejects hterm]
      generalize t.dropWhile isTermChar = after at hsplit ⊢
      generalize t.takeWhile isTermChar = term at hsplit ⊢
      subst hsplit
      by_cases hx : ∃ d ∈ after, isSpace d = false
      · obtain ⟨d, hd, hs⟩ := hx
        have hne : after.dropWhile isSpace ≠ [] := fun h => by
          have := List.dropWhile_eq_nil_iff.1 h d hd
          simp [hs] at this
        have hspace := List.takeWhile_append_dropWhile (p := isSpace) (l := after)
        rw [takeWhile_append_of_mem hd hs, dropWhile_append_of_mem hd hs]
        generalize after.takeWhile isSpace = space at hspace ⊢
        obtain ⟨e, y, he⟩ := List.exists_cons_of_ne_nil hne
        rw [he] at hspace ⊢
        simp only [List.cons_append, List.head?_cons, List.tail_cons, Option.some.injEq]
        split
        · next he =>
          subst he
          have hclosed : Closed ((c :: term ++ space) ++ ':' :: y) := by simpa [← hspace] using h
          rw [below?_newline hclosed, Option.map_map, Option.map_map]
          rfl
        · rfl
      · have hall : ∀ d ∈ after, isSpace d = true := fun d hd => by
          by_contra hs
          exact hx ⟨d, hd, Bool.eq_false_iff.2 hs⟩
        have hnil : after.dropWhile isSpace = [] := List.dropWhile_eq_nil_iff.2 hall
        have hbreak : ((after ++ '\n' :: b).takeWhile isSpace).contains '\n' = true := by
          rw [List.takeWhile_append_of_pos hall, List.takeWhile_cons_of_pos isSpace_newline]
          simp
        rw [hnil]
        have hnone (y : Text) : below? true ((after ++ '\n' :: b).takeWhile isSpace) y = none := by
          simp only [below?, hbreak]
          simp
        simp [hnone]

theorem starts_bodyOf (indent t : Text) : (bodyOf indent t).2 = [] ∨ Starts (bodyOf indent t).1 := by
  unfold bodyOf
  split
  · exact .inl rfl
  · right
    change Starts (endLines (t.lines.takeWhile (continues indent)))
    rcases List.eq_nil_or_concat' (t.lines.takeWhile (continues indent)) with h | ⟨ls, l, h⟩
    · rw [h]
      rfl
    · rw [h, Starts, endLines, List.flatMap_append, List.flatMap_singleton, ← List.append_assoc, List.getLast?_concat]
      rfl

theorem starts_of_below? {strict : Bool} {space y gap indent body rest : Text}
    (h : below? strict space y = some (gap, indent, body, rest)) : rest = [] ∨ gap ≠ [] ∧ Starts (gap ++ body) := by
  simp only [below?] at h
  have hgap := starts_gap (y.takeWhile isSpace)
  generalize ((y.takeWhile isSpace).reverse.dropWhile (· != '\n')).reverse = gap' at h hgap
  generalize ((y.takeWhile isSpace).reverse.takeWhile (· != '\n')).reverse = indent' at h
  split at h
  · contradiction
  · next hcond =>
    split at h
    · contradiction
    · simp only [Option.some.injEq, Prod.mk.injEq] at h
      obtain ⟨rfl, rfl, hbody⟩ := h
      simp only [Bool.or_eq_true, List.isEmpty_iff, not_or] at hcond
      rcases starts_bodyOf indent' (indent' ++ y.dropWhile isSpace) with hrest | hstart
      · rw [hbody] at hrest
        exact .inl hrest
      · rw [hbody] at hstart
        exact .inr ⟨hcond.1.2, hgap.append hstart⟩

theorem starts_of_at? {strict : Bool} {d : Definition} (h : at? strict t = some d) : d.rest = [] ∨ Starts d.whole := by
  cases t with
  | nil => contradiction
  | cons c t =>
    rw [at?_eq] at h
    simp only at h
    repeat' split at h
    · contradiction
    · obtain ⟨⟨gap, indent, body, rest⟩, hb, rfl⟩ := Option.map_eq_some_iff.1 h
      refine (starts_of_below? hb).imp_right fun ⟨hne, hstart⟩ => ?_
      have hne' : gap ++ body ≠ [] := fun h => hne (List.append_eq_nil_iff.1 h).1
      have := hstart.append_left hne' (c :: t.takeWhile isTermChar ++
        (t.dropWhile isTermChar).takeWhile isSpace ++ [':'])
      simpa [whole] using this
    · contradiction

theorem listOf_newline (h : Closed t) (b : Text) :
    listOf (t ++ '\n' :: b) = ((listOf t).1.map (extend ('\n' :: b)), (listOf t).2 ++ '\n' :: b) := by
  fun_induction listOf t with
  | case1 t hat =>
    have hnone := at?_newline h b
    rw [hat] at hnone
    rw [listOf]
    split
    · rfl
    · next d hd =>
      rw [hnone] at hd
      contradiction
  | case2 t d hat ds rest hr ih =>
    have hrest : Closed d.rest := by
      rcases starts_of_at? hat with hnil | hstart
      · rw [hnil]
        exact ⟨[], [], rfl, rfl⟩
      · rw [eq_of_at? hat] at h
        exact h.of_starts hstart
    have hsome := at?_newline h b
    rw [hat] at hsome
    rw [listOf]
    split
    · next hd =>
      rw [hsome] at hd
      contradiction
    · next d' hd =>
      rw [hsome] at hd
      obtain rfl := Option.some.inj hd
      have ih := ih hrest
      rw [hr] at ih
      rw [show (d.extend ('\n' :: b)).rest = d.rest ++ '\n' :: b from rfl, ih]
      rfl

theorem starts_of_listOf (t : Text) : (listOf t).2 = [] ∨ Starts ((listOf t).1.flatMap whole) := by
  fun_induction listOf t with
  | case1 t hat => exact .inr rfl
  | case2 t d hat ds rest hr ih =>
    rw [hr] at ih
    rcases starts_of_at? hat with hnil | hstart
    · rw [hnil, listOf] at hr
      split at hr
      · obtain ⟨-, rfl⟩ := Prod.mk.inj hr
        exact .inl rfl
      · contradiction
    · refine ih.imp_right fun hds => ?_
      rw [List.flatMap_cons]
      exact hstart.append hds

end Definition

theorem definitionListScanner_seam {a : Text} (ha : Closed a) (b : Text) : definitionListScanner.Seam a b := by
  constructor
  · rintro u v rfl
    rw [definitionListScanner, definitionListScanner]
    split
    · next hstart =>
      rw [Definition.listOf_newline (ha.of_starts hstart)]
      have hwhole (ds : List Definition) : (ds.map (Definition.extend ('\n' :: b))).flatMap Definition.whole =
          ds.flatMap Definition.whole := by
        rw [List.flatMap_map]
        rfl
      generalize Definition.listOf v = r
      obtain ⟨ds, rest⟩ := r
      cases ds with
      | nil => rfl
      | cons d ds =>
        change some (Hit.mk (((d :: ds).map (Definition.extend ('\n' :: b))).flatMap Definition.whole) _ []) = _
        rw [hwhole]
        rfl
    · rfl
  · rfl

/-- A definition list begins at the start of a line, and takes whole lines. -/
theorem definitionList_lines {t : Text} {m : Match} (h : definitionListMatcher.find [] t = some m) :
    Starts m.before ∧ (m.after = [] ∨ Starts m.whole) := by
  obtain ⟨-, hh⟩ := definitionListScanner_lawful.search_hit h
  obtain ⟨hstart, d, ds, rest, hlist, hhit⟩ := definitionListScanner_eq_some hh
  obtain ⟨hw, ha, -⟩ := Hit.mk.injEq .. |>.mp hhit
  have := Definition.starts_of_listOf (m.whole ++ m.after)
  rw [hlist] at this
  rw [hw, ha]
  refine ⟨?_, this⟩
  rw [Match.before, Starts, List.getLast?_reverse]
  exact hstart

end Markup.Listing
