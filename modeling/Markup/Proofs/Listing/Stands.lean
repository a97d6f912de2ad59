import Markup.Proofs.Position.Definition
import Markup.Proofs.Position.First
import Markup.Proofs.Text.Cuts

/-! # Where a definition stands

What makes a definition is said without a word about how it is looked for: a term, white space, a colon, and white space
that breaks the line and indents what stands below. The search begins at the first place where all this stands. A head
that has no body is left behind by one character only, so no place is passed over. -/
namespace Markup.Listing
open Definition (isTermChar below? bodyOf)
variable {list : Bool} {t u v : Text} {start : Nat}

/-- A definition at the beginning of a text. In a list the colon stands on the line of the term, and the line below is
the next one. -/
inductive Opening (list : Bool) : Text → Prop
  | intro {c d : Char} {w space gap indent rest : Text} (first : isSpace c = false)
      (term : ∀ a ∈ w, isTermChar a = true)
    (space_before : ∀ a ∈ space, isSpace a = true) (space_after : ∀ a ∈ gap, isSpace a = true)
    (blank : ∀ a ∈ indent, isIndent a = true) (wide : 2 ≤ indent.length) (body : isSpace d = false)
    (near : list = true → '\n' ∉ space ∧ '\n' ∉ gap) :
    Opening list (c :: w ++ space ++ ':' :: (gap ++ '\n' :: indent ++ d :: rest))

/-- A definition stands at a position that begins a line. -/
def StandsAt (list : Bool) (t : Text) (pos : Nat) : Prop :=
  ∃ u v, t = u ++ v ∧ u.bytes = pos ∧ u.getLast?.all (· == '\n') = true ∧ Opening list v

theorem newline_not_mem_of_isIndent {indent : Text} (h : ∀ a ∈ indent, isIndent a = true) : '\n' ∉ indent := fun hmem =>
  ne_newline_of_isIndent (h _ hmem) rfl

theorem cut_at_last_break {indent : Text} (h : '\n' ∉ indent) (gap : Text) :
    ((gap ++ '\n' :: indent).reverse.dropWhile (· != '\n')).reverse = gap ++ ['\n'] ∧
      ((gap ++ '\n' :: indent).reverse.takeWhile (· != '\n')).reverse = indent := by
  have hreverse : (gap ++ '\n' :: indent).reverse = indent.reverse ++ '\n' :: gap.reverse := by simp
  have hnone : '\n' ∉ indent.reverse := mt List.mem_reverse.1 h
  have hafter := Text.afterLine_append_of_not_mem hnone ('\n' :: gap.reverse)
  have hline := Text.line_append_of_not_mem hnone ('\n' :: gap.reverse)
  rw [Text.afterLine] at hafter
  rw [Text.line] at hline
  rw [hreverse, hafter, hline]
  simp [Text.afterLine, Text.line]

section
variable {gap indent below : Text} (hgap : ∀ a ∈ gap, isSpace a = true) (hindent : ∀ a ∈ indent, isIndent a = true)
  (hbelow : ∀ a ∈ below.head?, isSpace a = false)
include hgap hindent hbelow

/-- The last line break below the colon ends the gap. -/
theorem below?_of_parts (hne : below ≠ []) (hwide : 2 ≤ indent.length) (strict : Bool) (space : Text) :
    below? strict space (gap ++ '\n' :: indent ++ below) =
      if strict && (space.contains '\n' || gap.contains '\n') then none
      else some (gap ++ ['\n'], indent, bodyOf indent (indent ++ below)) := by
  have hblank : ∀ a ∈ gap ++ '\n' :: indent, isSpace a = true := by
    simp only [List.mem_append, List.mem_cons]
    rintro a (ha | rfl | ha)
    · exact hgap a ha
    · exact isSpace_newline
    · exact isSpace_of_isIndent (hindent a ha)
  have htake := Text.takeWhile_run hblank hbelow
  have hdrop := Text.dropWhile_run hblank hbelow
  obtain ⟨hgap', hindent'⟩ := cut_at_last_break (newline_not_mem_of_isIndent hindent) gap
  have hcount : ((gap ++ ['\n']).count '\n' != 1) = gap.contains '\n' := by
    rw [Bool.eq_iff_iff, bne_iff_ne, List.contains_iff_mem, ← List.count_pos_iff, List.count_append,
      List.count_singleton_self]
    omega
  have hcond : ¬ (below.isEmpty || (gap ++ ['\n']).isEmpty || decide (indent.length < 2)) = true := by
    simp only [Bool.or_eq_true, List.isEmpty_iff, decide_eq_true_eq, not_or, Nat.not_lt]
    exact ⟨⟨hne, List.append_ne_nil_of_right_ne_nil gap (List.cons_ne_nil _ _)⟩, hwide⟩
  simp only [below?, htake, hdrop, hgap', hindent', hcount]
  rw [if_neg hcond]

end

/-- Below a colon that has a body stand a gap, an indent and something that is no white space. -/
theorem exists_parts_of_below? {strict : Bool} {space after : Text} (h : below? strict space after ≠ none) :
    ∃ gap indent d rest, after = gap ++ '\n' :: indent ++ d :: rest ∧ (∀ a ∈ gap, isSpace a = true) ∧
      (∀ a ∈ indent, isIndent a = true) ∧ 2 ≤ indent.length ∧ isSpace d = false ∧
        (strict = true → '\n' ∉ space ∧ '\n' ∉ gap) := by
  have hblank : ∀ a ∈ after.takeWhile isSpace, isSpace a = true := List.all_eq_true.1 List.all_takeWhile
  have hparts := gap_and_indent (after.takeWhile isSpace)
  have hnone := newline_not_mem_indent (after.takeWhile isSpace)
  have hsplit := List.takeWhile_append_dropWhile (p := isSpace) (l := after)
  have hhead := List.head?_dropWhile_not isSpace after
  simp only [below?] at h
  generalize after.takeWhile isSpace = blank, after.dropWhile isSpace = below at *
  generalize (blank.reverse.takeWhile (· != '\n')).reverse = indent,
    (blank.reverse.dropWhile (· != '\n')).reverse = broken at *
  obtain ⟨-, rfl⟩ | ⟨gap, rfl, rfl⟩ := hparts
  · simp at h
  · split at h
    · exact absurd rfl h
    · next hcond =>
      simp only [Bool.or_eq_true, List.isEmpty_iff, decide_eq_true_eq, not_or, Nat.not_lt] at hcond
      obtain ⟨⟨hne, -⟩, hwide⟩ := hcond
      obtain ⟨d, rest, rfl⟩ := List.exists_cons_of_ne_nil hne
      refine ⟨gap, indent, d, rest, hsplit.symm, ?_, ?_, hwide, ?_, ?_⟩
      · intro a ha
        exact hblank a (List.mem_append_left _ ha)
      · intro a ha
        have hspace := hblank a (List.mem_append_right _ (List.mem_cons_of_mem _ ha))
        have hline : a ≠ '\n' := fun he => hnone (he ▸ ha)
        simp [isIndent, hspace, hline]
      · simpa using hhead
      · rintro rfl
        split at h
        · exact absurd rfl h
        · next hstrict =>
          simp only [Bool.true_and, Bool.or_eq_true, List.contains_iff_mem, bne_iff_ne, not_or, not_not,
            List.count_append,
            List.count_singleton_self] at hstrict
          refine ⟨hstrict.1, ?_⟩
          rw [← List.count_eq_zero]
          omega

/-- The colon of a head is the first one behind its first character, however the white space before it is counted. -/
theorem Head.Reads.cut {h k : Head} (hh : h.Reads t) (hk : k.Reads t) :
    h.term ++ h.space = k.term ++ k.space ∧ h.after = k.after := by
  have hcolon {h : Head} (hh : h.Reads t) : ∃ c w, h.term ++ h.space = c :: w ∧ ':' ∉ w ∧
      t = c :: (w ++ ':' :: h.after) := by
    obtain ⟨ht, ⟨c, w, hterm, -, hw⟩, hspace⟩ := hh
    refine ⟨c, w ++ h.space, by rw [hterm, List.cons_append], ?_, by simp [ht, Head.whole, hterm]⟩
    rw [List.mem_append]
    rintro (hmem | hmem)
    · exact absurd (hw _ hmem) (by decide)
    · exact absurd (hspace _ hmem) (by decide)
  obtain ⟨c, w, hterm, hw, ht⟩ := hcolon hh
  obtain ⟨d, w', hterm', hw', ht'⟩ := hcolon hk
  obtain ⟨rfl, heq⟩ := List.cons.inj (ht.symm.trans ht')
  obtain ⟨rfl, hafter⟩ := List.eq_of_first hw hw' heq
  exact ⟨hterm.trans hterm'.symm, hafter⟩

theorem Head.Reads.newline_mem {h k : Head} (hh : h.Reads t) (hk : k.Reads t) (hmem : '\n' ∈ h.space) :
    '\n' ∈ k.space := by
  have hmem : '\n' ∈ k.term ++ k.space := (hh.cut hk).1 ▸ List.mem_append_right _ hmem
  obtain ⟨-, ⟨c, w, hterm, hc, hw⟩, -⟩ := hk
  rw [hterm, List.cons_append, List.mem_cons, List.mem_append] at hmem
  rcases hmem with rfl | hmem | hmem
  · exact absurd hc (by decide)
  · exact absurd (hw _ hmem) (by decide)
  · exact hmem

/-- A definition is read exactly where one stands. -/
theorem at?_ne_none_iff : Definition.at? list t ≠ none ↔ Opening list t := by
  constructor
  · intro h
    rw [at?_eq_head] at h
    cases hh : headOf t with
    | none => exact absurd (by rw [hh]; rfl) h
    | some head =>
      obtain ⟨⟨ht, ⟨c, w, hterm, hc, hw⟩, hspace⟩, -⟩ := reads_of_headOf hh
      have hbelow : below? list head.space head.after ≠ none := by
        intro hnone
        apply h
        rw [hh, Option.bind_some, hnone, Option.map_none]
      obtain ⟨gap, indent, d, rest, hafter, hgap, hindent, hwide, hd, hnear⟩ := exists_parts_of_below? hbelow
      have hopening : Opening list (c :: w ++ head.space ++ ':' :: (gap ++ '\n' :: indent ++ d :: rest)) :=
        .intro hc hw hspace hgap hindent hwide hd hnear
      rw [← hafter, ← hterm] at hopening
      rw [ht, Head.whole, List.append_assoc]
      exact hopening
  · rintro @⟨c, d, w, space, gap, indent, rest, hc, hw, hspace, hgap, hindent, hwide, hd, hnear⟩
    have hreads : Head.Reads ⟨c :: w, space, gap ++ '\n' :: indent ++ d :: rest⟩
        (c :: w ++ space ++ ':' :: (gap ++ '\n' :: indent ++ d :: rest)) :=
      ⟨by simp [Head.whole], ⟨c, w, rfl, hc, hw⟩, hspace⟩
    obtain ⟨head, hh⟩ := Option.ne_none_iff_exists'.1 (headOf_ne_none hreads)
    obtain ⟨hterm, hafter⟩ := (reads_of_headOf hh).1.cut hreads
    have hbody : ∀ a ∈ (d :: rest).head?, isSpace a = false := by
      rintro a ⟨⟩
      exact hd
    have hline : ¬ (list && (head.space.contains '\n' || gap.contains '\n')) = true := by
      simp only [Bool.and_eq_true, Bool.or_eq_true, List.contains_iff_mem, not_and]
      intro hlist
      obtain ⟨hbefore, hgap⟩ := hnear hlist
      rintro (hmem | hmem)
      · exact hbefore ((reads_of_headOf hh).1.newline_mem hreads hmem)
      · exact hgap hmem
    rw [at?_eq_head, hh, Option.bind_some, hafter, below?_of_parts hgap hindent hbody (List.cons_ne_nil d rest) hwide,
      if_neg hline]
    exact Option.some_ne_none _

theorem hitsAt_definitions_iff {pos : Nat} : (definitions list).HitsAt t pos ↔ StandsAt list t pos := by
  have hhere {u v : Text} :
      definitions list u.getLast? v ≠ none ↔ u.getLast?.all (· == '\n') = true ∧ Opening list v := by
    rw [definitions_eq, ← at?_ne_none_iff]
    split
    · next hline => simp [hline]
    · next hline => simp [hline]
  simp only [Scanner.HitsAt, StandsAt, hhere]

/-- The matcher for one definition, or for a run of them. -/
def definitionsMatcher (list : Bool) : Matcher := if list then definitionListMatcher else definitionMatcher

theorem definitionsMatcher_eq (list : Bool) : definitionsMatcher list = .ofScanner (definitions list) .always := by
  cases list <;> rfl

/-- From a character boundary the first definition is found: where none stands there is no match, and else the match
begins at the least position at which one stands. The loop that goes on behind a head without a body ends with the same
match. -/
theorem first_definition_is_found (list : Bool) (h : t.IsBoundary start) :
    ∃ found spans, (definitionsMatcher list).findAt t start = .ok found ∧
      definitionsFrom list t start = .ok spans ∧ Option.Rel Spans.Of spans found ∧
      (found = none ↔ ∀ pos, start ≤ pos → ¬ StandsAt list t pos) ∧
      ∀ m ∈ found, IsLeast {pos | start ≤ pos ∧ StandsAt list t pos} m.start := by
  obtain ⟨u, v, ht, rfl⟩ := Text.isBoundary_iff.1 h
  obtain ⟨spans, hspans, hof⟩ := definitionsFrom_locates list ht
  have hfind := (definitionsMatcher list).findAt_of_eq ht rfl
  rw [definitionsMatcher_eq] at hfind ⊢
  simp only [← hitsAt_definitions_iff]
  refine ⟨_, spans, hfind, hspans, hof, Scanner.search_eq_none_iff_hitsAt ht, ?_⟩
  intro m hm
  exact Scanner.isLeast_of_search ht hm

/-- The head that begins with the letter goes on over two lines and has no body; the definition begins inside of it. -/
theorem definition_behind_failed_head_is_found : Text.IsBoundary "é\na\n::\n  c".toList 2 ∧
    ∃ m, (definitionsMatcher false).findAt "é\na\n::\n  c".toList 2 = .ok (some m) ∧ m.whole = "::\n  c".toList ∧
      IsLeast {pos | 2 ≤ pos ∧ StandsAt false "é\na\n::\n  c".toList pos} m.start := by
  have hstart : Text.IsBoundary "é\na\n::\n  c".toList 2 := by decide
  obtain ⟨found, -, hfound, -, -, -, hleast⟩ := first_definition_is_found false hstart
  have hknown : (definitionsMatcher false).findAt "é\na\n::\n  c".toList 2 =
      .ok (some ⟨"\na\né".toList, "::\n  c".toList, [], [some [':'], some "  c".toList, some "  ".toList]⟩) := rfl
  obtain rfl := Except.ok.inj (hfound.symm.trans hknown)
  exact ⟨hstart, _, hknown, rfl, hleast _ rfl⟩

end Markup.Listing
