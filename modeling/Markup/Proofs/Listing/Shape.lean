import Markup.Listing.Item
import Markup.Listing.Definition
import Markup.Proofs.Pattern.Takes
import Markup.Text.Lines

/-! # Shapes of items and definitions -/
namespace Markup.Listing
open Pattern
variable {behind t : Text} {m : Match}

/-- A bullet, or a number and a period. -/
def IsMark (mark : Text) : Prop :=
  mark = ['*'] ∨ ∃ digits : Text, digits ≠ [] ∧ (∀ d ∈ digits, d.isDigit = true) ∧ mark = digits ++ ['.']

namespace IsMark
variable {mark : Text}

theorem newline_not_mem (h : IsMark mark) : '\n' ∉ mark := by
  rcases h with rfl | ⟨digits, -, hd, rfl⟩
  · decide
  · rw [List.mem_append, not_or]
    exact ⟨fun hn => absurd (hd _ hn) (by decide), by decide⟩

theorem exists_cons (h : IsMark mark) :
    ∃ c u, mark = c :: u ∧ (c = '*' ∨ c.isDigit = true) := by
  rcases h with rfl | ⟨digits, hne, hd, rfl⟩
  · exact ⟨'*', [], rfl, .inl rfl⟩
  · obtain ⟨d, digits, rfl⟩ := List.exists_cons_of_ne_nil hne
    exact ⟨d, digits ++ ['.'], rfl, .inr (hd d List.mem_cons_self)⟩

/-- No mark begins with a character that is neither a bullet nor a digit. -/
theorem head_ne (h : IsMark mark) {d : Char} (hd : d ≠ '*' ∧ d.isDigit = false) (u : Text) :
    (mark ++ u).head? ≠ some d := by
  obtain ⟨c, v, rfl, hc⟩ := h.exists_cons
  intro he
  obtain rfl : c = d := by simpa using he
  rcases hc with rfl | hc
  · exact hd.1 rfl
  · exact absurd hc (by simp [hd.2])

theorem ne_nil (h : IsMark mark) : mark ≠ [] := by
  obtain ⟨c, u, rfl, -⟩ := h.exists_cons
  exact List.cons_ne_nil c u

end IsMark

theorem itemHead_takes_iff {prev : Option Char} {u rest : Text} {caps : List (Nat × Text)} :
    itemHead.Takes prev u rest caps ↔ prev.all (· == '\n') = true ∧ ∃ mark space content, IsMark mark ∧
      (space ≠ [] ∧ ∀ c ∈ space, isSpace c = true) ∧ (content ≠ [] ∧ '\n' ∉ content) ∧
        u = mark ++ space ++ content ∧ caps = [(1, content)] := by
  have hline {content : Text} : (∀ c ∈ content, (c != '\n') = true) ↔ '\n' ∉ content := by
    simp only [bne_iff_ne, ne_eq]
    exact ⟨fun h hmem => h _ hmem rfl, fun h c hc he => h (he ▸ hc)⟩
  simp only [itemHead, takes_append, takes_orElse, takes_group, takes_word, takes_atLeast, takes_lineStart, hline]
  constructor
  · rintro ⟨_, content, _, _, rfl, rfl,
      ⟨_, space, _, _, rfl, rfl, ⟨_, mark, _, _, rfl, rfl, ⟨hp, rfl, rfl⟩, hm⟩, hs, hls, rfl⟩,
      _, ⟨hc, hl, rfl⟩, rfl⟩
    have hcontent := List.ne_nil_of_length_pos hl
    have hspace := List.ne_nil_of_length_pos hls
    rcases hm with ⟨digits, _, _, _, rfl, rfl, ⟨hd, hl', rfl⟩, rfl, rfl⟩ | ⟨rfl, rfl⟩
    · have hdigits := List.ne_nil_of_length_pos hl'
      exact ⟨hp, _, space, content, .inr ⟨digits, hdigits, hd, rfl⟩, ⟨hspace, hs⟩, ⟨hcontent, hc⟩, rfl, rfl⟩
    · exact ⟨hp, _, space, content, .inl rfl, ⟨hspace, hs⟩, ⟨hcontent, hc⟩, rfl, rfl⟩
  · rintro ⟨hp, mark, space, content, hm, ⟨hspace, hs⟩, ⟨hcontent, hc⟩, rfl, rfl⟩
    refine ⟨mark ++ space, content, [], [(1, content)], rfl, rfl,
      ⟨mark, space, [], [], rfl, rfl, ⟨[], mark, [], [], rfl, rfl,
      ⟨hp, rfl, rfl⟩, ?_⟩, hs, List.length_pos_iff.2 hspace, rfl⟩, [], ⟨hc, List.length_pos_iff.2 hcontent, rfl⟩, rfl⟩
    rcases hm with rfl | ⟨digits, hdigits, hd, rfl⟩
    · exact .inr ⟨rfl, rfl⟩
    · exact .inl ⟨digits, ['.'], [], [], rfl, rfl, ⟨hd, List.length_pos_iff.2 hdigits, rfl⟩, rfl, rfl⟩

theorem itemHead_takes {prev : Option Char} {u rest : Text} {caps : List (Nat × Text)}
    (h : itemHead.Takes prev u rest caps) : prev.all (· == '\n') = true ∧ ∃ mark space content, content ≠ [] ∧
      (mark = ['*'] ∨ ∃ digits : Text, digits ≠ [] ∧ (∀ d ∈ digits, d.isDigit = true) ∧ mark = digits ++ ['.']) ∧
      (∀ c ∈ space, isSpace c = true) ∧ u = mark ++ space ++ content ∧ caps = [(1, content)] := by
  obtain ⟨hp, mark, space, content, hm, ⟨-, hs⟩, ⟨hc, -⟩, hu, hcaps⟩ := itemHead_takes_iff.1 h
  exact ⟨hp, mark, space, content, hc, hm, hs, hu, hcaps⟩

theorem continuation?_eq_some {t indent : Text} {body others : List Text}
    (h : continuation? t = some (indent, body, others)) : t = Text.startLines body ++ Text.startLines others := by
  unfold continuation? at h
  split at h
  · next below =>
    simp only at h
    split at h
    · contradiction
    · simp only [Option.some.injEq, Prod.mk.injEq] at h
      obtain ⟨rfl, rfl, rfl⟩ := h
      have hj := Text.joinLines_lines below
      obtain ⟨l, ls, hl⟩ := List.exists_cons_of_ne_nil (Text.lines_ne_nil below)
      rw [Text.startLines, Text.startLines, ← List.flatMap_append, List.takeWhile_append_dropWhile, hl]
      rw [hl, Text.joinLines_cons] at hj
      rw [← hj]
      rfl
  · contradiction

theorem isIndent_of_continuation? {t indent : Text} {body others : List Text}
    (h : continuation? t = some (indent, body, others)) : ∀ c ∈ indent, isIndent c = true := by
  unfold continuation? at h
  split at h
  · next below =>
    simp only at h
    split at h
    · contradiction
    · simp only [Option.some.injEq, Prod.mk.injEq] at h
      obtain ⟨rfl, -, -⟩ := h
      exact fun c hc => List.all_eq_true.1 List.all_takeWhile c hc
  · contradiction

/-- A hit of the item scanner: the mark, white space and the content; a longer item has the indent as its third
group. -/
theorem itemScanner_eq_some {prev : Option Char} {t : Text} {h : Hit} (hs : itemScanner prev t = some h) :
    ∃ head content, itemHead.scanner prev t = some head ∧ head.groups = [some content] ∧
      ((continuation? head.rest = none ∧ h = ⟨head.whole, head.rest, [some content]⟩) ∨
        ∃ indent body others, continuation? head.rest = some (indent, body, others) ∧
          h = ⟨head.whole ++ Text.startLines body, Text.startLines others,
            [some (content ++ Text.startLines body), some (Text.startLines body), some indent]⟩) := by
  simp only [itemScanner, Option.bind_eq_bind, Option.bind_eq_some_iff] at hs
  obtain ⟨head, hh, content, hc, hs⟩ := hs
  obtain ⟨-, caps, ht, hg⟩ := takes_of_scanner hh
  obtain ⟨-, -, -, content', -, -, -, -, rfl⟩ := itemHead_takes ht
  have hg : head.groups = [some content'] := hg
  obtain rfl : content' = content := by simpa [hg] using hc
  refine ⟨head, content', hh, hg, ?_⟩
  split at hs
  · next hn => exact .inl ⟨hn, (Option.some.inj hs).symm⟩
  · next indent body others hn => exact .inr ⟨indent, body, others, hn, (Option.some.inj hs).symm⟩

theorem itemScanner_lawful : itemScanner.Lawful := fun _ t h hs => by
  obtain ⟨head, content, hh, -, hs⟩ := itemScanner_eq_some hs
  have ht := (takes_of_scanner hh).1
  rcases hs with ⟨-, rfl⟩ | ⟨indent, body, others, hc, rfl⟩
  · exact ht.symm
  · rw [ht, continuation?_eq_some hc, List.append_assoc]

theorem item_parts (h : itemMatcher.find behind t = some m) : ∃ mark space content, content ≠ [] ∧
    (mark = ['*'] ∨ ∃ digits : Text, digits ≠ [] ∧ (∀ d ∈ digits, d.isDigit = true) ∧ mark = digits ++ ['.']) ∧
      (∀ c ∈ space, isSpace c = true) ∧ m.whole = mark ++ space ++ content ∧ m.group 1 = some content := by
  rw [itemMatcher_eq] at h
  obtain ⟨head, first, hh, hg, hs⟩ := itemScanner_eq_some (itemScanner_lawful.hit_of_search h)
  obtain ⟨-, caps, hk, hg'⟩ := takes_of_scanner hh
  obtain ⟨-, mark, space, content, hc, hm, hsp, hw, rfl⟩ := itemHead_takes hk
  have hg' : head.groups = [some content] := hg'
  obtain rfl : first = content := by simpa [hg] using hg'
  refine ⟨mark, space, ?_⟩
  rcases hs with ⟨-, hs⟩ | ⟨indent, body, others, -, hs⟩
  · obtain ⟨hw', -, hg⟩ := Hit.mk.injEq .. |>.mp hs
    exact ⟨first, hc, hm, hsp, by rw [hw', hw], by simp [Match.group, hg]⟩
  · obtain ⟨hw', -, hg⟩ := Hit.mk.injEq .. |>.mp hs
    exact ⟨first ++ Text.startLines body, by simp [hc], hm, hsp, by rw [hw', hw, List.append_assoc],
      by simp [Match.group, hg]⟩

theorem itemMatcher_lawful : itemMatcher.Lawful := by
  rw [itemMatcher_eq]
  exact Matcher.lawful_ofScanner itemScanner_lawful _

theorem item_shape (h : itemMatcher.find [] t = some m) : m.text = t ∧ ∃ mark space content, content ≠ [] ∧
    (mark = ['*'] ∨ ∃ digits : Text, digits ≠ [] ∧ (∀ d ∈ digits, d.isDigit = true) ∧ mark = digits ++ ['.']) ∧
      (∀ c ∈ space, isSpace c = true) ∧ m.whole = mark ++ space ++ content ∧ m.group 1 = some content :=
  ⟨(itemMatcher_lawful _ _ _ h).1, item_parts h⟩

theorem item_indent (h : itemMatcher.find behind t = some m) {indent : Text} (hi : m.group 3 = some indent) :
    ∀ c ∈ indent, isIndent c = true := by
  rw [itemMatcher_eq] at h
  obtain ⟨head, first, -, -, hs⟩ := itemScanner_eq_some (itemScanner_lawful.hit_of_search h)
  rcases hs with ⟨-, hs⟩ | ⟨indent', body, others, hc, hs⟩
  · obtain ⟨-, -, hg⟩ := Hit.mk.injEq .. |>.mp hs
    simp [Match.group, hg] at hi
  · obtain ⟨-, -, hg⟩ := Hit.mk.injEq .. |>.mp hs
    obtain rfl : indent' = indent := by simpa [Match.group, hg] using hi
    exact isIndent_of_continuation? hc

namespace Definition

/-- What stands below the colon: the gap, the indent, the body and the rest. -/
def below? (strict : Bool) (space afterColon : Text) : Option (Text × Text × Text × Text) :=
  let blank := afterColon.takeWhile isSpace
  let below := afterColon.dropWhile isSpace
  let gap := (blank.reverse.dropWhile (· != '\n')).reverse
  let indent := (blank.reverse.takeWhile (· != '\n')).reverse
  if below.isEmpty || gap.isEmpty || indent.length < 2 then none
  else if strict && (space.contains '\n' || gap.count '\n' != 1) then none
  else some (gap, indent, bodyOf indent (indent ++ below))

/-- A definition is read in two steps: up to the colon, and below it. -/
theorem at?_cons (strict : Bool) (c : Char) (t : Text) : at? strict (c :: t) =
    if isSpace c then none else
    match (t.dropWhile isTermChar).dropWhile isSpace with
    | ':' :: afterColon =>
      let space := (t.dropWhile isTermChar).takeWhile isSpace
      (below? strict space afterColon).map fun b =>
        ⟨c :: t.takeWhile isTermChar, space, b.1, b.2.1, b.2.2.1, b.2.2.2⟩
    | _ => none := by
  rw [at?]
  simp only
  split
  · rfl
  · generalize (t.dropWhile isTermChar).dropWhile isSpace = r
    cases r with
    | nil => rfl
    | cons d afterColon =>
      by_cases hd : d = ':'
      · subst hd
        simp only [below?]
        repeat' split
        all_goals rfl
      · have hne {α : Type} (f : Text → Option α) :
            (match d :: afterColon with | ':' :: after => f after | _ => none) = none := by
          split
          · next h => exact absurd (List.cons.inj h).1 hd
          · rfl
        exact (hne _).trans (hne _).symm

/-- The text behind the term decides: it begins with white space and a colon. -/
theorem at?_eq (strict : Bool) (c : Char) (t : Text) : at? strict (c :: t) =
    if isSpace c then none else
    let after := t.dropWhile isTermChar
    let colon := after.dropWhile isSpace
    if colon.head? = some ':' then
      (below? strict (after.takeWhile isSpace) colon.tail).map fun b =>
        ⟨c :: t.takeWhile isTermChar, after.takeWhile isSpace, b.1, b.2.1, b.2.2.1, b.2.2.2⟩
    else none := by
  rw [at?_cons]
  simp only
  split
  · rfl
  · generalize (t.dropWhile isTermChar).dropWhile isSpace = r
    split
    · rfl
    · next h =>
      rw [if_neg]
      intro hr
      obtain ⟨r, rfl⟩ := List.head?_eq_some_iff.1 hr
      exact h r rfl

theorem isSpace_of_at? {strict : Bool} {t : Text} {d : Definition} (h : at? strict t = some d) :
    (∀ c ∈ d.space, isSpace c = true) ∧ (∀ c ∈ d.gap, isSpace c = true) ∧ ∀ c ∈ d.indent, isSpace c = true := by
  have hall (t : Text) : ∀ c ∈ t.takeWhile isSpace, isSpace c = true := List.all_eq_true.1 List.all_takeWhile
  cases t with
  | nil => contradiction
  | cons c t =>
    rw [at?_cons] at h
    split at h
    · contradiction
    · split at h
      · next afterColon _ =>
        obtain ⟨b, hb, rfl⟩ := Option.map_eq_some_iff.1 h
        simp only [below?] at hb
        repeat' split at hb
        all_goals try contradiction
        obtain rfl := Option.some.inj hb
        refine ⟨hall _, fun d hd => ?_, fun d hd => ?_⟩
        · have hblank := (List.dropWhile_suffix _).subset (List.mem_reverse.1 hd)
          exact hall _ d (List.mem_reverse.1 hblank)
        · have hblank := List.takeWhile_subset _ (List.mem_reverse.1 hd)
          exact hall _ d (List.mem_reverse.1 hblank)
      · contradiction

end Definition

theorem definitionScanner_lawful : definitionScanner.Lawful := fun prev t h hs => by
  rw [definitionScanner] at hs
  split at hs
  · obtain ⟨d, hd, rfl⟩ := Option.map_eq_some_iff.1 hs
    exact (Definition.eq_of_at? hd).symm
  · contradiction

theorem definition_parts (h : definitionMatcher.find behind t = some m) : ∃ d : Definition,
    m.whole = d.whole ∧ m.groups = [some d.term, some d.body, some d.indent] ∧ (∀ c ∈ d.space, isSpace c = true) ∧
      (∀ c ∈ d.gap, isSpace c = true) ∧ ∀ c ∈ d.indent, isSpace c = true := by
  have hs := definitionScanner_lawful.hit_of_search h
  rw [definitionScanner] at hs
  split at hs
  · obtain ⟨d, hd, he⟩ := Option.map_eq_some_iff.1 hs
    obtain ⟨hw, -, hg⟩ := Hit.mk.injEq .. |>.mp he
    exact ⟨d, hw.symm, hg.symm, Definition.isSpace_of_at? hd⟩
  · contradiction

theorem definition_shape (h : definitionMatcher.find [] t = some m) : m.text = t ∧ ∃ d : Definition,
    m.whole = d.whole ∧ m.groups = [some d.term, some d.body, some d.indent] ∧ (∀ c ∈ d.space, isSpace c = true) ∧
      (∀ c ∈ d.gap, isSpace c = true) ∧ ∀ c ∈ d.indent, isSpace c = true :=
  ⟨(definitionScanner_lawful.search_hit h).1, definition_parts h⟩

theorem Definition.listOf_append (t : Text) : (listOf t).1.flatMap whole ++ (listOf t).2 = t := by
  fun_induction listOf t with
  | case1 t h => rfl
  | case2 t d h ds rest hr ih =>
    rw [hr] at ih
    rw [List.flatMap_cons, List.append_assoc, ih, eq_of_at? h]

theorem definitionListScanner_eq_some {prev : Option Char} {t : Text} {h : Hit}
    (hs : definitionListScanner prev t = some h) : atLineStart prev = true ∧ ∃ d ds rest,
      Definition.listOf t = (d :: ds, rest) ∧ h = ⟨(d :: ds).flatMap Definition.whole, rest, []⟩ := by
  rw [definitionListScanner] at hs
  split at hs
  · next hp =>
    split at hs
    · contradiction
    · next ds rest hne he =>
      cases ds with
      | nil => exact absurd rfl hne
      | cons d ds => exact ⟨hp, d, ds, rest, he, (Option.some.inj hs).symm⟩
  · contradiction

theorem definitionListScanner_lawful : definitionListScanner.Lawful := fun prev t h hs => by
  obtain ⟨-, d, ds, rest, he, rfl⟩ := definitionListScanner_eq_some hs
  have := Definition.listOf_append t
  rwa [he] at this

theorem definitionList_parts (h : definitionListMatcher.find behind t = some m) :
    ∃ (d : Definition) (rest : Text), m.whole = d.whole ++ rest := by
  obtain ⟨-, d, ds, _, -, he⟩ := definitionListScanner_eq_some (definitionListScanner_lawful.hit_of_search h)
  exact ⟨d, ds.flatMap Definition.whole, (Hit.mk.injEq .. |>.mp he).1⟩

theorem definitionList_shape (h : definitionListMatcher.find [] t = some m) : m.text = t ∧
    ∃ (d : Definition) (rest : Text), m.whole = d.whole ++ rest :=
  ⟨(definitionListScanner_lawful.search_hit h).1, definitionList_parts h⟩

end Markup.Listing
