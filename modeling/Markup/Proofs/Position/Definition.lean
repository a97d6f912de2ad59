import Markup.Proofs.Position.Body
import Markup.Proofs.Position.Term

/-! # Definitions by positions

The scanner looks for a term with its colon. Below it it looks for an indented body, and in a list for the next
definition right behind the body; without a body it goes on one character behind the start of the term. -/
namespace Markup.Listing
open Definition (bodyOf)
open Pattern (le_of_spansAt)
open Text (Starts)

/-- The place of a definition and of its parts; the body has its indent. -/
structure DefinitionSpans where
  whole : Span
  term : Span
  body : Span
  indent : Span

/-- The definition whose term and colon stand at the given places. -/
def definitionBelow (strict : Bool) (t : Text) (start : Nat) (term : Span) (colon : Nat) :
    Except PositionError (Option DefinitionSpans) := do
  let space := Text.bytes ((← t.sliceFrom colon).takeWhile isSpace)
  if colon + space = t.bytes then return none
  else
    let gap ← t.slice colon (colon + space)
    let before ← t.slice term.stop colon
    if strict && (before.contains '\n' || gap.count '\n' != 1) then return none
    else match Text.lastBreak gap with
    | none => return none
    | some newline =>
      let indent : Span := ⟨colon + newline + 1, colon + space⟩
      let stop ← bodyAt t indent
      return stop.map fun stop => ⟨⟨start, stop⟩, term, ⟨indent.start, stop⟩, indent⟩

/-- The definition that begins with a given head. -/
def definitionAt (strict : Bool) (t : Text) (head : Spans) : Except PositionError (Option DefinitionSpans) :=
  match head.groups with
  | some term :: _ => definitionBelow strict t head.whole.start term head.whole.stop
  | _ => return none

theorem lt_of_definitionAt {strict : Bool} {t : Text} {head : Spans} {d : DefinitionSpans}
    (h : definitionAt strict t head = .ok (some d)) : head.whole.stop < d.whole.stop ∧ d.whole.stop ≤ t.bytes := by
  rw [definitionAt] at h
  split at h
  · obtain ⟨rest, -, h⟩ := bind_eq_ok_iff.1 h
    simp only at h
    split at h
    · cases h
    obtain ⟨gap, -, h⟩ := bind_eq_ok_iff.1 h
    obtain ⟨before, -, h⟩ := bind_eq_ok_iff.1 h
    split at h
    · cases h
    split at h
    · cases h
    obtain ⟨stop, hstop, h⟩ := bind_eq_ok_iff.1 h
    obtain ⟨stop, rfl, rfl⟩ := Option.map_eq_some_iff.1 (Except.ok.inj h)
    have hbody := lt_of_bodyAt hstop
    simp only at hbody ⊢
    omega
  · cases h

/-- The definition whose term stands at the position. -/
def nextDefinition (t : Text) (pos : Nat) : Except PositionError (Option DefinitionSpans) := do
  match ← termHead.spansAt t pos with
  | some head => if head.whole.start = pos then definitionAt true t head else return none
  | none => return none

theorem lt_of_nextDefinition {t : Text} {pos : Nat} {d : DefinitionSpans} (h : nextDefinition t pos = .ok (some d)) :
    pos < d.whole.stop ∧ d.whole.stop ≤ t.bytes := by
  obtain ⟨found, hfound, h⟩ := bind_eq_ok_iff.1 h
  split at h
  · next head _ =>
    split at h
    · next hstart =>
      have hle := (le_of_spansAt hfound).2
      have hlt := lt_of_definitionAt h
      omega
    · cases h
  · cases h

/-- The end of a run of definitions that goes on at a position. -/
def listEnd (t : Text) (stop : Nat) : Except PositionError Nat :=
  match _h : nextDefinition t stop with
  | .ok (some next) => listEnd t next.whole.stop
  | .ok none => return stop
  | .error e => throw e
termination_by t.bytes - stop
decreasing_by
  have := lt_of_nextDefinition _h
  omega

/-- The match that begins with a definition: the definition, or the run of strict ones. -/
def matchFrom (list : Bool) (t : Text) (first : DefinitionSpans) : Except PositionError Spans :=
  if list then do
    let stop ← listEnd t first.whole.stop
    return ⟨⟨first.whole.start, stop⟩, []⟩
  else return ⟨first.whole, [some first.term, some first.body, some first.indent]⟩

/-- The first match at or after a position. -/
def definitionsFrom (list : Bool) (t : Text) (pos : Nat) : Except PositionError (Option Spans) :=
  if pos ≤ t.bytes then
    match _h : termHead.spansAt t pos with
    | .ok (some head) => do
      match ← definitionAt list t head with
      | some first => some <$> matchFrom list t first
      | none =>
        match ← t.sliceFrom head.whole.start with
        | [] => return none
        | c :: _ => definitionsFrom list t (head.whole.start + c.utf8Size)
    | .ok none => return none
    | .error e => throw e
  else return none
termination_by t.bytes + 1 - pos
decreasing_by
  have hle := le_of_spansAt _h
  have hc := Char.utf8Size_pos ‹Char›
  omega

variable {prev : Option Char} {t u v : Text} {h : Head}

/-- The places of a definition and of its parts. -/
def Definition.spans (d : Definition) (pos : Nat) : DefinitionSpans :=
  let body := pos + Text.bytes (d.term ++ d.space ++ ':' :: d.gap)
  ⟨⟨pos, pos + d.whole.bytes⟩, ⟨pos, pos + d.term.bytes⟩, ⟨body, body + d.body.bytes⟩, ⟨body, body + d.indent.bytes⟩⟩

theorem Definition.spans_eq {d : Definition} {gap : Text} (hgap : d.gap = gap ++ ['\n']) : d.spans u.bytes =
    let body := Text.bytes (u ++ (d.term ++ d.space ++ [':'])) + gap.bytes + 1
    ⟨⟨u.bytes, body + d.body.bytes⟩, ⟨u.bytes, u.bytes + d.term.bytes⟩, ⟨body, body + d.body.bytes⟩,
      ⟨body, body + d.indent.bytes⟩⟩ := by
  simp [spans, whole, hgap, Nat.add_assoc]

theorem definitionBelow_eq {term space after : Text} (strict : Bool) (ht : t = u ++ (term ++ space ++ [':']) ++ after) :
    definitionBelow strict t u.bytes ⟨u.bytes, u.bytes + term.bytes⟩ (Text.bytes (u ++ (term ++ space ++ [':']))) =
      .ok ((Definition.below? strict space after).map fun b =>
        Definition.spans ⟨term, space, b.1, b.2.1, b.2.2.1, b.2.2.2⟩ u.bytes) := by
  have hblank := List.takeWhile_append_dropWhile (p := isSpace) (l := after)
  have hbelow := line_dropWhile_ne_nil (t := after)
  have hcount := Definition.count_gap (after.takeWhile isSpace)
  have hparts := gap_and_indent (after.takeWhile isSpace)
  have hindent := newline_not_mem_indent (after.takeWhile isSpace)
  rw [definitionBelow, Text.sliceFrom_of_eq ht rfl, ok_bind]
  simp only [Definition.below?]
  generalize after.takeWhile isSpace = blank, after.dropWhile isSpace = below at *
  generalize (blank.reverse.takeWhile (· != '\n')).reverse = indent,
    (blank.reverse.dropWhile (· != '\n')).reverse = gap at *
  subst hblank
  have hbefore : t.slice (u.bytes + term.bytes) (Text.bytes (u ++ (term ++ space ++ [':']))) = .ok (space ++ [':']) :=
    Text.slice_of_eq (u := u ++ term) (v := blank ++ below) (by simp [ht]) (Text.bytes_append _ _) (by simp)
  have hbreak : (space ++ [':']).contains '\n' = space.contains '\n' := by simp
  generalize hcolon : u ++ (term ++ space ++ [':']) = colon at ht hbefore ⊢
  rw [← List.append_assoc] at ht
  have hgap : t.slice (Text.bytes colon) (Text.bytes colon + Text.bytes blank) = .ok blank :=
    Text.slice_of_eq ht rfl (Text.bytes_append _ _)
  have hend : t.bytes = Text.bytes colon + Text.bytes blank + Text.bytes below := by
    rw [ht, Text.bytes_append, Text.bytes_append]
  by_cases hempty : below = []
  · subst hempty
    rw [if_pos (by rw [hend]; rfl)]
    rfl
  · have hmore := Text.bytes_pos hempty
    rw [if_neg (by omega), hgap, ok_bind, hbefore, ok_bind, hbreak, ← hcount, List.isEmpty_eq_false_iff.2 hempty]
    by_cases hstrict : (strict && (space.contains '\n' || gap.count '\n' != 1)) = true
    · rw [if_pos hstrict, if_pos hstrict, ite_self]
      rfl
    · rw [if_neg hstrict, if_neg hstrict]
      rcases hparts with ⟨hnone, rfl⟩ | ⟨gap, rfl, rfl⟩
      · rw [Text.lastBreak_eq_none hnone]
        rfl
      · rw [Text.lastBreak_append gap hindent]
        simp only [bodyAt_eq hindent (hbelow hempty) ht, ok_bind]
        by_cases hlong : 2 ≤ indent.length
        · rw [if_pos hlong, decide_eq_false (Nat.not_lt.2 hlong), if_neg (by simp)]
          have hstop : Text.bytes colon + Text.bytes (gap ++ '\n' :: indent) =
              Text.bytes colon + Text.bytes gap + 1 + Text.bytes indent := by
            simp [Nat.add_assoc]
          have hspans (body rest : Text) := Definition.spans_eq (u := u) (d := ⟨term, space, _, indent, body, rest⟩)
            (rfl : gap ++ ['\n'] = _)
          simp only [Option.map_some, hspans, hcolon, hstop, pure_eq]
        · rw [if_neg hlong, decide_eq_true (Nat.lt_of_not_le hlong), if_pos (by simp)]
          rfl

theorem definitionAt_eq (strict : Bool) (hh : headOf v = some h) (ht : t = u ++ v) :
    definitionAt strict t (h.spans u.bytes) = .ok ((Definition.at? strict v).map (·.spans u.bytes)) := by
  obtain ⟨⟨hv, -, -⟩, -⟩ := reads_of_headOf hh
  have hsplit : t = u ++ (h.term ++ h.space ++ [':']) ++ h.after := by rw [ht, hv, List.append_assoc]; rfl
  have hbelow := definitionBelow_eq strict hsplit
  rw [Text.bytes_append u] at hbelow
  rw [at?_eq_head, hh, Option.bind_some, Option.map_map]
  exact hbelow

theorem exists_body_of_at? {strict : Bool} {d : Definition} (hd : Definition.at? strict t = some d) :
    ∃ w, d.body = d.indent ++ w := by
  rw [at?_eq_head] at hd
  obtain ⟨h, -, hd⟩ := Option.bind_eq_some_iff.1 hd
  obtain ⟨b, hb, rfl⟩ := Option.map_eq_some_iff.1 hd
  have hbelow := line_dropWhile_ne_nil (t := h.after)
  have hindent := newline_not_mem_indent (h.after.takeWhile isSpace)
  simp only [Definition.below?] at hb
  split at hb
  · contradiction
  · next hcond =>
    split at hb
    · contradiction
    · simp only [Bool.or_eq_true, List.isEmpty_iff, not_or] at hcond
      obtain rfl := Option.some.inj hb
      have hcontinues := continues_line hindent (hbelow hcond.1.1)
      simp only
      rw [fst_bodyOf, if_pos hcontinues, Text.line_append_of_not_mem hindent, List.append_assoc, List.append_assoc]
      exact ⟨_, rfl⟩

theorem at?_eq_none_of_headAt (strict : Bool) (hu : v = [] ∨ Starts u) (h : headAt u.getLast? v = none) :
    Definition.at? strict v = none := by
  rcases hu with rfl | hu
  · rfl
  · have hhead : headAt u.getLast? v = headOf v := if_pos hu
    rw [at?_eq_head, ← hhead, h]
    rfl

theorem nextDefinition_eq (hu : v = [] ∨ Starts u) (ht : t = u ++ v) :
    nextDefinition t u.bytes = .ok ((Definition.at? true v).map (·.spans u.bytes)) := by
  rcases termHead_spansAt ht with ⟨hspans, hnone⟩ | ⟨x, y, h, rfl, hh, hspans, hbefore⟩
  · have hat := at?_eq_none_of_headAt true hu (by simpa using hnone [] v rfl)
    rw [nextDefinition, hspans, hat]
    rfl
  · have hstart : (h.spans (Text.bytes (u ++ x))).whole.start = u.bytes + Text.bytes x := Text.bytes_append u x
    rw [nextDefinition, hspans, ok_bind]
    by_cases hx : x = []
    · subst hx
      rw [List.append_nil] at hh
      have hdef := definitionAt_eq true (headAt_eq_some hh).2 ht
      rw [List.append_nil, List.nil_append, ← hdef]
      exact if_pos rfl
    · have hmore := Text.bytes_pos hx
      have hat := at?_eq_none_of_headAt true hu (by simpa using hbefore [] x rfl hx)
      simp only [hstart]
      rw [if_neg (by omega), hat]
      rfl

theorem listEnd_of_none {stop : Nat} (h : nextDefinition t stop = .ok none) : listEnd t stop = .ok stop := by
  rw [listEnd]
  split
  · next hsome => cases h.symm.trans hsome
  · rfl
  · next herror => cases h.symm.trans herror

theorem listEnd_of_some {stop : Nat} {next : DefinitionSpans} (h : nextDefinition t stop = .ok (some next)) :
    listEnd t stop = listEnd t next.whole.stop := by
  rw [listEnd]
  split
  · next hsome =>
    obtain rfl := Option.some.inj (Except.ok.inj (h.symm.trans hsome))
    rfl
  · next hnone => cases h.symm.trans hnone
  · next herror => cases h.symm.trans herror

theorem listEnd_eq (hu : v = [] ∨ Starts u) (ht : t = u ++ v) :
    listEnd t u.bytes = .ok (u.bytes + Text.bytes ((Definition.listOf v).1.flatMap Definition.whole)) := by
  fun_induction Definition.listOf v generalizing u with
  | case1 v hat =>
    have hnext := nextDefinition_eq hu ht
    rw [hat] at hnext
    rw [listEnd_of_none hnext]
    simp
  | case2 v d hat ds rest hrest ih =>
    have hnext := nextDefinition_eq hu ht
    rw [hat] at hnext
    have hne : d.whole ≠ [] := by simp [Definition.whole]
    have hend := ih ((Definition.starts_of_at? hat).imp_right fun h => h.append_left hne u)
      (by rw [ht, List.append_assoc, ← Definition.eq_of_at? hat])
    rw [hrest, Text.bytes_append] at hend
    rw [listEnd_of_some hnext, List.flatMap_cons, Text.bytes_append, ← Nat.add_assoc]
    exact hend

/-- The scanner for one definition, or for a run of them. -/
def definitions (list : Bool) : Scanner := if list then definitionListScanner else definitionScanner

/-- What the scanner makes of a definition. -/
def hitFrom (list : Bool) (d : Definition) : Hit :=
  if list then
    ⟨d.whole ++ (Definition.listOf d.rest).1.flatMap Definition.whole, (Definition.listOf d.rest).2, []⟩
  else ⟨d.whole, d.rest, [some d.term, some d.body, some d.indent]⟩

theorem definitions_eq (list : Bool) (prev : Option Char) (t : Text) : definitions list prev t =
    if prev.all (· == '\n') then (Definition.at? list t).map (hitFrom list) else none := by
  cases list with
  | false => rfl
  | true =>
    change definitionListScanner prev t = _
    rw [definitionListScanner]
    refine if_congr Iff.rfl ?_ rfl
    have hlist := Definition.listOf.eq_1 t
    split at hlist
    · next hat =>
      rw [hlist, hat]
      rfl
    · next d hat =>
      rw [hlist, hat]
      rfl

theorem definitions_eq_none (list : Bool) (h : headAt prev t = none) : definitions list prev t = none := by
  rw [definitions_eq]
  rw [headAt] at h
  split
  · next hprev =>
    rw [if_pos hprev] at h
    rw [at?_eq_head, h]
    rfl
  · rfl

theorem matchFrom_locates {list : Bool} {d : Definition} (hat : Definition.at? list v = some d) (ht : t = u ++ v) :
    Locates (some <$> matchFrom list t (d.spans u.bytes)) (some ((hitFrom list d).toMatch u.reverse)) := by
  have hv := Definition.eq_of_at? hat
  cases list with
  | true =>
    have hne : d.whole ≠ [] := by simp [Definition.whole]
    have hend := listEnd_eq (t := t) ((Definition.starts_of_at? hat).imp_right fun h => h.append_left hne u)
      (by rw [ht, List.append_assoc, ← hv])
    rw [Text.bytes_append u] at hend
    have hmatch : matchFrom true t (d.spans u.bytes) =
        .ok ⟨⟨u.bytes, u.bytes + (d.whole.bytes + Text.bytes ((Definition.listOf d.rest).1.flatMap Definition.whole))⟩,
        []⟩ := by
      rw [matchFrom, if_pos rfl]
      simp only [Definition.spans, hend, ok_bind, pure_eq, Nat.add_assoc]
    rw [hmatch]
    refine Spans.Of.locates ⟨?_, .nil⟩
    simp [hitFrom]
  | false =>
    obtain ⟨w, hw⟩ := exists_body_of_at? hat
    refine Spans.Of.locates ⟨?_, .cons (.some ?_) (.cons (.some ?_) (.cons (.some ?_) .nil))⟩
    · simp [hitFrom, Definition.spans]
    · refine Match.covers_inside (x := []) (y := d.space ++ ':' :: d.gap ++ d.body) ?_ (by simp [Definition.spans]) rfl
      simp [Hit.toMatch, hitFrom, Definition.whole]
    · refine Match.covers_inside (x := d.term ++ d.space ++ ':' :: d.gap) (y := []) ?_ (by simp [Definition.spans]) rfl
      simp [Hit.toMatch, hitFrom, Definition.whole]
    · refine Match.covers_inside (x := d.term ++ d.space ++ ':' :: d.gap) (y := w) ?_ (by simp [Definition.spans]) rfl
      simp [Hit.toMatch, hitFrom, Definition.whole, hw]

section
variable {list : Bool} {pos : Nat} {head : Spans} (hle : pos ≤ t.bytes)
include hle

theorem definitionsFrom_of_none (hs : termHead.spansAt t pos = .ok none) : definitionsFrom list t pos = .ok none := by
  rw [definitionsFrom, if_pos hle]
  split
  · next hsome => cases hs.symm.trans hsome
  · rfl
  · next herror => cases hs.symm.trans herror

variable (hs : termHead.spansAt t pos = .ok (some head))
include hs

theorem definitionsFrom_of_some {first : DefinitionSpans} (hd : definitionAt list t head = .ok (some first)) :
    definitionsFrom list t pos = some <$> matchFrom list t first := by
  rw [definitionsFrom, if_pos hle]
  split
  · next hsome =>
    obtain rfl := Option.some.inj (Except.ok.inj (hs.symm.trans hsome))
    rw [hd]
    rfl
  · next hnone => cases hs.symm.trans hnone
  · next herror => cases hs.symm.trans herror

/-- A head without a body is left behind by one character. -/
theorem definitionsFrom_of_miss {c : Char} (hd : definitionAt list t head = .ok none)
    (hc : t.sliceFrom head.whole.start = .ok (c :: v)) :
    definitionsFrom list t pos = definitionsFrom list t (head.whole.start + c.utf8Size) := by
  rw [definitionsFrom, if_pos hle]
  split
  · next hsome =>
    obtain rfl := Option.some.inj (Except.ok.inj (hs.symm.trans hsome))
    rw [hd, ok_bind]
    simp only [hc, ok_bind]
  · next hnone => cases hs.symm.trans hnone
  · next herror => cases hs.symm.trans herror

end

theorem definitionsFrom_locates (list : Bool) (ht : t = u ++ v) :
    Locates (definitionsFrom list t u.bytes) ((definitions list).search u.reverse v) := by
  induction hn : v.length using Nat.strongRecOn generalizing u v with
  | ind n ih =>
    have hle : u.bytes ≤ t.bytes := by
      rw [ht, Text.bytes_append]
      exact Nat.le_add_right _ _
    rcases termHead_spansAt ht with ⟨hspans, hnone⟩ | ⟨x, y, h, rfl, hh, hspans, hbefore⟩
    · have hsearch : (definitions list).search u.reverse v = none :=
        Scanner.search_eq_none_iff.2 fun x y hxy => definitions_eq_none list (u.head?_behind x ▸ hnone x y hxy)
      rw [definitionsFrom_of_none hle hspans, hsearch]
      exact locates_none
    · have hskip : (definitions list).search u.reverse (x ++ y) = (definitions list).search (u ++ x).reverse y := by
        rw [List.reverse_append]
        exact Scanner.search_skip fun a b hab hb => definitions_eq_none list (u.head?_behind a ▸ hbefore a b hab hb)
      have hy : t = (u ++ x) ++ y := by rw [ht, List.append_assoc]
      obtain ⟨hline, hh⟩ := headAt_eq_some hh
      have hdef := definitionAt_eq list hh hy
      rw [hskip]
      cases hat : Definition.at? list y with
      | some d =>
        have hhit : definitions list (u ++ x).reverse.head? y = some (hitFrom list d) := by
          rw [definitions_eq, List.head?_reverse, if_pos hline, hat]
          rfl
        rw [hat] at hdef
        rw [Scanner.search_of_hit hhit, definitionsFrom_of_some hle hspans hdef]
        exact matchFrom_locates hat hy
      | none =>
        have hmiss : definitions list (u ++ x).reverse.head? y = none := by
          rw [definitions_eq, hat]
          exact ite_self _
        obtain ⟨c, y, rfl⟩ : ∃ c w, y = c :: w := List.exists_cons_of_ne_nil (by rintro rfl; contradiction)
        have hnext : t = (u ++ x ++ [c]) ++ y := by rw [hy, List.append_assoc _ [c]]; rfl
        have hpos : Text.bytes (u ++ x ++ [c]) = Text.bytes (u ++ x) + c.utf8Size := Text.bytes_append _ _
        have hrest := ih y.length (by rw [← hn]; simp; omega) hnext rfl
        rw [hat] at hdef
        rw [hpos, List.reverse_concat] at hrest
        rw [Scanner.search, hmiss, definitionsFrom_of_miss hle hspans hdef (Text.sliceFrom_of_eq hy rfl)]
        exact hrest

end Markup.Listing
