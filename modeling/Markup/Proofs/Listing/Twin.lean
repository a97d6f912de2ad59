import Markup.Proofs.Listing.Shape
import Markup.Proofs.Script.Lines
import Markup.Proofs.Script.Search

/-! # Items and definitions over scripts

White space is the same in both spellings, so indents are, and the lines that repeat them. -/
namespace Markup.Listing
open Script

/-- A run of a class without semicolon holds no token. -/
theorem exists_ofText_takeWhile {p : Char → Bool} (hp : p ';' = false) (g : Script) :
    ∃ u, g.takeWhile (p ·.face) = ofText u ∧ (∀ c ∈ u, p c = true) := by
  induction g with
  | nil => exact ⟨[], rfl, by simp⟩
  | cons x g ih =>
    obtain ⟨u, hu, hall⟩ := ih
    by_cases hx : p x.face = true
    · rw [List.takeWhile_cons_of_pos (p := fun x : Glyph => p x.face) hx, hu]
      cases x with
      | char c => exact ⟨c :: u, rfl, by simpa using ⟨hx, hall⟩⟩
      | token n => simp [hp] at hx
    · exact ⟨[], by rw [List.takeWhile_cons_of_neg (p := fun x : Glyph => p x.face) hx]; rfl, by simp⟩

theorem isPrefixOf_spell {u : Text} (hu : ';' ∉ u) (f f' : Side) (l : Script) :
    u.isPrefixOf (spell f l) = u.isPrefixOf (spell f' l) := by
  simp only [← List.isSome_isPrefixOf?_eq_isPrefixOf]
  rcases isPrefixOf?_spell hu l with h | ⟨rest, -, h⟩
  · rw [h, h]
  · rw [h, h]
    rfl

theorem semicolon_not_mem {p : Char → Bool} (hp : p ';' = false) {u : Text} (h : ∀ c ∈ u, p c = true) : ';' ∉ u :=
  fun hu => by simpa [hp] using h _ hu

theorem continuation?_spell (g : Script) :
    (∀ f, continuation? (spell f g) = none) ∨
      ∃ indent body others, ';' ∉ indent ∧ g = startLines body ++ startLines others ∧
        ∀ f, continuation? (spell f g) = some (indent, body.map (spell f), others.map (spell f)) := by
  by_cases hg : ∃ below, g = .char '\n' :: below
  · obtain ⟨below, rfl⟩ := hg
    have hindent : isIndent ';' = false := by decide
    obtain ⟨u, hu, hall⟩ := exists_ofText_takeWhile hindent below
    have indent (f : Side) : Text.indent (spell f below) = u := by
      rw [Text.indent, takeWhile_spell (.inl hindent), hu, spell_ofText]
    have hsemi : ';' ∉ u := semicolon_not_mem hindent hall
    by_cases hl : u.length < 2
    · refine .inl fun f => ?_
      simp only [spell_cons, Glyph.spell_char, List.singleton_append, continuation?, indent, if_pos hl]
    · let repeats (l : Script) : Bool := u.isPrefixOf (spell Prod.fst l)
      have same (f : Side) : u.isPrefixOf ∘ spell f = repeats := funext fun l => isPrefixOf_spell hsemi f Prod.fst l
      refine .inr ⟨u, (lines below).takeWhile repeats, (lines below).dropWhile repeats, hsemi, ?_, fun f => ?_⟩
      · obtain ⟨l, ls, hls⟩ := List.exists_cons_of_ne_nil (lines_ne_nil below)
        rw [startLines, startLines, ← List.flatMap_append, List.takeWhile_append_dropWhile]
        have := joinLines_lines below
        rw [hls] at this ⊢
        rw [← this]
        rfl
      · simp only [spell_cons, Glyph.spell_char, List.singleton_append, continuation?, indent, if_neg hl, lines_spell,
          List.takeWhile_map, List.dropWhile_map, same]
  · refine .inl fun f => ?_
    unfold continuation?
    split
    · next below h =>
      exact absurd (exists_char_of_spell_eq h (by decide)) hg
    · rfl

theorem part_append_startLines {g h : Script} (hp : Part g h) (ls : List Script) :
    Part (g ++ startLines ls) (h ++ startLines ls) := by
  refine ⟨fun n hn => ?_, fun hc => ?_⟩
  · rw [List.mem_append] at hn ⊢
    exact hn.imp_left (hp.token n)
  · have hg := hp.clean (hc.slice (List.prefix_append _ _).isInfix)
    have hl := hc.slice (List.suffix_append _ _).isInfix
    cases ls with
    | nil => simpa [startLines] using hg
    | cons l ls => exact hg.append_cons (by decide) (hl.slice (List.suffix_cons _ _).isInfix)

/-- The item with a given first line. -/
def itemHit (whole rest content : Text) : Hit :=
  match continuation? rest with
  | none => ⟨whole, rest, [some content]⟩
  | some (indent, body, others) =>
    ⟨whole ++ Text.startLines body, Text.startLines others,
      [some (content ++ Text.startLines body), some (Text.startLines body), some indent]⟩

theorem itemScanner_eq (prev : Option Char) (t : Text) : itemScanner prev t =
    (itemHead.scanner prev t).bind fun head => head.groups.head?.join.map (itemHit head.whole head.rest) := by
  rw [itemScanner]
  refine Option.bind_congr fun head _ => ?_
  cases head.groups.head?.join with
  | none => rfl
  | some content =>
    rw [Option.map_some, itemHit]
    cases continuation? head.rest <;> rfl

theorem itemScanner_twin : itemScanner.Twin fun _ => True := by
  have head := Pattern.scanner_twin (p := itemHead) (by decide)
  refine ⟨fun prev g _ => ?_, fun prev t ht => ?_⟩
  · rcases head.alike prev g trivial with ⟨h₁, h₂⟩ | ⟨hit, ⟨rfl, hpart⟩, h₁, h₂⟩
    · exact .inl ⟨by rw [itemScanner, h₁]; rfl, by rw [itemScanner, h₂]; rfl⟩
    · have content (f : Side) : (hit.spell f).groups.head?.join = (hit.groups.head?.join).map (spell f) := by
        cases hg : hit.groups with
        | nil => simp [Script.Hit.spell, hg]
        | cons o os => cases o <;> simp [Script.Hit.spell, hg]
      have scan {f : Side} (h : itemHead.scanner prev (spell f (hit.whole ++ hit.rest)) = some (hit.spell f)) :
          itemScanner prev (spell f (hit.whole ++ hit.rest)) =
            ((hit.groups.head?.join).map (spell f)).map (itemHit (spell f hit.whole) (spell f hit.rest)) := by
        rw [itemScanner_eq, h, ← content]
        rfl
      rw [scan h₁, scan h₂]
      cases hc : hit.groups.head?.join with
      | none => exact .inl ⟨rfl, rfl⟩
      | some content =>
        have part : Part content hit.whole := by
          refine hpart content ?_
          cases hgs : hit.groups with
          | nil => simp [hgs] at hc
          | cons o os =>
            rw [hgs, List.head?_cons, Option.join_some] at hc
            rw [hc]
            exact List.mem_cons_self
        rcases continuation?_spell hit.rest with hc | ⟨indent, body, others, hsemi, hr, hc⟩
        · refine .inr ⟨⟨hit.whole, hit.rest, [some content]⟩, ⟨rfl, by simp [part]⟩, ?_, ?_⟩
          · simp only [Option.map_some, itemHit, hc]; rfl
          · simp only [Option.map_some, itemHit, hc]; rfl
        · refine .inr ⟨⟨hit.whole ++ startLines body, startLines others,
            [some (content ++ startLines body), some (startLines body), some (ofText indent)]⟩,
            ⟨by simp [hr], ?_⟩, ?_, ?_⟩
          · intro k hk
            simp only [List.mem_cons, List.not_mem_nil, Option.some.injEq, or_false] at hk
            rcases hk with rfl | rfl | rfl
            · exact part_append_startLines part body
            · exact .of_slice (List.suffix_append _ _).isInfix
            · exact part_ofText hsemi _
          · simp [itemHit, hc, Script.Hit.spell]
          · simp [itemHit, hc, Script.Hit.spell]
  · rw [itemScanner, head.within prev t ht]
    rfl

namespace Definition

theorem continues_spell {indent : Text} (hi : ';' ∉ indent) (f f' : Side) (l : Script) :
    continues indent (spell f l) = continues indent (spell f' l) := by
  simp only [continues, ← List.isSome_isPrefixOf?_eq_isPrefixOf]
  rcases isPrefixOf?_spell hi l with h | ⟨rest, rfl, h⟩
  · rw [h, h]
    rfl
  · have longer (f : Side) : indent.length < (spell f (ofText indent ++ rest)).length ↔ rest ≠ [] := by
      have := (spell_eq_nil (f := f) (g := rest)).not
      rw [spell_append, spell_ofText, List.length_append, ne_eq, ← this, ← List.length_eq_zero_iff]
      omega
    rw [h, h]
    simp only [Option.isSome_some, Bool.true_and, longer]

theorem bodyOf_spell {indent : Text} (hi : ';' ∉ indent) (g : Script) :
    ∃ body rest, g = body ++ rest ∧ ∀ f, bodyOf indent (spell f g) = (spell f body, spell f rest) := by
  let goesOn (l : Script) : Bool := continues indent (spell Prod.fst l)
  have same (f : Side) : continues indent ∘ spell f = goesOn := funext fun l => continues_spell hi f Prod.fst l
  by_cases ho : (lines g).dropWhile goesOn = []
  · refine ⟨g, [], by simp, fun f => ?_⟩
    rw [bodyOf, lines_spell, List.dropWhile_map, same, ho]
    rfl
  · refine ⟨endLines ((lines g).takeWhile goesOn), joinLines ((lines g).dropWhile goesOn), ?_, fun f => ?_⟩
    · rw [← joinLines_append ho, List.takeWhile_append_dropWhile, joinLines_lines]
    · obtain ⟨l, ls, hl⟩ := List.exists_cons_of_ne_nil ho
      rw [bodyOf, lines_spell, List.dropWhile_map, List.takeWhile_map, same, spell_endLines, spell_joinLines ho, hl]
      rfl

/-- A glyph begins with its face, and all of a token belongs to a term. -/
theorem exists_spell_term (f : Side) (x : Glyph) :
    ∃ u, x.spell f = x.face :: u ∧ ∀ c ∈ u, isTermChar c = true := by
  cases x with
  | char c => exact ⟨[], rfl, by simp⟩
  | token n =>
    obtain ⟨u, hu, hmem⟩ := Token.exists_ofId_eq (f n)
    have hall : ∀ c ∈ Token.alphabet, isTermChar c = true := by decide
    refine ⟨u ++ [';'], hu, fun c hc => ?_⟩
    rcases List.mem_append.1 hc with hc | hc
    · exact hall c (hmem c hc)
    · exact hall c (List.mem_singleton.1 hc ▸ by decide)

theorem below?_spell (strict : Bool) (space : Text) (g : Script) :
    (∀ f, below? strict space (spell f g) = none) ∨
      ∃ gap indent body rest, ';' ∉ indent ∧ g = ofText gap ++ body ++ rest ∧
        ∀ f, below? strict space (spell f g) = some (gap, indent, spell f body, spell f rest) := by
  have hspace : isSpace ';' = false := by decide
  obtain ⟨blank, hb, hall⟩ := exists_ofText_takeWhile hspace g
  let below := g.dropWhile (isSpace ·.face)
  let gap := (blank.reverse.dropWhile (· != '\n')).reverse
  let indent := (blank.reverse.takeWhile (· != '\n')).reverse
  have hblank : gap ++ indent = blank := by
    have := congrArg List.reverse (List.takeWhile_append_dropWhile (p := (· != '\n')) (l := blank.reverse))
    rwa [List.reverse_append, List.reverse_reverse] at this
  have hsemi : ';' ∉ indent := fun h =>
    semicolon_not_mem hspace hall (by rw [← hblank]; exact List.mem_append_right _ h)
  have hsplit : g = ofText blank ++ below := by rw [← hb, List.takeWhile_append_dropWhile]
  have take (f : Side) : (spell f g).takeWhile isSpace = blank := by
    rw [takeWhile_spell (.inl hspace), hb, spell_ofText]
  have drop (f : Side) : (spell f g).dropWhile isSpace = spell f below := dropWhile_spell (.inl hspace) f g
  have empty (f : Side) : (spell f below).isEmpty = below.isEmpty := by
    rw [Bool.eq_iff_iff, List.isEmpty_iff, List.isEmpty_iff, spell_eq_nil]
  have read (f : Side) : below? strict space (spell f g) =
      if below.isEmpty || gap.isEmpty || indent.length < 2 then none
      else if strict && (space.contains '\n' || gap.count '\n' != 1) then none
      else some (gap, indent, bodyOf indent (spell f (ofText indent ++ below))) := by
    simp only [below?, take, drop, empty, spell_append, spell_ofText]
    rfl
  simp only [read]
  split
  · exact .inl fun f => rfl
  · split
    · exact .inl fun f => rfl
    · obtain ⟨body, rest, hbody, hread⟩ := bodyOf_spell hsemi (ofText indent ++ below)
      refine .inr ⟨gap, indent, body, rest, hsemi, ?_, fun f => by rw [hread f]⟩
      rw [List.append_assoc, ← hbody, hsplit, ← hblank]
      simp [ofText]

theorem at?_spell (strict : Bool) (g : Script) :
    (∀ f, at? strict (spell f g) = none) ∨
      ∃ term space gap indent body rest, term ≠ [] ∧ ';' ∉ indent ∧
        g = term ++ ofText space ++ .char ':' :: ofText gap ++ body ++ rest ∧
        ∀ f, at? strict (spell f g) = some ⟨spell f term, space, gap, indent, spell f body, spell f rest⟩ := by
  cases g with
  | nil => exact .inl fun f => rfl
  | cons x g =>
    have hterm : Whole isTermChar := .inr (by decide)
    have hspace : isSpace ';' = false := by decide
    let term := g.takeWhile (isTermChar ·.face)
    let after := g.dropWhile (isTermChar ·.face)
    obtain ⟨space, hs, -⟩ := exists_ofText_takeWhile hspace after
    have start (f : Side) : at? strict (spell f (x :: g)) =
        if isSpace x.face then none else
        let colon := spell f (after.dropWhile (isSpace ·.face))
        if colon.head? = some ':' then (below? strict space colon.tail).map fun b =>
          ⟨spell f (x :: term), space, b.1, b.2.1, b.2.2.1, b.2.2.2⟩
        else none := by
      obtain ⟨u, hu, hall⟩ := exists_spell_term f x
      have htake : (u ++ spell f g).takeWhile isTermChar = u ++ spell f term := by
        rw [List.takeWhile_append_of_pos hall, takeWhile_spell hterm]
      have hdrop : (u ++ spell f g).dropWhile isTermChar = spell f after := by
        rw [List.dropWhile_append_of_pos hall, dropWhile_spell hterm]
      rw [spell_cons, hu, List.cons_append, at?_eq]
      simp only [htake, hdrop, takeWhile_spell (.inl hspace), dropWhile_spell (.inl hspace), hs,
        spell_ofText, spell_cons,
        hu, List.cons_append]
    have hsplit : x :: g = (x :: term) ++ ofText space ++ after.dropWhile (isSpace ·.face) := by
      have h₁ : term ++ after = g := List.takeWhile_append_dropWhile
      have h₂ : ofText space ++ after.dropWhile (isSpace ·.face) = after := by
        rw [← hs, List.takeWhile_append_dropWhile]
      rw [List.append_assoc, h₂, List.cons_append, h₁]
    simp only [start]
    by_cases hx : isSpace x.face = true
    · exact .inl fun f => by rw [if_pos hx]
    · simp only [if_neg hx]
      generalize after.dropWhile (isSpace ·.face) = r at hsplit
      by_cases hr : ∃ colon, r = .char ':' :: colon
      · obtain ⟨colon, rfl⟩ := hr
        rcases below?_spell strict space colon with h | ⟨gap, indent, body, rest, hsemi, rfl, h⟩
        · exact .inl fun f => by simp [h]
        · exact .inr ⟨x :: term, space, gap, indent, body, rest, List.cons_ne_nil x term, hsemi, by simp [hsplit],
            fun f => by
              simp only [spell_cons, Glyph.spell_char, List.singleton_append, List.head?_cons,
                List.tail_cons, h, if_true,
                Option.map_some]⟩
      · refine .inl fun f => ?_
        refine if_neg fun h => hr ?_
        obtain ⟨colon, hcolon⟩ := List.head?_eq_some_iff.1 h
        exact exists_char_of_spell_eq hcolon (by decide)

theorem listOf_spell (g : Script) : ∃ (whole rest : Script) (none : Bool), g = whole ++ rest ∧
    ∀ f, (listOf (spell f g)).1.flatMap Definition.whole = spell f whole ∧ (listOf (spell f g)).2 = spell f rest ∧
      (listOf (spell f g)).1.isEmpty = none := by
  induction hl : g.length using Nat.strongRecOn generalizing g with
  | ind n ih =>
    rcases at?_spell true g with h | ⟨term, space, gap, indent, body, rest, hne, -, rfl, h⟩
    · refine ⟨[], g, true, rfl, fun f => ?_⟩
      rw [listOf]
      split
      · exact ⟨rfl, rfl, rfl⟩
      · next d hd => rw [h f] at hd; contradiction
    · have hlt : rest.length < n := by
        have := List.length_pos_of_ne_nil hne
        rw [← hl]
        simp only [List.length_append, List.length_cons]
        omega
      obtain ⟨whole, rest', _, rfl, hrest⟩ := ih _ hlt rest rfl
      refine ⟨term ++ ofText space ++ .char ':' :: ofText gap ++ body ++ whole, rest', false, by simp, fun f => ?_⟩
      rw [listOf]
      split
      · next hd => rw [h f] at hd; contradiction
      · next d hd =>
        rw [h f] at hd
        obtain rfl := Option.some.inj hd
        obtain ⟨hw, hr, -⟩ := hrest f
        refine ⟨?_, hr, rfl⟩
        simp only [List.flatMap_cons, hw]
        simp [Definition.whole]

end Definition

theorem not_atLineStart {prev : Option Char} {t : Text} (h : Inside prev t) : atLineStart prev = false := by
  obtain ⟨c, hc, rfl⟩ := h.prev
  have hne : c ≠ '\n' := fun h => absurd (h ▸ hc) (by decide)
  simp [atLineStart, hne]

theorem definitionScanner_twin : definitionScanner.Twin fun _ => True := by
  refine ⟨fun prev g _ => ?_, fun prev t ht => ?_⟩
  · by_cases hp : atLineStart prev = true
    · rcases Definition.at?_spell false g with h | ⟨term, space, gap, indent, body, rest, -, hsemi, rfl, h⟩
      · exact .inl ⟨by rw [definitionScanner, if_pos hp, h]; rfl, by rw [definitionScanner, if_pos hp, h]; rfl⟩
      · have hit {f : Side} : definitionScanner prev
            (spell f (term ++ ofText space ++ .char ':' :: ofText gap ++ body ++ rest)) = some (Script.Hit.spell f
              ⟨term ++ ofText space ++ .char ':' :: ofText gap ++ body, rest,
                [some term, some body, some (ofText indent)]⟩) := by
          rw [definitionScanner, if_pos hp, h]
          simp [Script.Hit.spell, Definition.whole]
        refine .inr ⟨_, ⟨rfl, ?_⟩, hit, hit⟩
        intro k hk
        simp only [List.mem_cons, List.not_mem_nil, Option.some.injEq, or_false] at hk
        rcases hk with rfl | rfl | rfl
        · exact .of_slice ⟨[], ofText space ++ .char ':' :: ofText gap ++ body, by simp⟩
        · exact .of_slice (List.suffix_append _ _).isInfix
        · exact part_ofText hsemi _
    · exact .inl ⟨by rw [definitionScanner, if_neg hp], by rw [definitionScanner, if_neg hp]⟩
  · rw [definitionScanner, not_atLineStart ht]
    rfl

theorem definitionListScanner_twin : definitionListScanner.Twin fun _ => True := by
  refine ⟨fun prev g _ => ?_, fun prev t ht => ?_⟩
  · by_cases hp : atLineStart prev = true
    · obtain ⟨whole, rest, none, rfl, h⟩ := Definition.listOf_spell g
      have scan (f : Side) : definitionListScanner prev (spell f (whole ++ rest)) =
          if none then .none else some (Script.Hit.spell f ⟨whole, rest, []⟩) := by
        obtain ⟨hw, hr, hn⟩ := h f
        rw [definitionListScanner, if_pos hp]
        generalize Definition.listOf (spell f (whole ++ rest)) = list at hw hr hn ⊢
        obtain ⟨ds, r⟩ := list
        subst hn hr
        cases ds with
        | nil => rfl
        | cons d ds =>
          simp only at hw
          simp [Script.Hit.spell, ← hw]
      cases none with
      | true => exact .inl ⟨scan _, scan _⟩
      | false => exact .inr ⟨_, ⟨rfl, by simp⟩, scan _, scan _⟩
    · exact .inl ⟨by rw [definitionListScanner, if_neg hp], by rw [definitionListScanner, if_neg hp]⟩
  · rw [definitionListScanner, not_atLineStart ht]
    rfl

end Markup.Listing
