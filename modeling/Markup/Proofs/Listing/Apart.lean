import Markup.Proofs.Listing.Described

/-! # A list and its definitions

A list is a run of strict definitions. Cut out of its text it is read once more, one definition after the other, and by
the scanner that is not strict. That scanner goes the same way: a definition that is strict is read the same without the
strictness, and its body ends where it did, since what follows in the list begins with a term and not with
white space. -/
namespace Markup

/-- From a position on the matches follow one another up to the end of the text: each is found where the last
one ended. -/
inductive Matcher.Tiles (m : Matcher) (t : Text) : Nat → List Match → Prop
  | done : Tiles m t t.bytes []
  | step {pos : Nat} {f : Match} {fs : List Match} (found : m.findAt t pos = .ok (some f)) (here : f.start = pos)
    (rest : Tiles m t f.stop fs) : Tiles m t pos (f :: fs)

namespace Listing
open Definition (continues bodyOf below?)
open Text (Starts endLines)
variable {list : Bool} {t u v w x more : Text} {d : Definition} {ds : List Definition} {start : Nat} {m : Match}

/-- A body takes a text whose lines all continue it, or whole lines that do. -/
theorem bodyOf_cases (w x : Text) : bodyOf w x = (x, []) ∧ (∀ l ∈ x.lines, continues w l = true) ∨
    ∃ ls rest, bodyOf w x = (endLines ls, rest) ∧ (∀ l ∈ ls, continues w l = true) ∧ ∀ l ∈ ls, '\n' ∉ l := by
  unfold bodyOf
  split
  · next hall => exact .inl ⟨rfl, List.dropWhile_eq_nil_iff.1 hall⟩
  · refine .inr ⟨_, _, rfl, List.all_eq_true.1 List.all_takeWhile, ?_⟩
    intro l hl
    exact Text.not_mem_of_mem_lines (List.takeWhile_subset _ hl)

theorem continues_eq_false (hw : ∀ a ∈ w, isIndent a = true) (hne : w ≠ [])
    (hmore : ∀ a ∈ more.head?, isSpace a = false) :
    continues w more.line = false := by
  obtain ⟨b, w, rfl⟩ := List.exists_cons_of_ne_nil hne
  have hb : isSpace b = true := isSpace_of_isIndent (hw b List.mem_cons_self)
  have hprefix : (b :: w).isPrefixOf more = false := by
    cases more with
    | nil => rfl
    | cons a more =>
      have hba : (b == a) = false := by
        rw [beq_eq_false_iff_ne]
        rintro rfl
        exact Bool.false_ne_true ((hmore b rfl).symm.trans hb)
      rw [List.isPrefixOf, hba, Bool.false_and]
  rw [continues, Text.isPrefixOf_line (newline_not_mem_of_isIndent hw), hprefix, Bool.false_and]

/-- A body is read the same with other text behind it, if that text does not go on with it. -/
theorem bodyOf_again (hw : ∀ a ∈ w, isIndent a = true) (hne : w ≠ []) (hmore : ∀ a ∈ more.head?, isSpace a = false)
    (hend : (bodyOf w x).2 = [] → more = []) : bodyOf w ((bodyOf w x).1 ++ more) = ((bodyOf w x).1, more) := by
  obtain ⟨hbody, hall⟩ | ⟨ls, rest, hbody, hls, hline⟩ := bodyOf_cases w x
  · rw [hbody] at hend ⊢
    rw [hend rfl, List.append_nil]
    exact bodyOf_of_continues hall
  · rw [hbody]
    exact bodyOf_endLines hls hline (continues_eq_false hw hne hmore)

theorem exists_bodyOf {c : Char} (hw : ∀ a ∈ w, isIndent a = true) (hc : isSpace c = false) (rest : Text) :
    ∃ y, (bodyOf w (w ++ c :: rest)).1 = w ++ c :: y := by
  have hline : '\n' ∉ w := newline_not_mem_of_isIndent hw
  have hfirst : Text.line (c :: rest) = c :: Text.line rest := by
    have hne : c ≠ '\n' := by
      rintro rfl
      exact Bool.noConfusion hc
    rw [Text.line, List.takeWhile_cons_of_pos (by simpa using hne)]
    rfl
  have hne : Text.line (c :: rest) ≠ [] := hfirst ▸ List.cons_ne_nil c _
  have hcontinues := continues_line hline hne
  rw [fst_bodyOf, if_pos hcontinues, Text.line_append_of_not_mem hline, hfirst, List.append_assoc, List.append_assoc]
  exact ⟨_, rfl⟩

/-- A strict definition is read without the strictness, and with other text behind it, as it was. -/
theorem at?_again (hat : Definition.at? list v = some d) (hmore : ∀ a ∈ more.head?, isSpace a = false)
    (hend : d.rest = [] → more = []) : Definition.at? false (d.whole ++ more) = some { d with rest := more } := by
  rw [at?_eq_head] at hat
  obtain ⟨h, hh, hat⟩ := Option.bind_eq_some_iff.1 hat
  obtain ⟨b, hb, rfl⟩ := Option.map_eq_some_iff.1 hat
  obtain ⟨⟨-, hterm, hspace⟩, hgreedy⟩ := reads_of_headOf hh
  obtain ⟨gap, indent, c, rest, hafter, hgap, hindent, hwide, hc, -⟩ :=
    exists_parts_of_below? (hb ▸ Option.some_ne_none b)
  have hhead (y : Text) : ∀ a ∈ (c :: y).head?, isSpace a = false := by
    rintro a ⟨⟩
    exact hc
  rw [hafter, below?_of_parts hgap hindent (hhead rest) (List.cons_ne_nil c rest) hwide] at hb
  split at hb
  · contradiction
  obtain rfl := Option.some.inj hb
  have hne : indent ≠ [] := List.ne_nil_of_length_pos (Nat.lt_of_lt_of_le Nat.two_pos hwide)
  have hbody := bodyOf_again hindent hne hmore hend
  obtain ⟨y, hy⟩ := exists_bodyOf hindent hc rest
  have hreads : Head.Reads ⟨h.term, h.space, gap ++ '\n' :: indent ++ c :: (y ++ more)⟩
      (h.term ++ h.space ++ ':' :: (gap ++ ['\n']) ++ (bodyOf indent (indent ++ c :: rest)).1 ++ more) := by
    refine ⟨?_, hterm, hspace⟩
    rw [hy]
    simp [Head.whole]
  have hstop : ∀ a ∈ (h.space ++ ':' :: (gap ++ '\n' :: indent ++ c :: (y ++ more))).head?,
      Definition.isTermChar a = false := by
    simpa [List.head?_append, Option.any_eq_false] using hgreedy
  have hbelow : below? false h.space (gap ++ '\n' :: indent ++ c :: (y ++ more)) =
      some (gap ++ ['\n'], indent, (bodyOf indent (indent ++ c :: rest)).1, more) := by
    rw [below?_of_parts hgap hindent (hhead (y ++ more)) (List.cons_ne_nil c _) hwide, Bool.false_and,
      if_neg Bool.false_ne_true, ← List.cons_append, ← List.append_assoc indent, ← hy, hbody]
  rw [Definition.whole, at?_eq_head, headOf_of_reads hreads hstop, Option.bind_some]
  exact congrArg (Option.map _) hbelow

theorem isSpace_head_of_at? (hat : Definition.at? list v = some d) (y : Text) :
    ∀ a ∈ (d.whole ++ y).head?, isSpace a = false := by
  rw [at?_eq_head] at hat
  obtain ⟨h, hh, hat⟩ := Option.bind_eq_some_iff.1 hat
  obtain ⟨b, -, rfl⟩ := Option.map_eq_some_iff.1 hat
  obtain ⟨⟨-, ⟨c, w, hterm, hc, -⟩, -⟩, -⟩ := reads_of_headOf hh
  rw [Definition.whole, hterm]
  rintro a ⟨⟩
  exact hc

/-- What a match of the scanner for one definition says about it. -/
def Definition.parts (d : Definition) : Text × List (Option Text) :=
  (d.whole, [some d.term, some d.body, some d.indent])

/-- At the start of a line the scanner for one definition finds what the list has there. -/
theorem findAt_again (hu : Starts u) (hat : Definition.at? list v = some d)
    (hmore : ∀ a ∈ more.head?, isSpace a = false)
    (hend : d.rest = [] → more = []) : definitionMatcher.findAt (u ++ (d.whole ++ more)) u.bytes =
      .ok (some ⟨u.reverse, d.whole, more, [some d.term, some d.body, some d.indent]⟩) := by
  have hhit : definitionScanner u.reverse.head? (d.whole ++ more) =
      some ⟨d.whole, more, [some d.term, some d.body, some d.indent]⟩ := by
    have hline : atLineStart u.reverse.head? = true := by
      rw [List.head?_reverse]
      exact hu
    rw [definitionScanner, if_pos hline, at?_again hat hmore hend]
    rfl
  rw [Matcher.findAt_of_eq definitionMatcher rfl rfl]
  exact congrArg Except.ok (Scanner.search_of_hit hhit)

/-- A list is empty, or it begins with the definition at the beginning of the text. -/
theorem head?_of_listOf (v : Text) :
    (∀ a ∈ ((Definition.listOf v).1.flatMap Definition.whole).head?, isSpace a = false) ∧
    (v = [] → (Definition.listOf v).1.flatMap Definition.whole = []) := by
  rw [Definition.listOf]
  split
  · exact ⟨by simp, fun _ => rfl⟩
  · next d hat =>
    refine ⟨isSpace_head_of_at? hat _, ?_⟩
    rintro rfl
    contradiction

/-- The definitions of a list follow one another up to its end. -/
theorem tiles_listOf (hu : v = [] ∨ Starts u) : ∃ fs, definitionMatcher.Tiles
    (u ++ (Definition.listOf v).1.flatMap Definition.whole) u.bytes fs ∧
      fs.map (fun f => (f.whole, f.groups)) = (Definition.listOf v).1.map Definition.parts := by
  fun_induction Definition.listOf v generalizing u with
  | case1 v hat => exact ⟨[], by simpa using Matcher.Tiles.done, rfl⟩
  | case2 v d hat ds rest hlist ih =>
    have hv : v ≠ [] := by
      rintro rfl
      contradiction
    have hne : d.whole ≠ [] := by simp [Definition.whole]
    obtain ⟨fs, htiles, hparts⟩ := ih (u := u ++ d.whole)
      ((Definition.starts_of_at? hat).imp_right fun hstart => hstart.append_left hne u)
    have hmore := head?_of_listOf d.rest
    rw [hlist] at hmore
    have hfound := findAt_again (hu.resolve_left hv) hat hmore.1 hmore.2
    rw [hlist] at htiles hparts
    refine ⟨⟨u.reverse, d.whole, ds.flatMap Definition.whole, _⟩ :: fs, .step hfound ?_ ?_, ?_⟩
    · rw [Match.start_eq]
      exact Text.bytes_reverse u
    · rw [Match.stop_eq, Match.start_eq, Text.bytes_reverse, ← Text.bytes_append, List.flatMap_cons,
        ← List.append_assoc]
      exact htiles
    · exact congrArg (d.parts :: ·) hparts

/-- A list that is found, cut out of the text and read on its own by the scanner for one definition, falls into the
definitions that the list was found to have: one after the other from its beginning to its end, with their terms, bodies
and indents. -/
theorem list_is_tiled_by_its_definitions (h : definitionListMatcher.findAt t start = .ok (some m)) :
    ∃ ds block fs, Definition.listOf (m.whole ++ m.after) = (ds, m.after) ∧ ds ≠ [] ∧
      t.slice m.start m.stop = .ok block ∧ definitionMatcher.Tiles block 0 fs ∧
      fs.map (fun f => (f.whole, f.groups)) = ds.map Definition.parts := by
  have hlawful : definitionListMatcher.Lawful := Matcher.lawful_ofScanner definitionListScanner_lawful _
  have htext : m.text = t := Matcher.text_of_findAt hlawful h
  obtain ⟨u, v, -, -, hfind⟩ := Matcher.exists_find_of_findAt h
  obtain ⟨-, d, ds, rest, hlist, hhit⟩ :=
    definitionListScanner_eq_some (definitionListScanner_lawful.hit_of_search hfind)
  obtain ⟨hwhole, hafter, -⟩ := Hit.mk.injEq .. |>.mp hhit
  obtain ⟨fs, htiles, hparts⟩ := tiles_listOf (u := []) (v := m.whole ++ m.after) (.inr rfl)
  rw [hlist, List.nil_append] at htiles
  rw [hlist] at hparts
  refine ⟨d :: ds, m.whole, fs, by rw [hlist, hafter], List.cons_ne_nil d ds, ?_, ?_, hparts⟩
  · rw [← htext]
    exact m.covers_whole.slice
  · rw [hwhole]
    exact htiles

/-- Two definitions with different indents. The third one has its colon on the next line, so the list ends before it. -/
theorem list_of_two_is_tiled :
    (∃ m, definitionListMatcher.findAt "x\na:\n  b\nc:\n\u3000\u3000d\ne\n:\n  f".toList 2 = .ok (some m) ∧
      m.whole = "a:\n  b\nc:\n\u3000\u3000d\n".toList) ∧
    ∃ fs, definitionMatcher.Tiles "a:\n  b\nc:\n\u3000\u3000d\n".toList 0 fs ∧ fs.map (fun f => (f.whole, f.groups)) =
      [("a:\n  b\n".toList, [some "a".toList, some "  b\n".toList, some "  ".toList]),
        ("c:\n\u3000\u3000d\n".toList,
        [some "c".toList, some "\u3000\u3000d\n".toList, some "\u3000\u3000".toList])] := by
  have hhit : definitionListScanner (some '\n') "a:\n  b\nc:\n\u3000\u3000d\ne\n:\n  f".toList =
      some ⟨"a:\n  b\nc:\n\u3000\u3000d\n".toList, "e\n:\n  f".toList, []⟩ := by
    decide +kernel
  have hfind := definitionListMatcher.findAt_of_eq (u := "x\n".toList)
    (v := "a:\n  b\nc:\n\u3000\u3000d\ne\n:\n  f".toList) rfl (rfl : _ = 2)
  have hfound := hfind.trans (congrArg Except.ok (Scanner.search_of_hit hhit))
  obtain ⟨ds, block, fs, hlist, -, hblock, htiles, hparts⟩ := list_is_tiled_by_its_definitions hfound
  have hdefinitions : (Definition.listOf "a:\n  b\nc:\n\u3000\u3000d\ne\n:\n  f".toList).1.map Definition.parts =
      [("a:\n  b\n".toList, [some "a".toList, some "  b\n".toList, some "  ".toList]),
        ("c:\n\u3000\u3000d\n".toList,
          [some "c".toList, some "\u3000\u3000d\n".toList, some "\u3000\u3000".toList])] := by
    decide +kernel
  have hslice := Text.slice_of_eq (u := "x\n".toList) (w := "a:\n  b\nc:\n\u3000\u3000d\n".toList)
    (v := "e\n:\n  f".toList) rfl (rfl : _ = 2) (rfl : _ = 20)
  obtain rfl := Except.ok.inj (hslice.symm.trans hblock)
  refine ⟨⟨_, hfound, rfl⟩, fs, htiles, hparts.trans ?_⟩
  rw [← hdefinitions]
  exact congrArg (fun r => r.1.map Definition.parts) hlist.symm

end Listing
end Markup
