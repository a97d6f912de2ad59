import Markup.Block.Paragraph
import Markup.Document
import Markup.Proofs.Pattern.Takes
import Markup.Proofs.Text.Lines
import Markup.Proofs.Token.Written

/-! # Shapes of blocks

What a match of each block rule looks like, which of its parts are its groups, and that it stands between
line breaks. -/
namespace Markup.Block
open Pattern
variable {behind t : Text} {m : Match}

/-- The match begins at the start of a line and ends at the end of one. -/
structure OnLines (m : Match) : Prop where
  start : m.behind.head?.all (· == '\n') = true
  stop : m.after.head?.all (· == '\n') = true

theorem fenced_takes {mark : String} {prev : Option Char} {u rest : Text} {caps : List (Nat × Text)}
    (h : (fenced mark).Takes prev u rest caps) : prev.all (· == '\n') = true ∧ rest.head?.all (· == '\n') = true ∧
      ∃ text, text ≠ [] ∧ u = mark.toList ++ '\n' :: text ++ '\n' :: mark.toList ∧ caps = [(1, text)] := by
  simp only [fenced, takes_append, takes_group, takes_word, takes_reluctant, takes_lineStart, takes_lineEnd] at h
  obtain ⟨_, _, _, _, hw, rfl,
    ⟨_, _, _, _, rfl, rfl, ⟨_, _, _, _, rfl, rfl, ⟨_, text, _, _, rfl, rfl, ⟨_, _, _, _, rfl, rfl,
    ⟨_, _, _, _, rfl, rfl, ⟨hs, rfl, rfl⟩, rfl, rfl⟩, rfl, rfl⟩, _, ⟨-, hl, rfl⟩, rfl⟩, rfl, rfl⟩, rfl, rfl⟩, he, rfl,
    rfl⟩ := h
  exact ⟨hs, he, text, List.ne_nil_of_length_pos hl, by rw [hw]; simp, rfl⟩

theorem fenced_shape {mark : String} (h : (fenced mark).matcher.find behind t = some m) :
    OnLines m ∧ ∃ text, text ≠ [] ∧ m.whole = mark.toList ++ '\n' :: text ++ '\n' :: mark.toList ∧
      m.groups = [some text] := by
  obtain ⟨caps, ht, hg⟩ := takes_of_match h
  obtain ⟨hs, he, text, hne, hw, rfl⟩ := fenced_takes ht
  exact ⟨⟨hs, he⟩, text, hne, hw, hg⟩

theorem horizontalRule_shape
    (h : (matcher (lineStart ++ group 1 (atLeast 3 (· == '-')) ++ lineEnd)).find behind t = some m) :
    OnLines m ∧ 3 ≤ m.whole.length ∧ ∀ c ∈ m.whole, c = '-' := by
  obtain ⟨caps, ht, -⟩ := takes_of_match h
  simp only [takes_append, takes_group, takes_atLeast, takes_lineStart, takes_lineEnd] at ht
  obtain ⟨_, _, _, _, hw, rfl, ⟨_, dashes, _, _, rfl, rfl, ⟨hs, rfl, rfl⟩, _, ⟨ha, hl, rfl⟩, rfl⟩, he, rfl, rfl⟩ := ht
  rw [List.append_nil, List.nil_append] at hw
  exact ⟨⟨hs, he⟩, hw ▸ hl, fun c hc => beq_iff_eq.1 (ha c (hw ▸ hc))⟩

theorem underline_takes {prev : Option Char} {u rest : Text} {caps : List (Nat × Text)}
    (h : underline.Takes prev u rest caps) :
    (∃ eqs : Text, 3 ≤ eqs.length ∧ (∀ c ∈ eqs, c = '=') ∧ u = '\n' :: eqs) ∧ caps = [] := by
  simp only [underline, takes_append, takes_word, takes_atLeast] at h
  obtain ⟨_, eqs, _, _, rfl, rfl, ⟨rfl, rfl⟩, ha, hl, rfl⟩ := h
  exact ⟨⟨eqs, hl, fun c hc => beq_iff_eq.1 (ha c hc), rfl⟩, rfl⟩

theorem titleWithSubtitle_shape (h : titleWithSubtitlePattern.matcher.find behind t = some m) :
    OnLines m ∧ ∃ title eqs indent subtitle : Text, 3 ≤ eqs.length ∧ (∀ c ∈ eqs, c = '=') ∧
      (∀ c ∈ indent, isIndent c = true) ∧ title ≠ [] ∧ subtitle ≠ [] ∧ (∀ c ∈ subtitle, c ≠ '\n') ∧
      m.whole = title ++ '\n' :: eqs ++ '\n' :: indent ++ subtitle ∧
      m.groups = [some title, some subtitle] := by
  obtain ⟨caps, ht, hg⟩ := takes_of_match h
  simp only [titleWithSubtitlePattern, takes_append, takes_group, takes_word, takes_atLeast, takes_lineStart,
    takes_lineEnd] at ht
  obtain ⟨_, _, _, _, hw, rfl,
    ⟨_, subtitle, _, _, rfl, rfl, ⟨_, indent, _, _, rfl, rfl, ⟨_, _, _, _, rfl, rfl, ⟨_, _, _, _,
    rfl, rfl, ⟨_, title, _, _, rfl, rfl, ⟨hs, rfl, rfl⟩, _, ⟨-, hl, rfl⟩, rfl⟩, hu⟩, rfl, rfl⟩, hi, -, rfl⟩, _,
    ⟨hb, hl', rfl⟩, rfl⟩, he, rfl, rfl⟩ := ht
  obtain ⟨⟨eqs, hle, ha, rfl⟩, rfl⟩ := underline_takes hu
  refine ⟨⟨hs, he⟩, title, eqs, indent, subtitle, hle, ha, hi, List.ne_nil_of_length_pos hl,
    List.ne_nil_of_length_pos hl', fun c hc => by simpa [inLine] using hb c hc, ?_, hg⟩
  rw [hw]
  simp

theorem title_shape (h : titlePattern.matcher.find behind t = some m) :
    OnLines m ∧ ∃ title eqs : Text, 3 ≤ eqs.length ∧ (∀ c ∈ eqs, c = '=') ∧ title ≠ [] ∧
      m.whole = title ++ '\n' :: eqs ∧ m.groups = [some title] := by
  obtain ⟨caps, ht, hg⟩ := takes_of_match h
  simp only [titlePattern, takes_append, takes_group, takes_atLeast, takes_lineStart, takes_lineEnd] at ht
  obtain ⟨_, _, _, _, hw, rfl,
    ⟨_, _, _, _, rfl, rfl, ⟨_, title, _, _, rfl, rfl, ⟨hs, rfl, rfl⟩, _, ⟨-, hl, rfl⟩, rfl⟩, hu⟩,
    he, rfl, rfl⟩ := ht
  obtain ⟨⟨eqs, hle, ha, rfl⟩, rfl⟩ := underline_takes hu
  exact ⟨⟨hs, he⟩, title, eqs, hle, ha, List.ne_nil_of_length_pos hl, by rw [hw]; simp, hg⟩

theorem heading_shape (h : headingPattern.matcher.find behind t = some m) :
    OnLines m ∧ ∃ hashes space text space' : Text, hashes ≠ [] ∧ (∀ c ∈ hashes, c = '#') ∧ text ≠ [] ∧
      ((∀ c ∈ space, isSpace c = true) ∧ ∀ c ∈ space', isSpace c = true) ∧ m.whole = hashes ++ space ++ text ++ space' ∧
      m.groups = [some hashes, some text] := by
  obtain ⟨caps, ht, hg⟩ := takes_of_match h
  simp only [headingPattern, takes_append, takes_atLeast, takes_reluctant, Takes] at ht
  obtain ⟨_, _, _, _, hw, rfl,
    ⟨_, space', _, _, rfl, rfl, ⟨_, text, _, _, rfl, rfl, ⟨_, space, _, _, rfl, rfl, ⟨_, hashes, _,
    _, rfl, rfl, ⟨hs, rfl, rfl⟩, _, ⟨ha, hl, -, rfl⟩, rfl⟩, hsp, -, rfl⟩, _, ⟨-, hl', rfl⟩, rfl⟩, hsp', -, rfl⟩,
    he, rfl,
    rfl⟩ := ht
  refine ⟨⟨hs, he⟩, hashes, space, text, space', List.ne_nil_of_length_pos hl, fun c hc => beq_iff_eq.1 (ha c hc),
    List.ne_nil_of_length_pos hl', ⟨hsp, hsp'⟩, ?_, hg⟩
  simpa using hw

theorem table_shape (h : tablePattern.matcher.find behind t = some m) : OnLines m ∧ ∃ rest, m.whole = '|' :: rest := by
  obtain ⟨caps, ht, -⟩ := takes_of_match h
  simp only [tablePattern, plus, takes_append, takes_word, Takes] at ht
  obtain ⟨_, _, _, _, hw, -,
    ⟨_, _, _, _, rfl, -, ⟨hs, rfl, -⟩, ⟨_, _, _, _, rfl, -, ⟨_, _, _, _, rfl, -, ⟨_, _, _, _, rfl, -,
    ⟨_, _, _, _, rfl, -, ⟨_, _, _, _, rfl, -, ⟨rfl, -⟩, -⟩, -⟩, -⟩, -⟩, -⟩⟩, he, rfl, -⟩ := ht
  exact ⟨⟨hs, he⟩, _, hw⟩

/-- A list begins with the mark of its first item and goes on to the end of a line. -/
theorem list_takes {mark next : Pattern} {prev : Option Char} {w rest : Text} {caps : List (Nat × Text)}
    (h : (itemLine mark ++ next ++ moreItems mark).Takes prev w rest caps) : prev.all (· == '\n') = true ∧
      rest.head?.all (· == '\n') = true ∧ ∃ prev u v more caps, w = u ++ v ∧ mark.Takes prev u more caps := by
  simp only [itemLine, moreItems, takes_append, takes_lineStart, takes_lineEnd] at h
  obtain ⟨_, _, _, _, hw, -,
    ⟨_, _, _, _, rfl, -, ⟨_, _, _, _, rfl, -, ⟨_, _, _, _, rfl, -, ⟨_, _, _, _, rfl, -, ⟨hs, rfl, -⟩,
    hm⟩, -⟩, -⟩, -⟩, _, _, _, _, rfl, -, -, he, rfl, -⟩ := h
  simp only [List.nil_append, List.append_assoc] at hw
  exact ⟨hs, he, _, _, _, _, _, hw, hm⟩

theorem list_shape {mark next : Pattern}
    (h : (itemLine mark ++ next ++ moreItems mark).matcher.find behind t = some m) :
    OnLines m ∧ ∃ prev u rest more caps, m.whole = u ++ rest ∧ mark.Takes prev u more caps := by
  obtain ⟨caps, ht, -⟩ := takes_of_match h
  obtain ⟨hs, he, hm⟩ := list_takes ht
  exact ⟨⟨hs, he⟩, hm⟩

theorem unorderedList_shape (h : unorderedListPattern.matcher.find behind t = some m) :
    OnLines m ∧ ∃ rest, m.whole = '*' :: rest := by
  obtain ⟨hl, _, _, rest, _, _, hw, hm⟩ := list_shape h
  rw [bullet, takes_word] at hm
  exact ⟨hl, rest, by rw [hw, hm.1]; rfl⟩

theorem orderedList_shape (h : orderedListPattern.matcher.find behind t = some m) :
    OnLines m ∧ ∃ digits rest : Text, digits ≠ [] ∧ (∀ d ∈ digits, d.isDigit = true) ∧
      m.whole = digits ++ '.' :: rest := by
  obtain ⟨hl, _, _, rest, _, _, hw, hm⟩ := list_shape h
  simp only [ordinal, takes_append, takes_atLeast, takes_word] at hm
  obtain ⟨digits, _, _, _, rfl, -, ⟨hd, hn, -⟩, rfl, -⟩ := hm
  exact ⟨hl, digits, rest, List.ne_nil_of_length_pos hn, hd, by rw [hw]; simp⟩

theorem paragraphScanner_eq_some {prev : Option Char} {t : Text} {h : Hit} (hs : paragraphScanner prev t = some h) :
    prev.all (· == '\n') = true ∧ isProse t.line = true ∧
      h = ⟨Text.joinLines (t.lines.takeWhile isProse), Text.startLines (t.lines.dropWhile isProse), []⟩ := by
  rw [paragraphScanner] at hs
  split at hs
  · next hc =>
    rw [Bool.and_eq_true] at hc
    exact ⟨hc.1, hc.2, (Option.some.inj hs).symm⟩
  · contradiction

theorem isProse_ofId (n : Nat) : isProse (Token.ofId n) = false := by
  have h := Token.leads_ofId n []
  rw [List.append_nil] at h
  simp [isProse, h]

theorem takeWhile_prose_ne_nil {t : Text} (h : isProse t.line = true) : t.lines.takeWhile isProse ≠ [] := by
  obtain ⟨ls, hl⟩ := Text.exists_lines_eq_line_cons t
  simp [hl, h]

theorem paragraphScanner_lawful : paragraphScanner.Lawful := fun _ t h hs => by
  obtain ⟨-, hp, rfl⟩ := paragraphScanner_eq_some hs
  change Text.joinLines _ ++ Text.startLines _ = t
  rw [Text.joinLines_append_startLines (takeWhile_prose_ne_nil hp), List.takeWhile_append_dropWhile,
    Text.joinLines_lines]

theorem paragraph_shape (h : paragraphMatcher.find behind t = some m) :
    OnLines m ∧ ∃ prose others : List Text, prose ≠ [] ∧ (∀ l ∈ prose, isProse l = true) ∧
      (m.whole ++ m.after).lines = prose ++ others ∧ m.whole = Text.joinLines prose ∧
      m.after = Text.startLines others ∧ (∀ l ∈ others.head?, isProse l = false) ∧ m.groups = [] := by
  obtain ⟨hs, hp, he⟩ := paragraphScanner_eq_some (paragraphScanner_lawful.hit_of_search h)
  obtain ⟨hw, ha, hg⟩ := Hit.mk.injEq .. |>.mp he
  refine ⟨⟨hs, ?_⟩, _, _, takeWhile_prose_ne_nil hp, fun l hl => List.all_eq_true.1 List.all_takeWhile l hl,
    List.takeWhile_append_dropWhile.symm, hw, ha, fun l hl => ?_, hg⟩
  · rw [ha]
    cases (m.whole ++ m.after).lines.dropWhile isProse with
    | nil => rfl
    | cons l ls => rfl
  · have := List.head?_dropWhile_not isProse (m.whole ++ m.after).lines
    rw [Option.mem_def.1 hl] at this
    exact this

end Markup.Block
