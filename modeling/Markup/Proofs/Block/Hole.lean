import Markup.Proofs.Block.Seam
import Markup.Proofs.Dialect.Twin
import Markup.Proofs.Listing.Hole
import Markup.Proofs.Rule.Hole

/-! # Block rules around a hole

A quote, a title or a heading may have the hole in it, and then its token carries the hole. No other block takes a line
of tokens. -/
namespace Markup
open Script

theorem Bears.breakLines {s : Store} {t : Text} (h : Bears Clean s t) : Bears Clean s (Text.breakLines t) := by
  obtain ⟨a, k, b, hclean, hb⟩ := h
  have hsplit : Block.breakLines (a ++ .token (k, k) :: b) =
      Block.breakLines a ++ .token (k, k) :: Block.breakLines b := by
    rw [Block.breakLines_append, Block.breakLines_cons, if_neg Glyph.noConfusion]
    rfl
  refine ⟨Block.breakLines a, k, Block.breakLines b, hsplit ▸ Block.clean_breakLines hclean,
    Block.known_breakLines hb.left, Block.known_breakLines hb.right, hb.carries, ?_, ?_⟩
  · rw [hb.fst, Block.breakLines_spell, hsplit]
  · rw [hb.snd, Block.breakLines_spell, hsplit]

namespace Block
open Pattern
open Text (Apart Untokened Lined)
open Listing.Definition (Full)
variable {s : Store} {t : Text} {name mark tag : String} {m : Matcher} {f : Match → Program (Option Text)}

/-- A block that has the hole in it is hidden behind a token that carries the hole. -/
theorem keepsHole (hr : Rule.pattern name m f ∈ rules) (hl : (Rule.pattern name m f).HidesLines dialect)
    (inside : ∀ t found s, m.find [] t = some found → Bears Clean s found.whole → ¬ Untokened found.whole →
      found.after.head?.all (· == '\n') = true ∧ ∃ v, Bears Clean s v ∧ f found = some <$> Program.hide v) :
    (Rule.pattern name m f).KeepsHole dialect (Filled False) := by
  refine Rule.keepsHole_of_lines (fun n => rules_track (dialect_twin n) _ hr) (fun k hk => hk.1)
    (fun k i hk _ => ⟨?_, False.elim⟩) hl inside
  exact solid_token i _ _ (hk.1.slice k.before_infix) (hk.1.slice k.after_infix)

theorem keepsHole_of_untokened (hr : Rule.pattern name m f ∈ rules) (hl : (Rule.pattern name m f).HidesLines dialect)
    (hu : ∀ t found, m.find [] t = some found → Untokened found.whole) :
    (Rule.pattern name m f).KeepsHole dialect (Filled False) :=
  keepsHole hr hl fun t found _ hf _ hn => absurd (hu t found hf) hn

theorem bears_of_fenced {text : Text} (hm : ∀ d ∈ mark.toList, d ∉ Token.alphabet)
    (h : Bears Clean s (mark.toList ++ '\n' :: text ++ '\n' :: mark.toList)) : Bears Clean s text := by
  have hnewline : '\n' ∉ Token.alphabet := by decide
  have hfront : ∀ d ∈ mark.toList ++ ['\n'], d ∉ Token.alphabet := by simpa [or_imp, forall_and, hnewline] using hm
  have hback : ∀ d ∈ '\n' :: mark.toList, d ∉ Token.alphabet := by simpa [hnewline] using hm
  have hsplit : mark.toList ++ '\n' :: text ++ '\n' :: mark.toList =
      mark.toList ++ ['\n'] ++ (text ++ '\n' :: mark.toList) := by simp
  exact Bears.drop_back (Bears.drop_front (hsplit ▸ h) hfront) hback

theorem quote_keepsHole : quote.KeepsHole dialect (Filled False) := by
  refine keepsHole (by simp [rules, quote]) quote_hidesLines fun t found s hf hb _ => ?_
  obtain ⟨hl, text, -, hw, hg⟩ := fenced_shape hf
  have h₁ : found.group 1 = some text := by simp [Match.group, hg]
  have htext := bears_of_fenced (by decide) (hw ▸ hb)
  refine ⟨hl.stop, _, (htext.breakLines.block (by decide : ';' ∉ "blockquote".toList)).clean, ?_⟩
  simp only [h₁]
  rfl

theorem forall_underline {eqs : Text} (h : ∀ c ∈ eqs, c = '=') : ∀ c ∈ '\n' :: eqs, c ∉ Token.alphabet := by
  rw [List.forall_mem_cons]
  exact ⟨by decide, fun c hc => h c hc ▸ by decide⟩

theorem title_keepsHole : title.KeepsHole dialect (Filled False) := by
  refine keepsHole (by simp [rules, title]) title_hidesLines fun t found s hf hb _ => ?_
  obtain ⟨hl, title, eqs, -, hall, -, hw, hg⟩ := title_shape hf
  have h₁ : found.group 1 = some title := by simp [Match.group, hg]
  have htitle : Bears Clean s title := (hw ▸ hb).drop_back (forall_underline hall)
  refine ⟨hl.stop, _, ((htitle.element (by decide : ';' ∉ "h1".toList)).clean.element
    (by decide : ';' ∉ "header".toList)).clean, ?_⟩
  simp only [h₁]
  rfl

theorem not_mem_alphabet_of_isSpace {c : Char} (h : isSpace c = true) : c ∉ Token.alphabet := fun hc => by
  have halphabet : ∀ c ∈ Token.alphabet, isSpace c = false := by decide
  simp [halphabet c hc] at h

theorem titleWithSubtitle_keepsHole : titleWithSubtitle.KeepsHole dialect (Filled False) := by
  refine keepsHole (by simp [rules, titleWithSubtitle]) titleWithSubtitle_hidesLines fun t found s hf hb _ => ?_
  obtain ⟨hl, title, eqs, indent, subtitle, -, hall, hspace, -, -, -, hw, hg⟩ := titleWithSubtitle_shape hf
  have h₁ : found.group 1 = some title := by simp [Match.group, hg]
  have h₂ : found.group 2 = some subtitle := by simp [Match.group, hg]
  have hgap : ∀ c ∈ '\n' :: eqs ++ '\n' :: indent, c ∉ Token.alphabet := by
    rw [List.forall_mem_append, List.forall_mem_cons (a := '\n') (l := indent)]
    exact ⟨forall_underline hall, by decide, fun c hc =>
      not_mem_alphabet_of_isSpace (isSpace_of_isIndent (hspace c hc))⟩
  have hsplit : found.whole = title ++ ('\n' :: eqs ++ '\n' :: indent) ++ subtitle := by simp [hw]
  have hboth : Bears Solid s (Html.element "h1" title ++ Html.element "strong" subtitle) := by
    rcases Bears.cut (hsplit ▸ hb) hgap (by simp) with ⟨htitle, hsubtitle⟩ | ⟨htitle, hsubtitle⟩
    · exact (htitle.element (by decide)).append_same (hsubtitle.element (by decide))
    · exact Bears.same_append (htitle.element (by decide)) (hsubtitle.element (by decide))
  refine ⟨hl.stop, _, (hboth.clean.element (by decide : ';' ∉ "header".toList)).clean, ?_⟩
  simp only [h₁, h₂]
  rfl

theorem heading_keepsHole : heading.KeepsHole dialect (Filled False) := by
  refine keepsHole (by simp [rules, heading]) heading_hidesLines fun t found s hf hb _ => ?_
  obtain ⟨hl, hashes, space, text, space', -, hall, -, ⟨hspace, hspace'⟩, hw, hg⟩ := heading_shape hf
  have h₁ : found.group 1 = some hashes := by simp [Match.group, hg]
  have h₂ : found.group 2 = some text := by simp [Match.group, hg]
  have hfront : ∀ c ∈ hashes ++ space, c ∉ Token.alphabet := by
    rw [List.forall_mem_append]
    exact ⟨fun c hc => hall c hc ▸ by decide, fun c hc => not_mem_alphabet_of_isSpace (hspace c hc)⟩
  have htext : Bears Clean s text :=
    ((hw ▸ hb).drop_back fun c hc => not_mem_alphabet_of_isSpace (hspace' c hc)).drop_front hfront
  refine ⟨hl.stop, _, (htext.element (semicolon_not_mem_headingTag hashes.length)).clean, ?_⟩
  simp only [h₁, h₂]
  rfl

theorem horizontalRule_keepsHole : horizontalRule.KeepsHole dialect (Filled False) := by
  refine keepsHole_of_untokened (by simp [rules, horizontalRule]) horizontalRule_hidesLines fun t found hf => ?_
  obtain ⟨-, hl, hall⟩ := horizontalRule_shape hf
  obtain ⟨c, hc⟩ := List.exists_mem_of_length_pos (show 0 < found.whole.length by omega)
  have hline : '\n' ∉ found.whole := fun hbreak => absurd (hall _ hbreak) (by decide)
  have hapart : Apart found.whole := Text.lined_of_line ⟨c, hc, hall c hc ▸ by decide⟩ hline
  exact hapart.untokened

theorem lined_line {W : Text → Prop} (hW : ∀ l u v, W l → W (u ++ l ++ v)) {p : Pattern} (hl : p.inLine false = true)
    (hd : ∀ {prev : Option Char} {w rest : Text} {caps : List (Nat × Text)}, p.Takes prev w rest caps → W w)
    {prev : Option Char} {w rest : Text} {caps : List (Nat × Text)} (h : (p ++ lineBreak).Takes prev w rest caps) :
    Lined W w := by
  obtain ⟨u, v, _, _, rfl, -, hu, hv⟩ := h
  have hline : Lined W u := Text.lined_of_line (hd hu) (newline_not_mem_of_takes hl hu)
  rw [lineBreak, takes_optional, takes_word] at hv
  rcases hv with ⟨rfl, -⟩ | ⟨rfl, -⟩
  · exact hline.append hW Text.lined_newline
  · exact hline.append hW Text.lined_nil

theorem table_keepsHole : table.KeepsHole dialect (Filled False) := by
  refine keepsHole_of_untokened (by simp [rules, table]) table_hidesLines fun t found hf => ?_
  obtain ⟨-, caps, htakes, -⟩ := takes_of_find hf
  obtain ⟨_, _, _, _, hw, -, ⟨_, _, _, _, rfl, -, ⟨-, rfl, -⟩, _, _, _, _, rfl, -, hrow, hmore⟩, -, rfl, -⟩ := htakes
  have hline {prev : Option Char} {w rest : Text} {caps : List (Nat × Text)}
      (h : (tableRow ++ lineBreak).Takes prev w rest caps) : Lined (∃ d ∈ ·, d ∉ Token.alphabet) w :=
    lined_line Text.exists_not_mem_alphabet (by decide) tableRow_takes h
  have hothers := Text.lined_of_repeated Text.exists_not_mem_alphabet (fun _ _ _ _ => hline) hmore
  have hapart : Apart _ := (hline hrow).append Text.exists_not_mem_alphabet hothers
  rw [hw]
  simpa using hapart.untokened

theorem full_of_indent {w : Text} (h : ∃ d ∈ w, isIndent d = true) : Full w := by
  obtain ⟨d, hd, hindent⟩ := h
  exact ⟨d, hd, .inl (isSpace_of_isIndent hindent)⟩

theorem lined_item {mark : Pattern} (hl : (itemLine mark).inLine false = true) {prev : Option Char} {w rest : Text}
    {caps : List (Nat × Text)} (h : (itemLine mark ++ lineBreak).Takes prev w rest caps) : Lined Full w :=
  lined_line Full.spread hl (fun h => full_of_indent (itemLine_indent h)) h

theorem lined_moreItems {mark : Pattern} (hl : (itemLine mark).inLine false = true) {prev : Option Char} {w rest : Text}
    {caps : List (Nat × Text)} (h : (moreItems mark).Takes prev w rest caps) : Lined Full w := by
  obtain ⟨_, _, _, _, rfl, -, hmore, -, rfl, -⟩ := h
  rw [List.append_nil]
  refine Text.lined_of_repeated Full.spread (fun _ _ _ _ h => ?_) hmore
  rcases h with h | h
  · exact lined_item hl h
  · exact lined_line Full.spread (by decide) (fun h => full_of_indent (continuationLine_indent h)) h

/-- Every line of a list holds white space, or more than a colon. -/
theorem lined_unorderedList {t : Text} {found : Match} (h : unorderedListPattern.matcher.find [] t = some found) :
    Lined Full found.whole := by
  obtain ⟨-, caps, htakes, -⟩ := takes_of_find h
  obtain ⟨_, _, _, _, hw, -, hfirst, hmore⟩ := htakes
  rw [hw]
  exact (lined_item (by decide) hfirst).append Full.spread (lined_moreItems (by decide) hmore)

theorem lined_orderedList {t : Text} {found : Match} (h : orderedListPattern.matcher.find [] t = some found) :
    Lined Full found.whole := by
  obtain ⟨-, caps, htakes, -⟩ := takes_of_find h
  obtain ⟨_, _, _, _, hw, -, ⟨u, _, _, _, rfl, -, hfirst, rfl, -⟩, hmore⟩ := htakes
  have hline : Lined Full u :=
    Text.lined_of_line (full_of_indent (itemLine_indent hfirst)) (newline_not_mem_of_takes (by decide) hfirst)
  rw [hw]
  exact (hline.append Full.spread Text.lined_newline).append Full.spread (lined_moreItems (by decide) hmore)

theorem untokened_of_lined {t : Text} (h : Lined Full t) : Untokened t :=
  Text.Apart.untokened (h.imp fun _ hl => hl.exists_not_mem)

theorem unorderedList_keepsHole : unorderedList.KeepsHole dialect (Filled False) :=
  keepsHole_of_untokened (List.mem_of_getElem? (i := 6) rfl) unorderedList_hidesLines fun _ _ hf =>
    untokened_of_lined (lined_unorderedList hf)

theorem orderedList_keepsHole : orderedList.KeepsHole dialect (Filled False) :=
  keepsHole_of_untokened (List.mem_of_getElem? (i := 7) rfl) orderedList_hidesLines fun _ _ hf =>
    untokened_of_lined (lined_orderedList hf)

theorem definitionList_keepsHole : definitionList.KeepsHole dialect (Filled False) :=
  keepsHole_of_untokened (List.mem_of_getElem? (i := 8) rfl) definitionList_hidesLines fun _ _ hf =>
    untokened_of_lined (Listing.lined_definitionList hf)

theorem paragraph_keepsHole : paragraph.KeepsHole dialect (Filled False) := by
  refine keepsHole_of_untokened (by simp [rules, paragraph]) paragraph_hidesLines fun t found hf n ns hmem => ?_
  obtain ⟨-, prose, others, hne, hall, hlines, hw, -⟩ := paragraph_shape hf
  have hbreak : ∀ l ∈ prose, '\n' ∉ l := fun l hl =>
    Text.not_mem_of_mem_lines (hlines ▸ List.mem_append_left others hl)
  rw [hw, Text.lines_joinLines hne hbreak] at hmem
  exact Bool.false_ne_true ((isProse_tokens (n :: ns)).symm.trans (hall _ hmem))

theorem rules_keepHole : ∀ r ∈ rules, r.KeepsHole dialect (Filled False) := by
  simp only [rules, List.forall_mem_cons]
  exact ⟨quote_keepsHole, horizontalRule_keepsHole, titleWithSubtitle_keepsHole, title_keepsHole, heading_keepsHole,
    table_keepsHole, unorderedList_keepsHole, orderedList_keepsHole, definitionList_keepsHole, paragraph_keepsHole,
    fun r hr => absurd hr List.not_mem_nil⟩

end Block
end Markup
