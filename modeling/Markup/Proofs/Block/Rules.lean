import Markup.Proofs.Block.Twin
import Markup.Proofs.Dialect.Ends
import Markup.Proofs.Listing.Twin
import Markup.Proofs.Rule.Twin

/-! # Block rules over texts that mean the same -/
namespace Markup.Block
open Pattern Program Script
variable {s₁ s₂ : Store} {x y : Text} {n : Nat} {b : Prop}

theorem progresses {r : Rule} (hr : r ∈ rules) {m : Matcher} {f : Match → Program (Option Text)}
    (ha : r.action = .pattern m f) : Rule.Progresses dialect m f :=
  dialect_progress (show r ∈ dialect.rules .block from hr) ha

theorem follows_hidden (h : Same Solid s₁ s₂ x y) :
    Follows dialect n (fun s₁ s₂ => Option.Rel (Same Solid s₁ s₂)) (some <$> hide x) (some <$> hide y) s₁ s₂ := by
  rw [map_eq_pure_bind, map_eq_pure_bind]
  exact follows_hide h.filled_of_solid fun t u _ _ _ _ h => follows_pure (.some h)

/-- Every line break of a script becomes a markup line break. -/
def breakLines (g : Script) : Script := g.flatMap fun x => if x = .char '\n' then ofText "<br>".toList else [x]

theorem breakLines_cons (x : Glyph) (g : Script) :
    breakLines (x :: g) = (if x = .char '\n' then ofText "<br>".toList else [x]) ++ breakLines g := rfl

theorem breakLines_append (g h : Script) : breakLines (g ++ h) = breakLines g ++ breakLines h := List.flatMap_append

theorem breakLines_of_not_mem {g : Script} (h : Glyph.char '\n' ∉ g) : breakLines g = g := by
  induction g with
  | nil => rfl
  | cons x g ih =>
    rw [List.mem_cons, not_or] at h
    have hx : x ≠ .char '\n' := Ne.symm h.1
    rw [breakLines_cons, if_neg hx, ih h.2, List.singleton_append]

theorem breakLines_spell (f : Side) (g : Script) : Text.breakLines (spell f g) = spell f (breakLines g) := by
  have hid {t : Text} (ht : '\n' ∉ t) : Text.breakLines t = t := by
    induction t with
    | nil => rfl
    | cons c t ih =>
      rw [List.mem_cons, not_or] at ht
      rw [Text.breakLines, List.flatMap_cons, if_neg (Ne.symm ht.1)]
      exact congrArg (c :: ·) (ih ht.2)
  have happ (t u : Text) : Text.breakLines (t ++ u) = Text.breakLines t ++ Text.breakLines u := List.flatMap_append
  induction g with
  | nil => rfl
  | cons x g ih =>
    rw [spell_cons, happ, ih, breakLines_cons, spell_append]
    congr 1
    cases x with
    | char c =>
      by_cases hc : c = '\n'
      · subst hc
        rfl
      · rw [if_neg (by simpa using hc), Glyph.spell_char, hid (by simpa using Ne.symm hc)]
        rfl
    | token k =>
      rw [if_neg Glyph.noConfusion, Glyph.spell_token, hid (Token.not_mem_ofId (by decide) _)]
      simp

theorem clean_breakLines {g : Script} (hg : Clean g) : Clean (breakLines g) := by
  have hbreak : Solid (ofText "<br>".toList) := solid_ofText (by decide)
  induction hl : g.length using Nat.strongRecOn generalizing g with
  | ind n ih =>
    by_cases hn : Glyph.char '\n' ∈ g
    · obtain ⟨u, v, rfl, hu⟩ := List.eq_append_cons_of_mem hn
      have hclean := ih v.length (by simp [← hl]; omega) (hg.slice ⟨u ++ [Glyph.char '\n'], [], by simp⟩) rfl
      have heq : breakLines (u ++ .char '\n' :: v) = u ++ ofText "<br>".toList ++ breakLines v := by
        rw [breakLines_append, breakLines_of_not_mem hu, breakLines_cons, if_pos rfl, List.append_assoc]
      rw [heq]
      exact hbreak u _ (hg.slice (List.prefix_append _ _).isInfix) hclean
    · rwa [breakLines_of_not_mem hn]

theorem known_breakLines {g : Script} (h : Known s₁ s₂ g) : Known s₁ s₂ (breakLines g) := by
  intro k hmem
  obtain ⟨e, he, hmem⟩ := List.mem_flatMap.1 hmem
  split at hmem
  · simp [ofText] at hmem
  · exact h k (List.mem_singleton.1 hmem ▸ he)

theorem same_breakLines (h : Same Clean s₁ s₂ x y) : Same Clean s₁ s₂ (Text.breakLines x) (Text.breakLines y) := by
  obtain ⟨g, hg, hk, rfl, rfl⟩ := h
  exact ⟨breakLines g, clean_breakLines hg, known_breakLines hk, breakLines_spell _ g, breakLines_spell _ g⟩

theorem quote_tracks : quote.Tracks dialect n (Filled b) := by
  have hp := progresses (r := quote) (by simp [rules]) rfl
  refine Rule.tracks_of_solid (matcher_twin (by decide)) hp fun s₁ s₂ m₁ m₂ hf hlike => ?_
  obtain ⟨-, text, -, -, hgs⟩ := fenced_shape hf
  have h₁ : m₁.group 1 = some text := by simp [Match.group, hgs]
  obtain ⟨text', h₁', htext⟩ := hlike.group_some h₁
  simp only [h₁, h₁']
  refine follows_hide ((same_breakLines htext).block (by decide)).filled_of_solid fun t u _ _ _ _ h => ?_
  exact follows_pure (.some h)

theorem paragraphMatcher_twin : paragraphMatcher.Twin fun _ => True :=
  paragraphScanner_twin.matcher (fun _ _ _ => id) _

theorem paragraph_tracks : paragraph.Tracks dialect n (Filled b) := by
  have hp := progresses (r := paragraph) (by simp [rules]) rfl
  refine Rule.tracks_of_solid paragraphMatcher_twin hp fun s₁ s₂ m₁ m₂ _ hlike => ?_
  exact follows_hidden ((same_breakLines hlike.whole).block (by decide))

theorem horizontalRule_tracks : horizontalRule.Tracks dialect n (Filled b) := by
  have hp := progresses (r := horizontalRule) (by simp [rules]) rfl
  refine Rule.tracks_of_solid (matcher_twin (by decide)) hp fun s₁ s₂ m₁ m₂ _ _ => ?_
  exact follows_hidden (same_of_walled (by decide))

theorem titleWithSubtitle_tracks : titleWithSubtitle.Tracks dialect n (Filled b) := by
  have hp := progresses (r := titleWithSubtitle) (by simp [rules]) rfl
  refine Rule.tracks_of_solid (matcher_twin (by decide)) hp fun s₁ s₂ m₁ m₂ hf hlike => ?_
  obtain ⟨-, title, -, -, subtitle, -, -, -, -, -, -, -, hgs⟩ := titleWithSubtitle_shape hf
  have h₁ : m₁.group 1 = some title := by simp [Match.group, hgs]
  have h₂ : m₁.group 2 = some subtitle := by simp [Match.group, hgs]
  obtain ⟨title', h₁', htitle⟩ := hlike.group_some h₁
  obtain ⟨subtitle', h₂', hsubtitle⟩ := hlike.group_some h₂
  simp only [h₁, h₂, h₁', h₂']
  have hinner : Same Solid s₁ s₂ (Html.element "h1" title ++ Html.element "strong" subtitle)
      (Html.element "h1" title' ++ Html.element "strong" subtitle') :=
    (htitle.element (by decide)).append (hsubtitle.element (by decide))
  exact follows_hide (hinner.clean.element (by decide)).filled_of_solid fun t u _ _ _ _ h => follows_pure (.some h)

theorem title_tracks : title.Tracks dialect n (Filled b) := by
  have hp := progresses (r := title) (by simp [rules]) rfl
  refine Rule.tracks_of_solid (matcher_twin (by decide)) hp fun s₁ s₂ m₁ m₂ hf hlike => ?_
  obtain ⟨-, title, -, -, -, -, -, hgs⟩ := title_shape hf
  have h₁ : m₁.group 1 = some title := by simp [Match.group, hgs]
  obtain ⟨title', h₁', htitle⟩ := hlike.group_some h₁
  simp only [h₁, h₁']
  have hinner : Same Solid s₁ s₂ (Html.element "h1" title) (Html.element "h1" title') := htitle.element (by decide)
  exact follows_hide (hinner.clean.element (by decide)).filled_of_solid fun t u _ _ _ _ h => follows_pure (.some h)

theorem headingTag_eq (hashes : Nat) : ∃ digits : Text, (headingTag hashes).toList = 'h' :: digits ∧
    ∀ d ∈ digits, d.isDigit = true := by
  refine ⟨Nat.toDigits 10 (hashes + 1), by simp [headingTag], fun d hd => ?_⟩
  exact Nat.isDigit_of_mem_toDigits (by omega) (by omega) hd

theorem semicolon_not_mem_headingTag (hashes : Nat) : ';' ∉ (headingTag hashes).toList := by
  obtain ⟨digits, htag, hdigits⟩ := headingTag_eq hashes
  rw [htag, List.mem_cons, not_or]
  exact ⟨by decide, fun h => absurd (hdigits _ h) (by decide)⟩

theorem heading_tracks : heading.Tracks dialect n (Filled b) := by
  have hp := progresses (r := heading) (by simp [rules]) rfl
  refine Rule.tracks_of_solid (matcher_twin (by decide)) hp fun s₁ s₂ m₁ m₂ hf hlike => ?_
  obtain ⟨-, hashes, -, text, -, -, hall, -, -, -, hgs⟩ := heading_shape hf
  have h₁ : m₁.group 1 = some hashes := by simp [Match.group, hgs]
  have h₂ : m₁.group 2 = some text := by simp [Match.group, hgs]
  obtain ⟨hashes', h₁', hhashes⟩ := hlike.group_some h₁
  obtain ⟨text', h₂', htext⟩ := hlike.group_some h₂
  obtain rfl := hhashes.eq_of_not_mem fun h => absurd (hall _ h) (by decide)
  simp only [h₁, h₂, h₁', h₂']
  have hinner := htext.element (semicolon_not_mem_headingTag hashes.length)
  exact follows_hide hinner.filled_of_solid fun t u _ _ _ _ h => follows_pure (.some h)

theorem table_tracks (hg : dialect.Twin n) : table.Tracks dialect n (Filled b) := by
  have hp := progresses (r := table) (by simp [rules]) rfl
  refine Rule.tracks_of_solid (matcher_twin (by decide)) hp fun s₁ s₂ m₁ m₂ hf hlike => ?_
  refine follows_rerun hg (by decide) hlike.whole.unfilled fun t u s₁' s₂' _ _ h => ?_
  have hbreak : Same Solid s₁' s₂' ['\n'] ['\n'] := same_of_walled (by decide)
  have hrows := (same_of_not_mem (t := []) List.not_mem_nil).between hbreak h.of_filled
  simp only [List.nil_append, List.singleton_append] at hrows
  exact follows_hide (hrows.element (by decide)).filled_of_solid fun t u _ _ _ _ h => follows_pure (.some h)

theorem list_tracks (hg : dialect.Twin n) {name tag : String} {m : Matcher} (hm : m.Twin fun _ => True)
    (ht : ';' ∉ tag.toList) (hr : Rule.pattern name m (fun m => listBlock tag m.whole) ∈ rules) :
    (Rule.pattern name m fun m => listBlock tag m.whole).Tracks dialect n (Filled b) := by
  refine Rule.tracks_of_solid hm (progresses hr rfl) fun s₁ s₂ m₁ m₂ hf hlike => ?_
  refine follows_rerun hg (by decide) hlike.whole.unfilled fun t u _ _ _ _ h => ?_
  exact follows_hide (h.of_filled.block ht).filled_of_solid fun t u _ _ _ _ h => follows_pure (.some h)

theorem unorderedList_tracks (hg : dialect.Twin n) : unorderedList.Tracks dialect n (Filled b) :=
  list_tracks hg (matcher_twin (by decide)) (by decide) (List.mem_of_getElem? (i := 6) rfl)

theorem orderedList_tracks (hg : dialect.Twin n) : orderedList.Tracks dialect n (Filled b) :=
  list_tracks hg (matcher_twin (by decide)) (by decide) (List.mem_of_getElem? (i := 7) rfl)

theorem definitionList_tracks (hg : dialect.Twin n) : definitionList.Tracks dialect n (Filled b) :=
  list_tracks hg (Listing.definitionListScanner_twin.matcher (fun _ _ _ => id) _) (by decide)
    (List.mem_of_getElem? (i := 8) rfl)

theorem rules_track (hg : dialect.Twin n) : ∀ r ∈ rules, r.Tracks dialect n (Filled b) := by
  simp only [rules, List.forall_mem_cons]
  exact ⟨quote_tracks, horizontalRule_tracks, titleWithSubtitle_tracks, title_tracks, heading_tracks, table_tracks hg,
    unorderedList_tracks hg, orderedList_tracks hg, definitionList_tracks hg, paragraph_tracks,
    fun r hr => absurd hr List.not_mem_nil⟩

end Markup.Block
