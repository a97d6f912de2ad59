import Markup.Proofs.Block.Rules
import Markup.Proofs.Rule.Tally

/-! # Block rules lose no content

Underlines, hashes, fences and the white space between them are all that is left out. -/
namespace Markup.Block
open Pattern Program Script
variable {s : Store} {c : Char} {x : Text} {n k : Nat} {b : Prop}

theorem leads_hidden (h : Holds Solid s c k x) :
    Leads dialect n (fun s' new => ∀ y, new = some y → Holds Solid s' c k y) (some <$> hide x) s := by
  rw [map_eq_pure_bind]
  exact leads_hide h.filled_of_solid fun t s' _ h => leads_some h

theorem tally_breakLines {f : Side} {g : Script} (hc : isKept c = true) (hg : Clean g) :
    s.tally c (spell f g) ≤ s.tally c (spell f (breakLines g)) := by
  induction g with
  | nil => exact Nat.le_refl _
  | cons x g ih =>
    have hrest : Clean g := hg.slice (List.suffix_cons x g).isInfix
    have hout : Clean (breakLines [x] ++ breakLines g) := by
      rw [← breakLines_append]
      exact clean_breakLines hg
    have hfirst : s.tally c (spell f [x]) ≤ s.tally c (spell f (breakLines [x])) := by
      by_cases hx : x = .char '\n'
      · have hnone : s.tally c (spell f [.char '\n']) = 0 := by
          rw [show spell f [.char '\n'] = ['\n'] from rfl, Store.tally_of_not_mem (by decide)]
          exact count_eq_zero_of_kept hc (by decide)
        rw [hx, hnone]
        exact Nat.zero_le _
      · rw [breakLines_of_not_mem (by simpa using Ne.symm hx)]
    have hsplit : breakLines (x :: g) = breakLines [x] ++ breakLines g := breakLines_append [x] g
    rw [hsplit, Store.tally_append hout, ← List.singleton_append, Store.tally_append hg]
    exact Nat.add_le_add hfirst (ih hrest)

theorem holds_breakLines (hc : isKept c = true) (h : Sound s x) :
    Holds Clean s c (s.tally c x) (Text.breakLines x) := by
  refine ⟨same_breakLines h, ?_⟩
  obtain ⟨g, hg, -, rfl, -⟩ := h
  rw [breakLines_spell]
  exact tally_breakLines hc hg

theorem quote_preserves (hc : isKept c = true) : quote.Preserves dialect n (Filled b) c := by
  have hp := progresses (r := quote) (by simp [rules]) rfl
  refine Rule.preserves_of_solid (matcher_twin (by decide)) hp fun s m hf hlike => ?_
  obtain ⟨-, text, -, hw, hgs⟩ := fenced_shape hf
  have h₁ : m.group 1 = some text := by simp [Match.group, hgs]
  have hwhole : m.whole = "\"\n".toList ++ text ++ "\n\"".toList := by simp [hw]
  obtain ⟨hfront, hclose⟩ := Sound.drop_back hc (by decide) (hwhole ▸ hlike.whole)
  obtain ⟨htext, hopen⟩ := Sound.drop_front hc (by decide) hfront
  rw [hwhole, hclose, hopen]
  simp only [h₁]
  exact leads_hide ((holds_breakLines hc htext).block (by decide)).filled_of_solid fun t s' _ h => leads_some h

theorem paragraph_preserves (hc : isKept c = true) : paragraph.Preserves dialect n (Filled b) c := by
  have hp := progresses (r := paragraph) (by simp [rules]) rfl
  refine Rule.preserves_of_solid paragraphMatcher_twin hp fun s m _ hlike => ?_
  exact leads_hidden ((holds_breakLines hc hlike.whole).block (by decide))

theorem horizontalRule_preserves (hc : isKept c = true) : horizontalRule.Preserves dialect n (Filled b) c := by
  have hp := progresses (r := horizontalRule) (by simp [rules]) rfl
  refine Rule.preserves_of_solid (matcher_twin (by decide)) hp fun s m hf _ => ?_
  obtain ⟨-, -, hdash⟩ := horizontalRule_shape hf
  have hnone : s.tally c m.whole = 0 := by
    rw [Store.tally_of_not_mem fun h => absurd (hdash _ h) (by decide)]
    exact count_eq_zero_of_kept hc fun d hd => hdash d hd ▸ by decide
  rw [hnone]
  exact leads_hidden (holds_of_walled (by decide))

theorem margin_of_underline {eqs : Text} (h : ∀ d ∈ eqs, d = '=') : ∀ d ∈ '\n' :: eqs, isMargin d = true := by
  rw [List.forall_mem_cons]
  exact ⟨by decide, fun d hd => h d hd ▸ by decide⟩

theorem titleWithSubtitle_preserves (hc : isKept c = true) :
    titleWithSubtitle.Preserves dialect n (Filled b) c := by
  have hp := progresses (r := titleWithSubtitle) (by simp [rules]) rfl
  refine Rule.preserves_of_solid (matcher_twin (by decide)) hp fun s m hf hlike => ?_
  obtain ⟨-, title, eqs, indent, subtitle, -, heqs, hindent, -, -, -, hw, hgs⟩ := titleWithSubtitle_shape hf
  have h₁ : m.group 1 = some title := by simp [Match.group, hgs]
  have h₂ : m.group 2 = some subtitle := by simp [Match.group, hgs]
  have hwhole : m.whole = title ++ ('\n' :: eqs ++ '\n' :: indent) ++ subtitle := by simp [hw]
  have hmargin : ∀ d ∈ '\n' :: eqs ++ '\n' :: indent, isMargin d = true := by
    rw [List.forall_mem_append, List.forall_mem_cons (l := indent)]
    exact ⟨margin_of_underline heqs, by decide, fun d hd => isMargin_of_isIndent (hindent d hd)⟩
  obtain ⟨htitle, hsubtitle, htally⟩ := Sound.cut hc hmargin (hwhole ▸ hlike.whole) (by simp)
  rw [hwhole, htally]
  simp only [h₁, h₂]
  have hinner : Holds Solid s c (s.tally c title + s.tally c subtitle)
      (Html.element "h1" title ++ Html.element "strong" subtitle) :=
    ((htitle.holds c).element (by decide)).append ((hsubtitle.holds c).element (by decide))
  exact leads_hide (hinner.clean.element (by decide)).filled_of_solid fun t s' _ h => leads_some h

theorem title_preserves (hc : isKept c = true) : title.Preserves dialect n (Filled b) c := by
  have hp := progresses (r := title) (by simp [rules]) rfl
  refine Rule.preserves_of_solid (matcher_twin (by decide)) hp fun s m hf hlike => ?_
  obtain ⟨-, title, eqs, -, heqs, -, hw, hgs⟩ := title_shape hf
  have h₁ : m.group 1 = some title := by simp [Match.group, hgs]
  obtain ⟨htitle, htally⟩ := Sound.drop_back hc (margin_of_underline heqs) (hw ▸ hlike.whole)
  rw [hw, htally]
  simp only [h₁]
  have hinner : Holds Solid s c (s.tally c title) (Html.element "h1" title) := (htitle.holds c).element (by decide)
  exact leads_hide (hinner.clean.element (by decide)).filled_of_solid fun t s' _ h => leads_some h

theorem heading_preserves (hc : isKept c = true) : heading.Preserves dialect n (Filled b) c := by
  have hp := progresses (r := heading) (by simp [rules]) rfl
  refine Rule.preserves_of_solid (matcher_twin (by decide)) hp fun s m hf hlike => ?_
  obtain ⟨-, hashes, space, text, space', -, hhashes, -, ⟨hspace, hspace'⟩, hw, hgs⟩ := heading_shape hf
  have h₁ : m.group 1 = some hashes := by simp [Match.group, hgs]
  have h₂ : m.group 2 = some text := by simp [Match.group, hgs]
  have hfront : ∀ d ∈ hashes ++ space, isMargin d = true := by
    rw [List.forall_mem_append]
    exact ⟨fun d hd => hhashes d hd ▸ by decide, fun d hd => isMargin_of_isSpace (hspace d hd)⟩
  obtain ⟨hopen, hclose⟩ := Sound.drop_back hc (fun d hd => isMargin_of_isSpace (hspace' d hd)) (hw ▸ hlike.whole)
  obtain ⟨htext, hhead⟩ := Sound.drop_front hc hfront hopen
  rw [hw, hclose, hhead]
  simp only [h₁, h₂]
  have hinner := (htext.holds c).element (semicolon_not_mem_headingTag hashes.length)
  exact leads_hide hinner.filled_of_solid fun t s' _ h => leads_some h

theorem table_preserves (hg : dialect.Preserves n c) : table.Preserves dialect n (Filled b) c := by
  have hp := progresses (r := table) (by simp [rules]) rfl
  refine Rule.preserves_of_solid (matcher_twin (by decide)) hp fun s m hf hlike => ?_
  refine leads_rerun hg (by decide) (Sound.holds hlike.whole c).unfilled fun t s' _ h => ?_
  have hbreak : Holds Solid s' c 0 ['\n'] := holds_of_walled (by decide)
  have hrows := (holds_of_not_mem (t := []) List.not_mem_nil).between hbreak h.of_filled
  simp only [List.nil_append, List.singleton_append, Nat.zero_add] at hrows
  exact leads_hide (hrows.element (by decide)).filled_of_solid fun t s' _ h => leads_some h

theorem list_preserves (hg : dialect.Preserves n c) {name tag : String} {m : Matcher} (hm : m.Twin fun _ => True)
    (ht : ';' ∉ tag.toList) (hr : Rule.pattern name m (fun m => listBlock tag m.whole) ∈ rules) :
    (Rule.pattern name m fun m => listBlock tag m.whole).Preserves dialect n (Filled b) c := by
  refine Rule.preserves_of_solid hm (progresses hr rfl) fun s m hf hlike => ?_
  refine leads_rerun hg (by decide) (Sound.holds hlike.whole c).unfilled fun t s' _ h => ?_
  exact leads_hide (h.of_filled.block ht).filled_of_solid fun t s' _ h => leads_some h

theorem unorderedList_preserves (hg : dialect.Preserves n c) : unorderedList.Preserves dialect n (Filled b) c :=
  list_preserves hg (matcher_twin (by decide)) (by decide) (List.mem_of_getElem? (i := 6) rfl)

theorem orderedList_preserves (hg : dialect.Preserves n c) : orderedList.Preserves dialect n (Filled b) c :=
  list_preserves hg (matcher_twin (by decide)) (by decide) (List.mem_of_getElem? (i := 7) rfl)

theorem definitionList_preserves (hg : dialect.Preserves n c) : definitionList.Preserves dialect n (Filled b) c :=
  list_preserves hg (Listing.definitionListScanner_twin.matcher (fun _ _ _ => id) _) (by decide)
    (List.mem_of_getElem? (i := 8) rfl)

theorem rules_preserve (hc : isKept c = true) (hg : dialect.Preserves n c) :
    ∀ r ∈ rules, r.Preserves dialect n (Filled b) c := by
  simp only [rules, List.forall_mem_cons]
  exact ⟨quote_preserves hc, horizontalRule_preserves hc, titleWithSubtitle_preserves hc, title_preserves hc,
    heading_preserves hc, table_preserves hg, unorderedList_preserves hg, orderedList_preserves hg,
    definitionList_preserves hg, paragraph_preserves hc, fun r hr => absurd hr List.not_mem_nil⟩

end Markup.Block
