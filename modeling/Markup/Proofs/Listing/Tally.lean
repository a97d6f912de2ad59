import Markup.Proofs.Listing.Rules
import Markup.Proofs.Rule.Tally

/-! # Items and definitions lose no content

Marks, the white space around them, and indents are all that is left out. -/
namespace Markup.Listing
open Program Script
variable {s : Store} {c : Char} {x indent : Text} {n : Nat} {b : Prop}

theorem tally_joinLines (hc : isKept c = true) {ls : List Text} (h : Sound s (Text.joinLines ls)) :
    (∀ l ∈ ls, Sound s l) ∧ s.tally c (Text.joinLines ls) = (ls.map (s.tally c)).sum := by
  induction ls with
  | nil => exact ⟨fun l hl => absurd hl List.not_mem_nil, Store.tally_of_not_mem List.not_mem_nil⟩
  | cons l ls ih =>
    cases ls with
    | nil =>
      have hone : Text.joinLines [l] = l := by simp [Text.joinLines_cons, Text.startLines]
      rw [hone] at h ⊢
      simpa using h
    | cons m ls =>
      have hcons : Text.joinLines (l :: m :: ls) = l ++ ['\n'] ++ Text.joinLines (m :: ls) := by
        simp [Text.joinLines_cons, Text.startLines]
      rw [hcons] at h ⊢
      obtain ⟨hl, hrest, htally⟩ := Sound.cut hc (by decide) h (by decide)
      obtain ⟨hls, hsum⟩ := ih hrest
      rw [List.forall_mem_cons, htally, hsum, List.map_cons, List.sum_cons]
      exact ⟨⟨hl, hls⟩, rfl⟩

theorem holds_stripIndent (hc : isKept c = true) (hi : ∀ d ∈ indent, isMargin d = true) (h : Sound s x) :
    Holds Clean s c (s.tally c x) (Text.stripIndent indent x) := by
  have hstrip {l : Text} (hl : Sound s l) : s.tally c ((indent.isPrefixOf? l).getD l) = s.tally c l := by
    cases hp : indent.isPrefixOf? l with
    | none => rfl
    | some rest =>
      rw [Token.eq_append_of_isPrefixOf? hp] at hl ⊢
      exact (Sound.drop_front hc hi hl).2.symm
  have hsound : Sound s (Text.stripIndent indent x) := same_stripIndent (semicolon_not_mem_margin hi) h
  refine ⟨hsound, Nat.le_of_eq ?_⟩
  rw [Text.stripIndent] at hsound ⊢
  rw [← Text.joinLines_lines x] at h
  obtain ⟨hlines, hsum⟩ := tally_joinLines hc h
  calc s.tally c x
      = (x.lines.map (s.tally c)).sum := by rw [← hsum, Text.joinLines_lines]
    _ = ((x.lines.map fun l => (indent.isPrefixOf? l).getD l).map (s.tally c)).sum := by
        rw [List.map_map]
        exact congrArg List.sum (List.map_congr_left fun l hl => (hstrip (hlines l hl)).symm)
    _ = s.tally c (Text.joinLines (x.lines.map fun l => (indent.isPrefixOf? l).getD l)) :=
        (tally_joinLines hc hsound).2.symm

theorem item_preserves (hc : isKept c = true) (hg : dialect.Preserves n c) :
    item.Preserves dialect n (Filled b) c := by
  have hp := progresses (r := item) (by simp [rules]) rfl
  refine Rule.preserves_of_solid itemMatcher_twin hp fun s m hf hlike => ?_
  obtain ⟨-, mark, space, content, -, hmark, hspace, hw, h₁⟩ := item_shape hf
  have hfront : ∀ d ∈ mark ++ space, isKept d = false ∧ d ≠ ';' := by
    have hdigit {d : Char} (hd : d.isDigit = true) : isKept d = false ∧ d ≠ ';' := by
      have hne {e : Char} (he : e.isDigit = false) : d ≠ e := fun h => by simp [← h, hd] at he
      exact ⟨by simp [isKept, isContent, hd, hne], hne (by decide)⟩
    rw [List.forall_mem_append]
    refine ⟨fun d hd => ?_, fun d hd => ?_⟩
    · rcases hmark with rfl | ⟨digits, -, hdigits, rfl⟩
      · rw [List.mem_singleton.1 hd]
        decide
      · rcases List.mem_append.1 hd with hd | hd
        · exact hdigit (hdigits d hd)
        · rw [List.mem_singleton.1 hd]
          decide
    · have hmargin := isMargin_of_isSpace (hspace d hd)
      exact ⟨not_kept_of_isMargin hmargin, fun h => not_mem_alphabet_of_isMargin hmargin (h ▸ by decide)⟩
  obtain ⟨hcontent, htally⟩ := Sound.peel (c := c) (hw ▸ hlike.whole) fun h => (hfront _ h).2 rfl
  rw [hw, htally, count_eq_zero_of_kept hc fun d hd => (hfront d hd).1, Nat.zero_add]
  cases h₃ : m.group 3 with
  | none =>
    simp only [h₁]
    refine leads_rerun hg (by decide) (hcontent.holds c).unfilled fun t s' _ h => ?_
    exact leads_some (h.of_filled.block (by decide))
  | some indent =>
    have hindent : ∀ d ∈ indent, isMargin d = true := fun d hd => isMargin_of_isIndent (item_indent hf h₃ d hd)
    have hstrip := holds_stripIndent hc hindent hcontent
    simp only [h₁]
    exact leads_rerun hg (by decide) hstrip.unfilled fun t s' _ h => leads_some (h.of_filled.block (by decide))

theorem definition_preserves (hc : isKept c = true) (hg : dialect.Preserves n c) :
    definition.Preserves dialect n (Filled b) c := by
  have hp := progresses (r := definition) (by simp [rules]) rfl
  have hbreak {s : Store} : Holds Solid s c 0 ['\n'] := holds_of_walled (by decide)
  refine Rule.preserves_of_solid definitionMatcher_twin hp fun s m hf hlike => ?_
  obtain ⟨-, d, hw, hgs, hspace, hgap, hindent⟩ := definition_shape hf
  have h₁ : m.group 1 = some d.term := by simp [Match.group, hgs]
  have h₂ : m.group 2 = some d.body := by simp [Match.group, hgs]
  have h₃ : m.group 3 = some d.indent := by simp [Match.group, hgs]
  have hwhole : m.whole = d.term ++ (d.space ++ ':' :: d.gap) ++ d.body := by simp [hw, Definition.whole]
  have hmargin : ∀ e ∈ d.space ++ ':' :: d.gap, isMargin e = true := by
    rw [List.forall_mem_append, List.forall_mem_cons]
    exact ⟨fun e he => isMargin_of_isSpace (hspace e he), by decide, fun e he => isMargin_of_isSpace (hgap e he)⟩
  obtain ⟨hterm, hbody, htally⟩ := Sound.cut hc hmargin (hwhole ▸ hlike.whole) (by simp)
  have hstrip := holds_stripIndent hc (fun e he => isMargin_of_isSpace (hindent e he)) hbody
  rw [hwhole, htally]
  simp only [h₁, h₂, h₃]
  refine leads_rerun hg (by decide) hstrip.unfilled fun t s' hle h => ?_
  have hdt : Holds Solid s' c (s.tally c d.term) (Html.element "dt" d.term) :=
    ((hterm.holds c).mono hle).element (by decide)
  have hbelow : Holds Clean s' c (s.tally c d.body) ('\n' :: t) := by
    have := (holds_of_not_mem (t := []) List.not_mem_nil).between hbreak h.of_filled
    simpa using this
  have hdd : Holds Solid s' c (s.tally c d.body) (Html.element "dd" ('\n' :: t)) := hbelow.element (by decide)
  have hall := (hdt.append hbreak).append hdd
  simp only [List.append_assoc, List.singleton_append, Nat.add_zero] at hall
  refine leads_hide hall.filled_of_solid fun t s' _ h => leads_some ?_
  simpa using h.append hbreak

theorem rules_preserve (hc : isKept c = true) (hg : dialect.Preserves n c) :
    ∀ r ∈ rules, r.Preserves dialect n (Filled b) c := by
  simp only [rules, List.forall_mem_cons]
  exact ⟨item_preserves hc hg, definition_preserves hc hg, fun r hr => absurd hr List.not_mem_nil⟩

end Markup.Listing
