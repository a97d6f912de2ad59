import Markup.Proofs.Dialect.Ends
import Markup.Proofs.Listing.Twin
import Markup.Proofs.Rule.Twin

/-! # Items and definitions over texts that mean the same -/
namespace Markup.Listing
open Program Script
variable {s₁ s₂ : Store} {x y : Text} {n : Nat} {b : Prop}

theorem clean_joinLines {ls : List Script} (h : ∀ l ∈ ls, Clean l) : Clean (joinLines ls) := by
  cases ls with
  | nil => exact clean_nil
  | cons l ls =>
    rw [List.forall_mem_cons] at h
    induction ls generalizing l with
    | nil => simpa [joinLines, startLines] using h.1
    | cons m ls ih =>
      rw [List.forall_mem_cons] at h
      exact h.1.append_cons (by decide) (ih m ⟨h.2.1, h.2.2⟩)

theorem infix_of_mem_lines {l g : Script} (h : l ∈ lines g) : l <:+: g := by
  obtain ⟨us, vs, hl⟩ := List.append_of_mem h
  have hg := joinLines_lines g
  rw [hl, joinLines_append (List.cons_ne_nil l vs)] at hg
  exact ⟨endLines us, startLines vs, by rw [← hg, List.append_assoc]; rfl⟩

theorem mem_joinLines {ls : List Script} {k : Nat × Nat} (h : .token k ∈ joinLines ls) : ∃ l ∈ ls, .token k ∈ l := by
  cases ls with
  | nil => exact absurd h List.not_mem_nil
  | cons l ls =>
    rcases List.mem_append.1 h with h | h
    · exact ⟨l, List.mem_cons_self, h⟩
    · obtain ⟨m, hm, h⟩ := List.mem_flatMap.1 h
      exact ⟨m, List.mem_cons_of_mem l hm, by simpa using h⟩

theorem same_stripIndent {indent : Text} (hi : ';' ∉ indent) (h : Same Clean s₁ s₂ x y) :
    Same Clean s₁ s₂ (Text.stripIndent indent x) (Text.stripIndent indent y) := by
  obtain ⟨g, hg, hk, rfl, rfl⟩ := h
  have hstrip (l : Script) : ∃ l', l' <:+ l ∧
      ∀ f, (indent.isPrefixOf? (spell f l)).getD (spell f l) = spell f l' := by
    rcases isPrefixOf?_spell hi l with h | ⟨rest, rfl, h⟩
    · exact ⟨l, List.suffix_refl l, fun f => by rw [h]; rfl⟩
    · exact ⟨rest, List.suffix_append _ _, fun f => by rw [h]; rfl⟩
  choose strip hsuffix hspell using hstrip
  have hne : (lines g).map strip ≠ [] := by simp [lines_ne_nil]
  have hread (f : Side) : Text.stripIndent indent (spell f g) = spell f (joinLines ((lines g).map strip)) := by
    rw [Text.stripIndent, spell_joinLines hne, lines_spell, List.map_map, List.map_map]
    congr 1
    exact List.map_congr_left fun l _ => hspell l f
  have hpart {l : Script} (hl : l ∈ lines g) : strip l <:+: g := (hsuffix l).isInfix.trans (infix_of_mem_lines hl)
  refine ⟨joinLines ((lines g).map strip), clean_joinLines ?_, fun k hk' => ?_, hread _, hread _⟩
  · intro l hl
    obtain ⟨l, hl', rfl⟩ := List.mem_map.1 hl
    exact hg.slice (hpart hl')
  · obtain ⟨l, hl, hmem⟩ := mem_joinLines hk'
    obtain ⟨l, hl', rfl⟩ := List.mem_map.1 hl
    exact hk k ((hpart hl').subset hmem)

theorem progresses {r : Rule} (hr : r ∈ rules) {m : Matcher} {f : Match → Program (Option Text)}
    (ha : r.action = .pattern m f) : Rule.Progresses dialect m f :=
  dialect_progress (show r ∈ dialect.rules .list from hr) ha

theorem itemMatcher_twin : itemMatcher.Twin fun _ => True := by
  rw [itemMatcher_eq]
  exact itemScanner_twin.matcher (fun _ _ _ => id) _

theorem definitionMatcher_twin : definitionMatcher.Twin fun _ => True :=
  definitionScanner_twin.matcher (fun _ _ _ => id) _

theorem item_tracks (hg : dialect.Twin n) : item.Tracks dialect n (Filled b) := by
  have hp := progresses (r := item) (by simp [rules]) rfl
  refine Rule.tracks_of_solid itemMatcher_twin hp fun s₁ s₂ m₁ m₂ hf hlike => ?_
  obtain ⟨-, -, -, content, -, -, -, -, h₁⟩ := item_shape hf
  obtain ⟨content', h₁', hcontent⟩ := hlike.group_some h₁
  cases h₃ : m₁.group 3 with
  | none =>
    simp only [h₁, h₁', hlike.group_none h₃]
    exact follows_rerun hg (by decide) hcontent.unfilled fun t u _ _ _ _ h =>
      follows_pure (.some (h.of_filled.block (by decide)))
  | some indent =>
    have hsemi : ';' ∉ indent := semicolon_not_mem (by decide) (item_indent hf h₃)
    obtain ⟨indent', h₃', hindent⟩ := hlike.group_some h₃
    obtain rfl := hindent.eq_of_not_mem hsemi
    simp only [h₁, h₁', h₃']
    exact follows_rerun hg (by decide) (same_stripIndent hsemi hcontent).unfilled fun t u _ _ _ _ h =>
      follows_pure (.some (h.of_filled.block (by decide)))

theorem definition_tracks (hg : dialect.Twin n) : definition.Tracks dialect n (Filled b) := by
  have hp := progresses (r := definition) (by simp [rules]) rfl
  have hbreak {s₁ s₂ : Store} : Same Solid s₁ s₂ ['\n'] ['\n'] := same_of_walled (by decide)
  refine Rule.tracks_of_solid definitionMatcher_twin hp fun s₁ s₂ m₁ m₂ hf hlike => ?_
  obtain ⟨-, d, -, hgs, -, -, hspace⟩ := definition_shape hf
  have h₁ : m₁.group 1 = some d.term := by simp [Match.group, hgs]
  have h₂ : m₁.group 2 = some d.body := by simp [Match.group, hgs]
  have h₃ : m₁.group 3 = some d.indent := by simp [Match.group, hgs]
  have hsemi : ';' ∉ d.indent := semicolon_not_mem (by decide) hspace
  obtain ⟨term, h₁', hterm⟩ := hlike.group_some h₁
  obtain ⟨body, h₂', hbody⟩ := hlike.group_some h₂
  obtain ⟨indent, h₃', hindent⟩ := hlike.group_some h₃
  obtain rfl := hindent.eq_of_not_mem hsemi
  simp only [h₁, h₂, h₃, h₁', h₂', h₃']
  have hinner : Same (Filled False) s₁ s₂ (Text.stripIndent d.indent d.body) (Text.stripIndent d.indent body) :=
    (same_stripIndent hsemi hbody).unfilled
  refine follows_rerun hg (by decide) hinner fun t u s₁' s₂' hle₁ hle₂ h => ?_
  have hdt : Same Solid s₁' s₂' (Html.element "dt" d.term) (Html.element "dt" term) :=
    (hterm.mono hle₁ hle₂).element (by decide)
  have hbelow : Same Clean s₁' s₂' ('\n' :: t) ('\n' :: u) := by
    have := (same_of_not_mem (t := []) List.not_mem_nil).between hbreak h.of_filled
    simpa using this
  have hdd : Same Solid s₁' s₂' (Html.element "dd" ('\n' :: t)) (Html.element "dd" ('\n' :: u)) :=
    hbelow.element (by decide)
  have hall := (hdt.append hbreak).append hdd
  simp only [List.append_assoc, List.singleton_append] at hall
  exact follows_hide hall.filled_of_solid fun t u _ _ _ _ h => follows_pure (.some (h.append hbreak))

theorem rules_track (hg : dialect.Twin n) : ∀ r ∈ rules, r.Tracks dialect n (Filled b) := by
  simp only [rules, List.forall_mem_cons]
  exact ⟨item_tracks hg, definition_tracks hg, fun r hr => absurd hr List.not_mem_nil⟩

end Markup.Listing
