import Markup.Proofs.Block.Rules
import Markup.Proofs.Line.Rules
import Markup.Proofs.Listing.Rules
import Markup.Proofs.Table.Rules

/-! # Document rules over texts that mean the same

The rules before the line stage run while tokens stand in their places only: a finished piece of code begins a line, and
an escaped character comes after one that is no backslash, because the leftmost backslash is taken. -/
namespace Markup.Document
open Pattern Program Script
variable {n : Nat}

/-- A clean script in which no token is escaped. -/
def Early (g : Script) : Prop := Clean g ∧ Unescaped g

theorem Early.slice {g h : Script} (hg : Early g) (hs : h <:+: g) : Early h := by
  refine ⟨hg.1.slice hs, ?_⟩
  exact List.IsChain.infix hg.2 hs

theorem early_twin {m : Matcher} (h : m.Twin fun _ => True) : m.Twin Early := fun g _ => h g trivial

theorem progresses {r : Rule} (hr : r ∈ rules) {m : Matcher} {f : Match → Program (Option Text)}
    (ha : r.action = .pattern m f) : Rule.Progresses dialect m f :=
  dialect_progress (show r ∈ dialect.rules .document from hr) ha

theorem head?_eq_of_stop {f : Side} {g : Script} (h : (spell f g).head?.all (· == '\n') = true) :
    g = [] ∨ ∃ t, g = .char '\n' :: t := by
  cases hg : spell f g with
  | nil => exact .inl (spell_eq_nil.1 hg)
  | cons c t =>
    rw [hg] at h
    obtain rfl : c = '\n' := by simpa using h
    exact .inr (exists_char_of_spell_eq hg (by decide))

theorem trailingSpace_shape {behind t : Text} {m : Markup.Match}
    (h : (matcher (atLeast 1 isIndent ++ lineEnd)).find behind t = some m) :
    (∀ c ∈ m.whole, isIndent c = true) ∧ m.after.head?.all (· == '\n') = true := by
  obtain ⟨caps, ht, -⟩ := takes_of_match h
  simp only [takes_append, takes_atLeast, takes_lineEnd] at ht
  obtain ⟨_, _, _, _, hw, -, ⟨hspace, -, -⟩, hstop, rfl, -⟩ := ht
  rw [List.append_nil] at hw
  exact ⟨hw ▸ hspace, hstop⟩

theorem Early.remove {f : Side} {k : Script.Match} (hP : Early k.text)
    (hstop : (k.spell f).after.head?.all (· == '\n') = true) : Early (k.before ++ [] ++ k.after) := by
  rw [List.append_nil]
  rcases head?_eq_of_stop hstop with ha | ⟨t, ha⟩
  · rw [ha, List.append_nil]
    exact hP.slice k.before_infix
  · have hafter := k.after_infix
    rw [ha] at hafter ⊢
    refine ⟨(hP.1.slice k.before_infix).append_cons (by decide)
      (hP.1.slice ((List.suffix_cons _ _).isInfix.trans hafter)), ?_⟩
    refine (hP.slice k.before_infix).2.append (hP.slice hafter).2 fun x _ y hy _ n => ?_
    obtain rfl : .char '\n' = y := by simpa using hy
    exact Glyph.noConfusion

theorem trailingSpace_tracks : trailingSpace.Tracks dialect n Early := by
  have hp := progresses (r := trailingSpace) (by simp [rules]) rfl
  refine Rule.Round.tracks ⟨early_twin (matcher_twin (by decide)), hp, fun s₁ s₂ k hk h₁ _ hP hknown => ?_⟩
  exact follows_pure (.some ⟨[], hP.remove (trailingSpace_shape h₁).2, known_nil, rfl, rfl⟩)

theorem early_ofText {t : Text} (ht : ¬ Token.marker <:+: t) : Early (ofText t) := by
  refine ⟨clean_ofText ht, ?_⟩
  rw [Unescaped, ofText, List.isChain_map]
  exact List.isChain_iff_forall_rel_of_append_cons_cons.2 fun _ _ _ _ _ => by simp

theorem Early.around_token {a b : Script} (ha : Early a) (hb : Early b) (hlast : a.getLast? ≠ some (.char '\\'))
    (i : Nat × Nat) : Early (a ++ [Glyph.token i] ++ b) := by
  refine ⟨solid_token i _ _ ha.1 hb.1, (ha.2.append (List.isChain_singleton _) ?_).append hb.2 ?_⟩
  · rintro x hx _ _ rfl
    exact absurd hx hlast
  · intro x hx _ _ hx'
    rw [List.getLast?_append, hx'] at hx
    simp at hx

theorem Early.replace {k : Script.Match} (hP : Early k.text) (hb : k.before.getLast? ≠ some (.char '\\'))
    (i : Nat × Nat) : Early (k.before ++ [Glyph.token i] ++ k.after) :=
  (hP.slice k.before_infix).around_token (hP.slice k.after_infix) hb i

theorem follows_replace {s₁ s₂ : Store} {k : Script.Match} {v₁ v₂ : Text} (h : Same (Filled True) s₁ s₂ v₁ v₂)
    (hP : Early k.text) (hb : k.before.getLast? ≠ some (.char '\\')) :
    Follows dialect n (fun s₁ s₂ => Option.Rel (Same (fun new => Early (k.before ++ new ++ k.after)) s₁ s₂))
      (hide v₁ >>= fun t => pure (some t)) (hide v₂ >>= fun t => pure (some t)) s₁ s₂ := by
  refine follows_mint h fun i _ _ _ _ hi => follows_pure (.some ⟨[.token i], hP.replace hb i, known_token hi, ?_, ?_⟩)
  · simp
  · simp

theorem unescaped_of_start {f : Side} {k : Script.Match} (h : (k.spell f).behind.head?.all (· == '\n') = true) :
    k.before.getLast? ≠ some (.char '\\') := by
  intro hb
  have hlast : (k.spell f).behind.head? = some '\\' := by
    simp [Script.Match.spell, getLast?_spell, hb]
  rw [hlast] at h
  exact absurd h (by decide)

theorem code_tracks : code.Tracks dialect n Early := by
  have hp := progresses (r := code) (by simp [rules]) rfl
  refine Rule.Round.tracks ⟨early_twin (matcher_twin (by decide)), hp, fun s₁ s₂ k hk h₁ _ hP hknown => ?_⟩
  have hlike := Markup.Match.like_of_cuts hk ⟨hP.1.slice k.whole_infix, hknown⟩
  obtain ⟨hlines, text, -, -, hgs⟩ := Block.fenced_shape h₁
  have hg₁ : (k.spell Prod.fst).group 1 = some text := by simp [Markup.Match.group, hgs]
  obtain ⟨text', hg₂, htext⟩ := hlike.group_some hg₁
  simp only [hg₁, hg₂]
  exact follows_replace (htext.element (by decide)).filled_of_solid hP (unescaped_of_start hlines.start)

/-- The leftmost backslash before a character that can be escaped has no backslash before it. -/
theorem escape_leftmost {f : Side} {k : Script.Match}
    (h : escapePattern.matcher.find [] (spell f k.text) = some (k.spell f)) :
    k.before.getLast? ≠ some (.char '\\') := by
  intro hb
  obtain ⟨w, hw⟩ := List.getLast?_eq_some_iff.1 hb
  rw [matcher_eq] at h
  obtain ⟨u, rest, -, hu, hhit, hmin⟩ := Scanner.search_eq_some h
  obtain ⟨ht, caps, hk, -⟩ := takes_of_scanner hhit
  simp only [escapePattern, takes_append, takes_group, takes_word, takes_one] at hk
  obtain ⟨_, _, _, _, hwhole, -, ⟨rfl, -⟩, _, ⟨c, -, rfl, -⟩, -⟩ := hk
  have hu : u = spell f w ++ ['\\'] := by
    have := congrArg List.reverse hu
    simp only [List.append_nil, List.reverse_reverse, Script.Match.spell] at this
    rw [← this, hw, spell_append]
    rfl
  have hnone := hmin (spell f w) ['\\'] hu (List.cons_ne_nil _ _)
  have hrest : rest = '\\' :: c :: (k.spell f).after := by
    rw [ht, hwhole]
    rfl
  rw [hrest, List.singleton_append, escapeScanner_cons, if_pos ⟨rfl, by decide⟩] at hnone
  contradiction

theorem escape_shape {behind t : Text} {m : Markup.Match} (h : escapePattern.matcher.find behind t = some m) :
    ∃ c, m.whole = ['\\', c] ∧ m.group 1 = some [c] := by
  obtain ⟨caps, ht, hgs⟩ := takes_of_match h
  simp only [escapePattern, takes_append, takes_group, takes_word, takes_one] at ht
  obtain ⟨_, _, _, _, hw, rfl, ⟨rfl, rfl⟩, _, ⟨c, -, rfl, rfl⟩, rfl⟩ := ht
  have hgs : m.groups = [some [c]] := hgs
  exact ⟨c, hw, by simp [Markup.Match.group, hgs]⟩

theorem escapeMatcher_twin : escapePattern.matcher.Twin Early := by
  rw [matcher_eq]
  intro g hg
  exact escapeScanner_twin.matcher (fun _ _ hs hu => hu.suffix hs) _ g hg.2

theorem escape_tracks : escape.Tracks dialect n Early := by
  have hp := progresses (r := escape) (by simp [rules]) rfl
  refine Rule.Round.tracks ⟨escapeMatcher_twin, hp, fun s₁ s₂ k hk h₁ _ hP hknown => ?_⟩
  have hlike := Markup.Match.like_of_cuts hk ⟨hP.1.slice k.whole_infix, hknown⟩
  obtain ⟨c, -, hg₁⟩ := escape_shape h₁
  obtain ⟨text', hg₂, htext⟩ := hlike.group_some hg₁
  simp only [hg₁, hg₂]
  exact follows_replace (htext.filled (List.cons_ne_nil c [])) hP (escape_leftmost h₁)

end Markup.Document
