import Markup.Proofs.Position.Loop

/-! # Texts where the loop has ended

A rewrite takes the loop back to the start of the text and a declined match takes it on, so behind the loop lie declined
matches only. When it ends nothing else is left; and where a match that is declined once is declined always, a second
run meets the same matches and leaves the text alone. -/
namespace Markup
open Grammar

variable {g : Grammar} {m : Matcher} {f : Match → Program (Option Text)} {t out : Text} {pos next : Nat} {found : Match}

theorem Matcher.Resumes.unique {next' : Nat} (h : m.Resumes t pos next) (h' : m.Resumes t pos next') :
    next = next' := by
  obtain ⟨found, hs, hp⟩ := h
  obtain ⟨found', hs', hp'⟩ := h'
  obtain rfl : found = found' := by simpa [hs] using hs'
  simpa [hp] using hp'

/-- A walk meets the match at its position, or goes on to the next one. -/
theorem Matcher.Meets.here_or_next (h : m.Meets t pos found) :
    m.searchAt t pos = .ok (some found) ∨ ∃ next, m.Resumes t pos next ∧ m.Meets t next found := by
  obtain ⟨here, hwalk, hs⟩ := h
  rcases hwalk.cases_head with rfl | ⟨next, hnext, hwalk⟩
  · exact .inl hs
  · exact .inr ⟨next, hnext, here, hwalk, hs⟩

theorem Matcher.not_meets (h : m.searchAt t pos = .ok none) : ¬ m.Meets t pos found := fun hmeets => by
  rcases hmeets.here_or_next with hs | ⟨_, ⟨_, hs, _⟩, _⟩ <;> simp [h] at hs

namespace Loop
variable (g m f)

/-- Whatever a walk over the text meets has been declined, or lies ahead. -/
def Past (l : Loop) : Prop :=
  ∀ found, m.Meets l.text 0 found → (∃ s s', g.Refuses f found s s') ∨ m.Meets l.text l.pos found

variable {g m f} {l l' : Loop} {n : Nat} {s s' : Store}

theorem past_zero (t : Text) (s : Store) : Past g m f ⟨t, 0, s⟩ := fun _ => .inr

theorem Rewrites.past (h : Rewrites g m f l l') : Past g m f l' := by
  obtain ⟨_, _, _, _⟩ := h
  exact past_zero _ _

theorem Declines.past (h : Declines g m f l l') (hl : Past g m f l) : Past g m f l' := by
  obtain @⟨found, pos, s, hs, hrefuse, hp⟩ := h
  intro other hmeets
  rcases hl other hmeets with hold | hahead
  · exact .inl hold
  · rcases hahead.here_or_next with hhere | ⟨next, hnext, hlater⟩
    · obtain rfl : found = other := by simpa [hs] using hhere
      exact .inl ⟨_, _, hrefuse⟩
    · obtain rfl := hnext.unique ⟨found, hs, hp⟩
      exact .inr hlater

theorem Ends.refuses (h : Ends g m f l n out s') (hl : Past g m f l) :
    ∀ found, m.Meets out 0 found → ∃ s s', g.Refuses f found s s' := by
  induction h with
  | ended h => exact fun found hmeets => (hl found hmeets).resolve_right (m.not_meets h)
  | rewrite h _ ih => exact ih h.past
  | decline h _ ih => exact ih (h.past hl)

theorem Rewrites.unique {l₁ l₂ : Loop} (h₁ : Rewrites g m f l l₁) (h₂ : Rewrites g m f l l₂) : l₁ = l₂ := by
  obtain ⟨hs₁, he₁, -, ht₁⟩ := h₁
  obtain ⟨hs₂, he₂, -, ht₂⟩ := h₂
  obtain ⟨⟩ := Except.ok.inj (hs₁.symm.trans hs₂)
  obtain ⟨⟨⟩, rfl⟩ := he₁.unique he₂
  obtain rfl := Except.ok.inj (ht₁.symm.trans ht₂)
  rfl

theorem Declines.unique {l₁ l₂ : Loop} (h₁ : Declines g m f l l₁) (h₂ : Declines g m f l l₂) : l₁ = l₂ := by
  obtain ⟨hs₁, ⟨_, he₁, -⟩, hp₁⟩ := h₁
  obtain ⟨hs₂, ⟨_, he₂, -⟩, hp₂⟩ := h₂
  obtain ⟨⟩ := Except.ok.inj (hs₁.symm.trans hs₂)
  obtain ⟨-, rfl⟩ := he₁.unique he₂
  obtain rfl := Except.ok.inj (hp₁.symm.trans hp₂)
  rfl

theorem Declines.not_rewrites (h : Declines g m f l l') {l₂ : Loop} : ¬ Rewrites g m f l l₂ := by
  rintro ⟨hs₂, he₂, hne, -⟩
  obtain ⟨hs₁, ⟨_, he₁, hrefuse⟩, -⟩ := h
  obtain ⟨⟩ := Except.ok.inj (hs₁.symm.trans hs₂)
  obtain ⟨rfl, -⟩ := he₁.unique he₂
  exact hne (hrefuse _ rfl)

theorem not_rewrites_of_ended (h : m.searchAt l.text l.pos = .ok none) : ¬ Rewrites g m f l l' := by
  rintro ⟨hs, -, -, -⟩
  simp [h] at hs

theorem not_declines_of_ended (h : m.searchAt l.text l.pos = .ok none) : ¬ Declines g m f l l' := by
  rintro ⟨hs, -, -⟩
  simp [h] at hs

theorem Ends.unique {k : Nat} {u : Text} {s₂ : Store} (h : Ends g m f l n out s') (h₂ : Ends g m f l k u s₂) :
    n = k ∧ out = u ∧ s' = s₂ := by
  induction h generalizing k with
  | ended h =>
    cases h₂ with
    | ended => exact ⟨rfl, rfl, rfl⟩
    | rewrite h₂ => exact absurd h₂ (not_rewrites_of_ended h)
    | decline h₂ => exact absurd h₂ (not_declines_of_ended h)
  | rewrite h _ ih =>
    cases h₂ with
    | ended h₂ => exact absurd h (not_rewrites_of_ended h₂)
    | rewrite h₂ next =>
      obtain ⟨rfl, hrest⟩ := ih (h.unique h₂ ▸ next)
      exact ⟨rfl, hrest⟩
    | decline h₂ => exact absurd h h₂.not_rewrites
  | decline h _ ih =>
    cases h₂ with
    | ended h₂ => exact absurd h (not_declines_of_ended h₂)
    | rewrite h₂ => exact absurd h₂ h.not_rewrites
    | decline h₂ next => exact ih (h.unique h₂ ▸ next)

/-- Where the rule has come to an end, a walk over the text meets declined matches only. A second run of the rule makes
no rewrite, whatever it finds in the store, and leaves the text as it is. -/
theorem saturated_text_is_stable (hm : m.Lawful)
    (hd : ∀ found s₁ s₁' s₂, g.Refuses f found s₁ s₁' → ∃ s₂', g.Refuses f found s₂ s₂')
    (h : g.Saturates m f t s out s') :
    (∀ found, m.Meets out 0 found → ∀ s₁, ∃ s₂, g.Refuses f found s₁ s₂) ∧
    ∀ s₁, (∃ s₂, Ends g m f ⟨out, 0, s₁⟩ 0 out s₂ ∧ g.Saturates m f out s₁ out s₂) ∧
      ∀ n u s₂, Ends g m f ⟨out, 0, s₁⟩ n u s₂ → n = 0 ∧ u = out := by
  have hdeclined : ∀ found, m.Meets out 0 found → ∀ s₁, ∃ s₂, g.Refuses f found s₁ s₂ := fun found hmeets s₁ => by
    obtain ⟨n, hends⟩ := (saturates_iff_ends hm).1 h
    obtain ⟨s, s', hrefuse⟩ := hends.refuses (past_zero t s) found hmeets
    exact hd found s s' s₁ hrefuse
  refine ⟨hdeclined, fun s₁ => ?_⟩
  obtain ⟨s₂, hends⟩ := ends_of_refuses (l := ⟨out, 0, s₁⟩) hm (.inl (Text.isBoundary_append [] out)) hdeclined
  refine ⟨⟨s₂, hends, (saturates_iff_ends hm).2 ⟨0, hends⟩⟩, fun n u s₃ hother => ?_⟩
  obtain ⟨rfl, rfl, -⟩ := hends.unique hother
  exact ⟨rfl, rfl⟩

/-- A number becomes a sign, and a seven stays. -/
def signNumber (found : Match) : Program (Option Text) := return if found.whole = ['7'] then none else some ['#']

theorem signed_numbers_are_stable : (Pattern.atLeast 1 Char.isDigit).matcher.Lawful ∧
    (∀ found s₁ s₁' s₂, Grammar.empty.Refuses signNumber found s₁ s₁' →
      ∃ s₂', Grammar.empty.Refuses signNumber found s₂ s₂') ∧
    Grammar.empty.Saturates (Pattern.atLeast 1 Char.isDigit).matcher signNumber "1 7 22".toList .empty
      "# 7 #".toList .empty ∧
    ∃ s₂, Ends Grammar.empty (Pattern.atLeast 1 Char.isDigit).matcher signNumber ⟨"# 7 #".toList, 0, .empty⟩ 0
      "# 7 #".toList s₂ := by
  have hm := (Pattern.atLeast 1 Char.isDigit).matcher_lawful
  have hd : ∀ found s₁ s₁' s₂, Grammar.empty.Refuses signNumber found s₁ s₁' →
      ∃ s₂', Grammar.empty.Refuses signNumber found s₂ s₂' := fun _ _ _ s₂ ⟨reply, he, hrefuse⟩ =>
    ⟨s₂, reply, evaluates_pure_iff.2 ⟨(evaluates_pure_iff.1 he).1, rfl⟩, hrefuse⟩
  have hs : Grammar.empty.Saturates (Pattern.atLeast 1 Char.isDigit).matcher signNumber "1 7 22".toList .empty
    "# 7 #".toList .empty := ⟨9, by decide +kernel⟩
  obtain ⟨s₂, hends, -⟩ := ((saturated_text_is_stable hm hd hs).2 .empty).1
  exact ⟨hm, hd, hs, s₂, hends⟩

end Loop
end Markup
