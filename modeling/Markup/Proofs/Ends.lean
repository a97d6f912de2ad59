import Markup.Proofs.Run
import Markup.Proofs.Weight

/-! # Rules that come to an end

A pattern rule comes to an end when every round makes some size of the text smaller. The texts are kept within bounds
that the runs inside a round rely on. -/
namespace Markup

/-- From any text within the bounds the rule comes to an end within them, and no round of it declines its match. -/
structure Rule.Ends (g : Grammar) (Keep : Text → Prop) (r : Rule) : Prop where
  run : ∀ t s, Keep t → ∃ out after, g.Applies r t s out after ∧ Keep out
  round : ∀ m f, r.action = .pattern m f → ∀ t s found, Keep t → m.find [] t = some found →
    ∃ new mid, g.Evaluates (f found) s (some new) mid ∧ new ≠ found.whole

/-- No match is declined. -/
def Rule.Progresses (g : Grammar) (m : Matcher) (f : Match → Program (Option Text)) : Prop :=
  ∀ t found s, m.find [] t = some found → ∃ new mid, g.Evaluates (f found) s (some new) mid ∧ new ≠ found.whole

variable {g : Grammar} {Keep : Text → Prop}

theorem Grammar.appliesAll_of_ends {rules : List Rule} (h : ∀ r ∈ rules, r.Ends g Keep) {t : Text} (s : Store)
    (ht : Keep t) : ∃ out after, g.AppliesAll rules t s out after ∧ Keep out := by
  induction rules generalizing t s with
  | nil => exact ⟨t, s, appliesAll_nil, ht⟩
  | cons r rules ih =>
    obtain ⟨u, mid, hr, hu⟩ := (h r List.mem_cons_self).run t s ht
    obtain ⟨out, after, hrs, ho⟩ := ih (fun q hq => h q (List.mem_cons_of_mem _ hq)) mid hu
    exact ⟨out, after, appliesAll_cons.2 ⟨u, mid, hr, hrs⟩, ho⟩

namespace Rule
variable {name : String} {m : Matcher} {f : Match → Program (Option Text)}

theorem Progresses.of_evaluates (hp : Progresses g m f) {t : Text} {found : Match} (hf : m.find [] t = some found)
    {s s' : Store} {r : Option Text} (he : g.Evaluates (f found) s r s') : ∃ new, r = some new ∧ new ≠ found.whole := by
  obtain ⟨new, mid, hn, hne⟩ := hp t found s hf
  exact ⟨new, (he.unique hn).1, hne⟩

theorem ends_of_size (size : Text → Nat) (round : ∀ t s found, Keep t → m.find [] t = some found → found.text = t ∧
      ∃ new mid, g.Evaluates (f found) s (some new) mid ∧ size (found.replaceBy new) < size t ∧
        Keep (found.replaceBy new)) : (pattern name m f).Ends g Keep := by
  have progress {t : Text} {found : Match} {new : Text} (ht : found.text = t)
      (hs : size (found.replaceBy new) < size t) : new ≠ found.whole := by
    rintro rfl
    simp [ht] at hs
  refine ⟨fun t => ?_, fun m' f' ha t s found ht hf => ?_⟩
  · induction hn : size t using Nat.strongRecOn generalizing t with
    | ind n ih =>
      intro s ht
      cases hf : m.find [] t with
      | none => exact ⟨t, s, Grammar.saturates_done hf s, ht⟩
      | some found =>
        obtain ⟨htext, new, mid, he, hs, hk⟩ := round t s found ht hf
        obtain ⟨out, after, hsat, ho⟩ := ih _ (hn ▸ hs) _ rfl mid hk
        exact ⟨out, after, (Grammar.saturates_step hf he (progress htext hs)).2 hsat, ho⟩
  · obtain ⟨rfl, rfl⟩ := Action.pattern.inj ha
    obtain ⟨htext, new, mid, he, hs, -⟩ := round t s found ht hf
    exact ⟨new, mid, he, progress htext hs⟩

theorem ends_of_transform {change : Text → Program (Option Text)}
    (h : ∀ t s, Keep t → ∃ out after, g.Applies (transform name change) t s out after ∧ Keep out) :
    (transform name change).Ends g Keep :=
  ⟨h, fun _ _ ha => nomatch ha⟩

theorem ends_of_weight (w : Weight) (round : ∀ t s found, Keep t → m.find [] t = some found → found.text = t ∧
      ∃ new mid, g.Evaluates (f found) s (some new) mid ∧ (w.Apart new ∧ w.of new < w.of found.whole) ∧
        Keep (found.replaceBy new)) : (pattern name m f).Ends g Keep := by
  refine ends_of_size w.of fun t s found ht hf => ?_
  obtain ⟨rfl, new, mid, he, ⟨ha, hw⟩, hk⟩ := round t s found ht hf
  have := ha.of_replaceBy found
  exact ⟨rfl, new, mid, he, by omega, hk⟩

/-- Every round hides the match, and the match weighs something that tokens do not. -/
theorem ends_of_hides {w : Weight} (hw : w.IgnoresTokens)
    (keep : ∀ (found : Match) n, Keep found.text → Keep (found.replaceBy (Token.ofId n)))
    (round : ∀ t s found, Keep t → m.find [] t = some found → found.text = t ∧ 1 ≤ w.of found.whole ∧
      ∃ (mid : Store) (v : Text), g.Evaluates (f found) s (some (Token.ofId mid.size)) (mid.mint v).2) :
    (pattern name m f).Ends g Keep := by
  refine ends_of_weight w fun t s found ht hf => ?_
  obtain ⟨rfl, hpos, mid, v, he⟩ := round t s found ht hf
  have htoken := hw.plain mid.size
  refine ⟨rfl, Token.ofId mid.size, (mid.mint v).2, he, ⟨htoken.1, ?_⟩, keep found mid.size ht⟩
  rw [htoken.2]
  exact hpos

end Rule

end Markup
