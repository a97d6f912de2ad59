import Markup.Dialect
import Markup.Proofs.Line.Shape
import Markup.Proofs.Rule.Quiet
import Markup.Proofs.Text.Lines
import Mathlib.Data.List.Chain

/-! # Texts without marks for the line rules

Each line rule takes a character of its own. -/
namespace Markup.Line
open Pattern
variable {t : Text}

/-- A star is followed by white space. -/
def Spaced (a b : Char) : Prop := a = '*' → isSpace b = true

theorem isChain_spaced_of_not_mem (h : '*' ∉ t) : t.IsChain Spaced :=
  List.Pairwise.isChain (List.pairwise_of_forall_mem_list fun a ha _ _ (hstar : a = '*') => absurd (hstar ▸ ha) h)

theorem isChain_spaced_joinLines {ls : List Text} (h : ∀ l ∈ ls, l.IsChain Spaced) :
    (Text.joinLines ls).IsChain Spaced := by
  induction ls with
  | nil => exact .nil
  | cons l ls ih =>
    rw [List.forall_mem_cons] at h
    cases ls with
    | nil => simpa [Text.joinLines_singleton] using h.1
    | cons k ls =>
      have hbreak : ¬ '\n' = '*' := by decide
      rw [Text.joinLines_cons_cons]
      refine List.isChain_append.2 ⟨h.1, List.isChain_cons.2 ⟨fun b _ hstar => absurd hstar hbreak, ih h.2⟩, ?_⟩
      rintro a - b hb -
      obtain rfl : b = '\n' := by simpa using hb.symm
      rfl

/-- A star in front of white space opens nothing. -/
theorem emphasis_quiet_of_isChain (hu : '_' ∉ t) (hs : t.IsChain Spaced) :
    emphasis.Quiet t := by
  refine ⟨_, _, rfl, ?_⟩
  cases hf : emphasisMatcher.find [] t with
  | none => rfl
  | some found =>
    obtain ⟨htext, hhit⟩ := emphasisScanner_lawful.search_hit hf
    obtain ⟨mark, hm, hwith⟩ := emphasisScanner_eq_some hhit
    obtain ⟨c, rest, hsplit, hc⟩ := emphasisWith_opens hwith
    have hmark : mark = ['_'] ∨ ∃ u, mark = u ++ ['*'] := by
      simp only [marks, List.mem_cons, List.not_mem_nil, or_false] at hm
      rcases hm with rfl | rfl | rfl
      · exact .inl rfl
      · exact .inr ⟨['*'], rfl⟩
      · exact .inr ⟨[], rfl⟩
    rw [Match.text, List.append_assoc, hsplit] at htext
    rcases hmark with rfl | ⟨u, rfl⟩
    · exact absurd (htext ▸ by simp) hu
    · have happ : t = (found.before ++ u) ++ '*' :: c :: rest := by
        rw [← htext]
        simp
      have hchain := (List.isChain_append.1 (happ ▸ hs)).2.1
      exact absurd ((List.isChain_cons_cons.1 hchain).1 rfl) (by simp [hc])
theorem emphasis_quiet (hu : '_' ∉ t) (hs : '*' ∉ t) : emphasis.Quiet t :=
  emphasis_quiet_of_isChain hu (isChain_spaced_of_not_mem hs)

theorem link_quiet (h : '-' ∉ t) : link.Quiet t :=
  Rule.quiet_of_not_mem (fun found hf => ⟨(takes_of_find hf).1, by
    rcases link_shape hf with ⟨_, -, hw, -⟩ | ⟨_, _, -, -, hw, -⟩
    · simp [hw]
    · simp [hw]⟩) h

theorem image_quiet (h : '[' ∉ t) : image.Quiet t :=
  Rule.quiet_of_not_mem (fun found hf => ⟨(takes_of_find hf).1, by
    obtain ⟨_, _, _, -, hw, -⟩ := image_shape hf
    simp [hw]⟩) h

theorem mail_quiet (h : '@' ∉ t) : mail.Quiet t :=
  Rule.quiet_of_not_mem (fun found hf => ⟨(takes_of_find hf).1, by
    obtain ⟨_, _, _, -, hw⟩ := mail_shape hf
    simp [hw]⟩) h

theorem mention_quiet (h : '@' ∉ t) : mention.Quiet t :=
  Rule.quiet_of_not_mem (fun found hf => ⟨(takes_of_find hf).1, by
    obtain ⟨_, -, -, hw, -⟩ := handle_shape hf
    simp [hw]⟩) h

theorem hashtag_quiet (h : '#' ∉ t) : hashtag.Quiet t :=
  Rule.quiet_of_not_mem (fun found hf => ⟨(takes_of_find hf).1, by
    obtain ⟨_, -, -, hw, -⟩ := handle_shape hf
    simp [hw]⟩) h

theorem superscript_quiet (h : '^' ∉ t) : superscript.Quiet t :=
  Rule.quiet_of_not_mem (fun found hf => ⟨(takes_of_find hf).1, by
    obtain ⟨_, -, hw, -⟩ := superscript_shape hf
    simp [hw]⟩) h

/-- The marks of the line rules but for those of emphasis. -/
def signs : Text := "-[@#^".toList

theorem rules_quiet (he : emphasis.Quiet t) (h : ∀ c ∈ signs, c ∉ t) : ∀ r ∈ rules, r.Quiet t := by
  simp only [rules, List.forall_mem_cons]
  exact ⟨he, link_quiet (h '-' (by decide)), image_quiet (h '[' (by decide)), mail_quiet (h '@' (by decide)),
    mention_quiet (h '@' (by decide)), hashtag_quiet (h '#' (by decide)), superscript_quiet (h '^' (by decide)),
    fun r hr => absurd hr List.not_mem_nil⟩

end Markup.Line
