import Markup.Proofs.Run

/-! # Rules that find nothing

A rule is quiet on a text in which its matcher finds nothing; running it there does nothing. -/
namespace Markup
open Grammar
variable {g : Grammar} {r : Rule} {rules : List Rule} {t : Text}

def Rule.Quiet (r : Rule) (t : Text) : Prop := ∃ m f, r.action = .pattern m f ∧ m.find [] t = none

theorem Rule.quiet_iff {m : Matcher} {f : Match → Program (Option Text)} (ha : r.action = .pattern m f) :
    r.Quiet t ↔ m.find [] t = none := by
  constructor
  · rintro ⟨_, _, ha', h⟩
    obtain ⟨rfl, -⟩ := Action.pattern.inj (ha'.symm.trans ha)
    exact h
  · exact fun h => ⟨m, f, ha, h⟩

theorem Rule.quiet_pattern_iff {name : String} {m : Matcher} {f : Match → Program (Option Text)} :
    (pattern name m f).Quiet t ↔ m.find [] t = none := quiet_iff rfl

theorem Rule.quiet_of_not_mem {name : String} {m : Matcher} {f : Match → Program (Option Text)} {d : Char}
    (h : ∀ found, m.find [] t = some found → found.text = t ∧ d ∈ found.whole) (hd : d ∉ t) :
    (pattern name m f).Quiet t := by
  refine ⟨m, f, rfl, ?_⟩
  cases hf : m.find [] t with
  | none => rfl
  | some found =>
    obtain ⟨htext, hmem⟩ := h found hf
    exact absurd (htext ▸ List.mem_append_left _ (List.mem_append_right _ hmem)) hd

theorem Rule.Quiet.applies (h : r.Quiet t) (s : Store) : g.Applies r t s t s := by
  obtain ⟨name, action⟩ := r
  obtain ⟨m, f, rfl, hf⟩ := h
  exact saturates_done hf s

theorem Grammar.appliesAll_quiet (h : ∀ r ∈ rules, r.Quiet t) (s : Store) : g.AppliesAll rules t s t s := by
  induction rules with
  | nil => exact appliesAll_nil
  | cons r rules ih =>
    exact appliesAll_cons.2 ⟨t, s, (h r List.mem_cons_self).applies s, ih fun q hq => h q (List.mem_cons_of_mem r hq)⟩

end Markup
