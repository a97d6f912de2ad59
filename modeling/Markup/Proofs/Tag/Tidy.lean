import Markup.Proofs.Rule.Upholds
import Markup.Proofs.Tag.Strand

/-! # Tidy texts

A text is tidy when its tokens have values and the tags nest once the tokens are resolved. Tidy texts may be written
one behind the other and into elements, and white space may be taken off their ends. -/
namespace Markup
open Script
open Html (Neat)

structure Tidy (s : Store) (t : Text) : Prop where
  sound : Sound s t
  neat : Neat (s.detokenize t)

namespace Tidy
variable {s s' : Store} {t u v w : Text} {n : Nat} {ls : List Text} {tag : String}

theorem mono (h : Tidy s t) (hle : s.Le s') : Tidy s' t where
  sound := Same.mono h.sound hle hle
  neat := by
    have hsame : Same Clean s s' t t := Same.mono h.sound (.refl s) hle
    rw [← hsame.detokenize_eq]
    exact h.neat

theorem of_not_mem (hsemi : ';' ∉ t) (h : Neat t) : Tidy s t where
  sound := same_of_not_mem hsemi
  neat := by
    rw [s.detokenize_of_marker fun hm => hsemi (hm.subset (by decide))]
    exact h

theorem nil : Tidy s [] := of_not_mem List.not_mem_nil Neat.nil

/-- Tidy texts may stand on both sides of one that belongs to no token. -/
theorem between (hu : Tidy s u) (hm : Same Solid s s t t ∧ Neat (s.detokenize t)) (hv : Tidy s v) :
    Tidy s (u ++ t ++ v) := by
  refine ⟨hu.sound.between hm.1 hv.sound, ?_⟩
  obtain ⟨⟨g, hg, -, rfl, -⟩, hgneat⟩ := hu
  obtain ⟨⟨m, hsolid, -, rfl, -⟩, hmneat⟩ := hm
  obtain ⟨⟨k, hk, -, rfl, -⟩, hkneat⟩ := hv
  have hclean : Clean (g ++ m ++ k) := hsolid g k hg hk
  have hleft : Clean (g ++ m) := hclean.slice (List.prefix_append _ _).isInfix
  rw [← spell_append, ← spell_append, Store.detokenize_append hclean, Store.detokenize_append hleft]
  exact (hgneat.append hmneat).append hkneat

theorem between_walled (hu : Tidy s u) (ht : walled t = true) (hneat : Neat t) (hv : Tidy s v) :
    Tidy s (u ++ t ++ v) := by
  refine hu.between ⟨same_of_walled ht, ?_⟩ hv
  rw [s.detokenize_of_marker fun hm => semicolon_not_mem_of_walled ht (hm.subset (by decide))]
  exact hneat

theorem newline (hu : Tidy s u) (hv : Tidy s v) : Tidy s (u ++ '\n' :: v) := by
  have h := hu.between_walled (t := ['\n']) (by decide) (Neat.of_not_mem (by decide)) hv
  rwa [List.append_assoc] at h

theorem joinLines (h : ∀ l ∈ ls, Tidy s l) : Tidy s (Text.joinLines ls) := by
  induction ls with
  | nil => exact nil
  | cons l ls ih =>
    rw [List.forall_mem_cons] at h
    cases ls with
    | nil =>
      rw [Text.joinLines_singleton]
      exact h.1
    | cons k ls =>
      rw [Text.joinLines_cons_cons]
      exact h.1.newline (ih h.2)

theorem of_lines (h : ∀ l ∈ t.lines, Tidy s l) : Tidy s t := by
  rw [← Text.joinLines_lines t]
  exact joinLines h

theorem breakLines (h : ∀ l ∈ t.lines, Tidy s l) : Tidy s (Text.breakLines t) := by
  have hbr : Neat "<br>".toList := Neat.void_bare (by decide : Html.IsName "br".toList) (by decide)
  rw [← Text.joinLines_lines t, Text.breakLines_joinLines fun l hl => Text.not_mem_of_mem_lines hl]
  generalize t.lines = ls at h
  induction ls with
  | nil => exact nil
  | cons l ls ih =>
    rw [List.forall_mem_cons] at h
    cases ls with
    | nil => simpa [List.intercalate] using h.1
    | cons k ls =>
      have hrest := h.1.between_walled (t := "<br>".toList) (by decide) hbr (ih h.2)
      simpa [List.intercalate] using hrest

theorem element (h : Tidy s t) (ht : Html.IsPaired tag) : Tidy s (Html.element tag t) := by
  have hsemi : ';' ∉ tag.toList := ht.1.not_mem (by decide)
  refine ⟨(h.sound.element hsemi).clean, ?_⟩
  rw [h.sound.detokenize_element hsemi]
  exact h.neat.element ht

theorem block (h : Tidy s t) (ht : Html.IsPaired tag) : Tidy s (Html.block tag t) := by
  have hinner : Tidy s ('\n' :: t ++ ['\n']) := (nil.newline h).newline nil
  exact hinner.element ht

theorem element_append (h : Tidy s t) (ht : Html.IsPaired tag) (hv : Tidy s v) : Tidy s (Html.element tag t ++ v) :=
  nil.between ⟨h.sound.element (ht.1.not_mem (by decide)), (h.element ht).neat⟩ hv

theorem token_append (hn : Linked s s (n, n)) (h : s.Sealed n) (hv : Tidy s v) : Tidy s (Token.ofId n ++ v) :=
  nil.between ⟨same_token hn, h⟩ hv

theorem drop_front (h : Tidy s (w ++ v)) (hw : ';' ∉ w ∧ '<' ∉ w) : Tidy s v := by
  obtain ⟨hv, hsplit⟩ := h.sound.detokenize_peel hw.1
  exact ⟨hv, Neat.drop_front (hsplit ▸ h.neat) hw.2⟩

theorem drop_margin (h : Tidy s (w ++ v)) (hw : ∀ d ∈ w, isMargin d = true) : Tidy s v :=
  h.drop_front ⟨semicolon_not_mem_margin hw, fun hmem => absurd (hw _ hmem) (by decide)⟩

/-- The sides of a character that no token is written with are resolved by themselves. -/
theorem cut {d : Char} (h : Sound s (u ++ d :: v)) (hd : d ∉ Token.alphabet) :
    Sound s u ∧ Sound s v ∧ s.detokenize (u ++ d :: v) = s.detokenize u ++ d :: s.detokenize v := by
  obtain ⟨hu, hv, -⟩ := h.cut_char (c := d) hd
  refine ⟨hu, hv, ?_⟩
  obtain ⟨g, hg, -, hx, -⟩ := h
  obtain ⟨a, b, rfl, rfl, rfl⟩ := exists_of_spell_eq_append_cons hd hx.symm
  have hright : Clean (.char d :: b) := hg.slice (List.suffix_append _ _).isInfix
  have hone : s.detokenize (spell Prod.fst [.char d]) = [d] := s.detokenize_char d
  rw [hx, Store.detokenize_append hg, ← List.singleton_append, Store.detokenize_append hright, hone]
  rfl

theorem behind {d : Char} (hu : Neat (s.detokenize u)) (h : Tidy s (u ++ d :: v)) (hd : d ∉ Token.alphabet ∧ d ≠ '<') :
    Tidy s v := by
  obtain ⟨-, hv, hsplit⟩ := cut h.sound hd.1
  refine ⟨hv, ?_⟩
  have hneat := h.neat
  rw [hsplit] at hneat
  refine Neat.drop_front (w := [d]) (hu.of_append_left hneat) fun hmem => hd.2 ?_
  exact (List.mem_singleton.1 hmem).symm

theorem drop_back (h : Tidy s (u ++ w)) (hw : ∀ d ∈ w, d ∉ Token.alphabet ∧ d ≠ '<' ∧ d ≠ '>') : Tidy s u := by
  cases w with
  | nil => rwa [List.append_nil] at h
  | cons d w =>
    obtain ⟨hu, -, hsplit⟩ := cut h.sound (hw d List.mem_cons_self).1
    have hsemi : ';' ∉ w := fun hmem => (hw ';' (List.mem_cons_of_mem d hmem)).1 (by decide)
    have hneat := h.neat
    rw [hsplit, s.detokenize_of_marker fun hm => hsemi (hm.subset (by decide))] at hneat
    exact ⟨hu, hneat.drop_back ⟨fun hmem => (hw _ hmem).2.1 rfl, fun hmem => (hw _ hmem).2.2 rfl⟩⟩

theorem drop_space (h : Tidy s (u ++ w)) (hw : ∀ d ∈ w, isSpace d = true) : Tidy s u := by
  refine h.drop_back fun d hd => ⟨not_mem_alphabet_of_isMargin (isMargin_of_isSpace (hw d hd)), ?_, ?_⟩
  all_goals
    rintro rfl
    exact absurd (hw _ hd) (by decide)

end Tidy

namespace Program
variable {α : Type} {g : Grammar} {n : Nat} {R : Store → α → Prop} {s : Store} {t : Text} {p : Text → Program α}

theorem leads_sealed (h : Tidy s t) (hne : t ≠ [])
    (hp : ∀ i s', s.Le s' → Linked s' s' (i, i) → s'.Sealed i → Leads g n R (p (Token.ofId i)) s') :
    Leads g n R (hide t >>= p) s := by
  refine leads_token (h.sound.filled hne) fun i s' hle hlink htoken => hp i s' hle hlink ?_
  rw [Store.Sealed, htoken]
  exact h.neat

end Program
end Markup
