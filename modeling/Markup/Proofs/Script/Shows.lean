import Markup.Proofs.Script.Tally

/-! # What a text shows

The text that is seen once the tokens are resolved, for texts in which nothing but tokens begins with a semicolon. Such
texts may be put together freely. -/
namespace Markup
open Script
variable {s s' : Store} {t u h k v : Text}

/-- A script whose characters have no semicolon among them. -/
def Unmarked (g : Script) : Prop := Glyph.char ';' ∉ g

theorem Unmarked.clean {g : Script} (hg : Unmarked g) : Clean g := fun hm => hg (hm.subset (by decide))

/-- With its tokens resolved, the text is `h`. -/
def Shows (s : Store) (t h : Text) : Prop := Same Unmarked s s t t ∧ s.detokenize t = h

namespace Shows

theorem sound (ht : Shows s t h) : Sound s t := ht.1.imp fun _ hg => hg.clean

theorem mono (ht : Shows s t h) (hle : s.Le s') : Shows s' t h := by
  refine ⟨ht.1.mono hle hle, ?_⟩
  rw [← ht.2]
  exact (Same.mono ht.sound hle (.refl s)).detokenize_eq

theorem of_not_mem (ht : ';' ∉ t) : Shows s t t := by
  have hclean : Unmarked (ofText t) := by simpa [Unmarked, ofText] using ht
  exact ⟨same_refl hclean, s.detokenize_of_marker fun hm => ht (hm.subset (by decide))⟩

theorem nil : Shows s [] [] := of_not_mem List.not_mem_nil

theorem append (ht : Shows s t h) (hu : Shows s u k) : Shows s (t ++ u) (h ++ k) := by
  obtain ⟨⟨g, hg, hk, rfl, hg'⟩, rfl⟩ := ht
  obtain ⟨⟨g', hg₂, hk₂, rfl, hg₂'⟩, rfl⟩ := hu
  have hunmarked : Unmarked (g ++ g') := by simpa [Unmarked] using ⟨hg, hg₂⟩
  refine ⟨⟨g ++ g', hunmarked, hk.append hk₂, by simp, ?_⟩, ?_⟩
  · rw [spell_append, ← hg', ← hg₂']
  · rw [← spell_append, Store.detokenize, Store.detokenize, Store.detokenize, Store.resolve_spell hunmarked.clean,
      Store.resolve_spell hg.clean, Store.resolve_spell hg₂.clean, List.flatMap_append]

theorem mint (hv : Sound s v) (hne : v ≠ []) : Shows (s.mint v).2 (Token.ofId s.size) (s.detokenize v) := by
  refine ⟨?_, s.detokenize_ofId_mint v⟩
  obtain ⟨g, hg, hk, rfl, hg'⟩ := hv
  have hlink := Twins.linked_mint ⟨hg, hk⟩ (spell_eq_nil.not.1 hne)
  rw [← hg'] at hlink
  exact ⟨[.token (s.size, s.size)], by simp [Unmarked], known_token hlink, by simp, by simp⟩

theorem token (hv : Shows s v h) (hne : v ≠ []) : Shows (s.mint v).2 (Token.ofId s.size) h :=
  hv.2 ▸ mint hv.sound hne

theorem element {tag : String} (ht : Shows s t h) (htag : ';' ∉ tag.toList) :
    Shows s (Html.element tag t) (Html.element tag h) := by
  rw [Html.element_eq, Html.element_eq]
  have hopening : ';' ∉ Html.opening tag := by simp [Html.opening, htag]
  have hclosing : ';' ∉ Html.closing tag := by simp [Html.closing, htag]
  exact ((of_not_mem hopening).append ht).append (of_not_mem hclosing)

theorem block {tag : String} (ht : Shows s t h) (htag : ';' ∉ tag.toList) :
    Shows s (Html.block tag t) (Html.block tag h) :=
  (((of_not_mem (by decide) : Shows s ['\n'] ['\n']).append ht).append (of_not_mem (by decide))).element htag

theorem anchor (ht : Shows s t h) (hu : Shows s u k) : Shows s (Html.anchor t u) (Html.anchor h k) := by
  rw [Html.anchor_eq, Html.anchor_eq]
  exact ((((of_not_mem (by decide)).append ht).append (of_not_mem (by decide))).append hu).append
    (of_not_mem (by decide))

theorem intercalate {sep : Text} (hsep : ';' ∉ sep) {ls hs : List Text} (hl : List.Forall₂ (Shows s) ls hs) :
    Shows s (sep.intercalate ls) (sep.intercalate hs) := by
  induction hl with
  | nil => exact nil
  | @cons l h ls hs hlh hl ih =>
    cases hl with
    | nil => simpa [List.intercalate] using hlh
    | cons => simpa [List.intercalate] using (hlh.append (of_not_mem hsep)).append ih

theorem joinLines {ls hs : List Text} (hl : List.Forall₂ (Shows s) ls hs) :
    Shows s (Text.joinLines ls) (Text.joinLines hs) := intercalate (by decide) hl

end Shows
end Markup
