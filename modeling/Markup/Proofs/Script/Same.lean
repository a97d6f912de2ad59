import Markup.Proofs.Html
import Markup.Proofs.Script.Linked
import Markup.Proofs.Script.Search
import Mathlib.Data.Option.Basic

/-! # Texts that mean the same

Two texts mean the same in two stores when they are the spellings of one script whose tokens are linked. What rules
write around such texts keeps them so. -/
namespace Markup
open Script

def Same (P : Script → Prop) (s₁ s₂ : Store) (x y : Text) : Prop :=
  ∃ g, P g ∧ Known s₁ s₂ g ∧ x = spell Prod.fst g ∧ y = spell Prod.snd g

/-- A clean script, with glyphs in it where `b` asks for some. -/
def Filled (b : Prop) (g : Script) : Prop := Clean g ∧ (b → g ≠ [])

variable {P Q : Script → Prop} {s₁ s₂ s₁' s₂' : Store} {x y x' y' u v : Text} {n : Nat × Nat}

theorem Same.imp (h : Same P s₁ s₂ x y) (hpq : ∀ g, P g → Q g) : Same Q s₁ s₂ x y := by
  obtain ⟨g, hg, hk⟩ := h
  exact ⟨g, hpq g hg, hk⟩

theorem Same.mono (h : Same P s₁ s₂ x y) (h₁ : s₁.Le s₁') (h₂ : s₂.Le s₂') : Same P s₁' s₂' x y := by
  obtain ⟨g, hg, hk, hx, hy⟩ := h
  exact ⟨g, hg, hk.mono h₁ h₂, hx, hy⟩

theorem Same.clean (h : Same Solid s₁ s₂ x y) : Same Clean s₁ s₂ x y := h.imp fun _ => Solid.clean

theorem Same.eq_nil_iff (h : Same P s₁ s₂ x y) : x = [] ↔ y = [] := by
  obtain ⟨g, -, -, rfl, rfl⟩ := h
  rw [spell_eq_nil, spell_eq_nil]

theorem Same.filled (h : Same Clean s₁ s₂ x y) (hx : x ≠ []) : Same (Filled True) s₁ s₂ x y := by
  obtain ⟨g, hg, hk, rfl, rfl⟩ := h
  exact ⟨g, ⟨hg, fun _ => spell_eq_nil.not.1 hx⟩, hk, rfl, rfl⟩

theorem Same.filled_of_solid (h : Same Solid s₁ s₂ x y) : Same (Filled True) s₁ s₂ x y :=
  h.imp fun _ hg => ⟨hg.clean, fun _ => hg.ne_nil⟩

theorem Same.eq_of_not_mem (h : Same P s₁ s₂ x y) (hx : ';' ∉ x) : x = y := by
  obtain ⟨g, -, -, rfl, rfl⟩ := h
  induction g with
  | nil => rfl
  | cons e g ih =>
    rw [spell_cons, List.mem_append, not_or] at hx
    cases e with
    | char c => rw [spell_cons, spell_cons, ih hx.2]; rfl
    | token k => exact absurd (List.mem_of_mem_head? (Token.head?_ofId k.1)) hx.1

theorem Same.of_filled {b : Prop} (h : Same (Filled b) s₁ s₂ x y) : Same Clean s₁ s₂ x y := h.imp fun _ hg => hg.1

theorem Same.unfilled (h : Same Clean s₁ s₂ x y) : Same (Filled False) s₁ s₂ x y := h.imp fun _ hg => ⟨hg, False.elim⟩

theorem Same.detokenize_eq (h : Same Clean s₁ s₂ x y) : s₁.detokenize x = s₂.detokenize y := by
  obtain ⟨g, hg, hk, rfl, rfl⟩ := h
  exact Store.detokenize_eq ⟨hg, hk⟩

theorem Same.detokenize_ne_nil (h : Same Clean s₁ s₂ x y) (hx : x ≠ []) : s₁.detokenize x ≠ [] := by
  obtain ⟨g, hg, hk, rfl, rfl⟩ := h
  exact Store.resolve_ne_nil ⟨hg, hk⟩ (spell_eq_nil.not.1 hx)

theorem same_refl {t : Text} (ht : P (ofText t)) : Same P s₁ s₂ t t :=
  ⟨ofText t, ht, known_ofText t, by rw [spell_ofText], by rw [spell_ofText]⟩

theorem same_of_not_mem {t : Text} (ht : ';' ∉ t) : Same Clean s₁ s₂ t t :=
  same_refl (clean_ofText fun hm => ht (hm.subset (by decide)))

theorem same_of_walled {t : Text} (ht : walled t = true) : Same Solid s₁ s₂ t t := same_refl (solid_ofText ht)

theorem same_token (hn : Linked s₁ s₂ n) : Same Solid s₁ s₂ (Token.ofId n.1) (Token.ofId n.2) :=
  ⟨[.token n], solid_token n, known_token hn, by simp, by simp⟩

theorem Same.append (h : Same Solid s₁ s₂ x y) (h' : Same Solid s₁ s₂ x' y') :
    Same Solid s₁ s₂ (x ++ x') (y ++ y') := by
  obtain ⟨g, hg, hk, rfl, rfl⟩ := h
  obtain ⟨g', hg', hk', rfl, rfl⟩ := h'
  exact ⟨g ++ g', hg.append hg', hk.append hk', by simp, by simp⟩

theorem Same.around (h : Same Solid s₁ s₂ x y) (hm : Same Clean s₁ s₂ u v) (h' : Same Solid s₁ s₂ x' y') :
    Same Solid s₁ s₂ (x ++ u ++ x') (y ++ v ++ y') := by
  obtain ⟨g, hg, hk, rfl, rfl⟩ := h
  obtain ⟨g', hg', hk', rfl, rfl⟩ := h'
  obtain ⟨m, hm, hkm, rfl, rfl⟩ := hm
  exact ⟨g ++ m ++ g', hg.around hg' hm, (hk.append hkm).append hk', by simp, by simp⟩

theorem Same.between (h : Same Clean s₁ s₂ x y) (hm : Same Solid s₁ s₂ u v) (h' : Same Clean s₁ s₂ x' y') :
    Same Clean s₁ s₂ (x ++ u ++ x') (y ++ v ++ y') := by
  obtain ⟨g, hg, hk, rfl, rfl⟩ := h
  obtain ⟨g', hg', hk', rfl, rfl⟩ := h'
  obtain ⟨m, hm, hkm, rfl, rfl⟩ := hm
  exact ⟨g ++ m ++ g', hm g g' hg hg', (hk.append hkm).append hk', by simp, by simp⟩

section
open Html

theorem walled_opening {tag : String} (h : ';' ∉ tag.toList) : walled (opening tag) = true := by
  have hhead : (opening tag).head? = some '<' := rfl
  have hlast : (opening tag).getLast? = some '>' := List.getLast?_concat
  have hsemi : ';' ∉ opening tag := by simp [opening, h]
  simp [walled, hhead, hlast, hsemi, Token.marker]

theorem walled_closing {tag : String} (h : ';' ∉ tag.toList) : walled (closing tag) = true := by
  have hhead : (closing tag).head? = some '<' := rfl
  have hlast : (closing tag).getLast? = some '>' := List.getLast?_concat
  have hsemi : ';' ∉ closing tag := by simp [closing, h]
  simp [walled, hhead, hlast, hsemi, Token.marker]

theorem Same.element {tag : String} (h : Same Clean s₁ s₂ x y) (ht : ';' ∉ tag.toList) :
    Same Solid s₁ s₂ (Html.element tag x) (Html.element tag y) := by
  rw [element_eq, element_eq]
  exact (same_of_walled (walled_opening ht)).around h (same_of_walled (walled_closing ht))

theorem Same.block {tag : String} (h : Same Clean s₁ s₂ x y) (ht : ';' ∉ tag.toList) :
    Same Solid s₁ s₂ (Html.block tag x) (Html.block tag y) := by
  have hbreak : Same Solid s₁ s₂ ['\n'] ['\n'] := same_of_walled (by decide)
  exact Same.element (hbreak.around h hbreak).clean ht

theorem Same.anchor (ht : Same Clean s₁ s₂ x y) (hl : Same Clean s₁ s₂ u v) :
    Same Solid s₁ s₂ (Html.anchor x u) (Html.anchor y v) := by
  rw [anchor_eq, anchor_eq]
  exact ((same_of_walled (by decide)).around ht (same_of_walled (by decide))).around hl (same_of_walled (by decide))

theorem Same.image (hs : Same Clean s₁ s₂ x y) (hl : Same Clean s₁ s₂ u v) :
    Same Solid s₁ s₂ (Html.image [("src", x), ("alt", u), ("title", u)])
      (Html.image [("src", y), ("alt", v), ("title", v)]) := by
  rw [image_eq, image_eq]
  exact (((same_of_walled (by decide)).around hs (same_of_walled (by decide))).around hl
    (same_of_walled (by decide))).around hl (same_of_walled (by decide))

theorem Same.image_unlabelled (hs : Same Clean s₁ s₂ x y) :
    Same Solid s₁ s₂ (Html.image [("src", x), ("alt", [])]) (Html.image [("src", y), ("alt", [])]) := by
  rw [image_unlabelled_eq, image_unlabelled_eq]
  exact (same_of_walled (by decide)).around hs (same_of_walled (by decide))

end

/-- The two matches take what means the same, and their groups do. -/
structure Match.Like (s₁ s₂ : Store) (m₁ m₂ : Match) : Prop where
  whole : Same Clean s₁ s₂ m₁.whole m₂.whole
  group : ∀ i, Option.Rel (Same Clean s₁ s₂) (m₁.group i) (m₂.group i)

namespace Match
variable {m₁ m₂ : Match} {i : Nat}

theorem Like.group_some (h : m₁.Like s₁ s₂ m₂) (hi : m₁.group i = some x) :
    ∃ y, m₂.group i = some y ∧ Same Clean s₁ s₂ x y := by
  have := h.group i
  rw [hi] at this
  generalize m₂.group i = o at this ⊢
  cases this with
  | some h => exact ⟨_, rfl, h⟩

theorem Like.group_none (h : m₁.Like s₁ s₂ m₂) (hi : m₁.group i = none) : m₂.group i = none := by
  have := h.group i
  rw [hi] at this
  generalize m₂.group i = o at this ⊢
  cases this
  rfl

theorem like_of_cuts {m : Script.Match} {g : Script} (hm : m.Cuts g) (hg : Twins s₁ s₂ m.whole) :
    Match.Like s₁ s₂ (m.spell Prod.fst) (m.spell Prod.snd) := by
  have part {k : Script} (hk : Part k m.whole) : Same Clean s₁ s₂ (spell Prod.fst k) (spell Prod.snd k) := by
    have := hg.part hk
    exact ⟨k, this.clean, this.known, rfl, rfl⟩
  have whole := part (Part.of_slice (List.infix_refl _))
  refine ⟨whole, fun i => ?_⟩
  cases i with
  | zero => exact .some whole
  | succ i =>
    simp only [Markup.Match.group, Script.Match.spell, List.getElem?_map]
    cases hi : m.groups[i]? with
    | none => exact .none
    | some o =>
      cases o with
      | none => exact .none
      | some k => exact .some (part (hm.part k (List.mem_of_getElem? hi)))

end Match
end Markup
