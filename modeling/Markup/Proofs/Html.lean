import Markup.Html
import Markup.Proofs.Weight

/-! # Elements and their contents

An element is its tags around its contents, so it weighs what they weigh. -/
namespace Markup

namespace Html

def opening (tag : String) : Text := '<' :: tag.toList ++ ['>']

def closing (tag : String) : Text := "</".toList ++ tag.toList ++ ['>']

theorem element_eq (tag : String) (inner : Text) : element tag inner = opening tag ++ inner ++ closing tag := by
  simp [element, opening, closing]

theorem element_ne_nil (tag : String) (inner : Text) : element tag inner ≠ [] := by simp [element]

theorem block_ne_nil (tag : String) (inner : Text) : block tag inner ≠ [] := element_ne_nil tag _

theorem block_eq (tag : String) (inner : Text) :
    block tag inner = (opening tag ++ ['\n']) ++ inner ++ (['\n'] ++ closing tag) := by
  simp [block, element, opening, closing]

theorem block_injective {tag : String} {x y : Text} (h : block tag x = block tag y) : x = y := by
  rw [block_eq, block_eq] at h
  exact List.append_cancel_left (List.append_cancel_right h)

theorem attributes_append (u v : List (String × Text)) : attributes (u ++ v) = attributes u ++ attributes v :=
  List.flatMap_append

theorem anchor_eq (target label : Text) :
    anchor target label = "<a href=\"".toList ++ target ++ "\">".toList ++ label ++ "</a>".toList := by
  rw [anchor, attributes, List.flatMap_singleton]
  simp only [List.append_assoc]
  rfl

theorem image_eq (source label : Text) :
    image [("src", source), ("alt", label), ("title", label)] =
      "<img src=\"".toList ++ source ++ "\" alt=\"".toList ++ label ++ "\" title=\"".toList ++ label ++
      "\">".toList := by
  simp only [image, attributes, List.flatMap_cons, List.flatMap_nil, List.append_assoc]
  rfl

theorem image_unlabelled_eq (source : Text) :
    image [("src", source), ("alt", [])] = "<img src=\"".toList ++ source ++ "\" alt=\"\">".toList := by
  simp only [image, attributes, List.flatMap_cons, List.flatMap_nil, List.append_assoc]
  rfl

end Html

namespace Weight
open Html
variable {w : Weight}

/-- Whether the tags of an element stand apart and weigh nothing. -/
def PlainTag (w : Weight) (tag : String) : Prop := w.Plain (opening tag) ∧ w.Plain (closing tag)

def PlainAnchor (w : Weight) : Prop :=
  w.Plain "<a href=\"".toList ∧ w.Plain "\">".toList ∧ w.Plain "</a>".toList

def PlainImage (w : Weight) : Prop :=
  w.Plain "<img src=\"".toList ∧ w.Plain "\" alt=\"".toList ∧ w.Plain "\" title=\"".toList ∧ w.Plain "\">".toList ∧
    w.Plain "\" alt=\"\">".toList

instance (w : Weight) (tag : String) : Decidable (w.PlainTag tag) := inferInstanceAs (Decidable (_ ∧ _))

instance (w : Weight) : Decidable w.PlainAnchor := inferInstanceAs (Decidable (_ ∧ _))

instance (w : Weight) : Decidable w.PlainImage := inferInstanceAs (Decidable (_ ∧ _))

theorem PlainTag.apart {tag : String} (h : w.PlainTag tag) (inner : Text) : w.Apart (element tag inner) := by
  rw [element_eq]
  exact h.1.1.between h.2.1 inner

theorem PlainTag.of_element {tag : String} (h : w.PlainTag tag) (inner : Text) :
    w.of (element tag inner) = w.of inner := by
  rw [element_eq, h.1.of_between h.2]

theorem PlainTag.plain {tag : String} (h : w.PlainTag tag) {inner : Text} (hi : w.Plain inner) :
    w.Plain (element tag inner) := ⟨h.apart inner, (h.of_element inner).trans hi.2⟩

theorem PlainTag.of_block {tag : String} (h : w.PlainTag tag) (hb : w.IgnoresBreaks) (inner : Text) :
    w.of (block tag inner) = w.of inner := by
  rw [block_eq, (h.1.append hb.plain).of_between (hb.plain.append h.2)]

theorem PlainAnchor.apart (h : w.PlainAnchor) (target label : Text) : w.Apart (anchor target label) := by
  have := h.1.1.between h.2.2.1 (target ++ "\">".toList ++ label)
  simpa only [anchor_eq, List.append_assoc] using this

theorem PlainAnchor.of_anchor (h : w.PlainAnchor) (target label : Text) :
    w.of (anchor target label) = w.of target + w.of label := by
  rw [anchor_eq, h.2.2.1.of_append_right, h.2.1.1.of_sides, h.1.1.of_append_left, h.1.2, h.2.1.2, h.2.2.2]
  omega

theorem PlainImage.plain (h : w.PlainImage) {source label : Text} (hs : w.Plain source) (hl : w.Plain label) :
    w.Plain (image [("src", source), ("alt", label), ("title", label)]) := by
  rw [image_eq]
  exact (((((h.1.append hs).append h.2.1).append hl).append h.2.2.1).append hl).append h.2.2.2.1

theorem PlainImage.plain_unlabelled (h : w.PlainImage) {source : Text} (hs : w.Plain source) :
    w.Plain (image [("src", source), ("alt", [])]) := by
  rw [image_unlabelled_eq]
  exact (h.1.append hs).append h.2.2.2.2

end Weight
end Markup
