import Markup.Proofs.Listing.Entry
import Markup.Proofs.Text.Letters

/-! # Outlines

An outline is an item with the outlines below it. A list of them is a forest: it is written as a bulleted list and shown
as an unordered list in HTML. -/
namespace Markup

namespace Listing
open Text (joinLines startLines joinLines_cons)
variable {l : Text}

/-- Letters and blanks, with a letter at either end. -/
structure Label where
  text : Text
  words : ∀ c ∈ text, c.isAlpha = true ∨ c = ' '
  first : text.head?.any Char.isAlpha = true
  last : text.getLast?.any Char.isAlpha = true

theorem Label.exists_cons (label : Label) : ∃ a u, label.text = a :: u ∧ a.isAlpha = true := by
  have hfirst := label.first
  cases h : label.text with
  | nil => simp [h] at hfirst
  | cons a u => exact ⟨a, u, rfl, by simpa [h] using hfirst⟩

theorem Label.not_mem {d : Char} (hd : d.isAlpha = false ∧ d ≠ ' ') (label : Label) : d ∉ label.text := fun h =>
  (label.words d h).elim (fun halpha => by simp [halpha] at hd) hd.2

theorem Label.flush (label : Label) : Flush label.text := by
  obtain ⟨a, u, hu, ha⟩ := label.exists_cons
  exact ⟨by simp [hu, isSpace_of_isAlpha ha], label.not_mem (by decide)⟩

inductive Outline where
  | item (label : Label) (children : List Outline)

/-- A list in HTML. -/
def listHtml (items : List Text) : Text := "<ul>\n".toList ++ joinLines items ++ "\n</ul>".toList

namespace Outline
variable {t : Outline} {ts : List Outline}

def label : Outline → Label
  | item label _ => label

def children : Outline → List Outline
  | item _ children => children

mutual
/-- The item is one line, and the lines below it are indented. -/
def lines : Outline → List Text
  | item label children => ("* ".toList ++ label.text) :: (allLines children).map ("  ".toList ++ ·)

def allLines : List Outline → List Text
  | [] => []
  | t :: ts => t.lines ++ allLines ts
end

mutual
/-- The label of an item with children is a paragraph before their list. -/
def html : Outline → Text
  | item label children =>
    let inner :=
      if children.isEmpty then label.text
      else "<p>\n".toList ++ label.text ++ "\n</p>\n".toList ++ listHtml (allHtml children)
    "<li>\n".toList ++ inner ++ "\n</li>".toList

def allHtml : List Outline → List Text
  | [] => []
  | t :: ts => t.html :: allHtml ts
end

theorem html_childless (label : Label) :
    html (.item label []) = "<li>\n".toList ++ label.text ++ "\n</li>".toList := rfl

theorem html_parent (label : Label) {ts : List Outline} (hne : ts ≠ []) : html (.item label ts) = "<li>\n".toList ++
    ("<p>\n".toList ++ label.text ++ "\n</p>\n".toList ++ listHtml (allHtml ts)) ++ "\n</li>".toList := by
  obtain ⟨t, ts, rfl⟩ := List.exists_cons_of_ne_nil hne
  rfl

/-- What holds of a forest when it holds of the children of each outline in it holds of all forests. -/
theorem forest_induction {P : List Outline → Prop} (h : ∀ ts, (∀ t ∈ ts, P t.children) → P ts)
    (ts : List Outline) : P ts :=
  h ts fun t _ => forest_induction h t.children
termination_by sizeOf ts
decreasing_by
  have hlt := List.sizeOf_lt_of_mem ‹t ∈ ts›
  cases t with
  | item label children =>
    rw [item.sizeOf_spec] at hlt
    rw [Outline.children]
    omega

/-- Whether the item holds a line or blocks. -/
def stage (t : Outline) : Stage := if t.children.isEmpty then .line else .block

/-- What the item holds, without the indent. -/
def content (t : Outline) : Text := joinLines (t.label.text :: allLines t.children)

theorem lines_eq (t : Outline) : t.lines = entry 0 t.label.text :: indented (allLines t.children) := by
  cases t
  rfl

theorem allLines_cons (t : Outline) (ts : List Outline) :
    allLines (t :: ts) = entry 0 t.label.text :: (indented (allLines t.children) ++ allLines ts) := by
  rw [allLines, lines_eq, List.cons_append]

theorem exists_label : ∀ l ∈ allLines ts, ∃ depth label, l = entry depth (Label.text label) := by
  induction ts using forest_induction with
  | h ts ih =>
    induction ts with
    | nil => simp [allLines]
    | cons t ts ihs =>
      rw [List.forall_mem_cons] at ih
      rw [allLines_cons, List.forall_mem_cons, List.forall_mem_append, indented, List.forall_mem_map]
      refine ⟨⟨0, t.label, rfl⟩, fun l hl => ?_, ihs ih.2⟩
      obtain ⟨depth, label, rfl⟩ := ih.1 l hl
      exact ⟨depth + 1, label, rfl⟩

theorem not_mem_of_mem {d : Char} (hd : d.isAlpha = false ∧ d ∉ " *".toList) (hl : l ∈ allLines ts) : d ∉ l := by
  obtain ⟨depth, label, rfl⟩ := exists_label l hl
  have hlabel := label.not_mem (d := d) ⟨hd.1, fun h => hd.2 (h ▸ List.mem_cons_self)⟩
  have hne : d ≠ ' ' ∧ d ≠ '*' := by simpa using hd.2
  simp [entry, hlabel, hne]

theorem isEntry_of_mem (hl : l ∈ allLines ts) : IsEntry l := by
  obtain ⟨depth, label, rfl⟩ := exists_label l hl
  exact ⟨depth, label.text, label.flush, rfl⟩

theorem newline_not_mem (hl : l ∈ allLines ts) : '\n' ∉ l := not_mem_of_mem (by decide) hl

theorem next_allLines (ts : List Outline) : Next (allLines ts) := by
  cases ts with
  | nil => simp [Next, allLines]
  | cons t ts =>
    intro l hl
    rw [allLines_cons, List.head?_cons, Option.mem_some_iff] at hl
    exact ⟨t.label.text, hl.symm⟩

end Outline
end Listing
end Markup
