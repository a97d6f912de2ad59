import Markup.Proofs.Dialect.Ends
import Markup.Proofs.Listing.Twin
import Markup.Proofs.Rule.Twin
import Mathlib.Data.List.Induction

/-! # Table rows over texts that mean the same -/
namespace Markup.Table
open Pattern Program Script
variable {s₁ s₂ : Store} {x y : Text}

/-- Taking a class without semicolon off the end of a script takes characters only. -/
theorem reverse_dropWhile_spell {p : Char → Bool} (hp : p ';' = false) (f : Side) (g : Script) :
    ((spell f g).reverse.dropWhile p).reverse = spell f (g.reverse.dropWhile (p ·.face)).reverse := by
  induction g using List.reverseRecOn with
  | nil => rfl
  | append_singleton g x ih =>
    rw [spell_append, List.reverse_append, List.reverse_append, List.reverse_singleton, List.singleton_append]
    by_cases hx : p x.face = true
    · cases x with
      | char c =>
        rw [List.dropWhile_cons_of_pos (p := fun x : Glyph => p x.face) hx, ← ih]
        have hc : p c = true := hx
        simp [hc]
      | token n => simp [hp] at hx
    · have hlast := x.getLast?_spell f
      obtain ⟨u, hu⟩ := List.getLast?_eq_some_iff.1 hlast
      rw [List.dropWhile_cons_of_neg (p := fun x : Glyph => p x.face) hx]
      simp [hu, hx]

theorem trim_spell (f : Side) (g : Script) :
    Text.trim (spell f g) = spell f ((g.dropWhile (isSpace ·.face)).reverse.dropWhile (isSpace ·.face)).reverse := by
  have hsemi : isSpace ';' = false := by decide
  rw [Text.trim, dropWhile_spell (.inl hsemi), reverse_dropWhile_spell hsemi]

theorem same_trim (h : Same Clean s₁ s₂ x y) : Same Clean s₁ s₂ (Text.trim x) (Text.trim y) := by
  obtain ⟨g, hg, hk, rfl, rfl⟩ := h
  have hpart : Part ((g.dropWhile (isSpace ·.face)).reverse.dropWhile (isSpace ·.face)).reverse g := by
    have h₁ := List.dropWhile_suffix (l := g) (isSpace ·.face)
    have h₂ := List.dropWhile_suffix (l := (g.dropWhile (isSpace ·.face)).reverse) (isSpace ·.face)
    replace h₂ := List.reverse_prefix.2 h₂
    rw [List.reverse_reverse] at h₂
    exact .of_slice (h₂.isInfix.trans h₁.isInfix)
  exact ⟨_, hpart.clean hg, hk.part hpart, trim_spell _ g, trim_spell _ g⟩

theorem ofCell_eq (t : Text) : Alignment.ofCell t =
    if 2 ≤ t.length ∧ t.head?.any isSpace = true then
      if t.getLast?.any isSpace = true then .center else .right
    else .left := by
  unfold Alignment.ofCell
  split
  · next c d t => simp [List.getLast?_eq_some_getLast]
  · next h =>
    match t with
    | [] => rfl
    | [c] => simp
    | c :: d :: t => exact absurd rfl (h c d t)

/-- A token at the beginning of a cell is no white space, however long it is. -/
theorem ofCell_spell (f f' : Side) (g : Script) :
    Alignment.ofCell (spell f g) = Alignment.ofCell (spell f' g) := by
  have hlong (f : Side) : 2 ≤ (spell f g).length ∧ (spell f g).head?.any isSpace = true ↔
      2 ≤ g.length ∧ (g.head?.map Glyph.face).any isSpace = true := by
    rw [head?_spell]
    refine and_congr_left fun hs => ?_
    match g with
    | [] => simp
    | .char c :: [] => simp
    | .token n :: g =>
      have hs : isSpace ';' = true := hs
      exact absurd hs (by decide)
    | .char c :: e :: g =>
      have := List.length_pos_of_ne_nil (e.spell_ne_nil f)
      simp
      omega
  simp only [ofCell_eq, hlong, getLast?_spell]

theorem ofCell_eq_of_same (h : Same Clean s₁ s₂ x y) : Alignment.ofCell x = Alignment.ofCell y := by
  obtain ⟨g, -, -, rfl, rfl⟩ := h
  exact ofCell_spell _ _ g

/-- What stands before the contents of a cell. -/
def cellOpening (tag : String) (colspan : Nat) (align : Alignment) : Text :=
  let colspan := if colspan > 1 then [("colspan", Nat.toDigits 10 colspan)] else []
  '<' :: tag.toList ++ Html.attributes (colspan ++ align.attributes) ++ ['>']

theorem render_eq (tag : String) (c : Cell) :
    c.render tag = cellOpening tag c.colspan (Alignment.ofCell c.text) ++ Text.trim c.text ++ Html.closing tag := by
  simp [Cell.render, cellOpening, Html.closing]

theorem walled_cellOpening {tag : String} (ht : ';' ∉ tag.toList) (k : Nat) (a : Alignment) :
    walled (cellOpening tag k a) = true := by
  have hhead : (cellOpening tag k a).head? = some '<' := rfl
  have hlast : (cellOpening tag k a).getLast? = some '>' := List.getLast?_concat
  have hdigits : ';' ∉ Nat.toDigits 10 k := fun h => by
    have := Nat.isDigit_of_mem_toDigits (by omega) (by omega) h
    simp at this
  have halign : ';' ∉ Html.attributes a.attributes := by cases a <;> decide
  have hspan : ';' ∉ Html.attributes (if k > 1 then [("colspan", Nat.toDigits 10 k)] else []) := by
    split
    · simp [Html.attributes, hdigits]
    · simp [Html.attributes]
  have hsemi : ';' ∉ cellOpening tag k a := by simp [cellOpening, ht, Html.attributes_append, hspan, halign]
  simp [walled, hhead, hlast, hsemi, Token.marker]

theorem same_render {tag : String} (ht : ';' ∉ tag.toList) (h : Same Clean s₁ s₂ x y) (k : Nat) :
    Same Solid s₁ s₂ (Cell.render tag ⟨x, k⟩) (Cell.render tag ⟨y, k⟩) := by
  rw [render_eq, render_eq]
  simp only [ofCell_eq_of_same h]
  exact (same_of_walled (walled_cellOpening ht _ _)).around (same_trim h) (same_of_walled (walled_closing ht))

theorem splitCells_spell (g : Script) : ∃ cells : List (Script × Nat), (∀ c ∈ cells, c.1 <:+: g) ∧
    ∀ f : Side, splitCells (spell f g) = cells.map fun c => ⟨spell f c.1, c.2⟩ := by
  induction hl : g.length using Nat.strongRecOn generalizing g with
  | ind n ih =>
    by_cases hg : ∃ t, g = .char '|' :: t
    · obtain ⟨t, rfl⟩ := hg
      have hpipe : Whole (· == '|') := .inl (by decide)
      have hother : Whole (· != '|') := .inr (by decide)
      obtain ⟨pipes, hpipes, -⟩ := Listing.exists_ofText_takeWhile (p := (· == '|')) (by decide) t
      let below := t.dropWhile (·.face == '|')
      let rest := below.dropWhile (·.face != '|')
      have hbelow : below <:+ t := List.dropWhile_suffix _
      have hrest : rest <:+ t := (List.dropWhile_suffix _).trans hbelow
      have hlen : rest.length < n := by
        have := hrest.length_le
        rw [List.length_cons] at hl
        omega
      obtain ⟨cells, hcells, hread⟩ := ih _ hlen rest rfl
      have hcell : below.takeWhile (·.face != '|') <:+: below := (List.takeWhile_prefix _).isInfix
      have htext : below.takeWhile (·.face != '|') <:+: .char '|' :: t :=
        hcell.trans (hbelow.isInfix.trans (List.suffix_cons _ _).isInfix)
      refine ⟨(below.takeWhile (·.face != '|'), pipes.length + 1) :: cells, ?_, fun f => ?_⟩
      · rw [List.forall_mem_cons]
        exact ⟨htext, fun c hc => (hcells c hc).trans (hrest.isInfix.trans (List.suffix_cons _ _).isInfix)⟩
      · rw [spell_cons, Glyph.spell_char, List.singleton_append, splitCells]
        rw [dropWhile_spell hpipe, takeWhile_spell hpipe, hpipes, spell_ofText, takeWhile_spell hother,
          dropWhile_spell hother, hread]
        rfl
    · refine ⟨[], by simp, fun f => ?_⟩
      unfold splitCells
      split
      · next t h =>
        exact absurd (exists_char_of_spell_eq h (by decide)) hg
      · rfl

theorem same_renderRow {tag : String} (ht : ';' ∉ tag.toList) (h : Same Clean s₁ s₂ x y) :
    Same Solid s₁ s₂ (renderRow tag x) (renderRow tag y) := by
  obtain ⟨g, hg, hk, rfl, rfl⟩ := h
  obtain ⟨cells, hcells, hread⟩ := splitCells_spell g
  rw [Table.renderRow, Table.renderRow, hread, hread]
  refine Same.element ?_ (by decide)
  clear hread
  induction cells with
  | nil => exact same_of_not_mem List.not_mem_nil
  | cons c cells ih =>
    rw [List.forall_mem_cons] at hcells
    have hcell : Same Clean s₁ s₂ (spell Prod.fst c.1) (spell Prod.snd c.1) :=
      ⟨c.1, hg.slice hcells.1, hk.part (.of_slice hcells.1), rfl, rfl⟩
    have := (same_of_not_mem (t := []) List.not_mem_nil).between (same_render ht hcell c.2) (ih hcells.2)
    simpa using this

theorem progresses {f : Match → Program (Option Text)} {m : Matcher} (ha : row.action = .pattern m f) :
    Rule.Progresses dialect m f :=
  dialect_progress (show row ∈ dialect.rules .table by simp [dialect]) ha

theorem row_tracks {n : Nat} {b : Prop} : row.Tracks dialect n (Filled b) := by
  refine Rule.tracks_of_solid (matcher_twin (by decide)) (progresses rfl) fun s₁ s₂ m₁ m₂ hf hlike => ?_
  obtain ⟨-, inner, -, -, -, h₁⟩ := row_shape hf
  obtain ⟨body', h₁', hbody⟩ := hlike.group_some h₁
  have hheader : (m₁.group 2).isSome = (m₂.group 2).isSome := by
    have := hlike.group 2
    generalize m₁.group 2 = o₁, m₂.group 2 = o₂ at this ⊢
    cases this <;> rfl
  simp only [h₁, h₁', ← hheader]
  refine follows_pure (.some (same_renderRow ?_ hbody))
  split <;> decide

end Markup.Table
