import Markup.Dialect
import Markup.Proofs.Ends
import Markup.Proofs.Html
import Markup.Proofs.Table.Shape

/-! # The table stage comes to an end

A row that has been written out has no pipe left. -/
namespace Markup.Table
open Pattern Grammar

theorem not_mem_of_mem_splitCells {body : Text} {c : Cell} (h : c ∈ splitCells body) : '|' ∉ c.text := by
  fun_induction splitCells body with
  | case1 t ih =>
    rcases List.mem_cons.1 h with rfl | h
    · intro hp
      have := List.all_eq_true.1 List.all_takeWhile _ hp
      simp at this
    · exact ih h
  | case2 body hb => exact absurd h List.not_mem_nil

theorem mem_of_mem_splitCells {body : Text} {c : Cell} (h : c ∈ splitCells body) {x : Char} (hx : x ∈ c.text) :
    x ∈ body := by
  fun_induction splitCells body with
  | case1 t ih =>
    have hbelow := (List.dropWhile_suffix (l := t) (· == '|')).subset
    rcases List.mem_cons.1 h with rfl | h
    · exact List.mem_cons_of_mem _ (hbelow (List.takeWhile_subset _ hx))
    · exact List.mem_cons_of_mem _ (hbelow ((List.dropWhile_suffix _).subset (ih h)))
  | case2 body hb => exact absurd h List.not_mem_nil

/-- Neither a pipe nor a line break belongs to what is written around a cell. -/
theorem not_mem_render {tag : String} {c : Cell} {x : Char} (hx : x = '|' ∨ x = '\n') (ht : x ∉ tag.toList)
    (hc : x ∉ c.text) :
    x ∉ c.render tag := by
  have trim : x ∉ Text.trim c.text := fun h => hc <| by
    have h := (List.dropWhile_suffix _).subset (List.mem_reverse.1 h)
    exact (List.dropWhile_suffix _).subset (List.mem_reverse.1 h)
  have digits : x ∉ Nat.toDigits 10 c.colspan := fun h => by
    have := Nat.isDigit_of_mem_toDigits (by omega) (by omega) h
    rcases hx with rfl | rfl <;> simp at this
  have colspan : x ∉ Html.attributes (if c.colspan > 1 then [("colspan", Nat.toDigits 10 c.colspan)] else []) := by
    split
    · rcases hx with rfl | rfl <;> simp [Html.attributes, digits]
    · simp [Html.attributes]
  have align : x ∉ Html.attributes (Alignment.ofCell c.text).attributes := by
    rcases hx with rfl | rfl <;> cases Alignment.ofCell c.text <;> decide
  rcases hx with rfl | rfl <;> simp [Cell.render, Html.attributes_append, ht, trim, colspan, align]

theorem not_mem_renderRow {tag : String} {body : Text} {x : Char} (hx : x = '|' ∨ x = '\n') (ht : x ∉ tag.toList)
    (hcells : ∀ c ∈ splitCells body, x ∉ c.text) : x ∉ renderRow tag body := by
  have hinner : x ∉ (splitCells body).flatMap (Cell.render tag) := fun h => by
    obtain ⟨c, hc, h⟩ := List.mem_flatMap.1 h
    exact not_mem_render hx ht (hcells c hc) h
  rcases hx with rfl | rfl <;> simp [renderRow, Html.element, hinner]

theorem count_renderRow {tag : String} (ht : '|' ∉ tag.toList) (body : Text) :
    (Weight.count '|').of (renderRow tag body) = 0 := by
  have hrow : '|' ∉ renderRow tag body := not_mem_renderRow (.inl rfl) ht fun c => not_mem_of_mem_splitCells
  refine Weight.of_eq_zero (fun c hc => ?_) fun _ _ _ _ => rfl
  rw [Weight.count, beq_eq_false_iff_ne]
  rintro rfl
  exact hrow hc

/-- A row begins and ends with a pipe; the line that makes it a header has nothing to say. -/
theorem row_parts {behind t : Text} {m : Match} (h : rowPattern.matcher.find behind t = some m) :
    ∃ inner header, (∀ c ∈ header, c ∈ "\n|=".toList) ∧ m.whole = '|' :: inner ++ '|' :: header ∧
      m.group 1 = some ('|' :: inner) := by
  obtain ⟨caps, hk, hg⟩ := takes_of_match h
  obtain ⟨-, -, l, hrow, -, hl⟩ := rowPattern_takes_iff.1 hk
  obtain ⟨inner, -, rfl⟩ := isRow_iff.1 hrow
  rw [dropLast_row] at hl
  rcases hl with ⟨hw, rfl⟩ | ⟨k, hdiv, hw, rfl⟩
  · refine ⟨inner, [], fun c hc => absurd hc List.not_mem_nil, hw, ?_⟩
    rw [Match.group, hg]
    rfl
  · refine ⟨inner, '\n' :: k, ?_, by simpa using hw, ?_⟩
    · intro c hc
      rcases List.mem_cons.1 hc with rfl | hc
      · decide
      · rcases mem_divider hdiv hc with rfl | rfl <;> decide
    · rw [Match.group, hg]
      rfl

theorem row_shape {t : Text} {m : Match} (h : rowPattern.matcher.find [] t = some m) :
    m.text = t ∧ ∃ inner header, (∀ c ∈ header, c ∈ "\n|=".toList) ∧ m.whole = '|' :: inner ++ '|' :: header ∧
      m.group 1 = some ('|' :: inner) :=
  ⟨(takes_of_find h).1, row_parts h⟩

theorem row_ends : row.Ends dialect fun _ => True := by
  refine Rule.ends_of_weight (.count '|') fun t s found _ hf => ?_
  obtain ⟨rfl, inner, header, -, hw, hg⟩ := row_shape hf
  refine ⟨rfl, renderRow (if (found.group 2).isSome then "th" else "td") ('|' :: inner), s, ?_,
    ⟨⟨by simp [renderRow, Html.element], fun x hx => absurd hx List.not_mem_nil⟩, ?_⟩, trivial⟩
  · simp only [hg]
    exact evaluates_pure _ _
  · have hpipe : 1 ≤ (Weight.count '|').of found.whole := hw ▸ Weight.pos_of_char rfl [] _
    rw [count_renderRow (by split <;> decide)]
    exact hpipe

theorem ends (t : Text) (s : Store) : ∃ out after, dialect.Runs .table t s out after := by
  obtain ⟨out, after, h, -⟩ :=
    appliesAll_of_ends (show ∀ r ∈ [row], r.Ends dialect fun _ => True by simpa using row_ends) s trivial
  exact ⟨out, after, runs_iff.2 h⟩

end Markup.Table
