import Markup.Proofs.Line.Row
import Markup.Proofs.Table.Lines
import Markup.Proofs.Table.Tally

/-! # The tags of rows

The line stage opens and closes its tags between two pipes, so what stands in a cell is tidy by itself, and so is the
row that is written for it. -/
namespace Markup.Table
open Line (Rows)
open Html (Neat)
variable {s s' : Store} {t u v w l out : Text} {c : Cell} {cells : List Cell} {tag : String} {n : Nat}

theorem tidy_between (h : Woven s (u ++ '|' :: (v ++ '|' :: w))) : Tidy s v := by
  rw [← List.cons_append, ← List.append_assoc] at h
  have hv : Woven s (u ++ '|' :: v) := h.before (by decide)
  have hu : Woven s u := hv.before (by decide)
  exact Tidy.behind hu.neat ⟨hv.sound, hv.neat⟩ (by decide)

theorem exists_pipes (h : Separated cells) (hc : c ∈ cells) :
    ∃ u w, joinCells cells ++ ['|'] = u ++ '|' :: (c.text ++ '|' :: w) := by
  obtain ⟨xs, ys, rfl⟩ := List.append_of_mem hc
  obtain ⟨k, hk⟩ : ∃ k, c.colspan = k + 1 := Nat.exists_eq_add_one.2 (h.spans c hc)
  obtain ⟨w, hw⟩ : ∃ w, joinCells ys ++ ['|'] = '|' :: w := by
    cases ys with
    | nil => exact ⟨[], rfl⟩
    | cons d ys =>
      obtain ⟨j, hj⟩ : ∃ j, d.colspan = j + 1 := Nat.exists_eq_add_one.2 (h.spans d (by simp))
      rw [joinCells_cons, hj, List.replicate_succ]
      exact ⟨_, rfl⟩
  refine ⟨joinCells xs ++ List.replicate k '|', w, ?_⟩
  have hsplit : joinCells (xs ++ c :: ys) = joinCells xs ++ joinCells (c :: ys) := List.flatMap_append
  rw [hsplit, joinCells_cons, hk, List.replicate_succ', ← hw]
  simp

theorem tidy_trim (h : Tidy s t) : Tidy s (Text.trim t) := by
  obtain ⟨u, v, ht, hu, hv⟩ := exists_eq_trim t
  rw [ht] at h
  exact (h.drop_space hv).drop_margin fun d hd => isMargin_of_isSpace (hu d hd)

theorem neat_cell (hneat : Neat t) (ht : tag ∈ ["td", "th"]) (k : Nat) (a : Alignment) :
    Neat (cellOpening tag k a ++ t ++ Html.closing tag) := by
  have htags : ∀ tag ∈ ["td", "th"], Html.IsName tag.toList ∧ tag.toList ∉ Html.voids := by decide
  obtain ⟨hname, hvoid⟩ := htags tag ht
  have hdigits : '<' ∉ Nat.toDigits 10 k := fun h =>
    absurd (Nat.isDigit_of_mem_toDigits (by omega) (by omega) h) (by decide)
  have halign : '<' ∉ Html.attributes a.attributes := by cases a <;> decide
  have hhead : (Html.attributes a.attributes).head?.all (· == ' ') = true := by cases a <;> rfl
  refine hneat.enclosed hname hvoid ?_ ?_
  · split
    · rfl
    · exact hhead
  · rw [Html.attributes_append, List.mem_append, not_or]
    refine ⟨?_, halign⟩
    split
    · simp [Html.attributes, hdigits]
    · exact List.not_mem_nil

theorem neat_render (h : Tidy s c.text) (ht : tag ∈ ["td", "th"]) :
    Same Script.Solid s s (c.render tag) (c.render tag) ∧ Neat (s.detokenize (c.render tag)) := by
  have hsemi : ∀ tag ∈ ["td", "th"], ';' ∉ tag.toList := by decide
  refine ⟨same_render (hsemi tag ht) h.sound c.colspan, ?_⟩
  have htrim := tidy_trim h
  rw [render_eq, htrim.sound.detokenize_around (walled_cellOpening (hsemi tag ht) _ _) (walled_closing (hsemi tag ht))]
  exact neat_cell htrim.neat ht _ _

theorem tidy_rowHtml (h : Woven s l) (hrow : isRow l = true) (ht : tag ∈ ["td", "th"]) : Tidy s (rowHtml tag l) := by
  obtain ⟨inner, -, rfl⟩ := isRow_iff.1 hrow
  obtain ⟨cells, hcells, hjoin⟩ := exists_separated inner
  have htexts : ∀ c ∈ cells, Tidy s c.text := fun c hc => by
    obtain ⟨u, w, hsplit⟩ := exists_pipes hcells hc
    rw [hjoin, List.cons_append] at hsplit
    exact tidy_between (hsplit ▸ h)
  rw [← renderRow_eq_rowHtml, dropLast_row, renderRow, ← hjoin, splitCells_joinCells hcells]
  refine Tidy.element ?_ (by decide)
  clear hjoin hcells
  induction cells with
  | nil => exact Tidy.nil
  | cons c cells ih =>
    rw [List.forall_mem_cons] at htexts
    exact Tidy.nil.between (neat_render htexts.1 ht) (ih htexts.2)

theorem tidy_rowLines {ls : List Text} (h : ∀ l ∈ ls, Line.Row s l) : ∀ l ∈ rowLines ls, Tidy s l := by
  have hrow {tag : String} {l : Text} (hl : Line.Row s l) (hr : isRow l = true) (ht : tag ∈ ["td", "th"]) :
      Tidy s (rowHtml tag l) := by
    refine tidy_rowHtml (hl.spun_of_head ?_).woven hr ht
    obtain ⟨inner, -, rfl⟩ := isRow_iff.1 hr
    exact fun h => nomatch Option.some.inj h
  have hline {l : Text} (hl : Line.Row s l) : Tidy s (lineHtml l) := by
    unfold lineHtml
    split
    · next hr => exact hrow hl hr (by decide)
    · exact hl.tidy
  fun_induction rowLines ls with
  | case1 => exact fun l hl => absurd hl List.not_mem_nil
  | case2 l => exact List.forall_mem_singleton.2 (hline (h l List.mem_cons_self))
  | case3 l k ls hheader ih =>
    rw [Bool.and_eq_true] at hheader
    simp only [List.forall_mem_cons] at h
    exact List.forall_mem_cons.2 ⟨hrow h.1 hheader.1 (by decide), ih h.2.2⟩
  | case4 l k ls _ ih =>
    rw [List.forall_mem_cons] at h
    exact List.forall_mem_cons.2 ⟨hline h.1, ih h.2⟩

theorem tidy_of_run (h : Rows s t) (he : dialect.run n .table t s = some (out, s')) : s' = s ∧ Tidy s out := by
  have hrun : dialect.AppliesAll [row] t s out s' := Grammar.runs_iff.1 ⟨n, he⟩
  have hnone : Rowless [] := ⟨by simp, by simp⟩
  have happlies : dialect.Applies row (Text.joinLines ([] ++ t.lines)) s (Text.joinLines ([] ++ rowLines t.lines)) s :=
    applies_rowLines hnone t.lines (fun _ => Text.not_mem_of_mem_lines) s
  rw [List.nil_append, Text.joinLines_lines] at happlies
  obtain ⟨rfl, rfl⟩ := hrun.unique (Grammar.appliesAll_cons.2 ⟨_, s, happlies, Grammar.appliesAll_nil⟩)
  exact ⟨rfl, .joinLines (tidy_rowLines h)⟩

end Markup.Table
