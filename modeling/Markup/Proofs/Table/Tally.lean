import Markup.Proofs.Rule.Tally
import Markup.Proofs.Table.Cells
import Markup.Proofs.Table.Rules

/-! # Table rows lose no content

The pipes between the cells and the white space around them are all that is left out of a row. -/
namespace Markup.Table
open Pattern Program Script
variable {s : Store} {c : Char} {x : Text} {n : Nat} {b : Prop}

theorem exists_eq_trim (t : Text) : ∃ u v : Text, t = u ++ Text.trim t ++ v ∧ (∀ d ∈ u, isSpace d = true) ∧
    ∀ d ∈ v, isSpace d = true := by
  have hall (t : Text) : ∀ d ∈ t.takeWhile isSpace, isSpace d = true := List.all_eq_true.1 List.all_takeWhile
  have hback := List.takeWhile_append_dropWhile (p := isSpace) (l := (t.dropWhile isSpace).reverse)
  replace hback := congrArg List.reverse hback
  rw [List.reverse_append, List.reverse_reverse] at hback
  refine ⟨t.takeWhile isSpace, ((t.dropWhile isSpace).reverse.takeWhile isSpace).reverse, ?_, hall t, fun d hd => ?_⟩
  · rw [Text.trim, List.append_assoc, hback, List.takeWhile_append_dropWhile]
  · exact hall _ d (List.mem_reverse.1 hd)

theorem tally_trim (hc : isKept c = true) (h : Sound s x) : s.tally c (Text.trim x) = s.tally c x := by
  obtain ⟨u, v, hx, hu, hv⟩ := exists_eq_trim x
  rw [hx] at h
  obtain ⟨hfront, hback⟩ := Sound.drop_back hc (fun d hd => isMargin_of_isSpace (hv d hd)) h
  obtain ⟨-, hmid⟩ := Sound.drop_front hc (fun d hd => isMargin_of_isSpace (hu d hd)) hfront
  rw [← hx] at hback
  rw [hback, hmid]

theorem holds_render (hc : isKept c = true) {tag : String} (ht : ';' ∉ tag.toList) (h : Sound s x) (k : Nat) :
    Holds Solid s c (s.tally c x) (Cell.render tag ⟨x, k⟩) := by
  have htrim : Holds Clean s c (s.tally c x) (Text.trim x) := ⟨same_trim h, Nat.le_of_eq (tally_trim hc h).symm⟩
  rw [render_eq]
  simpa using (holds_of_walled (walled_cellOpening ht _ _)).around htrim (holds_of_walled (walled_closing ht))

theorem splitCells_pipe (t : Text) : ∃ pipes cell, (∀ d ∈ pipes, d = '|') ∧ ∃ k,
    (t = pipes ++ cell ∧ splitCells ('|' :: t) = [⟨cell, k⟩] ∨
      ∃ rest, t = pipes ++ cell ++ '|' :: rest ∧ splitCells ('|' :: t) = ⟨cell, k⟩ :: splitCells ('|' :: rest)) := by
  obtain ⟨k, u, r, hk, hu, hr, hbody⟩ := exists_first_cell t
  have hfirst := splitCells_first hk hu hr
  rw [← hbody] at hfirst
  obtain ⟨k, rfl⟩ : ∃ j, k = j + 1 := ⟨k - 1, by omega⟩
  have ht : t = List.replicate k '|' ++ (u ++ r) := by simpa [List.replicate_succ] using hbody
  refine ⟨List.replicate k '|', u, fun d hd => List.eq_of_mem_replicate hd, k + 1, ?_⟩
  rcases hr with rfl | ⟨-, rest, rfl⟩
  · rw [List.append_nil] at ht
    rw [splitCells_nil] at hfirst
    exact .inl ⟨ht, hfirst⟩
  · rw [← List.append_assoc] at ht
    exact .inr ⟨rest, ht, hfirst⟩

theorem holds_cells (hc : isKept c = true) {tag : String} (ht : ';' ∉ tag.toList) (h : Sound s x) :
    Holds Clean s c (s.tally c x) ((splitCells ('|' :: x)).flatMap (Cell.render tag)) := by
  have hnil : Holds Clean s c 0 [] := holds_of_not_mem List.not_mem_nil
  induction hl : x.length using Nat.strongRecOn generalizing x with
  | ind n ih =>
    obtain ⟨pipes, cell, hp, k, ⟨rfl, hs⟩ | ⟨rest, rfl, hs⟩⟩ := splitCells_pipe x
    all_goals have hpipes : ∀ d ∈ pipes, isMargin d = true := fun d hd => hp d hd ▸ by decide
    · obtain ⟨hcell, htally⟩ := Sound.drop_front hc hpipes h
      rw [hs, htally]
      simpa using (holds_render hc ht hcell k).clean
    · rw [List.append_cons] at h
      obtain ⟨hfront, hrest, htally⟩ := Sound.cut hc (by decide) h (by decide)
      obtain ⟨hcell, hmargin⟩ := Sound.drop_front hc hpipes hfront
      have hcells := ih rest.length (by simp [← hl]; omega) hrest rfl
      have := hnil.between (holds_render hc ht hcell k) hcells
      rw [hs]
      refine Holds.weaken (by simpa using this) (Nat.le_of_eq ?_)
      simpa [hmargin] using htally

theorem row_preserves (hc : isKept c = true) : row.Preserves dialect n (Filled b) c := by
  refine Rule.preserves_of_solid (matcher_twin (by decide)) (progresses rfl) fun s m hf hlike => ?_
  obtain ⟨-, inner, header, hheader, hw, h₁⟩ := row_shape hf
  have hmargin : ∀ d ∈ "\n|=".toList, isMargin d = true := by decide
  have hback : ∀ d ∈ '|' :: header, isMargin d = true := by
    rw [List.forall_mem_cons]
    exact ⟨by decide, fun d hd => hmargin d (hheader d hd)⟩
  obtain ⟨hfront, hclose⟩ := Sound.drop_back hc hback (hw ▸ hlike.whole)
  obtain ⟨hinner, hopen⟩ := Sound.drop_front hc (w := ['|']) (by decide) hfront
  have htally : s.tally c m.whole = s.tally c inner := by
    rw [hw, hclose]
    exact hopen
  rw [htally]
  simp only [h₁]
  have htag : ';' ∉ (if (m.group 2).isSome = true then "th" else "td").toList := by split <;> decide
  exact leads_some ((holds_cells hc htag hinner).element (by decide))

end Markup.Table
