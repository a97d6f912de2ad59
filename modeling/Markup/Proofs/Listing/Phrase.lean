import Markup.Proofs.Block.Quiet
import Markup.Proofs.Line.Quiet
import Markup.Proofs.Listing.Bulleted

/-! # Items of one line

An item that has been written stays in the text, where the item rule sees it again. A content that begins with a number
is taken for an item there, so that there is an item within the item in its place. -/
namespace Markup.Listing
open Grammar
open Text (joinLines startLines endLines joinLines_cons)
variable {l rest out : Text} {done others : List Text} {s s' : Store}

/-- The text behind the number at the beginning of a line, and behind the white space after the number. -/
def behindNumber? (l : Text) : Option Text :=
  let tail := (l.dropWhile Char.isDigit).tail
  if Block.isNumbered l && tail.head?.all isSpace then some (tail.dropWhile isSpace) else none

theorem behindNumber?_append {digits tail : Text} (hne : digits ≠ []) (hd : ∀ d ∈ digits, d.isDigit = true) :
    behindNumber? (digits ++ '.' :: tail) = if tail.head?.all isSpace then some (tail.dropWhile isSpace) else none := by
  have hdot : ¬ Char.isDigit '.' = true := by decide
  have hdrop : (digits ++ '.' :: tail).dropWhile Char.isDigit = '.' :: tail := by
    rw [List.dropWhile_append_of_pos hd, List.dropWhile_cons_of_neg hdot]
  rw [behindNumber?, hdrop, Block.isNumbered_append hne hd]
  rfl

/-- The line is its number, white space and the rest, and the white space is missing only where there is no rest. -/
theorem behindNumber?_eq_some (h : behindNumber? l = some rest) :
    ∃ mark space, IsMark mark ∧ l = mark ++ space ++ rest ∧
    (∀ c ∈ space, isSpace c = true) ∧ rest.head?.all (!isSpace ·) = true ∧ (space = [] → rest = []) := by
  have hl : Block.isNumbered l = true := by
    by_contra hfalse
    simp [behindNumber?, hfalse] at h
  obtain ⟨digits, tail, hne, hd, rfl⟩ := Block.exists_of_isNumbered hl
  rw [behindNumber?_append hne hd] at h
  obtain ⟨htail, hrest⟩ := Option.ite_none_right_eq_some.1 h
  obtain rfl := Option.some.inj hrest
  refine ⟨digits ++ ['.'], tail.takeWhile isSpace, .inr ⟨digits, hne, hd, rfl⟩, ?_,
    List.all_eq_true.1 List.all_takeWhile, ?_, fun hspace => ?_⟩
  · rw [List.append_assoc, List.takeWhile_append_dropWhile, List.append_assoc, List.singleton_append]
  · rw [Option.all_eq_true]
    intro a ha
    simpa [Option.mem_def.1 ha] using List.head?_dropWhile_not isSpace tail
  · cases tail with
    | nil => rfl
    | cons a tail =>
      have ha : isSpace a = true := htail
      rw [List.takeWhile_cons_of_pos ha] at hspace
      contradiction

theorem length_lt_of_behindNumber? (h : behindNumber? l = some rest) : rest.length < l.length := by
  obtain ⟨mark, space, hm, rfl, -⟩ := behindNumber?_eq_some h
  have hpos := List.length_pos_iff.2 hm.ne_nil
  simp only [List.length_append]
  omega

/-- Without a bullet a line begins an item if it has a number with white space or nothing behind it. -/
theorem bulleted_iff_behindNumber? (hstar : l.head? ≠ some '*') : Bulleted l ↔ behindNumber? l ≠ none := by
  constructor
  · rintro ⟨mark, tail, rfl | ⟨digits, hne, hd, rfl⟩, rfl, htail⟩
    · exact absurd rfl hstar
    · rw [List.append_assoc, List.singleton_append, behindNumber?_append hne hd, if_pos htail]
      exact Option.some_ne_none _
  · intro h
    obtain ⟨rest, hrest⟩ := Option.ne_none_iff_exists'.1 h
    obtain ⟨mark, space, hm, rfl, hspace, -, hnil⟩ := behindNumber?_eq_some hrest
    refine ⟨mark, space ++ rest, hm, List.append_assoc _ _ _, ?_⟩
    cases space with
    | nil => rw [hnil rfl]; rfl
    | cons a space => exact hspace a List.mem_cons_self

/-- What is left of an item whose content is a line. -/
def itemHtml (l : Text) : Text :=
  match _h : behindNumber? l with
  | none => Html.block "li" l
  | some [] => Html.block "li" "<li>\n</li>".toList
  | some (c :: rest) => Html.block "li" (itemHtml (c :: rest))
termination_by l.length
decreasing_by exact length_lt_of_behindNumber? _h

/-- Letters, digits, blanks, commas and periods. -/
def Wordy (l : Text) : Prop := ∀ c ∈ l, c.isAlphanum = true ∨ c ∈ " ,.".toList

instance (l : Text) : Decidable (Wordy l) := inferInstanceAs (Decidable (∀ c ∈ l, _))

theorem Wordy.not_mem {d : Char} (h : Wordy l) (hd : d.isAlphanum = false ∧ d ∉ " ,.".toList) : d ∉ l := fun hmem =>
  (h d hmem).elim (fun halpha => by simp [halpha] at hd) hd.2

/-- What stands behind a number is wordy again, and flush unless it is empty. -/
theorem Wordy.behindNumber? (h : Wordy l) (hrest : behindNumber? l = some rest) :
    Wordy rest ∧ (rest ≠ [] → Flush rest) := by
  obtain ⟨mark, space, -, rfl, -, hhead, -⟩ := behindNumber?_eq_some hrest
  have hwordy : Wordy rest := fun c hc => h c (List.mem_append_right _ hc)
  refine ⟨hwordy, fun hne => ⟨?_, hwordy.not_mem (by decide)⟩⟩
  obtain ⟨a, rest, rfl⟩ := List.exists_cons_of_ne_nil hne
  exact hhead

theorem mem_itemHtml {d : Char} (hd : d ∈ itemHtml l) : d ∈ l ∨ d ∈ "<li>/\n".toList := by
  have hblock {inner : Text} (hd : d ∈ Html.block "li" inner) : d ∈ inner ∨ d ∈ "<li>/\n".toList := by
    simp only [Html.block_eq, List.mem_append] at hd
    rcases hd with ((h | h) | h) | (h | h)
    · exact .inr ((by decide : ∀ d ∈ Html.opening "li", d ∈ "<li>/\n".toList) d h)
    · exact .inr ((by decide : ∀ d ∈ ['\n'], d ∈ "<li>/\n".toList) d h)
    · exact .inl h
    · exact .inr ((by decide : ∀ d ∈ ['\n'], d ∈ "<li>/\n".toList) d h)
    · exact .inr ((by decide : ∀ d ∈ Html.closing "li", d ∈ "<li>/\n".toList) d h)
  fun_induction itemHtml l with
  | case1 l hnone => exact hblock hd
  | case2 l hnil =>
    rcases hblock hd with h | h
    · exact .inr ((by decide : ∀ d ∈ "<li>\n</li>".toList, d ∈ "<li>/\n".toList) d h)
    · exact .inr h
  | case3 l c rest hcons ih =>
    obtain ⟨mark, space, -, rfl, -⟩ := behindNumber?_eq_some hcons
    rcases hblock hd with h | h
    · exact (ih h).imp_left (List.mem_append_right _)
    · exact .inr h

theorem runs_line (h : ∀ d ∈ '_' :: '*' :: Line.signs, d ∉ l) (s : Store) : dialect.Runs .line l s l s := by
  have hemphasis := Line.emphasis_quiet (h '_' (by simp)) (h '*' (by simp))
  exact runs_iff.2 (appliesAll_quiet (Line.rules_quiet hemphasis fun d hd =>
    h d (List.mem_cons_of_mem _ (List.mem_cons_of_mem _ hd))) s)

theorem Wordy.runs_line (h : Wordy l) (s : Store) : dialect.Runs .line l s l s :=
  Listing.runs_line (fun d hd => h.not_mem ((by decide :
    ∀ d ∈ '_' :: '*' :: Line.signs, d.isAlphanum = false ∧ d ∉ " ,.".toList) d hd)) s

theorem passes_append {u : Text} (hdone : ∀ l ∈ done.flatMap Text.lines, itemScanner.Passes l)
    (hu : ∀ l ∈ u.lines, itemScanner.Passes l) : ∀ l ∈ (done ++ [u]).flatMap Text.lines, itemScanner.Passes l := by
  rw [List.flatMap_append, List.flatMap_singleton, List.forall_mem_append]
  exact ⟨hdone, hu⟩

/-- The element of an item stands on the lines of its tags and of its content. -/
theorem joinLines_block (done : List Text) (inner : Text) (others : List Text) :
    joinLines (done ++ Html.block "li" inner :: others) =
      joinLines ((done ++ ["<li>".toList]) ++ inner :: "</li>".toList :: others) := by
  simp [Text.joinLines_append_cons, Html.block, Html.element, endLines, startLines]

theorem passes_opening : ∀ l ∈ Text.lines "<li>".toList, itemScanner.Passes l := by
  have hlines : Text.lines "<li>".toList = ["<li>".toList] := rfl
  rw [hlines, List.forall_mem_singleton]
  exact itemScanner_passes (by decide)

/-- The item rule goes on with what it has written, by induction on the contents within the contents. -/
theorem applies_itemHtml (hwordy : Wordy l) (hdone : ∀ l ∈ done.flatMap Text.lines, itemScanner.Passes l)
    (hothers : ∀ l ∈ others.head?, l.head?.all (!isIndent ·) = true) :
    dialect.Applies item (joinLines (done ++ Html.block "li" l :: others)) s out s' ↔
      dialect.Applies item (joinLines (done ++ itemHtml l :: others)) s out s' := by
  fun_induction itemHtml l generalizing done others with
  | case1 l hnone => exact .rfl
  | case2 l hnil =>
    obtain ⟨mark, space, hm, rfl, hspace, -⟩ := behindNumber?_eq_some hnil
    have hblank : space ++ ['\n'] ≠ [] ∧ ∀ b ∈ space ++ ['\n'], isSpace b = true := by
      simpa [or_imp, forall_and, isSpace_newline] using hspace
    have hclosing : Flush "</li>".toList := ⟨by decide, by decide⟩
    have hbefore : joinLines (done ++ Html.block "li" (mark ++ space ++ []) :: others) =
        joinLines ((done ++ ["<li>".toList]) ++ (mark ++ (space ++ ['\n']) ++ "</li>".toList) :: others) := by
      rw [joinLines_block]
      simp [Text.joinLines_append_cons, startLines]
    have hafter : joinLines (done ++ Html.block "li" "<li>\n</li>".toList :: others) =
        joinLines ((done ++ ["<li>".toList]) ++ Html.block "li" "</li>".toList :: others) := by
      rw [joinLines_block]
      simp [Text.joinLines_append_cons, startLines, Html.block, Html.element]
    rw [hbefore, hafter]
    exact applies_item_line (passes_append hdone passes_opening) hothers hm hblank hclosing (runs_line (by decide) s)
  | case3 l c rest hcons ih =>
    have hdone' := passes_append hdone passes_opening
    have hothers' : ∀ l ∈ ("</li>".toList :: others).head?, l.head?.all (!isIndent ·) = true := by
      rintro l ⟨⟩
      rfl
    obtain ⟨hrest, hflush⟩ := hwordy.behindNumber? hcons
    obtain ⟨mark, space, hm, rfl, hspace, -, hempty⟩ := behindNumber?_eq_some hcons
    have hne : space ≠ [] := fun h => List.cons_ne_nil c rest (hempty h)
    rw [joinLines_block, joinLines_block,
      applies_item_line hdone' hothers' hm ⟨hne, hspace⟩ (hflush (List.cons_ne_nil _ _))
      (hrest.runs_line s)]
    exact ih hrest hdone' hothers'

theorem passes_itemHtml (hwordy : Wordy l) : ∀ k ∈ (itemHtml l).lines, itemScanner.Passes k := by
  have hblock {inner : Text} (h : ∀ k ∈ inner.lines, itemScanner.Passes k) :
      ∀ k ∈ (Html.block "li" inner).lines, itemScanner.Passes k := by
    rw [lines_block, List.forall_mem_cons, List.forall_mem_append, List.forall_mem_singleton]
    exact ⟨itemScanner_passes (by decide), h, itemScanner_passes (by decide)⟩
  fun_induction itemHtml l with
  | case1 l hnone =>
    have hstar : l.head? ≠ some '*' := fun h => hwordy.not_mem (by decide) (List.mem_of_mem_head? h)
    refine hblock ?_
    rw [Text.lines_eq_singleton (hwordy.not_mem (by decide)), List.forall_mem_singleton]
    exact passes_of_not_bulleted fun h => (bulleted_iff_behindNumber? hstar).1 h hnone
  | case2 l hnil =>
    have hlines : Text.lines "<li>\n</li>".toList = ["<li>".toList, "</li>".toList] := rfl
    refine hblock ?_
    rw [hlines, List.forall_mem_cons, List.forall_mem_singleton]
    exact ⟨itemScanner_passes (by decide), itemScanner_passes (by decide)⟩
  | case3 l c rest hcons ih => exact hblock (ih (hwordy.behindNumber? hcons).1)

end Markup.Listing
