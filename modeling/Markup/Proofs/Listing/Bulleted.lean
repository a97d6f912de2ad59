import Markup.Proofs.Listing.Items
import Markup.Proofs.Pattern.Complete
import Mathlib.Data.List.TakeWhile

/-! # Lines that begin items

An element that the item rule has written is passed over unless one of the lines inside begins with the mark of an item,
and then it is not: whatever follows the mark, the closing tag is there to make a content. -/
namespace Markup.Listing
open Pattern
open Text (joinLines startLines endLines)
variable {l mark t inner : Text} {prev : Option Char}

/-- The line begins with the mark of an item, and nothing or white space comes next. -/
def Bulleted (l : Text) : Prop := ∃ mark tail, IsMark mark ∧ l = mark ++ tail ∧ tail.head?.all isSpace = true

/-- An item is found at bulleted lines only. -/
theorem bulleted_of_hit (ht : t.head?.all (· == '\n') = true) (h : itemScanner prev (l ++ t) ≠ none) : Bulleted l := by
  obtain ⟨hit, hs⟩ := Option.ne_none_iff_exists'.1 h
  obtain ⟨head, _, hhead, -, -⟩ := itemScanner_eq_some hs
  obtain ⟨hsplit, _, htakes, -⟩ := takes_of_scanner hhead
  obtain ⟨-, mark, space, content, hm, ⟨hspace, hall⟩, -, hw, -⟩ := itemHead_takes_iff.1 htakes
  obtain ⟨c, space, rfl⟩ := List.exists_cons_of_ne_nil hspace
  have hc := hall c List.mem_cons_self
  rw [hw, List.append_assoc, List.append_assoc, List.append_eq_append_iff] at hsplit
  rcases hsplit with ⟨x, rfl, hx⟩ | ⟨y, rfl, hy⟩
  · obtain rfl : x = [] := by
      cases x with
      | nil => rfl
      | cons d x =>
        rw [hx] at ht
        obtain rfl : d = '\n' := by simpa using ht
        exact absurd (by simp) hm.newline_not_mem
    exact ⟨l ++ [], [], hm, by simp, rfl⟩
  · refine ⟨mark, y, hm, rfl, ?_⟩
    cases y with
    | nil => rfl
    | cons d y =>
      obtain rfl : c = d := (List.cons.inj hy).1
      exact hc

theorem passes_of_not_bulleted (h : ¬ Bulleted l) : itemScanner.Passes l := fun _ t ht =>
  not_ne_iff.1 fun hne => h (bulleted_of_hit (t := t) ht hne)

/-- White space and a content, and the rest from the end of a line on. -/
theorem exists_content (hspace : t.head?.any isSpace = true) (hsee : ∃ c ∈ t, isSpace c = false) :
    ∃ space content rest, t = space ++ content ++ rest ∧ (space ≠ [] ∧ ∀ c ∈ space, isSpace c = true) ∧
      content ≠ [] ∧ '\n' ∉ content := by
  have hne : t.dropWhile isSpace ≠ [] := by
    obtain ⟨c, hc, hcs⟩ := hsee
    rw [Ne, List.dropWhile_eq_nil_iff]
    exact fun h => by simp [h c hc] at hcs
  obtain ⟨d, rest, hd⟩ := List.exists_cons_of_ne_nil hne
  have hdn : (d != '\n') = true := by
    have hds : isSpace d = false := by simpa [hd] using List.head_dropWhile_not isSpace hne
    rw [bne_iff_ne]
    rintro rfl
    exact absurd isSpace_newline (by simp [hds])
  refine ⟨t.takeWhile isSpace, (d :: rest).takeWhile (· != '\n'), (d :: rest).dropWhile (· != '\n'), ?_,
    ⟨?_, List.all_eq_true.1 List.all_takeWhile⟩, by simp [hdn], fun h => ?_⟩
  · rw [List.append_assoc, List.takeWhile_append_dropWhile, ← hd, List.takeWhile_append_dropWhile]
  · cases t with
    | nil => contradiction
    | cons c t => simp [show isSpace c = true from hspace]
  · simpa using List.all_eq_true.1 List.all_takeWhile '\n' h

/-- The head of an item makes an item, with lines below it or without. -/
theorem itemScanner_ne_none (h : itemHead.scanner prev t ≠ none) : itemScanner prev t ≠ none := by
  obtain ⟨head, hhead⟩ := Option.ne_none_iff_exists'.1 h
  obtain ⟨-, caps, htakes, hg⟩ := takes_of_scanner hhead
  obtain ⟨-, -, -, content, -, -, -, -, rfl⟩ := itemHead_takes htakes
  have hg : head.groups = [some content] := hg
  rw [itemScanner, hhead]
  simp only [hg, Option.bind_eq_bind, Option.bind_some, List.head?_cons, Option.join_some]
  cases continuation? head.rest <;> exact Option.some_ne_none _

/-- With something to see behind it, every bulleted line begins an item. -/
theorem hit_of_bulleted (hprev : prev.all (· == '\n') = true) (hl : Bulleted l) (ht : t.head? = some '\n')
    (hsee : ∃ c ∈ t, isSpace c = false) : itemScanner prev (l ++ t) ≠ none := by
  obtain ⟨mark, tail, hm, rfl, htail⟩ := hl
  have hhead : (tail ++ t).head?.any isSpace = true := by
    cases tail with
    | nil => rw [List.nil_append, ht, Option.any_some, isSpace_newline]
    | cons c tail => exact htail
  obtain ⟨c, hc, hcs⟩ := hsee
  obtain ⟨space, content, rest, hsplit, hspace, hcontent⟩ :=
    exists_content hhead ⟨c, List.mem_append_right tail hc, hcs⟩
  have htext : mark ++ tail ++ t = (mark ++ space ++ content) ++ rest := by simp only [List.append_assoc, hsplit]
  rw [htext]
  exact itemScanner_ne_none (scanner_ne_none rfl
    (itemHead_takes_iff.2 ⟨hprev, mark, space, content, hm, hspace, hcontent, rfl, rfl⟩))

theorem lines_block (inner : Text) :
    (Html.block "li" inner).lines = "<li>".toList :: (inner.lines ++ ["</li>".toList]) := by
  have hblock : Html.block "li" inner = "<li>".toList ++ '\n' :: (inner ++ '\n' :: "</li>".toList) := by
    simp [Html.block, Html.element]
  rw [hblock, Text.lines_append_newline, Text.lines_append_newline]
  rfl

/-- The item rule finds an item in its own element exactly when a line inside is bulleted. -/
theorem item_quiet_block_iff : item.Quiet (Html.block "li" inner) ↔ ∀ l ∈ inner.lines, ¬ Bulleted l := by
  rw [item, Rule.quiet_pattern_iff, itemMatcher_eq]
  constructor
  · intro hnone l hl hb
    obtain ⟨ls, ms, hsplit⟩ := List.append_of_mem hl
    have hlines : (Html.block "li" inner).lines = ("<li>".toList :: ls) ++ l :: (ms ++ ["</li>".toList]) := by
      simp [lines_block, hsplit]
    have htext : Html.block "li" inner =
        endLines ("<li>".toList :: ls) ++ (l ++ startLines (ms ++ ["</li>".toList])) := by
      rw [← Text.joinLines_lines (Html.block "li" inner), hlines, Text.joinLines_append_cons]
    have hmiss := Scanner.search_eq_none_iff.1 hnone _ _ htext
    rw [List.append_nil] at hmiss
    refine hit_of_bulleted (Text.head?_reverse_endLines _) hb ?_ ⟨'<', ?_, by decide⟩ hmiss
    · cases ms <;> rfl
    · simp [startLines]
  · intro h
    have hflat : ∀ l ∈ (Html.block "li" inner).lines, '\n' ∉ l := fun l => Text.not_mem_of_mem_lines
    have hpass : ∀ l ∈ (Html.block "li" inner).lines, itemScanner.Passes l := by
      rw [lines_block, List.forall_mem_cons, List.forall_mem_append, List.forall_mem_singleton]
      exact ⟨itemScanner_passes (by decide), fun l hl =>
        passes_of_not_bulleted (h l hl), itemScanner_passes (by decide)⟩
    have hnone := Scanner.search_joinLines itemScanner_inLine hflat hpass (Text.lines_ne_nil _) []
    rwa [Text.joinLines_lines] at hnone

end Markup.Listing
