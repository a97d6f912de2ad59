import Markup.Proofs.Dialect.Outline
import Markup.Proofs.Listing.Phrase
import Mathlib.Algebra.Order.BigOperators.Group.List

/-! # Lists of phrases

A bulleted list of phrases is shown item by item. A phrase is shown as it was written unless it begins with a number
that makes it an item itself. -/
namespace Markup

theorem Text.count_joinLines {d : Char} (hd : d ≠ '\n') (ls : List Text) :
    (joinLines ls).count d = (ls.map (List.count d)).sum := by
  induction ls with
  | nil => rfl
  | cons l ls ih =>
    cases ls with
    | nil => simp [joinLines_singleton]
    | cons k ls =>
      rw [joinLines_cons_cons, List.count_append, List.count_cons_of_ne hd.symm, ih]
      rfl

namespace Listing
open Grammar
open Text (joinLines)
variable {l : Text} {cs : List Phrase} {done : List Text} {s : Store}

/-- Letters, digits, blanks, commas and periods, from a letter or a digit on and with no blank at the end. -/
structure Phrase where
  text : Text
  wordy : Wordy text
  first : text.head?.any Char.isAlphanum = true
  last : text.getLast? ≠ some ' '

theorem isSpace_of_isAlphanum {a : Char} (h : a.isAlphanum = true) : isSpace a = false :=
  (Bool.or_eq_true_iff.1 (h : (a.isAlpha || a.isDigit) = true)).elim isSpace_of_isAlpha isSpace_of_isDigit

namespace Phrase

theorem exists_cons (c : Phrase) : ∃ a u, c.text = a :: u ∧ a.isAlphanum = true := by
  have hfirst := c.first
  cases h : c.text with
  | nil => simp [h] at hfirst
  | cons a u => exact ⟨a, u, rfl, by simpa [h] using hfirst⟩

theorem flush (c : Phrase) : Flush c.text := by
  obtain ⟨a, u, hu, ha⟩ := c.exists_cons
  exact ⟨by simp [hu, isSpace_of_isAlphanum ha], c.wordy.not_mem (by decide)⟩

theorem isEntry (c : Phrase) : IsEntry (entry 0 c.text) := ⟨0, c.text, c.flush, rfl⟩

theorem not_mem_entry (c : Phrase) {d : Char} (hd : d.isAlphanum = false ∧ d ∉ " ,.*".toList) : d ∉ entry 0 c.text := by
  have hne : d ≠ ' ' ∧ d ≠ ',' ∧ d ≠ '.' ∧ d ≠ '*' := by simpa using hd.2
  have hmem : d ∉ c.text := c.wordy.not_mem ⟨hd.1, by simp [hne]⟩
  simp [entry_zero, hne, hmem]

theorem isChain_spaced (c : Phrase) : (entry 0 c.text).IsChain Line.Spaced := by
  have hstar : '*' ∉ ' ' :: c.text := by simp [c.wordy.not_mem (d := '*') (by decide)]
  exact List.isChain_cons_cons.2 ⟨fun _ => rfl, Line.isChain_spaced_of_not_mem hstar⟩

theorem trimEnd_entry (c : Phrase) : (entry 0 c.text).trimEnd = entry 0 c.text := by
  obtain ⟨a, u, hu, -⟩ := c.exists_cons
  have hentry : entry 0 c.text = "* ".toList ++ c.text := rfl
  refine Text.trimEnd_eq_self ?_
  rw [hentry, List.getLast?_append_of_ne_nil _ (by simp [hu]), Option.all_eq_true]
  intro b hb
  rcases c.wordy b (List.mem_of_mem_getLast? hb) with halpha | hblank
  · simp [isSpace_of_isAlphanum halpha]
  · have hne : b ≠ ' ' := fun h => c.last (h ▸ hb)
    have hpoint : b = ',' ∨ b = '.' := by simpa [hne] using hblank
    rcases hpoint with rfl | rfl <;> rfl

end Phrase

theorem count_block {tag : String} (htag : '<' ∉ tag.toList) (inner : Text) :
    (Html.block tag inner).count '<' = inner.count '<' + 2 := by
  have hnone : tag.toList.count '<' = 0 := List.count_eq_zero.2 htag
  simp [Html.block, Html.element, hnone]

theorem count_listHtml (items : List Text) : (listHtml items).count '<' = (items.map (List.count '<')).sum + 2 := by
  rw [listHtml_eq, count_block (by decide), Text.count_joinLines (by decide)]

theorem count_itemBlock (inner : Text) : (Html.block "li" inner).count '<' = inner.count '<' + 2 :=
  count_block (by decide) inner

theorem two_le_count_itemHtml (l : Text) : 2 ≤ (itemHtml l).count '<' := by
  fun_cases itemHtml l <;> simp [count_itemBlock]

theorem count_lt_itemHtml (hl : '<' ∉ l) (h : behindNumber? l ≠ none) :
    (Html.block "li" l).count '<' < (itemHtml l).count '<' := by
  rw [count_itemBlock, List.count_eq_zero_of_not_mem hl]
  fun_cases itemHtml l with
  | case1 hnone => exact absurd hnone h
  | case2 hnil => decide
  | case3 c rest hcons =>
    have htwo := two_le_count_itemHtml (c :: rest)
    rw [count_itemBlock]
    omega

theorem itemHtml_of_none (h : behindNumber? l = none) : itemHtml l = Html.block "li" l := by
  fun_cases itemHtml l with
  | case1 hnone => rfl
  | case2 hnil => simp [h] at hnil
  | case3 c rest hcons => simp [h] at hcons

theorem applies_phrases (hdone : ∀ l ∈ done.flatMap Text.lines, itemScanner.Passes l) (s : Store) :
    dialect.Applies item (joinLines (done ++ cs.map (entry 0 ·.text))) s
      (joinLines (done ++ cs.map (itemHtml ·.text))) s := by
  induction cs generalizing done with
  | nil =>
    rw [List.map_nil, List.map_nil, List.append_nil]
    exact saturates_done (find_item_eq_none hdone) s
  | cons c cs ih =>
    have hnext : Next (cs.map (entry 0 ·.text)) := fun l hl => by
      obtain ⟨d, -, rfl⟩ := List.mem_map.1 (List.mem_of_mem_head? hl)
      exact ⟨d.text, rfl⟩
    have hothers := isIndent_eq_false_of_next hnext
    have hrest := ih (passes_append hdone (passes_itemHtml c.wordy))
    rw [List.append_assoc, List.append_assoc] at hrest
    exact (applies_item_line hdone hothers (.inl rfl) isSpace_blank c.flush (c.wordy.runs_line s)).2
      ((applies_itemHtml c.wordy hdone hothers).2 hrest)

theorem not_mem_itemHtmls {d : Char} (hd : d.isAlphanum = false ∧ d ∉ " ,.".toList) (htag : d ∉ "<li>/\n".toList) :
    d ∉ joinLines (cs.map (itemHtml ·.text)) := fun h => by
  have hbreak : d ≠ '\n' := fun he => htag (by simp [he])
  obtain ⟨u, hu, hmem⟩ := Text.mem_of_mem_joinLines hbreak h
  obtain ⟨c, -, rfl⟩ := List.mem_map.1 hu
  exact (mem_itemHtml hmem).elim (c.wordy.not_mem hd) htag

theorem runs_phrases (cs : List Phrase) (s : Store) : dialect.Runs .list (joinLines (cs.map (entry 0 ·.text))) s
    (joinLines (cs.map (itemHtml ·.text))) s := by
  have happlies : dialect.Applies item (joinLines ([] ++ cs.map (entry 0 ·.text))) s
      (joinLines ([] ++ cs.map (itemHtml ·.text))) s := applies_phrases (by simp) s
  have hcolon : ':' ∉ joinLines (cs.map (itemHtml ·.text)) := not_mem_itemHtmls (by decide) (by decide)
  exact runs_iff.2 (appliesAll_cons.2 ⟨_, s, happlies,
    appliesAll_cons.2 ⟨_, s, (definition_quiet hcolon).applies s, appliesAll_nil⟩⟩)

theorem converts_phrases (hne : cs ≠ []) : dialect.Converts (joinLines (cs.map (entry 0 ·.text)))
    (listHtml (cs.map (itemHtml ·.text))) := by
  have hsigns : ∀ d ∈ Document.signs, d.isAlphanum = false ∧ d ∉ " ,.*".toList := by decide
  have hrun := runs_phrases cs .empty
  have hshow : Shows .empty (joinLines (cs.map (itemHtml ·.text))) _ :=
    .of_not_mem (not_mem_itemHtmls (by decide) (by decide))
  obtain ⟨c, cs, rfl⟩ := List.exists_cons_of_ne_nil hne
  have hall {P : Text → Prop} (h : ∀ d : Phrase, P (entry 0 d.text)) : ∀ l ∈ (c :: cs).map (entry 0 ·.text), P l :=
    List.forall_mem_map.2 fun d _ => h d
  rw [listHtml_eq]
  exact Document.converts_entries c.flush (List.forall_mem_cons.1 (hall Phrase.isEntry)).2
    (hall fun d a ha => d.not_mem_entry (hsigns a ha)) (hall Phrase.isChain_spaced)
    (hall Phrase.trimEnd_entry) hrun hshow

/-- A bulleted list of phrases is shown as what its items become, and with the phrases as they were written exactly if
none of them is the beginning of an item itself. -/
theorem phrases_are_shown (hne : cs ≠ []) :
    dialect.Converts (joinLines (cs.map (entry 0 ·.text))) (listHtml (cs.map (itemHtml ·.text))) ∧
    (dialect.Converts (joinLines (cs.map (entry 0 ·.text))) (listHtml (cs.map (Html.block "li" ·.text))) ↔
      ∀ c ∈ cs, ¬ Bulleted c.text) := by
  have hstar (c : Phrase) : c.text.head? ≠ some '*' := fun h => c.wordy.not_mem (by decide) (List.mem_of_mem_head? h)
  have htag (c : Phrase) : '<' ∉ c.text := c.wordy.not_mem (by decide)
  have hconverts := converts_phrases hne
  refine ⟨hconverts, fun h c hc hb => ?_, fun h => ?_⟩
  · have hlists := congrArg (List.count '<') (hconverts.unique h)
    have hlt : ((cs.map (Html.block "li" ·.text)).map (List.count '<')).sum <
        ((cs.map (itemHtml ·.text)).map (List.count '<')).sum := by
      rw [List.map_map, List.map_map]
      have hnumber := (bulleted_iff_behindNumber? (hstar c)).1 hb
      refine List.sum_lt_sum _ _ (fun d _ => ?_) ⟨c, hc, count_lt_itemHtml (htag c) hnumber⟩
      simpa [count_itemBlock, List.count_eq_zero_of_not_mem (htag d)] using two_le_count_itemHtml d.text
    rw [count_listHtml, count_listHtml] at hlists
    omega
  · have hitems : cs.map (itemHtml ·.text) = cs.map (Html.block "li" ·.text) := List.map_congr_left fun c hc =>
      itemHtml_of_none (not_ne_iff.1 fun hne => h c hc ((bulleted_iff_behindNumber? (hstar c)).2 hne))
    rwa [hitems] at hconverts

/-- A number makes the first phrase an item, and the last one is nothing but a number. -/
theorem phrases_are_shown_of_numbers : ∃ cs : List Phrase, cs ≠ [] ∧
    joinLines (cs.map (entry 0 ·.text)) = "* 1. a\n* b, 2.\n* 3.".toList ∧
    dialect.Converts "* 1. a\n* b, 2.\n* 3.".toList
      "<ul>\n<li>\n<li>\na\n</li>\n</li>\n<li>\nb, 2.\n</li>\n<li>\n<li>\n</li>\n</li>\n</ul>".toList ∧
    ¬ dialect.Converts "* 1. a\n* b, 2.\n* 3.".toList
      "<ul>\n<li>\n1. a\n</li>\n<li>\nb, 2.\n</li>\n<li>\n3.\n</li>\n</ul>".toList := by
  let a : Phrase := ⟨"1. a".toList, by decide, by decide, by decide⟩
  let b : Phrase := ⟨"b, 2.".toList, by decide, by decide, by decide⟩
  let c : Phrase := ⟨"3.".toList, by decide, by decide, by decide⟩
  have hne : [a, b, c] ≠ [] := List.cons_ne_nil _ _
  have hshown := phrases_are_shown hne
  have hitems : [a, b, c].map (itemHtml ·.text) = ["<li>\n<li>\na\n</li>\n</li>".toList, "<li>\nb, 2.\n</li>".toList,
      "<li>\n<li>\n</li>\n</li>".toList] := by
    cbv
  have hlines : joinLines ([a, b, c].map (entry 0 ·.text)) = "* 1. a\n* b, 2.\n* 3.".toList := rfl
  rw [hitems, hlines] at hshown
  refine ⟨[a, b, c], hne, hlines, hshown.1, fun h => hshown.2.1 h a (by simp) ?_⟩
  exact ⟨"1.".toList, " a".toList, .inr ⟨['1'], by decide, by decide, rfl⟩, rfl, rfl⟩

/-- A number in an item is not shown, although the item has one line. -/
theorem number_is_taken_for_item :
    dialect.Converts "* 1. a".toList "<ul>\n<li>\n<li>\na\n</li>\n</li>\n</ul>".toList ∧
    ¬ dialect.Converts "* 1. a".toList "<ul>\n<li>\n1. a\n</li>\n</ul>".toList := by
  have h : dialect.Converts "* 1. a".toList "<ul>\n<li>\n<li>\na\n</li>\n</li>\n</ul>".toList := ⟨12, by decide +kernel⟩
  exact ⟨h, fun hsame => absurd (h.unique hsame) (by decide)⟩

end Listing
end Markup
