import Markup.Proofs.Document.Bulleted
import Markup.Proofs.Listing.Items

/-! # Nested lists

A forest that is written as a bulleted list is shown as nested lists in HTML, however deep and wide it is. -/
namespace Markup.Listing
open Grammar Outline
open Block (paragraphHtml paragraphOf settle isProse isProse_ofId)
open Text (joinLines)
variable {t : Outline} {ts : List Outline} {items : Text} {s s₁ : Store}

theorem listHtml_eq (items : List Text) : listHtml items = Html.block "ul" (joinLines items) := by
  change "<ul>\n".toList ++ joinLines items ++ "\n</ul>".toList = _
  simp [Html.block, Html.element]

theorem shows_list (h : Shows s₁ items (joinLines (allHtml ts))) :
    Shows (s₁.mint (Html.block "ul" items)).2 (Token.ofId s₁.size) (listHtml (allHtml ts)) := by
  rw [listHtml_eq]
  exact (h.block (by decide)).token (Html.block_ne_nil _ _)

theorem allLines_ne_nil (hne : ts ≠ []) : ∃ c ls, Flush c ∧ allLines ts = entry 0 c :: ls := by
  obtain ⟨t, ts, rfl⟩ := List.exists_cons_of_ne_nil hne
  exact ⟨t.label.text, _, t.label.flush, allLines_cons t ts⟩

/-- The blocks rules leave the lines before a forest as they are and hide the forest behind a token. -/
theorem appliesAll_forest (before : List Label) (hne : ts ≠ [])
    (hrun : dialect.Runs .list (joinLines (allLines ts)) s items s₁) :
    dialect.AppliesAll Block.marked (joinLines (before.map Label.text ++ allLines ts)) s
      (joinLines (before.map Label.text ++ [Token.ofId s₁.size])) (s₁.mint (Html.block "ul" items)).2 := by
  obtain ⟨c, ls, hc, hls⟩ := allLines_ne_nil hne
  have hsigns : ∀ d ∈ '*' :: '.' :: Block.signs, d.isAlpha = false ∧ d ≠ ' ' := by decide
  have hsigns' : ∀ d ∈ Block.signs, d.isAlpha = false ∧ d ∉ " *".toList := by decide
  have hmem {l : Text} (hl : l ∈ entry 0 c :: ls) : l ∈ allLines ts := hls ▸ hl
  have hentry : ∀ l ∈ ls, IsEntry l := fun l hl => isEntry_of_mem (hmem (List.mem_cons_of_mem _ hl))
  have hfree : ∀ l ∈ entry 0 c :: ls, ∀ d ∈ Block.signs, d ∉ l := fun l hl d hd =>
    not_mem_of_mem (hsigns' d hd) (hmem hl)
  rw [hls] at hrun ⊢
  refine Block.appliesAll_marked ?_ ?_ hc hentry hfree hrun
  · rw [List.forall_mem_map]
    exact fun label _ => label.flush.line
  · rw [List.forall_mem_map]
    exact fun label _ d hd => label.not_mem (hsigns d hd)

theorem isProse_label (label : Label) : isProse label.text = true := by
  obtain ⟨a, u, hu, -⟩ := label.exists_cons
  rw [Block.isProse_eq (label.not_mem (by decide)), hu]
  rfl

theorem runs_below (label : Label) (hne : ts ≠ []) (hrun : dialect.Runs .list (joinLines (allLines ts)) s items s₁) :
    dialect.Runs .block (joinLines (label.text :: allLines ts)) s
      (joinLines [Token.ofId (s₁.size + 1), Token.ofId s₁.size])
      ((s₁.mint (Html.block "ul" items)).2.mint (Html.block "p" label.text)).2 := by
  have hmarked := appliesAll_forest [label] hne hrun
  have hprose := isProse_label label
  have htoken := isProse_ofId s₁.size
  have hsettle : settle (s₁.size + 1) [[label.text], [Token.ofId s₁.size]] =
      [Token.ofId (s₁.size + 1), Token.ofId s₁.size] := by
    simp [settle, hprose, htoken]
  have hvalues : Block.paragraphs [[label.text], [Token.ofId s₁.size]] = [Html.block "p" label.text] := by
    simp [Block.paragraphs, hprose, htoken, paragraphHtml, Text.joinLines_singleton,
      Text.breakLines_of_not_mem label.flush.line]
  have hparagraph := Block.applies_settle (G := dialect) [] [[label.text], [Token.ofId s₁.size]]
    (by simpa using ⟨label.flush.line, Token.not_mem_ofId (by decide) s₁.size⟩) (by simp)
    (by simp [Text.Stretch, hprose, htoken]) (by simp [Text.Alternate, htoken]) (s₁.mint (Html.block "ul" items)).2
  rw [Store.size_mint, hsettle, hvalues] at hparagraph
  exact runs_iff.2 (appliesAll_append.2 ⟨_, _, hmarked, appliesAll_cons.2 ⟨_, _, hparagraph, appliesAll_nil⟩⟩)

theorem headless_label (label : Label) : Headless label.text := by
  obtain ⟨a, u, hu, ha⟩ := label.exists_cons
  have hstar : a ≠ '*' := fun h => absurd (h ▸ ha) (by decide)
  rw [Headless, Text.lines_eq_singleton label.flush.line, List.forall_mem_singleton, hu]
  simp [hstar, isDigit_of_isAlpha ha]

theorem renders_childless (label : Label) (s : Store) : Renders (.item label []) s label.text s where
  runs := by
    have hstar : '*' ∉ label.text := label.not_mem (by decide)
    have hscore : '_' ∉ label.text := label.not_mem (by decide)
    have hsigns : ∀ d ∈ Line.signs, d.isAlpha = false ∧ d ≠ ' ' := by decide
    have hquiet := Line.rules_quiet (Line.emphasis_quiet hscore hstar) fun d hd => label.not_mem (hsigns d hd)
    have hcontent : Outline.content (.item label []) = label.text := Text.joinLines_singleton label.text
    rw [hcontent]
    exact runs_iff.2 (appliesAll_quiet hquiet s)
  le := .refl s
  shows := by
    have hhtml : Outline.html (.item label []) = Html.block "li" label.text := by
      simp [html_childless, Html.block, Html.element]
    rw [hhtml]
    exact (Shows.of_not_mem (label.not_mem (by decide))).block (by decide)
  headless := headless_label label
  colon := label.not_mem (by decide)

/-- An item with children holds its label as a paragraph, and their list. -/
theorem renders_parent (label : Label) (hne : ts ≠ []) (hrun : dialect.Runs .list (joinLines (allLines ts)) s items s₁)
    (hle : s.Le s₁) (hshow : Shows s₁ items (joinLines (allHtml ts))) :
    Renders (.item label ts) s (joinLines [Token.ofId (s₁.size + 1), Token.ofId s₁.size])
      ((s₁.mint (Html.block "ul" items)).2.mint (Html.block "p" label.text)).2 where
  runs := by
    have hstage : Outline.stage (.item label ts) = .block := by simp [Outline.stage, Outline.children, hne]
    rw [hstage]
    exact runs_below label hne hrun
  le := (hle.trans (s₁.le_mint _)).trans (Store.le_mint _ _)
  shows := by
    have hhtml : Outline.html (.item label ts) =
        Html.block "li" (joinLines [Html.block "p" label.text, listHtml (allHtml ts)]) := by
      simp [html_parent label hne, Html.block, Html.element, Text.joinLines_cons_cons, Text.joinLines_singleton]
    have hlabel : Shows (s₁.mint (Html.block "ul" items)).2 (Html.block "p" label.text) (Html.block "p" label.text) :=
      (Shows.of_not_mem (label.not_mem (by decide))).block (by decide)
    have hparagraph := hlabel.token (Html.block_ne_nil _ _)
    rw [Store.size_mint] at hparagraph
    rw [hhtml]
    exact (Shows.joinLines (.cons hparagraph (.cons ((shows_list hshow).mono (Store.le_mint _ _)) .nil))).block
      (by decide)
  headless := by
    have hbreak (n : Nat) : '\n' ∉ Token.ofId n := Token.not_mem_ofId (by decide) n
    have hlines : ∀ l ∈ [Token.ofId (s₁.size + 1), Token.ofId s₁.size], '\n' ∉ l := by simp [hbreak]
    rw [Headless, Text.lines_joinLines (List.cons_ne_nil _ _) hlines]
    simp [Token.head?_ofId]
  colon := by
    have hbefore : ∀ l ∈ [Token.ofId (s₁.size + 1)], ':' ∉ l := by
      simpa using Token.not_mem_ofId (by decide) (s₁.size + 1)
    exact Block.not_mem_joinLines_ofId (by decide) (by decide) hbefore s₁.size

/-- By induction over the forest: the blocks of an item hold its label and the list of its children. -/
theorem exists_renders (ts : List Outline) : ∀ t ∈ ts, ∀ s, ∃ inner s', Renders t s inner s' := by
  induction ts using forest_induction with
  | h ts ih =>
    rintro ⟨label, children⟩ ht s
    by_cases hne : children = []
    · subst hne
      exact ⟨_, _, renders_childless label s⟩
    · obtain ⟨items, s₁, hrun, hle, hshow⟩ := runs_list (ih _ ht) s
      exact ⟨_, _, renders_parent label hne hrun hle hshow⟩

theorem isChain_spaced_of_mem {l : Text} (hl : l ∈ allLines ts) : l.IsChain Line.Spaced := by
  obtain ⟨depth, label, rfl⟩ := exists_label l hl
  have hlabel : '*' ∉ ' ' :: label.text := by simp [label.not_mem]
  refine List.isChain_append.2 ⟨Line.isChain_spaced_of_not_mem (by simp),
    List.isChain_cons_cons.2 ⟨fun _ => rfl, Line.isChain_spaced_of_not_mem hlabel⟩, fun a ha _ _ hstar => ?_⟩
  rw [hstar] at ha
  simpa using List.mem_of_mem_getLast? ha

theorem trimEnd_eq_self_of_mem {l : Text} (hl : l ∈ allLines ts) : l.trimEnd = l := by
  obtain ⟨depth, label, rfl⟩ := exists_label l hl
  obtain ⟨a, u, hu, -⟩ := label.exists_cons
  obtain ⟨b, hb, halpha⟩ := (Option.any_eq_true _ _).1 label.last
  have hentry : entry depth label.text = (List.replicate (2 * depth) ' ' ++ "* ".toList) ++ label.text := by
    simp [entry]
  refine Text.trimEnd_eq_self ?_
  rw [hentry, List.getLast?_append_of_ne_nil _ (by simp [hu]), hb]
  simp [isSpace_of_isAlpha halpha]

/-- A bulleted list is shown as the forest it was written from. -/
theorem nested_list_is_its_tree (hne : ts ≠ []) :
    dialect.Converts (joinLines (allLines ts)) (listHtml (allHtml ts)) := by
  have hsigns : ∀ d ∈ Document.signs, d.isAlpha = false ∧ d ∉ " *".toList := by decide
  have hentry : ∀ l ∈ allLines ts, IsEntry l := fun l => isEntry_of_mem
  have hfree : ∀ l ∈ allLines ts, ∀ d ∈ Document.signs, d ∉ l := fun l hl d hd => not_mem_of_mem (hsigns d hd) hl
  have hspaced : ∀ l ∈ allLines ts, l.IsChain Line.Spaced := fun l => isChain_spaced_of_mem
  have htrim : ∀ l ∈ allLines ts, l.trimEnd = l := fun l => trimEnd_eq_self_of_mem
  obtain ⟨items, s₁, hrun, -, hshow⟩ := runs_list (exists_renders ts) .empty
  obtain ⟨c, ls, hc, hls⟩ := allLines_ne_nil hne
  rw [hls] at hentry hfree hspaced htrim hrun ⊢
  rw [listHtml_eq]
  exact Document.converts_entries hc (List.forall_mem_cons.1 hentry).2 hfree hspaced htrim hrun hshow

/-- An item with a child, and one without behind it. -/
theorem nested_list_is_its_tree_of_two_levels : ∃ ts : List Outline, ts ≠ [] ∧
    joinLines (allLines ts) = "* a\n  * b\n* c".toList ∧
    dialect.Converts "* a\n  * b\n* c".toList
      "<ul>\n<li>\n<p>\na\n</p>\n<ul>\n<li>\nb\n</li>\n</ul>\n</li>\n<li>\nc\n</li>\n</ul>".toList := by
  let a : Label := ⟨['a'], by decide, by decide, by decide⟩
  let b : Label := ⟨['b'], by decide, by decide, by decide⟩
  let c : Label := ⟨['c'], by decide, by decide, by decide⟩
  have hne : [Outline.item a [.item b []], .item c []] ≠ [] := List.cons_ne_nil _ _
  exact ⟨_, hne, rfl, nested_list_is_its_tree hne⟩

end Markup.Listing
