import Markup.Proofs.Block.Shape
import Markup.Proofs.Line.Ends
import Markup.Proofs.Listing.Shape
import Markup.Proofs.Table.Ends

/-! # The block and list stages come to an end

A list runs its items as blocks again, without their marks. A paragraph leaves fewer lines of prose. -/
namespace Markup
open Pattern Grammar Line

/-- The bound on the marks of lists and definitions within which a run stays. -/
def Marked (n : Nat) (t : Text) : Prop := blockDepth.of t ≤ n

variable {n : Nat}

theorem Marked.hide {m : Match} (h : Marked n m.text) (k : Nat) : Marked n (m.replaceBy (Token.ofId k)) := by
  have := (blockDepth_token k).1.of_replaceBy m
  have := (blockDepth_token k).2
  rw [Marked] at h ⊢
  omega

theorem Marked.whole {m : Match} (h : Marked n m.text) : Marked n m.whole :=
  Nat.le_trans (Weight.of_le_of_slice ⟨m.before, m.after, rfl⟩) h

theorem blockDepth_of_mark {mark : Text} (h : mark = ['*'] ∨ ∃ digits : Text, digits ≠ [] ∧
    (∀ d ∈ digits, d.isDigit = true) ∧ mark = digits ++ ['.']) (u : Text) : 1 ≤ blockDepth.of (mark ++ u) := by
  rcases h with rfl | ⟨digits, hne, hd, rfl⟩
  · exact Weight.pos_of_char rfl [] u
  · have hlast := List.dropLast_concat_getLast hne
    have := Weight.pos_of_pair (w := blockDepth) (c := digits.getLast hne) (d := '.')
      (by simp [blockDepth, Weight.pair, hd _ (List.getLast_mem hne)]) digits.dropLast u
    rw [← hlast]
    simpa using this

namespace Listing

/-- What the runs of the block stage do while lists are shallower than `n`. -/
def BlocksEnd (n : Nat) : Prop := ∀ t s, blockDepth.of t < n →
  ∃ out after, dialect.Runs .block t s out after ∧ blockDepth.of out ≤ blockDepth.of t

theorem item_ends (hblock : BlocksEnd n) : item.Ends dialect (Marked n) := by
  have tag : blockDepth.PlainTag "li" := by decide
  refine Rule.ends_of_weight blockDepth fun t s found ht hf => ?_
  obtain ⟨rfl, mark, space, content, -, hm, -, hw, hg⟩ := item_shape hf
  have hlt : blockDepth.of content < blockDepth.of found.whole := by
    have := blockDepth_of_mark hm space
    rw [hw, Weight.of_append]
    omega
  have hle := Marked.whole ht
  have round : ∃ out mid, blockDepth.of out ≤ blockDepth.of content ∧
      (found.group 3 = none → dialect.Runs .line content s out mid) ∧
      ∀ indent, found.group 3 = some indent → dialect.Runs .block (Text.stripIndent indent content) s out mid := by
    cases h₃ : found.group 3 with
    | none =>
      obtain ⟨out, mid, hr, hout⟩ := Line.ends content s
      exact ⟨out, mid, hout, fun _ => hr, fun _ h => absurd h.symm (Option.some_ne_none _)⟩
    | some indent =>
      have hstrip := Weight.of_stripIndent_le (w := blockDepth) (by decide) indent content
      rw [Marked] at hle
      obtain ⟨out, mid, hr, hout⟩ := hblock (Text.stripIndent indent content) s (by omega)
      exact ⟨out, mid, hout.trans hstrip, fun h => absurd h (Option.some_ne_none _), fun _ h => Option.some.inj h ▸ hr⟩
  obtain ⟨out, mid, hout, hline, hlong⟩ := round
  have hnew : blockDepth.of (Html.block "li" out) < blockDepth.of found.whole := by
    rw [tag.of_block (by decide)]
    omega
  have hapart : blockDepth.Apart (Html.block "li" out) := tag.apart _
  refine ⟨rfl, Html.block "li" out, mid, ?_, ⟨hapart, hnew⟩, ?_⟩
  · cases h₃ : found.group 3 with
    | none =>
      simp only [hg]
      exact evaluates_rerun_bind.2 ⟨out, mid, hline h₃, evaluates_pure _ _⟩
    | some indent =>
      simp only [hg]
      exact evaluates_rerun_bind.2 ⟨out, mid, hlong indent h₃, evaluates_pure _ _⟩
  · have := hapart.of_replaceBy found
    rw [Marked] at ht ⊢
    omega

theorem definition_ends (hblock : BlocksEnd n) : definition.Ends dialect (Marked n) := by
  refine Rule.ends_of_weight blockDepth fun t s found ht hf => ?_
  obtain ⟨rfl, d, hw, hg, -⟩ := definition_shape hf
  have hlt : blockDepth.of d.body < blockDepth.of found.whole := by
    have := Weight.pos_of_char (w := blockDepth) (c := ':') rfl (d.term ++ d.space) d.gap
    have hd : d.whole = (d.term ++ d.space ++ ':' :: d.gap) ++ d.body := by simp [Definition.whole]
    rw [hw, hd, Weight.of_append]
    omega
  have hle := Marked.whole ht
  have hstrip := Weight.of_stripIndent_le (w := blockDepth) (by decide) d.indent d.body
  rw [Marked] at hle
  obtain ⟨inner, mid, hr, -⟩ := hblock (Text.stripIndent d.indent d.body) s (by omega)
  have hnew : blockDepth.Plain (Token.ofId mid.size ++ ['\n']) :=
    (blockDepth_token mid.size).append (Weight.IgnoresBreaks.plain (by decide))
  let value := Html.element "dt" d.term ++ '\n' :: Html.element "dd" ('\n' :: inner)
  refine ⟨rfl, Token.ofId mid.size ++ ['\n'], (mid.mint value).2, ?_, ⟨hnew.1, by rw [hnew.2]; omega⟩, ?_⟩
  · simp only [Match.group, hg]
    exact evaluates_rerun_bind.2 ⟨inner, mid, hr, evaluates_hide_bind.2 (evaluates_pure _ _)⟩
  · have := hnew.1.of_replaceBy found
    have := hnew.2
    rw [Marked] at ht ⊢
    omega

theorem rules_end (hblock : BlocksEnd n) : ∀ r ∈ rules, r.Ends dialect (Marked n) := by
  simp only [rules, List.forall_mem_cons]
  exact ⟨item_ends hblock, definition_ends hblock, fun r hr => absurd hr List.not_mem_nil⟩

theorem ends (hblock : BlocksEnd n) (t : Text) (s : Store) (ht : Marked n t) :
    ∃ out after, dialect.Runs .list t s out after := by
  obtain ⟨out, after, h, -⟩ := appliesAll_of_ends (rules_end hblock) s ht
  exact ⟨out, after, runs_iff.2 h⟩

end Listing

namespace Block

theorem ends_of_hides {w : Weight} (hw : w.IgnoresTokens) {name : String} {m : Matcher}
    {f : Match → Program (Option Text)} (round : ∀ t s found, Marked n t → m.find [] t = some found →
      found.text = t ∧ 1 ≤ w.of found.whole ∧
        ∃ (mid : Store) (v : Text), dialect.Evaluates (f found) s (some (Token.ofId mid.size)) (mid.mint v).2) :
    (Rule.pattern name m f).Ends dialect (Marked n) :=
  Rule.ends_of_hides hw (fun _ k h => h.hide k) round

theorem quote_ends : quote.Ends dialect (Marked n) := by
  refine ends_of_hides (w := .count '"') (by decide) fun t s found _ hf => ?_
  obtain ⟨-, text, -, hw, hg⟩ := fenced_shape hf
  refine ⟨(takes_of_find hf).1, ?_, s, Html.block "blockquote" (Text.breakLines text), ?_⟩
  · rw [hw]
    exact Weight.pos_of_char rfl [] _
  · simp only [Match.group, hg]
    exact evaluates_hide_bind.2 (evaluates_pure _ _)

theorem horizontalRule_ends : horizontalRule.Ends dialect (Marked n) := by
  refine ends_of_hides (w := .count '-') (by decide) fun t s found _ hf => ?_
  obtain ⟨-, hl, ha⟩ := horizontalRule_shape hf
  refine ⟨(takes_of_find hf).1, ?_, s, "<hr>".toList, evaluates_hidden _ s⟩
  obtain ⟨c, rest, hw⟩ := List.exists_cons_of_length_pos (show 0 < found.whole.length by omega)
  obtain rfl : c = '-' := ha c (hw ▸ List.mem_cons_self)
  rw [hw]
  exact Weight.pos_of_char rfl [] rest

theorem count_underline {eqs : Text} (hl : 3 ≤ eqs.length) (ha : ∀ c ∈ eqs, c = '=') (u v : Text) :
    1 ≤ (Weight.count '=').of (u ++ '\n' :: eqs ++ v) := by
  obtain ⟨c, rest, rfl⟩ := List.exists_cons_of_length_pos (show 0 < eqs.length by omega)
  obtain rfl := ha c List.mem_cons_self
  have := Weight.pos_of_char (w := .count '=') (c := '=') rfl (u ++ ['\n']) (rest ++ v)
  simpa using this

theorem titleWithSubtitle_ends : titleWithSubtitle.Ends dialect (Marked n) := by
  refine ends_of_hides (w := .count '=') (by decide) fun t s found _ hf => ?_
  obtain ⟨-, title, eqs, indent, subtitle, hl, ha, -, -, -, -, hw, hg⟩ := titleWithSubtitle_shape hf
  refine ⟨(takes_of_find hf).1, ?_, s,
    Html.element "header" (Html.element "h1" title ++ Html.element "strong" subtitle), ?_⟩
  · have := count_underline hl ha title ('\n' :: indent ++ subtitle)
    rw [hw]
    simpa using this
  · simp only [Match.group, hg]
    exact evaluates_hide_bind.2 (evaluates_pure _ _)

theorem title_ends : title.Ends dialect (Marked n) := by
  refine ends_of_hides (w := .count '=') (by decide) fun t s found _ hf => ?_
  obtain ⟨-, title, eqs, hl, ha, -, hw, hg⟩ := title_shape hf
  refine ⟨(takes_of_find hf).1, ?_, s, Html.element "header" (Html.element "h1" title), ?_⟩
  · have := count_underline hl ha title []
    rw [hw]
    simpa using this
  · simp only [Match.group, hg]
    exact evaluates_hide_bind.2 (evaluates_pure _ _)

theorem heading_ends : heading.Ends dialect (Marked n) := by
  refine ends_of_hides (w := .count '#') (by decide) fun t s found _ hf => ?_
  obtain ⟨-, hashes, space, text, space', hne, ha, -, -, hw, hg⟩ := heading_shape hf
  refine ⟨(takes_of_find hf).1, ?_, s, Html.element (headingTag hashes.length) text, ?_⟩
  · obtain ⟨c, rest, rfl⟩ := List.exists_cons_of_ne_nil hne
    obtain rfl := ha c List.mem_cons_self
    have := Weight.pos_of_char (w := .count '#') (c := '#') rfl [] (rest ++ space ++ text ++ space')
    rw [hw]
    simpa using this
  · simp only [Match.group, hg]
    exact evaluates_hide_bind.2 (evaluates_pure _ _)

theorem table_ends : table.Ends dialect (Marked n) := by
  refine ends_of_hides (w := .count '|') (by decide) fun t s found _ hf => ?_
  obtain ⟨-, rest, hw⟩ := table_shape hf
  obtain ⟨rows, mid, hr⟩ := Table.ends found.whole s
  refine ⟨(takes_of_find hf).1, hw ▸ Weight.pos_of_char rfl [] rest, mid, Html.element "table" ('\n' :: rows), ?_⟩
  exact evaluates_rerun_bind.2 ⟨rows, mid, hr, evaluates_hide_bind.2 (evaluates_pure _ _)⟩

theorem listBlock_evaluates {tag : String} {t : Text} {s : Store}
    (h : ∃ items mid, dialect.Runs .list t s items mid) : ∃ (mid : Store) (v : Text),
      dialect.Evaluates (listBlock tag t) s (some (Token.ofId mid.size)) (mid.mint v).2 := by
  obtain ⟨items, mid, hr⟩ := h
  exact ⟨mid, Html.block tag items,
    evaluates_rerun_bind.2 ⟨items, mid, hr, evaluates_hide_bind.2 (evaluates_pure _ _)⟩⟩

variable (hlist : ∀ t s, Marked n t → ∃ items after, dialect.Runs .list t s items after)
include hlist

theorem unorderedList_ends : unorderedList.Ends dialect (Marked n) := by
  refine ends_of_hides (w := blockDepth) (by decide) fun t s found ht hf => ?_
  obtain ⟨-, rest, hw⟩ := unorderedList_shape hf
  obtain rfl := (takes_of_find hf).1
  exact ⟨rfl, hw ▸ Weight.pos_of_char rfl [] rest, listBlock_evaluates (hlist _ s ht.whole)⟩

theorem orderedList_ends : orderedList.Ends dialect (Marked n) := by
  refine ends_of_hides (w := blockDepth) (by decide) fun t s found ht hf => ?_
  obtain ⟨-, digits, rest, hne, hd, hw⟩ := orderedList_shape hf
  obtain rfl := (takes_of_find hf).1
  refine ⟨rfl, ?_, listBlock_evaluates (hlist _ s ht.whole)⟩
  have := blockDepth_of_mark (.inr ⟨digits, hne, hd, rfl⟩) rest
  rw [hw]
  simpa using this

theorem definitionList_ends : definitionList.Ends dialect (Marked n) := by
  refine ends_of_hides (w := blockDepth) (by decide) fun t s found ht hf => ?_
  obtain ⟨rfl, d, rest, hw⟩ := Listing.definitionList_shape hf
  refine ⟨rfl, ?_, listBlock_evaluates (hlist _ s ht.whole)⟩
  have := Weight.pos_of_char (w := blockDepth) (c := ':') rfl (d.term ++ d.space) (d.gap ++ d.body ++ rest)
  rw [hw]
  simpa [Listing.Definition.whole] using this

end Block

namespace Block

/-- A token in the place of a paragraph takes all its lines of prose away. -/
theorem paragraph_prose {m : Match} (h : paragraphMatcher.find [] m.text = some m) (k : Nat) :
    (m.replaceBy (Token.ofId k)).lines.countP isProse < m.text.lines.countP isProse := by
  obtain ⟨hl, prose, others, hne, hp, hlines, -, hafter, -, -⟩ := paragraph_shape h
  obtain ⟨ls, hls⟩ := Text.exists_lines_of_start hl.start
  have hothers : ∀ l ∈ others, '\n' ∉ l := fun l h =>
    Text.not_mem_of_mem_lines (t := m.whole ++ m.after) (by rw [hlines]; exact List.mem_append_right _ h)
  have hold : m.text.lines = ls ++ (prose ++ others) := by
    rw [Match.text, Match.before, List.append_assoc, hls, hlines]
  have hnew : (m.replaceBy (Token.ofId k)).lines = ls ++ (Token.ofId k :: others) := by
    rw [Match.replaceBy_eq, Match.before, List.append_assoc, hls, hafter, Text.lines_startLines _ hothers,
      Text.lines_eq_singleton (Token.not_mem_ofId (by decide) k)]
    rfl
  have hpos : 0 < prose.countP isProse := by
    obtain ⟨l, prose, rfl⟩ := List.exists_cons_of_ne_nil hne
    exact List.countP_pos_iff.2 ⟨l, List.mem_cons_self, hp l List.mem_cons_self⟩
  rw [hold, hnew, List.countP_append, List.countP_append, List.countP_append,
    List.countP_cons_of_neg (by simp [isProse_ofId])]
  omega

theorem paragraph_ends : paragraph.Ends dialect (Marked n) := by
  refine Rule.ends_of_size (fun t => t.lines.countP isProse) fun t s found ht hf => ?_
  obtain ⟨rfl, -⟩ := paragraphScanner_lawful.search_hit hf
  exact ⟨rfl, Token.ofId s.size, _, evaluates_hidden _ s, paragraph_prose hf s.size, ht.hide s.size⟩

theorem rules_end (hlist : ∀ t s, Marked n t → ∃ items after, dialect.Runs .list t s items after) :
    ∀ r ∈ rules, r.Ends dialect (Marked n) := by
  simp only [rules, List.forall_mem_cons]
  exact ⟨quote_ends, horizontalRule_ends, titleWithSubtitle_ends, title_ends, heading_ends, table_ends,
    unorderedList_ends hlist, orderedList_ends hlist, definitionList_ends hlist, paragraph_ends,
    fun r hr => absurd hr List.not_mem_nil⟩

/-- The block stage comes to an end and adds no mark of a list or definition. -/
theorem ends (t : Text) (s : Store) :
    ∃ out after, dialect.Runs .block t s out after ∧ blockDepth.of out ≤ blockDepth.of t := by
  induction hn : blockDepth.of t using Nat.strongRecOn generalizing t s with
  | ind n ih =>
    have hblock : Listing.BlocksEnd n := fun u s hu => ih _ hu u s rfl
    have ht : Marked n t := hn.le
    obtain ⟨out, after, h, hout⟩ := appliesAll_of_ends (rules_end (Listing.ends hblock)) s ht
    exact ⟨out, after, runs_iff.2 h, hout⟩

end Block
end Markup
