import Markup.Proofs.Listing.Rounds

/-! # Definitions among rows

Among rows the colon of a definition stands on the line of its term: alone on its line, with at most white space before
it, it would have to stand in front of a closing tag, and no body begins with one. So all lines that a definition takes
are rows, and its token stands in their place. -/
namespace Markup.Listing
open Definition (continues bodyOf)
open Line (Row Rows Trimmed)
open Text (lines joinLines endLines)
open Program
variable {s s' : Store} {t v w x l space gap below indent out : Text} {ls ms ks others : List Text}
variable {d : Definition} {e n : Nat}

/-- A body takes all lines, or the first ones with their line breaks. -/
theorem lines_bodyOf (w x : Text) : ∃ ks others, lines x = ks ++ others ∧ (∀ k ∈ ks, continues w k = true) ∧
    (others = [] ∧ bodyOf w x = (x, []) ∨ others ≠ [] ∧ bodyOf w x = (endLines ks, joinLines others)) := by
  refine ⟨_, _, List.takeWhile_append_dropWhile.symm, List.all_eq_true.1 List.all_takeWhile, ?_⟩
  unfold bodyOf
  split
  · next hnil => exact .inl ⟨hnil, rfl⟩
  · next hne => exact .inr ⟨hne, rfl⟩

theorem listed_of_bodyOf (hwide : 2 ≤ w.length) (hw : ∀ a ∈ w, isIndent a = true) (h : Listed s e (lines x)) :
    Rows s (bodyOf w x).1 ∧ Listed s e (lines (bodyOf w x).2) := by
  obtain ⟨ks, others, hlines, hks, hbody⟩ := lines_bodyOf w x
  have hbreak : ∀ l ∈ ks ++ others, '\n' ∉ l := fun l hl => Text.not_mem_of_mem_lines (hlines ▸ hl)
  rw [List.forall_mem_append] at hbreak
  have hprefix : ∀ k ∈ ks, k ≠ opener ∧ k ≠ closer := fun k hk => by
    have hcontinues := hks k hk
    rw [continues, Bool.and_eq_true] at hcontinues
    exact ne_tags_of_indent hwide hw (List.isPrefixOf_iff_prefix.1 hcontinues.1)
  rw [hlines] at h
  obtain ⟨hrows, hrest⟩ := h.rows_inv hprefix
  have hempty : ¬ Lone [] := by
    rintro (hm | hcolon)
    · exact hm.ne_nil rfl
    · contradiction
  rcases hbody with ⟨rfl, hbody⟩ | ⟨hne, hbody⟩
  · rw [List.append_nil] at hlines
    rw [hbody, Rows, hlines]
    exact ⟨hrows, .row (.nil s) (fun hlone => absurd hlone hempty) hrest⟩
  · rw [hbody, Rows, Text.lines_endLines hbreak.1, Text.lines_joinLines hne hbreak.2, List.forall_mem_append]
    exact ⟨⟨hrows, List.forall_mem_singleton.2 (.nil s)⟩, hrest⟩

/-- No white space stands behind the colon, and only blank lines between its line and the body. -/
theorem lines_of_colon (hx : '\n' ∉ x) (hgap : ∀ a ∈ gap, isSpace a = true)
    (ht : ∀ l ∈ lines (x ++ ':' :: (gap ++ '\n' :: below)), Trimmed l) :
    ∃ ks, lines (x ++ ':' :: (gap ++ '\n' :: below)) = (x ++ [':']) :: (ks ++ lines below) ∧
      ∀ k ∈ ks, ∀ a ∈ k, isSpace a = true := by
  have hfirst {g r : Text} (hg : '\n' ∉ g) :
      lines (x ++ ':' :: (g ++ '\n' :: r)) = (x ++ ':' :: g) :: lines r := by
    have hline : '\n' ∉ x ++ ':' :: g := by simp [hx, hg]
    rw [← List.cons_append, ← List.append_assoc, Text.lines_append_newline, Text.lines_eq_singleton hline]
    rfl
  have htrim {g : Text} (hg : ∀ a ∈ g, isSpace a = true) (h : Trimmed (x ++ ':' :: g)) : g = [] := by
    rcases List.eq_nil_or_concat' g with rfl | ⟨g, a, rfl⟩
    · rfl
    · rw [Trimmed, ← List.cons_append, ← List.append_assoc, List.getLast?_concat] at h
      simp [hg a (by simp)] at h
  by_cases hbreak : '\n' ∈ gap
  · obtain ⟨g, more, rfl, hg⟩ := List.eq_append_cons_of_mem hbreak
    rw [List.forall_mem_append, List.forall_mem_cons] at hgap
    rw [List.append_assoc, List.cons_append, hfirst hg] at ht ⊢
    obtain rfl := htrim hgap.1 (ht _ List.mem_cons_self)
    refine ⟨lines more, by rw [Text.lines_append_newline], fun k hk a ha => ?_⟩
    exact hgap.2.2 a ((Text.infix_of_mem_lines hk).subset ha)
  · rw [hfirst hbreak] at ht ⊢
    obtain rfl := htrim hgap (ht _ List.mem_cons_self)
    exact ⟨[], rfl, fun k hk => absurd hk List.not_mem_nil⟩

/-- Something stands before the colon on its line, and the lines of the body are left behind it. -/
theorem listed_of_colon (hx : '\n' ∉ x) (hgap : ∀ a ∈ gap, isSpace a = true) (hbelow : below.head?.any isSpace = true)
    (h : Listed s e (lines (x ++ ':' :: (gap ++ '\n' :: below)))) :
    (∃ a ∈ x, isSpace a = false) ∧ Row s (x ++ [':']) ∧
      ∃ ms, lines (x ++ ':' :: (gap ++ '\n' :: below)) = (x ++ [':']) :: ms ∧
      ∀ e, Listed s e ((x ++ [':']) :: ms) → Listed s e (lines below) := by
  obtain ⟨ks, hlines, hks⟩ := lines_of_colon hx hgap h.trimmed
  rw [hlines] at h
  have hblank : ∀ k ∈ ks, k ≠ opener ∧ k ≠ closer := by
    intro k hk
    constructor
    all_goals
      rintro rfl
      exact absurd (hks _ hk '<' List.mem_cons_self) (by decide)
  have hcolon := ne_tags_of_mem (l := x ++ [':']) (d := ':') (by simp) (by decide)
  obtain ⟨hrow, hlone, -⟩ := h.row_inv hcolon
  refine ⟨?_, hrow, ks ++ lines below, hlines, fun e he => ((he.row_inv hcolon).2.2.rows_inv hblank).2⟩
  cases x with
  | nil =>
    obtain ⟨ms, hms, -⟩ := hlone (.inr rfl)
    cases ks with
    | nil =>
      obtain ⟨ls, hls⟩ := Text.exists_lines_eq_line_cons below
      rw [hls] at hms
      exact absurd (List.cons.inj hms).1 (line_ne_closer hbelow)
    | cons k ks => exact absurd (List.cons.inj hms).1 (hblank k List.mem_cons_self).2
  | cons a x => exact hrow.flush (a :: x) [] rfl (List.cons_ne_nil a x)

/-- White space before the colon goes over no line break: behind it a line would have only white space before
its colon. -/
theorem not_mem_before_colon (hx : '\n' ∉ x) (hspace : ∀ a ∈ space, isSpace a = true)
    (hgap : ∀ a ∈ gap, isSpace a = true) (hbelow : below.head?.any isSpace = true)
    (h : Listed s e (lines (x ++ space ++ ':' :: (gap ++ '\n' :: below)))) : '\n' ∉ x ++ space := by
  rw [List.mem_append, not_or]
  refine ⟨hx, fun hmem => ?_⟩
  obtain ⟨u, y, huy, hy, hu⟩ := Text.exists_starts space
  have hne : u ≠ [] := by
    rintro rfl
    rw [List.nil_append] at huy
    exact hy (huy ▸ hmem)
  obtain ⟨ls, hls⟩ := (hu.append_left hne x).exists_lines
  rw [huy, ← List.append_assoc, List.append_assoc _ y, hls] at h
  obtain ⟨e, h⟩ := h.exists_suffix
  obtain ⟨⟨b, hb, hb'⟩, -⟩ := listed_of_colon hy hgap hbelow h
  simp [hspace b (by simp [huy, hb])] at hb'

/-- A definition takes whole rows, the first of which ends with the colon. -/
theorem listed_of_at? (hat : Definition.at? false v = some d) (h : Listed s e (lines v)) :
    ∃ m ms, lines v = m :: ms ∧ m ≠ closer ∧ Tidy s d.term ∧ Rows s (Text.stripIndent d.indent d.body) ∧
      ∀ e, Listed s e (m :: ms) → Listed s e (lines d.rest) := by
  rw [at?_eq_head] at hat
  obtain ⟨head, hh, hat⟩ := Option.bind_eq_some_iff.1 hat
  obtain ⟨b, hb, rfl⟩ := Option.map_eq_some_iff.1 hat
  obtain ⟨⟨htext, ⟨c, w, hterm, hc, hw⟩, hspace⟩, -⟩ := reads_of_headOf hh
  obtain ⟨gap, indent, a, rest, hafter, hgap, hindent, hwide, ha, -⟩ :=
    exists_parts_of_below? (hb ▸ Option.some_ne_none b)
  have hstop : ∀ a' ∈ (a :: rest).head?, isSpace a' = false := by
    rintro _ ⟨⟩
    exact ha
  rw [hafter, below?_of_parts hgap hindent hstop (List.cons_ne_nil a rest) hwide, Bool.false_and,
    if_neg Bool.false_ne_true] at hb
  obtain rfl := Option.some.inj hb
  have hsplit : v = head.term ++ head.space ++ ':' :: (gap ++ '\n' :: (indent ++ a :: rest)) := by
    rw [htext, Head.whole, hafter]
    simp
  have hbelow : (indent ++ a :: rest).head?.any isSpace = true := by
    obtain ⟨i, indent, rfl⟩ := List.exists_cons_of_length_pos (Nat.lt_of_lt_of_le Nat.two_pos hwide)
    exact isSpace_of_isIndent (hindent i List.mem_cons_self)
  have hbreak : '\n' ∉ head.term := by
    rw [hterm, List.mem_cons, not_or]
    refine ⟨?_, fun hmem => absurd (hw _ hmem) (by decide)⟩
    rintro rfl
    exact absurd hc (by decide)
  rw [hsplit] at h ⊢
  have hline := not_mem_before_colon hbreak hspace hgap hbelow h
  obtain ⟨-, hrow, ms, hlines, hrest⟩ := listed_of_colon hline hgap hbelow h
  have hclose : head.term ++ head.space ++ [':'] ≠ closer := (ne_tags_of_mem (d := ':') (by simp) (by decide)).2
  have hterm : Tidy s head.term := (hrow.tidy.drop_back (by decide)).drop_space hspace
  have hbody : Listed s e (lines (indent ++ a :: rest)) := hrest e (hlines ▸ h)
  refine ⟨_, ms, hlines, hclose, hterm, (listed_of_bodyOf hwide hindent hbody).1.stripIndent hindent, fun e he => ?_⟩
  exact (listed_of_bodyOf hwide hindent (hrest e he)).2

theorem low_of_head? {c : Char} (h : l.head? = some c) (hc : isIndent c = false) : Low l := by
  obtain ⟨l, rfl⟩ := List.head?_eq_some_iff.1 h
  rw [Low, Text.indent, List.takeWhile_cons_of_neg (by simp [hc])]
  exact Nat.two_pos

theorem definition_upholds (hb : MakesRows n) : definition.Upholds dialect n Nested := by
  refine Rule.upholds_of_round (progresses (r := definition) (by simp [rules]) rfl) fun s t found ht hf => ?_
  obtain ⟨htext, hhit⟩ := definitionScanner_lawful.search_hit hf
  rw [definitionScanner] at hhit
  split at hhit
  · next hprev =>
    obtain ⟨d, hat, hd⟩ := Option.map_eq_some_iff.1 hhit
    obtain ⟨hwhole, hafter, hgroups⟩ := Hit.mk.injEq .. |>.mp hd
    obtain ⟨ls, hls⟩ := Text.exists_lines_of_start hprev
    have hlisted := ht
    rw [Nested, ← htext, Match.text, List.append_assoc, Match.before, hls] at hlisted
    obtain ⟨e, hbelow⟩ := hlisted.exists_suffix
    obtain ⟨m, ms, hlines, hm, hterm, hbody, hrest⟩ := listed_of_at? hat hbelow
    have h₁ : found.group 1 = some d.term := by simp [Match.group, ← hgroups]
    have h₂ : found.group 2 = some d.body := by simp [Match.group, ← hgroups]
    have h₃ : found.group 3 = some d.indent := by simp [Match.group, ← hgroups]
    simp only [h₁, h₂, h₃]
    refine leads_stage fun u s₁ hu => ?_
    obtain ⟨hle, hout⟩ := hb s _ u s₁ hbody hu
    have hvalue : Tidy s₁ (Html.element "dt" d.term ++ '\n' :: Html.element "dd" ('\n' :: u)) :=
      ((hterm.mono hle).element (by decide)).newline ((Tidy.nil.newline hout.tidy).element (by decide))
    refine ⟨hle, leads_sealed hvalue (by simp) fun i s₂ hle' hlink hseal => leads_pure fun x hx => ?_⟩
    obtain rfl := Option.some.inj hx
    have hnew : lines (found.replaceBy (Token.ofId i ++ ['\n'])) = ls ++ Token.ofId i :: lines d.rest := by
      have htoken : lines (Token.ofId i) = [Token.ofId i] := Text.lines_eq_singleton (Token.not_mem_ofId (by decide) i)
      rw [Match.replaceBy_eq, Match.before, List.append_assoc, hls, List.append_assoc, List.singleton_append,
        Text.lines_append_newline, htoken, ← hafter]
      rfl
    rw [← hafter, ← hwhole, ← Definition.eq_of_at? hat, hlines] at hlisted
    rw [Nested, hnew]
    refine hlisted.replace hm (low_of_head? (Token.head?_ofId i) (by decide)) (hle.trans hle') fun e he => ?_
    refine .row (.token hlink hseal) (fun hlone => absurd hlone ?_) ((hrest e he).mono (hle.trans hle'))
    have hleads := Token.leads_ofId i []
    rw [List.append_nil] at hleads
    exact not_lone_of_not_isProse (Block.isProse_eq_false_iff.2 (.inr hleads))
  · contradiction

/-- The list stage leaves tidy text behind where it is given rows with more to say than a mark or a colon. -/
theorem tidy_of_run (hb : MakesRows n) (ht : Rows s t) (hlone : ∀ l ∈ lines t, ¬ Lone l)
    (he : dialect.run (n + 1) .list t s = some (out, s')) : s.Le s' ∧ Tidy s' out := by
  have hrun : applyAll (dialect.run n) n rules t s = some (out, s') := he
  have hnested : Nested s t := by
    have hlisted : Listed s 0 (lines t ++ []) := .append_rows (fun l hl => ⟨ht l hl, hlone l hl⟩) .nil
    rwa [List.append_nil] at hlisted
  have hrules : ∀ r ∈ rules, r.Upholds dialect n Nested := by
    simp only [rules, List.forall_mem_cons]
    exact ⟨item_upholds hb, definition_upholds hb, fun r hr => absurd hr List.not_mem_nil⟩
  obtain ⟨hle, hout⟩ := Grammar.upholds_of_rules hrules n hnested hrun
  exact ⟨hle, hout.tidy⟩

end Markup.Listing
