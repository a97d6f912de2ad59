import Markup.Proofs.Block.Hole
import Markup.Proofs.Listing.Terms
import Markup.Proofs.Table.Nest

/-! # Blocks among rows

A block takes whole rows and puts a token in their place. Its text is made of parts of these rows, or of what a table or
a list makes of them, so its tags nest, and rows are left. -/
namespace Markup.Block
open Pattern Program
open Line (Row Rows)
open Listing (MakesRows Lone)
open Text (lines startLines Starts)
variable {s s' : Store} {t u v out : Text} {n : Nat} {m found : Match} {matcher : Matcher}
  {f : Match → Program (Option Text)} {r : Rule}

theorem Rows.append_newline : Rows s (u ++ '\n' :: v) ↔ Rows s u ∧ Rows s v := by
  rw [Rows, Text.lines_append_newline, List.forall_mem_append]
  rfl

/-- A hidden block takes the line break that it ends with, so its token stands before the line below. -/
theorem rows_of_hidden (h : Rows s found.text) (hstart : Starts found.before)
    (hstop : found.after.head?.all (· == '\n') = true ∨ Starts found.whole) : Rows s found.whole ∧
      ∀ i s', s.Le s' → Linked s' s' (i, i) → s'.Sealed i → Rows s' (found.replaceBy (Token.ofId i)) := by
  have htoken (i : Nat) : '\n' ∉ Token.ofId i := Token.not_mem_ofId (by decide) i
  rcases hstop with hafter | hwhole
  · obtain ⟨ls, ms, hlines⟩ := hstart.exists_lines_around hafter
    rw [Rows, Match.text, hlines, List.forall_mem_append, List.forall_mem_append] at h
    refine ⟨h.2.1, fun i s' hle hlink hseal => ?_⟩
    rw [Rows, Match.replaceBy_eq, hlines, Text.lines_eq_singleton (htoken i), List.forall_mem_append,
      List.singleton_append,
      List.forall_mem_cons]
    exact ⟨fun l hl => (h.1 l hl).mono hle, .token hlink hseal, fun l hl => (h.2.2 l hl).mono hle⟩
  · obtain ⟨ls, hls⟩ := hstart.exists_lines
    obtain ⟨ks, hks⟩ := hwhole.exists_lines
    have hself := hks []
    rw [List.append_nil] at hself
    obtain ⟨ms, hms⟩ := Text.exists_lines_eq_line_cons found.after
    rw [Rows, Match.text, List.append_assoc, hls, hks, hms, List.forall_mem_append, List.forall_mem_append,
      List.forall_mem_cons] at h
    refine ⟨?_, fun i s' hle hlink hseal => ?_⟩
    · rw [Rows, hself, List.forall_mem_append]
      exact ⟨h.2.1, List.forall_mem_singleton.2 (.nil s)⟩
    · rw [Rows, Match.replaceBy_eq, List.append_assoc, hls, Text.lines_append_of_not_mem (htoken i), hms,
        List.tail_cons,
        List.forall_mem_append, List.forall_mem_cons]
      exact ⟨fun l hl => (h.1 l hl).mono hle, (h.2.2.1.mono hle).token_append hlink hseal,
        fun l hl => (h.2.2.2 l hl).mono hle⟩

/-- The rule hides tidy text where the lines that it takes are rows. -/
def Seals (n : Nat) (r : Rule) : Prop :=
  ∀ matcher f, r.action = .pattern matcher f → ∀ s t found, matcher.find [] t = some found → Rows s found.whole →
    Leads dialect n (fun s' new => ∀ x, new = some x → ∃ i, x = Token.ofId i ∧ Linked s' s' (i, i) ∧ s'.Sealed i)
      (f found) s

theorem seals_pattern {name : String} (h : ∀ s t found, matcher.find [] t = some found → Rows s found.whole →
    Leads dialect n (fun s' new => ∀ x, new = some x → ∃ i, x = Token.ofId i ∧ Linked s' s' (i, i) ∧ s'.Sealed i)
      (f found) s) : Seals n (.pattern name matcher f) := by
  intro _ _ ha
  obtain ⟨rfl, rfl⟩ := Action.pattern.inj ha
  exact h

theorem leads_tidy (h : Tidy s t) (hne : t ≠ []) :
    Leads dialect n (fun s' new => ∀ x, new = some x → ∃ i, x = Token.ofId i ∧ Linked s' s' (i, i) ∧ s'.Sealed i)
      (some <$> hide t) s := by
  rw [map_eq_pure_bind]
  exact leads_sealed h hne fun i s' _ hlink hseal => leads_pure fun x hx => ⟨i, (Option.some.inj hx).symm, hlink, hseal⟩

theorem upholds_of_seals (hr : r ∈ rules) (ha : r.action = .pattern matcher f) (hl : r.HidesLines dialect)
    (hs : Seals n r) : r.Upholds dialect n Rows := by
  obtain ⟨name, action⟩ := r
  obtain rfl : action = .pattern matcher f := ha
  refine Rule.upholds_of_round (progresses hr rfl) fun s t found ht hf => ?_
  obtain ⟨rfl, hstart, hstop, -⟩ := hl matcher f rfl t found hf
  obtain ⟨hwhole, hnew⟩ := rows_of_hidden ht hstart hstop
  refine (hs matcher f rfl s _ found hf hwhole).imp fun s' new hle himp x hx => ?_
  obtain ⟨i, rfl, hlink, hseal⟩ := himp x hx
  exact hnew i s' hle hlink hseal

theorem quote_seals : Seals n quote := by
  refine seals_pattern fun s t found hf ht => ?_
  obtain ⟨-, text, -, hw, hgs⟩ := fenced_shape hf
  have h₁ : found.group 1 = some text := by simp [Match.group, hgs]
  rw [hw, Rows.append_newline, Rows.append_newline] at ht
  have htext : Tidy s (Html.block "blockquote" (Text.breakLines text)) :=
    (Tidy.breakLines fun l hl => (ht.1.2 l hl).tidy).block (by decide)
  simp only [h₁]
  exact leads_tidy htext (Html.block_ne_nil _ _)

theorem horizontalRule_seals : Seals n horizontalRule := by
  refine seals_pattern fun s t found hf ht => leads_tidy (.of_not_mem (by decide) ?_) (by decide)
  exact Html.Neat.void_bare (by decide : Html.IsName "hr".toList) (by decide)

theorem paragraph_seals : Seals n paragraph :=
  seals_pattern fun _ _ _ _ ht => leads_tidy ((Tidy.breakLines fun l hl => (ht l hl).tidy).block (by decide))
    (Html.block_ne_nil _ _)

theorem titleWithSubtitle_seals : Seals n titleWithSubtitle := by
  refine seals_pattern fun s t found hf ht => ?_
  obtain ⟨-, title, eqs, indent, subtitle, -, -, hindent, -, -, -, hw, hgs⟩ := titleWithSubtitle_shape hf
  have h₁ : found.group 1 = some title := by simp [Match.group, hgs]
  have h₂ : found.group 2 = some subtitle := by simp [Match.group, hgs]
  have hwhole : found.whole = title ++ '\n' :: (eqs ++ '\n' :: (indent ++ subtitle)) := by simp [hw]
  rw [hwhole, Rows.append_newline, Rows.append_newline] at ht
  have hsubtitle : Tidy s subtitle := ht.2.2.tidy.drop_margin fun d hd => isMargin_of_isIndent (hindent d hd)
  have hstrong : Tidy s (Html.element "strong" subtitle) := hsubtitle.element (by decide)
  have hboth : Tidy s (Html.element "h1" title ++ Html.element "strong" subtitle) :=
    ht.1.tidy.element_append (by decide) hstrong
  simp only [h₁, h₂]
  exact leads_tidy (hboth.element (by decide)) (Html.element_ne_nil _ _)

theorem title_seals : Seals n title := by
  refine seals_pattern fun s t found hf ht => ?_
  obtain ⟨-, title, eqs, -, -, -, hw, hgs⟩ := title_shape hf
  have h₁ : found.group 1 = some title := by simp [Match.group, hgs]
  rw [hw, Rows.append_newline] at ht
  have htitle : Tidy s (Html.element "h1" title) := ht.1.tidy.element (by decide)
  simp only [h₁]
  exact leads_tidy (htitle.element (by decide)) (Html.element_ne_nil _ _)

theorem isPaired_headingTag (hashes : Nat) : Html.IsPaired (headingTag hashes) := by
  obtain ⟨digits, htag, hdigits⟩ := headingTag_eq hashes
  rw [Html.IsPaired, htag]
  constructor
  · unfold Html.IsName
    rw [List.forall_mem_cons]
    exact ⟨by decide, fun d hd => by simp [Char.isAlphanum, hdigits d hd]⟩
  · intro hvoid
    have hletter : ∀ name ∈ Html.voids, name.tail.head?.all (!Char.isDigit ·) = true ∧ name.tail ≠ [] := by decide
    obtain ⟨hhead, hne⟩ := hletter _ hvoid
    obtain ⟨d, digits, rfl⟩ := List.exists_cons_of_ne_nil hne
    simp [hdigits d List.mem_cons_self] at hhead

theorem heading_seals : Seals n heading := by
  refine seals_pattern fun s t found hf ht => ?_
  obtain ⟨-, hashes, space, text, space', -, hhashes, -, ⟨hspace, hspace'⟩, hw, hgs⟩ := heading_shape hf
  have h₁ : found.group 1 = some hashes := by simp [Match.group, hgs]
  have h₂ : found.group 2 = some text := by simp [Match.group, hgs]
  have hfront : ∀ d ∈ hashes ++ space, isMargin d = true := by
    rw [List.forall_mem_append]
    exact ⟨fun d hd => hhashes d hd ▸ by decide, fun d hd => isMargin_of_isSpace (hspace d hd)⟩
  have hwhole : Tidy s (hashes ++ space ++ text ++ space') := hw ▸ ht.tidy
  have htext : Tidy s text := (hwhole.drop_space hspace').drop_margin hfront
  simp only [h₁, h₂]
  exact leads_tidy (htext.element (isPaired_headingTag hashes.length)) (Html.element_ne_nil _ _)

theorem table_seals : Seals n table := by
  refine seals_pattern fun s t found hf ht => leads_stage fun rows s' hrun => ?_
  obtain ⟨rfl, hrows⟩ := Table.tidy_of_run ht hrun
  exact ⟨.refl _, leads_tidy ((Tidy.nil.newline hrows).element (by decide)) (Html.element_ne_nil _ _)⟩

/-- The list stage gives tidy text where the rows have more to say than a mark or a colon. -/
def TidyLists (n : Nat) : Prop :=
  ∀ s t out s', Rows s t → (∀ l ∈ lines t, ¬ Lone l) → dialect.run n .list t s = some (out, s') → s.Le s' ∧ Tidy s' out

theorem not_lone_of_lined (h : Text.Lined Listing.Definition.Full t) : ∀ l ∈ lines t, ¬ Lone l := by
  rintro l hl (hm | rfl)
  · obtain ⟨d, hd, hfull⟩ := h l hl hm.ne_nil
    have hfree : isSpace d = false ∧ d ≠ ':' := by
      have hsigns : ∀ d ∈ "*.".toList, isSpace d = false ∧ d ≠ ':' := by decide
      rcases hm.mem hd with hmem | hdigit
      · exact hsigns d hmem
      · refine ⟨isSpace_of_isDigit hdigit, ?_⟩
        rintro rfl
        exact absurd hdigit (by decide)
    rcases hfull with hspace | ⟨hcolon, -⟩
    · simp [hfree.1] at hspace
    · exact hfree.2 hcolon
  · obtain ⟨d, hd, hfull⟩ := h _ hl (List.cons_ne_nil ':' [])
    rw [List.mem_singleton] at hd
    subst hd
    exact absurd hfull (by decide)

theorem list_seals (hn : TidyLists n) {name tag : String} (htag : Html.IsPaired tag)
    (hm : ∀ t found, matcher.find [] t = some found → Text.Lined Listing.Definition.Full found.whole) :
    Seals n (.pattern name matcher fun m => listBlock tag m.whole) := by
  refine seals_pattern fun s t found hf ht => leads_stage fun items s' hrun => ?_
  obtain ⟨hle, hitems⟩ := hn _ _ _ _ ht (not_lone_of_lined (hm t found hf)) hrun
  exact ⟨hle, leads_tidy (hitems.block htag) (Html.block_ne_nil _ _)⟩

theorem rules_seal (hn : TidyLists n) :
    ∀ r ∈ rules, (∃ m f, r.action = .pattern m f) ∧ r.HidesLines dialect ∧ Seals n r := by
  simp only [rules, List.forall_mem_cons]
  exact ⟨⟨⟨_, _, rfl⟩, quote_hidesLines, quote_seals⟩, ⟨⟨_, _, rfl⟩, horizontalRule_hidesLines, horizontalRule_seals⟩,
    ⟨⟨_, _, rfl⟩, titleWithSubtitle_hidesLines, titleWithSubtitle_seals⟩, ⟨⟨_, _, rfl⟩, title_hidesLines, title_seals⟩,
    ⟨⟨_, _, rfl⟩, heading_hidesLines, heading_seals⟩, ⟨⟨_, _, rfl⟩, table_hidesLines, table_seals⟩,
    ⟨⟨_, _, rfl⟩, unorderedList_hidesLines, list_seals hn (by decide) fun _ _ => lined_unorderedList⟩,
    ⟨⟨_, _, rfl⟩, orderedList_hidesLines, list_seals hn (by decide) fun _ _ => lined_orderedList⟩,
    ⟨⟨_, _, rfl⟩, definitionList_hidesLines, list_seals hn (by decide) fun _ _ => Listing.lined_definitionList⟩,
    ⟨⟨_, _, rfl⟩, paragraph_hidesLines, paragraph_seals⟩, fun r hr => absurd hr List.not_mem_nil⟩

/-- Blocks hold lists and lists hold blocks, with less fuel each. -/
theorem makesRows_and_tidyLists (n : Nat) : MakesRows n ∧ TidyLists n := by
  induction n with
  | zero =>
    constructor
    · intro s t out s' _ he
      simp [Grammar.run] at he
    · intro s t out s' _ _ he
      simp [Grammar.run] at he
  | succ n ih =>
    constructor
    · intro s t out s' ht he
      have hrun : applyAll (dialect.run n) n rules t s = some (out, s') := he
      refine Grammar.upholds_of_rules (fun r hr => ?_) n ht hrun
      obtain ⟨⟨m, f, ha⟩, hl, hs⟩ := rules_seal ih.2 r hr
      exact upholds_of_seals hr ha hl hs
    · intro s t out s' ht hlone he
      exact Listing.tidy_of_run ih.1 ht hlone he

theorem rows_of_run (h : Rows s t) (he : dialect.run n .block t s = some (out, s')) : s.Le s' ∧ Rows s' out :=
  (makesRows_and_tidyLists n).1 s t out s' h he

end Markup.Block
