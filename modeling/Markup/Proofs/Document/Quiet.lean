import Markup.Proofs.Block.Paragraph
import Markup.Proofs.Block.Quiet
import Markup.Proofs.Dialect.Twin
import Markup.Proofs.Document.Trim
import Markup.Proofs.Rule.Quiet
import Markup.Proofs.Script.Shows

/-! # Documents step by step

Where nothing is fenced and nothing escaped, only the white space at the ends of lines is taken away before the lines
and the blocks are done. What the blocks come to is shown in the end. -/
namespace Markup.Document
open Pattern Grammar
open Text (trimLines trimEnd)
variable {t u v out html : Text} {s₁ s₂ s₃ : Store}

theorem code_quiet (h : '@' ∉ t) : code.Quiet t :=
  Rule.quiet_of_not_mem (fun found hf => ⟨(takes_of_find hf).1, by
    obtain ⟨-, _, -, hw, -⟩ := Block.fenced_shape hf
    simp [hw]⟩) h

theorem code_quiet_of_line (h : '\n' ∉ t) : code.Quiet t :=
  Rule.quiet_of_not_mem (fun found hf => ⟨(takes_of_find hf).1, by
    obtain ⟨-, _, -, hw, -⟩ := Block.fenced_shape hf
    simp [hw]⟩) h

theorem escape_quiet (h : '\\' ∉ t) : escape.Quiet t :=
  Rule.quiet_of_not_mem (fun found hf => ⟨(takes_of_find hf).1, by
    obtain ⟨_, hw, -⟩ := escape_shape hf
    simp [hw]⟩) h

/-- Where nothing is fenced or escaped, white space at the ends of lines is all that goes. -/
theorem applies_preparation (hcode : '@' ∉ t) (hescape : '\\' ∉ t) (s : Store) :
    dialect.AppliesAll preparation t s (trimLines t) s :=
  appliesAll_cons.2 ⟨_, s, applies_trailingSpace t s, appliesAll_cons.2 ⟨_, s,
    (code_quiet (Text.not_mem_trimLines (by decide) hcode)).applies s, appliesAll_cons.2 ⟨_, s,
      (escape_quiet (Text.not_mem_trimLines (by decide) hescape)).applies s, appliesAll_nil⟩⟩⟩

theorem converts_of_shows (hprep : dialect.AppliesAll preparation t .empty u s₁) (hu : Sound s₁ u)
    (hline : dialect.Runs .line u s₁ v s₂) (hblock : dialect.Runs .block v s₂ out s₃) (hshow : Shows s₃ out html) :
    dialect.Converts t html := by
  have hrules : dialect.rules .document = preparation ++ [Rule.stage "inline" .line, .stage "blocks" .block,
      .transform "detokenize" fun t => some <$> Program.reveal t] := rfl
  have hv : Sound s₂ v := hu.runs (by decide) hline hline
  have hkeep {stage : Stage} {x y : Text} {s s' : Store} (hs : stage ≠ .document) (hx : Sound s x)
      (hrun : dialect.Runs stage x s y s') : y = if y = [] then x else y := by
    by_cases hne : x = []
    · rw [hne]
      split
      · assumption
      · rfl
    · rw [if_neg (hx.runs_ne_nil hs hne hrun)]
  have hlast : html = if s₃.detokenize out = [] then out else s₃.detokenize out := by
    by_cases ho : out = []
    · rw [← hshow.2, ho, Store.detokenize, Store.resolve_nil, if_pos rfl]
    · rw [if_neg (hshow.sound.detokenize_ne_nil ho), hshow.2]
  refine converts_iff.2 ⟨s₃, runs_iff.2 ?_⟩
  rw [hrules, appliesAll_append]
  exact ⟨u, s₁, hprep, appliesAll_cons.2 ⟨v, s₂, applies_stage.2 ⟨v, hline, hkeep (by decide) hu hline⟩,
    appliesAll_cons.2 ⟨out, s₃, applies_stage.2 ⟨out, hblock, hkeep (by decide) hv hblock⟩,
      appliesAll_cons.2 ⟨html, s₃, applies_reveal.2 ⟨rfl, hlast⟩, appliesAll_nil⟩⟩⟩⟩

/-- Where the line rules come to one line of prose that no marked block begins, the document is a paragraph. -/
theorem converts_of_line (hprep : dialect.AppliesAll preparation t .empty u s₁) (hu : Sound s₁ u)
    (hline : dialect.Runs .line u s₁ v s₂) (hbreak : '\n' ∉ v) (hprose : Block.isProse v = true)
    (hmarked : ∀ r ∈ Block.marked, r.Quiet v) : dialect.Converts t (Html.block "p" (s₂.detokenize v)) := by
  have hv : Sound s₂ v := hu.runs (by decide) hline hline
  have hvalue : Block.paragraphHtml [v] = Html.block "p" v := by
    rw [Block.paragraphHtml, Text.joinLines_singleton, Text.breakLines_of_not_mem hbreak]
  have hparagraph : dialect.Applies Block.paragraph v s₂ (Token.ofId s₂.size) (s₂.mint (Html.block "p" v)).2 := by
    have hall : [v].all Block.isProse = true := by simpa using hprose
    have hrun := Block.applies_paragraph (G := dialect) v s₂
    rw [Text.lines_eq_singleton hbreak, show Text.stretches Block.isProse [v] = [[v]] from rfl,
      Block.settle, if_pos hall, Block.settle, Text.joinLines_singleton, Block.paragraphs_cons hall, hvalue] at hrun
    exact hrun
  have htag : ';' ∉ "p".toList := by decide
  have hshow := Shows.mint (hv.block htag).clean (Html.block_ne_nil "p" v)
  rw [Sound.detokenize_block hv htag] at hshow
  refine converts_of_shows hprep hu hline (runs_iff.2 ?_) hshow
  exact appliesAll_append.2 ⟨_, _, appliesAll_quiet hmarked s₂, appliesAll_cons.2 ⟨_, _, hparagraph, appliesAll_nil⟩⟩

/-- Where no line rule and no block rule but the one for paragraphs finds anything, the document is its paragraphs. -/
theorem converts_of_quiet {f : Text → Text} (hprep : dialect.AppliesAll preparation t .empty u s₁)
    (hline : ∀ r ∈ Line.rules, r.Quiet u) (hmarked : ∀ r ∈ Block.marked, r.Quiet u)
    (hshow : ∀ l ∈ u.lines, Shows s₁ l (f l)) :
    dialect.Converts t (Text.joinLines ((Text.stretches Block.isProse u.lines).map (Block.stretchHtml f))) := by
  have hu : Shows s₁ (Text.joinLines u.lines) (Text.joinLines (u.lines.map f)) :=
    .joinLines (List.forall₂_map_right_iff.2 (List.forall₂_same.2 hshow))
  rw [Text.joinLines_lines] at hu
  have hblock : dialect.Runs .block u s₁ _ _ :=
    runs_iff.2 (appliesAll_append.2 ⟨_, _, appliesAll_quiet hmarked s₁,
      appliesAll_cons.2 ⟨_, _, Block.applies_paragraph u s₁, appliesAll_nil⟩⟩)
  have hflatten := Text.flatten_stretches Block.isProse u.lines
  have hsettle := Block.shows_settle f (Text.stretches Block.isProse u.lines) (fun _ => Text.stretch_of_mem)
    (hflatten.symm ▸ fun _ => Text.not_mem_of_mem_lines) (hflatten.symm ▸ hshow)
  exact converts_of_shows hprep hu.sound (runs_iff.2 (appliesAll_quiet hline s₁)) hblock (.joinLines hsettle)

end Markup.Document
