import Markup.Proofs.Block.Hole
import Markup.Proofs.Dialect.Twin
import Markup.Proofs.Document.Rules
import Markup.Proofs.Line.Seam
import Markup.Proofs.Rule.Hole

/-! # Line rules and document rules around a hole

Each line rule takes a part of a line with a character that no token is written with. -/
namespace Markup.Line
open Pattern Script
variable {b : Prop}

theorem keepsHole_of_inLine {name : String} {p : Pattern} {f : Match → Program (Option Text)}
    (hr : Rule.pattern name p.matcher f ∈ rules) (hl : p.inLine false = true)
    (hd : ∀ t found, p.matcher.find [] t = some found → ∃ d ∈ found.whole, d ∉ Token.alphabet) :
    (Rule.pattern name p.matcher f).KeepsHole dialect (Filled b) := by
  refine Rule.keepsHole_of_inLine (fun n => rules_track (dialect_twin n) _ hr) fun t found hf => ⟨?_, hd t found hf⟩
  obtain ⟨-, caps, htakes, -⟩ := takes_of_find hf
  exact newline_not_mem_of_takes hl htakes

theorem emphasis_keepsHole : emphasis.KeepsHole dialect (Filled b) := by
  have hmark : ∀ mark ∈ marks, ∃ d ∈ mark, d ∉ Token.alphabet := by
    have hscore : '_' ∉ Token.alphabet := by decide
    have hstar : '*' ∉ Token.alphabet := by decide
    simp [marks, hscore, hstar]
  refine Rule.keepsHole_of_inLine (fun n => emphasis_tracks (dialect_twin n)) fun t found hf => ⟨emphasis_line hf, ?_⟩
  obtain ⟨mark, hm, content, -, hw, -⟩ := emphasis_shape hf
  obtain ⟨d, hd, ha⟩ := hmark mark hm
  exact ⟨d, by simp [hw, hd], ha⟩

theorem link_keepsHole : link.KeepsHole dialect (Filled b) := by
  refine keepsHole_of_inLine (by simp [rules, link]) (by decide) fun t found hf => ⟨'>', ?_, by decide⟩
  rcases link_shape hf with ⟨_, -, hw, -⟩ | ⟨_, _, -, -, hw, -⟩
  · simp [hw]
  · simp [hw]

theorem image_keepsHole : image.KeepsHole dialect (Filled b) := by
  refine keepsHole_of_inLine (by simp [rules, image]) (by decide) fun t found hf => ⟨'[', ?_, by decide⟩
  obtain ⟨_, _, _, -, hw, -⟩ := image_shape hf
  simp [hw]

theorem mail_keepsHole : mail.KeepsHole dialect (Filled b) := by
  refine keepsHole_of_inLine (by simp [rules, mail]) (by decide) fun t found hf => ⟨'@', ?_, by decide⟩
  obtain ⟨_, _, _, -, hw⟩ := mail_shape hf
  simp [hw]

theorem mention_keepsHole : mention.KeepsHole dialect (Filled b) := by
  refine keepsHole_of_inLine (List.mem_of_getElem? (i := 4) rfl) (by decide) fun t found hf => ⟨'@', ?_, by decide⟩
  obtain ⟨_, -, -, hw, -⟩ := handle_shape hf
  simp [hw]

theorem hashtag_keepsHole : hashtag.KeepsHole dialect (Filled b) := by
  refine keepsHole_of_inLine (List.mem_of_getElem? (i := 5) rfl) (by decide) fun t found hf => ⟨'#', ?_, by decide⟩
  obtain ⟨_, -, -, hw, -⟩ := handle_shape hf
  simp [hw]

theorem superscript_keepsHole : superscript.KeepsHole dialect (Filled b) := by
  refine keepsHole_of_inLine (by simp [rules, superscript]) (by decide) fun t found hf => ⟨'^', ?_, by decide⟩
  obtain ⟨_, -, hw, -⟩ := superscript_shape hf
  simp [hw]

theorem rules_keepHole : ∀ r ∈ rules, r.KeepsHole dialect (Filled b) := by
  simp only [rules, List.forall_mem_cons]
  exact ⟨emphasis_keepsHole, link_keepsHole, image_keepsHole, mail_keepsHole, mention_keepsHole, hashtag_keepsHole,
    superscript_keepsHole, fun r hr => absurd hr List.not_mem_nil⟩

end Markup.Line

namespace Markup.Document
open Pattern Script Program
open Text (Starts)
variable {s : Store} {x y : Text}

theorem getLast?_ne_of_starts {f : Side} {a : Script} (h : Starts (spell f a)) : a.getLast? ≠ some (.char '\\') := by
  intro hlast
  rw [Starts, getLast?_spell, hlast] at h
  exact absurd h (by decide)

/-- The hole on a line of its own in a text without tokens. -/
theorem pierced_ofText (hs : s.Hollow) (hx : ¬ Token.marker <:+: x) (hy : ¬ Token.marker <:+: y) (hstart : Starts x)
    (hstop : y.head?.all (· == '\n') = true) : Pierced Early s (x ++ Token.ofId 0 ++ y) := by
  have hearly : Early (ofText x ++ [Glyph.token (0, 0)] ++ ofText y) :=
    (early_ofText hx).around_token (early_ofText hy)
    (getLast?_ne_of_starts (f := Prod.fst) (by rwa [spell_ofText])) (0, 0)
  rw [List.append_assoc] at hearly
  refine ⟨ofText x, 0, ofText y, hearly, ⟨known_ofText x, known_ofText y, .hole hs, ?_, ?_⟩, ?_, ?_⟩
  · simp
  · simp
  · rw [spell_ofText]
    exact hstart.closed
  · rwa [spell_ofText]

theorem code_hidesLines : code.HidesLines dialect :=
  Block.fenced_hidesLines (fun text => Html.element "pre" text) fun m text h => by simp only [h]

theorem code_keepsHole : code.KeepsHole dialect Early := by
  refine Rule.keepsHole_of_lines (fun _ => code_tracks) (fun k hk => hk.1)
    (fun k i hk hstart => hk.replace (getLast?_ne_of_starts hstart) i) code_hidesLines fun t found s hf hb _ => ?_
  obtain ⟨hl, text, -, hw, hg⟩ := Block.fenced_shape hf
  have h₁ : found.group 1 = some text := by simp [Match.group, hg]
  have htext := Block.bears_of_fenced (by decide) (hw ▸ hb)
  refine ⟨hl.stop, _, (htext.element (by decide : ';' ∉ "pre".toList)).clean, ?_⟩
  simp only [h₁]
  rfl

theorem escape_keepsHole : escape.KeepsHole dialect Early := by
  refine Rule.keepsHole_of_inLine (fun _ => escape_tracks) fun t found hf => ⟨?_, '\\', ?_, by decide⟩
  · obtain ⟨-, caps, htakes, -⟩ := takes_of_find hf
    exact newline_not_mem_of_takes (by decide) htakes
  · obtain ⟨c, hw, -⟩ := escape_shape hf
    simp [hw]

/-- What is left of a document's rules behind its first piece of code, but for the last one. -/
def shielding : List Rule := [code, escape]

theorem shielding_keepsHole : ∀ r ∈ shielding, r.KeepsHole dialect Early := by
  simp only [shielding, List.forall_mem_cons]
  exact ⟨code_keepsHole, escape_keepsHole, fun r hr => absurd hr List.not_mem_nil⟩

def rendering : List Rule := [.stage "inline" .line, .stage "blocks" .block]

theorem rendering_keepsHole : ∀ r ∈ rendering, r.KeepsHole dialect (Filled False) := by
  simp only [rendering, List.forall_mem_cons]
  exact ⟨Rule.stage_keepsHole Line.rules_keepHole, Rule.stage_keepsHole Block.rules_keepHole,
    fun r hr => absurd hr List.not_mem_nil⟩

end Markup.Document
