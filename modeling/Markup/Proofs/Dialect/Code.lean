import Markup.Proofs.Block.Fence
import Markup.Proofs.Dialect.Blind
import Markup.Proofs.Document.Hole
import Markup.Proofs.Document.Trim

/-! # Code is inert

The code rule puts a token in the place of the first piece of code, and the token comes through the other rules once and
whole. What they do does not depend on the code, because they do not look into the store. -/
namespace Markup
open Grammar Script
open Text (Starts trimLines)
variable {pre post code t u : Text} {s : Store}

/-- The document around a piece of code. -/
def fencedCode (pre code post : Text) : Text := pre ++ ("@\n".toList ++ code ++ "\n@".toList ++ post)

namespace Document

/-- A store with nothing in it but the hole. -/
def hollow : Store := ⟨#[[]]⟩

theorem hollow_hollow : hollow.Hollow := rfl

theorem trimLines_fencedCode (hstart : Starts pre) (hcode : ∀ l ∈ code.lines, l.trimEnd = l)
    (hstop : post.head?.all (· == '\n') = true) :
    trimLines (fencedCode pre code post) = fencedCode (trimLines pre) code (trimLines post) := by
  have hmark : trimLines ['@'] = ['@'] := Text.trimLines_eq_self (by decide)
  have hclose : trimLines ('@' :: post) = '@' :: trimLines post := by
    cases post with
    | nil => rfl
    | cons c post =>
      obtain rfl : c = '\n' := by simpa using hstop
      have hnil : trimLines ('\n' :: post) = '\n' :: trimLines post := Text.trimLines_newline [] post
      rw [hnil]
      exact (Text.trimLines_newline ['@'] post).trans (by rw [hmark]; rfl)
  have hfence : fencedCode pre code post = pre ++ (['@'] ++ '\n' :: (code ++ '\n' :: '@' :: post)) := by
    simp [fencedCode]
  rw [hfence, hstart.trimLines_append, Text.trimLines_newline, Text.trimLines_newline, hmark, hclose,
    Text.trimLines_eq_self hcode]
  simp [fencedCode]

theorem applies_code (hstart : Starts pre) (hpre : ∀ l ∈ pre.lines, l ≠ ['@']) (hne : code ≠ [])
    (hcode : ∀ l ∈ code.lines.tail, l ≠ ['@']) (hstop : post.head?.all (· == '\n') = true) :
    dialect.Applies Document.code (fencedCode pre code post) .empty t s ↔
      dialect.Applies Document.code (pre ++ Token.ofId 0 ++ post) (hollow.fill (Html.element "pre" code)) t s := by
  have hfind := Block.find_fenced (by decide : '\n' ∉ "@".toList) hstart hpre hne hcode hstop
  have hround : fencedCode pre code post =
      pre ++ ("@".toList ++ '\n' :: code ++ '\n' :: "@".toList ++ post) := by simp [fencedCode]
  have hhide : dialect.Evaluates (Program.hide (Html.element "pre" code) >>= fun t => pure (some t)) .empty
      (some (Token.ofId 0)) (hollow.fill (Html.element "pre" code)) := evaluates_hide_bind.2 (evaluates_pure _ _)
  rw [Document.code, applies_pattern, hround, saturates_step hfind hhide]
  · rw [Match.replaceBy_reverse]
    rfl
  · intro h
    exact absurd (congrArg List.head? h) (by simp [Token.head?_ofId])

/-- The rules behind the first piece of code, but for the last one. -/
def sheltered : List Rule := shielding ++ rendering

theorem rules_sheltered : dialect.rules .document =
    [trailingSpace] ++ (sheltered ++ [Rule.transform "detokenize" fun t => some <$> Program.reveal t]) := rfl

theorem sheltered_end : ∀ r ∈ sheltered, r.Ends dialect fun _ => True := fun r hr =>
  rules_end r (List.mem_append_right [trailingSpace] (List.mem_append_left _ hr))

theorem sheltered_blind : ∀ r ∈ sheltered, r.Blind := by
  simp only [sheltered, shielding, rendering, List.cons_append, List.nil_append, List.forall_mem_cons]
  exact ⟨code_blind, escape_blind, stage_blind (by decide), stage_blind (by decide), fun r hr =>
    absurd hr List.not_mem_nil⟩

/-- Whatever fills the hole, the rules do the same, and in what they come to, the hole is there once. -/
theorem sheltered_fill (hs : s.Hollow) (ht : Pierced Early s t) :
    ∃ (out : Text) (L R : Text), ∀ v, ∃ after, dialect.AppliesAll sheltered t (s.fill v) out after ∧
      after.detokenize out = L ++ v ++ R := by
  obtain ⟨out, after, hrun, -⟩ := appliesAll_of_ends sheltered_end s (t := t) trivial
  obtain ⟨u, mid, hfirst, hlast⟩ := appliesAll_append.1 hrun
  obtain ⟨hle, hmid⟩ := Rule.keepsHole_all shielding_keepsHole hs ht hfirst
  obtain ⟨hle', hout⟩ := Rule.keepsHole_all rendering_keepsHole (hs.mono hle)
    (hmid.imp fun g hg => ⟨hg.1, False.elim⟩) hlast
  have hafter := (hs.mono hle).mono hle'
  obtain ⟨L, R, hresolve⟩ := (hout.bears.imp fun g hg => hg.1).detokenize hafter
  refine ⟨out, L, R, fun v => ?_⟩
  obtain ⟨filled, hfilled, -, rfl⟩ := hrun.blind sheltered_blind dialect_blind (Store.minting_fill v) ⟨hs, rfl⟩
  exact ⟨_, hfilled, hresolve v⟩

end Document

/-- Fenced code is inert: what stands before it and after it decides what is written around it, and the code itself
comes out as it is, whatever it holds. -/
theorem fenced_code_inert (hpre : ¬ Token.marker <:+: pre) (hpost : ¬ Token.marker <:+: post) (hstart : Starts pre)
    (hlines : ∀ l ∈ pre.lines, l.trimEnd ≠ ['@']) (hstop : post.head?.all (· == '\n') = true) :
    ∃ L R : Text, ∀ code : Text, code ≠ [] → (∀ l ∈ code.lines, l.trimEnd = l) → (∀ l ∈ code.lines.tail, l ≠ ['@']) →
      dialect.Converts (fencedCode pre code post) (L ++ ("<pre>".toList ++ code ++ "</pre>".toList) ++ R) := by
  have hmarker {x : Text} (hx : ¬ Token.marker <:+: x) : ¬ Token.marker <:+: trimLines x :=
    Text.not_infix_trimLines (by decide) (by decide) hx
  have hstop' : (trimLines post).head?.all (· == '\n') = true := by
    cases post with
    | nil => rfl
    | cons c post =>
      obtain rfl : c = '\n' := by simpa using hstop
      rw [show trimLines ('\n' :: post) = '\n' :: trimLines post from Text.trimLines_newline [] post]
      rfl
  have hlines' : ∀ l ∈ (trimLines pre).lines, l ≠ ['@'] := by
    rw [Text.lines_trimLines]
    simpa using hlines
  have hpierced := Document.pierced_ofText Document.hollow_hollow (hmarker hpre) (hmarker hpost) hstart.trimLines hstop'
  obtain ⟨out, L, R, hfill⟩ := Document.sheltered_fill Document.hollow_hollow hpierced
  refine ⟨L, R, fun code hne hcode htail => ?_⟩
  obtain ⟨after, hrun, hresolve⟩ := hfill (Html.element "pre" code)
  have helement : Html.element "pre" code = "<pre>".toList ++ code ++ "</pre>".toList := by simp [Html.element]
  have hdetok : L ++ ("<pre>".toList ++ code ++ "</pre>".toList) ++ R =
      if after.detokenize out = [] then out else after.detokenize out := by
    rw [hresolve, helement, if_neg (by simp)]
  obtain ⟨u, mid, hcodes, hrest⟩ := appliesAll_cons.1 hrun
  have hfirst := (Document.applies_code hstart.trimLines hlines' hne htail hstop').2 hcodes
  rw [← Document.trimLines_fencedCode hstart hcode hstop] at hfirst
  refine converts_iff.2 ⟨after, runs_iff.2 ?_⟩
  rw [Document.rules_sheltered, appliesAll_append]
  refine ⟨_, .empty, appliesAll_cons.2 ⟨_, .empty, Document.applies_trailingSpace _ _, appliesAll_nil⟩, ?_⟩
  rw [appliesAll_append]
  exact ⟨out, after, appliesAll_cons.2 ⟨u, mid, hfirst, hrest⟩,
    appliesAll_cons.2 ⟨_, after, Document.applies_reveal.2 ⟨rfl, hdetok⟩, appliesAll_nil⟩⟩

/-- Code that spells the token it is hidden behind. -/
theorem fenced_code_inert_of_token : ¬ Token.marker <:+: "# a\n".toList ∧ ¬ Token.marker <:+: "\n*b*".toList ∧
    ∃ L R : Text, dialect.Converts (fencedCode "# a\n".toList ";;xsv;0;\n \\*c*".toList "\n*b*".toList)
      (L ++ ("<pre>".toList ++ ";;xsv;0;\n \\*c*".toList ++ "</pre>".toList) ++ R) := by
  have hpre : ¬ Token.marker <:+: "# a\n".toList := by decide
  have hpost : ¬ Token.marker <:+: "\n*b*".toList := by decide
  obtain ⟨L, R, h⟩ := fenced_code_inert hpre hpost rfl (by decide) rfl
  exact ⟨hpre, hpost, L, R, h _ (by decide) (by decide) (by decide)⟩

end Markup
