import Markup.Proofs.Dialect.Twin

/-! # Documents of extended dialects

Rules may be added to every stage but the document's, and they may make anything of a text, also nothing at all. The
steps of a document stay the same: each hands on its result to the next, except that a stage, or the resolution at the
end, whose result is empty hands on the text it was given. -/
namespace Markup
open Grammar
variable {g : Grammar} {s s' : Store} {t out html : Text}

/-- The dialect with rules after its own, in any stage but the document's. -/
inductive Extended : Grammar → Prop
  | dialect : Extended dialect
  | add {g : Grammar} {stage : Stage} (h : Extended g) (hs : stage ≠ .document) (r : Rule) : Extended (g.add stage r)

theorem Extended.document (h : Extended g) : g.rules .document = Document.rules := by
  induction h with
  | dialect => rfl
  | add _ hs _ ih => exact (if_neg hs.symm).trans ih

/-- What a transform hands on when it makes `out` of `t`. -/
def kept (t out : Text) : Text := if out = [] then t else out

theorem kept_eq (t out : Text) : kept t out = if out = [] then t else out := rfl

/-- The steps of a document one after the other, in a store of their own; a stage or the resolution that makes `out` of
`t` hands on `next t out`. -/
def Grammar.Composes (g : Grammar) (next : Text → Text → Text) (t html : Text) : Prop :=
  ∃ plain s₀ lines s₁ blocks s₂,
    g.AppliesAll Document.preparation t .empty plain s₀ ∧
    g.Runs .line plain s₀ lines s₁ ∧
    g.Runs .block (next plain lines) s₁ blocks s₂ ∧
    html = next (next (next plain lines) blocks) (s₂.detokenize (next (next plain lines) blocks))

theorem Grammar.Composes.unique {next : Text → Text → Text} {x y : Text} (hx : g.Composes next t x)
    (hy : g.Composes next t y) : x = y := by
  obtain ⟨_, _, _, _, _, _, hplain, hlines, hblocks, rfl⟩ := hx
  obtain ⟨_, _, _, _, _, _, hplain', hlines', hblocks', rfl⟩ := hy
  obtain ⟨rfl, rfl⟩ := hplain.unique hplain'
  obtain ⟨rfl, rfl⟩ := hlines.unique hlines'
  obtain ⟨rfl, rfl⟩ := hblocks.unique hblocks'
  rfl

/-- In every extended dialect a document is its steps one after the other. -/
theorem Extended.converts_iff_composes (hg : Extended g) : g.Converts t html ↔ g.Composes kept t html := by
  have hsplit : Document.rules = Document.preparation ++
      [Rule.stage "inline" .line, .stage "blocks" .block, .transform "detokenize" fun t => some <$> Program.reveal t] :=
      rfl
  have hnil {x y : Text} {s s' : Store} : g.AppliesAll [] x s y s' ↔ x = y ∧ s = s' := by
    simp [AppliesAll, runRules, applyAll]
  have hdocument (s : Store) : g.Runs .document t .empty html s ↔ g.AppliesAll Document.rules t .empty html s := by
    rw [runs_iff, hg.document]
  simp only [converts_iff, hdocument, hsplit, appliesAll_append, appliesAll_cons, applies_stage,
    Document.applies_reveal, ← kept_eq, hnil]
  constructor
  · rintro ⟨_, plain, s₀, hplain, _, s₁, ⟨lines, hlines, rfl⟩, _, s₂, ⟨blocks, hblocks, rfl⟩, _, _,
      ⟨rfl, rfl⟩, rfl, rfl⟩
    exact ⟨plain, s₀, lines, s₁, blocks, s₂, hplain, hlines, hblocks, rfl⟩
  · rintro ⟨plain, s₀, lines, s₁, blocks, s₂, hplain, hlines, hblocks, rfl⟩
    exact ⟨s₂, plain, s₀, hplain, _, s₁, ⟨lines, hlines, rfl⟩, _, s₂, ⟨blocks, hblocks, rfl⟩, _, s₂,
      ⟨rfl, rfl⟩, rfl, rfl⟩

/-- The dialect with a line rule that deletes every `x`. -/
def eraser : Grammar := dialect.add .line (.pattern "erase" (Pattern.word "x").matcher fun _ => return some [])

theorem eraser_extended : Extended eraser := .add .dialect (by decide) _

theorem eraser_converts : eraser.Converts "x".toList "<p>\nx\n</p>".toList := ⟨12, by decide +kernel⟩

theorem eraser_composes : Extended eraser ∧
    (eraser.Converts "x".toList "<p>\nx\n</p>".toList ↔ eraser.Composes kept "x".toList "<p>\nx\n</p>".toList) :=
  ⟨eraser_extended, eraser_extended.converts_iff_composes⟩

/-- An empty result does not always replace the text: a line that the line rules delete is still there. -/
theorem composition_may_keep_text : ¬ ∀ g, Extended g → ∀ t html,
    g.Converts t html → g.Composes (fun _ out => out) t html := by
  intro h
  have hempty : eraser.Composes (fun _ out => out) "x".toList [] := by
    refine ⟨"x".toList, .empty, [], .empty, [], .empty, ⟨4, ?_⟩, ⟨12, ?_⟩, ⟨12, ?_⟩, ?_⟩
    · decide +kernel
    · decide +kernel
    · decide +kernel
    · decide +kernel
  have hkept := h eraser eraser_extended _ _ eraser_converts
  exact absurd (hkept.unique hempty) (by decide)

end Markup
