import Markup.Convert
import Markup.Proofs.Block.Ends

/-! # Conversions come to an end -/
namespace Markup
open Pattern Grammar

namespace Document

theorem trailingSpace_ends : trailingSpace.Ends dialect fun _ => True := by
  refine Rule.ends_of_size List.length fun t s found _ hf => ?_
  obtain ⟨rfl, caps, ht, -⟩ := takes_of_find hf
  simp only [takes_append, takes_atLeast, takes_lineEnd] at ht
  obtain ⟨u, _, _, _, hw, -, ⟨-, hl, -⟩, -, rfl, -⟩ := ht
  have hpos : 0 < found.whole.length := by rw [hw, List.append_nil]; exact hl
  refine ⟨rfl, [], s, evaluates_pure _ _, ?_, trivial⟩
  rw [Match.replaceBy_eq, Match.text]
  simp only [List.length_append, List.length_nil]
  omega

theorem code_ends : code.Ends dialect fun _ => True := by
  refine Rule.ends_of_hides (w := .count '@') (by decide) (fun _ _ _ => trivial) fun t s found _ hf => ?_
  obtain ⟨-, text, -, hw, hg⟩ := Block.fenced_shape hf
  refine ⟨(takes_of_find hf).1, ?_, s, Html.element "pre" text, ?_⟩
  · rw [hw]
    exact Weight.pos_of_char rfl [] _
  · simp only [Match.group, hg]
    exact evaluates_hide_bind.2 (evaluates_pure _ _)

theorem escape_ends : escape.Ends dialect fun _ => True := by
  refine Rule.ends_of_hides (w := .count '\\') (by decide) (fun _ _ _ => trivial) fun t s found _ hf => ?_
  obtain ⟨ht, caps, hk, hg⟩ := takes_of_find hf
  simp only [takes_append, takes_group, takes_word, takes_one] at hk
  obtain ⟨_, _, _, _, hw, rfl, ⟨rfl, rfl⟩, _, ⟨c, -, rfl, rfl⟩, rfl⟩ := hk
  have hg : found.groups = [some [c]] := hg
  refine ⟨ht, ?_, s, [c], ?_⟩
  · rw [hw]
    exact Weight.pos_of_char rfl [] _
  · simp only [Match.group, hg]
    exact evaluates_hide_bind.2 (evaluates_pure _ _)

theorem stage_ends {g : Grammar} {stage : Stage} (name : String)
    (h : ∀ t s, ∃ out after, g.Runs stage t s out after) : (Rule.stage name stage).Ends g fun _ => True := by
  refine Rule.ends_of_transform fun t s _ => ?_
  obtain ⟨out, after, hr⟩ := h t s
  refine ⟨_, after, applies_transform.2 ⟨some out, ?_, rfl⟩, trivial⟩
  rw [map_eq_pure_bind]
  exact evaluates_rerun_bind.2 ⟨out, after, hr, evaluates_pure _ _⟩

theorem reveal_ends {g : Grammar} (name : String) :
    (Rule.transform name fun t => some <$> Program.reveal t).Ends g fun _ => True := Rule.ends_of_transform fun t s _ =>
  ⟨_, s, applies_transform.2 ⟨some (s.detokenize t), ⟨0, rfl⟩, rfl⟩, trivial⟩

theorem rules_end : ∀ r ∈ rules, r.Ends dialect fun _ => True := by
  have hline (t : Text) (s : Store) : ∃ out after, dialect.Runs .line t s out after := by
    obtain ⟨out, after, h, -⟩ := Line.ends t s
    exact ⟨out, after, h⟩
  have hblock (t : Text) (s : Store) : ∃ out after, dialect.Runs .block t s out after := by
    obtain ⟨out, after, h, -⟩ := Block.ends t s
    exact ⟨out, after, h⟩
  simp only [rules, List.forall_mem_cons]
  exact ⟨trailingSpace_ends, code_ends, escape_ends, stage_ends _ hline, stage_ends _ hblock, reveal_ends _,
    fun r hr => absurd hr List.not_mem_nil⟩

end Document

/-- The rules of every stage come to an end from any text. -/
theorem dialect_rules_end (stage : Stage) (t : Text) :
    ∃ Keep : Text → Prop, Keep t ∧ ∀ r ∈ dialect.rules stage, r.Ends dialect Keep := by
  have hline (n : Nat) (t : Text) (s : Store) (_ : Line.depth.of t < n) :
      ∃ out after, dialect.Runs .line t s out after := by
    obtain ⟨out, after, h, -⟩ := Line.ends t s
    exact ⟨out, after, h⟩
  have hblock (n : Nat) : Listing.BlocksEnd n := fun t s _ => Block.ends t s
  cases stage with
  | document => exact ⟨_, trivial, Document.rules_end⟩
  | block => exact ⟨Marked (Line.blockDepth.of t), Nat.le_refl _, Block.rules_end (Listing.ends (hblock _))⟩
  | table => exact ⟨fun _ => True, trivial, by simpa [dialect] using Table.row_ends⟩
  | list => exact ⟨Marked (Line.blockDepth.of t), Nat.le_refl _, Listing.rules_end (hblock _)⟩
  | line => exact ⟨Line.Within _ _, ⟨Nat.le_refl _, Nat.le_refl _⟩, Line.rules_end (hline _)⟩

/-- Every run of a stage ends, from any text and any store. -/
theorem dialect_ends (stage : Stage) (t : Text) (s : Store) : ∃ out after, dialect.Runs stage t s out after := by
  obtain ⟨Keep, ht, hr⟩ := dialect_rules_end stage t
  obtain ⟨out, after, h, -⟩ := appliesAll_of_ends hr s ht
  exact ⟨out, after, runs_iff.2 h⟩

/-- The fragment of a document is what the document is converted to. -/
theorem converts_html (t : Text) : dialect.Converts t (html t) := by
  obtain ⟨out, after, hrun⟩ := dialect_ends .document t .empty
  have hout : dialect.Converts t out := converts_iff.2 ⟨after, hrun⟩
  rw [html]
  split
  · next fragment h => exact ⟨ampleFuel, h⟩
  · rw [hout.convertFully]
    exact hout

theorem dialect_progress {stage : Stage} {r : Rule} (hr : r ∈ dialect.rules stage) {m : Matcher}
    {f : Match → Program (Option Text)} (ha : r.action = .pattern m f) : Rule.Progresses dialect m f := by
  intro t found s hf
  obtain ⟨Keep, ht, hend⟩ := dialect_rules_end stage t
  exact (hend r hr).round m f ha t s found ht hf

theorem dialect_converts (t : Text) : ∃ html, dialect.Converts t html := by
  obtain ⟨html, after, h⟩ := dialect_ends .document t .empty
  exact ⟨html, converts_iff.2 ⟨after, h⟩⟩

/-- Every rule of every stage runs out of matches after finitely many rounds, with runs inside one another only
finitely deep; so every document is converted. -/
theorem dialect_terminates :
    (∀ stage t s, ∃ out after, dialect.Runs stage t s out after) ∧ ∀ t, ∃ html, dialect.Converts t html :=
  ⟨dialect_ends, dialect_converts⟩

end Markup
