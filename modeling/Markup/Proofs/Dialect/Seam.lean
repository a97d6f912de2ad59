import Markup.Proofs.Block.Seam
import Markup.Proofs.Dialect.Twin
import Markup.Proofs.Document.Rules
import Markup.Proofs.Line.Seam

/-! # Documents on both sides of a blank line

The runs over two texts are compared with the run over both, a line break between them. Every rule splits: what it does
to both is what it does to the left one and then to the right one, up to the numbers of the tokens. -/
namespace Markup.Document
open Pattern Program
open Text (Paused Opens stamped_ofId getLast?_replace)

theorem trailingSpace_keeps {P : Text → Prop} {f : Match → Program (Option Text)}
    (hf : ∀ m, f m = pure (some []))
    (hP : ∀ b w c : Text, P (b ++ w ++ c) → w ≠ [] → (∀ d ∈ w, isIndent d = true) → c.head?.all (· == '\n') = true →
      P (b ++ c)) : Rule.Keeps dialect (matcher (atLeast 1 isIndent ++ lineEnd)) f P := by
  intro t found s new s' ht h he
  obtain ⟨rfl, caps, htakes, -⟩ := takes_of_find h
  simp only [takes_append, takes_atLeast, takes_lineEnd] at htakes
  obtain ⟨w, _, _, _, hw, -, ⟨hall, hl, -⟩, hstop, rfl, -⟩ := htakes
  rw [List.append_nil] at hw
  rw [hf] at he
  obtain rfl : [] = new := Option.some.inj (Grammar.evaluates_pure_iff.1 he).1
  rw [Match.replaceBy_eq, List.append_nil]
  exact hP _ _ _ ht (hw ▸ List.ne_nil_of_length_pos hl) (hw ▸ hall) hstop

theorem trailingSpace_seam : trailingSpace.Seam dialect Paused Opens := by
  have hp := progresses (r := trailingSpace) (by simp [rules]) rfl
  refine Rule.seam_of_keeps hp (fun _ _ _ => rfl) (fun a b _ _ => matcher_seam_of_inLine (by decide) a b)
    (trailingSpace_keeps (fun _ => rfl) fun b w c h hne hw hc => ⟨?_, h.tame.strip hw hc⟩)
    (trailingSpace_keeps (fun _ => rfl) fun b w c h _ hw hc => h.strip hw hc)
  have hlast : w.getLast? ≠ some '\n' := fun h => absurd (hw _ (List.mem_of_getLast? h)) (by decide)
  have := getLast?_replace h.last hne hlast []
  rwa [List.append_nil] at this

theorem code_seam : code.Seam dialect Paused Opens := by
  have hp := progresses (r := code) (by simp [rules]) rfl
  refine Block.seam_of_fenced (fun text => Html.element "pre" text) hp (fun _ _ _ => rfl) (fun m text h => ?_)
    (by decide) (.inl (by decide))
  simp only [h]

theorem escape_seam : escape.Seam dialect Paused Opens := by
  have hp := progresses (r := escape) (by simp [rules]) rfl
  refine Rule.seam_of_inLine (by decide) (by decide) hp (fun _ _ _ => rfl) fun t found hf _ => ?_
  intro s new s' he
  cases h₁ : found.group 1 with
  | none =>
    simp only [h₁] at he
    exact yields_none _ _ _ he
  | some c =>
    simp only [h₁] at he
    exact yields_hide (fun n => yields_pure (stamped_ofId n)) _ _ _ he

end Markup.Document

namespace Markup
open Grammar Script
open Text (Paused Settled Opens Tame)

/-- What is known of the left text, of the right text, and of the script of either. -/
structure Sides where
  left : Text → Prop
  right : Text → Prop
  script : Script → Prop

variable {g : Grammar} {σ τ υ : Sides} {s₁ s₂ s s₁' s₂' s' : Store} {a b a' b' x y x' y' t : Text}
  {rules more : List Rule}

/-- The texts `x` and `y` of one run mean the same as the texts `a` and `b` of two other runs. -/
structure Split (σ : Sides) (s₁ s₂ s : Store) (a b x y : Text) : Prop where
  same : Same σ.script s₁ s a x
  same' : Same σ.script s₂ s b y
  left : σ.left x
  right : σ.right y

/-- What the rules do to two texts apart, they do to both with a seam between them. -/
def Grammar.Splits (g : Grammar) (rules : List Rule) (σ τ : Sides) : Prop :=
  ∀ s₁ s₂ s s₁' s₂' a b a' b' x y, Split σ s₁ s₂ s a b x y →
    g.AppliesAll rules a s₁ a' s₁' → g.AppliesAll rules b s₂ b' s₂' →
    ∃ x' y' s', g.AppliesAll rules (x ++ '\n' :: y) s (x' ++ '\n' :: y') s' ∧ Split τ s₁' s₂' s' a' b' x' y'

namespace Grammar

theorem splits_nil : g.Splits [] σ σ := by
  intro s₁ s₂ s s₁' s₂' a b a' b' x y h ha hb
  obtain ⟨rfl, rfl⟩ := ha.unique appliesAll_nil
  obtain ⟨rfl, rfl⟩ := hb.unique appliesAll_nil
  exact ⟨x, y, s, appliesAll_nil, h⟩

theorem Splits.append (h : g.Splits rules σ τ) (h' : g.Splits more τ υ) : g.Splits (rules ++ more) σ υ := by
  intro s₁ s₂ s s₁' s₂' a b a' b' x y hs ha hb
  obtain ⟨_, _, ha₁, ha₂⟩ := appliesAll_append.1 ha
  obtain ⟨_, _, hb₁, hb₂⟩ := appliesAll_append.1 hb
  obtain ⟨u, v, mid, h₁, hmid⟩ := h _ _ _ _ _ _ _ _ _ _ _ hs ha₁ hb₁
  obtain ⟨x', y', s', h₂, hend⟩ := h' _ _ _ _ _ _ _ _ _ _ _ hmid ha₂ hb₂
  exact ⟨x', y', s', appliesAll_append.2 ⟨_, mid, h₁, h₂⟩, hend⟩

theorem Splits.imp (h : g.Splits rules σ τ)
    (hi : ∀ s₁ s₂ s a b x y, Split τ s₁ s₂ s a b x y → Split υ s₁ s₂ s a b x y) : g.Splits rules σ υ := by
  intro s₁ s₂ s s₁' s₂' a b a' b' x y hs ha hb
  obtain ⟨x', y', s', hrun, hend⟩ := h _ _ _ _ _ _ _ _ _ _ _ hs ha hb
  exact ⟨x', y', s', hrun, hi _ _ _ _ _ _ _ hend⟩

theorem appliesAll_singleton {r : Rule} : g.AppliesAll [r] x s x' s' ↔ g.Applies r x s x' s' := by
  rw [appliesAll_cons]
  constructor
  · rintro ⟨u, mid, h, hnil⟩
    obtain ⟨rfl, rfl⟩ := hnil.unique appliesAll_nil
    exact h
  · exact fun h => ⟨x', s', h, appliesAll_nil⟩

theorem twin_applies {P : Script → Prop} {r : Rule} (h : ∀ n, r.Twin g n P) (hax : Same P s₁ s a x)
    (ha : g.Applies r a s₁ a' s₁') : ∃ x' s', g.Applies r x s x' s' ∧ s.Le s' ∧ Same P s₁' s' a' x' := by
  obtain ⟨n, ha⟩ := ha
  obtain ⟨x', s', hx, -, hle, hsame⟩ := h n n _ _ _ _ _ _ hax ha
  exact ⟨x', s', hx, hle, hsame⟩

/-- The left run comes first; the tokens of the right one get other numbers. -/
theorem splits_of_seam {r : Rule} (hs : r.Seam g σ.left σ.right) (ht : ∀ n, r.Twin g n σ.script) :
    g.Splits [r] σ σ := by
  intro s₁ s₂ s s₁' s₂' a b a' b' x y h ha hb
  rw [appliesAll_singleton] at ha hb
  obtain ⟨x', mid, hx, hle, hleft⟩ := twin_applies ht h.same ha
  obtain ⟨y', s', hy, hle', hright⟩ := twin_applies ht (h.same'.mono (.refl _) hle) hb
  obtain ⟨hrun, hl, hr⟩ := hs x y s x' mid y' s' h.left h.right hx hy
  exact ⟨x', y', s', appliesAll_singleton.2 hrun, hleft.mono (.refl _) hle', hright, hl, hr⟩

theorem splits_of_seams (hs : ∀ r ∈ rules, r.Seam g σ.left σ.right) (ht : ∀ n, ∀ r ∈ rules, r.Twin g n σ.script) :
    g.Splits rules σ σ := by
  induction rules with
  | nil => exact splits_nil
  | cons r rules ih =>
    have head := splits_of_seam (hs r List.mem_cons_self) fun n => ht n r List.mem_cons_self
    have tail := ih (fun q hq => hs q (List.mem_cons_of_mem _ hq)) fun n q hq => ht n q (List.mem_cons_of_mem _ hq)
    exact head.append tail

end Grammar

/-- What a stage makes of a text with something in it is no empty text. -/
theorem applies_stage_iff {name : String} {stage : Stage} (hs : stage ≠ .document) (h : Same (Filled True) s₁ s a x) :
    dialect.Applies (.stage name stage) a s₁ a' s₁' ↔ dialect.AppliesAll (dialect.rules stage) a s₁ a' s₁' := by
  have hne {t : Text} {s' : Store} (hrun : dialect.Runs stage a s₁ t s') : t ≠ [] := by
    obtain ⟨n, hn⟩ := hrun
    obtain ⟨_, _, -, -, -, k, hk, -, rfl, -⟩ := dialect_twin n stage hs True _ _ _ _ _ _ h hn
    exact spell_eq_nil.not.2 (hk.2 trivial)
  rw [← runs_iff, applies_stage]
  constructor
  · rintro ⟨new, hrun, rfl⟩
    rwa [if_neg (hne hrun)]
  · exact fun hrun => ⟨a', hrun, by rw [if_neg (hne hrun)]⟩

theorem splits_stage {name : String} {stage : Stage} (hs : stage ≠ .document) (hσ : σ.script = Filled True)
    (h : dialect.Splits (dialect.rules stage) σ τ) : dialect.Splits [.stage name stage] σ τ := by
  intro s₁ s₂ s s₁' s₂' a b a' b' x y hsplit ha hb
  rw [appliesAll_singleton] at ha hb
  rw [applies_stage_iff hs (hσ ▸ hsplit.same)] at ha
  rw [applies_stage_iff hs (hσ ▸ hsplit.same')] at hb
  obtain ⟨x', y', s', hrun, hend⟩ := h _ _ _ _ _ _ _ _ _ _ _ hsplit ha hb
  have hne : x' ++ '\n' :: y' ≠ [] := List.append_ne_nil_of_right_ne_nil _ (List.cons_ne_nil _ _)
  exact ⟨x', y', s', appliesAll_singleton.2 (applies_stage.2 ⟨_, runs_iff.2 hrun, by rw [if_neg hne]⟩), hend⟩

/-- Before the stages. -/
def Sides.early : Sides := ⟨Paused, Opens, Document.Early⟩

/-- While no block has taken the line break at the end of the left text. -/
def Sides.paused : Sides := ⟨Paused, Opens, Filled True⟩

def Sides.settled : Sides := ⟨Settled, Opens, Filled True⟩

theorem Split.settle (h : Split .paused s₁ s₂ s a b x y) : Split .settled s₁ s₂ s a b x y :=
  ⟨h.same, h.same', h.left.settled, h.right⟩

theorem Split.begin (h : Split .early s₁ s₂ s a b x y) : Split .paused s₁ s₂ s a b x y := by
  have hx : x ≠ [] := by
    rintro rfl
    simpa using h.left.last
  have hy : y ≠ [] := by
    obtain ⟨c, hc, -⟩ := h.right
    exact List.ne_nil_of_mem (List.takeWhile_subset _ hc)
  have hclean {s₁ s : Store} {a x : Text} (h : Same Document.Early s₁ s a x) : Same Clean s₁ s a x :=
    h.imp fun _ hg => hg.1
  exact ⟨(hclean h.same).filled (h.same.eq_nil_iff.not.2 hx), (hclean h.same').filled (h.same'.eq_nil_iff.not.2 hy),
    h.left, h.right⟩

theorem Document.preparation_splits : dialect.Splits Document.preparation .early .early := by
  refine splits_of_seams ?_ fun n => Document.preparation_twin
  simp only [Document.preparation, List.forall_mem_cons]
  exact ⟨Document.trailingSpace_seam, Document.code_seam, Document.escape_seam, fun r hr => absurd hr List.not_mem_nil⟩

theorem Line.splits : dialect.Splits Line.rules .paused .paused :=
  splits_of_seams Line.rules_seam fun n r hr => (Line.rules_track (dialect_twin n) r hr).twin

/-- From the headings on, a block may take the line break that it ends with. -/
theorem Block.splits : dialect.Splits Block.rules .paused .settled := by
  have first : dialect.Splits (Block.rules.take 4) .paused .paused :=
    splits_of_seams Block.paused_rules_seam fun n r hr =>
      (Block.rules_track (dialect_twin n) r (List.mem_of_mem_take hr)).twin
  have last : dialect.Splits (Block.rules.drop 4) .settled .settled :=
    splits_of_seams Block.settled_rules_seam fun n r hr =>
      (Block.rules_track (dialect_twin n) r (List.mem_of_mem_drop hr)).twin
  exact (first.imp fun _ _ _ _ _ _ _ => Split.settle).append last

theorem Document.unresolved_splits : dialect.Splits Document.unresolved .early .settled := by
  have lines : dialect.Splits [.stage "inline" .line] .paused .paused := splits_stage (by decide) rfl Line.splits
  have blocks : dialect.Splits [.stage "blocks" .block] .paused .settled := splits_stage (by decide) rfl Block.splits
  exact (Document.preparation_splits.imp fun _ _ _ _ _ _ _ => Split.begin).append (lines.append blocks)

theorem Store.detokenize_newline (hx : Same Clean s₁ s a x) (hy : Same Clean s₂ s b y) :
    s.detokenize (x ++ '\n' :: y) = s.detokenize x ++ '\n' :: s.detokenize y := by
  obtain ⟨g, hg, -, -, rfl⟩ := hx
  obtain ⟨h, hh, -, -, rfl⟩ := hy
  have hspell : spell Prod.snd g ++ '\n' :: spell Prod.snd h = spell Prod.snd (g ++ .char '\n' :: h) := by simp
  rw [hspell, detokenize, detokenize, detokenize, resolve_spell (hg.append_cons (by decide) hh), resolve_spell hg,
    resolve_spell hh, List.flatMap_append]
  rfl

/-- Two documents with a blank line between them are converted each on its own. On the left a line break ends the text
and no line is bare; on the right the text does not begin with a blank line. -/
theorem converts_apart (ha : ¬ Token.marker <:+: a) (hb : ¬ Token.marker <:+: b) (hend : a.getLast? = some '\n')
    (htame : Tame a) (hopens : Opens b) :
    ∃ x y, dialect.Converts a x ∧ dialect.Converts b y ∧ dialect.Converts (a ++ '\n' :: b) (x ++ '\n' :: y) := by
  obtain ⟨x, s₁, hx⟩ := dialect_ends .document a .empty
  obtain ⟨y, s₂, hy⟩ := dialect_ends .document b .empty
  refine ⟨x, y, converts_iff.2 ⟨s₁, hx⟩, converts_iff.2 ⟨s₂, hy⟩, ?_⟩
  obtain ⟨u, hu, rfl⟩ := (Document.runs_iff_unresolved ha).1 hx
  obtain ⟨v, hv, rfl⟩ := (Document.runs_iff_unresolved hb).1 hy
  have hbegin : Split .early .empty .empty .empty a b a b :=
    ⟨Document.same_early ha _ _, Document.same_early hb _ _, ⟨hend, htame⟩, hopens⟩
  obtain ⟨u', v', s, hrun, hsplit⟩ := Document.unresolved_splits _ _ _ _ _ _ _ _ _ _ _ hbegin hu hv
  have hboth : ¬ Token.marker <:+: a ++ '\n' :: b := fun h =>
    (List.infix_of_not_mem (by decide) h).elim ha hb
  refine converts_iff.2 ⟨s, (Document.runs_iff_unresolved hboth).2 ⟨_, hrun, ?_⟩⟩
  rw [hsplit.same.of_filled.detokenize_eq, hsplit.same'.of_filled.detokenize_eq,
    Store.detokenize_newline hsplit.same.of_filled hsplit.same'.of_filled]

/-- In these two, the emphases, the tags, the links, and then the blocks of both sides take tokens in turn. -/
theorem converts_apart_of_marked_up :
    let a := "# A *b*\n* #c\n* ->d(e) *f*\n".toList
    let b := "*g* and #h\n| ->i(j) | #k |".toList
    (¬ Token.marker <:+: a ∧ ¬ Token.marker <:+: b ∧ a.getLast? = some '\n' ∧ Tame a ∧ Opens b) ∧
      ∃ x y, dialect.Converts a x ∧ dialect.Converts b y ∧ dialect.Converts (a ++ '\n' :: b) (x ++ '\n' :: y) := by
  intro a b
  have h : ¬ Token.marker <:+: a ∧ ¬ Token.marker <:+: b ∧ a.getLast? = some '\n' ∧ Tame a ∧ Opens b := by
    decide +kernel
  exact ⟨h, converts_apart h.1 h.2.1 h.2.2.1 h.2.2.2.1 h.2.2.2.2⟩

end Markup
