import Markup.Proofs.Document.Rules

/-! # Runs do not see the numbers of tokens

Whatever a store holds before a run, the run over a text without the marker mints tokens for the same values in the
same places, so its result resolves to the same text. -/
namespace Markup
open Grammar Script
variable {s₁ s₂ s₁' s₂' : Store} {t x y x' y' : Text}

theorem stage_rules_twin {n : Nat} (hn : dialect.Twin n) {stage : Stage} (hs : stage ≠ .document) {b : Prop} :
    ∀ r ∈ dialect.rules stage, r.Twin dialect n (Filled b) := by
  cases stage with
  | document => exact absurd rfl hs
  | block => exact fun r hr => (Block.rules_track hn r hr).twin
  | table => simpa [dialect] using Table.row_tracks.twin
  | list => exact fun r hr => (Listing.rules_track hn r hr).twin
  | line => exact fun r hr => (Line.rules_track hn r hr).twin

/-- No stage but the document's sees the numbers of tokens. -/
theorem dialect_twin (n : Nat) : dialect.Twin n := by
  induction n with
  | zero =>
    intro _ _ _ _ _ _ _ _ _ _ he
    simp [run] at he
  | succ n ih =>
    intro stage hs b s₁ s₂ x y x' s₁' hxy he
    obtain ⟨y', s₂', hy, hle₁, hle₂, hsame⟩ := twin_of_rules (stage_rules_twin ih hs) n hxy he
    exact ⟨y', s₂', runs_iff.2 hy, hle₁, hle₂, hsame⟩

theorem Same.runs {stage : Stage} (hs : stage ≠ .document) (h : Same Clean s₁ s₂ x y)
    (hx : dialect.Runs stage x s₁ x' s₁') (hy : dialect.Runs stage y s₂ y' s₂') : Same Clean s₁' s₂' x' y' := by
  obtain ⟨n, hn⟩ := hx
  obtain ⟨y'', s₂'', hrun, -, -, hsame⟩ := dialect_twin n stage hs False s₁ s₂ x y x' s₁' h.unfilled hn
  obtain ⟨rfl, rfl⟩ := hy.unique hrun
  exact hsame.of_filled

theorem Same.runs_ne_nil {stage : Stage} (hs : stage ≠ .document) (h : Same Clean s₁ s₂ x y) (hne : x ≠ [])
    (hx : dialect.Runs stage x s₁ x' s₁') : x' ≠ [] := by
  obtain ⟨n, hn⟩ := hx
  obtain ⟨_, _, -, -, -, g, hg, -, rfl, -⟩ := dialect_twin n stage hs True s₁ s₂ x y x' s₁' (h.filled hne) hn
  exact spell_eq_nil.not.2 (hg.2 trivial)

namespace Document

/-- The rules of a document before its tokens are resolved. -/
def unresolved : List Rule :=
  [trailingSpace, code, escape, .stage "inline" .line, .stage "blocks" .block]

/-- The rules before the stages. -/
def preparation : List Rule := [trailingSpace, code, escape]

theorem unresolved_eq : unresolved = preparation ++ [Rule.stage "inline" .line, .stage "blocks" .block] := rfl

theorem rules_eq : rules = unresolved ++ [Rule.transform "detokenize" fun t => some <$> Program.reveal t] := rfl

theorem preparation_twin {n : Nat} : ∀ r ∈ preparation, r.Twin dialect n Early := by
  simp only [preparation, List.forall_mem_cons]
  exact ⟨trailingSpace_tracks.twin, code_tracks.twin, escape_tracks.twin, fun r hr => absurd hr List.not_mem_nil⟩

/-- However many of the rules have run. -/
theorem unresolved_take_twin {i : Nat} (h : Same Early s₁ s₂ x y)
    (hx : dialect.AppliesAll (unresolved.take i) x s₁ x' s₁') :
    ∃ y' s₂', dialect.AppliesAll (unresolved.take i) y s₂ y' s₂' ∧ Same Clean s₁' s₂' x' y' := by
  rw [unresolved_eq, List.take_append, appliesAll_append] at hx
  obtain ⟨u, mid, ⟨n, hu⟩, k, hv⟩ := hx
  have late : ∀ r ∈ [Rule.stage "inline" .line, Rule.stage "blocks" .block], r.Twin dialect k (Filled False) := by
    simp only [List.forall_mem_cons]
    exact ⟨Rule.twin_stage (dialect_twin k) (by decide), Rule.twin_stage (dialect_twin k) (by decide),
      fun r hr => absurd hr List.not_mem_nil⟩
  have early : ∀ r ∈ preparation.take i, r.Twin dialect n Early :=
    fun r hr => preparation_twin r (List.mem_of_mem_take hr)
  obtain ⟨v, mid₂, hy, -, -, hsame⟩ := twin_of_rules early n h hu
  have hfill : Same (Filled False) mid mid₂ u v := hsame.imp fun _ hg => ⟨hg.1, False.elim⟩
  obtain ⟨y', s₂', hy', -, -, hsame'⟩ := twin_of_rules (fun r hr => late r (List.mem_of_mem_take hr)) k hfill hv
  refine ⟨y', s₂', ?_, hsame'.of_filled⟩
  rw [unresolved_eq, List.take_append, appliesAll_append]
  exact ⟨v, mid₂, hy, hy'⟩

theorem unresolved_twin (h : Same Early s₁ s₂ x y) (hx : dialect.AppliesAll unresolved x s₁ x' s₁') :
    ∃ y' s₂', dialect.AppliesAll unresolved y s₂ y' s₂' ∧ Same Clean s₁' s₂' x' y' :=
  unresolved_take_twin (i := unresolved.length) h hx

theorem applies_reveal {g : Grammar} {name : String} {s s' : Store} :
    g.Applies (.transform name fun t => some <$> Program.reveal t) x s y s' ↔
      s = s' ∧ y = if s.detokenize x = [] then x else s.detokenize x := by
  rw [applies_transform, ← getD_filter_ne_nil]
  constructor
  · rintro ⟨new, ⟨_, he⟩, rfl⟩
    obtain ⟨rfl, rfl⟩ : some (s.detokenize x) = new ∧ s = s' := by
      simpa using Option.some.inj he
    exact ⟨rfl, rfl⟩
  · rintro ⟨rfl, rfl⟩
    exact ⟨some (s.detokenize x), ⟨0, rfl⟩, rfl⟩

theorem same_early (ht : ¬ Token.marker <:+: t) (s₁ s₂ : Store) : Same Early s₁ s₂ t t := same_refl (early_ofText ht)

/-- A document is what its unresolved text resolves to; nothing but the empty text resolves to the empty text. -/
theorem runs_iff_unresolved (ht : ¬ Token.marker <:+: t) {s s' : Store} {html : Text} :
    dialect.Runs .document t s html s' ↔
      ∃ out, dialect.AppliesAll unresolved t s out s' ∧ html = s'.detokenize out := by
  have hresolve {out : Text} (h : dialect.AppliesAll unresolved t s out s') :
      (if s'.detokenize out = [] then out else s'.detokenize out) = s'.detokenize out := by
    obtain ⟨_, _, -, hsame⟩ := unresolved_twin (same_early ht s s) h
    by_cases ho : out = []
    · rw [ho, Store.detokenize, Store.resolve_nil, if_pos rfl]
    · rw [if_neg (hsame.detokenize_ne_nil ho)]
  rw [runs_iff, show dialect.rules .document = rules from rfl, rules_eq, appliesAll_append]
  constructor
  · rintro ⟨out, mid, hout, hlast⟩
    obtain ⟨u, mid', hr, _, hnil⟩ := appliesAll_cons.1 hlast
    obtain ⟨rfl, rfl⟩ := applies_reveal.1 hr
    obtain ⟨rfl, rfl⟩ := by simpa [runRules, applyAll] using hnil
    exact ⟨out, hout, hresolve hout⟩
  · rintro ⟨out, hout, rfl⟩
    exact ⟨out, s', hout, appliesAll_cons.2 ⟨_, s', applies_reveal.2 ⟨rfl, (hresolve hout).symm⟩, appliesAll_nil⟩⟩

end Document
end Markup
