import Markup.Proofs.Dialect.Twin

/-! # What becomes of tokens

Every token that resolving a document comes upon has been minted before the place it stands in, and what a run resolves
to does not depend on the tokens that were minted before the run. -/
namespace Markup
open Grammar Script
variable {s s₁ s₂ : Store} {t : Text}

/-- Resolving `t` below `limit` comes upon a token with these digits where numbers below `bound` are resolved. -/
inductive Store.Meets (s : Store) : (limit : Nat) → (t : Text) → (bound : Nat) → (digits : Text) → Prop
  | here {limit : Nat} {t digits : Text} (h : .token digits ∈ Token.pieces t) : Meets s limit t limit digits
  | inside {limit n bound : Nat} {t v d digits : Text} (h : .token d ∈ Token.pieces t) (hn : Token.readId? d = some n)
      (hl : n < limit) (hv : s.values[n]? = some v) (below : Meets s n v bound digits) : Meets s limit t bound digits

theorem exists_token_of_mem_pieces {f : Side} {g : Script} (hg : Clean g) {d : Text}
    (h : .token d ∈ Token.pieces (spell f g)) : ∃ k, .token k ∈ g ∧ Token.readId? d = some (f k) := by
  rw [pieces_spell hg] at h
  obtain ⟨x, hx, hd⟩ := List.mem_map.1 h
  cases x with
  | char c => simp [piece] at hd
  | token k =>
    obtain rfl : Nat.toDigits 10 (f k) = d := by simpa [piece] using hd
    exact ⟨k, hx, Token.readId?_toDigits (f k)⟩

/-- A linked token refers only to tokens that were minted before it. -/
theorem Store.meets_of_twins {g : Script} (hg : Twins s₁ s₂ g) {limit bound : Nat} {digits : Text}
    (hl : ∀ k, .token k ∈ g → k.1 < limit) (h : s₁.Meets limit (spell Prod.fst g) bound digits) :
    ∃ n v, Token.readId? digits = some n ∧ n < bound ∧ s₁.values[n]? = some v := by
  generalize ht : spell Prod.fst g = t at h
  induction h generalizing g with
  | here h =>
    subst ht
    obtain ⟨k, hk, hread⟩ := exists_token_of_mem_pieces hg.clean h
    obtain ⟨v, -, -, -, -, fst, -⟩ := hg.known k hk
    exact ⟨k.1, spell Prod.fst v, hread, hl k hk, fst⟩
  | inside h hn _ hv _ ih =>
    subst ht
    obtain ⟨k, hk, hread⟩ := exists_token_of_mem_pieces hg.clean h
    obtain rfl := Option.some.inj (hread.symm.trans hn)
    obtain ⟨v, -, clean, below, known, fst, -⟩ := hg.known k hk
    obtain rfl := Option.some.inj (fst.symm.trans hv)
    exact ih ⟨clean, known⟩ (fun j hj => (below j hj).1) rfl

/-- No token leaks: whatever token resolving a document comes upon, in its text or in a value, is one that was minted,
and minted before the value it stands in. So none is left as it stands. -/
theorem convert_resolves_every_token (ht : ¬ Token.marker <:+: t) :
    (∃ out s, dialect.AppliesAll Document.rules.dropLast t .empty out s) ∧
    ∀ out s, dialect.AppliesAll Document.rules.dropLast t .empty out s →
      dialect.Converts t (s.detokenize out) ∧ ∀ bound digits, s.Meets s.size out bound digits →
        ∃ n v, Token.readId? digits = some n ∧ n < bound ∧ s.values[n]? = some v := by
  constructor
  · obtain ⟨html, s, h⟩ := dialect_ends .document t .empty
    obtain ⟨out, hout, -⟩ := (Document.runs_iff_unresolved ht).1 h
    exact ⟨out, s, hout⟩
  · intro out s hout
    refine ⟨converts_iff.2 ⟨s, (Document.runs_iff_unresolved ht).2 ⟨out, hout, rfl⟩⟩, fun bound digits h => ?_⟩
    obtain ⟨_, _, -, g, hg, hk, rfl, -⟩ := Document.unresolved_twin (Document.same_early ht .empty .empty) hout
    exact Store.meets_of_twins ⟨hg, hk⟩ (fun k hmem => (hk k hmem).lt_size.1) h

theorem convert_resolves_every_token_of_emphasis : ¬ Token.marker <:+: "*a*".toList ∧
    ∃ out s, dialect.AppliesAll Document.rules.dropLast "*a*".toList .empty out s ∧
      (dialect.Converts "*a*".toList (s.detokenize out) ∧ ∀ bound digits, s.Meets s.size out bound digits →
        ∃ n v, Token.readId? digits = some n ∧ n < bound ∧ s.values[n]? = some v) := by
  have ht : ¬ Token.marker <:+: "*a*".toList := by decide
  obtain ⟨⟨out, s, h⟩, hall⟩ := convert_resolves_every_token ht
  exact ⟨ht, out, s, h, hall out s h⟩

/-- Texts that mean the same are the same characters with the same tokens between them, each of them minted. -/
theorem Same.pieces {x y : Text} (h : Same Clean s₁ s₂ x y) : ∃ g, Known s₁ s₂ g ∧
    Token.pieces x = g.map (piece Prod.fst) ∧ Token.pieces y = g.map (piece Prod.snd) := by
  obtain ⟨g, hg, hk, rfl, rfl⟩ := h
  exact ⟨g, hk, pieces_spell hg Prod.fst, pieces_spell hg Prod.snd⟩

/-- No rule splits or forges a token. From any two stores, and however many rules have run before the tokens are
resolved, the text is read as the same characters and tokens in the same places. Each of these tokens has been minted in
either run for what means the same, so a part of a token or a number made up by a rule is nowhere read as one. -/
theorem document_rules_keep_tokens_whole (ht : ¬ Token.marker <:+: t) (i : Nat) (s₁ s₂ : Store) {out₁ : Text}
    {s₁' : Store} (h : dialect.AppliesAll (Document.unresolved.take i) t s₁ out₁ s₁') :
    ∃ out₂ s₂' g, dialect.AppliesAll (Document.unresolved.take i) t s₂ out₂ s₂' ∧ Known s₁' s₂' g ∧
      Token.pieces out₁ = g.map (piece Prod.fst) ∧ Token.pieces out₂ = g.map (piece Prod.snd) := by
  obtain ⟨out₂, s₂', hrun, hsame⟩ := Document.unresolved_take_twin (Document.same_early ht s₁ s₂) h
  obtain ⟨g, hg, h₁, h₂⟩ := hsame.pieces
  exact ⟨out₂, s₂', g, hrun, hg, h₁, h₂⟩

/-- Nor does a rule inside a stage, whatever tokens its text holds. -/
theorem stage_rule_keeps_tokens_whole {stage : Stage} (hs : stage ≠ .document) {r : Rule} (hr : r ∈ dialect.rules stage)
    {x y x' : Text} {s₁' : Store} (h : Same Clean s₁ s₂ x y) (hx : dialect.Applies r x s₁ x' s₁') :
    ∃ y' s₂' g, dialect.Applies r y s₂ y' s₂' ∧ Known s₁' s₂' g ∧
      Token.pieces x' = g.map (piece Prod.fst) ∧ Token.pieces y' = g.map (piece Prod.snd) := by
  obtain ⟨n, hn⟩ := hx
  obtain ⟨y', s₂', hy, -, -, hsame⟩ := stage_rules_twin (dialect_twin n) hs r hr n _ _ _ _ _ _ h.unfilled hn
  obtain ⟨g, hg, h₁, h₂⟩ := hsame.of_filled.pieces
  exact ⟨y', s₂', g, hy, hg, h₁, h₂⟩

/-- The numbers of tokens cannot be seen: from every store a run of a stage comes to the same text, once its tokens are
resolved. A document is resolved by the run itself. -/
theorem run_resolves_alike_from_every_store (ht : ¬ Token.marker <:+: t) (stage : Stage) :
    ∃ html, ∀ s, (∃ out after, dialect.Runs stage t s out after) ∧ ∀ out after, dialect.Runs stage t s out after →
      (stage ≠ .document → after.detokenize out = html) ∧ (stage = .document → out = html) := by
  by_cases hs : stage = .document
  · subst hs
    obtain ⟨html, after, h⟩ := dialect_ends .document t .empty
    obtain ⟨u, hu, rfl⟩ := (Document.runs_iff_unresolved ht).1 h
    refine ⟨after.detokenize u, fun s => ⟨dialect_ends .document t s, fun out after' hrun => ⟨absurd rfl, fun _ => ?_⟩⟩⟩
    obtain ⟨v, mid, hv, hsame⟩ := Document.unresolved_twin (Document.same_early ht .empty s) hu
    obtain ⟨rfl, -⟩ := hrun.unique ((Document.runs_iff_unresolved ht).2 ⟨v, hv, rfl⟩)
    exact hsame.detokenize_eq.symm
  · obtain ⟨u, mid, h⟩ := dialect_ends stage t .empty
    refine ⟨mid.detokenize u, fun s =>
      ⟨dialect_ends stage t s, fun out after hrun => ⟨fun _ => ?_, fun h => absurd h hs⟩⟩⟩
    have hsame : Same Clean .empty s t t := same_refl (clean_ofText ht)
    exact (hsame.runs hs h hrun).detokenize_eq.symm

theorem run_resolves_alike_of_emphasis : ¬ Token.marker <:+: "*a*".toList ∧
    ∃ html, ∀ s, (∃ out after, dialect.Runs .line "*a*".toList s out after) ∧
      ∀ out after, dialect.Runs .line "*a*".toList s out after →
        (Stage.line ≠ .document → after.detokenize out = html) ∧ (Stage.line = .document → out = html) :=
  ⟨by decide, run_resolves_alike_from_every_store (by decide) .line⟩

/-- A store that holds so many semicolons. -/
def semicolons (n : Nat) : Store := ⟨Array.replicate n [';']⟩

/-- Resolving a document once more can see the numbers: escaped characters may come out as a token. -/
theorem resolved_document_may_hold_token : ¬ Token.marker <:+: "\\;\\;xsv\\;4\\;".toList ∧
    dialect.Runs .document "\\;\\;xsv\\;4\\;".toList (semicolons 0) ";;xsv;4;".toList (semicolons 4) ∧
    dialect.Runs .document "\\;\\;xsv\\;4\\;".toList (semicolons 4) ";;xsv;4;".toList (semicolons 8) ∧
    (semicolons 4).detokenize ";;xsv;4;".toList = ";;xsv;4;".toList ∧
    (semicolons 8).detokenize ";;xsv;4;".toList = ";".toList := by
  refine ⟨by decide +kernel, ⟨12, ?_⟩, ⟨12, ?_⟩, ?_, ?_⟩
  · decide +kernel
  · decide +kernel
  · decide +kernel
  · decide +kernel

end Markup
