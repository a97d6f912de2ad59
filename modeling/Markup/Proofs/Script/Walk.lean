import Markup.Proofs.Script.Places

/-! # Patterns over scripts

A pattern does not see the numbers of tokens: over the two spellings of a script it takes the same glyphs
(`walk_twin`). Two syntactic checks say when: `stuck` that nothing can be taken from within a token, and `fits` that
a token is taken whole or not at all. -/
namespace Markup.Pattern
open Script
variable {End : State → State → Prop} {next₁ next₂ : State → Option State}

/-- Whether the pattern takes tokens whole or not at all, when what follows is stuck within tokens (`strict`), or
accepts everything (`total`). -/
def fits : Pattern → (strict total : Bool) → Bool
  | literal t, _, _ => !t.contains ';'
  | run accepts least most greedy, strict, total =>
    !accepts ';' || Token.alphabet.all accepts && least ≤ 1 && most.isNone && (strict || greedy && total)
  | both p q, strict, total => p.fits (q.stuck strict) false && q.fits strict total
  | either p q, strict, total => p.fits strict total && q.fits strict total
  | star p, strict, _ => 1 ≤ p.size && p.fits ((star p).stuck strict) false
  | group _ p, strict, total => p.fits strict total
  | _, _, _ => true

theorem rel_findSome? {gs : List Place} {l₁ l₂ : List State} (h₁ : List.Forall₂ (Spells Prod.fst) gs l₁)
    (h₂ : List.Forall₂ (Spells Prod.snd) gs l₂)
    (hn : ∀ g ∈ gs, ∀ e₁ e₂, Twin g e₁ e₂ → Option.Rel End (next₁ e₁) (next₂ e₂)) :
    Option.Rel End (l₁.findSome? next₁) (l₂.findSome? next₂) := by
  induction h₁ generalizing l₂ with
  | nil =>
    cases h₂
    exact .none
  | @cons g e₁ gs l₁ hs₁ _ ih =>
    cases h₂ with
    | @cons _ e₂ _ l₂ hs₂ tail₂ =>
      have head := hn g List.mem_cons_self e₁ e₂ ⟨hs₁, hs₂⟩
      have tail := ih tail₂ fun g hg => hn g (List.mem_cons_of_mem _ hg)
      rw [List.findSome?_cons, List.findSome?_cons]
      generalize next₁ e₁ = a, next₂ e₂ = b at head ⊢
      cases head with
      | none => exact tail
      | some h => exact .some h

theorem rel_bind_getLast? {gs : List Place} {e₁ e₂ : Option State} (h₁ : Option.Rel (Spells Prod.fst) gs.getLast? e₁)
    (h₂ : Option.Rel (Spells Prod.snd) gs.getLast? e₂)
    (hn : ∀ g ∈ gs, ∀ e₁ e₂, Twin g e₁ e₂ → Option.Rel End (next₁ e₁) (next₂ e₂)) :
    Option.Rel End (e₁.bind next₁) (e₂.bind next₂) := by
  cases hlast : gs.getLast? with
  | none =>
    rw [hlast] at h₁ h₂
    cases h₁
    cases h₂
    exact .none
  | some g =>
    rw [hlast] at h₁ h₂
    cases h₁ with
    | some he₁ =>
      cases h₂ with
      | some he₂ => exact hn g (List.mem_of_getLast? hlast) _ _ ⟨he₁, he₂⟩

/-- What follows a pattern in the two searches, from a place on: behind at least `n` glyphs the states in which they end
are related by `End`. -/
def Follows (End : State → State → Prop) (n : Nat) (g : Place) (next₁ next₂ : State → Option State) : Prop :=
  ∀ w h e₁ e₂, g.Past w h → n ≤ w.length → Twin h e₁ e₂ → Option.Rel End (next₁ e₁) (next₂ e₂)

theorem Follows.past {n k : Nat} {g h : Place} {w : Script} (hf : Follows End (n + k) g next₁ next₂) (hp : g.Past w h)
    (hw : n ≤ w.length) : Follows End k h next₁ next₂ := fun v j e₁ e₂ hpast hv ht =>
  hf (w ++ v) j e₁ e₂ (hp.trans hpast) (by rw [List.length_append]; omega) ht

theorem Follows.here {g : Place} {s₁ s₂ : State} (h : Follows End 0 g next₁ next₂) (ht : Twin g s₁ s₂) :
    Option.Rel End (next₁ s₁) (next₂ s₂) := h [] g s₁ s₂ (.of_captures_eq rfl (by simp) rfl) (Nat.zero_le _) ht

/-- Each repetition takes a glyph, so the number of characters to come does not matter. -/
theorem repeats_twin {p : Pattern} {strict : Bool} (hp : 1 ≤ p.size)
    (step : ∀ {k₁ k₂ : State → Option State} {g : Place} {s₁ s₂ : State}, (strict = true → Stuck k₁ ∧ Stuck k₂) →
      Twin g s₁ s₂ → Follows End p.size g k₁ k₂ → Option.Rel End (p.walk k₁ s₁) (p.walk k₂ s₂))
    (hstuck : strict = true → ∀ n, Stuck (repeats p.walk next₁ n) ∧ Stuck (repeats p.walk next₂ n))
    {g : Place} {s₁ s₂ : State} (hf : Follows End 0 g next₁ next₂) (ht : Twin g s₁ s₂) {m n : Nat}
    (hm : s₁.ahead.length ≤ m) (hn : s₂.ahead.length ≤ n) :
    Option.Rel End (repeats p.walk next₁ m s₁) (repeats p.walk next₂ n s₂) := by
  induction hl : g.ahead.length using Nat.strongRecOn generalizing g s₁ s₂ m n with
  | ind l ih =>
    rw [repeats_eq hp next₁ hm, repeats_eq hp next₂ hn]
    refine rel_or (step (fun h => ⟨(hstuck h _).1, (hstuck h _).2⟩) ht fun w h e₁ e₂ hpast hw he => ?_) (hf.here ht)
    have closer {f : Side} {s e : State} (hs : Spells f g s) (he : Spells f h e) :
        e.ahead.length < s.ahead.length := by
      have hlength := congrArg List.length (show s.ahead = spell f w ++ e.ahead by
        rw [hs.ahead, he.ahead, hpast.ahead, spell_append])
      have := length_le_spell f w
      rw [List.length_append] at hlength
      omega
    have h₁ := closer ht.1 he.1
    have h₂ := closer ht.2 he.2
    have hshort : h.ahead.length < l := by
      rw [← hl, hpast.ahead, List.length_append]
      omega
    exact ih h.ahead.length hshort (hf.past hpast (Nat.zero_le _)) he (by omega) (by omega) rfl

theorem literal_twin {t : Text} (hsemi : ';' ∉ t) {g : Place} {s₁ s₂ : State} (hg : Twin g s₁ s₂)
    (hf : Follows End t.length g next₁ next₂) :
    Option.Rel End ((literal t).walk next₁ s₁) ((literal t).walk next₂ s₂) := by
  rw [walk, walk, hg.1.ahead, hg.2.ahead]
  rcases isPrefixOf?_spell hsemi g.ahead with hn | ⟨rest, hr, hp⟩
  · rw [hn, hn]
    exact .none
  · rw [hp, hp]
    let g' : Place := ⟨t.getLast?.or g.prev, g.taken ++ ofText t, rest, g.captures⟩
    refine hf (ofText t) g' _ _ (.of_captures_eq hr rfl rfl) (by simp [ofText]) ⟨⟨?_, ?_, rfl, hg.1.captures⟩,
      ⟨?_, ?_, rfl, hg.2.captures⟩⟩
    · simp [g', hg.1.prev]
    · simp [g', hg.1.taken]
    · simp [g', hg.2.prev]
    · simp [g', hg.2.taken]

/-- A run goes on from its ends. Those within a token play no part, or else the farthest one is tried first and does. -/
theorem run_twin {accepts : Char → Bool} {least : Nat} {most : Option Nat} {greedy strict total : Bool}
    (h : (run accepts least most greedy).fits strict total = true) (hs : strict = true → Stuck next₁ ∧ Stuck next₂)
    (ht : total = true → Total next₁ ∧ Total next₂) {g : Place} {s₁ s₂ : State} (hg : Twin g s₁ s₂)
    (hf : Follows End least g next₁ next₂) :
    Option.Rel End ((run accepts least most greedy).walk next₁ s₁) ((run accepts least most greedy).walk next₂ s₂) := by
  have hc : accepts ';' = false ∨ (∀ c ∈ Token.alphabet, accepts c = true) ∧ least ≤ 1 ∧ most = none := by
    simp only [fits, Bool.or_eq_true, Bool.and_eq_true, Bool.not_eq_true', List.all_eq_true, decide_eq_true_eq,
      Option.isNone_iff_eq_none] at h
    exact h.imp_right fun h => ⟨h.1.1.1, h.1.1.2, h.1.2⟩
  have spr₁ : Sprinkled Prod.fst (accepts ';' = true) (ends accepts least most g g.ahead)
      (runEnds accepts least most s₁ (spell Prod.fst g.ahead)) :=
    sprinkled_runEnds hc ⟨hg.1.prev, hg.1.taken, rfl, hg.1.captures⟩
  have spr₂ : Sprinkled Prod.snd (accepts ';' = true) (ends accepts least most g g.ahead)
      (runEnds accepts least most s₂ (spell Prod.snd g.ahead)) :=
    sprinkled_runEnds hc ⟨hg.2.prev, hg.2.taken, rfl, hg.2.captures⟩
  have places : ∀ g' ∈ ends accepts least most g g.ahead, ∀ e₁ e₂, Twin g' e₁ e₂ →
      Option.Rel End (next₁ e₁) (next₂ e₂) := fun g' hg' e₁ e₂ he => by
    obtain ⟨w, hp, hl⟩ := past_of_mem_ends hg'
    exact hf w g' e₁ e₂ hp hl he
  rw [walk, walk, hg.1.ahead, hg.2.ahead]
  by_cases hw : accepts ';' = true → strict = true
  · obtain ⟨l₁, ha₁, hf₁, hr₁⟩ := spr₁.findSome?_eq fun h => (hs (hw h)).1
    obtain ⟨l₂, ha₂, hf₂, hr₂⟩ := spr₂.findSome?_eq fun h => (hs (hw h)).2
    cases greedy with
    | true =>
      simp only [if_true, hr₁, hr₂]
      exact rel_findSome? (List.forall₂_reverse_iff.2 ha₁) (List.forall₂_reverse_iff.2 ha₂) fun g' hg' =>
        places g' (List.mem_reverse.1 hg')
    | false =>
      simp only [Bool.false_eq_true, if_false, hf₁, hf₂]
      exact rel_findSome? ha₁ ha₂ places
  · rw [Classical.not_imp] at hw
    have hgreedy : greedy = true ∧ total = true := by
      simp only [fits, hw.1, Bool.eq_false_iff.2 hw.2, Bool.not_true, Bool.false_or, Bool.and_eq_true] at h
      exact h.2
    rw [if_pos hgreedy.1, if_pos hgreedy.1, (ht hgreedy.2).1.findSome?_reverse, (ht hgreedy.2).2.findSome?_reverse]
    exact rel_bind_getLast? spr₁.getLast? spr₂.getLast? places

/-- Over the two spellings of a script a pattern that fits goes on alike. -/
theorem walk_twin {p : Pattern} {strict total : Bool} (h : p.fits strict total = true)
    (hs : strict = true → Stuck next₁ ∧ Stuck next₂) (ht : total = true → Total next₁ ∧ Total next₂)
    {g : Place} {s₁ s₂ : State} (hg : Twin g s₁ s₂) (hf : Follows End p.size g next₁ next₂) :
    Option.Rel End (p.walk next₁ s₁) (p.walk next₂ s₂) := by
  induction p generalizing strict total next₁ next₂ g s₁ s₂ with
  | literal t => exact literal_twin (by simpa [fits] using h) hg hf
  | run accepts least most greedy => exact run_twin h hs ht hg hf
  | both p q ihp ihq =>
    rw [fits, Bool.and_eq_true] at h
    refine ihp h.1 (fun hq =>
      ⟨walk_stuck hq fun k => (hs k).1, walk_stuck hq fun k => (hs k).2⟩) (fun h => Bool.noConfusion h) hg
      fun w g' e₁ e₂ hp hw he => ?_
    exact ihq h.2 hs ht he (hf.past hp hw)
  | either p q ihp ihq =>
    rw [fits, Bool.and_eq_true] at h
    refine rel_or (ihp h.1 hs ht hg ?_) (ihq h.2 hs ht hg ?_)
    · exact fun w g' e₁ e₂ hp hw => hf w g' e₁ e₂ hp (Nat.le_trans (Nat.min_le_left _ _) hw)
    · exact fun w g' e₁ e₂ hp hw => hf w g' e₁ e₂ hp (Nat.le_trans (Nat.min_le_right _ _) hw)
  | star p ih =>
    rw [fits, Bool.and_eq_true, decide_eq_true_eq] at h
    refine repeats_twin h.1 (fun hk he hfol => ih h.2 hk (fun h => Bool.noConfusion h) he hfol) (fun hst n => ?_) hf hg
      (Nat.le_refl _) (Nat.le_refl _)
    rw [stuck, Bool.and_eq_true] at hst
    exact ⟨repeats_stuck (hs hst.1).1 (fun k hk => walk_stuck hst.2 fun _ => hk) n,
      repeats_stuck (hs hst.1).2 (fun k hk => walk_stuck hst.2 fun _ => hk) n⟩
  | group i p ih =>
    rw [fits] at h
    let captured (next : State → Option State) (s e : State) : Option State :=
      next { e with captures := ⟨i, s.ahead, e.taken - s.taken⟩ :: e.captures }
    have hstuck : strict = true → Stuck (captured next₁ s₁) ∧ Stuck (captured next₂ s₂) := fun k =>
      ⟨fun e he => (hs k).1 _ he, fun e he => (hs k).2 _ he⟩
    have htotal : total = true → Total (captured next₁ s₁) ∧ Total (captured next₂ s₂) := fun k =>
      ⟨fun e => (ht k).1 _, fun e => (ht k).2 _⟩
    refine ih h hstuck htotal hg fun w g' e₁ e₂ hp hw he => ?_
    exact hf w _ _ _ (hp.capture i) hw ⟨hg.1.capture he.1 hp i, hg.2.capture he.2 hp i⟩
  | lineStart =>
    rw [walk, walk, hg.1.prev, hg.2.prev]
    split
    · exact hf.here hg
    · exact .none
  | lineEnd =>
    rw [walk, walk, hg.1.ahead, hg.2.ahead, head?_spell, head?_spell]
    split
    · exact hf.here hg
    · exact .none
  | wordEdge =>
    rw [walk, walk, hg.1.prev, hg.2.prev, hg.1.ahead, hg.2.ahead, head?_spell, head?_spell]
    split
    · exact hf.here hg
    · exact .none

end Markup.Pattern
