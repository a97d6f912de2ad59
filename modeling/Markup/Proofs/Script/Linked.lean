import Markup.Proofs.Script.Clean
import Markup.Token.Store

/-! # Tokens of two stores

Two stores may hold one value under different numbers, and the value may itself refer to tokens whose numbers differ.
A pair of numbers is linked when the two values are the spellings of one script of linked pairs. Then both resolve to
the same text. -/
namespace Markup

namespace Store

/-- The later store still holds what the earlier one holds. -/
def Le (s s' : Store) : Prop := ∀ (n : Nat) (v : Text), s.values[n]? = some v → s'.values[n]? = some v

theorem Le.refl (s : Store) : s.Le s := fun _ _ h => h

theorem Le.trans {s s' s'' : Store} (h : s.Le s') (h' : s'.Le s'') : s.Le s'' := fun n v hv => h' n v (h n v hv)

theorem lt_size {s : Store} {n : Nat} {v : Text} (h : s.values[n]? = some v) : n < s.size :=
  (Array.getElem?_eq_some_iff.1 h).1

theorem mint_values (s : Store) (v : Text) : (s.mint v).2.values[s.size]? = some v := Array.getElem?_push_size

theorem le_mint (s : Store) (v : Text) : s.Le (s.mint v).2 := by
  intro n w h
  have hn : n ≠ s.values.size := Nat.ne_of_lt (lt_size h)
  rw [mint, Array.getElem?_push, if_neg hn]
  exact h

/-- The store with the values put in one after the other. -/
def mintAll (s : Store) (vs : List Text) : Store := vs.foldl (fun s v => (s.mint v).2) s

theorem le_mintAll (s : Store) (vs : List Text) : s.Le (s.mintAll vs) := by
  induction vs generalizing s with
  | nil => exact .refl s
  | cons v vs ih => exact (s.le_mint v).trans (ih _)

theorem size_mint (s : Store) (v : Text) : (s.mint v).2.size = s.size + 1 := by simp [mint, size]

end Store

open Script

inductive Linked (s₁ s₂ : Store) : Nat × Nat → Prop
  | intro {n : Nat × Nat} (v : Script) (nonempty : v ≠ []) (clean : v.Clean)
      (below : ∀ k, .token k ∈ v → k.1 < n.1 ∧ k.2 < n.2) (known : ∀ k, .token k ∈ v → Linked s₁ s₂ k)
      (fst : s₁.values[n.1]? = some (spell Prod.fst v)) (snd : s₂.values[n.2]? = some (spell Prod.snd v)) :
      Linked s₁ s₂ n

/-- Every token of the script is linked. -/
def Known (s₁ s₂ : Store) (g : Script) : Prop := ∀ k, .token k ∈ g → Linked s₁ s₂ k

/-- The two spellings of the script mean the same in the two stores. -/
structure Twins (s₁ s₂ : Store) (g : Script) : Prop where
  clean : Clean g
  known : Known s₁ s₂ g

section
variable {s₁ s₂ s₁' s₂' : Store} {g h : Script} {n : Nat × Nat}

theorem Linked.lt_size (hn : Linked s₁ s₂ n) : n.1 < s₁.size ∧ n.2 < s₂.size := by
  obtain ⟨v, -, -, -, -, h₁, h₂⟩ := hn
  exact ⟨Store.lt_size h₁, Store.lt_size h₂⟩

theorem Linked.mono (hn : Linked s₁ s₂ n) (h₁ : s₁.Le s₁') (h₂ : s₂.Le s₂') : Linked s₁' s₂' n := by
  induction hn with
  | intro v nonempty clean below _ fst snd ih => exact .intro v nonempty clean below ih (h₁ _ _ fst) (h₂ _ _ snd)

theorem Known.mono (hg : Known s₁ s₂ g) (h₁ : s₁.Le s₁') (h₂ : s₂.Le s₂') : Known s₁' s₂' g := fun k hk =>
  (hg k hk).mono h₁ h₂

theorem known_nil : Known s₁ s₂ [] := fun _ h => absurd h List.not_mem_nil

theorem known_token (hn : Linked s₁ s₂ n) : Known s₁ s₂ [.token n] := by
  intro k hk
  rw [List.mem_singleton, Glyph.token.injEq] at hk
  exact hk ▸ hn

theorem known_ofText (t : Text) : Known s₁ s₂ (ofText t) := fun k hk => by
  simp [ofText] at hk

theorem Known.append (hg : Known s₁ s₂ g) (hh : Known s₁ s₂ h) : Known s₁ s₂ (g ++ h) := fun k hk =>
  (List.mem_append.1 hk).elim (hg k) (hh k)

theorem Known.part (hg : Known s₁ s₂ g) (hp : Part h g) : Known s₁ s₂ h := fun k hk => hg k (hp.token k hk)

theorem Twins.part (hg : Twins s₁ s₂ g) (hp : Part h g) : Twins s₁ s₂ h := ⟨hp.clean hg.clean, hg.known.part hp⟩

theorem Twins.linked_mint (hg : Twins s₁ s₂ g) (hne : g ≠ []) :
    Linked (s₁.mint (spell Prod.fst g)).2 (s₂.mint (spell Prod.snd g)).2 (s₁.size, s₂.size) :=
  .intro g hne hg.clean (fun k hk => (hg.known k hk).lt_size) (hg.known.mono (s₁.le_mint _) (s₂.le_mint _))
    (s₁.mint_values _) (s₂.mint_values _)

end

namespace Store
variable {s s₁ s₂ : Store} {g : Script}

/-- Below the size of the earlier store both stores resolve alike, since no value sees what was minted after it. -/
theorem Le.resolve_eq {s' : Store} (h : s.Le s') {limit : Nat} (hl : limit ≤ s.size) (t : Text) :
    s'.resolve limit t = s.resolve limit t := by
  induction limit using Nat.strongRecOn generalizing t with
  | ind limit ih =>
    rw [resolve, resolve]
    refine List.flatMap_congr fun piece _ => ?_
    cases piece.id? with
    | none => rfl
    | some n =>
      by_cases hn : n < limit
      · obtain ⟨v, hvalue⟩ : ∃ v, s.values[n]? = some v :=
          ⟨_, Array.getElem?_eq_getElem (Nat.lt_of_lt_of_le hn hl)⟩
        simp only [dif_pos hn, hvalue, h n _ hvalue]
        exact ih n hn (by omega) _
      · simp only [dif_neg hn]

/-- What a token with the number `n` resolves to. -/
def resolveId (s : Store) (limit n : Nat) : Text :=
  if n < limit then
    match s.values[n]? with
    | some v => s.resolve n v
    | none => Token.ofId n
  else Token.ofId n

/-- The token's value sees the tokens that were there when it was minted. -/
theorem resolveId_mint (s : Store) (v : Text) :
    (s.mint v).2.resolveId (s.mint v).2.size s.size = s.detokenize v := by
  have hlt : s.size < (s.mint v).2.size := by
    rw [size_mint]
    exact Nat.lt_succ_self _
  rw [resolveId, if_pos hlt, mint_values]
  exact (s.le_mint v).resolve_eq le_rfl v

def resolveGlyph (s : Store) (limit : Nat) (f : Side) : Glyph → Text
  | .char c => [c]
  | .token n => s.resolveId limit (f n)

theorem resolve_spell (hg : Clean g) (s : Store) (limit : Nat) (f : Side) :
    s.resolve limit (spell f g) = g.flatMap (s.resolveGlyph limit f) := by
  rw [resolve, pieces_spell hg, List.flatMap_map]
  congr 1
  funext x
  cases x with
  | char c => rfl
  | token n =>
    simp only [piece, Token.Piece.id?, Token.readId?_toDigits, resolveGlyph, resolveId]
    by_cases h : f n < limit
    · simp only [dif_pos h, if_pos h]
      cases s.values[f n]? <;> rfl
    · simp only [dif_neg h, if_neg h]
      rfl

theorem resolve_nil (s : Store) (limit : Nat) : s.resolve limit [] = [] :=
  resolve_spell clean_nil s limit Prod.fst

/-- Linked tokens resolve alike, from the limits on that admit them. -/
theorem resolve_eq {l₁ l₂ : Nat} (hg : Twins s₁ s₂ g) (hl : ∀ k, .token k ∈ g → k.1 < l₁ ∧ k.2 < l₂) :
    s₁.resolve l₁ (spell Prod.fst g) = s₂.resolve l₂ (spell Prod.snd g) := by
  induction l₁ using Nat.strongRecOn generalizing l₂ g with
  | ind l₁ ih =>
    rw [resolve_spell hg.clean, resolve_spell hg.clean]
    refine List.flatMap_congr fun x hx => ?_
    cases x with
    | char c => rfl
    | token n =>
      obtain ⟨h₁, h₂⟩ := hl n hx
      obtain ⟨v, -, clean, below, known, fst, snd⟩ := hg.known n hx
      simp only [resolveGlyph, resolveId, if_pos h₁, if_pos h₂, fst, snd]
      exact ih n.1 h₁ ⟨clean, known⟩ below

/-- Nothing resolves to the empty text, because no value is empty. -/
theorem resolve_ne_nil {l : Nat} (hg : Twins s₁ s₂ g) (hne : g ≠ []) :
    s₁.resolve l (spell Prod.fst g) ≠ [] := by
  induction l using Nat.strongRecOn generalizing g with
  | ind l ih =>
    rw [resolve_spell hg.clean]
    obtain ⟨x, g, rfl⟩ := List.exists_cons_of_ne_nil hne
    suffices hx : s₁.resolveGlyph l Prod.fst x ≠ [] by simp [hx]
    cases x with
    | char c => exact List.cons_ne_nil c []
    | token n =>
      obtain ⟨v, nonempty, clean, -, known, fst, -⟩ := hg.known n List.mem_cons_self
      simp only [resolveGlyph, resolveId, fst]
      split
      · next h => exact ih n.1 h ⟨clean, known⟩ nonempty
      · exact Token.ofId_ne_nil n.1

theorem detokenize_eq (hg : Twins s₁ s₂ g) :
    s₁.detokenize (spell Prod.fst g) = s₂.detokenize (spell Prod.snd g) :=
  resolve_eq hg fun k hk => (hg.known k hk).lt_size

end Store
end Markup
