import Markup.Proofs.Token.Written
import Mathlib.Data.List.Basic

/-! # Scripts

A script is a text whose tokens stand apart from its characters. Every token in it carries two numbers, so a script is
written in two ways, which differ only in the numbers of the tokens. -/
namespace Markup

inductive Glyph where
  | char (c : Char)
  | token (n : Nat × Nat)
deriving DecidableEq

abbrev Script := List Glyph

/-- Which of its two numbers a token is written with. -/
abbrev Side := Nat × Nat → Nat

namespace Glyph

def spell (f : Side) : Glyph → Text
  | char c => [c]
  | token n => Token.ofId (f n)

/-- The character that its neighbours see, on both sides and whatever the numbers. -/
def face : Glyph → Char
  | char c => c
  | token _ => ';'

@[simp] theorem spell_char (f : Side) (c : Char) : (char c).spell f = [c] := rfl

@[simp] theorem spell_token (f : Side) (n : Nat × Nat) : (token n).spell f = Token.ofId (f n) := rfl

@[simp] theorem face_char (c : Char) : (char c).face = c := rfl

@[simp] theorem face_token (n : Nat × Nat) : (token n).face = ';' := rfl

theorem head?_spell (f : Side) (x : Glyph) : (x.spell f).head? = some x.face := by
  cases x <;> rfl

theorem getLast?_spell (f : Side) (x : Glyph) : (x.spell f).getLast? = some x.face := by
  cases x with
  | char c => rfl
  | token n => exact Token.getLast?_ofId (f n)

theorem exists_spell_eq (f : Side) (x : Glyph) : ∃ u, x.spell f = x.face :: u := by
  cases x with
  | char c => exact ⟨[], rfl⟩
  | token n =>
    obtain ⟨u, hu, -⟩ := Token.exists_ofId_eq (f n)
    exact ⟨u ++ [';'], hu⟩

theorem spell_ne_nil (f : Side) (x : Glyph) : x.spell f ≠ [] := by
  cases x with
  | char c => exact List.cons_ne_nil c []
  | token n => exact Token.ofId_ne_nil (f n)

end Glyph

namespace Script
variable {f : Side} {g h : Script}

def spell (f : Side) (g : Script) : Text := g.flatMap (Glyph.spell f)

/-- A text without tokens. -/
def ofText (t : Text) : Script := t.map Glyph.char

@[simp] theorem spell_nil : spell f [] = [] := rfl

@[simp] theorem spell_cons (x : Glyph) (g : Script) : spell f (x :: g) = x.spell f ++ spell f g := rfl

@[simp] theorem spell_append (g h : Script) : spell f (g ++ h) = spell f g ++ spell f h := List.flatMap_append

@[simp] theorem spell_ofText (t : Text) : spell f (ofText t) = t := by
  induction t with
  | nil => rfl
  | cons c t ih => exact congrArg (c :: ·) ih

@[simp] theorem spell_eq_nil : spell f g = [] ↔ g = [] := by
  cases g with
  | nil => simp
  | cons x g => simp [x.spell_ne_nil f]

theorem head?_spell : (spell f g).head? = g.head?.map Glyph.face := by
  cases g with
  | nil => rfl
  | cons x g => rw [spell_cons, List.head?_append, x.head?_spell]; rfl

theorem getLast?_spell : (spell f g).getLast? = g.getLast?.map Glyph.face := by
  rcases List.eq_nil_or_concat' g with rfl | ⟨g, x, rfl⟩
  · rfl
  · rw [spell_append, List.getLast?_append]
    simp [x.getLast?_spell f]

theorem exists_char_of_spell_eq {c : Char} {t : Text} (h : spell f g = c :: t) (hc : c ≠ ';') :
    ∃ k, g = .char c :: k := by
  cases g with
  | nil => simp at h
  | cons x k =>
    have hhead := congrArg List.head? h
    rw [head?_spell] at hhead
    obtain hface : x.face = c := by simpa using hhead
    cases x with
    | char d => exact ⟨k, by rw [← hface]; rfl⟩
    | token n => exact absurd hface.symm hc

theorem length_le_spell (f : Side) (g : Script) : g.length ≤ (spell f g).length := by
  induction g with
  | nil => exact Nat.le_refl 0
  | cons x g ih =>
    have := List.length_pos_of_ne_nil (x.spell_ne_nil f)
    rw [spell_cons, List.length_cons, List.length_append]
    omega

/-- A literal without semicolon does not reach into a token. -/
theorem isPrefixOf?_spell {t : Text} (h : ';' ∉ t) (g : Script) :
    (∀ f : Side, t.isPrefixOf? (spell f g) = none) ∨
      ∃ rest, g = ofText t ++ rest ∧ ∀ f : Side, t.isPrefixOf? (spell f g) = some (spell f rest) := by
  induction t generalizing g with
  | nil => exact .inr ⟨g, rfl, fun f => rfl⟩
  | cons c t ih =>
    rw [List.mem_cons, not_or] at h
    cases g with
    | nil => exact .inl fun f => rfl
    | cons x g =>
      cases x with
      | char d =>
        by_cases hd : c = d
        · subst hd
          rcases ih h.2 g with hn | ⟨rest, rfl, -⟩
          · exact .inl fun f => by simp [Glyph.spell, hn f]
          · exact .inr ⟨rest, rfl, fun f => by simp [Glyph.spell]⟩
        · exact .inl fun f => by simp [Glyph.spell, hd]
      | token n =>
        refine .inl fun f => ?_
        obtain ⟨u, hu, -⟩ := Token.exists_ofId_eq (f n)
        simp [Glyph.spell, hu, Ne.symm h.1]

end Script

/-- A place within a token: after one of its characters and before its last semicolon. -/
structure Inside (prev : Option Char) (t : Text) : Prop where
  prev : ∃ c ∈ Token.alphabet, prev = some c
  ahead : ∃ u rest, t = u ++ ';' :: rest ∧ ∀ c ∈ u, c ∈ Token.alphabet

namespace Inside
variable {prev : Option Char} {t : Text}

theorem exists_cons (h : Inside prev t) :
    ∃ c t', t = c :: t' ∧ c ∈ Token.alphabet ∧ (c ≠ ';' → Inside (some c) t') := by
  obtain ⟨-, u, rest, rfl, hu⟩ := h
  cases u with
  | nil => exact ⟨';', rest, rfl, by decide, fun h => absurd rfl h⟩
  | cons c u =>
    have hc := hu c List.mem_cons_self
    exact ⟨c, u ++ ';' :: rest, rfl, hc, fun _ =>
      ⟨⟨c, hc, rfl⟩, u, rest, rfl, fun d hd => hu d (List.mem_cons_of_mem _ hd)⟩⟩

/-- Every place between the first and the last character of a token is within it. -/
theorem of_token {n : Nat} {u v : Text} (h : Token.ofId n = u ++ v) (hu : u ≠ []) (hv : v ≠ []) (rest : Text) :
    Inside u.getLast? (v ++ rest) where
  prev := ⟨u.getLast hu, Token.mem_alphabet (by rw [h]; exact List.mem_append_left _ (List.getLast_mem hu)),
    List.getLast?_eq_some_getLast hu⟩
  ahead := by
    have hlast : v.getLast hv = ';' := by
      have := Token.getLast?_ofId n
      rw [h, List.getLast?_append_of_ne_nil _ hv, List.getLast?_eq_some_getLast hv] at this
      exact Option.some.inj this
    have hsplit := List.dropLast_concat_getLast hv
    rw [hlast] at hsplit
    refine ⟨v.dropLast, rest, by rw [← hsplit]; simp, fun c hc => ?_⟩
    refine Token.mem_alphabet (n := n) ?_
    rw [h]
    exact List.mem_append_right _ (List.dropLast_subset v hc)

end Inside
end Markup
