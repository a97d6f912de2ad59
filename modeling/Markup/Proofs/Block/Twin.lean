import Markup.Block.Paragraph
import Markup.Document
import Markup.Proofs.Script.Lines
import Markup.Proofs.Script.Search
import Mathlib.Data.List.Chain

/-! # Paragraphs and escapes over scripts -/
namespace Markup
open Script

namespace Block

theorem isProse_spell (f f' : Side) (l : Script) : isProse (spell f l) = isProse (spell f' l) := by
  have he : (spell f l).isEmpty = (spell f' l).isEmpty := by
    rw [Bool.eq_iff_iff, List.isEmpty_iff, List.isEmpty_iff, spell_eq_nil, spell_eq_nil]
  rw [isProse, isProse, he, leads_spell f f']

theorem paragraphScanner_twin : paragraphScanner.Twin fun _ => True := by
  refine ⟨fun prev g _ => ?_, fun prev t ht => ?_⟩
  · let prose (l : Script) : Bool := isProse (spell Prod.fst l)
    have same (f : Side) : isProse ∘ spell f = prose := funext fun l => isProse_spell f Prod.fst l
    obtain ⟨l, ls, hl⟩ := List.exists_cons_of_ne_nil (lines_ne_nil g)
    have line (f : Side) : isProse (spell f g).line = prose l := by
      obtain ⟨ks, hk⟩ := Text.exists_lines_eq_line_cons (spell f g)
      rw [lines_spell, hl, List.map_cons] at hk
      rw [← (List.cons.inj hk).1]
      exact isProse_spell f Prod.fst l
    by_cases hp : (prev.all (· == '\n') && prose l) = true
    · have hne : (lines g).takeWhile prose ≠ [] := by
        rw [Bool.and_eq_true] at hp
        simp [hl, hp.2]
      have hit (f : Side) : paragraphScanner prev (spell f g) = some (Script.Hit.spell f
          ⟨joinLines ((lines g).takeWhile prose), startLines ((lines g).dropWhile prose), []⟩) := by
        rw [paragraphScanner, line, if_pos hp, lines_spell, List.takeWhile_map, List.dropWhile_map, same]
        simp [Script.Hit.spell, spell_joinLines hne]
      refine .inr ⟨_, ⟨?_, by simp⟩, hit _, hit _⟩
      rw [joinLines_append_startLines hne, List.takeWhile_append_dropWhile, joinLines_lines]
    · exact .inl ⟨by rw [paragraphScanner, line, if_neg hp], by rw [paragraphScanner, line, if_neg hp]⟩
  · obtain ⟨c, hc, rfl⟩ := ht.prev
    have hne : c ≠ '\n' := fun h => absurd (h ▸ hc) (by decide)
    simp [paragraphScanner, hne]

end Block

namespace Document
open Pattern

/-- No backslash stands right before a token. -/
def Unescaped (g : Script) : Prop := g.IsChain fun x y => x = .char '\\' → ∀ n, y ≠ .token n

def escapePattern : Pattern := word "\\" ++ group 1 (one isEscapable)

theorem runEnds_zero (accepts : Char → Bool) (s : State) (t : Text) :
    runEnds accepts 0 (some 0) s t = [{ s with ahead := t }] := by
  cases t <;> simp [runEnds]

theorem escapeScanner_cons (prev : Option Char) (c d : Char) (t : Text) :
    escapePattern.scanner prev (c :: d :: t) =
      if c = '\\' ∧ isEscapable d = true then some ⟨[c, d], t, [some [d]]⟩ else none := by
  have hplus (p q : Pattern) (next : State → Option State) (s : State) : (p ++ q).walk next s =
      p.walk (q.walk next) s :=
    rfl
  by_cases hc : c = '\\'
  · subst hc
    by_cases hd : isEscapable d = true
    · simp [escapePattern, scanner, hplus, word, walk, one, runEnds, hd]
      rw [runEnds_zero]
      rfl
    · simp [escapePattern, scanner, hplus, word, walk, one, runEnds, hd]
  · simp [escapePattern, scanner, hplus, word, walk, hc, Ne.symm hc]

theorem escapeScanner_eq_none (prev : Option Char) {t : Text} (h : ∀ d rest, t ≠ '\\' :: d :: rest) :
    escapePattern.scanner prev t = none := by
  cases t with
  | nil => rfl
  | cons c t =>
    cases t with
    | nil =>
      by_cases hc : c = '\\'
      · subst hc
        rfl
      · have hplus (p q : Pattern) (next : State → Option State) (s : State) :
            (p ++ q).walk next s = p.walk (q.walk next) s := rfl
        simp [escapePattern, scanner, hplus, word, walk, Ne.symm hc]
    | cons d t =>
      rw [escapeScanner_cons, if_neg]
      rintro ⟨rfl, -⟩
      exact h d t rfl

theorem escapeScanner_twin : escapePattern.scanner.Twin Unescaped := by
  refine ⟨fun prev g hg => ?_, fun prev t ht => ?_⟩
  · by_cases hx : ∃ d rest, g = .char '\\' :: .char d :: rest
    · obtain ⟨d, rest, rfl⟩ := hx
      by_cases hd : isEscapable d = true
      · have hit (f : Side) : escapePattern.scanner prev (spell f (.char '\\' :: .char d :: rest)) =
            some (Script.Hit.spell f ⟨[.char '\\', .char d], rest, [some [.char d]]⟩) := by
          simp only [spell_cons, Glyph.spell_char, List.singleton_append, escapeScanner_cons, hd]
          rfl
        exact .inr ⟨_, ⟨rfl, by simp [Part.of_slice (List.suffix_cons _ _).isInfix]⟩, hit _, hit _⟩
      · have none (f : Side) : escapePattern.scanner prev (spell f (.char '\\' :: .char d :: rest)) = none := by
          simp only [spell_cons, Glyph.spell_char, List.singleton_append, escapeScanner_cons, hd]
          rfl
        exact .inl ⟨none _, none _⟩
    · have none (f : Side) : escapePattern.scanner prev (spell f g) = none := by
        refine escapeScanner_eq_none prev fun d rest h => ?_
        match g with
        | [] => simp at h
        | .token n :: g =>
          have := congrArg List.head? h
          simp [Token.head?_ofId] at this
        | .char c :: [] => simp at h
        | .char c :: .char e :: g =>
          obtain rfl : c = '\\' := by simpa using congrArg List.head? h
          exact hx ⟨e, g, rfl⟩
        | .char c :: .token n :: g =>
          obtain rfl : c = '\\' := by simpa using congrArg List.head? h
          exact (List.isChain_cons_cons.1 hg).1 rfl n rfl
      exact .inl ⟨none _, none _⟩
  · obtain ⟨c, t', rfl, hc, -⟩ := ht.exists_cons
    refine escapeScanner_eq_none prev fun d rest h => ?_
    exact absurd ((List.cons.inj h).1 ▸ hc) (by decide)

end Document
end Markup
