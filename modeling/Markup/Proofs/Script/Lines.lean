import Markup.Block.Paragraph
import Markup.Proofs.Script.Basic
import Markup.Proofs.Text.Lines

/-! # Lines of a script

Splitting into lines, taking a run of a class and looking for a token at the beginning are the same for both spellings
of a script. -/
namespace Markup.Script
variable {f : Side} {g : Script} {p : Char → Bool}

/-- The class has all characters that tokens are written with, or does not have the first of them. -/
def Whole (p : Char → Bool) : Prop := p ';' = false ∨ ∀ c ∈ Token.alphabet, p c = true

theorem Whole.accepts (h : Whole p) {x : Glyph} (hx : p x.face = true) (f : Side) : ∀ c ∈ x.spell f, p c = true := by
  cases x with
  | char c => simpa using hx
  | token n =>
    intro c hc
    rcases h with h | h
    · simp [h] at hx
    · exact h c (Token.mem_alphabet hc)

theorem takeWhile_spell (h : Whole p) (f : Side) (g : Script) :
    (spell f g).takeWhile p = spell f (g.takeWhile (p ·.face)) := by
  induction g with
  | nil => rfl
  | cons x g ih =>
    by_cases hx : p x.face = true
    · rw [List.takeWhile_cons_of_pos (p := fun x : Glyph => p x.face) hx, spell_cons, spell_cons,
        List.takeWhile_append_of_pos (h.accepts hx f), ih]
    · obtain ⟨u, hu⟩ := x.exists_spell_eq f
      rw [List.takeWhile_cons_of_neg (p := fun x : Glyph => p x.face) hx, spell_cons, hu, List.cons_append,
        List.takeWhile_cons_of_neg hx, spell_nil]

theorem dropWhile_spell (h : Whole p) (f : Side) (g : Script) :
    (spell f g).dropWhile p = spell f (g.dropWhile (p ·.face)) := by
  induction g with
  | nil => rfl
  | cons x g ih =>
    by_cases hx : p x.face = true
    · rw [List.dropWhile_cons_of_pos (p := fun x : Glyph => p x.face) hx, spell_cons,
        List.dropWhile_append_of_pos (h.accepts hx f), ih]
    · obtain ⟨u, hu⟩ := x.exists_spell_eq f
      rw [List.dropWhile_cons_of_neg (p := fun x : Glyph => p x.face) hx, spell_cons, hu, List.cons_append,
        List.dropWhile_cons_of_neg hx]

def lines : Script → List Script
  | [] => [[]]
  | x :: g =>
    if x = .char '\n' then [] :: lines g
    else match lines g with
      | [] => [[x]]
      | l :: ls => (x :: l) :: ls

def startLines (ls : List Script) : Script := ls.flatMap (.char '\n' :: ·)

def joinLines : List Script → Script
  | [] => []
  | l :: ls => l ++ startLines ls

theorem lines_ne_nil (g : Script) : lines g ≠ [] := by
  cases g with
  | nil => simp [lines]
  | cons x g =>
    rw [lines]
    repeat' split
    all_goals simp

theorem joinLines_lines (g : Script) : joinLines (lines g) = g := by
  induction g with
  | nil => rfl
  | cons x g ih =>
    cases h : lines g with
    | nil => exact absurd h (lines_ne_nil g)
    | cons l ls =>
      rw [h, joinLines] at ih
      by_cases hx : x = .char '\n'
      · simp only [lines, hx, h, if_true, joinLines, List.nil_append]
        rw [← ih]
        rfl
      · simp only [lines, hx, h, if_false, joinLines, List.cons_append]
        rw [ih]

theorem joinLines_append_startLines {ls ms : List Script} (h : ls ≠ []) :
    joinLines ls ++ startLines ms = joinLines (ls ++ ms) := by
  obtain ⟨l, ls, rfl⟩ := List.exists_cons_of_ne_nil h
  simp [joinLines, startLines]

def endLines (ls : List Script) : Script := ls.flatMap (· ++ [.char '\n'])

theorem joinLines_append {ls ms : List Script} (h : ms ≠ []) : joinLines (ls ++ ms) = endLines ls ++ joinLines ms := by
  induction ls with
  | nil => rfl
  | cons l ls ih =>
    have hne : ls ++ ms ≠ [] := by simp [h]
    obtain ⟨m, ks, hk⟩ := List.exists_cons_of_ne_nil hne
    have hs : startLines (ls ++ ms) = .char '\n' :: joinLines (ls ++ ms) := by rw [hk]; rfl
    rw [List.cons_append, joinLines, hs, ih, endLines, endLines, List.flatMap_cons]
    simp

@[simp] theorem spell_endLines (ls : List Script) : spell f (endLines ls) = Text.endLines (ls.map (spell f)) := by
  induction ls with
  | nil => rfl
  | cons l ls ih =>
    simp only [endLines, Text.endLines, List.flatMap_cons, List.map_cons] at ih ⊢
    simp [ih]

@[simp] theorem spell_startLines (ls : List Script) :
    spell f (startLines ls) = Text.startLines (ls.map (spell f)) := by
  induction ls with
  | nil => rfl
  | cons l ls ih =>
    simp only [startLines, Text.startLines, List.flatMap_cons, List.map_cons] at ih ⊢
    simp [ih, Glyph.spell]

theorem spell_joinLines {ls : List Script} (h : ls ≠ []) :
    spell f (joinLines ls) = Text.joinLines (ls.map (spell f)) := by
  obtain ⟨l, ls, rfl⟩ := List.exists_cons_of_ne_nil h
  simp [joinLines, Text.joinLines_cons]

theorem lines_append_of_not_mem {u t l : Text} {ls : List Text} (hu : '\n' ∉ u) (h : t.lines = l :: ls) :
    Text.lines (u ++ t) = (u ++ l) :: ls := by
  induction u with
  | nil => exact h
  | cons c u ih =>
    rw [List.mem_cons, not_or] at hu
    rw [List.cons_append, Text.lines, if_neg (Ne.symm hu.1), ih hu.2]
    rfl

theorem lines_spell (f : Side) (g : Script) : (spell f g).lines = (lines g).map (spell f) := by
  induction g with
  | nil => rfl
  | cons x g ih =>
    cases h : lines g with
    | nil => exact absurd h (lines_ne_nil g)
    | cons l ls =>
      rw [h, List.map_cons] at ih
      cases x with
      | char c =>
        by_cases hc : c = '\n'
        · simp [lines, hc, h, Glyph.spell, Text.lines, ih]
        · simp [lines, hc, h, Glyph.spell, Text.lines, ih]
      | token n =>
        rw [spell_cons, Glyph.spell, lines_append_of_not_mem (Token.not_mem_ofId (by decide) _) ih]
        simp [lines, h, Glyph.spell]

/-- Reading a word and then looking at the rest. -/
def readsOn (look : Text → Bool) (a t : Text) : Bool :=
  match a.isPrefixOf? t with
  | none => false
  | some rest => look rest

theorem readsOn_cons {look : Text → Bool} {c : Char} {a : Text}
    (htoken : ∀ n t, readsOn look (c :: a) (Token.ofId n ++ t) = false)
    (h : ∀ f f' g, readsOn look a (spell f g) = readsOn look a (spell f' g)) (f f' : Side) (g : Script) :
    readsOn look (c :: a) (spell f g) = readsOn look (c :: a) (spell f' g) := by
  cases g with
  | nil => rfl
  | cons x g =>
    cases x with
    | char d =>
      have := h f f' g
      rw [readsOn, readsOn] at this ⊢
      by_cases hd : c = d
      · simpa [hd] using this
      · simp [hd]
    | token n =>
      rw [spell_cons, spell_cons]
      exact (htoken _ _).trans (htoken _ _).symm

/-- What `Token.leads` asks for behind the marker. -/
def endsNumber (t : Text) : Bool :=
  !(t.takeWhile Char.isDigit).isEmpty && (t.dropWhile Char.isDigit).head? == some ';'

theorem endsNumber_spell (f f' : Side) (g : Script) : endsNumber (spell f g) = endsNumber (spell f' g) := by
  have hd : Whole Char.isDigit := .inl (by decide)
  have empty (l : List Char) : l.isEmpty = true ↔ l = [] := List.isEmpty_iff
  simp only [endsNumber, takeWhile_spell hd, dropWhile_spell hd, head?_spell]
  congr 2
  rw [Bool.eq_iff_iff, empty, empty, spell_eq_nil, spell_eq_nil]

theorem leads_eq_readsOn (t : Text) : Token.leads t = readsOn endsNumber Token.marker t := by
  rw [Token.leads, readsOn]
  rfl

theorem leads_spell (f f' : Side) (g : Script) : Token.leads (spell f g) = Token.leads (spell f' g) := by
  have token {c : Char} {a : Text} (h : c ≠ ';') (n : Nat) (t : Text) :
      readsOn endsNumber (c :: a) (Token.ofId n ++ t) = false := by
    simp [readsOn, Token.ofId, Token.marker, h]
  have second (n : Nat) (t : Text) : readsOn endsNumber [';', 'x', 's', 'v', ';'] (Token.ofId n ++ t) = false := by
    simp [readsOn, Token.ofId, Token.marker]
  have last (n : Nat) (t : Text) : readsOn endsNumber [';'] (Token.ofId n ++ t) = false := by
    simp [readsOn, Token.ofId, Token.marker, endsNumber]
  have letters := readsOn_cons (token (by decide : 'x' ≠ ';')) <| readsOn_cons (token (by decide : 's' ≠ ';')) <|
    readsOn_cons (token (by decide : 'v' ≠ ';')) (readsOn_cons last endsNumber_spell)
  have all := readsOn_cons second letters
  cases g with
  | nil => rfl
  | cons x g =>
    cases x with
    | char c =>
      have := all f f' g
      rw [leads_eq_readsOn, leads_eq_readsOn, readsOn, readsOn] at *
      by_cases hc : c = ';'
      · simpa [Token.marker, hc] using this
      · simp [Token.marker, Ne.symm hc]
    | token n => simp [Token.leads_ofId]

end Markup.Script
