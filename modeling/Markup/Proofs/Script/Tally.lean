import Markup.Proofs.Script.Same

/-! # Counting characters behind tokens

How often a character occurs in what a text resolves to. A text that means something may be cut at characters that no
token is written with, and the parts are counted apart. -/
namespace Markup
open Script

/-- ASCII characters that are seen and are neither letters nor digits. -/
def isPunctuation (c : Char) : Bool := '!' ≤ c && c ≤ '~' && !c.isAlphanum

/-- Letters and whatever else no rule gives a meaning to. -/
def isContent (c : Char) : Bool := !isSpace c && !c.isDigit && !isPunctuation c

/-- Content, and the sign that tags begin with, which is part of no mark. -/
def isKept (c : Char) : Bool := isContent c || c == '<'

/-- What may stand between what is kept: none of it, and no part of a token. -/
def isMargin (c : Char) : Bool := !isKept c && !Token.alphabet.contains c

/-- The text means something in the store. -/
abbrev Sound (s : Store) (t : Text) : Prop := Same Clean s s t t

/-- How often the character occurs when the tokens are resolved. -/
def Store.tally (s : Store) (c : Char) (t : Text) : Nat := (s.detokenize t).count c

section
variable {d : Char} {w : Text}

theorem isKept_of_isContent (h : isContent d = true) : isKept d = true := by
  rw [isKept, h, Bool.true_or]

theorem isMargin_of_isSpace (h : isSpace d = true) : isMargin d = true := by
  have hmarks : ∀ d ∈ '<' :: Token.alphabet, isSpace d = false := by decide
  have hd : d ∉ '<' :: Token.alphabet := fun hd => by simp [hmarks d hd] at h
  rw [List.mem_cons, not_or] at hd
  simp [isMargin, isKept, isContent, h, hd]

theorem isMargin_of_isIndent (h : isIndent d = true) : isMargin d = true :=
  isMargin_of_isSpace (isSpace_of_isIndent h)

theorem not_mem_alphabet_of_isMargin (h : isMargin d = true) : d ∉ Token.alphabet := by
  simp only [isMargin, Bool.and_eq_true, Bool.not_eq_true', List.contains_eq_mem, decide_eq_false_iff_not] at h
  exact h.2

theorem not_kept_of_isMargin (h : isMargin d = true) : isKept d = false := by
  simp only [isMargin, Bool.and_eq_true, Bool.not_eq_true'] at h
  exact h.1

theorem semicolon_not_mem_margin (h : ∀ d ∈ w, isMargin d = true) : ';' ∉ w := fun hw =>
  not_mem_alphabet_of_isMargin (h _ hw) (by decide)

theorem count_eq_zero_of_kept {c : Char} (hc : isKept c = true) (h : ∀ d ∈ w, isKept d = false) :
    w.count c = 0 := List.count_eq_zero.2 fun hw => by simp [h c hw] at hc

end

namespace Script
variable {f : Side} {g h : Script} {u v : Text} {d : Char}

theorem exists_of_spell_eq_append_cons (hd : d ∉ Token.alphabet) (hg : spell f g = u ++ d :: v) :
    ∃ a b, g = a ++ .char d :: b ∧ spell f a = u ∧ spell f b = v := by
  induction g generalizing u with
  | nil => simp at hg
  | cons x g ih =>
    rw [spell_cons] at hg
    rcases List.append_eq_append_iff.1 hg with ⟨w, rfl, hw⟩ | ⟨w, hx, hw⟩
    · obtain ⟨a, b, rfl, rfl, rfl⟩ := ih hw
      exact ⟨x :: a, b, rfl, rfl, rfl⟩
    · cases w with
      | nil =>
        obtain ⟨a, b, rfl, ha, rfl⟩ := ih (u := []) hw.symm
        rw [List.append_nil] at hx
        exact ⟨x :: a, b, rfl, by rw [spell_cons, ha, List.append_nil, hx], rfl⟩
      | cons e w =>
        obtain ⟨rfl, hw⟩ := List.cons.inj hw
        cases x with
        | char c =>
          obtain ⟨rfl, hnil⟩ : u = [] ∧ c = d ∧ w = [] := by
            cases u with
            | nil => simpa using hx
            | cons b u => simp at hx
          obtain ⟨rfl, rfl⟩ := hnil
          exact ⟨[], g, rfl, rfl, (List.cons.inj hw).2.symm⟩
        | token n =>
          rw [Glyph.spell_token] at hx
          exact absurd (Token.mem_alphabet (n := f n) (by simp [hx])) hd

/-- When a clean script is spelled alike on both sides, each token has the same number on both sides. -/
theorem spell_snd_eq (hg : Clean g) (he : spell Prod.fst g = spell Prod.snd g) (hs : h ⊆ g) :
    spell Prod.snd h = spell Prod.fst h := by
  have hpieces := congrArg Token.pieces he
  rw [pieces_spell hg, pieces_spell hg] at hpieces
  refine List.flatMap_congr fun x hx => ?_
  cases x with
  | char c => rfl
  | token n =>
    have hpiece := List.map_inj_left.1 hpieces _ (hs hx)
    have hread := congrArg Token.Piece.id? hpiece
    simp only [piece, Token.Piece.id?, Token.readId?_toDigits, Option.some.injEq] at hread
    rw [Glyph.spell_token, Glyph.spell_token, hread]

end Script

section
variable {s s' : Store} {c d : Char} {f : Side} {g h : Script} {t u v w : Text}

namespace Store

theorem detokenize_append (hg : Clean (g ++ h)) :
    s.detokenize (spell f (g ++ h)) = s.detokenize (spell f g) ++ s.detokenize (spell f h) := by
  have hleft := hg.slice (List.prefix_append g h).isInfix
  have hright := hg.slice (List.suffix_append g h).isInfix
  rw [detokenize, detokenize, detokenize, resolve_spell hg, resolve_spell hleft, resolve_spell hright,
    List.flatMap_append]

theorem tally_append (hg : Clean (g ++ h)) :
    s.tally c (spell f (g ++ h)) = s.tally c (spell f g) + s.tally c (spell f h) := by
  rw [tally, detokenize_append hg, List.count_append, tally, tally]

theorem detokenize_of_marker (s : Store) (ht : ¬ Token.marker <:+: t) : s.detokenize t = t := by
  have hresolve := resolve_spell (clean_ofText ht) s s.size Prod.fst
  rw [spell_ofText] at hresolve
  rw [detokenize, hresolve, ofText, List.flatMap_map]
  exact List.flatMap_singleton' t

theorem tally_of_marker (ht : ¬ Token.marker <:+: t) : s.tally c t = t.count c := by
  rw [tally, s.detokenize_of_marker ht]

theorem tally_of_not_mem (ht : ';' ∉ t) : s.tally c t = t.count c :=
  tally_of_marker fun hm => ht (hm.subset (by decide))

end Store

theorem Sound.tally_eq (h : Sound s t) (hle : s.Le s') : s'.tally c t = s.tally c t := by
  have hsame : Same Clean s s' t t := Same.mono h (.refl s) hle
  rw [Store.tally, Store.tally, hsame.detokenize_eq]

theorem Store.detokenize_ofId_mint (s : Store) (t : Text) :
    (s.mint t).2.detokenize (Token.ofId s.size) = s.detokenize t := by
  have hspell : Token.ofId s.size = spell Prod.fst [.token (s.size, s.size)] := by simp
  rw [hspell, detokenize, resolve_spell (solid_token _).clean, List.flatMap_singleton, ← s.resolveId_mint t]
  rfl

theorem Store.tally_mint (s : Store) (t : Text) : (s.mint t).2.tally c (Token.ofId s.size) = s.tally c t := by
  rw [tally, tally, detokenize_ofId_mint]

theorem Sound.cut_char (h : Sound s (u ++ d :: v)) (hd : d ∉ Token.alphabet) :
    Sound s u ∧ Sound s v ∧ s.tally c (u ++ d :: v) = s.tally c u + [d].count c + s.tally c v := by
  obtain ⟨g, hg, hk, hx, hy⟩ := h
  obtain ⟨a, b, rfl, rfl, rfl⟩ := exists_of_spell_eq_append_cons hd hx.symm
  have hsnd {k : Script} (hs : k ⊆ a ++ .char d :: b) : spell Prod.snd k = spell Prod.fst k :=
    spell_snd_eq hg (hx.symm.trans hy) hs
  have hleft : a <:+: a ++ .char d :: b := (List.prefix_append _ _).isInfix
  have hright : b <:+: a ++ .char d :: b := ⟨a ++ [Glyph.char d], [], by simp⟩
  have hmid : Clean (.char d :: b) := hg.slice (List.suffix_append _ _).isInfix
  have hone : s.tally c (spell Prod.fst [.char d]) = [d].count c := by
    refine Store.tally_of_not_mem fun h => hd ?_
    rw [← List.mem_singleton.1 h]
    decide
  refine ⟨⟨a, hg.slice hleft, hk.part (.of_slice hleft), rfl, (hsnd hleft.subset).symm⟩,
    ⟨b, hg.slice hright, hk.part (.of_slice hright), rfl, (hsnd hright.subset).symm⟩, ?_⟩
  rw [hx, Store.tally_append hg, ← List.singleton_append, Store.tally_append hmid, hone, Nat.add_assoc]

/-- What stands in front of a text and has no semicolon is resolved to itself. -/
theorem Sound.detokenize_peel (h : Sound s (u ++ v)) (hu : ';' ∉ u) :
    Sound s v ∧ s.detokenize (u ++ v) = u ++ s.detokenize v := by
  obtain ⟨g, hg, hk, hx, hy⟩ := h
  rcases isPrefixOf?_spell hu g with hn | ⟨b, rfl, hb⟩
  · have := hn Prod.fst
    rw [← hx, Token.isPrefixOf?_append] at this
    contradiction
  · have hread {f : Side} (hf : u ++ v = spell f (ofText u ++ b)) : v = spell f b := by
      have := hb f
      rw [← hf, Token.isPrefixOf?_append] at this
      exact Option.some.inj this
    have hright : b <:+: ofText u ++ b := (List.suffix_append _ _).isInfix
    refine ⟨⟨b, hg.slice hright, hk.part (.of_slice hright), hread hx, hread hy⟩, ?_⟩
    rw [hx, Store.detokenize_append hg, spell_ofText, s.detokenize_of_marker fun hm =>
      hu (hm.subset (by decide)), ← hread hx]

theorem Sound.peel (h : Sound s (u ++ v)) (hu : ';' ∉ u) :
    Sound s v ∧ s.tally c (u ++ v) = u.count c + s.tally c v := by
  obtain ⟨hv, he⟩ := h.detokenize_peel hu
  exact ⟨hv, by rw [Store.tally, he, List.count_append, Store.tally]⟩

/-- Walls are resolved to themselves. -/
theorem Sound.detokenize_around (ht : Sound s t) (hu : walled u = true) (hv : walled v = true) :
    s.detokenize (u ++ t ++ v) = u ++ s.detokenize t ++ v := by
  obtain ⟨g, hg, -, rfl, -⟩ := ht
  have hsolid := (solid_ofText hu).around (solid_ofText hv) hg
  have hleft : Clean (ofText u ++ g) := hsolid.clean.slice (List.prefix_append _ _).isInfix
  have hwall {w : Text} (hw : walled w = true) : s.detokenize w = w :=
    s.detokenize_of_marker fun hm => semicolon_not_mem_of_walled hw (hm.subset (by decide))
  have hspell : u ++ spell Prod.fst g ++ v = spell Prod.fst (ofText u ++ g ++ ofText v) := by simp
  rw [hspell, Store.detokenize_append hsolid.clean, Store.detokenize_append hleft, spell_ofText, spell_ofText,
    hwall hu, hwall hv]

theorem Sound.detokenize_element {tag : String} (ht : Sound s t) (htag : ';' ∉ tag.toList) :
    s.detokenize (Html.element tag t) = Html.element tag (s.detokenize t) := by
  rw [Html.element_eq, Html.element_eq, ht.detokenize_around (walled_opening htag) (walled_closing htag)]

theorem Sound.detokenize_block {tag : String} (ht : Sound s t) (htag : ';' ∉ tag.toList) :
    s.detokenize (Html.block tag t) = Html.block tag (s.detokenize t) := by
  have hbreak : walled ['\n'] = true := by decide
  have hinner : Sound s (['\n'] ++ t ++ ['\n']) := ((same_of_walled hbreak).around ht (same_of_walled hbreak)).clean
  have hresolve := hinner.detokenize_element htag
  rwa [ht.detokenize_around hbreak hbreak] at hresolve

variable (hc : isKept c = true) (hw : ∀ d ∈ w, isMargin d = true)
include hc hw

theorem Sound.drop_front (h : Sound s (w ++ v)) : Sound s v ∧ s.tally c (w ++ v) = s.tally c v := by
  obtain ⟨hv, ht⟩ := h.peel (c := c) (semicolon_not_mem_margin hw)
  rw [count_eq_zero_of_kept hc fun d hd => not_kept_of_isMargin (hw d hd), Nat.zero_add] at ht
  exact ⟨hv, ht⟩

theorem Sound.cut (h : Sound s (u ++ w ++ v)) (hne : w ≠ []) :
    Sound s u ∧ Sound s v ∧ s.tally c (u ++ w ++ v) = s.tally c u + s.tally c v := by
  obtain ⟨d, w, rfl⟩ := List.exists_cons_of_ne_nil hne
  rw [List.forall_mem_cons] at hw
  rw [List.append_assoc, List.cons_append] at h ⊢
  obtain ⟨hu, hrest, ht⟩ := h.cut_char (c := c) (not_mem_alphabet_of_isMargin hw.1)
  obtain ⟨hv, ht'⟩ := Sound.drop_front hc hw.2 hrest
  have hd : [d].count c = 0 := count_eq_zero_of_kept hc (by simpa using not_kept_of_isMargin hw.1)
  exact ⟨hu, hv, by rw [ht, ht', hd, Nat.add_zero]⟩

theorem Sound.drop_back (h : Sound s (u ++ w)) : Sound s u ∧ s.tally c (u ++ w) = s.tally c u := by
  cases w with
  | nil => simpa using h
  | cons d w =>
    have hnil : s.tally c [] = 0 := Store.tally_of_not_mem List.not_mem_nil
    have h' : Sound s (u ++ (d :: w) ++ []) := by rwa [List.append_nil]
    obtain ⟨hu, -, ht⟩ := Sound.cut hc hw h' (List.cons_ne_nil d w)
    rw [List.append_nil, hnil, Nat.add_zero] at ht
    exact ⟨hu, ht⟩

end
end Markup
