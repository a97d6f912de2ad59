import Markup.Proofs.Script.Basic
import Markup.Proofs.Text.Cuts

/-! # Clean scripts

A script is clean when its characters alone do not spell the marker. Then its tokens are all the tokens that a reader
finds in its spellings. -/
namespace Markup

namespace Script
variable {f : Side} {g h k : Script}

def Clean (g : Script) : Prop := ¬ ofText Token.marker <:+: g

/-- A glyph that the marker does not have. -/
def Fence (x : Glyph) : Prop := x ∉ ofText Token.marker

instance (x : Glyph) : Decidable (Fence x) := inferInstanceAs (Decidable (¬ _))

theorem fence_token (n : Nat × Nat) : Fence (.token n) := by
  simp [Fence, ofText]

theorem clean_nil : Clean [] := by
  simp [Clean, ofText, Token.marker]

theorem Clean.slice (hg : Clean g) (hs : h <:+: g) : Clean h := fun hm => hg (hm.trans hs)

theorem Clean.append_cons {x : Glyph} (hg : Clean g) (hx : Fence x) (hh : Clean h) : Clean (g ++ x :: h) := fun hm =>
  (List.infix_of_not_mem hx hm).elim hg hh

theorem clean_ofText {t : Text} (ht : ¬ Token.marker <:+: t) : Clean (ofText t) := by
  rintro ⟨a, b, h⟩
  obtain ⟨ab, c, rfl, hab, -⟩ := List.map_eq_append_iff.1 h.symm
  obtain ⟨u, m, rfl, -, hm⟩ := List.map_eq_append_iff.1 hab
  obtain rfl := List.map_injective_iff.2 (fun _ _ h => Glyph.char.inj h) hm
  exact ht ⟨u, c, rfl⟩

/-- The script may stand between any two clean ones. -/
def Solid (g : Script) : Prop := ∀ u v, Clean u → Clean v → Clean (u ++ g ++ v)

theorem Solid.clean (hg : Solid g) : Clean g := by
  simpa using hg [] [] clean_nil clean_nil

theorem Solid.ne_nil (hg : Solid g) : g ≠ [] := by
  rintro rfl
  have hu : ¬ Token.marker <:+: ";;x".toList := fun h => absurd h.length_le (by decide)
  have hv : ¬ Token.marker <:+: "sv;".toList := fun h => absurd h.length_le (by decide)
  exact hg _ _ (clean_ofText hu) (clean_ofText hv) (List.infix_refl _)

theorem Solid.append (hg : Solid g) (hh : Solid h) : Solid (g ++ h) := fun u v hu hv => by
  have hug : Clean (u ++ g) := by simpa using hg u [] hu clean_nil
  simpa [List.append_assoc] using hh (u ++ g) v hug hv

theorem Solid.around (hg : Solid g) (hh : Solid h) (hk : Clean k) : Solid (g ++ k ++ h) := fun u v hu hv => by
  simpa [List.append_assoc] using hh (u ++ g ++ k) v (hg u k hu hk) hv

theorem solid_of_fence {x : Glyph} (hx : Fence x) : Solid [x] := fun u v hu hv => by
  simpa [List.append_assoc] using hu.append_cons hx hv

theorem solid_token (n : Nat × Nat) : Solid [.token n] := solid_of_fence (fence_token n)

/-- Whether the text has no semicolon, and characters at its ends that the marker does not have. -/
def walled (t : Text) : Bool :=
  !t.contains ';' && t.head?.any (!Token.marker.contains ·) && t.getLast?.any (!Token.marker.contains ·)

theorem semicolon_not_mem_of_walled {t : Text} (ht : walled t = true) : ';' ∉ t := by
  simp only [walled, Bool.and_eq_true, Bool.not_eq_true', List.contains_eq_mem, decide_eq_false_iff_not] at ht
  exact ht.1.1

theorem solid_ofText {t : Text} (ht : walled t = true) : Solid (ofText t) := by
  simp only [walled, Bool.and_eq_true, Bool.not_eq_true', List.contains_eq_mem, decide_eq_false_iff_not,
    Option.any_eq_true] at ht
  obtain ⟨⟨hsemi, c, hc, hcm⟩, d, hd, hdm⟩ := ht
  have fence {c : Char} (h : c ∉ Token.marker) : Fence (.char c) := by simpa [Fence, ofText] using h
  have clean {u : Text} (hu : u <:+: t) : Clean (ofText u) :=
    clean_ofText fun hm => hsemi ((hm.trans hu).subset (by decide))
  obtain ⟨t, rfl⟩ := List.head?_eq_some_iff.1 hc
  intro u v hu hv
  rcases List.eq_nil_or_concat' t with rfl | ⟨t, e, rfl⟩
  · simpa [ofText, List.append_assoc] using hu.append_cons (fence hcm) hv
  · obtain rfl : e = d := by
      rw [← List.cons_append, List.getLast?_append] at hd
      simpa using hd
    have hmid := (clean (u := t) ⟨[c], [e], by simp⟩).append_cons (fence hdm) hv
    simpa [ofText, List.append_assoc] using hu.append_cons (fence hcm) hmid

/-- `h` has its tokens from `g` and is clean when `g` is. -/
structure Part (h g : Script) : Prop where
  token : ∀ n, .token n ∈ h → .token n ∈ g
  clean : Clean g → Clean h

theorem Part.of_slice (h : g <:+: k) : Part g k := ⟨fun _ hn => h.subset hn, fun hk => hk.slice h⟩

theorem part_ofText {t : Text} (ht : ';' ∉ t) (g : Script) : Part (ofText t) g :=
  ⟨fun n hn => by simp [ofText] at hn, fun _ => clean_ofText fun hm => ht (hm.subset (by decide))⟩

def piece (f : Side) : Glyph → Token.Piece
  | .char c => .char c
  | .token n => .token (Nat.toDigits 10 (f n))

theorem shape?_ofId (n : Nat) (t : Text) : Token.shape? (Token.ofId n ++ t) = some (Nat.toDigits 10 n, t) := by
  have hd : ∀ c ∈ Nat.toDigits 10 n, isDecimal c = true := fun c hc =>
    isDecimal_of_isDigit (Nat.isDigit_of_mem_toDigits (by omega) (by omega) hc)
  have hs : ¬ isDecimal ';' = true := by decide
  have happ : Token.ofId n ++ t = Token.marker ++ (Nat.toDigits 10 n ++ ';' :: t) := by simp [Token.ofId]
  have htake : (Nat.toDigits 10 n ++ ';' :: t).takeWhile isDecimal = Nat.toDigits 10 n := by
    rw [List.takeWhile_append_of_pos hd, List.takeWhile_cons_of_neg hs, List.append_nil]
  have hdrop : (Nat.toDigits 10 n ++ ';' :: t).dropWhile isDecimal = ';' :: t := by
    rw [List.dropWhile_append_of_pos hd, List.dropWhile_cons_of_neg hs]
  obtain ⟨c, ds, hc⟩ := List.exists_cons_of_ne_nil (Nat.toDigits_ne_nil (n := n) (b := 10))
  simp only [Token.shape?, happ, Token.isPrefixOf?_append, Option.bind_eq_bind, Option.bind_some, htake, hdrop]
  rw [hc]
  rfl

/-- A word is read off the characters of a script, or its last semicolon is the first of a token. -/
theorem isPrefixOf?_spell_cases {a rest : Text}
    (ha : ∀ b, b <:+ a → b ≠ [] → b ≠ [';'] → ∀ n t, b.isPrefixOf? (Token.ofId n ++ t) = none)
    (h : a.isPrefixOf? (spell f g) = some rest) :
    (∃ k, g = ofText a ++ k) ∨ ∃ n t, ';' :: rest = Token.ofId n ++ t := by
  induction a generalizing g with
  | nil => exact .inl ⟨g, rfl⟩
  | cons c a ih =>
    cases g with
    | nil => simp at h
    | cons x g =>
      cases x with
      | char d =>
        rw [spell_cons, Glyph.spell_char, List.singleton_append, Text.isPrefixOf?_cons_cons] at h
        split at h
        · next hc =>
          rcases ih (fun b hb => ha b (hb.trans (List.suffix_cons c a))) h with ⟨k, rfl⟩ | hr
          · exact .inl ⟨k, by rw [beq_iff_eq.1 hc]; rfl⟩
          · exact .inr hr
        · contradiction
      | token n =>
        by_cases hc : c :: a = [';']
        · obtain ⟨rfl, rfl⟩ := List.cons.inj hc
          refine .inr ⟨f n, spell f g, ?_⟩
          exact (Token.eq_append_of_isPrefixOf? h).symm
        · rw [spell_cons, Glyph.spell_token, ha _ (List.suffix_refl _) (List.cons_ne_nil c a) hc] at h
          contradiction

theorem isPrefixOf?_marker_suffix {b : Text} (hb : b <:+ [';', 'x', 's', 'v', ';']) (hne : b ≠ []) (hs : b ≠ [';'])
    (n : Nat) (t : Text) : b.isPrefixOf? (Token.ofId n ++ t) = none := by
  simp only [List.suffix_cons_iff, List.suffix_nil, hne, hs, or_false] at hb
  rcases hb with rfl | rfl | rfl | rfl
  all_goals simp [Token.ofId, Token.marker]

/-- A character of a clean script is not the first of a token. -/
theorem shape?_char {c : Char} (hg : Clean (.char c :: g)) : Token.shape? (c :: spell f g) = none := by
  have hm : Token.marker = ';' :: [';', 'x', 's', 'v', ';'] := rfl
  cases hp : Token.marker.isPrefixOf? (c :: spell f g) with
  | none => simp [Token.shape?, hp]
  | some rest =>
    have hc := hp
    rw [hm, Text.isPrefixOf?_cons_cons] at hc
    split at hc
    · next h =>
      obtain rfl := beq_iff_eq.1 h
      rcases isPrefixOf?_spell_cases (fun b hb hne hs => isPrefixOf?_marker_suffix hb hne hs) hc with
        ⟨k, rfl⟩ | ⟨n, t, hr⟩
      · exact absurd ⟨[], k, by rw [hm]; rfl⟩ hg
      · have hrest : rest = [';', 'x', 's', 'v', ';'] ++ (Nat.toDigits 10 n ++ ';' :: t) := by
          simpa [Token.ofId, hm] using hr
        simp [Token.shape?, hp, hrest, show isDecimal ';' = false by decide]
    · contradiction

theorem pieces_spell (hg : Clean g) (f : Side) : Token.pieces (spell f g) = g.map (piece f) := by
  induction g with
  | nil => simp [Token.pieces]
  | cons x g ih =>
    have ih := ih (hg.slice (List.suffix_cons x g).isInfix)
    cases x with
    | char c =>
      rw [spell_cons, Glyph.spell_char, List.singleton_append, Token.pieces_cons (shape?_char hg), ih]
      rfl
    | token n =>
      rw [spell_cons, Glyph.spell_token, Token.pieces_of_shape? (shape?_ofId (f n) (spell f g)), ih]
      rfl

end Script
end Markup
