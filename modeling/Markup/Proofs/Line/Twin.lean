import Markup.Proofs.Line.Shape
import Markup.Proofs.Script.Search

/-! # Emphasis over scripts

A token within emphasis counts as one character that is not white space. -/
namespace Markup.Line
open Script

theorem not_mem_mark {mark : Text} (hm : mark ∈ marks) : ∀ c ∈ mark, c ∉ Token.alphabet := by
  have : ∀ mark ∈ marks, ∀ c ∈ mark, c ∉ Token.alphabet := by decide
  exact this mark hm

theorem semicolon_not_mem_mark {mark : Text} (hm : mark ∈ marks) : ';' ∉ mark := fun h =>
  not_mem_mark hm ';' h (by decide)

theorem isPrefixOf?_mark_inside {mark : Text} (hm : mark ∈ marks) {prev : Option Char} {t : Text} (h : Inside prev t) :
    mark.isPrefixOf? t = none := by
  have hne : ∀ mark ∈ marks, mark ≠ [] := by decide
  obtain ⟨c, a, rfl⟩ := List.exists_cons_of_ne_nil (hne mark hm)
  obtain ⟨d, t', rfl, hd, -⟩ := h.exists_cons
  have : c ≠ d := fun h => not_mem_mark hm c List.mem_cons_self (h ▸ hd)
  simp [this]

theorem closes?_inside {mark : Text} (hm : mark ∈ marks) {prev : Option Char} {t : Text} (h : Inside prev t) :
    closes? mark t = none := by
  have hmark : mark.isPrefixOf t = false := by
    rw [← List.isSome_isPrefixOf?_eq_isPrefixOf, isPrefixOf?_mark_inside hm h]
    rfl
  obtain ⟨d, t', rfl, hd, -⟩ := h.exists_cons
  have hstar : '*' ≠ d := fun h => absurd (h ▸ hd) (by decide)
  simp [closes?, hmark, hstar]

theorem closes?_spell {mark : Text} (hm : mark ∈ marks) (g : Script) :
    (∀ f : Side, closes? mark (spell f g) = none) ∨
      ∃ u rest, g = ofText u ++ ofText mark ++ rest ∧ ∀ f : Side, closes? mark (spell f g) = some u.length := by
  have hsemi := semicolon_not_mem_mark hm
  have hstar : ';' ∉ '*' :: mark := by simpa using hsemi
  simp only [closes?, ← List.isSome_isPrefixOf?_eq_isPrefixOf]
  rcases isPrefixOf?_spell hstar g with h₁ | ⟨rest, rfl, h₁⟩
  · rcases isPrefixOf?_spell hsemi g with h₂ | ⟨rest, rfl, h₂⟩
    · exact .inl fun f => by simp [h₁, h₂]
    · exact .inr ⟨[], rest, rfl, fun f => by simp only [h₁, h₂]; rfl⟩
  · exact .inr ⟨['*'], rest, rfl, fun f => by simp only [h₁]; rfl⟩

/-- A token moves the search for the closing mark on to its last character. -/
theorem contentFrom_token {mark : Text} (hm : mark ∈ marks) {u : Text} (hu : ∀ c ∈ u, c ∈ Token.alphabet) (n : Nat)
    (t : Text) : contentFrom mark n (u ++ ';' :: t) = contentFrom mark (n + u.length) (';' :: t) := by
  induction u generalizing n with
  | nil => rfl
  | cons c u ih =>
    have hc := hu c List.mem_cons_self
    have hu' : ∀ d ∈ u, d ∈ Token.alphabet := fun d hd => hu d (List.mem_cons_of_mem _ hd)
    have hin : Inside (some c) (u ++ ';' :: t) := ⟨⟨c, hc, rfl⟩, u, t, rfl, hu'⟩
    have hne : c ≠ '\n' := fun h => absurd (h ▸ hc) (by decide)
    rw [List.cons_append, contentFrom, if_neg hne, closes?_inside hm hin, ite_self]
    simp only
    rw [ih hu', List.length_cons]
    congr 1
    omega

theorem contentFrom_glyph {mark : Text} (hm : mark ∈ marks) (f : Side) (x : Glyph) (n : Nat) (t : Text) :
    contentFrom mark n (x.spell f ++ t) =
      if x.face = '\n' then none
      else match (if isSpace x.face then none else closes? mark t) with
        | some k => some (n + (x.spell f).length + k)
        | none => contentFrom mark (n + (x.spell f).length) t := by
  cases x with
  | char c => rfl
  | token m =>
    obtain ⟨u, hu, hmem⟩ := Token.exists_ofId_eq (f m)
    have htext : Token.ofId (f m) ++ t = (';' :: u) ++ ';' :: t := by rw [hu]; simp
    have hall : ∀ c ∈ ';' :: u, c ∈ Token.alphabet := by
      rw [List.forall_mem_cons]
      exact ⟨by decide, hmem⟩
    have hlen : (Token.ofId (f m)).length = (';' :: u).length + 1 := by rw [hu]; simp
    rw [Glyph.spell_token, htext, contentFrom_token hm hall, contentFrom, hlen, ← Nat.add_assoc]
    rfl

theorem contentFrom_spell {mark : Text} (hm : mark ∈ marks) (g : Script) (n : Side → Nat) :
    (∀ f, contentFrom mark (n f) (spell f g) = none) ∨
      ∃ w rest, g = w ++ ofText mark ++ rest ∧
        ∀ f, contentFrom mark (n f) (spell f g) = some (n f + (spell f w).length) := by
  induction g generalizing n with
  | nil => exact .inl fun f => rfl
  | cons x g ih =>
    simp only [spell_cons, contentFrom_glyph hm]
    by_cases hx : x.face = '\n'
    · exact .inl fun f => by rw [if_pos hx]
    · simp only [if_neg hx]
      by_cases hs : isSpace x.face = true
      · simp only [if_pos hs]
        rcases ih (fun f => n f + (x.spell f).length) with h | ⟨w, rest, rfl, h⟩
        · exact .inl h
        · refine .inr ⟨x :: w, rest, rfl, fun f => ?_⟩
          rw [h f, spell_cons, List.length_append, Nat.add_assoc]
      · simp only [if_neg hs]
        rcases closes?_spell hm g with hc | ⟨u, rest, rfl, hc⟩
        · simp only [hc]
          rcases ih (fun f => n f + (x.spell f).length) with h | ⟨w, rest, rfl, h⟩
          · exact .inl h
          · refine .inr ⟨x :: w, rest, rfl, fun f => ?_⟩
            rw [h f, spell_cons, List.length_append, Nat.add_assoc]
        · refine .inr ⟨x :: ofText u, rest, rfl, fun f => ?_⟩
          simp only [hc f, spell_cons, spell_ofText, List.length_append, Nat.add_assoc]

theorem contentLength_token {mark : Text} (hm : mark ∈ marks) (n : Nat) (t : Text) :
    contentLength mark (Token.ofId n ++ t) = contentFrom mark 0 (Token.ofId n ++ t) := by
  obtain ⟨u, hu, hmem⟩ := Token.exists_ofId_eq n
  have htext : Token.ofId n ++ t = ';' :: (u ++ ';' :: t) := by rw [hu]; simp
  have hin : Inside (some ';') (u ++ ';' :: t) := ⟨⟨';', by decide, rfl⟩, u, t, rfl, hmem⟩
  rw [htext, contentLength, contentFrom, closes?_inside hm hin, if_neg (by decide), if_neg (by decide), ite_self]
  cases contentFrom mark 1 (u ++ ';' :: t) <;> rfl

theorem contentLength_spell {mark : Text} (hm : mark ∈ marks) (g : Script) :
    (∀ f, contentLength mark (spell f g) = none) ∨
      ∃ w rest, g = w ++ ofText mark ++ rest ∧ ∀ f, contentLength mark (spell f g) = some (spell f w).length := by
  cases g with
  | nil => exact .inl fun f => rfl
  | cons x g =>
    cases x with
    | char c =>
      simp only [spell_cons, Glyph.spell_char, List.singleton_append, contentLength]
      by_cases hc : isSpace c = true
      · exact .inl fun f => by rw [if_pos hc]
      · simp only [if_neg hc]
        rcases contentFrom_spell hm g fun _ => 1 with h | ⟨w, rest, rfl, h⟩
        · rcases closes?_spell hm g with hk | ⟨u, rest, rfl, hk⟩
          · exact .inl fun f => by simp only [h, hk]; rfl
          · exact .inr ⟨.char c :: ofText u, rest, rfl, fun f => by simp only [h, hk]; simp [Nat.add_comm]⟩
        · exact .inr ⟨.char c :: w, rest, rfl, fun f => by simp only [h]; simp [Nat.add_comm]⟩
    | token n =>
      simp only [spell_cons, Glyph.spell_token, contentLength_token hm]
      rcases contentFrom_spell hm (.token n :: g) fun _ => 0 with h | ⟨w, rest, hg, h⟩
      · exact .inl h
      · exact .inr ⟨w, rest, hg, fun f => by simpa using h f⟩

theorem emphasisWith_spell {mark : Text} (hm : mark ∈ marks) (prev : Option Char) (g : Script) :
    Alike g (emphasisWith prev (spell Prod.fst g) mark) (emphasisWith prev (spell Prod.snd g) mark) := by
  rcases isPrefixOf?_spell (semicolon_not_mem_mark hm) g with h | ⟨inner, rfl, h⟩
  · exact .inl ⟨by simp [emphasisWith, h], by simp [emphasisWith, h]⟩
  · by_cases hp : (mark = "_".toList && prev.any isNameChar) = true
    · exact .inl ⟨by simp only [emphasisWith, h, hp]; rfl, by simp only [emphasisWith, h, hp]; rfl⟩
    · rcases contentLength_spell hm inner with hn | ⟨w, rest, rfl, hn⟩
      · have none (f : Side) : emphasisWith prev (spell f (ofText mark ++ inner)) mark = none := by
          simp only [emphasisWith, h, hp, Option.bind_eq_bind, Option.bind_some, Bool.false_eq_true, if_false, hn]
          rfl
        exact .inl ⟨none _, none _⟩
      · have hit (f : Side) : emphasisWith prev (spell f (ofText mark ++ (w ++ ofText mark ++ rest))) mark =
            some (Script.Hit.spell f
              ⟨ofText mark ++ w ++ ofText mark, rest, [some (ofText mark), some w]⟩) := by
          simp only [emphasisWith, h, hp, Option.bind_eq_bind, Option.bind_some, Bool.false_eq_true, if_false, hn]
          simp [Script.Hit.spell, List.drop_append]
        refine .inr ⟨_, ⟨by simp, fun k hk => ?_⟩, hit _, hit _⟩
        simp only [List.mem_cons, List.not_mem_nil, Option.some.injEq, or_false] at hk
        rcases hk with rfl | rfl
        · exact .of_slice ⟨[], w ++ ofText mark, by simp⟩
        · exact .of_slice ⟨ofText mark, ofText mark, rfl⟩

theorem alike_findSome? {g : Script} {a b : Text → Option Markup.Hit} {l : List Text}
    (h : ∀ mark ∈ l, Alike g (a mark) (b mark)) : Alike g (l.findSome? a) (l.findSome? b) := by
  induction l with
  | nil => exact .inl ⟨rfl, rfl⟩
  | cons mark l ih =>
    rw [List.findSome?_cons, List.findSome?_cons]
    rcases h mark List.mem_cons_self with ⟨ha, hb⟩ | ⟨hit, hg, ha, hb⟩
    · rw [ha, hb]
      exact ih fun m hm => h m (List.mem_cons_of_mem _ hm)
    · rw [ha, hb]
      exact .inr ⟨hit, hg, rfl, rfl⟩

/-- The look at the first character makes no difference. -/
theorem emphasisScanner_eq (prev : Option Char) (t : Text) :
    emphasisScanner prev t = marks.findSome? (emphasisWith prev t) := by
  unfold emphasisScanner
  split
  · rfl
  · rfl
  · next h₁ h₂ =>
    refine (List.findSome?_eq_none_iff.2 fun mark hm => ?_).symm
    have hfirst : ∀ mark ∈ marks, mark.head? = some '_' ∨ mark.head? = some '*' := by decide
    cases hi : mark.isPrefixOf? t with
    | none => simp [emphasisWith, hi]
    | some inner =>
      have ht := Token.eq_append_of_isPrefixOf? hi
      have := hfirst mark hm
      cases mark with
      | nil => simp at this
      | cons c a =>
        rcases this with hc | hc
        · obtain rfl := Option.some.inj hc
          exact absurd ht (h₁ _)
        · obtain rfl := Option.some.inj hc
          exact absurd ht (h₂ _)

theorem emphasisScanner_twin : emphasisScanner.Twin fun _ => True := by
  refine ⟨fun prev g _ => ?_, fun prev t ht => ?_⟩
  · rw [emphasisScanner_eq, emphasisScanner_eq]
    exact alike_findSome? fun mark hm => emphasisWith_spell hm prev g
  · rw [emphasisScanner_eq]
    refine List.findSome?_eq_none_iff.2 fun mark hm => ?_
    simp [emphasisWith, isPrefixOf?_mark_inside hm ht]

end Markup.Line
