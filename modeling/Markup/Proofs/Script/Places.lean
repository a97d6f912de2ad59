import Markup.Proofs.Script.Stuck
import Mathlib.Data.List.Forall2

/-! # Places in a script

A match over a spelling of a script goes through places of the script, and through states within tokens, where what is
stuck there goes no further. So a run of a class may end at the places alone, or its farthest end is a place. -/
namespace Markup.Pattern
open Script

/-- A place in a match over a script. -/
structure Place where
  prev : Option Char
  taken : Script
  ahead : Script
  captures : List (Nat × Script)

/-- The place in one of the two spellings. -/
structure Spells (f : Side) (g : Place) (s : State) : Prop where
  prev : s.prev = g.prev
  taken : s.taken = (spell f g.taken).length
  ahead : s.ahead = spell f g.ahead
  captures : s.captures.map Capture.entry = g.captures.map fun c => (c.1, spell f c.2)

/-- The same place in both spellings. -/
def Twin (g : Place) (s₁ s₂ : State) : Prop := Spells Prod.fst g s₁ ∧ Spells Prod.snd g s₂

/-- The place `h` lies behind `w` as seen from `g`. -/
structure Place.Past (g : Place) (w : Script) (h : Place) : Prop where
  ahead : g.ahead = w ++ h.ahead
  taken : h.taken = g.taken ++ w
  captures : ∀ c ∈ h.captures, c ∈ g.captures ∨ c.2 <:+: w

theorem Place.Past.of_captures_eq {g h : Place} {w : Script} (ha : g.ahead = w ++ h.ahead)
    (ht : h.taken = g.taken ++ w) (hc : h.captures = g.captures) : g.Past w h := ⟨ha, ht, fun _ h => .inl (hc ▸ h)⟩

theorem Place.Past.trans {g h k : Place} {u v : Script} (a : g.Past u h) (b : h.Past v k) : g.Past (u ++ v) k where
  ahead := by rw [a.ahead, b.ahead, List.append_assoc]
  taken := by rw [b.taken, a.taken, List.append_assoc]
  captures c hc := by
    rcases b.captures c hc with hc | hc
    · exact (a.captures c hc).imp_right fun hu => hu.trans (List.prefix_append u v).isInfix
    · exact .inr (hc.trans (List.suffix_append u v).isInfix)

/-- The place with one more captured group. -/
def Place.capture (g : Place) (i : Nat) (w : Script) : Place := { g with captures := (i, w) :: g.captures }

theorem Place.Past.capture {g h : Place} {w : Script} (hp : g.Past w h) (i : Nat) : g.Past w (h.capture i w) where
  ahead := hp.ahead
  taken := hp.taken
  captures c hc := by
    rcases List.mem_cons.1 hc with rfl | hc
    · exact .inr (List.infix_refl w)
    · exact hp.captures c hc

/-- A group has captured what lies between the places where it was entered and left. -/
theorem Spells.capture {f : Side} {g h : Place} {s e : State} {w : Script} (hs : Spells f g s) (he : Spells f h e)
    (hp : g.Past w h) (i : Nat) :
    Spells f (h.capture i w) { e with captures := ⟨i, s.ahead, e.taken - s.taken⟩ :: e.captures } where
  prev := he.prev
  taken := he.taken
  ahead := he.ahead
  captures := by
    have htake : e.taken - s.taken = (spell f w).length := by
      rw [he.taken, hs.taken, hp.taken, spell_append, List.length_append]
      omega
    have htext : s.ahead = spell f w ++ spell f h.ahead := by rw [hs.ahead, hp.ahead, spell_append]
    simp [Place.capture, Capture.entry, he.captures, htake, htext]

/-- The ends of a run, where a token counts as one semicolon. -/
def ends (accepts : Char → Bool) : (least : Nat) → (most : Option Nat) → Place → Script → List Place
  | least, _, g, [] => if least = 0 then [{ g with ahead := [] }] else []
  | least, most, g, x :: t =>
    (if least = 0 then [{ g with ahead := x :: t }] else []) ++
      if accepts x.face && most != some 0 then
        ends accepts (least - 1) (most.map (· - 1)) { g with prev := some x.face, taken := g.taken ++ [x] } t
      else []

theorem past_of_mem_ends {accepts : Char → Bool} {least : Nat} {most : Option Nat} {g h : Place} {t : Script}
    (he : h ∈ ends accepts least most g t) : ∃ w, Place.Past { g with ahead := t } w h ∧ least ≤ w.length := by
  induction t generalizing least most g with
  | nil =>
    rw [ends] at he
    split at he
    · rw [List.mem_singleton.1 he]
      exact ⟨[], .of_captures_eq rfl (by simp) rfl, by omega⟩
    · exact absurd he List.not_mem_nil
  | cons x t ih =>
    rw [ends, List.mem_append] at he
    rcases he with he | he
    · split at he
      · rw [List.mem_singleton.1 he]
        exact ⟨[], .of_captures_eq rfl (by simp) rfl, by omega⟩
      · exact absurd he List.not_mem_nil
    · split at he
      · obtain ⟨w, hp, hl⟩ := ih he
        have step : Place.Past { g with ahead := x :: t } [x]
            { g with prev := some x.face, taken := g.taken ++ [x], ahead := t } :=
          .of_captures_eq rfl rfl rfl
        exact ⟨x :: w, step.trans hp, by rw [List.length_cons]; omega⟩
      · exact absurd he List.not_mem_nil

/-- The states `ss` are the places `gs`, with states within tokens strewn between them if `within` allows it. -/
inductive Sprinkled (f : Side) (within : Prop) : List Place → List State → Prop
  | nil : Sprinkled f within [] []
  | stop {g : Place} {s : State} {gs : List Place} {ss : List State} (hs : Spells f g s)
    (tail : Sprinkled f within gs ss) : Sprinkled f within (g :: gs) (s :: ss)
  | inside {s : State} {gs : List Place} {ss : List State} (hw : within) (hs : s.Inside) (hne : gs ≠ [])
    (tail : Sprinkled f within gs ss) : Sprinkled f within gs (s :: ss)

theorem sprinkled_token {f : Side} {within : Prop} (hw : within) {accepts : Char → Bool} {gs : List Place}
    {rest u : Text} {s : State}
    (ha : ∀ c ∈ Token.alphabet, accepts c = true) (hne : gs ≠ []) (hu : ∀ c ∈ u, c ∈ Token.alphabet)
    (hp : ∃ c ∈ Token.alphabet, s.prev = some c)
    (h : Sprinkled f within gs
      (runEnds accepts 0 none { s with prev := some ';', taken := s.taken + (u.length + 1) } rest)) :
    Sprinkled f within gs (runEnds accepts 0 none s (u ++ ';' :: rest)) := by
  induction u generalizing s with
  | nil =>
    rw [List.nil_append, runEnds_eq, furtherEnds, ha ';' (by decide)]
    exact .inside hw ⟨hp, [], rest, rfl, by simp⟩ hne h
  | cons c u ih =>
    have hc := hu c List.mem_cons_self
    rw [List.cons_append, runEnds_eq, furtherEnds, ha c hc]
    refine .inside hw ⟨hp, c :: u, rest, rfl, hu⟩ hne
      (ih (s := { s with prev := some c, taken := s.taken + 1 }) (fun d hd => hu d (List.mem_cons_of_mem _ hd))
        ⟨c, hc, rfl⟩ ?_)
    rw [List.length_cons] at h
    simpa [Nat.add_assoc, Nat.add_comm 1] using h

theorem ends_ne_nil (accepts : Char → Bool) (most : Option Nat) (g : Place) (t : Script) :
    ends accepts 0 most g t ≠ [] := by
  cases t <;> simp [ends]

theorem Spells.past_char {f : Side} {g : Place} {s : State} {c : Char} {t : Script} {u : Text}
    (hs : Spells f { g with ahead := .char c :: t } { s with ahead := u }) :
    Spells f { g with prev := some c, taken := g.taken ++ [.char c], ahead := t }
      { s with prev := some c, taken := s.taken + 1, ahead := spell f t } where
  prev := rfl
  taken := by
    have := hs.taken
    simp only at this
    simp [this, Glyph.spell]
  ahead := rfl
  captures := hs.captures

theorem Spells.past_token {f : Side} {g : Place} {s : State} {n : Nat × Nat} {t : Script} {u v : Text}
    (hu : Token.ofId (f n) = ';' :: (u ++ [';']))
    (hs : Spells f { g with ahead := .token n :: t } { s with ahead := v }) :
    Spells f { g with prev := some ';', taken := g.taken ++ [.token n], ahead := t }
      { s with prev := some ';', taken := s.taken + 1 + (u.length + 1), ahead := spell f t } where
  prev := rfl
  taken := by
    have := hs.taken
    simp only at this
    simp [this, Glyph.spell, hu]
    omega
  ahead := rfl
  captures := hs.captures

theorem sprinkled_runEnds {f : Side} {accepts : Char → Bool} {least : Nat} {most : Option Nat} {g : Place} {s : State}
    {t : Script} (hc : accepts ';' = false ∨ (∀ c ∈ Token.alphabet, accepts c = true) ∧ least ≤ 1 ∧ most = none)
    (hs : Spells f { g with ahead := t } { s with ahead := spell f t }) :
    Sprinkled f (accepts ';' = true) (ends accepts least most g t) (runEnds accepts least most s (spell f t)) := by
  induction t generalizing least most g s with
  | nil =>
    rw [ends, spell_nil, runEnds]
    split
    · exact .stop hs .nil
    · exact .nil
  | cons x t ih =>
    have here {gs : List Place} {ss : List State} (h : Sprinkled f (accepts ';' = true) gs ss) :
        Sprinkled f (accepts ';' = true) ((if least = 0 then [{ g with ahead := x :: t }] else []) ++ gs)
          ((if least = 0 then [{ s with ahead := spell f (x :: t) }] else []) ++ ss) := by
      split
      · exact .stop hs h
      · exact h
    rw [ends, runEnds_eq]
    refine here ?_
    cases x with
    | char c =>
      rw [spell_cons, Glyph.spell, List.singleton_append, furtherEnds]
      by_cases hx : (accepts c && most != some 0) = true
      · rw [if_pos hx, if_pos (show (accepts (Glyph.char c).face && most != some 0) = true from hx)]
        refine ih (hc.imp_right fun hlong => ⟨hlong.1, ?_, by simp [hlong.2.2]⟩) hs.past_char
        exact Nat.sub_le_of_le_add (Nat.le_succ_of_le hlong.2.1)
      · rw [if_neg hx, if_neg (show ¬ (accepts (Glyph.char c).face && most != some 0) = true from hx)]
        exact .nil
    | token n =>
      obtain ⟨u, hu, hmem⟩ := Token.exists_ofId_eq (f n)
      have htext : spell f (.token n :: t) = ';' :: (u ++ ';' :: spell f t) := by
        rw [spell_cons, Glyph.spell, hu]
        simp
      rw [htext, furtherEnds]
      rcases hc with hc | ⟨ha, hl, rfl⟩
      · have hx : ¬ (accepts ';' && most != some 0) = true := by simp [hc]
        rw [if_neg hx, if_neg (show ¬ (accepts (Glyph.token n).face && most != some 0) = true from hx)]
        exact .nil
      · have hx : (accepts ';' && none != some 0) = true := by simp [ha ';' (by decide)]
        have hzero : least - 1 = 0 := by omega
        rw [if_pos hx, if_pos (show (accepts (Glyph.token n).face && none != some 0) = true from hx), hzero]
        exact sprinkled_token (s := { s with prev := some ';', taken := s.taken + 1 }) (ha ';' (by decide)) ha
          (ends_ne_nil accepts none _ t) hmem ⟨';', by decide, rfl⟩ (ih (.inr ⟨ha, by omega, rfl⟩) (hs.past_token hu))

/-- States within tokens play no part for what is stuck there. -/
theorem Sprinkled.findSome?_eq {f : Side} {within : Prop} {gs : List Place} {ss : List State}
    (h : Sprinkled f within gs ss) {next : State → Option State} (hn : within → Stuck next) :
      ∃ stops, List.Forall₂ (Spells f) gs stops ∧
      ss.findSome? next = stops.findSome? next ∧ ss.reverse.findSome? next = stops.reverse.findSome? next := by
  induction h with
  | nil => exact ⟨[], .nil, rfl, rfl⟩
  | stop hs tail ih =>
    obtain ⟨stops, ha, hf, hr⟩ := ih
    refine ⟨_ :: stops, .cons hs ha, ?_, ?_⟩
    · rw [List.findSome?_cons, List.findSome?_cons, hf]
    · simp only [List.reverse_cons, List.findSome?_append, hr]
  | inside hw hs hne tail ih =>
    obtain ⟨stops, ha, hf, hr⟩ := ih
    refine ⟨stops, ha, ?_, ?_⟩
    · rw [List.findSome?_cons, hn hw _ hs, hf]
    · rw [List.reverse_cons, List.findSome?_append, hr]
      simp [hn hw _ hs]

theorem Sprinkled.getLast? {f : Side} {within : Prop} {gs : List Place} {ss : List State}
    (h : Sprinkled f within gs ss) :
    Option.Rel (Spells f) gs.getLast? ss.getLast? := by
  induction h with
  | nil => exact .none
  | @stop g s gs ss hs tail ih =>
    cases tail with
    | nil => exact .some hs
    | stop _ _ => simpa using ih
    | inside _ _ hne _ =>
      obtain ⟨g', gs, rfl⟩ := List.exists_cons_of_ne_nil hne
      simpa using ih
  | @inside s gs ss hw hs hne tail ih =>
    cases tail with
    | nil => exact absurd rfl hne
    | stop _ _ => simpa using ih
    | inside _ _ _ _ => simpa using ih

theorem Total.findSome?_reverse {next : State → Option State} (h : Total next) (l : List State) :
    l.reverse.findSome? next = l.getLast?.bind next := by
  rcases List.eq_nil_or_concat' l with rfl | ⟨l, s, rfl⟩
  · rfl
  · obtain ⟨r, hr⟩ := Option.ne_none_iff_exists'.1 (h s)
    simp [hr]

end Markup.Pattern
