import Markup.Proofs.Script.Clean
import Markup.Proofs.Script.Walk

/-! # Searches over scripts

A scanner that takes tokens whole or not at all finds the same match in both spellings of a script. -/
namespace Markup

namespace Script

/-- A hit over a script. -/
structure Hit where
  whole : Script
  rest : Script
  groups : List (Option Script)

def Hit.spell (f : Side) (h : Script.Hit) : Markup.Hit :=
  ⟨Script.spell f h.whole, Script.spell f h.rest, h.groups.map (Option.map (Script.spell f))⟩

/-- A match over a script. -/
structure Match where
  before : Script
  whole : Script
  after : Script
  groups : List (Option Script)

def Match.spell (f : Side) (m : Script.Match) : Markup.Match :=
  ⟨(Script.spell f m.before).reverse, Script.spell f m.whole, Script.spell f m.after,
    m.groups.map (Option.map (Script.spell f))⟩

def Match.text (m : Script.Match) : Script := m.before ++ m.whole ++ m.after

theorem Match.before_infix (m : Script.Match) : m.before <:+: m.text := ⟨[], m.whole ++ m.after, by simp [Match.text]⟩

theorem Match.whole_infix (m : Script.Match) : m.whole <:+: m.text := ⟨m.before, m.after, rfl⟩

theorem Match.after_infix (m : Script.Match) : m.after <:+: m.text := (List.suffix_append _ _).isInfix

theorem Match.before_spell (f : Side) (m : Script.Match) : (m.spell f).before = Script.spell f m.before :=
  List.reverse_reverse _

theorem Match.text_spell (f : Side) (m : Script.Match) : (m.spell f).text = Script.spell f m.text := by
  rw [Markup.Match.text, before_spell, Match.text, spell_append, spell_append]
  rfl

theorem Match.replaceBy_spell (f : Side) (m : Script.Match) (new : Script) :
    (m.spell f).replaceBy (Script.spell f new) = Script.spell f (m.before ++ new ++ m.after) := by
  rw [Markup.Match.replaceBy_eq, before_spell, spell_append, spell_append]
  rfl

/-- The hit cuts the script, and its groups are parts of what it takes. -/
structure Hit.Cuts (h : Script.Hit) (g : Script) : Prop where
  text : h.whole ++ h.rest = g
  part : ∀ k, some k ∈ h.groups → Part k h.whole

structure Match.Cuts (m : Script.Match) (g : Script) : Prop where
  text : m.text = g
  part : ∀ k, some k ∈ m.groups → Part k m.whole

/-- The two hits, if any, are the spellings of one. -/
def Alike (g : Script) (a b : Option Markup.Hit) : Prop :=
  (a = none ∧ b = none) ∨
    ∃ h : Script.Hit, h.Cuts g ∧ a = some (h.spell Prod.fst) ∧ b = some (h.spell Prod.snd)

/-- The two matches, if any, are the spellings of one. -/
def AlikeIn (g : Script) (a b : Option Markup.Match) : Prop :=
  (a = none ∧ b = none) ∨
    ∃ m : Script.Match, m.Cuts g ∧ a = some (m.spell Prod.fst) ∧ b = some (m.spell Prod.snd)

end Script

open Script

/-- The scanner hits alike in the two spellings of a script, and never within a token. `P` limits the scripts. -/
structure Scanner.Twin (P : Script → Prop) (s : Scanner) : Prop where
  alike : ∀ prev g, P g → Alike g (s prev (spell Prod.fst g)) (s prev (spell Prod.snd g))
  within : ∀ prev t, Inside prev t → s prev t = none

/-- The matcher finds alike in the two spellings of a script. -/
def Matcher.Twin (P : Script → Prop) (m : Matcher) : Prop :=
  ∀ g, P g → AlikeIn g (m.find [] (spell Prod.fst g)) (m.find [] (spell Prod.snd g))

theorem Scanner.Twin.skip_token {P : Script → Prop} {s : Scanner} (hs : s.Twin P) {behind rest : Text} {n : Nat}
    (h : s behind.head? (Token.ofId n ++ rest) = none) :
    s.search behind (Token.ofId n ++ rest) = s.search ((Token.ofId n).reverse ++ behind) rest := by
  refine search_skip fun a b hab hb => ?_
  by_cases ha : a = []
  · subst ha
    rw [List.nil_append] at hab
    rwa [← hab]
  · have hin := Inside.of_token hab ha hb rest
    rw [List.head?_append_of_ne_nil _ (by simpa using ha), List.head?_reverse]
    exact hs.within _ _ hin

theorem Scanner.Twin.search {P : Script → Prop} {s : Scanner} (hs : s.Twin P) (b g : Script)
    (hP : ∀ v, v <:+ g → P v) :
    AlikeIn (b ++ g) (s.search (spell Prod.fst b).reverse (spell Prod.fst g))
      (s.search (spell Prod.snd b).reverse (spell Prod.snd g)) := by
  have prev (f : Side) : (spell f b).reverse.head? = b.getLast?.map Glyph.face := by
    rw [List.head?_reverse, getLast?_spell]
  induction g generalizing b with
  | nil =>
    have h := hs.alike (b.getLast?.map Glyph.face) [] (hP [] (List.suffix_refl []))
    simp only [spell_nil] at h
    rw [spell_nil, spell_nil, Scanner.search, Scanner.search, prev, prev]
    rcases h with ⟨h, -⟩ | ⟨hit, hg, h₁, h₂⟩
    · exact .inl ⟨by rw [h]; rfl, by rw [h]; rfl⟩
    · refine .inr ⟨⟨b, hit.whole, hit.rest, hit.groups⟩, ⟨by simp [Script.Match.text, hg.text], hg.part⟩, ?_, ?_⟩
      · rw [h₁]; rfl
      · rw [h₂]; rfl
  | cons x g ih =>
    have h := hs.alike (b.getLast?.map Glyph.face) (x :: g) (hP _ (List.suffix_refl _))
    have step (f : Side) (hn : s (b.getLast?.map Glyph.face) (spell f (x :: g)) = none) :
        s.search (spell f b).reverse (spell f (x :: g)) = s.search (spell f (b ++ [x])).reverse (spell f g) := by
      rw [← prev f] at hn
      cases x with
      | char c =>
        rw [spell_cons, Glyph.spell, List.singleton_append] at hn ⊢
        rw [Scanner.search, hn]
        simp [Glyph.spell]
      | token n =>
        rw [spell_cons, Glyph.spell] at hn ⊢
        rw [hs.skip_token hn]
        simp [Glyph.spell]
    have found (f : Side) {hit : Script.Hit}
        (hh : s (b.getLast?.map Glyph.face) (spell f (x :: g)) = some (hit.spell f)) :
        s.search (spell f b).reverse (spell f (x :: g)) =
          some (Script.Match.spell f ⟨b, hit.whole, hit.rest, hit.groups⟩) := by
      rw [← prev f] at hh
      have hne : spell f (x :: g) ≠ [] := spell_eq_nil.not.2 (List.cons_ne_nil x g)
      obtain ⟨c, t, ht⟩ := List.exists_cons_of_ne_nil hne
      rw [ht] at hh ⊢
      rw [Scanner.search, hh]
      rfl
    rcases h with ⟨h₁, h₂⟩ | ⟨hit, hg, h₁, h₂⟩
    · rw [step _ h₁, step _ h₂]
      have := ih (b ++ [x]) (fun v hv => hP v (hv.trans (List.suffix_cons x g))) fun f => by
        rw [List.head?_reverse, getLast?_spell]
      rwa [List.append_assoc] at this
    · exact .inr ⟨⟨b, hit.whole, hit.rest, hit.groups⟩, ⟨by simp [Script.Match.text, ← hg.text], hg.part⟩,
        found _ h₁, found _ h₂⟩

theorem Scanner.Twin.matcher {P : Script → Prop} {s : Scanner} (hs : s.Twin P) (hP : ∀ u v, v <:+ u → P u → P v)
    (r : Rounding) : (Matcher.ofScanner s r).Twin P := fun g hg => by
  exact hs.search [] g fun v hv => hP g v hv hg

namespace Pattern

theorem lookup_spell (f : Side) (caps : List (Nat × Script)) (i : Nat) :
    (caps.map fun c => (c.1, spell f c.2)).lookup i = (caps.lookup i).map (spell f) := by
  induction caps with
  | nil => rfl
  | cons c caps ih =>
    rw [List.map_cons, List.lookup_cons, List.lookup_cons, ih]
    cases i == c.1 <;> rfl

theorem mem_of_lookup {caps : List (Nat × Script)} {i : Nat} {k : Script} (h : caps.lookup i = some k) :
    (i, k) ∈ caps := by
  induction caps with
  | nil => simp at h
  | cons c caps ih =>
    rw [List.lookup_cons] at h
    split at h
    · next hi =>
      obtain rfl := Option.some.inj h
      rw [eq_of_beq hi]
      exact List.mem_cons_self
    · exact List.mem_cons_of_mem c (ih h)

theorem hit_eq {f : Side} {g : Script} {w : Script} {h : Place} {e : State} (he : Spells f h e) (hg : g = w ++ h.ahead)
    (ht : h.taken = w) (n : Nat) : State.hit n (spell f g) e =
      Script.Hit.spell f ⟨w, h.ahead, (List.range n).map fun i => h.captures.lookup (i + 1)⟩ := by
  have htake : (spell f g).take e.taken = spell f w := by rw [he.taken, ht, hg, spell_append]; simp
  simp only [State.hit, Script.Hit.spell, htake, he.ahead, find?_eq_lookup, he.captures, lookup_spell, List.map_map]
  rfl

/-- Whether the pattern, with nothing behind it, takes tokens whole or not at all and begins outside of them. -/
def whole (p : Pattern) : Bool := p.stuck false && p.fits false true

theorem scanner_twin {p : Pattern} (h : p.whole = true) : p.scanner.Twin fun _ => True := by
  rw [whole, Bool.and_eq_true] at h
  refine ⟨fun prev g _ => ?_, fun prev t ht => ?_⟩
  · let start : Place := ⟨prev, [], g, []⟩
    have total : Total some := fun _ => nofun
    have hrel : Option.Rel (fun e₁ e₂ => ∃ w e, start.Past w e ∧ Twin e e₁ e₂)
        (p.walk some ⟨prev, 0, spell Prod.fst g, []⟩) (p.walk some ⟨prev, 0, spell Prod.snd g, []⟩) :=
      walk_twin h.2 nofun (fun _ => ⟨total, total⟩) (g := start) ⟨⟨rfl, rfl, rfl, rfl⟩, ⟨rfl, rfl, rfl, rfl⟩⟩
        fun w e e₁ e₂ hp _ he => .some ⟨w, e, hp, he⟩
    rw [scanner, scanner]
    generalize p.walk some ⟨prev, 0, spell Prod.fst g, []⟩ = a at hrel ⊢
    generalize p.walk some ⟨prev, 0, spell Prod.snd g, []⟩ = b at hrel ⊢
    cases hrel with
    | none => exact .inl ⟨rfl, rfl⟩
    | @some e₁ e₂ he =>
      obtain ⟨w, e, hp, he⟩ := he
      have hg : g = w ++ e.ahead := hp.ahead
      have htaken : e.taken = w := hp.taken
      refine .inr ⟨⟨w, e.ahead, (List.range p.groupCount).map fun i => e.captures.lookup (i + 1)⟩, ⟨hg.symm, ?_⟩,
        congrArg some (hit_eq he.1 hg htaken _), congrArg some (hit_eq he.2 hg htaken _)⟩
      intro k hk
      obtain ⟨i, -, hi⟩ := List.mem_map.1 hk
      rcases hp.captures _ (mem_of_lookup hi) with hc | hc
      · exact absurd hc List.not_mem_nil
      · exact .of_slice hc
  · rw [scanner, walk_stuck h.1 (fun h => nomatch h) ⟨prev, 0, t, []⟩ ht]
    rfl

theorem matcher_twin {p : Pattern} (h : p.whole = true) : p.matcher.Twin fun _ => True := by
  rw [matcher_eq]
  exact (scanner_twin h).matcher (fun _ _ _ => id) _

end Pattern
end Markup
