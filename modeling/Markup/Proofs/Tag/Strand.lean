import Markup.Proofs.Script.Tally
import Markup.Proofs.Tag.Nest

/-! # Texts with visible tags

The line rules leave the tags of anchors, images and short elements visible, with tokens in them. Such a text is a list
of strands, and it is read with a spot, which says how many anchors are open: a caret stands outside of anchors, and no
anchor or image follows it on its line. -/
namespace Markup
open Script
open Html (opening closing Neat)

/-- Whether the text that the token stands for has no tags. -/
def Store.Flat (s : Store) (n : Nat) : Prop := '<' ∉ s.detokenize (Token.ofId n)

/-- Whether the tags that the token stands for leave the open elements as they are. -/
def Store.Sealed (s : Store) (n : Nat) : Prop := Neat (s.detokenize (Token.ofId n))

inductive Strand where
  | glyph (x : Glyph)
  /-- An element that holds a token. -/
  | leaf (tag : String) (n : Nat)
  | image (attrs : Script)
  /-- The opening tag of an anchor. -/
  | opens (attrs : Script)
  /-- The closing tag of an anchor. -/
  | closes

namespace Strand

def script : Strand → Script
  | glyph x => [x]
  | leaf tag n => ofText (opening tag) ++ .token (n, n) :: ofText (closing tag)
  | image attrs => ofText "<img ".toList ++ attrs ++ [Glyph.char '>']
  | opens attrs => ofText "<a ".toList ++ attrs ++ [Glyph.char '>']
  | closes => ofText "</a>".toList

def flat (us : List Strand) : Script := us.flatMap script

/-- The elements that hold a token in a line. -/
def leafTags : List String := ["em", "strong", "u", "sup"]

/-- Whether the character may stand in a tag. -/
def isMarkup (c : Char) : Bool := c.isAlphanum || "<>/=\"?&:.% ".toList.contains c

/-- Whether no tag begins in the glyph. -/
def Clear (s : Store) : Glyph → Prop
  | .char c => c ≠ '<'
  | .token n => n.1 = n.2 ∧ s.Flat n.1

/-- What may stand in the attributes of a tag. -/
def Written (s : Store) (x : Glyph) : Prop := Clear s x ∧ ∀ c, x = .char c → isMarkup c = true

@[simp] theorem flat_nil : flat [] = [] := rfl

@[simp] theorem flat_cons (u : Strand) (us : List Strand) : flat (u :: us) = u.script ++ flat us := rfl

@[simp] theorem flat_append (us vs : List Strand) : flat (us ++ vs) = flat us ++ flat vs := List.flatMap_append

@[simp] theorem flat_glyphs (g : Script) : flat (g.map glyph) = g := by
  rw [flat, List.flatMap_map]
  exact List.flatMap_singleton' g

end Strand

inductive Spot where
  /-- At the start of a line. -/
  | start
  /-- Inside of as many anchors. -/
  | level (depth : Nat)
  /-- Behind a caret on the same line. -/
  | raised
deriving DecidableEq

namespace Spot

def depth : Spot → Nat
  | level d => d
  | _ => 0

/-- The spot behind something of the line. -/
def seen : Spot → Spot
  | start => level 0
  | p => p

def next (p : Spot) : Strand → Spot
  | .glyph (.char c) => if c = '\n' then start else if c = '^' then raised else p.seen
  | .opens _ => level (p.depth + 1)
  | .closes => level (p.depth - 1)
  | _ => p.seen

/-- Whether the strand may stand at the spot. -/
def Fits (s : Store) (p : Spot) : Strand → Prop
  | .glyph (.char c) => c ≠ '<' ∧ (c ∈ "\n|^".toList → p.depth = 0)
  | .glyph (.token n) => n.1 = n.2 ∧ (s.Flat n.1 ∨ p = start ∧ s.Sealed n.1)
  | .leaf tag n => tag ∈ Strand.leafTags ∧ s.Sealed n
  | .image attrs | .opens attrs => p ≠ raised ∧ ∀ x ∈ attrs, Strand.Written s x
  | .closes => 0 < p.depth

def Admits (s : Store) (p : Spot) : List Strand → Prop
  | [] => True
  | u :: us => p.Fits s u ∧ (p.next u).Admits s us

def after (p : Spot) (us : List Strand) : Spot := us.foldl next p

@[simp] theorem after_nil (p : Spot) : p.after [] = p := rfl

@[simp] theorem after_cons (p : Spot) (u : Strand) (us : List Strand) : p.after (u :: us) = (p.next u).after us := rfl

@[simp] theorem after_append (p : Spot) (us vs : List Strand) : p.after (us ++ vs) = (p.after us).after vs :=
  List.foldl_append

@[simp] theorem admits_nil {s : Store} {p : Spot} : p.Admits s [] := trivial

@[simp] theorem admits_cons {s : Store} {p : Spot} {u : Strand} {us : List Strand} :
    p.Admits s (u :: us) ↔ p.Fits s u ∧ (p.next u).Admits s us := Iff.rfl

@[simp] theorem admits_append {s : Store} {p : Spot} {us vs : List Strand} :
    p.Admits s (us ++ vs) ↔ p.Admits s us ∧ (p.after us).Admits s vs := by
  induction us generalizing p with
  | nil => simp
  | cons u us ih => simp [ih, and_assoc]

@[simp] theorem depth_seen (p : Spot) : p.seen.depth = p.depth := by cases p <;> rfl

@[simp] theorem seen_seen (p : Spot) : p.seen.seen = p.seen := by cases p <;> rfl

/-- What the first spot admits, the second one admits too: outside of anchors a line admits the most at its start, and
the least behind a caret. -/
inductive Le : Spot → Spot → Prop
  | refl (p : Spot) : Le p p
  | start : Le (level 0) start
  | level : Le raised (level 0)
  | raised : Le raised start

namespace Le
variable {s : Store} {p q : Spot} {u : Strand} {us : List Strand}

theorem depth_eq (h : Le p q) : p.depth = q.depth := by cases h <;> rfl

theorem seen (h : Le p q) : Le p.seen q.seen := by
  cases h with
  | refl => exact refl _
  | start => exact refl _
  | level => exact level
  | raised => exact level

theorem of_depth (h : p.depth = 0) : Le p Spot.start := by
  cases p with
  | start => exact refl _
  | level d =>
    obtain rfl : d = 0 := h
    exact start
  | raised => exact raised

theorem next (h : Le p q) (u : Strand) : Le (p.next u) (q.next u) := by
  cases u with
  | glyph x =>
    cases x with
    | char c =>
      simp only [Spot.next]
      split
      · exact refl _
      · split
        · exact refl _
        · exact h.seen
    | token n => exact h.seen
  | leaf | image => exact h.seen
  | opens | closes =>
    simp only [Spot.next, h.depth_eq]
    exact refl _

theorem fits (h : Le p q) (hu : p.Fits s u) : q.Fits s u := by
  have hraised : p ≠ Spot.raised → q ≠ Spot.raised := by
    rintro hp rfl
    cases h
    exact hp rfl
  cases u with
  | glyph x =>
    cases x with
    | char c => exact ⟨hu.1, h.depth_eq ▸ hu.2⟩
    | token n =>
      refine ⟨hu.1, hu.2.imp_right fun ⟨hp, hsealed⟩ => ⟨?_, hsealed⟩⟩
      subst hp
      cases h
      rfl
  | leaf => exact hu
  | image | opens => exact ⟨hraised hu.1, hu.2⟩
  | closes =>
    rw [Fits, ← h.depth_eq]
    exact hu

theorem admits (h : Le p q) (hu : p.Admits s us) : q.Admits s us ∧ Le (p.after us) (q.after us) := by
  induction us generalizing p q with
  | nil => exact ⟨trivial, h⟩
  | cons u us ih =>
    obtain ⟨hus, hafter⟩ := ih (h.next u) hu.2
    exact ⟨⟨h.fits hu.1, hus⟩, hafter⟩

end Le
end Spot

section
variable {s s' : Store} {n : Nat} {g : Script} {p : Spot} {u : Strand} {us vs : List Strand}

theorem Linked.detokenize_eq (h : Linked s s (n, n)) (hle : s.Le s') :
    s'.detokenize (Token.ofId n) = s.detokenize (Token.ofId n) := by
  have hsame : Same Solid s s' (Token.ofId n) (Token.ofId n) := (same_token h).mono (.refl s) hle
  exact hsame.clean.detokenize_eq.symm

theorem Linked.flat_mono (h : Linked s s (n, n)) (hle : s.Le s') (hn : s.Flat n) : s'.Flat n := by
  rwa [Store.Flat, h.detokenize_eq hle]

theorem Linked.sealed_mono (h : Linked s s (n, n)) (hle : s.Le s') (hn : s.Sealed n) : s'.Sealed n := by
  rwa [Store.Sealed, h.detokenize_eq hle]

theorem Strand.clear_mono {x : Glyph} (hk : Known s s [x]) (hle : s.Le s') (h : Strand.Clear s x) :
    Strand.Clear s' x := by
  cases x with
  | char c => exact h
  | token n =>
    obtain ⟨n, k⟩ := n
    obtain ⟨rfl, hflat⟩ : n = k ∧ s.Flat n := h
    exact ⟨rfl, (hk _ List.mem_cons_self).flat_mono hle hflat⟩

theorem Spot.fits_mono (hk : Known s s u.script) (hle : s.Le s') (h : p.Fits s u) : p.Fits s' u := by
  have hattrs {front attrs back : Script} (hk : Known s s (front ++ attrs ++ back))
      (h : ∀ x ∈ attrs, Strand.Written s x) : ∀ x ∈ attrs, Strand.Written s' x := fun x hx => by
    refine ⟨Strand.clear_mono (fun k hmem => hk k ?_) hle (h x hx).1, (h x hx).2⟩
    rw [List.mem_singleton.1 hmem]
    simp [hx]
  cases u with
  | glyph x =>
    cases x with
    | char c => exact h
    | token n =>
      obtain ⟨n, k⟩ := n
      obtain ⟨rfl, htoken⟩ : n = k ∧ (s.Flat n ∨ p = .start ∧ s.Sealed n) := h
      have hlink : Linked s s (n, n) := hk _ List.mem_cons_self
      exact ⟨rfl, htoken.imp (hlink.flat_mono hle) fun ⟨hp, hsealed⟩ => ⟨hp, hlink.sealed_mono hle hsealed⟩⟩
  | leaf tag n =>
    have hlink : Linked s s (n, n) := hk _ (by simp [Strand.script])
    exact ⟨h.1, hlink.sealed_mono hle h.2⟩
  | image attrs | opens attrs => exact ⟨h.1, hattrs hk h.2⟩
  | closes => exact h

theorem Spot.admits_mono (hk : Known s s (Strand.flat us)) (hle : s.Le s') (h : p.Admits s us) : p.Admits s' us := by
  induction us generalizing p with
  | nil => trivial
  | cons u us ih =>
    have hpart {k : Script} (hsub : k ⊆ Strand.flat (u :: us)) : Known s s k := fun i hi => hk i (hsub hi)
    exact ⟨Spot.fits_mono (hpart (List.subset_append_left _ _)) hle h.1, ih (hpart (List.subset_append_right _ _)) h.2⟩

theorem Store.detokenize_char (s : Store) (c : Char) : s.detokenize [c] = [c] :=
  s.detokenize_of_marker fun hm => absurd hm.length_le (by simp [Token.marker])

/-- In a clean script every part is resolved by itself. -/
theorem Strand.detokenize_flat_cons (hc : Clean (flat (u :: us))) :
    s.detokenize (spell Prod.fst (flat (u :: us))) =
      s.detokenize (spell Prod.fst u.script) ++ s.detokenize (spell Prod.fst (flat us)) :=
  Store.detokenize_append hc

theorem Strand.not_mem_of_clear (hc : Clean g) (h : ∀ x ∈ g, Clear s x) : '<' ∉ s.detokenize (spell Prod.fst g) := by
  have hnil : s.detokenize [] = [] := s.detokenize_of_marker (by decide)
  induction g with
  | nil =>
    rw [spell_nil, hnil]
    exact List.not_mem_nil
  | cons x g ih =>
    rw [List.forall_mem_cons] at h
    have hrest := ih (hc.slice (List.suffix_cons x g).isInfix) h.2
    rw [← List.singleton_append, Store.detokenize_append hc, List.mem_append, not_or]
    refine ⟨?_, hrest⟩
    cases x with
    | char c =>
      have hone : s.detokenize (spell Prod.fst [.char c]) = [c] := s.detokenize_char c
      rw [hone, List.mem_singleton]
      exact Ne.symm h.1
    | token n =>
      have htoken : spell Prod.fst [.token n] = Token.ofId n.1 := List.append_nil _
      rw [htoken]
      exact h.1.2

/-- The anchors that are open at a spot, above what is open around them. -/
def Spot.stack (p : Spot) (below : List Text) : List Text := List.replicate p.depth "a".toList ++ below

theorem Strand.detokenize_tag {front back : Text} (hc : Clean (ofText front ++ g ++ ofText back)) (hf : ';' ∉ front)
    (hb : ';' ∉ back) : s.detokenize (spell Prod.fst (ofText front ++ g ++ ofText back)) =
      front ++ s.detokenize (spell Prod.fst g) ++ back := by
  have hleft := hc.slice (List.prefix_append (ofText front ++ g) (ofText back)).isInfix
  have hself {t : Text} (ht : ';' ∉ t) : s.detokenize t = t :=
    s.detokenize_of_marker fun hm => ht (hm.subset (by decide))
  rw [Store.detokenize_append hc, Store.detokenize_append hleft, spell_ofText, spell_ofText, hself hf, hself hb]

theorem Strand.detokenize_attributes {front : Text} (hc : Clean (ofText front ++ g ++ ofText ['>'])) (hf : ';' ∉ front)
    (h : ∀ x ∈ g, Written s x) :
    ∃ value, s.detokenize (spell Prod.fst (ofText front ++ g ++ ofText ['>'])) = front ++ value ++ ['>'] ∧
    '<' ∉ value := by
  refine ⟨_, Strand.detokenize_tag hc hf (by decide), ?_⟩
  exact Strand.not_mem_of_clear (hc.slice (List.infix_append _ _ _)) fun x hx => (h x hx).1

/-- A character that may stand at a spot leads into no anchor and out of none. -/
theorem Spot.depth_next_char {c : Char} (h : p.Fits s (.glyph (.char c))) :
    (p.next (.glyph (.char c))).depth = p.depth := by
  simp only [Spot.next]
  split
  · next hc => exact (h.2 (hc ▸ by decide)).symm
  · split
    · next hc => exact (h.2 (hc ▸ by decide)).symm
    · exact p.depth_seen

theorem Spot.neat_glyph {x : Glyph} (h : p.Fits s (.glyph x)) :
    Neat (s.detokenize (spell Prod.fst (Strand.glyph x).script)) := by
  cases x with
  | char c =>
    have hone : s.detokenize (spell Prod.fst [.char c]) = [c] := s.detokenize_char c
    rw [Strand.script, hone]
    exact Neat.of_not_mem fun hmem => h.1 (List.mem_singleton.1 hmem).symm
  | token n =>
    have htoken : spell Prod.fst [.token n] = Token.ofId n.1 := List.append_nil _
    rw [Strand.script, htoken]
    rcases h.2 with hflat | ⟨-, hsealed⟩
    · exact Neat.of_not_mem hflat
    · exact hsealed

theorem Spot.neat_leaf {tag : String} (hc : Clean (Strand.leaf tag n).script) (h : p.Fits s (.leaf tag n)) :
    Neat (s.detokenize (spell Prod.fst (Strand.leaf tag n).script)) := by
  have htags : ∀ tag ∈ Strand.leafTags, Html.IsPaired tag ∧ ';' ∉ opening tag ∧ ';' ∉ closing tag := by decide
  obtain ⟨hpaired, hopen, hclose⟩ := htags tag h.1
  have hsplit : (Strand.leaf tag n).script = ofText (opening tag) ++ [Glyph.token (n, n)] ++ ofText (closing tag) := by
    simp [Strand.script]
  have htoken : spell Prod.fst [.token (n, n)] = Token.ofId n := List.append_nil _
  rw [hsplit] at hc ⊢
  rw [Strand.detokenize_tag hc hopen hclose, htoken, ← Html.element_eq]
  exact h.2.element hpaired

theorem Spot.neat_image (hc : Clean (Strand.image g).script) (h : p.Fits s (.image g)) :
    Neat (s.detokenize (spell Prod.fst (Strand.image g).script)) := by
  have hsplit : (Strand.image g).script = ofText "<img ".toList ++ g ++ ofText ['>'] := rfl
  rw [hsplit] at hc ⊢
  obtain ⟨value, hread, hsign⟩ := Strand.detokenize_attributes hc (by decide) h.2
  have hvalue : '<' ∉ ' ' :: value := by simp [hsign]
  rw [hread]
  have hneat : Neat ('<' :: ("img".toList ++ ' ' :: value) ++ ['>']) := Neat.void (by decide) (by decide) rfl hvalue
  exact hneat

open Html.Reading in
theorem Spot.run_opens (hc : Clean (Strand.opens g).script) (h : p.Fits s (.opens g)) (below : List Text) :
    (outside (p.stack below)).run (s.detokenize (spell Prod.fst (Strand.opens g).script)) =
      some (outside ((p.next (.opens g)).stack below)) := by
  have hsplit : (Strand.opens g).script = ofText "<a ".toList ++ g ++ ofText ['>'] := rfl
  rw [hsplit] at hc ⊢
  obtain ⟨value, hread, hsign⟩ := Strand.detokenize_attributes hc (by decide) h.2
  have hvalue : '<' ∉ ' ' :: value := by simp [hsign]
  rw [hread]
  have hname : Html.IsName "a".toList := by decide
  have hblank : (' ' :: value).head?.all (· == ' ') = true := rfl
  have hrun := @run_opening _ _ (p.stack below) hname hblank hvalue
  rw [if_neg (by decide)] at hrun
  exact hrun

open Html.Reading in
theorem Spot.run_closes (h : p.Fits s .closes) (below : List Text) :
    (outside (p.stack below)).run (s.detokenize (spell Prod.fst Strand.closes.script)) =
      some (outside ((p.next .closes).stack below)) := by
  have hself : s.detokenize "</a>".toList = "</a>".toList := s.detokenize_of_marker (by decide)
  obtain ⟨d, hd⟩ : ∃ d, p.depth = d + 1 := ⟨p.depth - 1, by have : 0 < p.depth := h; omega⟩
  have hbefore : p.stack below = "a".toList :: (List.replicate d "a".toList ++ below) := by
    rw [Spot.stack, hd, List.replicate_succ, List.cons_append]
  have hbehind : (p.next .closes).stack below = List.replicate d "a".toList ++ below := by
    rw [Spot.stack, Spot.next, Spot.depth, hd, Nat.add_sub_cancel]
  rw [Strand.script, spell_ofText, hself, hbefore, hbehind]
  exact run_closing (by decide)

open Html.Reading in
/-- Reading a strand leads from the open elements of the one spot to those of the next one. -/
theorem Spot.run_strand (hc : Clean u.script) (h : p.Fits s u) (below : List Text) :
    (outside (p.stack below)).run (s.detokenize (spell Prod.fst u.script)) =
      some (outside ((p.next u).stack below)) := by
  have hsame {t : Text} (ht : Neat t) {q : Spot} (hq : q.depth = p.depth) :
      (outside (p.stack below)).run t = some (outside (q.stack below)) := by
    rw [Spot.stack, Spot.stack, hq]
    exact ht _
  cases u with
  | glyph x =>
    refine hsame (Spot.neat_glyph h) ?_
    cases x with
    | char c => exact Spot.depth_next_char h
    | token n => exact p.depth_seen
  | leaf tag n => exact hsame (Spot.neat_leaf hc h) p.depth_seen
  | image attrs => exact hsame (Spot.neat_image hc h) p.depth_seen
  | opens attrs => exact Spot.run_opens hc h below
  | closes => exact Spot.run_closes h below

open Html.Reading in
theorem Spot.run_strands (hc : Clean (Strand.flat us)) (h : p.Admits s us) (below : List Text) :
    (outside (p.stack below)).run (s.detokenize (spell Prod.fst (Strand.flat us))) =
      some (outside ((p.after us).stack below)) := by
  have hnil : s.detokenize [] = [] := s.detokenize_of_marker (by decide)
  induction us generalizing p with
  | nil =>
    rw [Strand.flat_nil, spell_nil, hnil]
    rfl
  | cons u us ih =>
    have hfirst : Clean u.script := hc.slice (List.prefix_append _ _).isInfix
    have hrest : Clean (Strand.flat us) := hc.slice (List.suffix_append _ _).isInfix
    rw [Strand.detokenize_flat_cons hc, run_append, Spot.run_strand hfirst h.1, Option.bind_some, ih hrest h.2]
    rfl

theorem Spot.neat_strands (hc : Clean (Strand.flat us)) (h : p.Admits s us) (hp : p.depth = 0)
    (hafter : (p.after us).depth = 0) : Neat (s.detokenize (spell Prod.fst (Strand.flat us))) := fun below => by
  have hrun := Spot.run_strands hc h below
  rwa [Spot.stack, Spot.stack, hp, hafter] at hrun

end
end Markup
