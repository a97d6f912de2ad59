import Markup.Proofs.Rule.Upholds
import Markup.Proofs.Script.Shows
import Markup.Proofs.Tag.Woven

/-! # Strands in the place of others

What the rules of a line write: an element around a token, an image, and an anchor around its label. Each of them leads
from the spot where the match begins to one that admits as much as the spot behind the match. -/
namespace Markup
open Script
open Html (opening closing Neat)

variable {s s' : Store} {p q r : Spot} {u : Strand} {us vs ws a b : List Strand} {g x y : Script} {d : Char}
  {t l : Text}
  {i j e n : Nat}

namespace Spot

theorem Le.trans (h : Le p q) (h' : Le q r) : Le p r := by
  cases h with
  | refl => exact h'
  | start =>
    cases h'
    exact .start
  | level =>
    cases h' with
    | refl => exact .level
    | start => exact .raised
  | raised =>
    cases h'
    exact .raised

theorem next_ne_start (h : u ≠ .glyph (.char '\n')) : p.next u ≠ start := by
  have hseen : p.seen ≠ start := by cases p <;> simp [seen]
  cases u with
  | glyph x =>
    cases x with
    | char c =>
      have hc : c ≠ '\n' := by
        rintro rfl
        exact h rfl
      rw [next, if_neg hc]
      split
      · exact Spot.noConfusion
      · exact hseen
    | token n => exact hseen
  | leaf | image => exact hseen
  | opens | closes => simp [next]

theorem after_ne_start (hline : Glyph.char '\n' ∉ Strand.flat us) (hne : us ≠ []) : p.after us ≠ start := by
  rcases List.eq_nil_or_concat' us with rfl | ⟨us, u, rfl⟩
  · exact absurd rfl hne
  · rw [after_append]
    refine next_ne_start fun hu => hline ?_
    rw [Strand.flat_append, hu]
    exact List.mem_append_right _ List.mem_cons_self

theorem seen_eq (hp : p ≠ raised) : p.seen = level p.depth := by
  cases p with
  | start | level => rfl
  | raised => exact absurd rfl hp

/-- On a line nothing but anchors leads to a spot that admits more. -/
theorem after_le_seen (hu : ∀ u ∈ us, u.Plain) (hline : Glyph.char '\n' ∉ Strand.flat us) (hne : us ≠ [])
    (h : p.Admits s us) : Le (p.after us) p.seen := by
  induction us generalizing p with
  | nil => exact absurd rfl hne
  | cons u us ih =>
    rw [List.forall_mem_cons] at hu
    rw [Strand.flat_cons, List.mem_append, not_or] at hline
    have hfirst : Le (p.next u) p.seen := by
      cases u with
      | glyph x =>
        cases x with
        | char c =>
          have hc : c ≠ '\n' := by
            rintro rfl
            exact hline.1 List.mem_cons_self
          rw [next, if_neg hc]
          split
          · next hcaret =>
            have hdepth : p.depth = 0 := h.1.2 (by rw [hcaret]; decide)
            cases p with
            | start => exact .level
            | level d =>
              obtain rfl : d = 0 := hdepth
              exact .level
            | raised => exact .refl _
          · exact .refl _
        | token n => exact .refl _
      | leaf => exact .refl _
      | image | opens | closes => exact hu.1.elim
    by_cases hus : us = []
    · rw [hus]
      exact hfirst
    · have hrest := (ih hu.2 hline.2 hus h.2).trans hfirst.seen
      rwa [seen_seen] at hrest

/-- What stands within anchors may stand within one more. -/
theorem deepen (hsigns : ∀ d ∈ "\n|^".toList, Glyph.char d ∉ Strand.flat us) (h : (level i).Admits s us) :
    ∃ e, (level i).after us = level e ∧ (level (i + 1)).Admits s us ∧ (level (i + 1)).after us = level (e + 1) := by
  induction us generalizing i with
  | nil => exact ⟨i, rfl, trivial, rfl⟩
  | cons u us ih =>
    have hrest : ∀ d ∈ "\n|^".toList, Glyph.char d ∉ Strand.flat us := fun d hd hmem =>
      hsigns d hd (List.mem_append_right _ hmem)
    obtain ⟨j, hnext, hfits, hnext'⟩ : ∃ j, (level i).next u = level j ∧ (level (i + 1)).Fits s u ∧
        (level (i + 1)).next u = level (j + 1) := by
      cases u with
      | glyph x =>
        cases x with
        | char c =>
          have hc : c ∉ "\n|^".toList := fun hmem => hsigns c hmem (List.mem_append_left _ List.mem_cons_self)
          have hbreak : c ≠ '\n' ∧ c ≠ '^' := ⟨fun h => hc (h ▸ by decide), fun h => hc (h ▸ by decide)⟩
          refine ⟨i, ?_, ⟨h.1.1, fun hmem => absurd hmem hc⟩, ?_⟩
          · rw [next, if_neg hbreak.1, if_neg hbreak.2]
            rfl
          · rw [next, if_neg hbreak.1, if_neg hbreak.2]
            rfl
        | token n => exact ⟨i, rfl, ⟨h.1.1, .inl (h.1.2.resolve_right fun hp => Spot.noConfusion hp.1)⟩, rfl⟩
      | leaf tag n => exact ⟨i, rfl, h.1, rfl⟩
      | image attrs => exact ⟨i, rfl, ⟨Spot.noConfusion, h.1.2⟩, rfl⟩
      | opens attrs => exact ⟨i + 1, rfl, ⟨Spot.noConfusion, h.1.2⟩, rfl⟩
      | closes =>
        obtain ⟨k, rfl⟩ : ∃ k, i = k + 1 := Nat.exists_eq_add_one.2 h.1
        exact ⟨k, rfl, Nat.succ_pos _, rfl⟩
    rw [admits_cons, hnext] at h
    obtain ⟨e, hafter, hadmits, hafter'⟩ := ih hrest h.2
    exact ⟨e, by rw [after_cons, hnext, hafter], ⟨hfits, hnext' ▸ hadmits⟩, by rw [after_cons, hnext', hafter']⟩

theorem cut_raised (hline : Glyph.char '\n' ∉ x) (hd : isSpace d = true) (h : raised.Admits s us)
    (hflat : Strand.flat us = x ++ .char d :: y) :
    ∃ vs ws, us = vs ++ .glyph (.char d) :: ws ∧ Strand.flat vs = x ∧ Strand.flat ws = y := by
  have htags : ∀ tag ∈ Strand.leafTags, ∀ c ∈ opening tag ++ closing tag, isSpace c = false := by decide
  induction us generalizing x with
  | nil => simp at hflat
  | cons u us ih =>
    cases u with
    | glyph z =>
      cases x with
      | nil =>
        obtain ⟨rfl, rfl⟩ := List.cons.inj hflat
        exact ⟨[], us, rfl, rfl, rfl⟩
      | cons z' x =>
        obtain ⟨rfl, hrest⟩ := List.cons.inj hflat
        rw [List.mem_cons, not_or] at hline
        have hnext : raised.next (.glyph z) = raised := by
          cases z with
          | char c =>
            have hc : c ≠ '\n' := fun hc => hline.1 (by rw [hc])
            rw [next, if_neg hc]
            split <;> rfl
          | token n => rfl
        rw [admits_cons, hnext] at h
        obtain ⟨vs, ws, rfl, rfl, rfl⟩ := ih hline.2 h.2 hrest
        exact ⟨_ :: vs, ws, rfl, rfl, rfl⟩
    | leaf tag n =>
      have hsplit : Strand.flat (.leaf tag n :: us) = (Strand.leaf tag n).script ++ Strand.flat us := rfl
      have hspace : Glyph.char d ∉ (Strand.leaf tag n).script := fun hmem => by
        have hmem : d ∈ opening tag ++ closing tag := by simpa [Strand.script, ofText] using hmem
        rw [htags tag h.1.1 d hmem] at hd
        contradiction
      rw [hsplit] at hflat
      obtain ⟨c, rfl, hrest⟩ := List.exists_eq_append_of_front hspace hflat
      rw [List.mem_append, not_or] at hline
      obtain ⟨vs, ws, rfl, rfl, rfl⟩ := ih hline.2 h.2 hrest
      exact ⟨.leaf tag n :: vs, ws, rfl, rfl, rfl⟩
    | image | opens => exact absurd rfl h.1.1
    | closes => exact absurd h.1 (Nat.lt_irrefl 0)

end Spot

/-- At the spot `p` the second strands may take the place of the first. -/
structure Fills (s : Store) (p : Spot) (vs ws : List Strand) : Prop where
  admits : p.Admits s ws
  spot : Spot.Le (p.after vs) (p.after ws)
  solid : Solid (Strand.flat ws)
  known : Known s s (Strand.flat ws)

/-- Strands that lead from one spot to another. -/
structure Bridges (s : Store) (p q : Spot) (us : List Strand) : Prop where
  admits : p.Admits s us
  after : p.after us = q
  clean : Clean (Strand.flat us)
  known : Known s s (Strand.flat us)

theorem Bridges.mono (h : Bridges s p q us) (hle : s.Le s') : Bridges s' p q us :=
  ⟨Spot.admits_mono h.known hle h.admits, h.after, h.clean, h.known.mono hle hle⟩

theorem Weaves.fill (h : Weaves s (a ++ vs ++ b) t) (hle : s.Le s') (hf : Fills s' (Spot.start.after a) vs ws) :
    Weaves s' (a ++ ws ++ b)
      (spell Prod.fst (Strand.flat a) ++ spell Prod.fst (Strand.flat ws) ++ spell Prod.fst (Strand.flat b)) :=
  h.replace hle hf.admits hf.spot hf.solid hf.known

namespace Strand

/-- A token between two texts. -/
def stamp (before : Text) (n : Nat) (after : Text) : Script := ofText before ++ .token (n, n) :: ofText after

/-- Whether a tag may have the text in it. -/
def tagged (t : Text) : Bool := t.all fun c => isMarkup c && c != '<'

theorem tagged_append (t u : Text) : tagged (t ++ u) = (tagged t && tagged u) := List.all_append

theorem written_ofText (ht : tagged t = true) : ∀ x ∈ ofText t, Written s x := by
  intro x hx
  obtain ⟨c, hc, rfl⟩ := List.mem_map.1 hx
  have hall := List.all_eq_true.1 ht c hc
  simp only [Bool.and_eq_true, bne_iff_ne] at hall
  refine ⟨hall.2, fun d hd => ?_⟩
  obtain rfl := Glyph.char.inj hd
  exact hall.1

theorem written_token (hn : s.Flat n) : Written s (.token (n, n)) := ⟨⟨rfl, hn⟩, fun _ h => Glyph.noConfusion h⟩

theorem written_stamp {before after : Text} (ht : tagged before = true ∧ tagged after = true) (hn : s.Flat n) :
    ∀ x ∈ stamp before n after, Written s x := by
  rw [stamp, List.forall_mem_append, List.forall_mem_cons]
  exact ⟨written_ofText ht.1, written_token hn, written_ofText ht.2⟩

theorem known_stamp {before after : Text} (hn : Linked s s (n, n)) : Known s s (stamp before n after) :=
  (known_ofText before).append fun k hk => by
    rcases List.mem_cons.1 hk with hk | hk
    · exact Glyph.token.inj hk ▸ hn
    · exact known_ofText after k hk

theorem clean_of_written (h : ∀ x ∈ g, Written s x) : Clean g :=
  Unmarked.clean fun hmem => absurd ((h _ hmem).2 ';' rfl) (by decide)

theorem solid_image (h : ∀ x ∈ g, Written s x) : Solid (image g).script := by
  have hopen : Solid (ofText "<img ".toList) := solid_ofText (by decide)
  have hclose : Solid (ofText ['>']) := solid_ofText (by decide)
  exact hopen.around hclose (clean_of_written h)

theorem solid_opens (h : ∀ x ∈ g, Written s x) : Solid (opens g).script := by
  have hopen : Solid (ofText "<a ".toList) := solid_ofText (by decide)
  have hclose : Solid (ofText ['>']) := solid_ofText (by decide)
  exact hopen.around hclose (clean_of_written h)

end Strand

namespace Fills
open Strand

theorem leaf {tag : String} (htag : tag ∈ leafTags) (hn : Linked s s (n, n)) (hsealed : s.Sealed n)
    (hvs : Spot.Le (p.after vs) p.seen) : Fills s p vs [.leaf tag n] := by
  have htags : ∀ tag ∈ leafTags, walled (opening tag) = true ∧ walled (closing tag) = true := by decide
  obtain ⟨hopen, hclose⟩ := htags tag htag
  have hflat : flat [.leaf tag n] = ofText (opening tag) ++ [Glyph.token (n, n)] ++ ofText (closing tag) := by
    simp [Strand.script]
  refine ⟨⟨⟨htag, hsealed⟩, trivial⟩, hvs, ?_, ?_⟩
  · rw [hflat]
    exact (solid_ofText hopen).around (solid_ofText hclose) (solid_token _).clean
  · rw [hflat]
    exact ((known_ofText _).append (known_token hn)).append (known_ofText _)

theorem image (hp : p ≠ .raised) (hg : ∀ x ∈ g, Written s x) (hk : Known s s g) (hvs : Spot.Le (p.after vs) p.seen) :
    Fills s p vs [.image g] := by
  have hflat : flat [.image g] = (Strand.image g).script := by simp
  refine ⟨⟨⟨hp, hg⟩, trivial⟩, hvs, ?_, ?_⟩
  · rw [hflat]
    exact solid_image hg
  · rw [hflat]
    exact ((known_ofText _).append hk).append (known_ofText ['>'])

theorem anchor (hp : p ≠ .raised) (hg : ∀ x ∈ g, Written s x) (hk : Known s s g)
    (hlabel : Bridges s (.level (p.depth + 1)) (.level (e + 1)) us) (hvs : Spot.Le (p.after vs) (.level e)) :
    Fills s p vs (.opens g :: us ++ [Strand.closes]) := by
  have hflat : flat (.opens g :: us ++ [Strand.closes]) =
      (Strand.opens g).script ++ flat us ++ ofText "</a>".toList := by
    simp [Strand.script]
  refine ⟨?_, ?_, ?_, ?_⟩
  · rw [List.cons_append, Spot.admits_cons, Spot.admits_append]
    refine ⟨⟨hp, hg⟩, hlabel.admits, ?_⟩
    change Spot.Admits s ((Spot.level (p.depth + 1)).after us) [.closes]
    rw [hlabel.after]
    exact ⟨Nat.succ_pos e, trivial⟩
  · rw [List.cons_append, Spot.after_cons, Spot.after_append]
    change Spot.Le _ (((Spot.level (p.depth + 1)).after us).after [.closes])
    rw [hlabel.after]
    exact hvs
  · rw [hflat]
    exact (solid_opens hg).around (solid_ofText (by decide)) hlabel.clean
  · rw [hflat]
    exact ((((known_ofText _).append hk).append (known_ofText ['>'])).append hlabel.known).append (known_ofText _)

end Fills

theorem bridges_token {sign : Text} (hsign : ∀ c ∈ sign, c ≠ '<' ∧ c ∉ "\n|^".toList ∧ c ≠ ';') (hn : Linked s s (n, n))
    (hflat : s.Flat n) :
    Bridges s (.level i) (.level i) ((ofText sign).map Strand.glyph ++ [Strand.glyph (.token (n, n))]) := by
  have htoken : (Spot.level i).Admits s [.glyph (.token (n, n))] := ⟨⟨rfl, .inl hflat⟩, trivial⟩
  have hstays : (Spot.level i).Admits s ((ofText sign).map Strand.glyph) ∧
      (Spot.level i).after ((ofText sign).map Strand.glyph) = .level i := by
    induction sign with
    | nil => exact ⟨trivial, rfl⟩
    | cons c sign ih =>
      rw [List.forall_mem_cons] at hsign
      obtain ⟨hadmits, hafter⟩ := ih hsign.2
      have hbreak : c ≠ '\n' ∧ c ≠ '^' := ⟨fun h => hsign.1.2.1 (h ▸ by decide), fun h => hsign.1.2.1 (h ▸ by decide)⟩
      have hnext : (Spot.level i).next (.glyph (.char c)) = .level i := by
        rw [Spot.next, if_neg hbreak.1, if_neg hbreak.2]
        rfl
      rw [ofText, List.map_cons, List.map_cons, Spot.admits_cons, Spot.after_cons, hnext]
      exact ⟨⟨⟨hsign.1.1, fun hmem => absurd hmem hsign.1.2.1⟩, hadmits⟩, hafter⟩
  have hflat : Strand.flat ((ofText sign).map Strand.glyph ++ [Strand.glyph (.token (n, n))]) =
      ofText sign ++ [Glyph.token (n, n)] := by
    simp [Strand.script]
  refine ⟨?_, ?_, ?_, ?_⟩
  · rw [Spot.admits_append, hstays.2]
    exact ⟨hstays.1, htoken⟩
  · rw [Spot.after_append, hstays.2]
    rfl
  · rw [hflat]
    have hsemi : Unmarked (ofText sign ++ [Glyph.token (n, n)]) := by
      simpa [Unmarked, ofText] using fun hmem => (hsign ';' hmem).2.2 rfl
    exact hsemi.clean
  · rw [hflat]
    exact (known_ofText _).append (known_token hn)

namespace Strand

theorem spell_leaf (tag : String) (n : Nat) : spell Prod.fst (flat [leaf tag n]) = Html.element tag (Token.ofId n) := by
  simp [script, Html.element_eq]

theorem spell_stamp (before : Text) (n : Nat) (after : Text) :
    spell Prod.fst (stamp before n after) = before ++ Token.ofId n ++ after := by
  simp [stamp]

theorem spell_anchor (before : Text) (n : Nat) (after : Text) (us : List Strand) :
    spell Prod.fst (flat (opens (stamp ("href=\"".toList ++ before) n (after ++ ['"'])) :: us ++ [closes])) =
      Html.anchor (before ++ Token.ofId n ++ after) (spell Prod.fst (flat us)) := by
  simp [script, spell_stamp, Html.anchor_eq]

theorem spell_image_unlabelled (n : Nat) :
    spell Prod.fst (flat [image (stamp "src=\"".toList n "\" alt=\"\"".toList)]) =
      Html.image [("src", Token.ofId n), ("alt", [])] := by
  simp [script, spell_stamp, Html.image_unlabelled_eq]

/-- The attributes of an image with a label. -/
def labelled (source label : Nat) : Script :=
  stamp "src=\"".toList source "\" alt=\"".toList ++ stamp [] label "\" title=\"".toList ++ stamp [] label ['"']

theorem spell_image (source label : Nat) : spell Prod.fst (flat [image (labelled source label)]) =
    Html.image [("src", Token.ofId source), ("alt", Token.ofId label), ("title", Token.ofId label)] := by
  simp [labelled, script, spell_stamp, Html.image_eq]

theorem written_labelled {source label : Nat} (hs : s.Flat source) (hl : s.Flat label) :
    ∀ x ∈ labelled source label, Written s x := by
  simp only [labelled, List.forall_mem_append]
  exact ⟨⟨written_stamp (by decide) hs, written_stamp (by decide) hl⟩, written_stamp (by decide) hl⟩

theorem known_labelled {source label : Nat} (hs : Linked s s (source, source)) (hl : Linked s s (label, label)) :
    Known s s (labelled source label) := ((known_stamp hs).append (known_stamp hl)).append (known_stamp hl)

end Strand
end Markup
