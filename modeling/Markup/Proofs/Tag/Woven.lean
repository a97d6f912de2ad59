import Markup.Proofs.Seam.Lines
import Markup.Proofs.Tag.Strand

/-! # Cutting strands

A character that no tag has, and a piece without the signs of tags, cut a list of strands between two of them. So a text
that is woven from strands stays so when a match within a line gives way to other strands. -/
namespace Markup
open Script
open Html (opening closing Neat)

variable {s s' : Store} {p q : Spot} {u : Strand} {us vs ws a b : List Strand} {g x y : Script} {d : Char} {t l : Text}

namespace Strand

/-- The characters of the strand are those of a tag, or it is one character. -/
def Formed (u : Strand) : Prop := ∀ d, Glyph.char d ∈ u.script → isMarkup d = true ∨ u = glyph (.char d)

theorem cut_char (hu : ∀ u ∈ us, Formed u) (hd : isMarkup d = false) (h : flat us = x ++ .char d :: y) :
    ∃ vs ws, us = vs ++ glyph (.char d) :: ws ∧ flat vs = x ∧ flat ws = y := by
  induction us generalizing x with
  | nil => simp at h
  | cons u us ih =>
    rw [List.forall_mem_cons] at hu
    rw [flat_cons] at h
    rcases List.append_eq_append_iff.1 h with ⟨c, rfl, hc⟩ | ⟨c, hscript, hc⟩
    · obtain ⟨vs, ws, rfl, rfl, rfl⟩ := ih hu.2 hc
      exact ⟨u :: vs, ws, rfl, rfl, rfl⟩
    · cases c with
      | nil =>
        obtain ⟨vs, ws, rfl, hvs, rfl⟩ := ih hu.2 (x := []) hc.symm
        exact ⟨u :: vs, ws, rfl, by rw [flat_cons, hvs, hscript, List.append_nil, List.append_nil], rfl⟩
      | cons e c =>
        obtain ⟨rfl, rfl⟩ := List.cons.inj hc
        rcases hu.1 d (by simp [hscript]) with hmarkup | rfl
        · simp [hd] at hmarkup
        · obtain ⟨rfl, rfl⟩ : x = [] ∧ c = [] := by
            cases x with
            | nil => exact ⟨rfl, (List.cons.inj hscript).2.symm⟩
            | cons e x => simp [script] at hscript
          exact ⟨[], us, rfl, rfl, rfl⟩

theorem char_mem_ofText : Glyph.char d ∈ ofText t ↔ d ∈ t := by simp [ofText]

/-- Every strand that is no glyph begins and ends with the signs of tags. -/
theorem glyph_or_tag (u : Strand) : (∃ x, u = glyph x) ∨
    (∃ k, u.script = .char '<' :: k) ∧ ∃ k, u.script = k ++ [Glyph.char '>'] := by
  cases u with
  | glyph x => exact .inl ⟨x, rfl⟩
  | leaf tag n =>
    refine .inr ⟨⟨_, rfl⟩, ofText (opening tag) ++ .token (n, n) :: ofText ("</".toList ++ tag.toList), ?_⟩
    simp [script, closing, ofText]
  | image | opens => exact .inr ⟨⟨_, rfl⟩, _, rfl⟩
  | closes => exact .inr ⟨⟨_, rfl⟩, ofText "</a".toList, rfl⟩

/-- Glyphs that open no tag are strands of their own. -/
theorem peel_front (hg : Glyph.char '<' ∉ g) (h : flat us = g ++ y) : ∃ ws, us = g.map glyph ++ ws ∧ flat ws = y := by
  induction g generalizing us with
  | nil => exact ⟨us, rfl, h⟩
  | cons x g ih =>
    rw [List.mem_cons, not_or] at hg
    cases us with
    | nil => simp at h
    | cons u us =>
      rcases u.glyph_or_tag with ⟨z, rfl⟩ | ⟨⟨k, hk⟩, -⟩
      · obtain ⟨rfl, hrest⟩ := List.cons.inj h
        obtain ⟨ws, rfl, hws⟩ := ih hg.2 hrest
        exact ⟨ws, rfl, hws⟩
      · rw [flat_cons, hk] at h
        exact absurd (List.cons.inj h).1 hg.1

theorem peel_back (hg : Glyph.char '>' ∉ g) (h : flat us = x ++ g) : ∃ ws, us = ws ++ g.map glyph ∧ flat ws = x := by
  induction g using List.reverseRecOn generalizing us with
  | nil => exact ⟨us, (List.append_nil us).symm, by rw [h, List.append_nil]⟩
  | append_singleton g z ih =>
    rw [List.mem_append, List.mem_singleton, not_or] at hg
    rcases List.eq_nil_or_concat' us with rfl | ⟨us, u, rfl⟩
    · simp at h
    · rw [flat_append, ← List.append_assoc] at h
      rcases u.glyph_or_tag with ⟨z', rfl⟩ | ⟨-, k, hk⟩
      · obtain ⟨hrest, hlast⟩ := List.append_inj' h rfl
        obtain rfl : z' = z := by simpa [script] using hlast
        obtain ⟨ws, rfl, hws⟩ := ih hg.1 hrest
        exact ⟨ws, by simp, hws⟩
      · rw [flat_cons, hk, flat_nil, List.append_nil, ← List.append_assoc] at h
        have hlast := (List.append_inj' h rfl).2
        exact absurd (List.cons.inj hlast).1 hg.2

/-- A piece with a character that no tag has, and without the signs of tags around it. -/
theorem cut_glyphs {v w : Script} (hu : ∀ u ∈ us, Formed u) (hd : isMarkup d = false) (hv : Glyph.char '>' ∉ v)
    (hw : Glyph.char '<' ∉ w) (h : flat us = x ++ (v ++ .char d :: w) ++ y) :
    ∃ a b, us = a ++ (v ++ .char d :: w).map glyph ++ b ∧ flat a = x ∧ flat b = y := by
  have hcut : flat us = (x ++ v) ++ .char d :: (w ++ y) := by simp [h]
  obtain ⟨front, back, rfl, hfront, hback⟩ := cut_char hu hd hcut
  obtain ⟨a, rfl, ha⟩ := peel_back hv hfront
  obtain ⟨b, rfl, hb⟩ := peel_front hw hback
  exact ⟨a, b, by simp, ha, hb⟩

theorem exists_of_spell_eq_append {f : Side} {v w : Text} (hv : ';' ∉ v) (h : spell f g = v ++ w) :
    ∃ k, g = ofText v ++ k ∧ spell f k = w := by
  rcases isPrefixOf?_spell hv g with hnone | ⟨k, rfl, -⟩
  · have hread := hnone f
    rw [h, Token.isPrefixOf?_append] at hread
    contradiction
  · rw [spell_append, spell_ofText] at h
    exact ⟨k, rfl, List.append_cancel_left h⟩

/-- A text that begins with a character of no tag, and has no sign of one, stands between two strands. -/
theorem cut_text {f : Side} {u v w : Text} (hu : ∀ u ∈ us, Formed u) (hd : isMarkup d = false ∧ d ∉ Token.alphabet)
    (hv : ';' ∉ v ∧ '<' ∉ v) (h : spell f (flat us) = u ++ (d :: v) ++ w) :
    ∃ a b, us = a ++ (ofText (d :: v)).map glyph ++ b ∧ spell f (flat a) = u ∧ spell f (flat b) = w := by
  rw [List.append_assoc, List.cons_append] at h
  obtain ⟨x, y, hflat, rfl, hy⟩ := exists_of_spell_eq_append_cons hd.2 h
  obtain ⟨a, b, rfl, rfl, rfl⟩ := cut_char hu hd.1 hflat
  obtain ⟨k, hk, rfl⟩ := exists_of_spell_eq_append hv.1 hy
  have hsigns : Glyph.char '<' ∉ ofText v := char_mem_ofText.not.2 hv.2
  obtain ⟨b, rfl, rfl⟩ := peel_front hsigns hk
  exact ⟨a, b, by simp [ofText], rfl, rfl⟩

theorem exists_glyphs {f : Side} (h : '<' ∉ spell f (flat us)) : ∃ g : Script, us = g.map glyph := by
  induction us with
  | nil => exact ⟨[], rfl⟩
  | cons u us ih =>
    rw [flat_cons, spell_append, List.mem_append, not_or] at h
    obtain ⟨g, rfl⟩ := ih h.2
    rcases u.glyph_or_tag with ⟨x, rfl⟩ | ⟨⟨k, hk⟩, -⟩
    · exact ⟨x :: g, rfl⟩
    · rw [hk] at h
      exact absurd (List.mem_append_left _ (List.mem_singleton_self '<')) h.1

theorem formed_of_attributes {front : Text} {attrs : Script} (hu : u.script = ofText front ++ attrs ++ ofText ['>'])
    (hfront : ∀ c ∈ front, isMarkup c = true) (hattrs : ∀ x ∈ attrs, Written s x) : u.Formed := by
  intro d hd
  rw [hu, List.mem_append, List.mem_append, char_mem_ofText, char_mem_ofText, List.mem_singleton] at hd
  rcases hd with (hd | hd) | rfl
  · exact .inl (hfront d hd)
  · exact .inl ((hattrs _ hd).2 d rfl)
  · exact .inl (by decide)

/-- Whether the strand opens and closes no anchor. -/
def Plain : Strand → Prop
  | glyph _ | leaf _ _ => True
  | _ => False

theorem plain_glyphs (g : Script) : ∀ u ∈ g.map glyph, Plain u := by
  intro u hu
  obtain ⟨x, -, rfl⟩ := List.mem_map.1 hu
  exact trivial

end Strand

namespace Spot

theorem formed_of_fits (h : p.Fits s u) : u.Formed := by
  intro d hd
  have htags : ∀ tag ∈ Strand.leafTags, ∀ c ∈ opening tag ++ closing tag, Strand.isMarkup c = true := by decide
  cases u with
  | glyph x =>
    obtain rfl : .char d = x := List.mem_singleton.1 hd
    exact .inr rfl
  | leaf tag n =>
    refine .inl (htags tag h.1 d ?_)
    simpa [Strand.script, ofText] using hd
  | image attrs | opens attrs => exact Strand.formed_of_attributes rfl (by decide) h.2 d hd
  | closes =>
    have hclose : ∀ c ∈ "</a>".toList, Strand.isMarkup c = true := by decide
    refine .inl (hclose d ?_)
    simpa [Strand.script, ofText] using hd

theorem formed (h : p.Admits s us) : ∀ u ∈ us, u.Formed := by
  induction us generalizing p with
  | nil => exact fun u hu => absurd hu List.not_mem_nil
  | cons u us ih => exact List.forall_mem_cons.2 ⟨formed_of_fits h.1, ih h.2⟩

theorem depth_after_plain (hu : ∀ u ∈ us, u.Plain) (h : p.Admits s us) : (p.after us).depth = p.depth := by
  induction us generalizing p with
  | nil => rfl
  | cons u us ih =>
    rw [List.forall_mem_cons] at hu
    rw [after_cons, ih hu.2 h.2]
    cases u with
    | glyph x =>
      cases x with
      | char c => exact depth_next_char h.1
      | token n => exact p.depth_seen
    | leaf => exact p.depth_seen
    | image | opens | closes => exact hu.1.elim

/-- Behind a caret only glyphs and short elements stand, up to the end of the line. -/
theorem plain_of_raised (hline : Glyph.char '\n' ∉ Strand.flat us) (h : raised.Admits s us) :
    (∀ u ∈ us, u.Plain) ∧ raised.after us = raised := by
  induction us with
  | nil => exact ⟨fun u hu => absurd hu List.not_mem_nil, rfl⟩
  | cons u us ih =>
    rw [Strand.flat_cons, List.mem_append, not_or] at hline
    have hfirst : u.Plain ∧ raised.next u = raised := by
      cases u with
      | glyph x =>
        refine ⟨trivial, ?_⟩
        cases x with
        | char c =>
          have hc : c ≠ '\n' := by
            rintro rfl
            exact hline.1 List.mem_cons_self
          simp only [next, if_neg hc]
          split <;> rfl
        | token n => rfl
      | leaf => exact ⟨trivial, rfl⟩
      | image | opens => exact absurd rfl h.1.1
      | closes => exact absurd h.1 (Nat.lt_irrefl 0)
    rw [admits_cons, hfirst.2] at h
    obtain ⟨hplain, hafter⟩ := ih hline.2 h.2
    exact ⟨List.forall_mem_cons.2 ⟨hfirst.1, hplain⟩, by rw [after_cons, hfirst.2, hafter]⟩

/-- A line goes on behind its start with glyphs in which no tag begins. -/
theorem clear_of_glyphs (hp : p ≠ start) (hline : Glyph.char '\n' ∉ g) (h : p.Admits s (g.map Strand.glyph)) :
    ∀ x ∈ g, Strand.Clear s x := by
  induction g generalizing p with
  | nil => exact fun x hx => absurd hx List.not_mem_nil
  | cons x g ih =>
    rw [List.mem_cons, not_or] at hline
    rw [List.map_cons, admits_cons] at h
    have hseen : p.seen ≠ start := by cases p <;> simp [seen]
    rw [List.forall_mem_cons]
    cases x with
    | char c =>
      refine ⟨h.1.1, ih ?_ hline.2 h.2⟩
      have hc : c ≠ '\n' := fun hc => hline.1 (by rw [hc])
      simp only [next, if_neg hc]
      split
      · simp
      · exact hseen
    | token n =>
      have hflat : s.Flat n.1 := h.1.2.resolve_right fun hstart => hp hstart.1
      exact ⟨⟨h.1.1, hflat⟩, ih hseen hline.2 h.2⟩

/-- Where an anchor may not begin, a caret stands before on the line. -/
theorem caret_of_raised (hu : ∀ u ∈ us, u.Formed) (h : p.after us = raised) :
    p = raised ∧ Glyph.char '\n' ∉ Strand.flat us ∨
      ∃ x y, Strand.flat us = x ++ .char '^' :: y ∧ Glyph.char '\n' ∉ y := by
  induction us generalizing p with
  | nil => exact .inl ⟨h, List.not_mem_nil⟩
  | cons u us ih =>
    rw [List.forall_mem_cons] at hu
    rcases ih hu.2 h with ⟨hnext, hline⟩ | ⟨x, y, hsplit, hline⟩
    · by_cases hcaret : u = .glyph (.char '^')
      · subst hcaret
        exact .inr ⟨[], Strand.flat us, rfl, hline⟩
      · have hp : p = raised ∧ Glyph.char '\n' ∉ u.script := by
          have hseen : p.seen = raised → p = raised := by cases p <;> simp [seen]
          have htag : (Glyph.char '\n' ∈ u.script → u = .glyph (.char '\n')) := fun hmem =>
            (hu.1 _ hmem).resolve_left (by decide)
          cases u with
          | glyph x =>
            cases x with
            | char c =>
              simp only [next] at hnext
              split at hnext
              · contradiction
              · next hc =>
                split at hnext
                · next hc => exact absurd (by rw [hc]) hcaret
                · exact ⟨hseen hnext, fun hmem => hc (Glyph.char.inj (List.mem_singleton.1 hmem)).symm⟩
            | token n => exact ⟨hseen hnext, by simp [Strand.script]⟩
          | leaf | image => exact ⟨hseen hnext, fun hmem => Strand.noConfusion (htag hmem)⟩
          | opens | closes => simp [next] at hnext
        refine .inl ⟨hp.1, ?_⟩
        rw [Strand.flat_cons, List.mem_append, not_or]
        exact ⟨hp.2, hline⟩
    · exact .inr ⟨u.script ++ x, y, by rw [Strand.flat_cons, hsplit, List.append_assoc], hline⟩

end Spot

/-- The text is written by strands that begin and end outside of anchors. -/
structure Weaves (s : Store) (us : List Strand) (t : Text) : Prop where
  admits : Spot.start.Admits s us
  level : (Spot.start.after us).depth = 0
  clean : Clean (Strand.flat us)
  known : Known s s (Strand.flat us)
  text : t = spell Prod.fst (Strand.flat us)

def Woven (s : Store) (t : Text) : Prop := ∃ us, Weaves s us t

theorem Spot.spell_snd (h : p.Admits s us) : spell Prod.snd (Strand.flat us) = spell Prod.fst (Strand.flat us) := by
  have hwritten {front attrs back : Script} (hf : spell Prod.snd front = spell Prod.fst front)
      (hb : spell Prod.snd back = spell Prod.fst back) (h : ∀ x ∈ attrs, Strand.Written s x) :
      spell Prod.snd (front ++ attrs ++ back) = spell Prod.fst (front ++ attrs ++ back) := by
    rw [spell_append, spell_append, spell_append, spell_append, hf, hb]
    congr 2
    refine List.flatMap_congr fun x hx => ?_
    cases x with
    | char c => rfl
    | token n => rw [Glyph.spell_token, Glyph.spell_token, (h _ hx).1.1]
  induction us generalizing p with
  | nil => rfl
  | cons u us ih =>
    rw [Strand.flat_cons, spell_append, spell_append, ih h.2]
    congr 1
    cases u with
    | glyph x =>
      cases x with
      | char c => rfl
      | token n =>
        have hn : n.1 = n.2 := h.1.1
        simp [Strand.script, hn]
    | leaf tag n => simp [Strand.script]
    | image attrs | opens attrs => exact hwritten (by simp) rfl h.1.2
    | closes => rw [Strand.script, spell_ofText, spell_ofText]

namespace Weaves

theorem sound (h : Weaves s us t) : Sound s t :=
  ⟨Strand.flat us, h.clean, h.known, h.text, h.text.trans (Spot.spell_snd h.admits).symm⟩

theorem neat (h : Weaves s us t) : Neat (s.detokenize t) := by
  rw [h.text]
  exact Spot.neat_strands h.clean h.admits rfl h.level

theorem formed (h : Weaves s us t) : ∀ u ∈ us, u.Formed := Spot.formed h.admits

theorem mono (h : Weaves s us t) (hle : s.Le s') : Weaves s' us t where
  admits := Spot.admits_mono h.known hle h.admits
  level := h.level
  clean := h.clean
  known := h.known.mono hle hle
  text := h.text

theorem part (h : Weaves s us t) (hv : Strand.flat vs <:+: Strand.flat us) : Clean (Strand.flat vs) ∧
    Known s s (Strand.flat vs) := ⟨h.clean.slice hv, h.known.part (.of_slice hv)⟩

/-- Strands may take the place of others from which they lead to as free a spot. -/
theorem replace (h : Weaves s (a ++ vs ++ b) t) (hle : s.Le s') (hadmits : (Spot.start.after a).Admits s' ws)
    (hspot : Spot.Le ((Spot.start.after a).after vs) ((Spot.start.after a).after ws)) (hsolid : Solid (Strand.flat ws))
    (hknown : Known s' s' (Strand.flat ws)) : Weaves s' (a ++ ws ++ b)
      (spell Prod.fst (Strand.flat a) ++ spell Prod.fst (Strand.flat ws) ++ spell Prod.fst (Strand.flat b)) := by
  have hall := (h.mono hle).admits
  rw [Spot.admits_append, Spot.admits_append, Spot.after_append] at hall
  obtain ⟨⟨ha, -⟩, hb⟩ := hall
  obtain ⟨hb', hafter⟩ := hspot.admits hb
  have hleft : Strand.flat a <:+: Strand.flat (a ++ vs ++ b) := by
    rw [Strand.flat_append, Strand.flat_append, List.append_assoc]
    exact (List.prefix_append _ _).isInfix
  have hright : Strand.flat b <:+: Strand.flat (a ++ vs ++ b) := by
    rw [Strand.flat_append]
    exact (List.suffix_append _ _).isInfix
  have hlevel := h.level
  rw [Spot.after_append, Spot.after_append] at hlevel
  constructor
  · rw [Spot.admits_append, Spot.admits_append, Spot.after_append]
    exact ⟨⟨ha, hadmits⟩, hb'⟩
  · rw [Spot.after_append, Spot.after_append, ← hafter.depth_eq]
    exact hlevel
  · rw [Strand.flat_append, Strand.flat_append]
    exact hsolid _ _ (h.part hleft).1 (h.part hright).1
  · rw [Strand.flat_append, Strand.flat_append]
    exact (((h.part hleft).2.mono hle hle).append hknown).append ((h.part hright).2.mono hle hle)
  · simp

/-- A text that begins with a character of no tag, and has no sign of one, stands between two strands. -/
theorem cut {u v w : Text} (h : Weaves s us (u ++ (d :: v) ++ w)) (hd : Strand.isMarkup d = false ∧ d ∉ Token.alphabet)
    (hv : ';' ∉ v ∧ '<' ∉ v) : ∃ a b, us = a ++ (ofText (d :: v)).map Strand.glyph ++ b ∧
      spell Prod.fst (Strand.flat a) = u ∧ spell Prod.fst (Strand.flat b) = w :=
  Strand.cut_text h.formed hd hv h.text.symm

end Weaves

namespace Woven
variable {v w : Text}

theorem sound (h : Woven s t) : Sound s t := h.elim fun _ h => h.sound

theorem neat (h : Woven s t) : Neat (s.detokenize t) := h.elim fun _ h => h.neat

theorem mono (h : Woven s t) (hle : s.Le s') : Woven s' t := h.imp fun _ h => h.mono hle

theorem before (h : Woven s (v ++ d :: w)) (hd : d ∈ "\n|^".toList) : Woven s v := by
  have hsigns : ∀ d ∈ "\n|^".toList, Strand.isMarkup d = false ∧ d ∉ Token.alphabet := by decide
  obtain ⟨us, h⟩ := h
  rw [← List.singleton_append, ← List.append_assoc] at h
  obtain ⟨a, b, rfl, ha, -⟩ := h.cut (hsigns d hd) (by simp)
  have hleft : Strand.flat a <:+: Strand.flat (a ++ [Strand.glyph (.char d)] ++ b) := by
    rw [Strand.flat_append, Strand.flat_append, List.append_assoc]
    exact (List.prefix_append _ _).isInfix
  have hall := h.admits
  rw [Spot.admits_append, Spot.admits_append] at hall
  exact ⟨a, hall.1.1, hall.1.2.1.2 hd, (h.part hleft).1, (h.part hleft).2, ha.symm⟩

theorem behind_newline (h : Woven s (v ++ '\n' :: w)) : Woven s w := by
  obtain ⟨us, h⟩ := h
  rw [← List.singleton_append, ← List.append_assoc] at h
  obtain ⟨a, b, rfl, -, hb⟩ := h.cut (by decide) (by simp)
  have hright : Strand.flat b <:+: Strand.flat (a ++ [Strand.glyph (.char '\n')] ++ b) := by
    rw [Strand.flat_append]
    exact (List.suffix_append _ _).isInfix
  have hall := h.admits
  have hlevel := h.level
  rw [Spot.admits_append, Spot.after_append] at hall
  rw [Spot.after_append, Spot.after_append] at hlevel
  exact ⟨b, hall.2, hlevel, (h.part hright).1, (h.part hright).2, hb.symm⟩

theorem of_mem_lines (h : Woven s t) (hl : l ∈ t.lines) : Woven s l := by
  obtain ⟨ls, ms, rfl⟩ := Text.exists_of_mem_lines hl
  have hbehind : Woven s (l ++ Text.startLines ms) := by
    have hends := Text.head?_reverse_endLines ls
    rcases List.eq_nil_or_concat' (Text.endLines ls) with hnil | ⟨v, c, hv⟩
    · rwa [hnil] at h
    · obtain rfl : c = '\n' := by simpa [hv] using hends
      rw [hv, List.append_assoc] at h
      exact h.behind_newline
  cases ms with
  | nil => simpa [Text.startLines] using hbehind
  | cons m ms =>
    rw [Text.startLines, List.flatMap_cons, List.cons_append] at hbehind
    exact hbehind.before (by decide)

/-- Characters that belong to no token and open no tag may be taken off the front. -/
theorem drop_front (h : Woven s (w ++ v)) (hsemi : ';' ∉ w) (hsign : '<' ∉ w) : Woven s v := by
  obtain ⟨us, h⟩ := h
  obtain ⟨y, hflat, rfl⟩ := Strand.exists_of_spell_eq_append hsemi h.text.symm
  have hfront : Glyph.char '<' ∉ ofText w := Strand.char_mem_ofText.not.2 hsign
  obtain ⟨b, rfl, rfl⟩ := Strand.peel_front hfront hflat
  have hright : Strand.flat b <:+: Strand.flat ((ofText w).map Strand.glyph ++ b) := by
    rw [Strand.flat_append]
    exact (List.suffix_append _ _).isInfix
  have hall := h.admits
  have hlevel := h.level
  rw [Spot.admits_append] at hall
  rw [Spot.after_append] at hlevel
  have hdepth := Spot.depth_after_plain (Strand.plain_glyphs (ofText w)) hall.1
  obtain ⟨hb, hafter⟩ := (Spot.Le.of_depth hdepth).admits hall.2
  exact ⟨b, hb, hafter.depth_eq.symm.trans hlevel, (h.part hright).1, (h.part hright).2, rfl⟩

end Woven
end Markup
