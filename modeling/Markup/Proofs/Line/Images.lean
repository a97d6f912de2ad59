import Markup.Proofs.Line.Anchors

/-! # Images

The parts between the brackets of an image have no tags, and each comes to stand behind a token. -/
namespace Markup.Line
open Pattern Program Script
open Strand (flat)
variable {n : Nat} {s s' : Store} {p : Spot} {us vs ws a b : List Strand} {t u : Text} {found : Match}

theorem value_mono (h : Sound s u ∧ '<' ∉ s.detokenize u) (hle : s.Le s') : Sound s' u ∧ '<' ∉ s'.detokenize u := by
  have hsame : Same Clean s s' u u := Same.mono h.1 (.refl s) hle
  exact ⟨Same.mono h.1 hle hle, hsame.detokenize_eq ▸ h.2⟩

/-- The source of an image stands behind a token, and so does its label. -/
theorem leads_image {first : Text} {second : Option Text} (hp : p ≠ .raised) (hne : first ≠ [])
    (hfirst : Sound s first ∧ '<' ∉ s.detokenize first)
    (hsecond : ∀ source, second = some source → source ≠ [] ∧ Sound s source ∧ '<' ∉ s.detokenize source)
    (hvs : Spot.Le (p.after vs) p.seen) :
    Leads dialect n (fun s' new => ∀ x, new = some x →
        ∃ ws, x = spell Prod.fst (flat ws) ∧ Fills s' p vs ws ∧ True)
      (do
        let token ← hide first
        match second with
        | some source =>
          let sourceToken ← hide source
          return some (Html.image [("src", sourceToken), ("alt", token), ("title", token)])
        | none => return some (Html.image [("src", token), ("alt", [])])) s := by
  refine leads_token (hfirst.1.filled hne) fun i s' hle hlink htoken => ?_
  have hlabel : s'.Flat i := by
    rw [Store.Flat, htoken]
    exact hfirst.2
  cases second with
  | none =>
    refine leads_pure fun x hx => ?_
    obtain rfl := Option.some.inj hx
    refine ⟨_, (Strand.spell_image_unlabelled i).symm, Fills.image hp ?_ (Strand.known_stamp hlink) hvs, trivial⟩
    exact Strand.written_stamp (by decide) hlabel
  | some source =>
    obtain ⟨hne', hsource⟩ := hsecond source rfl
    obtain ⟨hsound, hvalue⟩ := value_mono hsource hle
    refine leads_token (hsound.filled hne') fun j s' hle' hlink' htoken' => leads_pure fun x hx => ?_
    have hsource : s'.Flat j := by rwa [Store.Flat, htoken']
    obtain rfl := Option.some.inj hx
    refine ⟨_, (Strand.spell_image j i).symm, Fills.image hp ?_ ?_ hvs, trivial⟩
    · exact Strand.written_labelled hsource (hlink.flat_mono hle' hlabel)
    · exact Strand.known_labelled hlink' (hlink.mono hle' hle')

theorem value_of_bracketed {x k y : Script} (hline : '\n' ∉ spell Prod.fst (x ++ k))
    (h : Weaves s (a ++ (ofText "[[".toList ++ (x ++ k ++ y) ++ ofText "]]".toList).map Strand.glyph ++ b) t) :
    Sound s (spell Prod.fst k) ∧ '<' ∉ s.detokenize (spell Prod.fst k) := by
  have hsplit : Weaves s (a ++ (ofText "[[".toList ++ x).map Strand.glyph ++ k.map Strand.glyph ++
      (y.map Strand.glyph ++ (ofText "]]".toList).map Strand.glyph ++ b)) t := by simpa using h
  rw [spell_append, List.mem_append, not_or] at hline
  refine value_of_glyphs hsplit ?_ hline.2
  rw [Spot.after_append]
  refine Spot.after_ne_start (not_mem_flat fun hx => ?_) (by simp [ofText])
  rw [Strand.flat_glyphs, spell_append, spell_ofText] at hx
  rcases List.mem_append.1 hx with hx | hx
  · exact absurd hx (by decide)
  · exact hline.1 hx

theorem image_inner (h : imagePattern.matcher.find [] t = some found) :
    ∃ inner first, found.whole = "[[".toList ++ inner ++ "]]".toList ∧ first ≠ [] ∧
      (inner = first ∧ found.groups = [some first, none] ∨
        ∃ second, inner = first ++ '|' :: second ∧ found.groups = [some first, some second]) := by
  obtain ⟨first, hne, hparts⟩ := image_parts h
  rcases hparts with ⟨hw, hgs⟩ | ⟨second, hw, hgs⟩
  · exact ⟨first, first, hw, hne, .inl ⟨rfl, hgs⟩⟩
  · exact ⟨first ++ '|' :: second, first, by simp [hw], hne, .inr ⟨second, rfl, hgs⟩⟩

theorem exists_image (h : Weaves s us t) (hf : imagePattern.matcher.find [] t = some found)
    (htext : t = found.before ++ found.whole ++ found.after) :
    ∃ a b, ∃ g : Script, us = a ++ g.map Strand.glyph ++ b ∧ g ≠ [] ∧ spell Prod.fst (flat a) = found.before ∧
      spell Prod.fst g = found.whole ∧ spell Prod.fst (flat b) = found.after ∧
      ∃ first second, found.groups = [some first, second] ∧ first ≠ [] ∧
        (Sound s first ∧ '<' ∉ s.detokenize first) ∧
        ∀ source, second = some source → Sound s source ∧ '<' ∉ s.detokenize source := by
  have hline := (image_enclosable hf).line
  obtain ⟨caps, ht, -⟩ := takes_of_match hf
  have hsign : '<' ∉ found.whole := not_mem_of_takes (by decide) ht
  obtain ⟨inner, first, hwhole, hne, hinner⟩ := image_inner hf
  have hcut : t = found.before ++ ('[' :: ['[']) ++ (inner ++ (']' :: [']']) ++ found.after) := by
    rw [htext, hwhole]
    simp
  obtain ⟨a, us, rfl, ha, hrest⟩ := (hcut ▸ h).cut (by decide) (by decide)
  obtain ⟨T, b, rfl, hT, hb⟩ := Strand.cut_text (fun u hu => h.formed u (by simp [hu])) (by decide) (by simp) hrest
  obtain ⟨g, rfl⟩ : ∃ g : Script, T = g.map Strand.glyph := by
    refine Strand.exists_glyphs (f := Prod.fst) fun hmem => hsign ?_
    simp [hwhole, ← hT, hmem]
  rw [Strand.flat_glyphs] at hT
  refine ⟨a, b, ofText "[[".toList ++ g ++ ofText "]]".toList, by simp, by simp [ofText],
    ha, by simp [hwhole, hT], hb, ?_⟩
  have hpart (x k y : Script) (hg : g = x ++ k ++ y) :
      Sound s (spell Prod.fst k) ∧ '<' ∉ s.detokenize (spell Prod.fst k) := by
    subst hg
    refine value_of_bracketed (fun hmem => hline ?_) (by simpa using h)
    rw [hwhole, ← hT, spell_append _ y]
    exact List.mem_append_left _ (List.mem_append_right _ (List.mem_append_left _ hmem))
  rcases hinner with ⟨hinner, hgs⟩ | ⟨second, hinner, hgs⟩
  · subst hinner
    refine ⟨inner, none, hgs, hne, hT ▸ hpart [] g [] (by simp), fun source hs => ?_⟩
    exact absurd hs.symm (Option.some_ne_none source)
  · obtain ⟨x, y, rfl, rfl, rfl⟩ := exists_of_spell_eq_append_cons (by decide) (hT.trans hinner)
    refine ⟨_, _, hgs, hne, hpart [] x (.char '|' :: y) (by simp), fun source hs => ?_⟩
    obtain rfl := Option.some.inj hs
    exact hpart (x ++ [Glyph.char '|']) y [] (by simp)

theorem image_upholds : image.Upholds dialect n fun s t => Woven s t ∧ OrderlyLines t := by
  refine upholds_of_weave (by simp [rules, image]) fun s t found ⟨us, h⟩ ho hf htext => ?_
  have hline := (image_enclosable hf).line
  obtain ⟨a, b, g, rfl, hg, ha, hspell, hb, first, second, hgs, hne, hfirst, hsecond⟩ := exists_image h hf htext
  have h₁ : found.group 1 = some first := by simp [Match.group, hgs]
  have h₂ : found.group 2 = second := by simp [Match.group, hgs]
  have hp : Spot.start.after a ≠ .raised := by
    rw [List.append_assoc] at h
    refine not_raised h ho (u := found.whole) (z := found.after) (by simp [hspell, hb]) hline (.inr (.inr (.inr ?_)))
    obtain ⟨_, tail, _, -, hw, -⟩ := image_shape hf
    rw [hw, List.append_assoc]
    exact (List.prefix_append _ _).isInfix
  have hle := glyphs_le h (hspell ▸ hline) hg hp
  rw [← Spot.seen_eq hp] at hle
  simp only [h₁, h₂]
  refine woven_of_leads h ha.symm hb.symm (leads_image hp hne hfirst (fun source hs => ?_) hle)
  obtain ⟨rfl, hne'⟩ := Option.filter_eq_some_iff.1 hs
  exact ⟨by simpa using hne', hsecond source rfl⟩

end Markup.Line
