import Markup.Proofs.Line.Anchors

/-! # Links

A bare address is its own label. In front of an address in parentheses the label is strands of the line, which come to
stand inside of an anchor. -/
namespace Markup.Line
open Pattern Program Script
open Strand (flat)
variable {n i : Nat} {s s' : Store} {us vs a b : List Strand} {t : Text} {found : Match}

theorem bare_link_upholds {target : Text} (h : Weaves s us t) (ho : OrderlyLines t)
    (hf : linkPattern.matcher.find [] t = some found) (hwhole : found.whole = '-' :: '>' :: target) (hne : target ≠ [])
    (hall : ∀ c ∈ target, isAddressChar c = true) :
    Leads dialect n (fun s' new => ∀ x, new = some x → Woven s' (found.replaceBy x))
      (do
        let token ← hide target
        return some (Html.anchor token token)) s := by
  have hline := (link_enclosable hf).line
  obtain ⟨x, w, y, hflat, hx, hw, hy⟩ := exists_cut h (matcher_twin (by decide)) hf
  rw [hwhole] at hw
  obtain ⟨g, rfl, hg⟩ := Strand.exists_of_spell_eq_append (v := "->".toList) (by decide) hw.symm
  have hsign : Glyph.char '<' ∉ Glyph.char '>' :: g := by
    rw [List.mem_cons, not_or]
    refine ⟨by simp, fun hmem => absurd (hall '<' ?_) (by decide)⟩
    rw [← hg]
    exact List.mem_flatMap.2 ⟨_, hmem, List.mem_singleton_self '<'⟩
  obtain ⟨a, b, rfl, rfl, rfl⟩ := Strand.cut_glyphs (v := []) (d := '-') (w := .char '>' :: g) h.formed (by decide)
    List.not_mem_nil hsign hflat
  rw [List.nil_append] at h
  have hspell : spell Prod.fst (.char '-' :: .char '>' :: g) = found.whole := by simp [hwhole, hg]
  have hp : Spot.start.after a ≠ .raised := by
    have hsplit : Weaves s (a ++ ((Glyph.char '-' :: .char '>' :: g).map Strand.glyph ++ b)) t := by simpa using h
    refine not_raised hsplit ho (u := found.whole) (z := found.after) ?_ hline (.inl ?_)
    · rw [Strand.flat_append, Strand.flat_glyphs, spell_append, hspell, hy]
    rw [hwhole]
    exact (List.prefix_append "->".toList target).isInfix
  have hvalue : Sound s target ∧ '<' ∉ s.detokenize target := by
    have hsplit : Weaves s (a ++ [Strand.glyph (.char '-'), .glyph (.char '>')] ++ g.map Strand.glyph ++ b) t := by
      simpa using h
    rw [← hg]
    refine value_of_glyphs hsplit ?_ ?_
    · rw [Spot.after_append]
      exact Spot.next_ne_start (u := .glyph (.char '>')) (by simp)
    · rw [hwhole] at hline
      simp only [List.mem_cons, not_or] at hline
      rw [hg]
      exact hline.2.2
  exact leads_bare [] h hx hy (hspell ▸ hline) hp hvalue.1 hne hvalue.2 rfl (List.cons_ne_nil _ _)

/-- A label without a sign that asks for a spot outside of anchors may stand in an anchor. -/
theorem bridges_label {i : Nat} (h : Weaves s (a ++ vs ++ b) t) (hspot : Spot.start.after a = .level i)
    (habsent : ∀ d ∈ "\n|^".toList, d ∉ spell Prod.fst (flat vs)) :
    ∃ e, Spot.start.after (a ++ vs) = .level e ∧ Bridges s (.level (i + 1)) (.level (e + 1)) vs := by
  have hadmits := h.admits
  rw [Spot.admits_append, Spot.admits_append, hspot] at hadmits
  obtain ⟨e, hout, hdeep, hdeepOut⟩ := Spot.deepen (fun d hd => not_mem_flat (habsent d hd)) hadmits.1.2
  have hslice : flat vs <:+: flat (a ++ vs ++ b) := by
    rw [Strand.flat_append, Strand.flat_append]
    exact List.infix_append _ _ _
  obtain ⟨hclean, hknown⟩ := h.part hslice
  refine ⟨e, ?_, hdeep, hdeepOut, hclean, hknown⟩
  rw [Spot.after_append, hspot, hout]

theorem value_of_target {g : Script} (h : Weaves s (a ++ (ofText ['('] ++ g ++ ofText [')']).map Strand.glyph ++ b) t)
    (hline : '\n' ∉ spell Prod.fst g) : Sound s (spell Prod.fst g) ∧ '<' ∉ s.detokenize (spell Prod.fst g) := by
  have hsplit : Weaves s (a ++ [Strand.glyph (.char '(')] ++ g.map Strand.glyph ++
      (Strand.glyph (.char ')') :: b)) t := by
    simpa [ofText] using h
  refine value_of_glyphs hsplit ?_ hline
  rw [Spot.after_append]
  exact Spot.next_ne_start (u := .glyph (.char '(')) (by simp)

theorem exists_labelled {label target : Text} (h : Weaves s us t)
    (htext : t = found.before ++ found.whole ++ found.after)
    (hwhole : found.whole = "->".toList ++ label ++ '(' :: (target ++ [')']))
    (hall : ∀ c ∈ target, isAddressChar c = true) :
    ∃ a L b, ∃ g : Script, us = a ++ (ofText ('-' :: ['>'])).map Strand.glyph ++ L ++
        (ofText ['('] ++ g ++ ofText [')']).map Strand.glyph ++ b ∧
      found.before = spell Prod.fst (flat a) ∧ spell Prod.fst (flat L) = label ∧ spell Prod.fst g = target ∧
        found.after = spell Prod.fst (flat b) := by
  have hcut : t = found.before ++ ('-' :: ['>']) ++ (label ++ ['('] ++ (target ++ [')'] ++ found.after)) := by
    rw [htext, hwhole]
    simp
  obtain ⟨a, us, rfl, ha, hrest⟩ := (hcut ▸ h).cut (by decide) (by decide)
  obtain ⟨L, us, rfl, hL, hrest⟩ := Strand.cut_text (fun u hu => h.formed u (by simp [hu])) (by decide) (by simp) hrest
  obtain ⟨T, b, rfl, hT, hb⟩ := Strand.cut_text (fun u hu => h.formed u (by simp [hu])) (by decide) (by simp) hrest
  have hsign : '<' ∉ spell Prod.fst (flat T) := by
    rw [hT]
    exact fun hmem => absurd (hall _ hmem) (by decide)
  obtain ⟨g, rfl⟩ := Strand.exists_glyphs hsign
  rw [Strand.flat_glyphs] at hT
  exact ⟨a, L, b, g, by simp, ha.symm, hL, hT, hb.symm⟩

theorem after_arrow (hp : Spot.start.after a ≠ .raised) :
    Spot.start.after (a ++ (ofText ('-' :: ['>'])).map Strand.glyph) = .level (Spot.start.after a).depth := by
  rw [Spot.after_append, ← Spot.seen_eq hp]
  exact Spot.seen_seen _

/-- The address in parentheses leads to a spot that admits no more than the one behind the label. -/
theorem after_target_le {m L : List Strand} {g : Script} {e : Nat}
    (h : Weaves s (a ++ m ++ L ++ g.map Strand.glyph ++ b) t)
    (hline : '\n' ∉ spell Prod.fst g) (hne : g ≠ []) (hbehind : Spot.start.after (a ++ m ++ L) = .level e) :
    Spot.Le ((Spot.start.after a).after (m ++ L ++ g.map Strand.glyph)) (.level e) := by
  have hraised : Spot.start.after (a ++ m ++ L) ≠ .raised := by
    rw [hbehind]
    exact Spot.noConfusion
  have hle := glyphs_le h hline hne hraised
  have hdepth : (Spot.start.after (a ++ m ++ L)).depth = e := congrArg Spot.depth hbehind
  have hafter : (Spot.start.after a).after (m ++ L ++ g.map Strand.glyph) =
      (Spot.start.after (a ++ m ++ L)).after (g.map Strand.glyph) := by
    simp only [Spot.after_append]
  rw [hdepth] at hle
  rwa [hafter]

theorem labelled_link_upholds {label target : Text} (h : Weaves s us t) (ho : OrderlyLines t)
    (htext : t = found.before ++ found.whole ++ found.after)
    (hf : linkPattern.matcher.find [] t = some found)
    (hwhole : found.whole = "->".toList ++ label ++ '(' :: (target ++ [')']))
    (hne : target ≠ []) (hall : ∀ c ∈ target, isAddressChar c = true) :
    Leads dialect n (fun s' new => ∀ x, new = some x → Woven s' (found.replaceBy x))
      (do
        let token ← hide target
        return some (Html.anchor token label)) s := by
  have hline := (link_enclosable hf).line
  obtain ⟨a, L, b, g, rfl, ha, hL, hT, hb⟩ := exists_labelled h htext hwhole hall
  have harrow : "->".toList <:+: found.whole := by
    rw [hwhole, List.append_assoc]
    exact (List.prefix_append _ _).isInfix
  generalize hm : (ofText ('-' :: ['>'])).map Strand.glyph = m at h
  have hp : Spot.start.after a ≠ .raised := by
    rw [List.append_assoc, List.append_assoc, List.append_assoc] at h
    refine not_raised h ho (u := found.whole) (z := found.after) ?_ hline (.inl harrow)
    simp [← hm, hL, hT, hb, hwhole]
  obtain ⟨hpipe, hcaret⟩ := (ho.slice ⟨found.before, found.after, htext.symm⟩ hline).arrow harrow
  have hpart {d : Char} (hd : d ∉ found.whole) : d ∉ label := fun hmem => hd (by simp [hwhole, hmem])
  have habsent : ∀ d ∈ "\n|^".toList, d ∉ spell Prod.fst (flat L) := by
    rw [hL]
    simpa using ⟨hpart hline, hpart hpipe, hpart hcaret⟩
  generalize hparens : ofText ['('] ++ g ++ ofText [')'] = parens at *
  have hsplit : Weaves s (a ++ m ++ L ++ (parens.map Strand.glyph ++ b)) t := by rwa [List.append_assoc _ _ b] at h
  obtain ⟨e, hbehind, hlabel⟩ := bridges_label hsplit (hm ▸ after_arrow hp) habsent
  have hspell : spell Prod.fst parens = '(' :: (target ++ [')']) := by simp [← hparens, hT]
  have hglyphs : '\n' ∉ spell Prod.fst parens := fun hmem => hline (by simp [hwhole, ← hspell, hmem])
  have hvalue : Sound s target ∧ '<' ∉ s.detokenize target := by
    rw [← hT]
    refine value_of_target (hparens ▸ h) fun hmem => hglyphs ?_
    simpa [hspell, hT] using hmem
  have hround : Weaves s (a ++ (m ++ L ++ parens.map Strand.glyph) ++ b) t := by simpa using h
  have hlead := leads_anchor (n := n) [] [] (fun _ => label) (fun _ => L) hp hvalue.1 hne hvalue.2 ⟨rfl, rfl⟩
    (fun i s' hle _ _ => ⟨hlabel.mono hle, hL.symm⟩)
    (after_target_le h hglyphs (by simp [← hparens, ofText]) hbehind)
  simp only [List.append_nil, List.nil_append] at hlead
  exact woven_of_leads hround ha hb hlead

theorem link_upholds : link.Upholds dialect n fun s t => Woven s t ∧ OrderlyLines t := by
  refine upholds_of_weave (by simp [rules, link]) fun s t found ⟨us, h⟩ ho hf htext => ?_
  obtain ⟨caps, ht, hgs⟩ := takes_of_match hf
  rcases link_takes_cases ht with ⟨target, hwhole, hne, hall, rfl⟩ | ⟨label, target, hwhole, -, hlabel, hne, hall, rfl⟩
  · have h₁ : found.group 1 = some target := by
      rw [Match.group, hgs]
      rfl
    have h₂ : found.group 2 = none := by
      rw [Match.group, hgs]
      rfl
    simp only [h₁, h₂]
    exact bare_link_upholds h ho hf hwhole hne hall
  · have h₂ : found.group 2 = some label := by
      rw [Match.group, hgs]
      rfl
    have h₃ : found.group 3 = some target := by
      rw [Match.group, hgs]
      rfl
    simp only [h₂, h₃]
    exact labelled_link_upholds h ho htext hf hwhole hne hall

end Markup.Line
