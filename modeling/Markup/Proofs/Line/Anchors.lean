import Markup.Proofs.Line.Weave

/-! # Anchors

An orderly line has no caret before an anchor, and no pipe or caret within one. The target of an anchor stands behind a
token. Mentions, hashtags and mail addresses are their own labels. -/
namespace Markup.Line
open Pattern Program Script
open Strand (flat)
variable {n i : Nat} {s s' : Store} {p : Spot} {vs ws a b : List Strand} {t u : Text} {found : Match}

theorem mem_of_mem_spell {g : Script} {d : Char} (hd : d ∉ Token.alphabet) (h : d ∈ spell Prod.fst g) :
    Glyph.char d ∈ g := by
  obtain ⟨x, hx, hmem⟩ := List.mem_flatMap.1 h
  cases x with
  | char c =>
    obtain rfl := List.mem_singleton.1 hmem
    exact hx
  | token n => exact absurd (Token.mem_alphabet hmem) hd

/-- No anchor or image begins behind a caret. -/
theorem not_raised {z : Text} (h : Weaves s (a ++ b) t) (ho : OrderlyLines t) (hb : spell Prod.fst (flat b) = u ++ z)
    (hline : '\n' ∉ u) (hsign : "->".toList <:+: u ∨ '@' ∈ u ∨ '#' ∈ u ∨ "[[".toList <:+: u) :
    Spot.start.after a ≠ .raised := by
  intro hraised
  have hformed : ∀ v ∈ a, v.Formed := fun v hv => h.formed v (List.mem_append_left b hv)
  rcases Spot.caret_of_raised hformed hraised with ⟨hstart, -⟩ | ⟨x, y, hxy, hy⟩
  · contradiction
  · have hyline : '\n' ∉ spell Prod.fst y := fun hmem => hy (mem_of_mem_spell (by decide) hmem)
    have htext : t = spell Prod.fst x ++ ('^' :: (spell Prod.fst y ++ u)) ++ z := by
      rw [h.text, Strand.flat_append, spell_append, hb, hxy]
      simp
    have hpart : Orderly ('^' :: (spell Prod.fst y ++ u)) := by
      refine ho.slice ⟨spell Prod.fst x, z, htext.symm⟩ ?_
      simp [hyline, hline]
    obtain ⟨hat, hhash, himage⟩ := hpart.caret [] _ rfl
    have hbehind : u <:+: spell Prod.fst y ++ u := (List.suffix_append _ _).isInfix
    rcases hsign with harrow | hmem | hmem | hmem
    · exact (hpart.arrow (harrow.trans (hbehind.trans (List.suffix_cons _ _).isInfix))).2 List.mem_cons_self
    · exact hat (hbehind.subset hmem)
    · exact hhash (hbehind.subset hmem)
    · exact himage (hmem.trans hbehind)

theorem value_of_glyphs {g : Script} (h : Weaves s (a ++ g.map Strand.glyph ++ b) t) (hp : Spot.start.after a ≠ .start)
    (hline : '\n' ∉ spell Prod.fst g) : Sound s (spell Prod.fst g) ∧ '<' ∉ s.detokenize (spell Prod.fst g) := by
  have hslice : flat (g.map Strand.glyph) <:+: flat (a ++ g.map Strand.glyph ++ b) := by
    rw [Strand.flat_append, Strand.flat_append]
    exact List.infix_append _ _ _
  obtain ⟨hclean, hknown⟩ := h.part hslice
  have hadmits := h.admits
  rw [Spot.admits_append, Spot.admits_append] at hadmits
  have hsnd := Spot.spell_snd hadmits.1.2
  rw [Strand.flat_glyphs] at hclean hknown hsnd
  have hchar : Glyph.char '\n' ∉ g := fun hmem => hline (List.mem_flatMap.2 ⟨_, hmem, List.mem_singleton_self '\n'⟩)
  exact ⟨⟨g, hclean, hknown, rfl, hsnd.symm⟩,
    Strand.not_mem_of_clear hclean (Spot.clear_of_glyphs hp hchar hadmits.1.2)⟩

theorem leads_anchor {target : Text} {e : Nat} (before after : Text) (label : Text → Text) (L : Nat → List Strand)
    (hp : p ≠ .raised) (hsound : Sound s target) (hne : target ≠ []) (hflat : '<' ∉ s.detokenize target)
    (htag : Strand.tagged before = true ∧ Strand.tagged after = true)
    (hlabel : ∀ i s', s.Le s' → Linked s' s' (i, i) → s'.Flat i →
      Bridges s' (.level (p.depth + 1)) (.level (e + 1)) (L i) ∧ label (Token.ofId i) = spell Prod.fst (flat (L i)))
    (hvs : Spot.Le (p.after vs) (.level e)) :
    Leads dialect n (fun s' new => ∀ x, new = some x →
        ∃ ws, x = spell Prod.fst (flat ws) ∧ Fills s' p vs ws ∧ True)
      (do
        let token ← hide target
        return some (Html.anchor (before ++ token ++ after) (label token))) s := by
  refine leads_token (hsound.filled hne) fun i s' hle hlink htoken => leads_pure fun x hx => ?_
  have hvalue : s'.Flat i := by rwa [Store.Flat, htoken]
  obtain ⟨hbridge, htext⟩ := hlabel i s' hle hlink hvalue
  have hbefore : Strand.tagged ("href=\"".toList ++ before) = true := by
    rw [Strand.tagged_append, htag.1]
    decide
  have hafter : Strand.tagged (after ++ ['"']) = true := by
    rw [Strand.tagged_append, htag.2]
    decide
  obtain rfl := Option.some.inj hx
  have hwritten := Strand.written_stamp ⟨hbefore, hafter⟩ hvalue
  refine ⟨_, ?_, Fills.anchor hp hwritten (Strand.known_stamp hlink) hbridge hvs, trivial⟩
  rw [Strand.spell_anchor, htext]

/-- Glyphs on a line lead to no spot that admits more. -/
theorem glyphs_le {g : Script} (h : Weaves s (a ++ g.map Strand.glyph ++ b) t) (hline : '\n' ∉ spell Prod.fst g)
    (hne : g ≠ []) (hp : Spot.start.after a ≠ .raised) :
    Spot.Le ((Spot.start.after a).after (g.map Strand.glyph)) (.level (Spot.start.after a).depth) := by
  have hadmits := h.admits
  rw [Spot.admits_append, Spot.admits_append] at hadmits
  rw [← Spot.seen_eq hp]
  refine Spot.after_le_seen (Strand.plain_glyphs g) (not_mem_flat ?_) (by simpa using hne) hadmits.1.2
  rwa [Strand.flat_glyphs]

theorem woven_of_leads {q : Program (Option Text)} (h : Weaves s (a ++ vs ++ b) t)
    (hbefore : found.before = spell Prod.fst (flat a)) (hafter : found.after = spell Prod.fst (flat b))
    (hq : Leads dialect n (fun s' new => ∀ x, new = some x →
      ∃ ws, x = spell Prod.fst (flat ws) ∧ Fills s' (Spot.start.after a) vs ws ∧ True) q s) :
    Leads dialect n (fun s' new => ∀ x, new = some x → Woven s' (found.replaceBy x)) q s := by
  refine (leads_weave h hbefore hafter hq).imp fun s' new _ hnew x hx => ?_
  obtain ⟨ws, hws, -⟩ := hnew x hx
  exact ⟨_, hws⟩

theorem sound_of_handle {name : Text} (h : ∀ c ∈ name, c ≠ ';' ∧ c ≠ '<') :
    Sound s name ∧ '<' ∉ s.detokenize name := by
  have hsemi : ';' ∉ name := fun hmem => (h _ hmem).1 rfl
  rw [s.detokenize_of_marker fun hm => hsemi (hm.subset (by decide))]
  exact ⟨same_of_not_mem hsemi, fun hmem => (h _ hmem).2 rfl⟩

/-- A mention or a tag is strands of its own, and its name stands for itself. -/
theorem exists_handle {us : List Strand} {sign : String} {c : Char} (h : Weaves s us t)
    (hsign : sign.toList = [c]) (hc : c = '@' ∨ c = '#')
    (hf : (word sign ++ group 1 (atLeast 1 isHandleChar)).matcher.find [] t = some found)
    (htext : t = found.before ++ found.whole ++ found.after) :
    ∃ a b name, us = a ++ (ofText (c :: name)).map Strand.glyph ++ b ∧ spell Prod.fst (flat a) = found.before ∧
      spell Prod.fst (flat b) = found.after ∧ found.group 1 = some name ∧ name ≠ [] ∧ '\n' ∉ c :: name ∧
      Sound s name ∧ '<' ∉ s.detokenize name := by
  have hfirst : (Strand.isMarkup c = false ∧ c ∉ Token.alphabet) ∧ c ≠ '\n' := by
    rcases hc with rfl | rfl
    · decide
    · decide
  obtain ⟨name, hne, hall, hw, hgs⟩ := handle_shape hf
  have hwhole : found.whole = c :: name := by rw [hw, hsign]; rfl
  have hchars : ∀ d ∈ name, d ≠ '\n' ∧ d ≠ ';' ∧ d ≠ '<' := fun d hd => by
    refine ⟨?_, ?_, ?_⟩
    all_goals
      rintro rfl
      exact absurd (hall _ hd) (by decide)
  have hline : '\n' ∉ c :: name := by
    rw [List.mem_cons, not_or]
    exact ⟨Ne.symm hfirst.2, fun hmem => (hchars _ hmem).1 rfl⟩
  have hfree : ';' ∉ name ∧ '<' ∉ name := ⟨fun hmem => (hchars _ hmem).2.1 rfl, fun hmem => (hchars _ hmem).2.2 rfl⟩
  rw [hwhole] at htext
  obtain ⟨a, b, rfl, ha, hb⟩ := (htext ▸ h).cut hfirst.1 hfree
  exact ⟨a, b, name, rfl, ha, hb, by simp [Match.group, hgs], hne, hline,
    sound_of_handle fun d hd => (hchars d hd).2⟩

theorem handle_upholds {name sign : String} {c : Char} (before after : Text) {f : Match → Program (Option Text)}
    (hf : ∀ m name, m.group 1 = some name → f m = do
      let token ← hide name
      return some (Html.anchor (before ++ token ++ after) (c :: token)))
    (hsign : sign.toList = [c]) (hc : c = '@' ∨ c = '#')
    (htag : Strand.tagged before = true ∧ Strand.tagged after = true)
    (hr : Rule.pattern name (word sign ++ group 1 (atLeast 1 isHandleChar)).matcher f ∈ rules) :
    (Rule.pattern name (word sign ++ group 1 (atLeast 1 isHandleChar)).matcher f).Upholds dialect n
      fun s t => Woven s t ∧ OrderlyLines t := by
  refine upholds_of_weave hr fun s t found ⟨us, h⟩ ho hfind htext => ?_
  have hbare : c ≠ '<' ∧ c ∉ "\n|^".toList ∧ c ≠ ';' := by
    rcases hc with rfl | rfl
    · decide
    · decide
  obtain ⟨a, b, name, rfl, ha, hb, h₁, hne, hline, hsound, hflat⟩ := exists_handle h hsign hc hfind htext
  have hp : Spot.start.after a ≠ .raised := by
    have hsplit : Weaves s (a ++ ((ofText (c :: name)).map Strand.glyph ++ b)) t := by simpa using h
    refine not_raised hsplit ho (u := c :: name) (z := found.after) (by simp [hb]) hline ?_
    rcases hc with rfl | rfl
    · exact .inr (.inl List.mem_cons_self)
    · exact .inr (.inr (.inl List.mem_cons_self))
  rw [hf found name h₁]
  have hle := glyphs_le h (by simpa using hline) (List.cons_ne_nil _ _) hp
  refine woven_of_leads h ha.symm hb.symm (leads_anchor before after (c :: ·)
    (fun i => (ofText [c]).map Strand.glyph ++ [Strand.glyph (.token (i, i))]) hp hsound hne hflat htag
    (fun i s' _ hlink hvalue => ⟨?_, ?_⟩) hle)
  · exact bridges_token (List.forall_mem_singleton.2 hbare) hlink hvalue
  · simp [ofText, Strand.script]

theorem mention_upholds : mention.Upholds dialect n fun s t => Woven s t ∧ OrderlyLines t := by
  refine handle_upholds (c := '@') "http://twitter.com/".toList [] (fun m name h => ?_) rfl (.inl rfl) (by decide) ?_
  · simp only [h, List.append_nil]
  · exact List.mem_of_getElem? (i := 4) rfl

theorem hashtag_upholds : hashtag.Upholds dialect n fun s t => Woven s t ∧ OrderlyLines t := by
  refine handle_upholds (c := '#') "http://twitter.com/search?q=%23".toList "&src=hash".toList (fun m name h => ?_) rfl
    (.inr rfl) (by decide) ?_
  · simp only [h]
  · exact List.mem_of_getElem? (i := 5) rfl

theorem leads_bare {g : Script} (before : Text) (h : Weaves s (a ++ g.map Strand.glyph ++ b) t)
    (hbefore : found.before = spell Prod.fst (flat a)) (hafter : found.after = spell Prod.fst (flat b))
    (hline : '\n' ∉ spell Prod.fst g) (hp : Spot.start.after a ≠ .raised) (hsound : Sound s u) (hne : u ≠ [])
    (hflat : '<' ∉ s.detokenize u) (htag : Strand.tagged before = true) (hg : g ≠ []) :
    Leads dialect n (fun s' new => ∀ x, new = some x → Woven s' (found.replaceBy x))
      (do
        let token ← hide u
        return some (Html.anchor (before ++ token) token)) s := by
  have hlead := leads_anchor (n := n) before [] id (fun i => [.glyph (.token (i, i))]) hp hsound hne hflat ⟨htag, rfl⟩
    (fun i s' _ hlink hvalue =>
      ⟨bridges_token (fun _ h => absurd h List.not_mem_nil) hlink hvalue, by simp [Strand.script]⟩)
    (glyphs_le h hline hg hp)
  simp only [List.append_nil] at hlead
  exact woven_of_leads h hbefore hafter hlead

theorem exists_mail {us : List Strand} (h : Weaves s us t) (hf : mailPattern.matcher.find [] t = some found) :
    ∃ a b, us = a ++ (ofText found.whole).map Strand.glyph ++ b ∧ found.before = spell Prod.fst (flat a) ∧
      found.after = spell Prod.fst (flat b) ∧ '@' ∈ found.whole ∧ '\n' ∉ found.whole ∧
      Sound s found.whole ∧ '<' ∉ s.detokenize found.whole := by
  obtain ⟨x, w, y, hflat, hx, hw, hy⟩ := exists_cut h (matcher_twin (by decide)) hf
  obtain ⟨caps, ht, -⟩ := takes_of_match hf
  obtain ⟨hmail, -, -⟩ := mail_takes_iff.1 ⟨caps, ht⟩
  have hline := hmail.enclosable.line
  have hchars : ∀ d ∈ found.whole, d ≠ ';' ∧ d ≠ '<' ∧ d ≠ '>' := fun d hd => by
    refine ⟨?_, ?_, ?_⟩
    all_goals
      rintro rfl
      exact absurd (hmail.forall _ hd) (by decide)
  have hvalue := sound_of_handle (s := s) fun d hd => ⟨(hchars d hd).1, (hchars d hd).2.1⟩
  obtain ⟨k, rfl, hk⟩ := Strand.exists_of_spell_eq_append (fun hmem => (hchars _ hmem).1 rfl)
    (hw.symm.trans (List.append_nil found.whole).symm)
  obtain rfl := spell_eq_nil.1 hk
  obtain ⟨user, host, domain, hparts, -⟩ := hmail
  generalize hrest : host ++ '.' :: domain = rest at hparts
  have hwhole : found.whole = user ++ '@' :: rest := by rw [hparts, ← hrest]; simp
  have hsigns {v : Text} {d : Char} (hv : v ⊆ found.whole) (hd : d ∉ found.whole) : Glyph.char d ∉ ofText v := by
    simpa [ofText] using fun hmem => hd (hv hmem)
  have hscript : ofText found.whole = ofText user ++ .char '@' :: ofText rest := by simp [hwhole, ofText]
  rw [List.append_nil, hscript] at hflat
  obtain ⟨a, b, rfl, rfl, rfl⟩ := Strand.cut_glyphs h.formed (by decide)
    (hsigns (by simp [hwhole]) fun hmem => (hchars _ hmem).2.2 rfl)
    (hsigns (by simp [hwhole]) fun hmem => (hchars _ hmem).2.1 rfl) hflat
  exact ⟨a, b, by rw [hscript], hx, hy, by simp [hwhole], hline, hvalue⟩

theorem mail_upholds : mail.Upholds dialect n fun s t => Woven s t ∧ OrderlyLines t := by
  refine upholds_of_weave (by simp [rules, mail]) fun s t found ⟨us, h⟩ ho hf htext => ?_
  obtain ⟨a, b, rfl, hx, hy, hat, hline, hsound, hvalue⟩ := exists_mail h hf
  have hsplit : Weaves s (a ++ ((ofText found.whole).map Strand.glyph ++ b)) t := by simpa using h
  have hp : Spot.start.after a ≠ .raised :=
    not_raised hsplit ho (u := found.whole) (z := found.after) (by simp [hy]) hline (.inr (.inl hat))
  have hne : found.whole ≠ [] := List.ne_nil_of_mem hat
  exact leads_bare _ h hx hy (by simpa using hline) hp hsound hne hvalue (by decide) (by simpa [ofText] using hne)

end Markup.Line
