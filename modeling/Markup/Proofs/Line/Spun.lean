import Markup.Proofs.Line.Images
import Markup.Proofs.Line.Links
import Markup.Proofs.Line.Weave

/-! # What the line stage leaves behind

Emphasis and superscripts put an element around a token. Emphasis comes first, while there are no anchors: its marks are
strands of their own. The content of a superscript ends at a parenthesis or at white space, so it is strands of its own
too. Plain text is woven into strands, with orderly lines and no emphasis to be found, and the stage may run again over
what it has left behind. -/
namespace Markup.Line
open Pattern Program Script
open Strand (flat)
variable {n : Nat} {s s' : Store} {us a b : List Strand} {t u v content : Text}

/-- The marks are strands of their own, and so is what they enclose. -/
theorem exists_enclosed {mark : Text} (h : Weaves s us (u ++ (mark ++ content ++ mark) ++ v)) (hmark : mark ∈ marks) :
    ∃ a m c b, us = a ++ (m ++ c ++ m) ++ b ∧ m = (ofText mark).map Strand.glyph ∧ m ≠ [] ∧
    spell Prod.fst (flat a) = u ∧
      spell Prod.fst (flat c) = content ∧ spell Prod.fst (flat b) = v := by
  have hmarks : ∀ mark ∈ marks, mark ≠ [] ∧
      ∀ d ∈ mark, (Strand.isMarkup d = false ∧ d ∉ Token.alphabet) ∧ d ≠ ';' ∧ d ≠ '<' := by decide
  obtain ⟨hne, hsigns⟩ := hmarks mark hmark
  obtain ⟨d, w, rfl⟩ := List.exists_cons_of_ne_nil hne
  rw [List.forall_mem_cons] at hsigns
  have hw : ';' ∉ w ∧ '<' ∉ w := ⟨fun hmem => (hsigns.2 _ hmem).2.1 rfl, fun hmem => (hsigns.2 _ hmem).2.2 rfl⟩
  have hfirst : Weaves s us (u ++ (d :: w) ++ (content ++ (d :: w) ++ v)) := by simpa using h
  obtain ⟨a, us, rfl, ha, hrest⟩ := hfirst.cut hsigns.1.1 hw
  obtain ⟨c, b, rfl, hc, hb⟩ := Strand.cut_text (fun u hu => h.formed u (by simp [hu])) hsigns.1.1 hw hrest
  exact ⟨a, _, c, b, by simp, rfl, List.cons_ne_nil _ _, ha, hc, hb⟩

theorem emphasis_upholds (hn : Weaving n) :
    emphasis.Upholds dialect n fun s t => Plainly s t ∧ OrderlyLines t := by
  refine upholds_of_weave (by simp [rules, emphasis]) fun s t found ⟨us, h, hplain⟩ ho hf htext => ?_
  have htags : ∀ mark ∈ marks, emphasisTag mark ∈ Strand.leafTags := by decide
  obtain ⟨mark, hmark, content, hne, hwhole, hgs⟩ := emphasis_shape hf
  have h₁ : found.group 1 = some mark := by simp [Match.group, hgs]
  have h₂ : found.group 2 = some content := by simp [Match.group, hgs]
  simp only [h₁, h₂]
  rw [hwhole] at htext
  obtain ⟨a, m, c, b, rfl, hm, -, ha, hc, hb⟩ := exists_enclosed (htext ▸ h) hmark
  have hspell : spell Prod.fst (flat (m ++ c ++ m)) = found.whole := by simp [hwhole, hm, hc]
  simp only [List.forall_mem_append] at hplain
  have hdepth : ((Spot.start.after a).after m).depth = 0 := by
    have hadmits := h.admits
    simp only [Spot.admits_append] at hadmits
    have hfront : Spot.start.Admits s (a ++ m) := Spot.admits_append.2 ⟨hadmits.1.1, hadmits.1.2.1.1⟩
    rw [← Spot.after_append]
    exact Spot.depth_after_plain (List.forall_mem_append.2 ⟨hplain.1.1, hplain.1.2.1.1⟩) hfront
  have hmiddle : ∀ u ∈ m ++ c ++ m, u.Plain := by
    simp only [List.forall_mem_append]
    exact hplain.1.2
  have hround := leads_element hn (htags mark hmark) h ho hmiddle hdepth hne hc
    (hspell ▸ emphasis_line hf) ha.symm hb.symm
  refine hround.imp fun s' new _ hnew x hx => ?_
  obtain ⟨ws, hws, hplain'⟩ := hnew x hx
  refine ⟨_, hws, ?_⟩
  simp only [List.forall_mem_append]
  exact ⟨⟨hplain.1.1, hplain'⟩, hplain.2⟩

theorem superscript_stops {behind : Text} {m : Match} (h : superscriptPattern.matcher.find behind t = some m) :
    (∃ inner, m.whole = '^' :: '(' :: inner ++ [')']) ∨ m.after.head?.any (!isSpace ·) = false := by
  rw [matcher_eq] at h
  obtain ⟨r, hr, hhit⟩ := Option.map_eq_some_iff.1 (superscriptPattern.scanner_lawful.hit_of_search h)
  obtain ⟨_, _, e, hpast, ⟨rfl, -⟩, he⟩ := walk_takes (p := word "^") hr
  rw [walk_group, walk_orElse, Option.orElse_eq_orElse, Option.orElse_eq_or, Option.or_eq_some_iff] at he
  rcases he with he | ⟨-, he⟩
  · obtain ⟨w, _, e', hpast', htakes, he'⟩ := walk_takes he
    simp only [takes_append, takes_word, takes_reluctant] at htakes
    obtain ⟨_, _, _, _, rfl, -, ⟨_, inner, _, _, rfl, -, ⟨rfl, -⟩, -⟩, rfl, -⟩ := htakes
    obtain rfl := Option.some.inj he'
    have hafter : e'.ahead = m.after := congrArg Hit.rest hhit
    have hahead : m.whole ++ m.after = "^".toList ++ e.ahead := hpast.ahead
    rw [hpast'.ahead, hafter, ← List.append_assoc] at hahead
    exact .inl ⟨inner, by simpa using List.append_cancel_right hahead⟩
  · obtain ⟨e', he', hrest⟩ := walk_atLeast_ends (fun _ => Option.some_ne_none _) he
    obtain rfl := Option.some.inj he'
    have hafter : e'.ahead = m.after := congrArg Hit.rest hhit
    exact .inr (hafter ▸ hrest)

/-- The content of a superscript ends at a parenthesis or at white space. -/
theorem superscript_reach {m : Match} (h : superscriptPattern.matcher.find [] t = some m) :
    ∃ content, m.whole = '^' :: content ∧ m.groups = [some content] ∧ content ≠ [] ∧
      ((∃ inner, content = inner ++ [')']) ∨
        (∀ c ∈ content, isSpace c = false) ∧ m.after.head?.any (!isSpace ·) = false) := by
  obtain ⟨content, hwhole, hgs, hparts⟩ := superscript_parts h
  refine ⟨content, hwhole, hgs, ?_⟩
  rcases hparts with ⟨inner, rfl, -⟩ | ⟨hne, hspace⟩
  · exact ⟨List.cons_ne_nil _ _, .inl ⟨'(' :: inner, rfl⟩⟩
  · refine ⟨hne, ?_⟩
    rcases superscript_stops h with ⟨inner, hstop⟩ | hstop
    · exact .inl ⟨'(' :: inner, (List.cons.inj (hwhole.symm.trans hstop)).2⟩
    · exact .inr ⟨hspace, hstop⟩

theorem exists_raised (h : Spot.raised.Admits s us) (htext : spell Prod.fst (flat us) = content ++ v)
    (hends : (∃ inner, content = inner ++ [')']) ∨
      (∀ c ∈ content, isSpace c = false) ∧ v.head?.any (!isSpace ·) = false) :
    ∃ c b, us = c ++ b ∧ spell Prod.fst (flat c) = content ∧ spell Prod.fst (flat b) = v := by
  rcases hends with ⟨inner, rfl⟩ | ⟨hspace, hv⟩
  · obtain ⟨c, b, rfl, hc, hb⟩ := Strand.cut_text (d := ')') (v := []) (Spot.formed h) (by decide) (by simp) htext
    exact ⟨c ++ [Strand.glyph (.char ')')], b, by simp [ofText], by simp [hc, Strand.script], hb⟩
  · cases v with
    | nil => exact ⟨us, [], by simp, by simpa using htext, rfl⟩
    | cons d v =>
      have hd : isSpace d = true := by simpa using hv
      have hfree : d ∉ Token.alphabet := not_mem_alphabet_of_isMargin (isMargin_of_isSpace hd)
      obtain ⟨x, y, hflat, rfl, rfl⟩ := exists_of_spell_eq_append_cons hfree htext
      have hline : Glyph.char '\n' ∉ x := fun hmem =>
        absurd (hspace '\n' (List.mem_flatMap.2 ⟨_, hmem, List.mem_singleton_self '\n'⟩)) (by decide)
      obtain ⟨c, b, rfl, rfl, rfl⟩ := Spot.cut_raised hline hd h hflat
      exact ⟨c, .glyph (.char d) :: b, rfl, rfl, rfl⟩

theorem exists_superscript (h : Weaves s us (u ++ '^' :: content ++ v)) (hline : '\n' ∉ content)
    (hends : (∃ inner, content = inner ++ [')']) ∨
      (∀ c ∈ content, isSpace c = false) ∧ v.head?.any (!isSpace ·) = false) :
    ∃ a c b, us = a ++ ((ofText ['^']).map Strand.glyph ++ c) ++ b ∧ (∀ u ∈ c, u.Plain) ∧
      spell Prod.fst (flat a) = u ∧ spell Prod.fst (flat c) = content ∧ spell Prod.fst (flat b) = v := by
  have hcaret : Weaves s us (u ++ ['^'] ++ (content ++ v)) := by simpa using h
  obtain ⟨a, us, rfl, ha, hrest⟩ := hcaret.cut (by decide) (by simp)
  have hraised : (Spot.start.after a).after ((ofText ['^']).map Strand.glyph) = .raised := rfl
  have hadmits := h.admits
  rw [Spot.admits_append, Spot.after_append, hraised] at hadmits
  obtain ⟨c, b, rfl, hc, hb⟩ := exists_raised hadmits.2 hrest hends
  have hcline : Glyph.char '\n' ∉ flat c := not_mem_flat fun hmem => hline (hc ▸ hmem)
  have hplain := (Spot.plain_of_raised hcline (Spot.admits_append.1 hadmits.2).1).1
  exact ⟨a, c, b, by simp, hplain, ha, hc, hb⟩

theorem superscript_upholds (hn : Weaving n) :
    superscript.Upholds dialect n fun s t => Woven s t ∧ OrderlyLines t := by
  refine upholds_of_weave (by simp [rules, superscript]) fun s t found ⟨us, h⟩ ho hf htext => ?_
  have htag : "sup" ∈ Strand.leafTags := by decide
  obtain ⟨content, hwhole, hgs, hne, hends⟩ := superscript_reach hf
  have h₁ : found.group 1 = some content := by simp [Match.group, hgs]
  simp only [h₁]
  have hline := (superscript_enclosable hf).line
  have hcaret : Weaves s us (found.before ++ '^' :: content ++ found.after) := by rwa [htext, hwhole] at h
  obtain ⟨a, c, b, rfl, hcontent, ha, hc, hb⟩ :=
    exists_superscript hcaret (fun hmem => hline (by simp [hwhole, hmem])) hends
  have hplain : ∀ u : Strand, u ∈ (ofText ['^']).map Strand.glyph ++ c ++ [] → u.Plain := by
    simp only [List.forall_mem_append]
    exact ⟨⟨Strand.plain_glyphs _, hcontent⟩, by simp⟩
  have hsplit : Weaves s (a ++ ((ofText ['^']).map Strand.glyph ++ c ++ []) ++ b) t := by simpa using h
  have hspell : spell Prod.fst (flat ((ofText ['^']).map Strand.glyph ++ c ++ [])) = found.whole := by simp [hwhole, hc]
  have hdepth : ((Spot.start.after a).after ((ofText ['^']).map Strand.glyph)).depth = 0 := rfl
  have hround := leads_element hn htag hsplit ho hplain hdepth hne hc (hspell ▸ hline) ha.symm hb.symm
  refine hround.imp fun s' new _ hnew x hx => ?_
  obtain ⟨ws, hws, -⟩ := hnew x hx
  exact ⟨_, hws⟩

theorem later_uphold (hn : Weaving n) : ∀ r ∈ [link, image, mail, mention, hashtag, superscript],
    r.Upholds dialect n fun s t => Woven s t ∧ OrderlyLines t := by
  simp only [List.forall_mem_cons]
  exact ⟨link_upholds, image_upholds, mail_upholds, mention_upholds, hashtag_upholds, superscript_upholds hn,
    fun r hr => absurd hr List.not_mem_nil⟩

/-- What the line stage leaves behind. -/
structure Spun (s : Store) (t : Text) : Prop where
  woven : Woven s t
  orderly : OrderlyLines t
  quiet : emphasis.Quiet t

/-- It is enough to see what emphasis does. -/
theorem spun_of_run (hn : Weaving n) {out : Text} (he : dialect.run (n + 1) .line t s = some (out, s'))
    (hfirst : ∀ u mid, emphasis.apply (dialect.run n) n t s = some (u, mid) →
      s.Le mid ∧ Woven mid u ∧ OrderlyLines u) : s.Le s' ∧ Spun s' out := by
  have hrun : applyAll (dialect.run n) n rules t s = some (out, s') := he
  have hne : emphasis ≠ link := fun h => absurd (congrArg Rule.name h) (by decide)
  have hquiet : emphasis.Quiet out := quiet_of_run ⟨n, hrun⟩ emphasis List.mem_cons_self hne
  rw [rules, applyAll] at hrun
  split at hrun
  · next u mid hu =>
    obtain ⟨hle, hwoven⟩ := hfirst u mid hu
    obtain ⟨hle', hout⟩ := Grammar.upholds_of_rules (later_uphold hn) n hwoven hrun
    exact ⟨hle.trans hle', hout.1, hout.2, hquiet⟩
  · contradiction

theorem spun_of_plainly (hn : Weaving n) {out : Text} (ht : Plainly s t) (ho : OrderlyLines t)
    (he : dialect.run (n + 1) .line t s = some (out, s')) : s.Le s' ∧ Spun s' out := by
  refine spun_of_run hn he fun u mid hu => ?_
  obtain ⟨hle, hplain, hlines⟩ := emphasis_upholds hn n s t u mid ⟨ht, ho⟩ hu
  exact ⟨hle, hplain.woven, hlines⟩

theorem weaving (n : Nat) : Weaving n := by
  induction n with
  | zero =>
    intro s t out s' _ _ he
    simp [Grammar.run] at he
  | succ n ih =>
    intro s t out s' ht ho he
    exact (spun_of_plainly ih ht ho he).2.woven

/-- The stage may run again over what it has left behind. -/
theorem Spun.run {out : Text} (h : Spun s t) (he : dialect.run n .line t s = some (out, s')) :
    s.Le s' ∧ Spun s' out := by
  cases n with
  | zero => simp [Grammar.run] at he
  | succ n =>
    refine spun_of_run (weaving n) he fun u mid hu => ?_
    obtain ⟨rfl, rfl⟩ := Rule.apply_of_quiet h.quiet rfl hu
    exact ⟨.refl _, h.woven, h.orderly⟩

end Markup.Line
