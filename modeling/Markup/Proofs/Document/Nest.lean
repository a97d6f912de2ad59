import Markup.Proofs.Block.Nest
import Markup.Proofs.Dialect.Twin
import Markup.Proofs.Document.Trim

/-! # What the line stage is given

Code is hidden behind tokens at the starts of lines and escaped characters behind tokens without tags, so the text is
plain when the line stage begins, and its lines promise what they promised in the document. -/
namespace Markup.Document
open Pattern Program Script
open Line (Orderly Trimmed Flush)
open Text (lines trimLines trimEnd)
variable {s s' : Store} {t u v l : Text} {g : Script} {k : Script.Match} {n i : Nat}

/-- A script in which no tag begins, but in tokens at the starts of lines. -/
structure Bare (s : Store) (g : Script) : Prop where
  early : Early g
  known : Known s s g
  admits : Spot.start.Admits s (g.map Strand.glyph)

namespace Bare

theorem weaves (h : Bare s g) : Weaves s (g.map Strand.glyph) (spell Prod.fst g) where
  admits := h.admits
  level := Spot.depth_after_plain (Strand.plain_glyphs g) h.admits
  clean := by
    rw [Strand.flat_glyphs]
    exact h.early.1
  known := by
    rw [Strand.flat_glyphs]
    exact h.known
  text := by rw [Strand.flat_glyphs]

theorem not_mem (h : Bare s g) : '<' ∉ spell Prod.fst g := by
  intro hmem
  obtain ⟨u, v, hsplit⟩ := List.append_of_mem hmem
  obtain ⟨a, b, rfl, -, -⟩ := exists_of_spell_eq_append_cons (by decide) hsplit
  have hall := h.admits
  rw [List.map_append, Spot.admits_append] at hall
  exact hall.2.1.1 rfl

theorem ofText (ht : ¬ Token.marker <:+: t) (hsign : '<' ∉ t) (s : Store) : Bare s (ofText t) where
  early := early_ofText ht
  known := fun k hk => by simp [Script.ofText] at hk
  admits := by
    suffices hall : ∀ p : Spot, p.depth = 0 → p.Admits s ((Script.ofText t).map Strand.glyph) from hall .start rfl
    clear ht
    induction t with
    | nil => exact fun p _ => trivial
    | cons c t ih =>
      rw [List.mem_cons, not_or] at hsign
      intro p hp
      have hfits : p.Fits s (.glyph (.char c)) := ⟨Ne.symm hsign.1, fun _ => hp⟩
      have hplain : ∀ u ∈ [Strand.glyph (.char c)], u.Plain := List.forall_mem_singleton.2 trivial
      have hdepth := Spot.depth_after_plain hplain ⟨hfits, trivial⟩
      exact ⟨hfits, ih hsign.2 _ (hdepth.trans hp)⟩

theorem replace (h : Bare s k.text) (hle : s.Le s') (hlink : Linked s' s' (i, i))
    (hlast : k.before.getLast? ≠ some (.char '\\'))
    (hfit : s'.Flat i ∨ Spot.start.after (k.before.map Strand.glyph) = .start ∧ s'.Sealed i)
    (hspot : Spot.Le ((Spot.start.after (k.before.map Strand.glyph)).after (k.whole.map Strand.glyph))
      (Spot.start.after (k.before.map Strand.glyph)).seen) :
    ∃ g, Bare s' g ∧ (k.spell Prod.fst).replaceBy (Token.ofId i) = spell Prod.fst g := by
  have hpart {j : Script} (hj : j <:+: k.text) : Known s' s' j := (h.known.part (.of_slice hj)).mono hle hle
  have hall := (h.weaves.mono hle).admits
  rw [Script.Match.text, List.map_append, List.map_append, Spot.admits_append, Spot.admits_append,
    Spot.after_append] at hall
  refine ⟨k.before ++ [Glyph.token (i, i)] ++ k.after, ⟨h.early.replace hlast _, ?_, ?_⟩, ?_⟩
  · exact ((hpart k.before_infix).append (known_token hlink)).append (hpart k.after_infix)
  · rw [List.map_append, List.map_append, Spot.admits_append, Spot.admits_append, Spot.after_append]
    exact ⟨⟨hall.1.1, ⟨rfl, hfit⟩, trivial⟩, (hspot.admits hall.2).1⟩
  · have htoken : spell Prod.fst [.token (i, i)] = Token.ofId i := by simp
    rw [← k.replaceBy_spell, htoken]

end Bare

theorem after_of_starts (h : Text.Starts (spell Prod.fst g)) : Spot.start.after (g.map Strand.glyph) = .start := by
  rcases List.eq_nil_or_concat' g with rfl | ⟨g, x, rfl⟩
  · rfl
  · rw [Text.Starts, getLast?_spell, List.getLast?_concat] at h
    have hface : x.face = '\n' := by simpa using h
    cases x with
    | char c =>
      obtain rfl : c = '\n' := hface
      rw [List.map_append, Spot.after_append]
      rfl
    | token n =>
      have hsemi : ';' = '\n' := hface
      exact absurd hsemi (by decide)

/-- Behind fenced code the spot is that of a line in which something stands. -/
theorem Bare.le_seen_of_fence {w : Text} (h : Bare s k.text) (hstart : Text.Starts (spell Prod.fst k.before))
    (hlast : spell Prod.fst k.whole = w ++ '@' :: []) :
    Spot.Le ((Spot.start.after (k.before.map Strand.glyph)).after (k.whole.map Strand.glyph))
      (Spot.start.after (k.before.map Strand.glyph)).seen := by
  obtain ⟨a, b, hwhole, -, hb⟩ := exists_of_spell_eq_append_cons (by decide) hlast
  obtain rfl := spell_eq_nil.1 hb
  have hall := h.admits
  rw [Script.Match.text, hwhole, List.map_append, List.map_append, List.map_append, Spot.admits_append,
    Spot.admits_append, Spot.admits_append, after_of_starts hstart] at hall
  have hdepth := Spot.depth_after_plain (Strand.plain_glyphs a) hall.1.2.1
  rw [hwhole, List.map_append, Spot.after_append, after_of_starts hstart]
  exact (Spot.Le.of_depth hdepth).seen

theorem Bare.le_seen_of_line (h : Bare s k.text) (hne : k.whole ≠ []) (hline : '\n' ∉ spell Prod.fst k.whole) :
    Spot.Le ((Spot.start.after (k.before.map Strand.glyph)).after (k.whole.map Strand.glyph))
      (Spot.start.after (k.before.map Strand.glyph)).seen := by
  have hall := h.admits
  rw [Script.Match.text, List.map_append, List.map_append, Spot.admits_append, Spot.admits_append] at hall
  refine Spot.after_le_seen (Strand.plain_glyphs k.whole) (Line.not_mem_flat ?_) (by simpa using hne) hall.1.2
  rwa [Strand.flat_glyphs]

/-- A text for the line stage, and what its lines promise. -/
structure Prepared (s : Store) (t : Text) : Prop where
  script : ∃ g, Bare s g ∧ t = spell Prod.fst g
  lines : ∀ l ∈ lines t, Orderly l ∧ Trimmed l ∧ Flush l

theorem promises_ofId (i : Nat) : Orderly (Token.ofId i) ∧ Trimmed (Token.ofId i) ∧ Flush (Token.ofId i) := by
  have hfree : ∀ c ∈ "-^:".toList, c ∉ Token.ofId i := by
    have hsigns : ∀ c ∈ "-^:".toList, c ∉ Token.alphabet := by decide
    exact fun c hc => Token.not_mem_ofId (hsigns c hc) i
  refine ⟨⟨fun harrow => ?_, fun u v huv => ?_⟩, ?_, fun u v huv => ?_⟩
  · exact absurd (harrow.subset (by decide)) (hfree '-' (by decide))
  · exact absurd (by simp [huv]) (hfree '^' (by decide))
  · rw [Trimmed, Token.getLast?_ofId]
    rfl
  · exact absurd (by simp [huv]) (hfree ':' (by decide))

theorem code_upholds : code.Upholds dialect n Prepared := by
  refine Rule.upholds_of_round (progresses (r := code) (by simp [rules]) rfl) fun s t found ht hf => ?_
  obtain ⟨⟨g, hg, rfl⟩, hlines⟩ := ht
  obtain ⟨hnone, -⟩ | ⟨k, hk, hsome, -⟩ := matcher_twin (p := Block.fenced "@") (by decide) g trivial
  · exact absurd (hf.symm.trans hnone) (Option.some_ne_none _)
  obtain rfl := Option.some.inj (hsome.symm.trans hf)
  obtain rfl : k.text = g := hk.text
  obtain ⟨hstand, text, -, hw, hgs⟩ := Block.fenced_shape hf
  have h₁ : (k.spell Prod.fst).group 1 = some text := by simp [Markup.Match.group, hgs]
  have hstart : Text.Starts (spell Prod.fst k.before) := k.before_spell Prod.fst ▸ (Block.onLines hstand).1
  have htext : Woven s text := by
    have hwoven : Woven s (spell Prod.fst k.text) := ⟨_, hg.weaves⟩
    have hsplit : spell Prod.fst k.text = ((k.spell Prod.fst).before ++ ['@']) ++
        '\n' :: (text ++ '\n' :: ('@' :: (k.spell Prod.fst).after)) := by
      rw [← k.text_spell, Markup.Match.text, hw]
      simp
    rw [hsplit] at hwoven
    exact hwoven.behind_newline.before (by decide)
  have hvalue : Tidy s (Html.element "pre" text) := Tidy.element ⟨htext.sound, htext.neat⟩ (by decide)
  simp only [h₁]
  refine leads_sealed hvalue (Html.element_ne_nil _ _) fun i s' hle hlink hseal => leads_pure fun x hx => ?_
  obtain rfl := Option.some.inj hx
  have hlast : spell Prod.fst k.whole = ("@\n".toList ++ text ++ ['\n']) ++ '@' :: [] := by
    refine hw.trans ?_
    simp
  constructor
  · have hspot := hg.le_seen_of_fence hstart hlast
    exact hg.replace hle hlink (unescaped_of_start hstand.start) (.inr ⟨after_of_starts hstart, hseal⟩) hspot
  · obtain ⟨ls, ms, hsplit⟩ := (Block.onLines hstand).1.exists_lines_around hstand.stop
    rw [← k.text_spell, Markup.Match.text, hsplit, List.forall_mem_append, List.forall_mem_append] at hlines
    have htoken : lines (Token.ofId i) = [Token.ofId i] := Text.lines_eq_singleton (Token.not_mem_ofId (by decide) i)
    rw [Markup.Match.replaceBy_eq, hsplit, htoken, List.forall_mem_append, List.forall_mem_append,
      List.forall_mem_singleton]
    exact ⟨hlines.1, promises_ofId i, hlines.2.2⟩

theorem dresses_ofId {w : Text} (hw : '\n' ∉ w) (i : Nat) : Line.Dresses w (Token.ofId i) := by
  have hsigns : ∀ c ∈ "\n|^@#-[".toList, c ∉ Token.alphabet := by decide
  have hfree : ∀ c ∈ "\n|^@#-[".toList, c ∉ Token.ofId i := fun c hc => Token.not_mem_ofId (hsigns c hc) i
  have hsub : (∀ c ∈ "|^@#".toList, c ∈ "\n|^@#-[".toList) ∧ ∀ c ∈ "-[^".toList, c ∈ "\n|^@#-[".toList := by decide
  obtain ⟨u, hu, -⟩ := Token.exists_ofId_eq i
  exact ⟨⟨';', u, ';', hu, by decide, by decide⟩, ⟨hw, hfree '\n' (by decide)⟩, fun c hc _ => hfree c (hsub.1 c hc),
    .inr fun c hc => hfree c (hsub.2 c hc)⟩

theorem escape_upholds : escape.Upholds dialect n Prepared := by
  refine Rule.upholds_of_round (progresses (r := escape) (by simp [rules]) rfl) fun s t found ht hf => ?_
  obtain ⟨⟨g, hg, rfl⟩, hlines⟩ := ht
  obtain ⟨hnone, -⟩ | ⟨k, hk, hsome, -⟩ := escapeMatcher_twin g hg.early
  · exact absurd (hf.symm.trans hnone) (Option.some_ne_none _)
  obtain rfl := Option.some.inj (hsome.symm.trans hf)
  obtain rfl : k.text = g := hk.text
  obtain ⟨c, hw, h₁⟩ := escape_shape hf
  obtain ⟨-, caps, htakes, -⟩ := takes_of_find hf
  have hline : '\n' ∉ (k.spell Prod.fst).whole := newline_not_mem_of_takes (by decide) htakes
  have hchar : Same (Filled True) s s [c] [c] := by
    have hmarker : ¬ Token.marker <:+: [c] := fun hm => absurd hm.length_le (by simp [Token.marker])
    exact (same_refl (clean_ofText hmarker)).filled (List.cons_ne_nil c [])
  have hc : c ≠ '<' := by
    rintro rfl
    refine hg.not_mem ?_
    rw [← k.text_spell, Markup.Match.text, hw]
    simp
  simp only [h₁]
  refine leads_token hchar fun i s' hle hlink htoken => leads_pure fun x hx => ?_
  obtain rfl := Option.some.inj hx
  have hflat : s'.Flat i := by
    rw [Store.Flat, htoken, s.detokenize_char, List.mem_singleton]
    exact Ne.symm hc
  have hne : k.whole ≠ [] := by
    intro hnil
    have hempty : (k.spell Prod.fst).whole = [] := spell_eq_nil.2 hnil
    exact List.cons_ne_nil '\\' [c] (hw.symm.trans hempty)
  constructor
  · exact hg.replace hle hlink (escape_leftmost hf) (.inl hflat) (hg.le_seen_of_line hne hline)
  · have hdress := dresses_ofId hline i
    rw [← k.text_spell, Markup.Match.text] at hlines
    rw [Markup.Match.replaceBy_eq]
    exact hdress.forall_lines (fun b c h => ⟨h.1.dress hdress, h.2.1.dress hdress, h.2.2.dress hdress⟩) hlines

theorem trimmed_trimEnd (l : Text) : Trimmed (trimEnd l) := by
  have hhead := List.head?_dropWhile_not isSpace l.reverse
  rw [Trimmed, trimEnd, List.getLast?_reverse]
  cases hd : (l.reverse.dropWhile isSpace).head? with
  | none => rfl
  | some c => simpa [hd] using hhead

/-- Without the white space at the ends of its lines the document is prepared. -/
theorem prepared_trimLines (ht : ¬ Token.marker <:+: t) (hsign : '<' ∉ t) (h : ∀ l ∈ lines t, Orderly l ∧ Flush l) :
    Prepared .empty (trimLines t) := by
  have hmarker : ¬ Token.marker <:+: trimLines t := Text.not_infix_trimLines (by decide) (by decide) ht
  refine ⟨⟨_, .ofText hmarker (Text.not_mem_trimLines (by decide) hsign) .empty, (spell_ofText ..).symm⟩, ?_⟩
  rw [Text.lines_trimLines, List.forall_mem_map]
  intro l hl
  obtain ⟨w, hw, -⟩ := Text.exists_eq_trimEnd_append l
  obtain ⟨horderly, hflush⟩ := h l hl
  rw [hw] at horderly hflush
  refine ⟨horderly.slice (List.prefix_append _ w).isInfix, trimmed_trimEnd l, fun u v huv hne => ?_⟩
  exact hflush u (v ++ w) (by rw [huv, List.append_assoc, List.cons_append]) hne

theorem prepared_of_applies (h : Prepared s t) (happly : dialect.AppliesAll [code, escape] t s u s') :
    Prepared s' u := by
  obtain ⟨n, hrun⟩ := happly
  have hrules : ∀ r ∈ [code, escape], r.Upholds dialect n Prepared := by
    simp only [List.forall_mem_cons]
    exact ⟨code_upholds, escape_upholds, fun r hr => absurd hr List.not_mem_nil⟩
  exact (Grammar.upholds_of_rules hrules n h hrun).2

/-- What the line stage makes of a prepared text has rows for the blocks. -/
theorem Prepared.rows (h : Prepared s t) (hrun : dialect.Runs .line t s u s') : Line.Rows s' u := by
  obtain ⟨n, he⟩ := hrun
  obtain ⟨⟨g, hg, rfl⟩, hlines⟩ := h
  cases n with
  | zero => simp [Grammar.run] at he
  | succ n =>
    have hplain : Line.Plainly s (spell Prod.fst g) := ⟨_, hg.weaves, Strand.plain_glyphs g⟩
    have hspun := (Line.spun_of_plainly (Line.weaving n) hplain (fun l hl => (hlines l hl).1) he).2
    exact Line.rows_of_spun hspun (Line.lines_of_run he fun l hl => (hlines l hl).2)

/-- A text that means something is not kept for want of an answer. -/
theorem runs_of_applies {name : String} {stage : Stage} (hs : stage ≠ .document) (h : Sound s t)
    (happly : dialect.Applies (.stage name stage) t s u s') : dialect.Runs stage t s u s' := by
  obtain ⟨v, hrun, rfl⟩ := Grammar.applies_stage.1 happly
  by_cases ht : t = []
  · subst ht
    split
    · next hv => rwa [hv] at hrun
    · exact hrun
  · rwa [if_neg (h.runs_ne_nil hs ht hrun)]

theorem tidy_of_unresolved (ht : ¬ Token.marker <:+: t) (hsign : '<' ∉ t) (h : ∀ l ∈ lines t, Orderly l ∧ Flush l)
    (hrun : dialect.AppliesAll unresolved t .empty u s) : Tidy s u := by
  rw [unresolved_eq, Grammar.appliesAll_append] at hrun
  obtain ⟨plain, s₀, hprep, hlater⟩ := hrun
  obtain ⟨trimmed, s₁, htrim, hhide⟩ := Grammar.appliesAll_cons.1 hprep
  obtain ⟨rfl, rfl⟩ := htrim.unique (applies_trailingSpace t .empty)
  have hplain := prepared_of_applies (prepared_trimLines ht hsign h) hhide
  obtain ⟨v, s₂, hline, hblocks⟩ := Grammar.appliesAll_cons.1 hlater
  obtain ⟨w, s₃, hblock, hnil⟩ := Grammar.appliesAll_cons.1 hblocks
  obtain ⟨rfl, rfl⟩ := hnil.unique Grammar.appliesAll_nil
  have hsound : Sound s₀ plain := by
    obtain ⟨g, hg, rfl⟩ := hplain.script
    exact hg.weaves.sound
  have hrows := hplain.rows (runs_of_applies (by decide) hsound hline)
  obtain ⟨n, he⟩ := runs_of_applies (by decide) hrows.tidy.sound hblock
  exact (Block.rows_of_run hrows he).2.tidy

end Markup.Document
