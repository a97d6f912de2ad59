import Markup.Proofs.Dialect.Tally
import Markup.Proofs.Line.Signs
import Markup.Proofs.Tag.Fill

/-! # Lines woven from strands

Every round of a line rule puts strands in the place of its match. The lines stay orderly by themselves, so a rule is
only asked for the strands of its round; an element around a token is one strand. -/
namespace Markup.Line
open Program Script
open Strand (flat)
variable {n : Nat} {s s' : Store} {p : Spot} {us vs ws a b : List Strand} {t u content : Text} {found : Match}

/-- The text is woven from glyphs and short elements. -/
def Plainly (s : Store) (t : Text) : Prop := ∃ us, Weaves s us t ∧ ∀ u ∈ us, u.Plain

theorem Plainly.woven (h : Plainly s t) : Woven s t := h.imp fun _ h => h.1

def OrderlyLines (t : Text) : Prop := ∀ l ∈ t.lines, Orderly l

/-- The stage weaves what it is given plain. -/
def Weaving (n : Nat) : Prop :=
  ∀ s t out s', Plainly s t → OrderlyLines t → dialect.run n .line t s = some (out, s') → Woven s' out

theorem exists_cut {m : Matcher} (h : Weaves s us t) (hm : m.Twin fun _ => True) (hf : m.find [] t = some found) :
    ∃ x w y : Script, flat us = x ++ w ++ y ∧ found.before = spell Prod.fst x ∧ found.whole = spell Prod.fst w ∧
      found.after = spell Prod.fst y := by
  rw [h.text] at hf
  rcases hm (flat us) trivial with ⟨hnone, -⟩ | ⟨k, hk, hsome, -⟩
  · rw [hnone] at hf
    contradiction
  · obtain rfl := Option.some.inj (hsome.symm.trans hf)
    exact ⟨k.before, k.whole, k.after, hk.text.symm, k.before_spell Prod.fst, rfl, rfl⟩

theorem leads_weave {q : Program (Option Text)} {C : List Strand → Prop} (h : Weaves s (a ++ vs ++ b) t)
    (hbefore : found.before = spell Prod.fst (flat a)) (hafter : found.after = spell Prod.fst (flat b))
    (hq : Leads dialect n (fun s' new => ∀ x, new = some x →
      ∃ ws, x = spell Prod.fst (flat ws) ∧ Fills s' (Spot.start.after a) vs ws ∧ C ws) q s) :
    Leads dialect n (fun s' new => ∀ x, new = some x →
      ∃ ws, Weaves s' (a ++ ws ++ b) (found.replaceBy x) ∧ C ws) q s := by
  refine hq.imp fun s' new hle hnew x hx => ?_
  obtain ⟨ws, rfl, hfills, hC⟩ := hnew x hx
  refine ⟨ws, ?_, hC⟩
  rw [Match.replaceBy_eq, hbefore, hafter]
  exact h.fill hle hfills

theorem leads_leaf (hn : Weaving n) {tag : String} (htag : tag ∈ Strand.leafTags) (hc : Plainly s content)
    (hne : content ≠ []) (ho : OrderlyLines content) (hvs : Spot.Le (p.after vs) p.seen) :
    Leads dialect n (fun s' new => ∀ x, new = some x →
        ∃ ws, x = spell Prod.fst (flat ws) ∧ Fills s' p vs ws ∧ ∀ u ∈ ws, u.Plain)
      (do
        let inner ← rerun .line content
        let token ← hide inner
        return some (Html.element tag token)) s := by
  have hsound : Same (Filled True) s s content content := hc.woven.sound.filled hne
  refine leads_stage fun inner mid hrun => ?_
  obtain ⟨hle, hholds⟩ := dialect_preserves_kept (c := '<') (by decide) n .line (by decide) _ _ _ _ _ hsound hrun
  have hneat := (hn _ _ _ _ hc ho hrun).neat
  refine ⟨hle, leads_token hholds.same fun i s' _ hlink htoken => leads_pure fun x hx => ?_⟩
  have hsealed : s'.Sealed i := by rwa [Store.Sealed, htoken]
  obtain rfl := Option.some.inj hx
  refine ⟨[.leaf tag i], (Strand.spell_leaf tag i).symm, Fills.leaf htag hlink hsealed hvs, ?_⟩
  exact List.forall_mem_singleton.2 trivial

theorem OrderlyLines.slice (ho : OrderlyLines t) (hu : u <:+: t) (hline : '\n' ∉ u) : Orderly u := by
  obtain ⟨x, y, rfl⟩ := hu
  obtain ⟨ls, l, hl, hlines⟩ := Text.exists_lines_append x
  have hpart : '\n' ∉ l ++ u := by simp [hl, hline]
  rw [OrderlyLines, List.append_assoc, hlines, ← List.append_assoc, Text.lines_append_of_not_mem hpart] at ho
  exact (ho _ (List.mem_append_right ls List.mem_cons_self)).slice (List.infix_append l u _)

theorem OrderlyLines.of_line (ho : Orderly u) (hline : '\n' ∉ u) : OrderlyLines u := by
  rw [OrderlyLines, Text.lines_eq_singleton hline]
  exact List.forall_mem_singleton.2 ho

/-- The lines stay orderly by themselves, so a round is only asked for its strands. -/
theorem upholds_of_weave {name : String} {m : Matcher} {f : Match → Program (Option Text)} {W : Store → Text → Prop}
    (hr : Rule.pattern name m f ∈ rules) (round : ∀ s t found, W s t → OrderlyLines t → m.find [] t = some found →
      t = found.before ++ found.whole ++ found.after →
      Leads dialect n (fun s' new => ∀ x, new = some x → W s' (found.replaceBy x)) (f found) s) :
    (Rule.pattern name m f).Upholds dialect n fun s t => W s t ∧ OrderlyLines t := by
  obtain ⟨matcher, replace, ha, hlawful⟩ := rules_lawful _ hr
  obtain ⟨rfl, rfl⟩ := Action.pattern.inj ha
  refine Rule.upholds_of_round (progresses hr rfl) fun s t found ⟨hW, ho⟩ hf => ?_
  have htext : found.text = t := (hlawful [] t found hf).1
  intro new s' he
  obtain ⟨hle, hnew⟩ := round s t found hW ho hf htext.symm new s' he
  obtain ⟨x, rfl, hdress⟩ := rules_dress _ hr m f rfl [] t found hf s new s' ⟨n, he⟩
  refine ⟨hle, fun y hy => ⟨hnew y hy, ?_⟩⟩
  obtain rfl := Option.some.inj hy
  rw [Match.replaceBy_eq]
  rw [← htext, Match.text] at ho
  exact hdress.forall_lines (fun b c => Orderly.dress hdress) ho

theorem plainly_inner (h : Weaves s (a ++ vs ++ b) t) (hdepth : (Spot.start.after a).depth = 0)
    (hvs : ∀ u ∈ vs, u.Plain) :
    Plainly s (spell Prod.fst (flat vs)) := by
  have hslice : flat vs <:+: flat (a ++ vs ++ b) := by
    rw [Strand.flat_append, Strand.flat_append]
    exact List.infix_append _ _ _
  have hall := h.admits
  rw [Spot.admits_append, Spot.admits_append] at hall
  obtain ⟨hadmits, -⟩ := (Spot.Le.of_depth hdepth).admits hall.1.2
  exact ⟨vs, ⟨hadmits, Spot.depth_after_plain hvs hadmits, (h.part hslice).1, (h.part hslice).2, rfl⟩, hvs⟩

theorem not_mem_flat {d : Char} (h : d ∉ spell Prod.fst (flat us)) : Glyph.char d ∉ flat us := fun hmem =>
  h (List.mem_flatMap.2 ⟨.char d, hmem, List.mem_singleton_self d⟩)

/-- An element around a token takes the place of a stretch of plain strands, some of them its content. -/
theorem leads_element (hn : Weaving n) {tag : String} (htag : tag ∈ Strand.leafTags) {x c y : List Strand}
    (h : Weaves s (a ++ (x ++ c ++ y) ++ b) t) (ho : OrderlyLines t) (hplain : ∀ u ∈ x ++ c ++ y, u.Plain)
    (hdepth : ((Spot.start.after a).after x).depth = 0) (hne : content ≠ []) (hc : spell Prod.fst (flat c) = content)
    (hline : '\n' ∉ spell Prod.fst (flat (x ++ c ++ y))) (hbefore : found.before = spell Prod.fst (flat a))
    (hafter : found.after = spell Prod.fst (flat b)) :
    Leads dialect n (fun s' new => ∀ x, new = some x →
        ∃ ws, Weaves s' (a ++ ws ++ b) (found.replaceBy x) ∧ ∀ u ∈ ws, u.Plain)
      (do
        let inner ← rerun .line content
        let token ← hide inner
        return some (Html.element tag token)) s := by
  have hcne : c ≠ [] := by
    rintro rfl
    exact hne hc.symm
  have hadmits := h.admits
  rw [Spot.admits_append, Spot.admits_append] at hadmits
  have hvs := Spot.after_le_seen hplain (not_mem_flat hline) (by simp [hcne]) hadmits.1.2
  simp only [List.forall_mem_append] at hplain
  have hcontent : Plainly s content := by
    have hsplit : Weaves s (a ++ x ++ c ++ (y ++ b)) t := by simpa using h
    have hfront : (Spot.start.after (a ++ x)).depth = 0 := by rwa [Spot.after_append]
    exact hc ▸ plainly_inner hsplit hfront hplain.1.2
  have hcontentLine : '\n' ∉ content := by
    simp only [Strand.flat_append, spell_append, List.mem_append, not_or, hc] at hline
    exact hline.1.2
  have hinfix : content <:+: t := by
    rw [h.text, ← hc]
    exact ⟨spell Prod.fst (flat (a ++ x)), spell Prod.fst (flat (y ++ b)), by simp⟩
  exact leads_weave h hbefore hafter
    (leads_leaf hn htag hcontent hne (.of_line (ho.slice hinfix hcontentLine) hcontentLine) hvs)

end Markup.Line
