import Markup.Proofs.Block.Shape
import Markup.Proofs.Run
import Markup.Proofs.Script.Shows
import Markup.Proofs.Text.Stretches

/-! # Paragraphs

The paragraph rule hides every longest run of prose lines behind a token, from top to bottom, and touches
nothing else. -/
namespace Markup
open Grammar

namespace Block
open Text (Stretch Alternate stretches joinLines startLines endLines)
variable {l : Text} {g done ls : List Text} {gs : List (List Text)}

/-- What a run of prose lines is hidden as. -/
def paragraphHtml (g : List Text) : Text := Html.block "p" (Text.breakLines (joinLines g))

/-- The lines with a token in the place of every run of prose; `n` is the number of the first token. -/
def settle (n : Nat) : List (List Text) → List Text
  | [] => []
  | g :: gs => if g.all isProse then Token.ofId n :: settle (n + 1) gs else g ++ settle n gs

/-- The values of the tokens. -/
def paragraphs (gs : List (List Text)) : List Text := (gs.filter (·.all isProse)).map paragraphHtml

theorem paragraphs_cons (h : g.all isProse = true) : paragraphs (g :: gs) = paragraphHtml g :: paragraphs gs := by
  rw [paragraphs, List.filter_cons_of_pos (by rw [h]), List.map_cons, paragraphs]

theorem paragraphs_cons_of_other (h : g.all isProse = false) : paragraphs (g :: gs) = paragraphs gs := by
  rw [paragraphs, List.filter_cons_of_neg (by simp [h]), paragraphs]

theorem isProse_eq {l : Text} (h : ';' ∉ l) : isProse l = !l.isEmpty := by
  have hleads : Token.leads l = false := by
    rw [Token.leads]
    split
    · rfl
    · next rest hr =>
      rw [Token.eq_append_of_isPrefixOf? hr] at h
      exact absurd (List.mem_append_left rest (by decide)) h
  rw [isProse, hleads, Bool.not_false, Bool.and_true]

theorem paragraphScanner_inLine (c : Char) (t : Text) (hc : c ≠ '\n') : paragraphScanner (some c) t = none := by
  simp [paragraphScanner, hc]

theorem paragraphScanner_passes (hl : '\n' ∉ l) (h : isProse l = false) : paragraphScanner.Passes l := by
  intro prev t ht
  have hline : (l ++ t).line = l := by
    obtain ⟨ls, hls⟩ := Text.exists_lines_eq_line_cons (l ++ t)
    rw [Text.lines_append_of_not_mem hl, Text.line_eq_nil ht, List.append_nil] at hls
    exact (List.cons.inj hls).1.symm
  rw [paragraphScanner, hline, h, Bool.and_false, if_neg Bool.false_ne_true]

theorem find_eq_none (hl : ∀ l ∈ done, '\n' ∉ l) (hdone : ∀ l ∈ done, isProse l = false) :
    paragraphMatcher.find [] (joinLines done) = none := by
  by_cases hne : done = []
  · subst hne
    rfl
  · exact Scanner.search_joinLines paragraphScanner_inLine hl
      (fun l hmem => paragraphScanner_passes (hl l hmem) (hdone l hmem)) hne []

theorem find_run (hl : ∀ l ∈ done ++ (g ++ ls), '\n' ∉ l) (hdone : ∀ l ∈ done, isProse l = false) (hne : g ≠ [])
    (hg : ∀ l ∈ g, isProse l = true) (hls : ∀ l ∈ ls.head?, isProse l = false) :
    paragraphMatcher.find [] (joinLines (done ++ (g ++ ls))) =
      some ⟨(endLines done).reverse, joinLines g, startLines ls, []⟩ := by
  have hne' : g ++ ls ≠ [] := by simp [hne]
  have hlines : (joinLines (g ++ ls)).lines = g ++ ls :=
    Text.lines_joinLines hne' fun l h => hl l (List.mem_append_right _ h)
  have hstart := Text.head?_reverse_endLines done
  have hprose : isProse (joinLines (g ++ ls)).line = true := by
    obtain ⟨k, g, rfl⟩ := List.exists_cons_of_ne_nil hne
    obtain ⟨ms, hms⟩ := Text.exists_lines_eq_line_cons (joinLines (k :: g ++ ls))
    rw [hlines] at hms
    rw [← (List.cons.inj hms).1]
    exact hg k List.mem_cons_self
  rw [Text.joinLines_append hne']
  have hl' : ∀ l ∈ done, '\n' ∉ l := fun l h => hl l (List.mem_append_left _ h)
  refine (Scanner.search_endLines paragraphScanner_inLine hl' fun l hmem =>
    paragraphScanner_passes (hl' l hmem) (hdone l hmem)).trans ?_
  rw [List.append_nil]
  refine Scanner.search_of_hit (h := ⟨joinLines g, startLines ls, []⟩) ?_
  rw [paragraphScanner, hstart, hprose, Bool.and_true, if_pos rfl, hlines, Text.takeWhile_run hg hls,
    Text.dropWhile_run hg hls]

/-- The rule goes on behind a token for the first run of prose. -/
theorem applies_run {G : Grammar} {s s' : Store} {out : Text} (hl : ∀ l ∈ done ++ (g ++ ls), '\n' ∉ l)
    (hdone : ∀ l ∈ done, isProse l = false) (hne : g ≠ []) (hg : ∀ l ∈ g, isProse l = true)
    (hls : ∀ l ∈ ls.head?, isProse l = false) :
    G.Applies paragraph (joinLines (done ++ (g ++ ls))) s out s' ↔
      G.Applies paragraph (joinLines (done ++ [Token.ofId s.size] ++ ls)) (s.mint (paragraphHtml g)).2 out s' := by
  have htext : endLines done ++ Token.ofId s.size ++ startLines ls = joinLines (done ++ [Token.ofId s.size] ++ ls) := by
    rw [← List.append_cons, Text.joinLines_append_cons, List.append_assoc]
  have hnew : Token.ofId s.size ≠ joinLines g := fun h => by
    have hlines := Text.lines_joinLines hne fun l h => hl l (List.mem_append_right _ (List.mem_append_left _ h))
    rw [← h, Text.lines_eq_singleton (Token.not_mem_ofId (by decide) s.size)] at hlines
    exact Bool.false_ne_true ((isProse_ofId s.size).symm.trans (hg _ (hlines ▸ List.mem_singleton_self _)))
  rw [paragraph, applies_pattern, saturates_step (find_run hl hdone hne hg hls) (evaluates_hidden _ s) hnew,
    Match.replaceBy_reverse, htext]
  rfl

theorem applies_settle {G : Grammar} (done : List Text) (gs : List (List Text))
    (hl : ∀ l ∈ done ++ gs.flatten, '\n' ∉ l) (hdone : ∀ l ∈ done, isProse l = false)
    (hgs : ∀ g ∈ gs, Stretch isProse g) (halt : Alternate isProse gs) (s : Store) :
    G.Applies paragraph (joinLines (done ++ gs.flatten)) s (joinLines (done ++ settle s.size gs))
      (s.mintAll (paragraphs gs)) := by
  induction gs generalizing done s with
  | nil =>
    rw [List.flatten_nil, List.append_nil] at hl ⊢
    rw [settle, List.append_nil]
    exact saturates_done (find_eq_none hl hdone) s
  | cons g gs ih =>
    rw [List.forall_mem_cons] at hgs
    have halt' : Alternate isProse gs := List.IsChain.tail halt
    rw [List.flatten_cons] at hl ⊢
    obtain ⟨⟨hne, hg | ⟨l, rfl, hlp⟩⟩, hgs⟩ := hgs
    · have hall : g.all isProse = true := List.all_eq_true.2 hg
      have hmem : ∀ l ∈ done ++ [Token.ofId s.size] ++ gs.flatten, '\n' ∉ l := by
        simp only [List.forall_mem_append, List.forall_mem_singleton] at hl ⊢
        exact ⟨⟨hl.1, Token.not_mem_ofId (by decide) s.size⟩, hl.2.2⟩
      have hprose : ∀ l ∈ done ++ [Token.ofId s.size], isProse l = false := by
        rw [List.forall_mem_append, List.forall_mem_singleton]
        exact ⟨hdone, isProse_ofId s.size⟩
      have hnext := ih _ hmem hprose hgs halt' (s.mint (paragraphHtml g)).2
      rw [Store.size_mint, List.append_assoc done [_] (settle _ _), List.singleton_append] at hnext
      rw [settle, if_pos hall, paragraphs_cons hall]
      exact (applies_run hl hdone hne hg (halt.head_flatten hg)).2 hnext
    · have hall : [l].all isProse = false := by simp [hlp]
      rw [settle, if_neg (by simp [hlp]), paragraphs_cons_of_other hall, ← List.append_assoc, ← List.append_assoc]
      refine ih _ (by rwa [List.append_assoc]) ?_ hgs halt' s
      simpa [or_imp, forall_and, hlp] using hdone

/-- The paragraph rule takes the longest runs of prose, and nothing else. -/
theorem applies_paragraph {G : Grammar} (t : Text) (s : Store) :
    G.Applies paragraph t s (joinLines (settle s.size (stretches isProse t.lines)))
      (s.mintAll (paragraphs (stretches isProse t.lines))) := by
  have hl : ∀ l ∈ [] ++ (stretches isProse t.lines).flatten, '\n' ∉ l := by
    rw [List.nil_append, Text.flatten_stretches]
    exact fun l hl => Text.not_mem_of_mem_lines hl
  have h := applies_settle (G := G) [] (stretches isProse t.lines) hl (by simp) (fun _ => Text.stretch_of_mem)
    (Text.stretches_alternate isProse t.lines) s
  rwa [List.nil_append, List.nil_append, Text.flatten_stretches, Text.joinLines_lines] at h

/-- A paragraph of the lines. -/
def paragraphOf (g : List Text) : Text := Html.block "p" ("<br>".toList.intercalate g)

/-- A stretch of lines that are shown as `f` says. -/
def stretchHtml (f : Text → Text) (g : List Text) : Text :=
  if g.all isProse then paragraphOf (g.map f) else joinLines (g.map f)

/-- What the rule comes to shows the paragraphs in the places of their lines. -/
theorem shows_settle (f : Text → Text) (gs : List (List Text)) (hgs : ∀ g ∈ gs, Stretch isProse g)
    (hl : ∀ l ∈ gs.flatten, '\n' ∉ l) {s : Store} (hshow : ∀ l ∈ gs.flatten, Shows s l (f l)) :
    List.Forall₂ (Shows (s.mintAll (paragraphs gs))) (settle s.size gs) (gs.map (stretchHtml f)) := by
  induction gs generalizing s with
  | nil => exact .nil
  | cons g gs ih =>
    rw [List.forall_mem_cons] at hgs
    rw [List.flatten_cons, List.forall_mem_append] at hl hshow
    have hrun : List.Forall₂ (Shows s) g (g.map f) := List.forall₂_map_right_iff.2 (List.forall₂_same.2 hshow.1)
    obtain ⟨⟨hne, hg | ⟨l, rfl, hlp⟩⟩, hgs⟩ := hgs
    · have hall : g.all isProse = true := List.all_eq_true.2 hg
      have hvalue : Shows s (paragraphHtml g) (paragraphOf (g.map f)) := by
        rw [paragraphHtml, Text.breakLines_joinLines hl.1]
        exact (Shows.intercalate (by decide) hrun).block (by decide)
      have htoken := hvalue.token (Html.block_ne_nil _ _)
      have hrest := ih hgs hl.2 fun l hmem => (hshow.2 l hmem).mono (s.le_mint (paragraphHtml g))
      rw [Store.size_mint] at hrest
      rw [settle, if_pos hall, paragraphs_cons hall, List.map_cons, stretchHtml, if_pos hall]
      exact .cons (htoken.mono (Store.le_mintAll _ _)) hrest
    · have hall : [l].all isProse = false := by simp [hlp]
      rw [settle, if_neg (by simp [hall]), paragraphs_cons_of_other hall, List.map_cons, stretchHtml,
        if_neg (by simp [hall])]
      have hline : Shows s l (joinLines [f l]) := by
        simpa [Text.joinLines_singleton] using hshow.1 l (List.mem_singleton_self l)
      exact .cons (hline.mono (Store.le_mintAll _ _)) (ih hgs hl.2 hshow.2)

end Block
end Markup
