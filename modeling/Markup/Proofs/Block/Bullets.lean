import Markup.Proofs.Block.Quiet
import Markup.Proofs.Listing.Entry
import Markup.Proofs.Text.Trim

/-! # Where a bulleted list ends

A list that begins with an entry takes all entries below it, however deep they are. -/
namespace Markup.Block
open Pattern Listing Grammar
open Text (joinLines startLines endLines joinLines_cons)
variable {next : State → Option State} {s : State} {prev : Option Char} {c l rest : Text} {ls : List Text}

theorem walk_lineBreak (h : s.ahead = '\n' :: rest) (hn : next (s.behind ['\n'] rest) ≠ none) :
    lineBreak.walk next s = next (s.behind ['\n'] rest) := by
  obtain ⟨r, hr⟩ := Option.ne_none_iff_exists'.1 hn
  have hword : (word "\n").walk next s = some r := (walk_word rest h).trans hr
  rw [lineBreak, Pattern.optional, walk, hword, hr]
  rfl

theorem walk_lineBreak_of_end (h : s.ahead = []) : lineBreak.walk next s = next s := by
  have hword : (word "\n").walk next s = none := walk_word_eq_none (by rw [h]; rfl)
  obtain ⟨prev, taken, ahead, captures⟩ := s
  obtain rfl : ahead = [] := h
  rw [lineBreak, Pattern.optional, walk, hword]
  rfl

theorem walk_inLine {u : Text} (hrest : rest.head?.all (· == '\n') = true) (h : s.ahead = u ++ rest) (hu : '\n' ∉ u)
    (hne : u ≠ []) (hn : next (s.behind u rest) ≠ none) : (atLeast 1 inLine).walk next s = next (s.behind u rest) := by
  refine walk_atLeast u rest h (fun b hb => ?_) ?_ (List.length_pos_iff.2 hne) hn
  · rw [inLine, bne_iff_ne]
    exact fun he => hu (he ▸ hb)
  · cases rest with
    | nil => rfl
    | cons b rest => simpa [inLine] using hrest

section
variable (hs : s.prev.all (· == '\n') = true) (hc : Flush c) (hrest : rest.head?.all (· == '\n') = true)
include hs hc hrest

theorem walk_itemLine (h : s.ahead = entry 0 c ++ rest) (hn : next (s.behind (entry 0 c) rest) ≠ none) :
    (itemLine bullet).walk next s = next (s.behind (entry 0 c) rest) := by
  obtain ⟨a, u, hau, -, ha⟩ := hc.exists_cons
  have hcontent : ((s.behind ['*'] (' ' :: (c ++ rest))).behind [' '] (c ++ rest)).behind c rest =
      s.behind (entry 0 c) rest := by
    rw [State.behind_behind, State.behind_behind]
    rfl
  rw [← hcontent] at hn ⊢
  have hline := walk_inLine (s := (s.behind ['*'] (' ' :: (c ++ rest))).behind [' '] (c ++ rest)) hrest rfl hc.line
    (by simp [hau]) hn
  have hindent : (atLeast 1 isIndent).walk ((atLeast 1 inLine).walk next) (s.behind ['*'] (' ' :: (c ++ rest))) = _ :=
    walk_atLeast [' '] (c ++ rest) rfl (by decide) (by simpa [hau] using ha) (by decide) (by rwa [hline])
  simp only [itemLine, walk_append]
  rw [walk_lineStart hs, bullet, walk_word (' ' :: (c ++ rest)) h]
  exact hindent.trans hline

theorem walk_continuationLine {n : Nat} (h : s.ahead = entry (n + 1) c ++ rest)
    (hn : next (s.behind (entry (n + 1) c) rest) ≠ none) :
    continuationLine.walk next s = next (s.behind (entry (n + 1) c) rest) := by
  have hcontent : (s.behind (List.replicate (2 * (n + 1)) ' ') (entry 0 c ++ rest)).behind (entry 0 c) rest =
      s.behind (entry (n + 1) c) rest := by
    rw [State.behind_behind]
    rfl
  rw [← hcontent] at hn ⊢
  have hline := walk_inLine (s := s.behind (List.replicate (2 * (n + 1)) ' ') (entry 0 c ++ rest)) hrest rfl
    (newline_not_mem_entry hc 0) (List.cons_ne_nil _ _) hn
  have hsplit : s.ahead = List.replicate (2 * (n + 1)) ' ' ++ (entry 0 c ++ rest) := by
    rw [h, entry, List.append_assoc]
    rfl
  have hblank : ∀ b ∈ List.replicate (2 * (n + 1)) ' ', isIndent b = true := fun b hb => by
    rw [List.eq_of_mem_replicate hb]
    rfl
  have hindent : (atLeast 2 isIndent).walk ((atLeast 1 inLine).walk next) s = _ :=
    walk_atLeast _ (entry 0 c ++ rest) hsplit hblank rfl (by simp) (by rwa [hline])
  simp only [continuationLine, walk_append]
  rw [walk_lineStart hs]
  exact hindent.trans hline

end

/-- One more entry of a list, with the line break after it. -/
def moreItem : Pattern := itemLine bullet ++ lineBreak <|> continuationLine ++ lineBreak

theorem walk_moreItem {n : Nat} (hs : s.prev.all (· == '\n') = true) (hc : Flush c)
    (hrest : rest.head?.all (· == '\n') = true) (h : s.ahead = entry n c ++ rest)
    (hn : lineBreak.walk next (s.behind (entry n c) rest) ≠ none) :
    moreItem.walk next s = lineBreak.walk next (s.behind (entry n c) rest) := by
  obtain ⟨r, hr⟩ := Option.ne_none_iff_exists'.1 hn
  rw [moreItem, walk_orElse, walk_append, walk_append]
  cases n with
  | zero =>
    rw [walk_itemLine hs hc hrest h hn, hr]
    rfl
  | succ n =>
    have hnone : (itemLine bullet).walk (lineBreak.walk next) s = none := by
      simp only [itemLine, walk_append]
      rw [walk_lineStart hs, bullet]
      exact walk_word_eq_none (by rw [h]; rfl)
    rw [hnone, walk_continuationLine hs hc hrest h hn]
    rfl

theorem repeats_moreItem {n : Nat} (hls : ∀ l ∈ ls, IsEntry l) (hs : s.prev.all (· == '\n') = true)
    (h : s.ahead = joinLines ls) (hle : s.ahead.length ≤ n) (hn : next (s.behind (joinLines ls) []) ≠ none) :
    repeats moreItem.walk next n s = next (s.behind (joinLines ls) []) := by
  have hsize : 1 ≤ moreItem.size := by decide
  induction ls generalizing s n with
  | nil =>
    obtain ⟨prev, taken, ahead, captures⟩ := s
    obtain rfl : ahead = [] := h
    exact repeats_of_end hsize next n rfl
  | cons l ls ih =>
    rw [List.forall_mem_cons] at hls
    obtain ⟨⟨depth, c, hc, rfl⟩, hls⟩ := hls
    obtain ⟨r, hr⟩ := Option.ne_none_iff_exists'.1 hn
    rw [repeats_eq hsize next hle]
    cases ls with
    | nil =>
      rw [Text.joinLines_singleton] at h hr ⊢
      have hrest : lineBreak.walk (repeats moreItem.walk next (n - 1)) (s.behind (entry depth c) []) = some r := by
        rw [walk_lineBreak_of_end rfl, repeats_of_end hsize next _ rfl, hr]
      rw [walk_moreItem hs hc rfl (by rw [h, List.append_nil]) (by rw [hrest]; exact Option.some_ne_none r), hrest, hr]
      rfl
    | cons k ls =>
      rw [Text.joinLines_cons_cons] at h hr ⊢
      have hnext : ((s.behind (entry depth c) ('\n' :: joinLines (k :: ls))).behind ['\n'] (joinLines (k :: ls))).behind
          (joinLines (k :: ls)) [] = s.behind (entry depth c ++ '\n' :: joinLines (k :: ls)) [] := by
        rw [State.behind_behind, State.behind_behind, List.singleton_append]
      rw [← hnext] at hr ⊢
      have hlength : (joinLines (k :: ls)).length ≤ n - 1 := by
        rw [h, List.length_append, List.length_cons] at hle
        omega
      have hlater := ih
        (s := (s.behind (entry depth c) ('\n' :: joinLines (k :: ls))).behind ['\n'] (joinLines (k :: ls)))
        hls rfl rfl hlength (by rw [hr]; exact Option.some_ne_none r)
      have hrest : lineBreak.walk (repeats moreItem.walk next (n - 1))
          (s.behind (entry depth c) ('\n' :: joinLines (k :: ls))) = some r := by
        rw [walk_lineBreak rfl (by rw [hlater, hr]; exact Option.some_ne_none r), hlater, hr]
      rw [walk_moreItem hs hc rfl h (by rw [hrest]; exact Option.some_ne_none r), hrest, hr]
      rfl

theorem walk_moreItems (hls : ∀ l ∈ ls, IsEntry l) (h : s.ahead = startLines ls) :
    (lineBreak ++ moreItems bullet).walk some s = some (s.behind (startLines ls) []) := by
  have hstar (e : State) : (moreItems bullet).walk some e =
      repeats moreItem.walk (lineEnd.walk some) e.ahead.length e := rfl
  rw [walk_append]
  cases ls with
  | nil =>
    obtain ⟨prev, taken, ahead, captures⟩ := s
    obtain rfl : ahead = [] := h
    rw [walk_lineBreak_of_end rfl, hstar, repeats_of_end (by decide) _ _ rfl]
    rfl
  | cons l ls =>
    have hlines : startLines (l :: ls) = '\n' :: joinLines (l :: ls) := by simp [joinLines_cons, startLines]
    rw [hlines] at h ⊢
    have hend : (s.behind ['\n'] (joinLines (l :: ls))).behind (joinLines (l :: ls)) [] =
        s.behind ('\n' :: joinLines (l :: ls)) [] := by
      rw [State.behind_behind, List.singleton_append]
    have hrest : (moreItems bullet).walk some (s.behind ['\n'] (joinLines (l :: ls))) =
        some (s.behind ('\n' :: joinLines (l :: ls)) []) := by
      have hall : repeats moreItem.walk (lineEnd.walk some) _ (s.behind ['\n'] (joinLines (l :: ls))) = _ :=
        repeats_moreItem hls rfl rfl (Nat.le_refl _) (by rw [walk_lineEnd rfl]; exact Option.some_ne_none _)
      rw [hstar, hall, walk_lineEnd rfl, hend]
    rw [walk_lineBreak h (by rw [hrest]; exact Option.some_ne_none _), hrest]

theorem unorderedListScanner_entries (hprev : prev.all (· == '\n') = true) (hc : Flush c) (hls : ∀ l ∈ ls, IsEntry l) :
    unorderedListPattern.scanner prev (joinLines (entry 0 c :: ls)) = some ⟨joinLines (entry 0 c :: ls), [], []⟩ := by
  have hbelow :=
    walk_moreItems (s := State.behind ⟨prev, 0, joinLines (entry 0 c :: ls), []⟩ (entry 0 c) (startLines ls))
    hls rfl
  have hwalk : unorderedListPattern.walk some ⟨prev, 0, joinLines (entry 0 c :: ls), []⟩ =
      some (State.behind ⟨prev, 0, joinLines (entry 0 c :: ls), []⟩ (joinLines (entry 0 c :: ls)) []) := by
    simp only [unorderedListPattern, walk_append] at hbelow ⊢
    rw [walk_itemLine hprev hc (Text.head?_startLines ls) (joinLines_cons _ _)
      (by rw [hbelow]; exact Option.some_ne_none _),
      hbelow, State.behind_behind, joinLines_cons]
  have hgroups : unorderedListPattern.groupCount = 0 := rfl
  rw [scanner, hwalk, hgroups]
  simp [State.hit, State.behind]

theorem unorderedListScanner_eq_some {t : Text} {h : Hit} (hs : unorderedListPattern.scanner prev t = some h) :
    prev.all (· == '\n') = true ∧ t.head? = some '*' := by
  obtain ⟨rfl, caps, ht, -⟩ := takes_of_scanner hs
  obtain ⟨hprev, -, _, u, v, _, _, hw, hm⟩ := list_takes ht
  rw [bullet, takes_word] at hm
  rw [hw, hm.1]
  exact ⟨hprev, rfl⟩

theorem unorderedListScanner_inLine (a : Char) (t : Text) (ha : a ≠ '\n') :
    unorderedListPattern.scanner (some a) t = none := by
  cases hs : unorderedListPattern.scanner (some a) t with
  | none => rfl
  | some h => exact absurd (unorderedListScanner_eq_some hs).1 (by simpa using ha)

theorem unorderedListScanner_passes (h : l.head? ≠ some '*') : unorderedListPattern.scanner.Passes l := by
  intro prev t ht
  cases hs : unorderedListPattern.scanner prev (l ++ t) with
  | none => rfl
  | some hit =>
    have hstar := (unorderedListScanner_eq_some hs).2
    cases l with
    | nil =>
      rw [List.nil_append] at hstar
      rw [hstar] at ht
      contradiction
    | cons a l => exact absurd hstar h

theorem find_entries {before : List Text} (hl : ∀ l ∈ before, '\n' ∉ l) (hbefore : ∀ l ∈ before, l.head? ≠ some '*')
    (hc : Flush c) (hls : ∀ l ∈ ls, IsEntry l) :
    unorderedListPattern.matcher.find [] (joinLines (before ++ entry 0 c :: ls)) =
      some ⟨(endLines before).reverse, joinLines (entry 0 c :: ls), [], []⟩ := by
  rw [matcher_eq, Text.joinLines_append (List.cons_ne_nil _ _)]
  refine (Scanner.search_endLines unorderedListScanner_inLine hl fun l hmem =>
    unorderedListScanner_passes (hbefore l hmem)).trans ?_
  rw [List.append_nil]
  exact Scanner.search_of_hit (unorderedListScanner_entries (Text.head?_reverse_endLines before) hc hls)

variable {before : List Text} {g : Grammar} {items : Text} {s₀ s₁ : Store}

theorem not_mem_joinLines_ofId {d : Char} (hd : d ≠ '\n') (halphabet : d ∉ Token.alphabet)
    (hbefore : ∀ l ∈ before, d ∉ l)
    (n : Nat) : d ∉ joinLines (before ++ [Token.ofId n]) := fun h => by
  obtain ⟨l, hmem, hdl⟩ := Text.mem_of_mem_joinLines hd h
  rcases List.mem_append.1 hmem with hmem | hmem
  · exact hbefore l hmem hdl
  · exact Token.not_mem_ofId halphabet n (List.mem_singleton.1 hmem ▸ hdl)

theorem applies_unorderedList (hl : ∀ l ∈ before, '\n' ∉ l) (hbefore : ∀ l ∈ before, '*' ∉ l) (hc : Flush c)
    (hls : ∀ l ∈ ls, IsEntry l) (hrun : g.Runs .list (joinLines (entry 0 c :: ls)) s₀ items s₁) :
    g.Applies unorderedList (joinLines (before ++ entry 0 c :: ls)) s₀ (joinLines (before ++ [Token.ofId s₁.size]))
      (s₁.mint (Html.block "ul" items)).2 := by
  have hhead : ∀ l ∈ before, l.head? ≠ some '*' := fun l hmem h => hbefore l hmem (List.mem_of_mem_head? h)
  have hstar := not_mem_joinLines_ofId (by decide) (by decide) hbefore s₁.size
  have hlist : g.Evaluates (listBlock "ul" (joinLines (entry 0 c :: ls))) s₀ (some (Token.ofId s₁.size))
      (s₁.mint (Html.block "ul" items)).2 :=
    evaluates_rerun_bind.2 ⟨items, s₁, hrun, evaluates_hidden _ s₁⟩
  have hnew : Token.ofId s₁.size ≠ joinLines (entry 0 c :: ls) := fun h => by
    have hhead := congrArg List.head? h
    rw [Token.head?_ofId, joinLines_cons, entry_zero] at hhead
    simp at hhead
  have hdone := (unorderedList_quiet hstar).applies (g := g) (s₁.mint (Html.block "ul" items)).2
  refine (saturates_step (find_entries hl hhead hc hls) hlist hnew).2 ?_
  rw [Match.replaceBy_reverse, List.append_nil]
  rwa [Text.joinLines_append (List.cons_ne_nil _ _), Text.joinLines_singleton] at hdone ⊢

/-- Of all rules before the last one only the one for the list does something. -/
theorem appliesAll_marked (hl : ∀ l ∈ before, '\n' ∉ l) (hbefore : ∀ l ∈ before, ∀ d ∈ '*' :: '.' :: signs, d ∉ l)
    (hc : Flush c) (hls : ∀ l ∈ ls, IsEntry l) (hfree : ∀ l ∈ entry 0 c :: ls, ∀ d ∈ signs, d ∉ l)
    (hrun : g.Runs .list (joinLines (entry 0 c :: ls)) s₀ items s₁) :
    g.AppliesAll marked (joinLines (before ++ entry 0 c :: ls)) s₀ (joinLines (before ++ [Token.ofId s₁.size]))
      (s₁.mint (Html.block "ul" items)).2 := by
  have hsigns : ∀ d ∈ '*' :: '.' :: signs, d ≠ '\n' ∧ d ∉ Token.alphabet := by decide
  have hlater {d : Char} (hd : d ∈ '*' :: '.' :: signs) : d ∉ joinLines (before ++ [Token.ofId s₁.size]) :=
    not_mem_joinLines_ofId (hsigns d hd).1 (hsigns d hd).2 (fun l hmem => hbefore l hmem d hd) s₁.size
  have hframed : ∀ r ∈ framed, r.Quiet (joinLines (before ++ entry 0 c :: ls)) := framed_quiet fun d hd h => by
    have hd' : d ∈ '*' :: '.' :: signs := List.mem_cons_of_mem _ (List.mem_cons_of_mem _ hd)
    obtain ⟨l, hmem, hdl⟩ := Text.mem_of_mem_joinLines (hsigns d hd').1 h
    rcases List.mem_append.1 hmem with hmem | hmem
    · exact hbefore l hmem d hd' hdl
    · exact hfree l hmem d hd hdl
  refine appliesAll_append.2 ⟨_, s₀, appliesAll_quiet hframed s₀,
    appliesAll_cons.2 ⟨_, _, applies_unorderedList hl (fun l hmem => hbefore l hmem '*' List.mem_cons_self) hc hls hrun,
      appliesAll_quiet ?_ _⟩⟩
  simp only [List.forall_mem_cons]
  exact ⟨orderedList_quiet (isNumbered_eq_false (hlater (by decide))), definitionList_quiet (hlater (by decide)),
    fun r hr => absurd hr List.not_mem_nil⟩

end Markup.Block
