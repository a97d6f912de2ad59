import Markup.Proofs.Block.Settled
import Markup.Proofs.Listing.Nest

/-! # Rounds of the list stage

An item becomes a line with its opening tag, the lines of its content and a line with its closing tag; a definition
becomes a token. Either way the lines around it stay a list. -/
namespace Markup.Listing
open Line (Row Rows Trimmed Spun)
open Text (lines joinLines startLines endLines Starts)
open Pattern Program
variable {s s' : Store} {t v w l m mark space c : Text} {ls ms ks others : List Text} {d e n : Nat} {found : Match}

/-- The block stage leaves rows behind where it is given rows. -/
def MakesRows (n : Nat) : Prop :=
  ∀ s t out s', Rows s t → dialect.run n .block t s = some (out, s') → s.Le s' ∧ Rows s' out

/-- While the list stage runs. -/
def Nested (s : Store) (t : Text) : Prop := Listed s 0 (lines t)

theorem Listed.trimmed (h : Listed s d ls) : ∀ l ∈ ls, Trimmed l := by
  induction h with
  | nil => exact fun l hl => absurd hl List.not_mem_nil
  | opens _ ih => exact List.forall_mem_cons.2 ⟨by decide, ih⟩
  | closes _ ih => exact List.forall_mem_cons.2 ⟨by decide, ih⟩
  | row hl _ _ ih => exact List.forall_mem_cons.2 ⟨hl.trimmed, ih⟩

theorem exists_not_space {u : Text} (ht : ∀ l ∈ lines (u ++ (w ++ v)), Trimmed l) (hw : w ≠ [] ∧ '\n' ∉ w) :
    ∃ a ∈ w ++ v, isSpace a = false := by
  by_contra hall
  obtain ⟨ls, l, hl, hlines⟩ := Text.exists_lines_append u
  have hspace : ∀ a ∈ w ++ v.line, isSpace a = true := fun a ha => by
    by_contra ha'
    refine hall ⟨a, ?_, Bool.eq_false_iff.2 ha'⟩
    rw [List.mem_append] at ha ⊢
    exact ha.imp_right fun ha => List.takeWhile_subset _ ha
  have hpart : '\n' ∉ l ++ w := by
    rw [List.mem_append, not_or]
    exact ⟨hl, hw.2⟩
  have hline : Trimmed (l ++ (w ++ v.line)) := by
    rw [← List.append_assoc]
    refine ht _ ?_
    rw [hlines, ← List.append_assoc, Text.lines_append_of_not_mem hpart]
    exact List.mem_append_right ls List.mem_cons_self
  have hne : w ++ v.line ≠ [] := List.append_ne_nil_of_left_ne_nil hw.1 _
  rw [Trimmed, List.getLast?_append_of_ne_nil _ hne, List.getLast?_eq_some_getLast hne] at hline
  have hlast := hspace _ (List.getLast_mem hne)
  simp [hlast] at hline

theorem exists_gap {u : Text} (hspace : space ≠ [] ∧ ∀ a ∈ space, isSpace a = true) (hu : ∃ a ∈ u, isSpace a = false) :
    ∃ white b below, space ++ u = white ++ b :: below ∧ (white ≠ [] ∧ ∀ a ∈ white, isSpace a = true) ∧
      isSpace b = false := by
  have hhead := List.head?_dropWhile_not isSpace (space ++ u)
  obtain ⟨b, below, hdrop⟩ : ∃ b below, (space ++ u).dropWhile isSpace = b :: below := by
    apply List.exists_cons_of_ne_nil
    intro hnil
    obtain ⟨a, ha, ha'⟩ := hu
    have hspaces := List.dropWhile_eq_nil_iff.1 hnil a (List.mem_append_right space ha)
    simp [ha'] at hspaces
  have htake : (space ++ u).takeWhile isSpace ≠ [] := by
    obtain ⟨a, space, rfl⟩ := List.exists_cons_of_ne_nil hspace.1
    rw [List.cons_append, List.takeWhile_cons_of_pos (hspace.2 a List.mem_cons_self)]
    exact List.cons_ne_nil _ _
  rw [hdrop] at hhead
  refine ⟨_, b, below, ?_, ⟨htake, List.all_eq_true.1 List.all_takeWhile⟩, by simpa using hhead⟩
  rw [← hdrop, List.takeWhile_append_dropWhile]

theorem flush_line {b : Char} {below : Text} (hb : isSpace b = false) : Flush (Text.line (b :: below)) := by
  have hbreak : b ≠ '\n' := by
    rintro rfl
    exact absurd hb (by decide)
  refine ⟨?_, Text.not_mem_line _⟩
  rw [Text.line, List.takeWhile_cons_of_pos (by simpa using hbreak)]
  simpa using hb

/-- Without white space at the ends of lines an item begins with a mark, white space and a line of its own. -/
theorem itemHead_of_trimmed {prev : Option Char} {head : Hit} (h : itemHead.scanner prev t = some head)
    (ht : ∀ l ∈ lines t, Trimmed l) : ∃ mark space c, IsMark mark ∧ (space ≠ [] ∧ ∀ a ∈ space, isSpace a = true) ∧
      Flush c ∧ t = mark ++ space ++ c ++ head.rest ∧ head.whole = mark ++ space ++ c ∧ head.groups = [some c] ∧
        head.rest.head?.all (· == '\n') = true := by
  obtain ⟨hcut, caps, htakes, -⟩ := Pattern.takes_of_scanner h
  obtain ⟨hprev, mark, space, content, hm, ⟨hne, hspace⟩, ⟨hcne, hline⟩, hw, -⟩ := itemHead_takes_iff.1 htakes
  have hbehind : t = mark ++ (space ++ (content ++ head.rest)) := by simp [hcut, hw]
  have hstands : ∃ a ∈ content ++ head.rest, isSpace a = false := by
    refine exists_not_space (u := mark ++ space) ?_ ⟨hcne, hline⟩
    rwa [List.append_assoc, ← hbehind]
  obtain ⟨white, b, below, hsplit, hwhite, hb⟩ := exists_gap ⟨hne, hspace⟩ hstands
  have htext : t = mark ++ white ++ Text.line (b :: below) ++ Text.afterLine (b :: below) := by
    rw [List.append_assoc, Text.line_append_afterLine, List.append_assoc, ← hsplit, hbehind]
  have hflush : Flush (Text.line (b :: below)) := flush_line hb
  have hrest := Text.head?_afterLine (b :: below)
  have hscan := itemHead_scanner hwhite hm hprev hflush hrest
  rw [← htext, h] at hscan
  obtain rfl := Option.some.inj hscan
  exact ⟨mark, white, _, hm, hwhite, hflush, htext, rfl, rfl, hrest⟩

/-- What stands below a line either begins low or goes on with an indent. -/
theorem continuation?_cases (hothers : ∀ l ∈ others, '\n' ∉ l) :
    (continuation? (startLines others) = none ∧ ∀ m ∈ others.head?, Low m) ∨
      (¬ ∀ m ∈ others.head?, Low m) ∧ ∃ indent body rest, continuation? (startLines others) =
      some (indent, body, rest) ∧
        others = body ++ rest ∧ 2 ≤ indent.length ∧ (∀ a ∈ indent, isIndent a = true) ∧ ∀ l ∈ body, indent <+: l := by
  cases others with
  | nil => exact .inl ⟨rfl, fun m hm => nomatch hm⟩
  | cons l ls =>
    rw [List.forall_mem_cons] at hothers
    have hstart : startLines (l :: ls) = '\n' :: (l ++ startLines ls) := rfl
    have hindent : Text.indent (l ++ startLines ls) = Text.indent l := by
      have hstop : ∀ a ∈ (startLines ls).head?, isIndent a = false := by
        cases ls with
        | nil => exact fun a ha => nomatch ha
        | cons k ls =>
          rintro a ⟨⟩
          decide
      by_cases hall : ∀ a ∈ l, isIndent a = true
      · have hself : l.takeWhile isIndent = l := List.takeWhile_eq_self_iff.2 hall
        rw [Text.indent, Text.indent, Text.takeWhile_run hall hstop, hself]
      · obtain ⟨a, ha, hstop⟩ : ∃ a ∈ l, isIndent a = false := by simpa using hall
        exact takeWhile_append_of_mem ha hstop _
    have hlines : lines (l ++ startLines ls) = l :: ls := by
      rw [Text.lines_startLines l hothers.2, Text.lines_eq_singleton hothers.1, List.singleton_append]
    rw [hstart, continuation?]
    simp only [hindent, hlines]
    split
    · next hlow =>
      refine .inl ⟨rfl, ?_⟩
      rintro m ⟨⟩
      exact hlow
    · next hwide =>
      refine .inr ⟨fun hlow => hwide (hlow l rfl), _, _, _, rfl, List.takeWhile_append_dropWhile.symm,
        Nat.not_lt.1 hwide,
        ?_, ?_⟩
      · exact List.all_eq_true.1 List.all_takeWhile
      · exact fun k hk => List.isPrefixOf_iff_prefix.1 (List.all_eq_true.1 List.all_takeWhile k hk)

theorem leads_item {stage : Stage} {content : Text} (ks : List Text) (h : Nested s t)
    (hlines : lines t = ls ++ m :: (ks ++ others)) (hm : m ≠ closer)
    (hbefore : ∀ x, lines (found.before ++ x) = ls ++ lines x) (hafter : found.after = startLines others)
    (hrun : ∀ u s', dialect.run n stage content s = some (u, s') → s.Le s' ∧
      ∀ e, Listed s e (m :: (ks ++ others)) → Listed s' e (opener :: (lines u ++ closer :: others))) :
    Leads dialect n (fun s' new => ∀ x, new = some x → Nested s' (found.replaceBy x))
      (do
        let inner ← rerun stage content
        return some (Html.block "li" inner)) s := by
  refine leads_stage fun u s' hu => ?_
  obtain ⟨hle, hnew⟩ := hrun u s' hu
  refine ⟨hle, leads_pure fun x hx => ?_⟩
  obtain rfl := Option.some.inj hx
  have hbreak : ∀ l ∈ others, '\n' ∉ l := fun l hl => by
    refine Text.not_mem_of_mem_lines (t := t) ?_
    simp [hlines, hl]
  have hblock : found.replaceBy (Html.block "li" u) =
      found.before ++ (opener ++ '\n' :: (u ++ '\n' :: (closer ++ startLines others))) := by
    rw [Match.replaceBy_eq, hafter]
    simp [Html.block, Html.element, opener, closer]
  have hopener : lines opener = [opener] := by decide
  have hcloser : lines closer = [closer] := by decide
  rw [Nested, hblock, hbefore, Text.lines_append_newline, Text.lines_append_newline,
    Text.lines_startLines _ hbreak, hopener,
    hcloser]
  rw [Nested, hlines] at h
  exact h.replace hm (by decide) hle hnew

theorem exists_item (hf : itemMatcher.find [] t = some found) (ht : ∀ l ∈ lines t, Trimmed l) :
    ∃ ls mark space c others, IsMark mark ∧ (space ≠ [] ∧ ∀ a ∈ space, isSpace a = true) ∧ Flush c ∧
      (∀ x, lines (found.before ++ x) = ls ++ lines x) ∧ lines t = ls ++ lines (mark ++ space ++ c) ++ others ∧
        ((∀ m ∈ others.head?, Low m) ∧ found.after = startLines others ∧ found.groups = [some c] ∨
          (¬ ∀ m ∈ others.head?, Low m) ∧ ∃ indent body rest, others = body ++ rest ∧ 2 ≤ indent.length ∧
            (∀ a ∈ indent, isIndent a = true) ∧ (∀ l ∈ body, indent <+: l) ∧ found.after = startLines rest ∧
              found.groups = [some (c ++ startLines body), some (startLines body), some indent]) := by
  have htext : found.text = t := (itemMatcher_lawful [] t found hf).1
  rw [itemMatcher_eq] at hf
  obtain ⟨head, content, hh, hg, hs⟩ := itemScanner_eq_some (itemScanner_lawful.hit_of_search hf)
  obtain ⟨-, caps, htakes, -⟩ := Pattern.takes_of_scanner hh
  obtain ⟨ls, hls⟩ := Text.exists_lines_of_start (itemHead_takes htakes).1
  have hsplit : lines t = ls ++ lines (found.whole ++ found.after) := by
    rw [← hls, ← htext, Match.text, List.append_assoc]
    rfl
  obtain ⟨mark, space, c, hm, hspace, hc, hcut, -, hg', hrest⟩ := itemHead_of_trimmed hh fun l hl =>
    ht l (hsplit ▸ List.mem_append_right ls hl)
  obtain rfl : content = c := by simpa [hg] using hg'
  obtain ⟨others, hothers, hbreak⟩ := Text.exists_startLines hrest
  rw [hcut, hothers, Text.lines_startLines _ hbreak, ← List.append_assoc] at hsplit
  refine ⟨ls, mark, space, content, others, hm, hspace, hc, hls, hsplit, ?_⟩
  rw [hothers] at hs
  obtain ⟨hnone, hlow⟩ | ⟨hhigh, indent, body, rest, hsome, hcases⟩ := continuation?_cases hbreak
  · simp only [hnone, reduceCtorEq, false_and, exists_false, or_false, true_and, Hit.mk.injEq] at hs
    exact .inl ⟨hlow, hs.2.1, hs.2.2⟩
  · simp only [hsome, reduceCtorEq, false_and, false_or, Option.some.injEq, Prod.mk.injEq, Hit.mk.injEq] at hs
    obtain ⟨_, _, _, ⟨rfl, rfl, rfl⟩, -, hafter, hgroups⟩ := hs
    exact .inr ⟨hhigh, indent, body, rest, hcases.1, hcases.2.1, hcases.2.2.1, hcases.2.2.2, hafter, hgroups⟩

theorem IsMark.mem (h : IsMark mark) {d : Char} (hd : d ∈ mark) : d ∈ "*.".toList ∨ d.isDigit = true := by
  rcases h with rfl | ⟨digits, -, hdigits, rfl⟩
  · exact .inl (List.mem_of_mem_head? (List.mem_singleton.1 hd ▸ rfl))
  · rw [List.mem_append, List.mem_singleton] at hd
    rcases hd with hd | rfl
    · exact .inr (hdigits d hd)
    · exact .inl (by decide)

theorem ne_tags_of_mem {d : Char} (hd : d ∈ l) (htag : d ∉ "</li>".toList) : l ≠ opener ∧ l ≠ closer := by
  have hsub : opener ⊆ "</li>".toList := by decide
  constructor
  · rintro rfl
    exact htag (hsub hd)
  · rintro rfl
    exact htag hd

theorem ne_tags (hm : IsMark mark) (u : Text) : mark ++ u ≠ opener ∧ mark ++ u ≠ closer := by
  have hhead : (mark ++ u).head? ≠ some '<' := hm.head_ne (by decide) u
  constructor
  all_goals
    intro h
    exact hhead (h ▸ rfl)

theorem ne_tags_of_indent {indent : Text} (hwide : 2 ≤ indent.length) (hindent : ∀ a ∈ indent, isIndent a = true)
    (h : indent <+: l) : l ≠ opener ∧ l ≠ closer := by
  obtain ⟨v, rfl⟩ := h
  obtain ⟨a, indent, rfl⟩ := List.exists_cons_of_length_pos (Nat.lt_of_lt_of_le Nat.two_pos hwide)
  have ha := hindent a List.mem_cons_self
  constructor
  all_goals
    intro h
    obtain rfl := (List.cons.inj h).1
    exact absurd ha (by decide)

theorem line_ne_closer (h : t.head?.any isSpace = true) : Text.line t ≠ closer := by
  cases t with
  | nil => contradiction
  | cons a t =>
    intro hclose
    have hhead := congrArg List.head? hclose
    rw [Text.line, List.takeWhile_cons] at hhead
    split at hhead
    · obtain rfl : a = '<' := Option.some.inj hhead
      have hspace : isSpace '<' = true := h
      exact absurd hspace (by decide)
    · contradiction

/-- Behind the block stage no line is a mark or a colon. -/
theorem not_lone_of_not_isProse (h : Block.isProse l = false) : ¬ Lone l := by
  rw [Block.isProse_eq_false_iff] at h
  rintro (hm | rfl)
  · have hhead : (l ++ []).head? ≠ some ';' := hm.head_ne (by decide) []
    rw [List.append_nil] at hhead
    rcases h with rfl | h
    · exact hm.ne_nil rfl
    · exact hhead (Line.head?_of_leads h)
  · exact absurd h (by decide)

section
variable (hm : IsMark mark) (hspace : space ≠ [] ∧ ∀ a ∈ space, isSpace a = true)
include hm hspace

/-- The rest of an item's line may be given to the line stage. -/
theorem row_of_item (h : Row s (mark ++ space ++ c)) (hline : '\n' ∉ space) (hc : Flush c) : Row s c ∧ Spun s c := by
  have hhead {d : Char} (hd : d ≠ '*' ∧ d.isDigit = false) : (mark ++ space ++ c).head? ≠ some d := by
    rw [List.append_assoc]
    exact hm.head_ne hd _
  have hsigns : ∀ d ∈ ";<\n".toList, d ∉ mark ++ space := by
    have hmark : ∀ d ∈ ";<\n".toList, d ∉ "*.".toList ∧ d.isDigit = false ∧ (isSpace d = false ∨ d = '\n') := by decide
    intro d hd hmem
    obtain ⟨hstar, hdigit, hblank⟩ := hmark d hd
    rw [List.mem_append] at hmem
    rcases hmem with hmem | hmem
    · rcases hm.mem hmem with hmem | hmem
      · exact hstar hmem
      · simp [hdigit] at hmem
    · rcases hblank with hblank | rfl
      · simp [hspace.2 d hmem] at hblank
      · exact hline hmem
  have hlast : (mark ++ space).getLast?.any Line.isNameChar = false := by
    rw [List.getLast?_append_of_ne_nil _ hspace.1, List.getLast?_eq_some_getLast hspace.1]
    exact Line.isNameChar_of_isSpace (hspace.2 _ (List.getLast_mem hspace.1))
  have hflush : Line.Flush c := by
    intro u v huv hne
    obtain ⟨d, u, rfl⟩ := List.exists_cons_of_ne_nil hne
    exact ⟨d, List.mem_cons_self, by simpa [huv] using hc.head⟩
  exact ⟨h.drop_front (hhead (by decide)) hsigns hlast hflush,
    (h.spun_of_head (hhead (by decide))).drop_front hsigns hlast⟩

/-- Over a line break a mark can only take the tag that closes its item. -/
theorem bare_mark (h : Listed s d (lines (mark ++ space ++ c) ++ others)) (hline : '\n' ∈ space) (hc : Flush c) :
    space = ['\n'] ∧ c = closer ∧ ∀ m ∈ others.head?, Low m := by
  obtain ⟨x, y, rfl, hx⟩ := List.eq_append_cons_of_mem hline
  have hfirst : lines (mark ++ (x ++ '\n' :: y) ++ c) = (mark ++ x) :: lines (y ++ c) := by
    have hbreak : '\n' ∉ mark ++ x := by
      rw [List.mem_append, not_or]
      exact ⟨hm.newline_not_mem, hx⟩
    rw [← List.append_assoc, List.append_assoc, List.cons_append, Text.lines_append_newline,
      Text.lines_eq_singleton hbreak]
    rfl
  rw [hfirst, List.cons_append] at h
  obtain rfl : x = [] := by
    have htrim : Trimmed (mark ++ x) := h.trimmed _ List.mem_cons_self
    rcases List.eq_nil_or_concat' x with rfl | ⟨x, a, rfl⟩
    · rfl
    · rw [Trimmed, ← List.append_assoc, List.getLast?_concat] at htrim
      simp [hspace.2 a (by simp)] at htrim
  rw [List.append_nil] at h
  have hne := ne_tags hm []
  rw [List.append_nil] at hne
  obtain ⟨-, hlone, -⟩ := h.row_inv hne
  obtain ⟨ms, hms, hlow⟩ := hlone (.inl hm)
  obtain ⟨ls, hls⟩ := Text.exists_lines_eq_line_cons (y ++ c)
  rw [hls, List.cons_append] at hms
  obtain ⟨hclose, rfl⟩ := List.cons.inj hms
  cases y with
  | nil =>
    obtain rfl : c = closer := by rwa [List.nil_append, Text.line_eq_self hc.line] at hclose
    have hone : lines closer = [closer] := by decide
    rw [List.nil_append, hone] at hls
    obtain rfl := (List.cons.inj hls).2
    exact ⟨rfl, rfl, hlow⟩
  | cons a y =>
    have ha : isSpace a = true := hspace.2 a (by simp)
    exact absurd hclose (line_ne_closer ha)

theorem listed_of_line (h : Listed s d ((mark ++ space ++ c) :: others)) (hline : '\n' ∉ space) (hc : Flush c)
    (hlow : ∀ m ∈ others.head?, Low m) {u : Text} (hu : dialect.run n .line c s = some (u, s')) :
    s.Le s' ∧ ∀ e, Listed s e ((mark ++ space ++ c) :: others) →
    Listed s' e (opener :: (lines u ++ closer :: others)) := by
  have hne := ne_tags hm (space ++ c)
  rw [← List.append_assoc] at hne
  obtain ⟨hrow, hspun⟩ := row_of_item hm hspace (h.row_inv hne).1 hline hc
  obtain ⟨hle, hout⟩ := hspun.run hu
  have hone : lines u = [u] := Text.lines_eq_singleton (Line.line_of_run hu hc.line)
  have hends := Line.lines_of_run hu (by
    rw [Text.lines_eq_singleton hc.line]
    exact List.forall_mem_singleton.2 ⟨hrow.trimmed, hrow.flush⟩)
  rw [hone, List.forall_mem_singleton] at hends
  refine ⟨hle, fun e he => ?_⟩
  rw [hone]
  exact .opens (.row (.of_spun hout hends.1 hends.2) (fun _ => ⟨others, rfl, hlow⟩)
    (.closes ((he.row_inv hne).2.2.mono hle)))

theorem listed_of_block (hb : MakesRows n) (h : Listed s d ((mark ++ space ++ c) :: (ks ++ others)))
    (hline : '\n' ∉ space)
    (hc : Flush c) {indent : Text} (hwide : 2 ≤ indent.length) (hindent : ∀ a ∈ indent, isIndent a = true)
    (hks : ∀ k ∈ ks, indent <+: k ∧ '\n' ∉ k) {u : Text}
    (hu : dialect.run n .block (Text.stripIndent indent (c ++ startLines ks)) s = some (u, s')) :
    s.Le s' ∧ ∀ e, Listed s e ((mark ++ space ++ c) :: (ks ++ others)) →
      Listed s' e (opener :: (lines u ++ closer :: others)) := by
  have hne := ne_tags hm (space ++ c)
  rw [← List.append_assoc] at hne
  have hnes : ∀ k ∈ ks, k ≠ opener ∧ k ≠ closer := fun k hk => ne_tags_of_indent hwide hindent (hks k hk).1
  obtain ⟨hrow, -, hbelow⟩ := h.row_inv hne
  have hrows := (hbelow.rows_inv hnes).1
  have hcontent : Rows s (c ++ startLines ks) := by
    intro k hk
    rw [Text.lines_startLines c fun k hk => (hks k hk).2, Text.lines_eq_singleton hc.line, List.singleton_append] at hk
    exact List.forall_mem_cons.2 ⟨(row_of_item hm hspace hrow hline hc).1, hrows⟩ k hk
  obtain ⟨hle, hout⟩ := hb s _ u s' (hcontent.stripIndent hindent) hu
  refine ⟨hle, fun e he => .opens (.append_rows (fun k hk => ⟨hout k hk, ?_⟩) (.closes ?_))⟩
  · exact not_lone_of_not_isProse (Block.not_isProse_of_runs ⟨n, hu⟩ k hk)
  · exact ((he.row_inv hne).2.2.rows_inv hnes).2.mono hle

end

/-- The line stage has nothing to do on a line with a closing tag. -/
theorem closer_of_run (h : dialect.run n .line closer s = some (t, s')) : t = closer ∧ s' = s := by
  have hquiet := Line.rules_quiet (t := closer) (Line.emphasis_quiet (by decide) (by decide)) (by decide)
  exact Grammar.AppliesAll.unique (Grammar.runs_iff.1 ⟨n, h⟩) (Grammar.appliesAll_quiet hquiet s)

/-- A mark above a closing tag becomes an item that holds the tag. -/
theorem listed_of_closer (hm : IsMark mark) (hu : dialect.run n .line closer s = some (t, s')) :
    s.Le s' ∧ ∀ e, Listed s e (mark :: ([closer] ++ others)) →
    Listed s' e (opener :: (lines t ++ closer :: others)) := by
  have hmark := ne_tags hm []
  rw [List.append_nil] at hmark
  have hone : lines closer = [closer] := by decide
  obtain ⟨rfl, rfl⟩ := closer_of_run hu
  refine ⟨.refl _, fun e he => ?_⟩
  obtain ⟨e, rfl, hothers⟩ := (he.row_inv hmark).2.2.closer_inv
  rw [hone]
  exact .opens (.closes (.closes hothers))

theorem item_upholds (hb : MakesRows n) : item.Upholds dialect n Nested := by
  refine Rule.upholds_of_round (progresses (r := item) (by simp [rules]) rfl) fun s t found ht hf => ?_
  obtain ⟨ls, mark, space, c, others, hm, hspace, hc, hbefore, hlines, hcases⟩ := exists_item hf ht.trimmed
  have hbreak : ∀ l ∈ others, '\n' ∉ l := fun l hl =>
    Text.not_mem_of_mem_lines (hlines ▸ List.mem_append_right _ hl)
  have hne := ne_tags hm (space ++ c)
  rw [← List.append_assoc] at hne
  rw [List.append_assoc] at hlines
  have hlisted := ht
  rw [Nested, hlines] at hlisted
  obtain ⟨e, hbelow⟩ := hlisted.exists_suffix
  by_cases hline : '\n' ∈ space
  · obtain ⟨rfl, rfl, hlow⟩ := bare_mark hm hspace hbelow hline hc
    obtain ⟨-, hafter, hgroups⟩ := hcases.resolve_right fun hhigh => hhigh.1 hlow
    have h₁ : found.group 1 = some closer := by simp [Match.group, hgroups]
    have h₃ : found.group 3 = none := by simp [Match.group, hgroups]
    have htwo : lines (mark ++ ['\n'] ++ closer) = [mark, closer] := by
      rw [List.append_assoc, List.singleton_append, Text.lines_append_newline,
        Text.lines_eq_singleton hm.newline_not_mem,
        Text.lines_eq_singleton hc.line]
      rfl
    have hmark := ne_tags hm []
    rw [List.append_nil] at hmark
    rw [htwo, List.cons_append] at hlines
    simp only [h₁, h₃]
    exact leads_item [closer] ht hlines hmark.2 hbefore hafter fun u s' hu => listed_of_closer hm hu
  · have hone : lines (mark ++ space ++ c) = [mark ++ space ++ c] := Text.lines_eq_singleton (by
      simp [hm.newline_not_mem, hline, hc.line])
    rw [hone, List.singleton_append] at hlines hbelow
    obtain ⟨hlow, hafter, hgroups⟩ | ⟨-, indent, body, rest, rfl, hwide, hindent, hbody, hafter, hgroups⟩ := hcases
    · have h₁ : found.group 1 = some c := by simp [Match.group, hgroups]
      have h₃ : found.group 3 = none := by simp [Match.group, hgroups]
      simp only [h₁, h₃]
      exact leads_item [] ht hlines hne.2 hbefore hafter fun u s' hu => listed_of_line hm hspace hbelow hline hc hlow hu
    · have h₁ : found.group 1 = some (c ++ startLines body) := by simp [Match.group, hgroups]
      have h₃ : found.group 3 = some indent := by simp [Match.group, hgroups]
      simp only [h₁, h₃]
      refine leads_item body ht hlines hne.2 hbefore hafter fun u s' hu => ?_
      have hks : ∀ k ∈ body, indent <+: k ∧ '\n' ∉ k :=
        fun k hk => ⟨hbody k hk, hbreak k (List.mem_append_left rest hk)⟩
      exact listed_of_block hm hspace hb hbelow hline hc hwide hindent hks hu

end Markup.Listing
