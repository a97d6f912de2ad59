import Markup.Proofs.Block.Lines
import Markup.Proofs.Block.Rules

/-! # Block rules on both sides of a seam

Nothing that begins on the left goes on beyond the seam, and nothing on the right is taken by what begins on the left:
the last line of the left text is empty or holds tokens only, and the right text does not begin with a blank line. -/
namespace Markup.Block
open Pattern Program
open Text hiding lineEnd
variable {a b u v : Text}

theorem not_mem_lines_of_tame (h : Tame (u ++ v)) (hu : Starts u) {l : Text} (hb : Bare l.trimEnd) : l ∉ v.lines := by
  obtain ⟨ls, hls⟩ := hu.exists_lines
  intro hl
  refine h l ?_ hb
  rw [hls]
  exact List.mem_append_right _ hl

theorem fenced_seam {mark : String} (hm : mark.toList ≠ [] ∧ '\n' ∉ mark.toList) (hb : Bare (trimEnd mark.toList))
    (ha : Paused a) (b : Text) : (fenced mark).matcher.Seam a b := by
  refine matcher_seam (fun u v huv => ?_) rfl
  have hopening : (lineStart ++ word mark).inLine false = true := by
    change (true && !mark.toList.contains '\n') = true
    simpa using hm.2
  have hfirst : (lineStart ++ word mark ++ word "\n").Seam ('\n' :: b) ⟨u.getLast?, 0, v, []⟩ := by
    refine seam_both (seam_within hopening) fun w caps e hpast ht => seam_newline ?_
    obtain ⟨_, _, _, _, rfl, -, ⟨-, rfl, -⟩, rfl, -⟩ := ht
    have hv : v = mark.toList ++ e.ahead := hpast.ahead
    have hlast := ha.last
    rw [huv, hv, ← List.append_assoc] at hlast
    exact ne_nil_of_getLast? hlast hm.1 fun h => hm.2 (List.mem_of_getLast? h)
  have hvoid : ∀ w rest caps, v = w ++ rest → ¬ (lineStart ++ word mark ++ word "\n").Takes u.getLast? w rest caps := by
    rintro _ rest _ hv ⟨_, _, _, _, rfl, -, ⟨_, _, _, _, rfl, -, ⟨hstart, rfl, -⟩, rfl, -⟩, rfl, -⟩
    refine not_mem_lines_of_tame (huv ▸ ha.tame) hstart hb ?_
    have hlines := lines_append_newline mark.toList rest
    rw [lines_eq_singleton hm.2] at hlines
    have heq : v = mark.toList ++ '\n' :: rest := by simpa using hv
    rw [heq, hlines]
    exact List.mem_cons_self
  have h₁ := seam_void hfirst hvoid (group 1 (reluctant fun _ => true))
  have v₁ := void_append (s := ⟨u.getLast?, 0, v, []⟩) hvoid (group 1 (reluctant fun _ => true))
  have h₂ := seam_void h₁ v₁ (word "\n")
  have v₂ := void_append (s := ⟨u.getLast?, 0, v, []⟩) v₁ (word "\n")
  have h₃ := seam_void h₂ v₂ (word mark)
  have v₃ := void_append (s := ⟨u.getLast?, 0, v, []⟩) v₂ (word mark)
  exact seam_void h₃ v₃ lineEnd

theorem seam_of_fenced {name mark : String} {f : Match → Program (Option Text)} (make : Text → Text)
    (hp : Rule.Progresses dialect (fenced mark).matcher f) (hn : Rule.Narrow f)
    (hf : ∀ m text, m.group 1 = some text → f m = do return some (← Program.hide (make text)))
    (hm : mark.toList ≠ [] ∧ '\n' ∉ mark.toList) (hb : Bare (trimEnd mark.toList)) :
    (Rule.pattern name (fenced mark).matcher f).Seam dialect Paused Opens := by
  refine Rule.seam_of_stamped hp hn (fun a b ha _ => fenced_seam hm hb ha b) fun t found h => ?_
  obtain ⟨-, text, -, hw, hg⟩ := fenced_shape h
  have h₁ : found.group 1 = some text := by simp [Match.group, hg]
  refine ⟨(takes_of_find h).1, by simp [hw], ?_, ?_⟩
  · rw [hw, List.append_cons, List.getLast?_append_of_ne_nil _ hm.1]
    exact fun h => hm.2 (List.mem_of_getLast? h)
  · rw [hf found text h₁]
    exact yields_hide fun n => yields_pure (stamped_ofId n)

theorem quote_seam : quote.Seam dialect Paused Opens := by
  have hp := progresses (r := quote) (by simp [rules]) rfl
  refine seam_of_fenced (fun text => Html.block "blockquote" (Text.breakLines text)) hp (fun _ _ _ => rfl)
    (fun m text h => ?_) (by decide) (.inr (.inl (by decide)))
  simp only [h]

theorem horizontalRule_seam : horizontalRule.Seam dialect Paused Opens := by
  have hp := progresses (r := horizontalRule) (by simp [rules]) rfl
  refine Rule.seam_of_inLine (by decide) (by decide) hp (fun _ _ _ => rfl) fun t found _ _ => ?_
  exact yields_token stamped_ofId

/-- An underline is looked for only behind a character of the line above it. -/
theorem titled_seam {w : Text} (ha : Paused a) (hw : w ≠ []) (hlast : w.getLast? ≠ some '\n') {e : State}
    (heq : a = u ++ w ++ e.ahead) : underline.Seam ('\n' :: b) e := by
  have hlast' := ha.last
  rw [heq] at hlast'
  exact seam_both (seam_newline (ne_nil_of_getLast? hlast' hw hlast)) fun _ _ _ _ _ => seam_within (by decide)

theorem getLast?_of_inLine {w : Text} (h : ∀ c ∈ w, inLine c = true) : w.getLast? ≠ some '\n' := by
  intro hlast
  have := h '\n' (List.mem_of_getLast? hlast)
  simp [inLine] at this

theorem underlined_seam (ha : Paused a) (huv : a = u ++ v) :
    (lineStart ++ group 1 (atLeast 1 inLine) ++ underline).Seam ('\n' :: b) ⟨u.getLast?, 0, v, []⟩ := by
  refine seam_both (seam_within (by decide)) fun w caps e hpast ht => ?_
  simp only [takes_append, takes_group, takes_atLeast, takes_lineStart] at ht
  obtain ⟨_, w, _, _, rfl, -, ⟨-, rfl, -⟩, _, ⟨hall, hl, -⟩, -⟩ := ht
  have hv : v = w ++ e.ahead := hpast.ahead
  refine titled_seam ha (List.ne_nil_of_length_pos hl) (getLast?_of_inLine hall) (u := u) ?_
  rw [huv, hv, List.append_assoc]

theorem titlePattern_seam (ha : Paused a) (b : Text) : titlePattern.matcher.Seam a b :=
  matcher_seam (fun _ _ huv => seam_both (underlined_seam ha huv) fun _ _ _ _ _ => seam_lineEnd rfl) (by decide)

theorem titleWithSubtitlePattern_seam (ha : Paused a) (b : Text) : titleWithSubtitlePattern.matcher.Seam a b := by
  refine matcher_seam (fun u v huv => ?_) (by decide)
  have hbelow : (lineStart ++ group 1 (atLeast 1 inLine) ++ underline ++ word "\n").Seam ('\n' :: b)
      ⟨u.getLast?, 0, v, []⟩ := by
    refine seam_both (underlined_seam ha huv) fun w caps e hpast ht => seam_newline ?_
    obtain ⟨x, y, _, _, rfl, -, -, hy⟩ := ht
    obtain ⟨⟨eqs, hl, hall, rfl⟩, -⟩ := underline_takes hy
    have hv : v = x ++ '\n' :: eqs ++ e.ahead := hpast.ahead
    have hlast := ha.last
    have heq : a = (u ++ x ++ ['\n']) ++ eqs ++ e.ahead := by simp [huv, hv]
    rw [heq] at hlast
    refine ne_nil_of_getLast? hlast (List.ne_nil_of_length_pos (by omega)) fun h => ?_
    exact absurd (hall _ (List.mem_of_getLast? h)) (by decide)
  refine seam_both (seam_both (seam_both hbelow fun _ _ _ _ _ => ?_) fun _ _ _ _ _ => ?_) fun _ _ _ _ _ => ?_
  · exact seam_within (by decide)
  · exact seam_within (by decide)
  · exact seam_within (by decide)

theorem title_seam : title.Seam dialect Paused Opens := by
  have hp := progresses (r := title) (by simp [rules]) rfl
  refine Rule.seam_of_stamped hp (fun _ _ _ => rfl) (fun a b ha _ => titlePattern_seam ha b) fun t found hf => ?_
  obtain ⟨-, title, eqs, hl, hall, -, hw, hg⟩ := title_shape hf
  have h₁ : found.group 1 = some title := by simp [Match.group, hg]
  refine ⟨(takes_of_find hf).1, by simp [hw], fun h => ?_, ?_⟩
  · rw [hw, List.append_cons, List.getLast?_append_of_ne_nil _ (List.ne_nil_of_length_pos (by omega))] at h
    exact absurd (hall _ (List.mem_of_getLast? h)) (by decide)
  · simp only [h₁]
    exact yields_hide fun n => yields_pure (stamped_ofId n)

theorem titleWithSubtitle_seam : titleWithSubtitle.Seam dialect Paused Opens := by
  have hp := progresses (r := titleWithSubtitle) (by simp [rules]) rfl
  refine Rule.seam_of_stamped hp (fun _ _ _ => rfl) (fun a b ha _ => titleWithSubtitlePattern_seam ha b)
    fun t found hf => ?_
  obtain ⟨-, title, _, _, subtitle, -, -, -, -, hne, hbreak, hw, hg⟩ := titleWithSubtitle_shape hf
  have h₁ : found.group 1 = some title := by simp [Match.group, hg]
  have h₂ : found.group 2 = some subtitle := by simp [Match.group, hg]
  refine ⟨(takes_of_find hf).1, by simp [hw], fun h => ?_, ?_⟩
  · rw [hw, List.getLast?_append_of_ne_nil _ hne] at h
    exact hbreak _ (List.mem_of_getLast? h) rfl
  · simp only [h₁, h₂]
    exact yields_hide fun n => yields_pure (stamped_ofId n)

theorem trimEnd_replicate (n : Nat) : trimEnd (List.replicate n '#') = List.replicate n '#' := by
  have hspace : isSpace '#' = false := by decide
  cases n with
  | zero => rfl
  | succ n => rw [trimEnd, List.reverse_replicate, List.replicate_succ, List.dropWhile_cons_of_neg (by simp [hspace]),
      ← List.replicate_succ, List.reverse_replicate]

theorem exists_text_of_tame {hashes : Text} {n : Nat} (h : Tame (u ++ (hashes ++ v))) (hu : Starts u)
    (hh : hashes = List.replicate n '#') (hn : 1 ≤ n ∧ n ≤ 5) : ∃ c ∈ v, isSpace c = false := by
  by_contra hall
  have hspace : ∀ c ∈ v.line, isSpace c = true := fun c hc => by
    by_contra hs
    exact hall ⟨c, List.takeWhile_subset _ hc, Bool.eq_false_iff.2 hs⟩
  have hbreak : '\n' ∉ hashes := by
    rw [hh]
    intro hm
    exact absurd (List.eq_of_mem_replicate hm) (by decide)
  refine not_mem_lines_of_tame h hu (l := hashes ++ v.line) ?_ ?_
  · rw [trimEnd_append _ hspace, hh, trimEnd_replicate]
    exact .inr (.inr ⟨n, hn.1, hn.2, rfl⟩)
  · rw [lines_append_of_not_mem hbreak]
    exact List.mem_cons_self

theorem not_all_space_of_opens (hb : Opens b) {w rest : Text} (heq : b = w ++ rest) (hw : ∀ c ∈ w, isSpace c = true) :
    rest.head?.all (· == '\n') = false := by
  obtain ⟨c, hc, hs⟩ := hb
  have hcw : c ∉ w := fun h => by simp [hw c h] at hs
  by_contra hstop
  rw [Bool.not_eq_false] at hstop
  by_cases hbreak : '\n' ∈ w
  · rw [heq, line_append_of_mem hbreak] at hc
    exact hcw (List.takeWhile_subset _ hc)
  · have hline : rest.line = [] := by
      cases rest with
      | nil => rfl
      | cons d rest =>
        obtain rfl : d = '\n' := by simpa using hstop
        rfl
    rw [heq, line_append_of_not_mem hbreak, hline, List.append_nil] at hc
    exact hcw hc

/-- White space up to the end of a line does not end beyond the seam, because the right text does not begin with a blank
line. -/
theorem spaces_seam (hb : Opens b) (s : State) : (atLeast 0 isSpace ++ lineEnd).Seam ('\n' :: b) s := by
  intro next₁ next₂ s₂ hs hn
  obtain ⟨ends, further, heq, hends, hfurther⟩ := runEnds_append ('\n' :: b) isSpace 0 none s s₂ s.ahead
    ⟨hs.prev, hs.taken, rfl, hs.captures⟩
  have hbeyond : ∀ e ∈ further, lineEnd.walk next₂ e = none := fun e he => by
    obtain ⟨w, hne, hw, hall⟩ := hfurther e he
    obtain ⟨c, w, rfl⟩ := List.exists_cons_of_ne_nil hne
    obtain ⟨rfl, hb'⟩ := List.cons.inj hw
    have hspace : ∀ d ∈ w, isSpace d = true := fun d hd =>
      hall d (List.mem_append_right _ (List.mem_cons_of_mem _ hd))
    rw [walk, not_all_space_of_opens hb hb' hspace]
    rfl
  have hfar : further.reverse.findSome? (lineEnd.walk next₂) = none :=
    List.findSome?_eq_none_iff.2 fun e he => hbeyond e (List.mem_reverse.1 he)
  have hwalk {s : State} {next : State → Option State} : (atLeast 0 isSpace ++ lineEnd).walk next s =
      (runEnds isSpace 0 none s s.ahead).reverse.findSome? (lineEnd.walk next) := rfl
  rw [hwalk, hwalk, hs.ahead, heq, List.reverse_append, List.findSome?_append, hfar, Option.none_or]
  refine rel_findSome?_of_forall₂ (List.forall₂_reverse_iff.2 hends) fun e he e₂ hext => ?_
  obtain ⟨w, hw, hl, hm, hpast⟩ := past_of_mem_runEnds (List.mem_reverse.1 he)
  refine seam_lineEnd rfl _ _ e₂ hext fun x c k k₂ hpast' ht hk => ?_
  refine hn (w ++ x) (c ++ []) k k₂ (hpast.trans hpast') ⟨w, x, [], c, rfl, rfl, ⟨hw, hl, hm, rfl⟩, ?_⟩ hk
  exact ht

theorem headingPattern_seam (ha : Tame a) (hb : Opens b) : headingPattern.matcher.Seam a b := by
  refine matcher_seam (fun u v huv => seam_assoc (seam_both (seam_both (seam_both ?_ ?_) ?_) ?_)) (by decide)
  · exact seam_within (by decide)
  · intro w caps e hpast ht
    simp only [takes_append, Takes] at ht
    obtain ⟨_, hashes, _, _, rfl, -, ⟨hstart, rfl, -⟩, _, ⟨hall, hl, hm, -⟩, -⟩ := ht
    have hv : v = hashes ++ e.ahead := hpast.ahead
    have hsame : hashes = List.replicate hashes.length '#' :=
      List.eq_replicate_iff.2 ⟨rfl, fun c hc => beq_iff_eq.1 (hall c hc)⟩
    have htext := exists_text_of_tame (hv ▸ huv ▸ ha) hstart hsame ⟨hl, hm 5 rfl⟩
    exact seam_run rfl (.inr (.inr htext))
  · exact fun _ _ _ _ _ => seam_within (by decide)
  · exact fun _ _ e _ _ => spaces_seam hb e

theorem heading_seam : heading.Seam dialect Settled Opens := by
  have hp := progresses (r := heading) (by simp [rules]) rfl
  exact Rule.seam_of_token hp (fun _ _ _ => rfl) (fun a b ha hb => headingPattern_seam ha.tame hb) heading_hidesLines

/-- A line that holds a character which no token has is not the last one of a closed text. -/
theorem ahead_ne_nil {p : Pattern} (ha : Closed a) (hl : p.inLine false = true)
    (hd : ∀ {prev : Option Char} {w rest : Text} {caps : List (Nat × Text)}, p.Takes prev w rest caps →
      ∃ d ∈ w, d ∉ Token.alphabet) {prev : Option Char} {w rest : Text} {caps : List (Nat × Text)}
    (heq : a = u ++ (w ++ rest)) (ht : p.Takes prev w rest caps) : rest ≠ [] := by
  have hbreak := newline_not_mem_of_takes hl ht
  obtain ⟨d, hmem, hd⟩ := hd ht
  obtain ⟨x, y, rfl⟩ := List.append_of_mem hmem
  have hsplit : a = (u ++ x) ++ d :: (y ++ rest) := by simpa using heq
  have hne : d ≠ '\n' := fun h => hbreak (h ▸ hmem)
  have hnext := (hsplit ▸ ha).newline_mem hd hne
  rintro rfl
  exact hbreak (by simp_all)

theorem seam_lineBreak {e : State} (h : e.ahead ≠ []) : lineBreak.Seam ('\n' :: b) e :=
  seam_either (seam_newline h) (seam_literal rfl (.inr (.inl List.not_mem_nil)))

theorem line_seam {p : Pattern} (ha : Closed a) (hl : p.inLine false = true)
    (hd : ∀ {prev : Option Char} {w rest : Text} {caps : List (Nat × Text)}, p.Takes prev w rest caps →
      ∃ d ∈ w, d ∉ Token.alphabet) {e : State} (heq : a = u ++ e.ahead) : (p ++ lineBreak).Seam ('\n' :: b) e :=
  seam_both (seam_within hl) fun _ _ _ hpast ht => seam_lineBreak (ahead_ne_nil ha hl hd (hpast.ahead ▸ heq) ht)

def tableRow : Pattern := word "|" ++ atLeast 1 inLine ++ word "|" ++ lineEnd

theorem tableRow_takes {prev : Option Char} {w rest : Text} {caps : List (Nat × Text)}
    (h : tableRow.Takes prev w rest caps) : ∃ d ∈ w, d ∉ Token.alphabet := by
  simp only [tableRow, takes_append, takes_word] at h
  obtain ⟨_, _, _, _, rfl, -, ⟨_, _, _, _, rfl, -, ⟨_, _, _, _, rfl, -, ⟨rfl, -⟩, -⟩, -⟩, -⟩ := h
  exact ⟨'|', by simp, by decide⟩

theorem tablePattern_seam (ha : Closed a) (b : Text) : tablePattern.matcher.Seam a b := by
  refine matcher_seam (fun u v huv => ?_) (by decide)
  have hrow {w : Text} {e : State} (heq : v = w ++ e.ahead) : (tableRow ++ lineBreak).Seam ('\n' :: b) e :=
    line_seam ha (by decide) tableRow_takes (by rw [huv, heq, ← List.append_assoc])
  refine seam_both (seam_both (seam_within (by decide)) fun w caps e hpast _ => ?_) fun _ _ _ _ _ => seam_lineEnd rfl
  have he : v = w ++ e.ahead := hpast.ahead
  refine seam_both (hrow he) fun w' caps' e' hpast' _ => seam_star (by decide) fun w'' caps'' e'' hpast'' => ?_
  refine hrow (w := w ++ w' ++ w'') ?_
  rw [he, hpast'.ahead, hpast''.ahead, List.append_assoc, List.append_assoc]

theorem table_seam : table.Seam dialect Settled Opens := by
  have hp := progresses (r := table) (by simp [rules]) rfl
  exact Rule.seam_of_token hp (fun _ _ _ => rfl) (fun a b ha _ => tablePattern_seam ha.closed b) table_hidesLines

theorem exists_indent {w : Text} (h : ∃ d ∈ w, isIndent d = true) : ∃ d ∈ w, d ∉ Token.alphabet := by
  have halphabet : ∀ c ∈ Token.alphabet, isIndent c = false := by decide
  obtain ⟨d, hd, hindent⟩ := h
  refine ⟨d, hd, fun ha => ?_⟩
  simp [halphabet d ha] at hindent

theorem itemLine_indent {mark : Pattern} {prev : Option Char} {w rest : Text} {caps : List (Nat × Text)}
    (h : (itemLine mark).Takes prev w rest caps) : ∃ d ∈ w, isIndent d = true := by
  simp only [itemLine, takes_append, takes_atLeast] at h
  obtain ⟨_, _, _, _, rfl, -, ⟨_, indent, _, _, rfl, -, -, hi, hl, -⟩, -⟩ := h
  obtain ⟨d, indent, rfl⟩ := List.exists_cons_of_length_pos hl
  exact ⟨d, by simp, hi d List.mem_cons_self⟩

theorem itemLine_takes {mark : Pattern} {prev : Option Char} {w rest : Text} {caps : List (Nat × Text)}
    (h : (itemLine mark).Takes prev w rest caps) : ∃ d ∈ w, d ∉ Token.alphabet := exists_indent (itemLine_indent h)

theorem continuationLine_indent {prev : Option Char} {w rest : Text} {caps : List (Nat × Text)}
    (h : continuationLine.Takes prev w rest caps) : ∃ d ∈ w, isIndent d = true := by
  simp only [continuationLine, takes_append, takes_atLeast] at h
  obtain ⟨_, _, _, _, rfl, -, ⟨_, indent, _, _, rfl, -, -, hi, hl, -⟩, -⟩ := h
  obtain ⟨d, indent, rfl⟩ := List.exists_cons_of_length_pos (Nat.lt_of_lt_of_le Nat.two_pos hl)
  exact ⟨d, by simp, hi d List.mem_cons_self⟩

theorem continuationLine_takes {prev : Option Char} {w rest : Text} {caps : List (Nat × Text)}
    (h : continuationLine.Takes prev w rest caps) : ∃ d ∈ w, d ∉ Token.alphabet :=
      exists_indent (continuationLine_indent h)

theorem moreItems_seam {mark : Pattern} (ha : Closed a) (hl : (itemLine mark).inLine false = true) {e : State}
    (hu : a = u ++ e.ahead) : (moreItems mark).Seam ('\n' :: b) e := by
  have hsize : 1 ≤ (itemLine mark ++ lineBreak <|> continuationLine ++ lineBreak).size := by
    change 1 ≤ min (0 + mark.size + 1 + 1 + min 1 0) 3
    omega
  refine seam_both (seam_star hsize fun w caps k hpast => ?_) fun _ _ _ _ _ => seam_lineEnd rfl
  have heq : a = (u ++ w) ++ k.ahead := by rw [hu, hpast.ahead, List.append_assoc]
  exact seam_either (line_seam ha hl itemLine_takes heq) (line_seam ha (by decide) continuationLine_takes heq)

theorem unorderedListPattern_seam (ha : Closed a) (b : Text) : unorderedListPattern.matcher.Seam a b := by
  refine matcher_seam (fun u v huv => ?_) (by decide)
  refine seam_both (line_seam ha (by decide) itemLine_takes huv) fun w caps e hpast _ => ?_
  have he : v = w ++ e.ahead := hpast.ahead
  exact moreItems_seam (u := u ++ w) ha (by decide) (by rw [huv, he, List.append_assoc])

theorem orderedListPattern_seam (ha : Closed a) (b : Text) : orderedListPattern.matcher.Seam a b := by
  refine matcher_seam (fun u v huv => ?_) (by decide)
  have hl : (itemLine ordinal).inLine false = true := by decide
  refine seam_both (seam_both (seam_within hl) fun w caps e hpast ht => ?_) fun w caps e hpast _ => ?_
  · have he : v = w ++ e.ahead := hpast.ahead
    exact seam_newline (ahead_ne_nil ha hl itemLine_takes (he ▸ huv) ht)
  · have he : v = w ++ e.ahead := hpast.ahead
    exact moreItems_seam (u := u ++ w) ha hl (by rw [huv, he, List.append_assoc])

theorem list_seam {name tag : String} {m : Matcher} (hr : Rule.pattern name m (fun m => listBlock tag m.whole) ∈ rules)
    (hm : ∀ a b, Settled a → Opens b → m.Seam a b)
    (hl : (Rule.pattern name m fun m => listBlock tag m.whole).HidesLines dialect) :
    (Rule.pattern name m fun m => listBlock tag m.whole).Seam dialect Settled Opens :=
  Rule.seam_of_token (progresses hr rfl) (fun _ _ _ => rfl) hm hl

theorem unorderedList_seam : unorderedList.Seam dialect Settled Opens :=
  list_seam (List.mem_of_getElem? (i := 6) rfl) (fun _ b ha _ => unorderedListPattern_seam ha.closed b)
    unorderedList_hidesLines

theorem orderedList_seam : orderedList.Seam dialect Settled Opens :=
  list_seam (List.mem_of_getElem? (i := 7) rfl) (fun _ b ha _ => orderedListPattern_seam ha.closed b)
    orderedList_hidesLines

theorem definitionList_seam : definitionList.Seam dialect Settled Opens :=
  list_seam (List.mem_of_getElem? (i := 8) rfl)
    (fun _ b ha _ => (Listing.definitionListScanner_seam ha.closed b).matcher _) definitionList_hidesLines

theorem isProse_tokens (ns : List Nat) : isProse (ns.flatMap Token.ofId) = false := by
  cases ns with
  | nil => rfl
  | cons n ns => simp [isProse, Token.leads_ofId]

theorem paragraphScanner_seam (ha : Closed a) (b : Text) : paragraphScanner.Seam a b := by
  refine ⟨fun u v huv => ?_, rfl⟩
  rw [paragraphScanner, paragraphScanner]
  by_cases hstart : u.getLast?.all (· == '\n') = true
  · obtain ⟨ns, hmem⟩ := (Closed.of_starts (huv ▸ ha) hstart).exists_line
    have hstop := isProse_tokens ns
    have hline : line (v ++ '\n' :: b) = v.line := takeWhile_append_cons_of_rejects rfl v b
    have hafter (ls : List Text) : startLines (ls ++ b.lines) = startLines ls ++ '\n' :: b := by
      rw [← startLines_lines b]
      exact List.flatMap_append
    rw [hline, lines_append_newline, takeWhile_append_of_mem hmem hstop, dropWhile_append_of_mem hmem hstop, hafter]
    split <;> rfl
  · rw [if_neg (by simp [hstart]), if_neg (by simp [hstart])]
    rfl

theorem paragraph_seam : paragraph.Seam dialect Settled Opens := by
  have hp := progresses (r := paragraph) (by simp [rules]) rfl
  exact Rule.seam_of_token hp (fun _ _ _ => rfl) (fun a b ha _ => (paragraphScanner_seam ha.closed b).matcher _)
    paragraph_hidesLines

theorem paused_rules_seam : ∀ r ∈ rules.take 4, r.Seam dialect Paused Opens := by
  simp only [rules, List.take, List.forall_mem_cons]
  exact ⟨quote_seam, horizontalRule_seam, titleWithSubtitle_seam, title_seam, fun r hr => absurd hr List.not_mem_nil⟩

theorem settled_rules_seam : ∀ r ∈ rules.drop 4, r.Seam dialect Settled Opens := by
  simp only [rules, List.drop, List.forall_mem_cons]
  exact ⟨heading_seam, table_seam, unorderedList_seam, orderedList_seam, definitionList_seam, paragraph_seam,
    fun r hr => absurd hr List.not_mem_nil⟩

end Markup.Block
