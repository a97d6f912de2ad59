import Markup.Proofs.Line.Enclosed
import Markup.Proofs.Line.Spares
import Markup.Proofs.Pattern.Greedy

/-! # Bare addresses

Behind an arrow an address is taken as far as it goes, and an anchor with the address twice stands in its place. -/
namespace Markup.Line
open Pattern Grammar
variable {prev : Option Char} {u rest mark c : Text}

/-- What stands for itself in a link: a scheme and a name, or a path from the root or from here. -/
inductive IsAddress : Text → Prop
  | absolute (scheme path : Text) (c : Char) (hne : scheme ≠ []) (hscheme : ∀ d ∈ scheme, isLetter d = true)
      (hc : (isLetter c || c.isDigit) = true) (hpath : ∀ d ∈ path, isAddressChar d = true) :
      IsAddress (scheme ++ "://".toList ++ [c] ++ path)
  | rooted (path : Text) (hne : path ≠ []) (hpath : ∀ d ∈ path, isAddressChar d = true) : IsAddress ('/' :: path)
  | relative (path : Text) (hne : path ≠ []) (hpath : ∀ d ∈ path, isAddressChar d = true) :
      IsAddress ("./".toList ++ path)

theorem address_takes_iff (prev : Option Char) (rest : Text) :
    (∃ caps, address.Takes prev u rest caps) ↔ IsAddress u := by
  simp only [address, takes_append, takes_orElse, takes_optional, takes_atLeast, takes_one, takes_word]
  constructor
  · rintro ⟨_, ⟨_, _, _, _, rfl, -, ⟨_, _, _, _, rfl, -,
        ⟨scheme, _, _, _, rfl, -, ⟨hscheme, hl, -⟩, rfl, -⟩, c, hc, rfl, -⟩, hpath, -⟩ |
      ⟨_, path, _, _, rfl, -, ⟨dot, _, _, _, rfl, -, hdot, rfl, -⟩, hpath, hl, -⟩⟩
    · exact .absolute scheme _ c (List.ne_nil_of_length_pos hl) hscheme hc hpath
    · rcases hdot with ⟨rfl, -⟩ | ⟨rfl, -⟩
      · exact .relative path (List.ne_nil_of_length_pos hl) hpath
      · exact .rooted path (List.ne_nil_of_length_pos hl) hpath
  · rintro (⟨scheme, path, c, hne, hscheme, hc, hpath⟩ | ⟨path, hne, hpath⟩ | ⟨path, hne, hpath⟩)
    · exact ⟨[], .inl ⟨_, path, [], [], rfl, rfl, ⟨_, [c], [], [], rfl, rfl, ⟨scheme, _, [], [], rfl, rfl,
        ⟨hscheme, List.length_pos_iff.2 hne, rfl⟩, rfl, rfl⟩, c, hc, rfl, rfl⟩, hpath, Nat.zero_le _, rfl⟩⟩
    · exact ⟨[], .inr ⟨"/".toList, path, [], [], rfl, rfl, ⟨[], "/".toList, [], [], rfl, rfl,
        .inr ⟨rfl, rfl⟩, rfl, rfl⟩, hpath, List.length_pos_iff.2 hne, rfl⟩⟩
    · exact ⟨[], .inr ⟨"./".toList, path, [], [], rfl, rfl, ⟨".".toList, "/".toList, [], [], rfl, rfl,
        .inl ⟨rfl, rfl⟩, rfl, rfl⟩, hpath, List.length_pos_iff.2 hne, rfl⟩⟩

theorem IsAddress.forall (hu : IsAddress u) : ∀ c ∈ u, isAddressChar c = true := by
  obtain ⟨caps, h⟩ := (address_takes_iff none []).2 hu
  exact (address_takes h).2.1

theorem IsAddress.ne_nil (hu : IsAddress u) : u ≠ [] := by
  obtain ⟨caps, h⟩ := (address_takes_iff none []).2 hu
  exact (address_takes h).1

theorem IsAddress.not_mem (hu : IsAddress u) {c : Char} (hc : isAddressChar c = false) : c ∉ u := fun h => by
  rw [hu.forall c h] at hc
  contradiction

/-- The first way of a link: an arrow and an address. -/
def arrowPattern : Pattern := word "->" ++ group 1 address

theorem arrowPattern_shuts : Shuts isAddressChar (fun _ => false) arrowPattern :=
  .append _ (.group 1 (.orElse (.append _ (.atLeast 0)) (.append _ (.atLeast 1))))

theorem linkScanner_arrow (hu : IsAddress u) (hrest : rest.head?.any isAddressChar = false) :
    linkPattern.scanner prev ("->".toList ++ u ++ rest) = some ⟨"->".toList ++ u, rest, [some u, none, none]⟩ := by
  obtain ⟨caps, htakes⟩ := (address_takes_iff (some '>') rest).2 hu
  have hmay : arrowPattern.Takes prev ("->".toList ++ u) rest [(1, u)] := by
    obtain ⟨-, -, rfl⟩ := address_takes htakes
    exact ⟨"->".toList, u, [], [(1, u)], rfl, rfl, ⟨rfl, rfl⟩, [], htakes, rfl⟩
  have hgoes : arrowPattern.walk some ⟨prev, 0, "->".toList ++ u ++ rest, []⟩ ≠ none :=
    walk_ne_none (by decide) hmay rfl rfl fun _ _ _ => Option.some_ne_none _
  obtain ⟨r, hr⟩ := Option.ne_none_iff_exists'.1 hgoes
  have hwalk : linkPattern.walk some ⟨prev, 0, "->".toList ++ u ++ rest, []⟩ = some r := by
    rw [linkPattern, walk_orElse]
    exact congrArg (· <|> _) hr
  obtain ⟨e, he, hshut⟩ := arrowPattern_shuts.of_walk (fun _ => Option.some_ne_none _) hr
  obtain rfl := Option.some.inj he
  have hstop : e.ahead.head?.any isAddressChar = false := hshut.resolve_right (by simp)
  obtain ⟨hsplit, caps', htaken, hgroups⟩ := takes_of_walk hr 3
  obtain ⟨_, target, _, _, hwhole, rfl, ⟨rfl, rfl⟩, _, htarget, rfl⟩ := htaken
  obtain ⟨-, hall, rfl⟩ := address_takes htarget
  have hboth : u ++ rest = target ++ e.ahead := by
    rw [hwhole, List.append_assoc, List.append_assoc] at hsplit
    exact List.append_cancel_left hsplit
  have hother {t : Text} (ht : t.head?.any isAddressChar = false) (c : Char) (hc : c ∈ t.head?) :
      isAddressChar c = false := by
    rwa [Option.mem_def.1 hc] at ht
  obtain ⟨rfl, hahead⟩ := Text.run_unique hu.forall (hother hrest) hboth hall (hother hstop)
  have hhit : State.hit 3 ("->".toList ++ u ++ rest) e = ⟨"->".toList ++ u, rest, [some u, none, none]⟩ := by
    have heta (h : Hit) : h = ⟨h.whole, h.rest, h.groups⟩ := rfl
    rw [heta (State.hit 3 _ e), hwhole, hgroups, hahead]
    rfl
  rw [scanner, hwalk, Option.map_some, show linkPattern.groupCount = 3 from rfl, hhit]

theorem head_of_mark (hm : mark ∈ marks) : ∃ d m, mark = d :: m ∧ d ∉ "->".toList := by
  simp only [marks, List.mem_cons, List.not_mem_nil, or_false] at hm
  rcases hm with rfl | rfl | rfl
  · exact ⟨'_', [], rfl, by decide⟩
  · exact ⟨'*', ['*'], rfl, by decide⟩
  · exact ⟨'*', [], rfl, by decide⟩

theorem exists_encloses_arrow_iff : (∃ pos, Encloses ("->".toList ++ u) pos mark c) ↔ ∃ pos, Encloses u pos mark c := by
  constructor
  · rintro ⟨_, hmark, hcontent, x, y, hreads, rfl, hopen⟩
    obtain ⟨d, m, rfl, hd⟩ := head_of_mark hmark
    obtain ⟨v, rfl, rfl⟩ := List.exists_eq_append_of_front hd hreads
    refine ⟨_, hmark, hcontent, v, y, rfl, rfl, fun h => ?_⟩
    have hlast := hopen h
    cases hv : v.getLast? with
    | none => rfl
    | some b =>
      rw [List.getLast?_append, hv, Option.some_or] at hlast
      exact hlast
  · rintro ⟨_, hmark, hcontent, x, y, rfl, rfl, hopen⟩
    refine ⟨_, hmark, hcontent, "->".toList ++ x, y, (List.append_assoc _ _ _).symm, rfl, fun h => ?_⟩
    have hlast := hopen h
    cases hx : x.getLast? with
    | none =>
      rw [List.getLast?_append, hx, Option.none_or]
      decide
    | some b =>
      rw [List.getLast?_append, hx, Option.some_or]
      rwa [hx] at hlast

theorem emphasis_quiet_arrow_iff : emphasis.Quiet ("->".toList ++ u) ↔ emphasis.Quiet u := by
  simp only [emphasis_quiet_iff, ← not_exists]
  refine not_congr ⟨fun ⟨pos, mark, c, h⟩ => ?_, fun ⟨pos, mark, c, h⟩ => ?_⟩
  · obtain ⟨pos, h⟩ := exists_encloses_arrow_iff.1 ⟨pos, h⟩
    exact ⟨pos, mark, c, h⟩
  · obtain ⟨pos, h⟩ := exists_encloses_arrow_iff.2 ⟨pos, h⟩
    exact ⟨pos, mark, c, h⟩

theorem not_mem_anchor_ofId {d : Char} (hd : d ∈ "_*-[@#^".toList) (n : Nat) :
    d ∉ Html.anchor (Token.ofId n) (Token.ofId n) := by
  have hfixed : ∀ d ∈ "_*-[@#^".toList,
      d ∉ Token.alphabet ∧ d ∉ "<a href=\"".toList ∧ d ∉ "\">".toList ∧ d ∉ "</a>".toList := by decide
  obtain ⟨htoken, hopening, hmiddle, hclosing⟩ := hfixed d hd
  simp only [Html.anchor_eq, List.mem_append, not_or]
  exact ⟨⟨⟨⟨hopening, Token.not_mem_ofId htoken _⟩, hmiddle⟩, Token.not_mem_ofId htoken _⟩, hclosing⟩

theorem find_arrow (hu : IsAddress u) :
    linkPattern.matcher.find [] ("->".toList ++ u) = some ⟨[], "->".toList ++ u, [], [some u, none, none]⟩ := by
  have hhit : linkPattern.scanner ([] : Text).head? ("->".toList ++ u ++ []) =
      some ⟨"->".toList ++ u, [], [some u, none, none]⟩ := linkScanner_arrow hu rfl
  rw [List.append_nil] at hhit
  rw [matcher_eq]
  exact Scanner.search_of_hit hhit

theorem applies_link_arrow (hu : IsAddress u) (s : Store) : dialect.Applies link ("->".toList ++ u) s
    (Html.anchor (Token.ofId s.size) (Token.ofId s.size)) (s.mint u).2 := by
  have hne : Html.anchor (Token.ofId s.size) (Token.ofId s.size) ≠ "->".toList ++ u := fun h =>
    not_mem_anchor_ofId (d := '-') (by decide) s.size (h ▸ by simp)
  have hreplace : dialect.Evaluates (Program.hide u >>= fun token => pure (some (Html.anchor token token))) s
      (some (Html.anchor (Token.ofId s.size) (Token.ofId s.size))) (s.mint u).2 :=
    evaluates_hide_bind.2 (evaluates_pure _ _)
  refine (saturates_step (find_arrow hu) hreplace hne).2 ?_
  rw [Match.replaceBy_eq, Match.before, List.reverse_nil, List.nil_append, List.append_nil]
  exact saturates_done (Rule.quiet_pattern_iff.1 (link_quiet (not_mem_anchor_ofId (by decide) _))) _

/-- Where no emphasis is found, the anchor takes the place of the arrow and the address. -/
theorem runs_arrow (hu : IsAddress u) (hquiet : emphasis.Quiet u) (s : Store) :
    dialect.Runs .line ("->".toList ++ u) s (Html.anchor (Token.ofId s.size) (Token.ofId s.size)) (s.mint u).2 := by
  have habsent (d : Char) (hd : d ∈ "_*-[@#^".toList) := not_mem_anchor_ofId hd s.size
  have hlater : ∀ r ∈ [image, mail, mention, hashtag, superscript],
      r.Quiet (Html.anchor (Token.ofId s.size) (Token.ofId s.size)) := by
    simp only [List.forall_mem_cons]
    exact ⟨image_quiet (habsent '[' (by decide)), mail_quiet (habsent '@' (by decide)),
      mention_quiet (habsent '@' (by decide)), hashtag_quiet (habsent '#' (by decide)),
      superscript_quiet (habsent '^' (by decide)), fun r hr => absurd hr List.not_mem_nil⟩
  exact runs_iff.2 (appliesAll_cons.2 ⟨_, _, (emphasis_quiet_arrow_iff.2 hquiet).applies s,
    appliesAll_cons.2 ⟨_, _, applies_link_arrow hu s, appliesAll_quiet hlater _⟩⟩)

theorem arrow_spared : ∀ r ∈ [emphasis, image, mail, mention, hashtag, superscript],
    r.Spares dialect ("->".toList <+: ·) := by
  have hsign {name : String} {p : Pattern} {f : Match → Program (Option Text)} {d : Char}
      (hr : .pattern name p.matcher f ∈ rules)
      (hhead : p.headed d = true) (hd : d ∉ "->".toList) :
      (Rule.pattern name p.matcher f).Spares dialect ("->".toList <+: ·) :=
    Rule.spares_front (progresses hr rfl) rfl (matcher_lawful p) fun behind t found hf => by
      obtain ⟨caps, ht, -⟩ := takes_of_match hf
      exact ⟨d, head?_of_takes hhead ht, hd⟩
  simp only [List.forall_mem_cons]
  refine ⟨?_, hsign (d := '[') (by simp [rules, image]) (by decide) (by decide), ?_,
    hsign (d := '@') (by simp [rules, mention]) (by decide) (by decide),
    hsign (d := '#') (by simp [rules, hashtag]) (by decide) (by decide),
    hsign (d := '^') (by simp [rules, superscript]) (by decide) (by decide), fun r hr => absurd hr List.not_mem_nil⟩
  · refine Rule.spares_front (progresses (r := emphasis) (by simp [rules]) rfl) rfl
      (Matcher.lawful_ofScanner emphasisScanner_lawful _) fun behind t found hf => ?_
    obtain ⟨mark, hmark, content, -, hw, -⟩ := emphasis_shape hf
    obtain ⟨d, m, rfl, hd⟩ := head_of_mark hmark
    exact ⟨d, by rw [hw]; rfl, hd⟩
  · refine Rule.spares_front (progresses (r := mail) (by simp [rules]) rfl) rfl
      (matcher_lawful _) fun behind t found hf => ?_
    obtain ⟨caps, ht, -⟩ := takes_of_match hf
    obtain ⟨d, hd, hhandle⟩ := (Option.any_eq_true _ _).1 (mail_takes_iff.1 ⟨caps, ht⟩).1.head
    refine ⟨d, hd, fun hmem => ?_⟩
    have hsigns : ∀ d ∈ "->".toList, (isHandleChar d || d == '.') = false := by decide
    rw [hsigns d hmem] at hhandle
    contradiction

/-- A text that begins with a tag or a dash goes on to begin with one of them. -/
theorem rules_spare_head : ∀ r ∈ rules, r.Spares dialect fun t => t.head? = some '<' ∨ t.head? = some '-' := fun r hr =>
  spares_of_writes hr (rules_write_tags r hr) fun m new h ht => by
    obtain ⟨v, hv⟩ := List.head?_eq_some_iff.1 h.1
    cases hb : m.before with
    | nil => exact .inl (by simp [Match.replaceBy_eq, hb, hv])
    | cons d before => simpa [Match.replaceBy_eq, Match.text, hb] using ht

end Markup.Line
