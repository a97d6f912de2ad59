import Markup.Proofs.Line.Twin
import Markup.Proofs.Position.First
import Markup.Proofs.Rule.Quiet

/-! # What emphasis encloses

From one place several marks may enclose something, and one mark several contents. The scanner takes the first place
from which anything is enclosed, there the first mark that encloses something, and the shortest content of at least two
characters; a content of one character is taken where there is no other, and a star right before the closing mark is
taken in. -/
namespace Markup.Line
variable {t u v x c mark inner rest : Text} {a : Char} {n k start : Nat}

/-- Text that stays on its line and has no white space at its ends. -/
structure Enclosable (c : Text) : Prop where
  line : '\n' ∉ c
  first : c.head?.any (!isSpace ·) = true
  last : c.getLast?.any (!isSpace ·) = true

/-- From the position on the text reads as the mark, the content and the mark again; an underscore does not open in the
middle of a word. -/
structure Encloses (t : Text) (pos : Nat) (mark c : Text) : Prop where
  mark_mem : mark ∈ marks
  content : Enclosable c
  reads : ∃ x y, t = x ++ (mark ++ (c ++ (mark ++ y))) ∧ x.bytes = pos ∧
    (mark = "_".toList → x.getLast?.any isNameChar = false)

/-- Among contents the shortest one of at least two characters; another one only where none is that long. -/
def Preferred (C : Text → Prop) (c : Text) : Prop :=
  C c ∧ (2 ≤ c.length ∧ (∀ e, C e → 2 ≤ e.length → c.length ≤ e.length) ∨ ∀ e, C e → e.length < 2)

/-- The content with the star between it and the closing mark. -/
def withStar (mark c rest : Text) : Text := if ('*' :: mark).isPrefixOf rest then c ++ ['*'] else c

/-- What the match must be when the search begins at a position. -/
structure Picks (t : Text) (start : Nat) (m : Match) : Prop where
  text : m.text = t
  first_place : IsLeast {pos | start ≤ pos ∧ ∃ mark c, Encloses t pos mark c} m.start
  first_mark : ∃ before mark after, marks = before ++ mark :: after ∧
    (∀ other ∈ before, ∀ c, ¬ Encloses t m.start other c) ∧
    ∃ c rest, Preferred (Encloses t m.start mark) c ∧ t = m.before ++ (mark ++ (c ++ rest)) ∧
      m.whole = mark ++ withStar mark c rest ++ mark ∧ m.groups = [some mark, some (withStar mark c rest)]

/-- A way for a content to go on behind its first character up to the closing mark. -/
structure Tail (mark t u : Text) : Prop where
  line : '\n' ∉ u
  last : u.getLast?.any (!isSpace ·) = true
  closes : u ++ mark <+: t

/-- The closing mark stands right behind the content. -/
def Closed (mark inner c : Text) : Prop := Enclosable c ∧ c ++ mark <+: inner

theorem Tail.ne_nil (h : Tail mark t u) : u ≠ [] := by
  rintro rfl
  exact absurd h.last (by decide)

theorem tail_cons_iff : Tail mark (a :: t) u ↔
    a ≠ '\n' ∧ ∃ w, u = a :: w ∧ (w = [] ∧ isSpace a = false ∧ mark <+: t ∨ Tail mark t w) := by
  constructor
  · intro h
    obtain ⟨b, w, rfl⟩ := List.exists_cons_of_ne_nil h.ne_nil
    obtain ⟨hline, hlast, hcloses⟩ := h
    obtain ⟨rfl, hrest⟩ := List.cons_prefix_cons.1 hcloses
    rw [List.mem_cons, not_or] at hline
    refine ⟨Ne.symm hline.1, w, rfl, ?_⟩
    cases w with
    | nil => exact .inl ⟨rfl, by simpa using hlast, hrest⟩
    | cons e w => exact .inr ⟨hline.2, by simpa [List.getLast?_cons_cons] using hlast, hrest⟩
  · rintro ⟨ha, w, rfl, ⟨rfl, hspace, hcloses⟩ | h⟩
    · exact ⟨by simpa using Ne.symm ha, by simp [hspace], List.cons_prefix_cons.2 ⟨rfl, hcloses⟩⟩
    · obtain ⟨e, w', hw⟩ := List.exists_cons_of_ne_nil h.ne_nil
      refine ⟨by simp [Ne.symm ha, h.line], ?_, List.cons_prefix_cons.2 ⟨rfl, h.closes⟩⟩
      rw [hw, List.getLast?_cons_cons, ← hw]
      exact h.last

theorem closed_cons_iff : Closed mark (a :: t) c ↔
    isSpace a = false ∧ ∃ w, c = a :: w ∧ (w = [] ∧ mark <+: t ∨ Tail mark t w) := by
  have hbreak (ha : isSpace a = false) : a ≠ '\n' := by
    rintro rfl
    exact absurd ha (by decide)
  constructor
  · rintro ⟨⟨hline, hfirst, hlast⟩, hcloses⟩
    have htail : Tail mark (a :: t) c := ⟨hline, hlast, hcloses⟩
    obtain ⟨-, w, rfl, hw⟩ := tail_cons_iff.1 htail
    refine ⟨by simpa using hfirst, w, rfl, ?_⟩
    exact hw.imp_left fun h => ⟨h.1, h.2.2⟩
  · rintro ⟨ha, w, rfl, hw⟩
    have htail : Tail mark (a :: t) (a :: w) :=
      tail_cons_iff.2 ⟨hbreak ha, w, rfl, hw.imp_left fun h => ⟨h.1, ha, h.2⟩⟩
    exact ⟨⟨htail.line, by simp [ha], htail.last⟩, htail.closes⟩

theorem closes?_of_mark (h : mark <+: t) : closes? mark t = some (if ('*' :: mark).isPrefixOf t then 1 else 0) := by
  unfold closes?
  split
  · rfl
  · rw [if_pos (List.isPrefixOf_iff_prefix.2 h)]

/-- The number of stars to take in; without the mark right here there is a star, and the mark behind it. -/
theorem closes?_cases (h : closes? mark t = some k) :
    mark <+: t ∧ k = (if ('*' :: mark).isPrefixOf t then 1 else 0) ∨
      ¬ mark <+: t ∧ k = 1 ∧ ∃ rest, t = '*' :: (mark ++ rest) := by
  by_cases hp : mark <+: t
  · rw [closes?_of_mark hp] at h
    exact .inl ⟨hp, (Option.some.inj h).symm⟩
  · unfold closes? at h
    split at h
    · next hstar =>
      obtain ⟨rest, rfl⟩ := List.isPrefixOf_iff_prefix.1 hstar
      exact .inr ⟨hp, (Option.some.inj h).symm, rest, rfl⟩
    · rw [if_neg (mt List.isPrefixOf_iff_prefix.1 hp)] at h
      contradiction

/-- A mark that does not stand before a star and itself is not read with a star before it. -/
theorem not_star_mark (h : ¬ mark <+: '*' :: (mark ++ rest)) (r : Text) :
    ('*' :: mark).isPrefixOf (mark ++ r) = false := by
  rw [← Bool.not_eq_true, List.isPrefixOf_iff_prefix]
  intro hstar
  have hmark : mark <+: '*' :: mark :=
    List.prefix_of_prefix_length_le (List.prefix_append mark r) hstar (Nat.le_succ _)
  exact h (hmark.trans (List.prefix_append ('*' :: mark) rest))

theorem tail_star (h : '*' :: mark <+: t) : Tail mark t ['*'] := ⟨by decide, by decide, h⟩

theorem not_tail_of_contentFrom (h : contentFrom mark n t = none) : ¬ Tail mark t u := by
  induction t generalizing n u with
  | nil =>
    intro htail
    have hnil := List.prefix_nil.1 htail.closes
    exact htail.ne_nil (List.append_eq_nil_iff.1 hnil).1
  | cons a t ih =>
    intro htail
    obtain ⟨ha, w, rfl, ⟨rfl, hspace, hcloses⟩ | hw⟩ := tail_cons_iff.1 htail
    · rw [contentFrom, if_neg ha, hspace, closes?_of_mark hcloses] at h
      contradiction
    · rw [contentFrom, if_neg ha] at h
      split at h
      · contradiction
      · exact ih h hw

/-- The search ends at the shortest way to go on, and takes a star in. -/
theorem contentFrom_shortest (h : contentFrom mark n t = some k) :
    ∃ u rest, Tail mark t u ∧ (∀ w, Tail mark t w → u.length ≤ w.length) ∧ t = u ++ rest ∧
      k = n + (u.length + if ('*' :: mark).isPrefixOf rest then 1 else 0) := by
  induction t generalizing n with
  | nil => contradiction
  | cons a t ih =>
    rw [contentFrom] at h
    split at h
    · contradiction
    next ha =>
    split at h
    · next j hj =>
      have hk := Option.some.inj h
      have hspace : isSpace a = false := by
        cases hs : isSpace a with
        | false => rfl
        | true =>
          rw [hs] at hj
          contradiction
      rw [hspace] at hj
      rcases closes?_cases hj with ⟨hmark, rfl⟩ | ⟨hmark, rfl, rest, rfl⟩
      · refine ⟨[a], t, tail_cons_iff.2 ⟨ha, [], rfl, .inl ⟨rfl, hspace, hmark⟩⟩, ?_, rfl, ?_⟩
        · intro w hw
          exact List.length_pos_iff.2 hw.ne_nil
        · rw [← hk, List.length_singleton, Nat.add_assoc]
      · have htail : Tail mark ('*' :: (mark ++ rest)) ['*'] := tail_star (List.prefix_append ('*' :: mark) rest)
        refine ⟨[a, '*'], mark ++ rest, tail_cons_iff.2 ⟨ha, ['*'], rfl, .inr htail⟩, ?_, rfl, ?_⟩
        · intro w hw
          obtain ⟨-, w, rfl, ⟨rfl, -, hcloses⟩ | hw⟩ := tail_cons_iff.1 hw
          · exact absurd hcloses hmark
          · exact Nat.succ_le_succ (List.length_pos_iff.2 hw.ne_nil)
        · rw [← hk, not_star_mark hmark]
          rfl
    · next hnone =>
      obtain ⟨u, rest, htail, hleast, rfl, rfl⟩ := ih h
      refine ⟨a :: u, rest, tail_cons_iff.2 ⟨ha, u, rfl, .inr htail⟩, ?_, rfl, ?_⟩
      · intro w hw
        obtain ⟨-, w, rfl, ⟨rfl, hspace, hcloses⟩ | hw⟩ := tail_cons_iff.1 hw
        · rw [hspace, closes?_of_mark hcloses] at hnone
          contradiction
        · exact Nat.succ_le_succ (hleast w hw)
      · rw [List.length_cons]
        omega

theorem not_closed_of_contentLength (h : contentLength mark inner = none) : ¬ Closed mark inner c := by
  intro hclosed
  cases inner with
  | nil =>
    have hnil := (List.append_eq_nil_iff.1 (List.prefix_nil.1 hclosed.2)).1
    rw [hnil] at hclosed
    exact absurd hclosed.1.first (by decide)
  | cons a t =>
    obtain ⟨ha, w, rfl, hw⟩ := closed_cons_iff.1 hclosed
    rw [contentLength, ha, if_neg Bool.false_ne_true, Option.orElse_eq_orElse, Option.orElse_eq_or,
      Option.or_eq_none_iff,
      Option.map_eq_none_iff] at h
    rcases hw with ⟨-, hmark⟩ | hw
    · rw [closes?_of_mark hmark] at h
      exact Option.some_ne_none _ h.2
    · exact not_tail_of_contentFrom h.1 hw

/-- The content that the mark closes is the preferred one, with its star. -/
theorem contentLength_preferred (h : contentLength mark inner = some k) :
    ∃ c rest, Preferred (Closed mark inner) c ∧ inner = c ++ rest ∧ inner.take k = withStar mark c rest := by
  cases inner with
  | nil => contradiction
  | cons a t =>
    rw [contentLength] at h
    split at h
    · contradiction
    next ha =>
    rw [Bool.not_eq_true] at ha
    rw [Option.orElse_eq_orElse, Option.orElse_eq_or, Option.or_eq_some_iff] at h
    rcases h with h | ⟨hnone, h⟩
    · obtain ⟨u, rest, htail, hleast, rfl, rfl⟩ := contentFrom_shortest h
      refine ⟨a :: u, rest, ⟨closed_cons_iff.2 ⟨ha, u, rfl, .inr htail⟩, .inl ⟨?_, ?_⟩⟩, rfl, ?_⟩
      · exact Nat.succ_le_succ (List.length_pos_iff.2 htail.ne_nil)
      · intro e he hlong
        obtain ⟨-, w, rfl, ⟨rfl, -⟩ | hw⟩ := closed_cons_iff.1 he
        · exact absurd hlong (Nat.not_succ_le_self 1)
        · exact Nat.succ_le_succ (hleast w hw)
      · rw [Nat.add_comm, List.take_succ_cons, List.take_length_add_append]
        unfold withStar
        split
        · next hstar =>
          obtain ⟨r, rfl⟩ := List.isPrefixOf_iff_prefix.1 hstar
          rfl
        · simp
    · obtain ⟨j, hj, rfl⟩ := Option.map_eq_some_iff.1 h
      have hstar : ¬ '*' :: mark <+: t := fun hp => not_tail_of_contentFrom hnone (tail_star hp)
      have hmark : mark <+: t ∧ j = 0 := by
        rcases closes?_cases hj with ⟨hmark, rfl⟩ | ⟨-, -, rest, rfl⟩
        · exact ⟨hmark, if_neg (mt List.isPrefixOf_iff_prefix.1 hstar)⟩
        · exact absurd (List.prefix_append ('*' :: mark) rest) hstar
      obtain ⟨hmark, rfl⟩ := hmark
      refine ⟨[a], t, ⟨closed_cons_iff.2 ⟨ha, [], rfl, .inl ⟨rfl, hmark⟩⟩, .inr ?_⟩, rfl, ?_⟩
      · intro e he
        obtain ⟨-, w, rfl, ⟨rfl, -⟩ | hw⟩ := closed_cons_iff.1 he
        · exact Nat.lt_succ_self 1
        · exact absurd hw (not_tail_of_contentFrom hnone)
      · rw [withStar, if_neg (mt List.isPrefixOf_iff_prefix.1 hstar)]
        rfl

theorem encloses_iff (h : t = x ++ v) : Encloses t x.bytes mark c ↔
    mark ∈ marks ∧ (mark = "_".toList → x.getLast?.any isNameChar = false) ∧
      ∃ inner, v = mark ++ inner ∧ Closed mark inner c := by
  constructor
  · rintro ⟨hmark, hc, x', y, ht, hx, hword⟩
    have hcut := Text.cut_of_eq ht hx
    rw [Text.cut_of_eq h rfl] at hcut
    obtain ⟨rfl, rfl⟩ := Prod.mk.inj (Except.ok.inj hcut)
    exact ⟨hmark, hword, c ++ (mark ++ y), rfl, hc, y, by rw [List.append_assoc]⟩
  · rintro ⟨hmark, hword, inner, rfl, hc, y, rfl⟩
    exact ⟨hmark, hc, x, y, by rw [h, List.append_assoc c], rfl, hword⟩

theorem not_encloses_of_emphasisWith (h : t = x ++ v) (hn : emphasisWith x.getLast? v mark = none) :
    ¬ Encloses t x.bytes mark c := by
  intro henc
  obtain ⟨-, hword, inner, rfl, hclosed⟩ := (encloses_iff h).1 henc
  have hopens : (decide (mark = "_".toList) && x.getLast?.any isNameChar) = false := by
    by_cases hm : mark = "_".toList
    · rw [hword hm, Bool.and_false]
    · rw [decide_eq_false hm, Bool.false_and]
  rw [emphasisWith, Token.isPrefixOf?_append] at hn
  simp only [Option.bind_eq_bind, Option.bind_some, hopens, Bool.false_eq_true, if_false, Option.bind_eq_none_iff] at hn
  cases hlen : contentLength mark inner with
  | none => exact not_closed_of_contentLength hlen hclosed
  | some k => exact Option.some_ne_none _ (hn k hlen)

theorem emphasisWith_preferred (h : t = x ++ v) (hm : mark ∈ marks) {hit : Hit}
    (hs : emphasisWith x.getLast? v mark = some hit) :
    ∃ c rest, Preferred (Encloses t x.bytes mark) c ∧ v = mark ++ (c ++ rest) ∧
      hit.whole = mark ++ withStar mark c rest ++ mark ∧ hit.groups = [some mark, some (withStar mark c rest)] := by
  obtain ⟨inner, k, rfl, hk, rfl⟩ := emphasisWith_inner hs
  obtain ⟨c, rest, hpref, rfl, htake⟩ := contentLength_preferred hk
  have hword : mark = "_".toList → x.getLast?.any isNameChar = false := by
    intro hmark
    rw [emphasisWith, Token.isPrefixOf?_append] at hs
    cases hname : x.getLast?.any isNameChar with
    | false => rfl
    | true => simp [hmark, hname] at hs
  have hclosed (e : Text) : Encloses t x.bytes mark e ↔ Closed mark (c ++ rest) e := by
    rw [encloses_iff h]
    constructor
    · rintro ⟨-, -, inner, hinner, he⟩
      rwa [List.append_cancel_left hinner]
    · intro he
      exact ⟨hm, hword, _, rfl, he⟩
  refine ⟨c, rest, ?_, rfl, by rw [htake], by rw [htake]⟩
  simpa only [Preferred, hclosed] using hpref

theorem emphasisScanner_eq_none_iff (h : t = x ++ v) :
    emphasisScanner x.getLast? v = none ↔ ∀ mark c, ¬ Encloses t x.bytes mark c := by
  rw [emphasisScanner_eq, List.findSome?_eq_none_iff]
  constructor
  · intro hnone mark c henc
    exact not_encloses_of_emphasisWith h (hnone mark henc.mark_mem) henc
  · intro hnone mark hm
    rw [Option.eq_none_iff_forall_ne_some]
    intro hit hs
    obtain ⟨c, _, hpref, -⟩ := emphasisWith_preferred h hm hs
    exact hnone mark c hpref.1

theorem hitsAt_emphasis_iff : emphasisScanner.HitsAt t n ↔ ∃ mark c, Encloses t n mark c := by
  constructor
  · rintro ⟨y, z, hyz, rfl, hhit⟩
    by_contra hnone
    exact hhit ((emphasisScanner_eq_none_iff hyz).2 fun mark c henc => hnone ⟨mark, c, henc⟩)
  · rintro ⟨mark, c, henc⟩
    obtain ⟨y, z, hyz, rfl, -⟩ := henc.reads
    exact ⟨y, _, hyz, rfl, fun hnone => (emphasisScanner_eq_none_iff hyz).1 hnone mark c henc⟩

theorem emphasis_quiet_iff : emphasis.Quiet t ↔ ∀ pos mark c, ¬ Encloses t pos mark c := by
  have hsearch : emphasisScanner.search [] t = none ↔ ∀ pos, 0 ≤ pos → ¬ emphasisScanner.HitsAt t pos :=
    Scanner.search_eq_none_iff_hitsAt (List.nil_append t).symm
  rw [emphasis, Rule.quiet_pattern_iff]
  refine hsearch.trans ?_
  simp [hitsAt_emphasis_iff]

theorem Picks.of_search {m : Match} (h : t = u ++ v) (hs : emphasisScanner.search u.reverse v = some m) :
    Picks t u.bytes m := by
  have htext : m.text = t := by rw [(emphasisScanner_lawful.search hs).1, List.reverse_reverse, h]
  have hsplit : t = m.before ++ (m.whole ++ m.after) := by rw [← htext, Match.text, List.append_assoc]
  have hplace := Scanner.isLeast_of_search h hs
  simp only [hitsAt_emphasis_iff] at hplace
  have hhit := emphasisScanner_lawful.hit_of_search hs
  rw [← Match.getLast?_before, emphasisScanner_eq] at hhit
  obtain ⟨before, mark, after, hmarks, hmark, hearlier⟩ := List.findSome?_eq_some_iff.1 hhit
  have hmem : mark ∈ marks := hmarks ▸ List.mem_append_right before List.mem_cons_self
  obtain ⟨c, rest, hpref, hahead, hwhole, hgroups⟩ := emphasisWith_preferred hsplit hmem hmark
  refine ⟨htext, hplace, before, mark, after, hmarks, ?_, c, rest, hpref, hahead ▸ hsplit, hwhole, hgroups⟩
  intro other hother e
  exact not_encloses_of_emphasisWith hsplit (hearlier other hother)

/-- From a character boundary the scanner finds nothing exactly if nothing is enclosed from there on, and else the first
place, the first mark there and the preferred content of that mark. -/
theorem emphasis_picks_first_mark_and_shortest_content (h : t.IsBoundary start) :
    ∃ r, emphasisMatcher.findAt t start = .ok r ∧
      (r = none ↔ ∀ pos mark c, start ≤ pos → ¬ Encloses t pos mark c) ∧ ∀ m ∈ r, Picks t start m := by
  obtain ⟨u, v, ht, rfl⟩ := Text.isBoundary_iff.1 h
  refine ⟨emphasisScanner.search u.reverse v, emphasisMatcher.findAt_of_eq ht rfl, ⟨?_, ?_⟩, ?_⟩
  · intro hnone pos mark c hpos henc
    obtain ⟨y, z, hyz, hy, -⟩ := henc.reads
    obtain ⟨p, rfl⟩ : u <+: y := Text.prefix_of_bytes_le (ht.symm.trans hyz) (by omega)
    have hv : v = p ++ (mark ++ (c ++ (mark ++ z))) := by
      rw [ht, List.append_assoc] at hyz
      exact List.append_cancel_left hyz
    have hhere := Scanner.search_eq_none_iff.1 hnone p _ hv
    rw [Text.head?_behind] at hhere
    exact (emphasisScanner_eq_none_iff hyz).1 hhere mark c (hy ▸ henc)
  · intro hnone
    rw [Scanner.search_eq_none_iff]
    intro p q hv
    have hcut : t = (u ++ p) ++ q := by rw [ht, hv, List.append_assoc]
    rw [Text.head?_behind, emphasisScanner_eq_none_iff hcut]
    intro mark c
    exact hnone _ mark c (by rw [Text.bytes_append]; exact Nat.le_add_right _ _)
  · intro m hm
    exact .of_search ht hm

/-- The star before the last two is taken in. -/
theorem emphasis_picks_content_with_star : Text.IsBoundary "é**bc*** *d*".toList 2 ∧
    ∃ m, emphasisMatcher.findAt "é**bc*** *d*".toList 2 = .ok (some m) ∧ Picks "é**bc*** *d*".toList 2 m ∧
      m.groups = [some "**".toList, some "bc*".toList] := by
  have hstart : Text.IsBoundary "é**bc*** *d*".toList 2 := by decide
  obtain ⟨r, hr, -, hpicks⟩ := emphasis_picks_first_mark_and_shortest_content hstart
  have hfound : emphasisMatcher.findAt "é**bc*** *d*".toList 2 =
      .ok (some ⟨"é".toList, "**bc***".toList, " *d*".toList, [some "**".toList, some "bc*".toList]⟩) := rfl
  obtain rfl := Except.ok.inj (hr.symm.trans hfound)
  exact ⟨hstart, _, hfound, hpicks _ rfl, rfl⟩

end Markup.Line
