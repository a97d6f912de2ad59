import Markup.Line.Emphasis
import Markup.Line.Mention
import Markup.Proofs.Pattern.Takes
import Mathlib.Data.List.Basic

/-! # Shapes of constructs within a line

What a match of each rule looks like, and which of its parts are its groups. -/
namespace Markup.Line
open Pattern
variable {behind t : Text} {m : Match}

theorem closes?_eq_some {mark t : Text} {k : Nat} (h : closes? mark t = some k) :
    ∃ u rest, u.length = k ∧ t = u ++ mark ++ rest := by
  rw [closes?] at h
  split at h
  · next hp =>
    obtain ⟨rest, rfl⟩ := List.isPrefixOf_iff_prefix.1 hp
    obtain rfl := Option.some.inj h
    exact ⟨['*'], rest, rfl, rfl⟩
  · split at h
    · next hp =>
      obtain ⟨rest, rfl⟩ := List.isPrefixOf_iff_prefix.1 hp
      obtain rfl := Option.some.inj h
      exact ⟨[], rest, rfl, rfl⟩
    · contradiction

theorem contentFrom_eq_some {mark t : Text} {n k : Nat} (h : contentFrom mark n t = some k) :
    ∃ u rest, u ≠ [] ∧ k = n + u.length ∧ t = u ++ mark ++ rest := by
  induction t generalizing n with
  | nil => simp [contentFrom] at h
  | cons c t ih =>
    rw [contentFrom] at h
    split at h
    · contradiction
    · split at h
      · next j hj =>
        obtain rfl := Option.some.inj h
        split at hj
        · contradiction
        · obtain ⟨u, rest, rfl, rfl⟩ := closes?_eq_some hj
          exact ⟨c :: u, rest, by simp, by simp; omega, rfl⟩
      · obtain ⟨u, rest, hu, rfl, rfl⟩ := ih h
        exact ⟨c :: u, rest, by simp, by simp; omega, rfl⟩

theorem contentLength_eq_some {mark t : Text} {k : Nat} (h : contentLength mark t = some k) :
    ∃ u rest, u ≠ [] ∧ k = u.length ∧ t = u ++ mark ++ rest := by
  cases t with
  | nil => simp [contentLength] at h
  | cons c t =>
    rw [contentLength] at h
    split at h
    · contradiction
    · rw [Option.orElse_eq_orElse, Option.orElse_eq_or, Option.or_eq_some_iff] at h
      rcases h with h | ⟨-, h⟩
      · obtain ⟨u, rest, -, rfl, rfl⟩ := contentFrom_eq_some h
        exact ⟨c :: u, rest, by simp, by simp; omega, rfl⟩
      · obtain ⟨j, hj, rfl⟩ := Option.map_eq_some_iff.1 h
        obtain ⟨u, rest, rfl, rfl⟩ := closes?_eq_some hj
        exact ⟨c :: u, rest, by simp, by simp; omega, rfl⟩

theorem emphasisWith_inner {prev : Option Char} {t mark : Text} {h : Hit} (hs : emphasisWith prev t mark = some h) :
    ∃ inner n, t = mark ++ inner ∧ contentLength mark inner = some n ∧
      h = ⟨mark ++ inner.take n ++ mark, inner.drop (n + mark.length), [some mark, some (inner.take n)]⟩ := by
  unfold emphasisWith at hs
  obtain ⟨inner, hi, hs⟩ := Option.bind_eq_some_iff.1 hs
  split at hs
  · contradiction
  · obtain ⟨n, hn, hs⟩ := Option.bind_eq_some_iff.1 hs
    exact ⟨inner, n, Token.eq_append_of_isPrefixOf? hi, hn, (Option.some.inj hs).symm⟩

theorem emphasisWith_eq_some {prev : Option Char} {t mark : Text} {h : Hit} (hs : emphasisWith prev t mark = some h) :
    ∃ content, content ≠ [] ∧ h.whole = mark ++ content ++ mark ∧ h.groups = [some mark, some content] ∧
      h.whole ++ h.rest = t := by
  obtain ⟨inner, n, rfl, hn, rfl⟩ := emphasisWith_inner hs
  obtain ⟨u, rest, hu, rfl, rfl⟩ := contentLength_eq_some hn
  exact ⟨u, hu, by simp, by simp, by simp [List.drop_append]⟩

theorem emphasisWith_opens {prev : Option Char} {mark : Text} {h : Hit} (hs : emphasisWith prev t mark = some h) :
    ∃ c rest, t = mark ++ c :: rest ∧ isSpace c = false := by
  obtain ⟨inner, n, rfl, hn, -⟩ := emphasisWith_inner hs
  cases inner with
  | nil => contradiction
  | cons c rest =>
    rw [contentLength] at hn
    split at hn
    · contradiction
    · next hc => exact ⟨c, rest, rfl, by simpa using hc⟩

theorem emphasisScanner_eq_some {prev : Option Char} {t : Text} {h : Hit} (hs : emphasisScanner prev t = some h) :
    ∃ mark ∈ marks, emphasisWith prev t mark = some h := by
  unfold emphasisScanner at hs
  split at hs
  · exact List.exists_of_findSome?_eq_some hs
  · exact List.exists_of_findSome?_eq_some hs
  · contradiction

theorem emphasisScanner_lawful : emphasisScanner.Lawful := fun _ _ _ h => by
  obtain ⟨mark, -, h⟩ := emphasisScanner_eq_some h
  obtain ⟨_, -, -, -, h⟩ := emphasisWith_eq_some h
  exact h

theorem emphasis_shape (h : emphasisMatcher.find behind t = some m) :
    ∃ mark ∈ marks, ∃ content, content ≠ [] ∧ m.whole = mark ++ content ++ mark ∧
      m.groups = [some mark, some content] := by
  obtain ⟨mark, hm, hs⟩ := emphasisScanner_eq_some (emphasisScanner_lawful.hit_of_search h)
  obtain ⟨content, hc, hw, hg, -⟩ := emphasisWith_eq_some hs
  exact ⟨mark, hm, content, hc, hw, hg⟩

theorem address_takes {prev : Option Char} {u rest : Text} {caps : List (Nat × Text)}
    (h : address.Takes prev u rest caps) : u ≠ [] ∧ (∀ c ∈ u, isAddressChar c = true) ∧ caps = [] := by
  have hletter {c : Char} (h : (isLetter c || c.isDigit) = true) : isAddressChar c = true := by
    rw [isAddressChar, h, Bool.true_or]
  simp only [address, takes_append, takes_orElse, takes_optional, takes_atLeast, takes_one, takes_word] at h
  rcases h with ⟨_, _, _, _, rfl, rfl,
    ⟨_, _, _, _, rfl, rfl, ⟨scheme, _, _, _, rfl, rfl, ⟨hscheme, -, rfl⟩, rfl, rfl⟩, c, hc,
    rfl, rfl⟩, hall, -, rfl⟩ | ⟨_, _, _, _, rfl, rfl, ⟨dot, _, _, _, rfl, rfl, hdot, rfl, rfl⟩, hall, -, rfl⟩
  · refine ⟨by simp, ?_, rfl⟩
    simp only [List.forall_mem_append]
    refine ⟨⟨⟨fun c hc => hletter (by simp [hscheme c hc]), by decide⟩, ?_⟩, hall⟩
    exact List.forall_mem_singleton.2 (hletter hc)
  · rcases hdot with ⟨rfl, rfl⟩ | ⟨rfl, rfl⟩
    all_goals
      refine ⟨by simp, ?_, rfl⟩
      simp only [List.forall_mem_append]
      exact ⟨⟨by decide, by decide⟩, hall⟩

theorem link_takes_cases {prev : Option Char} {u rest : Text} {caps : List (Nat × Text)}
    (h : linkPattern.Takes prev u rest caps) :
    (∃ target, u = '-' :: '>' :: target ∧ target ≠ [] ∧ (∀ c ∈ target, isAddressChar c = true) ∧ caps = [(1, target)]) ∨
      ∃ label target, u = "->".toList ++ label ++ '(' :: (target ++ [')']) ∧ label ≠ [] ∧
        (∀ c ∈ label, (c != '\n' && c != '(') = true) ∧ target ≠ [] ∧ (∀ c ∈ target, isAddressChar c = true) ∧
        caps = [(3, target), (2, label)] := by
  simp only [linkPattern, takes_append, takes_orElse, takes_group, takes_word, takes_atLeast] at h
  rcases h with ⟨_, target, _, _, rfl, rfl, ⟨rfl, rfl⟩, _, ha, rfl⟩ |
    ⟨_, _, _, _, rfl, rfl, ⟨_, target, _, _, rfl, rfl, ⟨_, _, _, _, rfl, rfl, ⟨_, label, _, _, rfl, rfl, ⟨rfl, rfl⟩, _,
      ⟨hall, hl, rfl⟩, rfl⟩, rfl, rfl⟩, _, ⟨haddress, hl', rfl⟩, rfl⟩, rfl, rfl⟩
  · obtain ⟨hne, hall, rfl⟩ := address_takes ha
    exact .inl ⟨target, rfl, hne, hall, rfl⟩
  · exact .inr ⟨label, target, by simp, List.ne_nil_of_length_pos hl, hall, List.ne_nil_of_length_pos hl',
      haddress, rfl⟩

theorem link_shape (h : linkPattern.matcher.find behind t = some m) :
    (∃ target, target ≠ [] ∧ m.whole = "->".toList ++ target ∧ m.groups = [some target, none, none]) ∨
    ∃ label target, label ≠ [] ∧ target ≠ [] ∧ m.whole = "->".toList ++ label ++ "(".toList ++ target ++ ")".toList ∧
      m.groups = [none, some label, some target] := by
  obtain ⟨caps, ht, hg⟩ := takes_of_match h
  rcases link_takes_cases ht with ⟨target, hw, hne, -, rfl⟩ | ⟨label, target, hw, hne, -, hne', -, rfl⟩
  · exact .inl ⟨target, hne, hw, hg⟩
  · exact .inr ⟨label, target, hne, hne', by simp [hw], hg⟩

theorem image_parts (h : imagePattern.matcher.find behind t = some m) :
    ∃ first, first ≠ [] ∧ ((m.whole = "[[".toList ++ first ++ "]]".toList ∧ m.groups = [some first, none]) ∨
      ∃ second, m.whole = "[[".toList ++ first ++ "|".toList ++ second ++ "]]".toList ∧
        m.groups = [some first, some second]) := by
  obtain ⟨caps, ht, hg⟩ := takes_of_match h
  simp only [imagePattern, takes_append, takes_group, takes_word, takes_atLeast, takes_optional] at ht
  obtain ⟨_, _, _, _, hw, rfl, ⟨_, _, _, _, rfl, rfl, ⟨_, first, _, _, rfl, rfl, ⟨rfl, rfl⟩, _, ⟨-, hl, rfl⟩, rfl⟩,
    hs⟩, rfl, rfl⟩ := ht
  refine ⟨first, List.ne_nil_of_length_pos hl, ?_⟩
  rcases hs with ⟨_, second, _, _, rfl, rfl, ⟨rfl, rfl⟩, _, ⟨-, -, rfl⟩, rfl⟩ | ⟨rfl, rfl⟩
  · exact .inr ⟨second, by rw [hw]; simp, hg⟩
  · exact .inl ⟨by rw [hw]; simp, hg⟩

theorem image_shape (h : imagePattern.matcher.find behind t = some m) :
    ∃ first tail second, first ≠ [] ∧ m.whole = "[[".toList ++ first ++ tail ∧ m.groups = [some first, second] := by
  obtain ⟨first, hf, ⟨hw, hg⟩ | ⟨second, hw, hg⟩⟩ := image_parts h
  · exact ⟨first, _, none, hf, hw, hg⟩
  · exact ⟨first, "|".toList ++ (second ++ "]]".toList), some second, hf, by simp [hw], hg⟩

/-- A local part and a domain. -/
def IsMail (u : Text) : Prop := ∃ user host domain, u = user ++ '@' :: host ++ '.' :: domain ∧
  user ≠ [] ∧ (∀ c ∈ user, (isHandleChar c || c == '.') = true) ∧
  host ≠ [] ∧ (∀ c ∈ host, (isHandleChar c || c == '.' || c == '-') = true) ∧
  2 ≤ domain.length ∧ domain.length ≤ 10 ∧ ∀ c ∈ domain, isLetter c = true

/-- An address is taken where no word goes on at its ends. -/
theorem mail_takes_iff {prev : Option Char} {u rest : Text} : (∃ caps, mailPattern.Takes prev u rest caps) ↔
    IsMail u ∧ atWordEdge prev u.head? = true ∧ atWordEdge u.getLast? rest.head? = true := by
  constructor
  · rintro ⟨_, _, _, _, _, rfl, -,
      ⟨_, domain, _, _, rfl, -, ⟨_, _, _, _, rfl, -, ⟨_, host, _, _, rfl, -, ⟨_, _, _, _, rfl, -,
      ⟨_, user, _, _, rfl, -, ⟨hopen, rfl, -⟩, huser⟩, rfl, -⟩, hhost⟩, rfl, -⟩, hdomain⟩, hclose, rfl, -⟩
    obtain ⟨huser, hul, -⟩ := takes_atLeast.1 huser
    obtain ⟨hhost, hhl, -⟩ := takes_atLeast.1 hhost
    obtain ⟨hdomain, hdl, hdl', -⟩ := hdomain
    have hune := List.ne_nil_of_length_pos hul
    rw [Option.or_of_isSome (by simp)] at hclose
    refine ⟨⟨user, host, domain, by simp, hune, huser, List.ne_nil_of_length_pos hhl, hhost, hdl, hdl' 10 rfl,
      hdomain⟩, ?_, ?_⟩
    · simpa [List.head?_append_of_ne_nil _ hune] using hopen
    · simpa using hclose
  · rintro ⟨⟨user, host, domain, rfl, hune, huser, hhne, hhost, hdl, hdl', hdomain⟩, hopen, hclose⟩
    have hul : 1 ≤ user.length := List.length_pos_iff.2 hune
    have hhl : 1 ≤ host.length := List.length_pos_iff.2 hhne
    refine ⟨[], user ++ "@".toList ++ host ++ ".".toList ++ domain, [], [], [], by simp, rfl, ?_, ?_, rfl, rfl⟩
    · refine ⟨user ++ "@".toList ++ host ++ ".".toList, domain, [], [], rfl, rfl, ?_, hdomain, hdl, ?_, rfl⟩
      · refine ⟨user ++ "@".toList ++ host, ".".toList, [], [], rfl, rfl, ?_, rfl, rfl⟩
        refine ⟨user ++ "@".toList, host, [], [], rfl, rfl, ?_, takes_atLeast.2 ⟨hhost, hhl, rfl⟩⟩
        refine ⟨user, "@".toList, [], [], rfl, rfl, ?_, rfl, rfl⟩
        refine ⟨[], user, [], [], rfl, rfl, ⟨?_, rfl, rfl⟩, takes_atLeast.2 ⟨huser, hul, rfl⟩⟩
        simpa [List.head?_append_of_ne_nil _ hune] using hopen
      · rintro _ ⟨⟩
        exact hdl'
    · rw [Option.or_of_isSome (by simp)]
      simpa using hclose

theorem mail_shape (h : mailPattern.matcher.find behind t = some m) :
    ∃ u c v, (isHandleChar c || c == '.' || c == '-') = true ∧ m.whole = u ++ '@' :: c :: v := by
  obtain ⟨caps, ht, -⟩ := takes_of_match h
  obtain ⟨⟨user, host, domain, hw, -, -, hne, hhost, -⟩, -⟩ := mail_takes_iff.1 ⟨caps, ht⟩
  obtain ⟨c, host, rfl⟩ := List.exists_cons_of_ne_nil hne
  exact ⟨user, c, host ++ '.' :: domain, hhost c List.mem_cons_self, by simp [hw]⟩

theorem handle_shape {sign : String} {accepts : Char → Bool}
    (h : (matcher (word sign ++ group 1 (atLeast 1 accepts))).find behind t = some m) :
    ∃ name, name ≠ [] ∧ (∀ c ∈ name, accepts c = true) ∧ m.whole = sign.toList ++ name ∧
      m.groups = [some name] := by
  obtain ⟨caps, ht, hg⟩ := takes_of_match h
  simp only [takes_append, takes_group, takes_word, takes_atLeast] at ht
  obtain ⟨_, name, _, _, hw, rfl, ⟨rfl, rfl⟩, _, ⟨ha, hl, rfl⟩, rfl⟩ := ht
  exact ⟨name, List.ne_nil_of_length_pos hl, ha, hw, hg⟩

theorem superscript_parts (h : superscriptPattern.matcher.find behind t = some m) :
    ∃ content, m.whole = '^' :: content ∧ m.groups = [some content] ∧
      ((∃ inner, content = '(' :: inner ++ [')'] ∧ '\n' ∉ inner) ∨ content ≠ [] ∧
      ∀ c ∈ content, isSpace c = false) := by
  obtain ⟨caps, ht, hg⟩ := takes_of_match h
  simp only [superscriptPattern, takes_append, takes_orElse, takes_group, takes_word, takes_atLeast,
    takes_reluctant] at ht
  obtain ⟨_, content, _, _, hw, rfl, ⟨rfl, rfl⟩, _, hc, rfl⟩ := ht
  refine ⟨content, hw, ?_⟩
  rcases hc with ⟨_, _, _, _, rfl, rfl, ⟨_, inner, _, _, rfl, rfl, ⟨rfl, rfl⟩, hall, hl, rfl⟩, rfl,
    rfl⟩ | ⟨hall, hl, rfl⟩
  · exact ⟨hg, .inl ⟨inner, rfl, fun hmem => by simpa using hall _ hmem⟩⟩
  · exact ⟨hg, .inr ⟨List.ne_nil_of_length_pos hl, by simpa using hall⟩⟩

theorem superscript_shape (h : superscriptPattern.matcher.find behind t = some m) :
    ∃ content, content ≠ [] ∧ m.whole = "^".toList ++ content ∧ m.groups = [some content] := by
  obtain ⟨content, hw, hg, ⟨inner, rfl, -⟩ | ⟨hne, -⟩⟩ := superscript_parts h
  · exact ⟨_, by simp, hw, hg⟩
  · exact ⟨content, hne, hw, hg⟩

end Markup.Line
