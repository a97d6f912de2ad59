import Markup.Proofs.Line.Enclosed
import Markup.Proofs.Pattern.Complete
import Markup.Proofs.Text.Cuts
import Markup.Proofs.Text.Letters

/-! # Stretches that give way to tags

A stretch of a line gives way to a tag. Where a rule found nothing before it finds nothing afterwards, as long as it
could not tell the stretch from the tag: the marks of the rule are not in the tag, and what may stand on both sides of
the stretch sees the same at its ends. -/
namespace Markup.Line
open Pattern
variable {a b u v w new t : Text} {c : Char}

theorem Enclosable.ne_nil (h : Enclosable w) : w ≠ [] := by
  rintro rfl
  exact absurd h.first (by decide)

theorem enclosable_of_forall (hne : w ≠ []) (h : ∀ c ∈ w, isSpace c = false) : Enclosable w := by
  refine ⟨fun hline => absurd (h _ hline) (by decide), ?_, ?_⟩
  · obtain ⟨c, rest, rfl⟩ := List.exists_cons_of_ne_nil hne
    simpa using h c List.mem_cons_self
  · obtain rfl | ⟨init, c, rfl⟩ := List.eq_nil_or_concat' w
    · exact absurd rfl hne
    · simpa using h c (by simp)

/-- What stands in the middle may be swapped for what could stand alone. -/
theorem Enclosable.swap (h : Enclosable (u ++ new ++ v)) (hw : Enclosable w) : Enclosable (u ++ w ++ v) where
  line := by
    have hline := h.line
    simp only [List.mem_append, not_or] at hline ⊢
    exact ⟨⟨hline.1.1, hw.line⟩, hline.2⟩
  first := by
    cases u with
    | nil =>
      rw [List.nil_append, List.head?_append_of_ne_nil _ hw.ne_nil]
      exact hw.first
    | cons e u => exact h.first
  last := by
    obtain rfl | ⟨v, e, rfl⟩ := List.eq_nil_or_concat' v
    · rw [List.append_nil, List.getLast?_append_of_ne_nil _ hw.ne_nil]
      exact hw.last
    · have hlast := h.last
      rw [← List.append_assoc, List.getLast?_concat] at hlast ⊢
      exact hlast

/-- No underscore behind the stretch opens something there that it did not open before. -/
theorem emphasis_quiet_swap (hw : Enclosable w) (hscore : a.head? = some '_' → w.getLast?.any isNameChar = false)
    (hne : new ≠ []) (hnew : '*' ∉ new ∧ '_' ∉ new) (h : emphasis.Quiet (b ++ w ++ a)) :
      emphasis.Quiet (b ++ new ++ a) := by
  obtain ⟨d, n, rfl⟩ := List.exists_cons_of_ne_nil hne
  have hmarks : ∀ mark ∈ marks, ∃ s ms, mark = s :: ms ∧ s ∉ d :: n ∧ d ∉ ms := by
    have hstar : d ≠ '*' := fun hd => hnew.1 (hd ▸ List.mem_cons_self)
    simp only [marks, List.forall_mem_cons]
    refine ⟨⟨'_', [], rfl, hnew.2, List.not_mem_nil⟩, ⟨'*', ['*'], rfl, hnew.1, by simpa using hstar⟩,
      ⟨'*', [], rfl, hnew.1, List.not_mem_nil⟩, fun _ hmem => absurd hmem List.not_mem_nil⟩
  rw [emphasis_quiet_iff] at h ⊢
  rintro pos mark c ⟨hm, hc, x, y, ht, -, hword⟩
  obtain ⟨s, ms, rfl, hs, hd⟩ := hmarks mark hm
  have hopen : b ++ (d :: n) ++ a = x ++ (s :: ms) ++ (c ++ ((s :: ms) ++ y)) := by rw [ht, List.append_assoc x]
  rcases List.side_of_stretch hs hd hopen with ⟨e, rfl, he⟩ | ⟨e, rfl, rfl⟩
  · have hclose : e ++ (d :: n) ++ a = c ++ (s :: ms) ++ y := by rw [← he, List.append_assoc c]
    rcases List.side_of_stretch hs hd hclose with ⟨e, rfl, -⟩ | ⟨e, rfl, rfl⟩
    · exact h x.bytes (s :: ms) c ⟨hm, hc, x, e ++ w ++ a, by simp, rfl, hword⟩
    · exact h x.bytes (s :: ms) _ ⟨hm, hc.swap hw, x, y, by simp, rfl, hword⟩
  · refine h (b ++ w ++ e).bytes (s :: ms) c ⟨hm, hc, b ++ w ++ e, y, by simp, rfl, fun hmark => ?_⟩
    obtain rfl | ⟨e, k, rfl⟩ := List.eq_nil_or_concat' e
    · rw [List.append_nil, List.getLast?_append_of_ne_nil _ hw.ne_nil]
      refine hscore ?_
      rw [hmark]
      rfl
    · have hlast := hword hmark
      rw [← List.append_assoc, List.getLast?_concat] at hlast ⊢
      exact hlast

/-- What the pattern takes begins with a character that the tag has not, and has not the first character of the tag. -/
theorem find_swap_eq_none {p : Pattern} (hfloats : p.floats = true) (hlively : p.lively = true) {d : Char} {n : Text}
    (havoids : p.avoids d = true) (hhead : ∀ prev u rest caps, p.Takes prev u rest caps →
      u.head? = some c) (hc : c ∉ d :: n)
    (h : p.matcher.find [] (b ++ w ++ a) = none) : p.matcher.find [] (b ++ (d :: n) ++ a) = none := by
  refine Option.eq_none_iff_forall_ne_some.2 fun found hf => ?_
  obtain ⟨htext, caps, ht, -⟩ := takes_of_find hf
  obtain ⟨v, hwhole⟩ := List.head?_eq_some_iff.1 (hhead _ _ _ _ ht)
  have hd : d ∉ v := fun hmem => not_mem_of_takes havoids ht (hwhole ▸ List.mem_cons_of_mem c hmem)
  have hfind {x y : Text} (hsplit : b ++ w ++ a = x ++ (found.whole ++ y)) : False := by
    rw [hsplit] at h
    exact find_ne_none hlively (takes_anywhere hfloats ht _ _) h
  rw [Match.text, hwhole] at htext
  rw [hwhole] at hfind
  rcases List.side_of_stretch hc hd htext.symm with ⟨e, rfl, -⟩ | ⟨e, -, rfl⟩
  · exact hfind (x := found.before) (y := e ++ w ++ a) (by simp)
  · exact hfind (x := b ++ w ++ e) (y := found.after) (by simp)

theorem link_not_quiet {x y : Text} {prev : Option Char} {rest : Text} {caps : List (Nat × Text)}
    (h : linkPattern.Takes prev u rest caps) : ¬ link.Quiet (x ++ u ++ y) := by
  rw [link, Rule.quiet_pattern_iff, List.append_assoc]
  exact find_ne_none rfl (takes_anywhere rfl h _ _)

theorem takes_labelled {label target : Text} (hne : label ≠ []) (hlabel : ∀ c ∈ label, (c != '\n' && c != '(') = true)
    (hne' : target ≠ []) (htarget : ∀ c ∈ target, isAddressChar c = true) :
    linkPattern.Takes none ("->".toList ++ label ++ '(' :: (target ++ [')'])) [] [(3, target), (2, label)] := by
  have hl : 1 ≤ label.length := List.length_pos_iff.2 hne
  have ht : 1 ≤ target.length := List.length_pos_iff.2 hne'
  refine .inr ⟨"->".toList ++ label ++ "(".toList ++ target, ")".toList, [(3, target), (2, label)], [], by simp,
    rfl, ?_, rfl, rfl⟩
  refine ⟨"->".toList ++ label ++ "(".toList, target, [(2, label)], [(3, target)], rfl, rfl, ?_, [], ?_, rfl⟩
  · refine ⟨"->".toList ++ label, "(".toList, [(2, label)], [], rfl, rfl, ?_, rfl, rfl⟩
    exact ⟨"->".toList, label, [], [(2, label)], rfl, rfl, ⟨rfl, rfl⟩, [], takes_atLeast.2 ⟨hlabel, hl, rfl⟩, rfl⟩
  · exact takes_atLeast.2 ⟨htarget, ht, rfl⟩

/-- The stretch might have stood in a label, as the tag may. -/
theorem link_quiet_swap {n : Text} (hw : w ≠ []) (hline : '\n' ∉ w) (hparen : '(' ∉ w)
    (hnew : '-' ∉ '<' :: n ∧ '(' ∉ '<' :: n) (h : link.Quiet (b ++ w ++ a)) : link.Quiet (b ++ '<' :: n ++ a) := by
  rw [link, Rule.quiet_pattern_iff]
  refine Option.eq_none_iff_forall_ne_some.2 fun found hf => ?_
  obtain ⟨htext, caps, ht, -⟩ := takes_of_find hf
  have hbefore {x y : Text} (hb : b = x ++ found.whole ++ y) : False :=
    link_not_quiet (x := x) (y := y ++ w ++ a) ht (by simpa [hb] using h)
  have hafter {x y : Text} (ha : a = x ++ found.whole ++ y) : False :=
    link_not_quiet (x := b ++ w ++ x) (y := y) ht (by simpa [ha] using h)
  rcases link_takes_cases ht with ⟨target, hwhole, -, htarget, -⟩ | ⟨label, target, hwhole, hne, hlabel,
    hne', htarget, -⟩
  · have hlt : '<' ∉ '>' :: target := by
      rw [List.mem_cons, not_or]
      exact ⟨by decide, fun hmem => absurd (htarget _ hmem) (by decide)⟩
    rw [Match.text, hwhole] at htext
    rw [hwhole] at hbefore hafter
    rcases List.side_of_stretch hnew.1 hlt htext.symm with ⟨e, hb, -⟩ | ⟨e, -, ha⟩
    · exact hbefore hb
    · exact hafter ha
  · have hlt : '<' ∉ target ++ [')'] := by
      rw [List.mem_append, not_or]
      exact ⟨fun hmem => absurd (htarget _ hmem) (by decide), by decide⟩
    have hclose : b ++ '<' :: n ++ a = (found.before ++ "->".toList ++ label) ++ '(' :: (target ++ [')']) ++
        found.after := by
      rw [← htext, Match.text, hwhole]
      simp
    rw [hwhole] at hbefore hafter
    rcases List.side_of_stretch hnew.2 hlt hclose with ⟨e, hb, -⟩ | ⟨e, hopen, rfl⟩
    · exact hbefore (x := found.before) (y := e) (by rw [hb]; simp)
    · have hopen' : b ++ '<' :: n ++ e = found.before ++ '-' :: ['>'] ++ label := by rw [← hopen]; rfl
      rcases List.side_of_stretch hnew.1 (by decide) hopen' with ⟨e', rfl, rfl⟩ | ⟨e', -, rfl⟩
      · have hlabel' : ∀ c ∈ e' ++ w ++ e, (c != '\n' && c != '(') = true := by
          simp only [List.forall_mem_append, Bool.and_eq_true, bne_iff_ne] at hlabel ⊢
          exact ⟨⟨hlabel.1.1, fun c hc => ⟨fun h => hline (h ▸ hc), fun h => hparen (h ▸ hc)⟩⟩, hlabel.2⟩
        have hlinked := takes_labelled (by simp [hw]) hlabel' hne' htarget
        exact link_not_quiet (x := found.before) (y := found.after) hlinked (by simpa using h)
      · exact hafter (x := e') (y := found.after) (by simp)

theorem mail_quiet_iff : mail.Quiet t ↔ ∀ x u y, t = x ++ (u ++ y) → IsMail u →
    ¬ (atWordEdge x.getLast? u.head? = true ∧ atWordEdge u.getLast? y.head? = true) := by
  rw [mail, Rule.quiet_pattern_iff]
  constructor
  · rintro hnone x u y rfl hu hedges
    obtain ⟨caps, ht⟩ := mail_takes_iff.2 ⟨hu, hedges⟩
    exact find_ne_none rfl ht hnone
  · intro h
    refine Option.eq_none_iff_forall_ne_some.2 fun found hf => ?_
    obtain ⟨htext, caps, ht, -⟩ := takes_of_find hf
    obtain ⟨hu, hopen, hclose⟩ := mail_takes_iff.1 ⟨caps, ht⟩
    rw [← Match.getLast?_before] at hopen
    exact h found.before found.whole found.after (by rw [← htext, Match.text, List.append_assoc]) hu ⟨hopen, hclose⟩

theorem IsMail.head (h : IsMail u) : u.head?.any (fun c => isHandleChar c || c == '.') = true := by
  obtain ⟨user, host, domain, rfl, hne, huser, -⟩ := h
  obtain ⟨c, rest, rfl⟩ := List.exists_cons_of_ne_nil hne
  simpa using huser c List.mem_cons_self

theorem IsMail.last (h : IsMail u) : u.getLast?.any isLetter = true := by
  obtain ⟨user, host, domain, rfl, -, -, -, -, hl, -, hdomain⟩ := h
  obtain rfl | ⟨domain, c, rfl⟩ := List.eq_nil_or_concat' domain
  · contradiction
  · have hlast : user ++ '@' :: host ++ '.' :: (domain ++ [c]) =
        (user ++ '@' :: host ++ '.' :: domain) ++ [c] := by simp
    rw [hlast, List.getLast?_concat]
    exact hdomain c (by simp)

theorem IsMail.forall (h : IsMail u) : ∀ c ∈ u, (isHandleChar c || c == '.' || c == '-' || c == '@') = true := by
  obtain ⟨user, host, domain, rfl, -, huser, -, hhost, -, -, hdomain⟩ := h
  have hletter : ∀ c ∈ domain, isHandleChar c = true := fun c hc => by simp [isHandleChar, hdomain c hc]
  simp only [Bool.or_eq_true] at huser hhost
  simp only [List.forall_mem_append, List.forall_mem_cons, Bool.or_eq_true]
  refine ⟨⟨fun c hc => .inl (.inl (huser c hc)), .inr rfl, fun c hc => .inl (hhost c hc)⟩, ?_, fun c hc => ?_⟩
  · exact .inl (.inl (.inr rfl))
  · exact .inl (.inl (.inl (hletter c hc)))

/-- No mail address stands in a text in which every `@` follows the end of a tag. -/
theorem not_infix_of_isMail {n : Text} (hsign : ∀ x y, n = x ++ '@' :: y → x.getLast? = some '>') (h : IsMail u) :
    ¬ u <:+: n := by
  rintro ⟨x, y, rfl⟩
  have hgt : '>' ∉ u := fun hmem => absurd (h.forall _ hmem) (by decide)
  obtain ⟨user, host, domain, rfl, hne, -⟩ := h
  have hlast := hsign (x ++ user) (host ++ '.' :: domain ++ y) (by simp)
  rw [List.getLast?_append_of_ne_nil _ hne] at hlast
  exact hgt (by simp [List.mem_of_getLast? hlast])

/-- No name goes on behind the stretch: none of its characters comes next, or the stretch does not end in a word. -/
def Shut (w a : Text) : Prop := a.head?.any isHandleChar = false ∨ w.getLast?.any (!isWord ·) = true

/-- A mail address that begins with a word does not follow a stretch that ends with one. -/
theorem IsMail.not_behind (h : IsMail u) (hword : u.head?.any isWord = true) (hshut : Shut w (u ++ v)) :
    w.getLast?.any (!isWord ·) = true := by
  obtain ⟨c, hc, hname⟩ := (Option.any_eq_true _ _).1 h.head
  rw [hc] at hword
  rw [Shut, List.head?_append, hc] at hshut
  refine hshut.resolve_left fun hnone => ?_
  rcases Bool.or_eq_true_iff.1 hname with hname | hdot
  · exact absurd hname (Bool.eq_false_iff.1 hnone)
  · rw [beq_iff_eq.1 hdot] at hword
    exact absurd hword (by decide)

/-- A neighbour sees only whether the stretch begins or ends in a word. -/
theorem atWordEdge_swap (h : atWordEdge u.getLast? v.head? = true) {x y : Text}
    (hleft : x.getLast?.any isWord = u.getLast?.any isWord) (hright : y.head?.any isWord = v.head?.any isWord) :
    atWordEdge x.getLast? y.head? = true := by
  rw [atWordEdge, hleft, hright]
  exact h

/-- To a mail address on its left the stretch looks like a tag, and to one on its right as well. -/
theorem mail_quiet_swap {n : Text} (hfirst : w.head?.any (!isWord ·) = true) (hshut : Shut w a)
    (hsign : ∀ x y, '<' :: n ++ ['>'] = x ++ '@' :: y → x.getLast? = some '>') (h : mail.Quiet (b ++ w ++ a)) :
    mail.Quiet (b ++ ('<' :: n ++ ['>']) ++ a) := by
  obtain ⟨c, w, rfl, hc⟩ : ∃ c rest, w = c :: rest ∧ isWord c = false := by
    cases w with
    | nil => contradiction
    | cons c rest => exact ⟨c, rest, rfl, by simpa using hfirst⟩
  have hopening : isWord '<' = false ∧ isWord '>' = false := by decide
  rw [mail_quiet_iff] at h ⊢
  rintro x u y ht hu ⟨hopen, hclose⟩
  have hlt : '<' ∉ u := fun hmem => absurd (hu.forall _ hmem) (by decide)
  have hgt : '>' ∉ u := fun hmem => absurd (hu.forall _ hmem) (by decide)
  have htext : x ++ u ++ y = (b ++ '<' :: n) ++ '>' :: a := by simpa using ht.symm
  rcases List.side_of_not_mem hgt htext with ⟨e, hleft, rfl⟩ | ⟨e, rfl, rfl⟩
  · rcases List.side_of_not_mem hlt hleft.symm with ⟨e', rfl, rfl⟩ | ⟨e', rfl, rfl⟩
    · refine h x u (e' ++ (c :: w ++ a)) (by simp) hu ⟨hopen, atWordEdge_swap hclose rfl ?_⟩
      cases e' with
      | nil => simp [hc, hopening.1]
      | cons d e' => rfl
    · exact not_infix_of_isMail hsign hu ⟨'<' :: e', e ++ ['>'], by simp⟩
  · refine h (b ++ c :: w ++ e) u y (by simp) hu ⟨atWordEdge_swap hopen ?_ rfl, hclose⟩
    obtain rfl | ⟨e, d, rfl⟩ := List.eq_nil_or_concat' e
    · rw [List.getLast?_concat] at hopen ⊢
      have hword : u.head?.any isWord = true := by simpa [atWordEdge, hopening.2] using hopen
      have hlast : (c :: w).getLast?.any (!isWord ·) = true := hu.not_behind hword (by simpa using hshut)
      obtain ⟨d, hd, hlast⟩ := (Option.any_eq_true _ _).1 hlast
      rw [List.append_nil, List.getLast?_append, hd]
      simpa [hopening.2] using hlast
    · have hend : b ++ '<' :: n ++ '>' :: (e ++ [d]) = (b ++ '<' :: n ++ '>' :: e) ++ [d] := by simp
      rw [hend, ← List.append_assoc, List.getLast?_concat, List.getLast?_concat]

end Markup.Line
