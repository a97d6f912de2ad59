import Markup.Proofs.Line.Swap
import Markup.Proofs.Line.Writes
import Markup.Proofs.Pattern.Greedy

/-! # Matches and the tags in their place

Every line rule but emphasis and link puts a tag in the place of its match. The match stays on its line, is seen at both
ends and is not cut out of a name, so its neighbours can hardly tell it from the tag. -/
namespace Markup.Line
open Pattern Program

section
variable {c : Char}

theorem isLetter_cases (h : isLetter c = true) : c.isAlpha = true ∨ c = '\u017f' ∨ c = '\u212a' := by
  simpa [isLetter, or_assoc] using h

theorem isSpace_of_isLetter (h : isLetter c = true) : isSpace c = false := by
  rcases isLetter_cases h with h | rfl | rfl
  · exact isSpace_of_isAlpha h
  · decide
  · decide

theorem isWord_of_isLetter (h : isLetter c = true) : isWord c = true := by
  rcases isLetter_cases h with h | rfl | rfl
  · exact isWord_of_isAlpha h
  · decide +kernel
  · decide +kernel

theorem isHandleChar_cases (h : isHandleChar c = true) : isLetter c = true ∨ c.isDigit = true ∨ c = '_' := by
  simpa [isHandleChar, or_assoc] using h

theorem isSpace_of_isHandleChar (h : isHandleChar c = true) : isSpace c = false := by
  rcases isHandleChar_cases h with h | h | rfl
  · exact isSpace_of_isLetter h
  · exact isSpace_of_isDigit h
  · decide

theorem isWord_of_isHandleChar (h : isHandleChar c = true) : isWord c = true := by
  rcases isHandleChar_cases h with h | h | rfl
  · exact isWord_of_isLetter h
  · exact isWord_of_isDigit h
  · decide

theorem isAddressChar_of_isHandleChar (h : isHandleChar c = true) : isAddressChar c = true := by
  rcases isHandleChar_cases h with h | h | rfl
  · simp [isAddressChar, h]
  · simp [isAddressChar, h]
  · decide

theorem isSpace_of_isAddressChar (h : isAddressChar c = true) : isSpace c = false := by
  have hsigns : ∀ c ∈ "-._~:/?#[]@!$&'()*+,;=".toList, isSpace c = false := by decide
  simp only [isAddressChar, Bool.or_eq_true, List.contains_iff_mem] at h
  rcases h with (h | h) | h
  · exact isSpace_of_isLetter h
  · exact isSpace_of_isDigit h
  · exact hsigns c h

theorem isWord_of_isNameChar (h : isNameChar c = true) : isWord c = true := by
  simp only [isNameChar, Char.isAlphanum, Bool.or_eq_true, beq_iff_eq] at h
  rcases h with (h | h) | rfl
  · exact isWord_of_isAlpha h
  · exact isWord_of_isDigit h
  · decide

end

variable {behind t w a new : Text} {m : Match} {absent : Text}

theorem Shut.of_any {accepts : Char → Bool} (hc : ∀ c, isHandleChar c = true → accepts c = true)
    (h : a.head?.any accepts = false ∨ w.getLast?.any (!isWord ·) = true) : Shut w a := by
  refine h.imp_left fun hnone => ?_
  rw [Bool.eq_false_iff, Ne, Option.any_eq_true] at hnone ⊢
  exact fun ⟨c, hhead, hname⟩ => hnone ⟨c, hhead, hc c hname⟩

theorem Shut.underscore (h : Shut w a) (ha : a.head? = some '_') : w.getLast?.any isNameChar = false := by
  have hscore : isHandleChar '_' = true := by decide
  rw [Shut, ha, Option.any_some, hscore] at h
  obtain ⟨c, hc, hword⟩ := (Option.any_eq_true _ _).1 (h.resolve_left (by decide))
  rw [hc, Option.any_some, Bool.eq_false_iff]
  intro hname
  simp [isWord_of_isNameChar hname] at hword

/-- A text like the tag of an element, without the signs in `absent`. -/
structure Tagged (absent new : Text) : Prop where
  shape : ∃ n, new = '<' :: n ++ ['>']
  absent : ∀ c ∈ absent, c ∉ new

/-- A tag takes the place of a match that stays on its line, is seen at both ends, and is not cut out of a name. Only
images and superscripts take in a parenthesis. -/
structure Replaces (absent : Text) (m : Match) (new : Text) : Prop where
  whole : Enclosable m.whole
  shut : Shut m.whole m.after
  parenthesis : '(' ∈ m.whole → '[' ∈ m.whole ∨ '^' ∈ m.whole
  tagged : Tagged absent new

/-- Like `Replaces`, where the match begins with a sign, and in the tag no sign of a mail address follows a name. -/
structure ReplacesSigned (absent : Text) (m : Match) (new : Text) : Prop extends Replaces absent m new where
  sign : m.whole.head?.any (!isWord ·) = true
  behindTag : ∀ x y, new = x ++ '@' :: y → x.getLast? = some '>'

theorem absent_append {u v : Text} : (∀ c ∈ absent, c ∉ u ++ v) ↔ (∀ c ∈ absent, c ∉ u) ∧ ∀ c ∈ absent, c ∉ v := by
  simp only [List.mem_append, not_or, forall_and]

theorem absent_ofId (h : ∀ c ∈ absent, c ∉ Token.alphabet) (n : Nat) : ∀ c ∈ absent, c ∉ Token.ofId n := fun c hc =>
  Token.not_mem_ofId (h c hc) n

theorem not_mem_anchor {target label : Text} {c : Char} (hc : c ∉ "<a href=\"\"></a>".toList) (ht : c ∉ target)
    (hl : c ∉ label) : c ∉ Html.anchor target label := by
  have hparts : "<a href=\"\"></a>".toList = "<a href=\"".toList ++ "\">".toList ++ "</a>".toList := rfl
  simp only [hparts, Html.anchor_eq, List.mem_append, not_or] at hc ⊢
  exact ⟨⟨⟨⟨hc.1.1, ht⟩, hc.1.2⟩, hl⟩, hc.2⟩

theorem tagged_anchor {target label : Text} (ha : ∀ c ∈ absent, c ∉ "<a href=\"\"></a>".toList)
    (ht : ∀ c ∈ absent, c ∉ target) (hl : ∀ c ∈ absent, c ∉ label) : Tagged absent (Html.anchor target label) where
  shape := ⟨"a href=\"".toList ++ target ++ "\">".toList ++ label ++ "</a".toList, by simp [Html.anchor_eq]⟩
  absent c hc := not_mem_anchor (ha c hc) (ht c hc) (hl c hc)

theorem IsMail.enclosable (h : IsMail w) : Enclosable w := by
  have hne : w ≠ [] := by
    rintro rfl
    exact absurd h.head (by decide)
  refine enclosable_of_forall hne fun c hc => ?_
  have hchar := h.forall c hc
  simp only [Bool.or_eq_true, beq_iff_eq] at hchar
  rcases hchar with ((hname | rfl) | rfl) | rfl
  · exact isSpace_of_isHandleChar hname
  all_goals decide

theorem mail_replaces : mail.Writes dialect (Replaces "\n*_-[(^@#|".toList) := by
  refine Rule.writes_pattern fun behind ahead found hf => ?_
  obtain ⟨caps, ht, -⟩ := takes_of_match hf
  obtain ⟨hmail, -, hclose⟩ := mail_takes_iff.1 ⟨caps, ht⟩
  have hshut : found.after.head?.any isWord = false := by
    obtain ⟨c, hc, hletter⟩ := (Option.any_eq_true _ _).1 hmail.last
    simpa [atWordEdge, hc, isWord_of_isLetter hletter] using hclose
  have htoken : ∀ n, ∀ c ∈ "\n*_-[(^@#|".toList, c ∉ Token.ofId n := absent_ofId (by decide)
  refine writes_hide fun n =>
    writes_pure ⟨hmail.enclosable, ?_, fun hmem => ?_, tagged_anchor (by decide) ?_ (htoken n)⟩
  · exact .of_any (fun _ => isWord_of_isHandleChar) (.inl hshut)
  · exact absurd (hmail.forall _ hmem) (by decide)
  · exact absent_append.2 ⟨by decide, htoken n⟩

/-- In an anchor an `@` may stand only where the label begins. -/
theorem getLast?_of_anchor {target label x y : Text} {c : Char} (ht : '@' ∉ target) (hl : '@' ∉ label)
    (h : Html.anchor target (c :: label) = x ++ '@' :: y) : x.getLast? = some '>' := by
  have hsplit : ("<a href=\"".toList ++ target ++ ['"'] ++ ['>']) ++ c :: (label ++ "</a>".toList) = x ++ '@' :: y := by
    rw [← h, Html.anchor_eq]
    simp
  rw [List.eq_of_only (by simp [ht]) (by simp [hl]) hsplit, List.getLast?_concat]

/-- A mention or a tag: the sign and the name give way to an anchor with the sign in its label. -/
theorem handle_replaces {name sign : String} {c : Char} (before after : Text) {f : Match → Program (Option Text)}
    (hsign : sign.toList = [c])
    (hf : ∀ m name, m.group 1 = some name → f m = do
      let token ← Program.hide name
      return some (Html.anchor (before ++ token ++ after) (c :: token)))
    (hc : isWord c = false ∧ isSpace c = false ∧ c ≠ '(')
    (hmail : '@' ∉ before ∧ '@' ∉ after)
    (ha : (∀ d ∈ absent, d ∉ "<a href=\"\"></a>".toList) ∧ (∀ d ∈ absent, d ∉ Token.alphabet) ∧
      (∀ d ∈ absent, d ∉ before) ∧ (∀ d ∈ absent, d ∉ after) ∧ c ∉ absent) :
    (Rule.pattern name (word sign ++ group 1 (atLeast 1 isHandleChar)).matcher f).Writes dialect
    (ReplacesSigned absent) := by
  refine Rule.writes_pattern fun behind ahead found hfind => ?_
  obtain ⟨name, hne, hall, hw, hg⟩ := handle_shape hfind
  have h₁ : found.group 1 = some name := by simp [Match.group, hg]
  have hwhole : found.whole = c :: name := by rw [hw, hsign]; rfl
  have hends : Shuts isHandleChar (!isWord ·) (word sign ++ group 1 (atLeast 1 isHandleChar)) :=
    .append _ (.group 1 (.atLeast 1))
  have hshut := hends.of_find hfind (by simp [hwhole])
  have hspace : ∀ d ∈ c :: name, isSpace d = false := by
    rw [List.forall_mem_cons]
    exact ⟨hc.2.1, fun d hd => isSpace_of_isHandleChar (hall d hd)⟩
  have htoken := absent_ofId ha.2.1
  have hlabel (n : Nat) : ∀ d ∈ absent, d ∉ c :: Token.ofId n := by
    intro d hd
    rw [List.mem_cons, not_or]
    exact ⟨fun hdc => ha.2.2.2.2 (hdc ▸ hd), htoken n d hd⟩
  rw [hf found name h₁]
  refine writes_hide fun n => writes_pure
    ⟨⟨?_, .of_any (fun _ => id) hshut, fun hmem => ?_, tagged_anchor ha.1 ?_ (hlabel n)⟩, ?_, fun x y hnew => ?_⟩
  · rw [hwhole]
    exact enclosable_of_forall (List.cons_ne_nil c name) hspace
  · rw [hwhole, List.mem_cons] at hmem
    rcases hmem with hmem | hmem
    · exact absurd hmem.symm hc.2.2
    · exact absurd (hall _ hmem) (by decide)
  · exact absent_append.2 ⟨absent_append.2 ⟨ha.2.2.1, htoken n⟩, ha.2.2.2.1⟩
  · simp [hwhole, hc.1]
  · have htoken : '@' ∉ Token.ofId n := Token.not_mem_ofId (by decide) n
    exact getLast?_of_anchor (by simp [hmail, htoken]) htoken hnew

theorem mention_replaces : mention.Writes dialect (ReplacesSigned "\n*_-[(^#|".toList) := by
  refine handle_replaces (c := '@') "http://twitter.com/".toList [] rfl (fun m name h => ?_) (by decide) (by decide)
    (by decide)
  simp only [h, List.append_nil]

theorem hashtag_replaces : hashtag.Writes dialect (ReplacesSigned "\n*_-[(^@|".toList) := by
  refine handle_replaces (c := '#') "http://twitter.com/search?q=%23".toList "&src=hash".toList rfl (fun m name h => ?_)
    (by decide) (by decide) (by decide)
  simp only [h]

theorem image_enclosable (h : imagePattern.matcher.find behind t = some m) : Enclosable m.whole := by
  obtain ⟨caps, ht, -⟩ := takes_of_match h
  have hsides : ∃ inner, m.whole = '[' :: inner ++ [']'] := by
    obtain ⟨first, -, ⟨hw, -⟩ | ⟨second, hw, -⟩⟩ := image_parts h
    · exact ⟨'[' :: first ++ [']'], by simp [hw]⟩
    · exact ⟨'[' :: first ++ '|' :: second ++ [']'], by simp [hw]⟩
  obtain ⟨inner, hwhole⟩ := hsides
  refine ⟨not_mem_of_takes (by decide) ht, ?_, ?_⟩
  · rw [hwhole]
    exact (by decide : (!isSpace '[') = true)
  · rw [hwhole, List.getLast?_concat]
    exact (by decide : (!isSpace ']') = true)

theorem image_replaces : image.Writes dialect (Replaces "\n*_-[(^@#|".toList) := by
  refine Rule.writes_pattern fun behind ahead found hf => ?_
  obtain ⟨first, tail, second, -, hwhole, hg⟩ := image_shape hf
  have h₁ : found.group 1 = some first := by simp [Match.group, hg]
  have hends : Shuts isHandleChar (!isWord ·) imagePattern := .append _ (.word "]]" (by decide))
  have hshut : Shut found.whole found.after := .of_any (fun _ => id) (hends.of_find hf (by simp [hwhole]))
  have hreplaces {new : Text} (hnew : Tagged "\n*_-[(^@#|".toList new) : Replaces "\n*_-[(^@#|".toList found new :=
    ⟨image_enclosable hf, hshut, fun _ => .inl (by simp [hwhole]), hnew⟩
  have htoken : ∀ n, ∀ c ∈ "\n*_-[(^@#|".toList, c ∉ Token.ofId n := absent_ofId (by decide)
  simp only [h₁]
  refine writes_hide fun n => ?_
  cases (found.group 2).filter (· ≠ []) with
  | none =>
    refine writes_pure (hreplaces ⟨⟨"img".toList ++ Html.attributes _, rfl⟩, ?_⟩)
    rw [Html.image_unlabelled_eq, absent_append, absent_append]
    exact ⟨⟨by decide, htoken n⟩, by decide⟩
  | some source =>
    refine writes_hide fun k => writes_pure (hreplaces ⟨⟨"img".toList ++ Html.attributes _, rfl⟩, ?_⟩)
    rw [Html.image_eq]
    simp only [absent_append]
    exact ⟨⟨⟨⟨⟨⟨by decide, htoken k⟩, by decide⟩, htoken n⟩, by decide⟩, htoken n⟩, by decide⟩

theorem superscript_enclosable (h : superscriptPattern.matcher.find behind t = some m) : Enclosable m.whole := by
  have hcaret : isSpace '^' = false := by decide
  obtain ⟨content, hw, -, ⟨inner, rfl, hline⟩ | ⟨-, hspace⟩⟩ := superscript_parts h
  · rw [hw]
    refine ⟨by simp [hline], by simp [hcaret], ?_⟩
    rw [← List.cons_append, List.getLast?_concat]
    exact (by decide : (!isSpace ')') = true)
  · rw [hw]
    exact enclosable_of_forall (List.cons_ne_nil _ _) (List.forall_mem_cons.2 ⟨hcaret, hspace⟩)

theorem superscript_replaces : superscript.Writes dialect (ReplacesSigned "\n*_-[(^@#|".toList) := by
  refine Rule.writes_pattern fun behind ahead found hf => ?_
  obtain ⟨content, -, hw, hg⟩ := superscript_shape hf
  have h₁ : found.group 1 = some content := by simp [Match.group, hg]
  have hwhole : found.whole = '^' :: content := hw
  have hends : Shuts (!isSpace ·) (!isWord ·) superscriptPattern :=
    .append _ (.group 1 (.orElse (.append _ (.word ")" (by decide))) (.atLeast 1)))
  have hshut : Shut found.whole found.after := .of_any (fun c hc => by simp [isSpace_of_isHandleChar hc])
    (hends.of_find hf (by simp [hwhole]))
  have htag (n : Nat) : Tagged "\n*_-[(^@#|".toList (Html.element "sup" (Token.ofId n)) := by
    refine ⟨⟨"sup>".toList ++ Token.ofId n ++ "</sup".toList, by simp [Html.element]⟩, ?_⟩
    rw [Html.element_eq, absent_append, absent_append]
    exact ⟨⟨by decide, absent_ofId (by decide) n⟩, by decide⟩
  have hsign : found.whole.head?.any (!isWord ·) = true := by
    rw [hwhole]
    exact (by decide : (!isWord '^') = true)
  simp only [h₁]
  refine writes_rerun fun _ _ _ _ => writes_hide fun n => writes_pure
    ⟨⟨superscript_enclosable hf, hshut, fun _ => .inr (by simp [hwhole]), htag n⟩, hsign, fun x y hnew => ?_⟩
  have hnone := (htag n).absent '@' (by decide)
  rw [hnew] at hnone
  simp at hnone

theorem link_enclosable (h : linkPattern.matcher.find behind t = some m) : Enclosable m.whole := by
  have hdash : isSpace '-' = false := by decide
  obtain ⟨caps, ht, -⟩ := takes_of_match h
  rcases link_takes_cases ht with ⟨target, hw, -, htarget, -⟩ | ⟨label, target, hw, -, hlabel, -, htarget, -⟩
  · rw [hw]
    refine enclosable_of_forall (List.cons_ne_nil _ _) ?_
    simp only [List.forall_mem_cons]
    exact ⟨hdash, by decide, fun c hc => isSpace_of_isAddressChar (htarget c hc)⟩
  · have hline : '\n' ∉ label ∧ '\n' ∉ target :=
      ⟨fun hmem => by simpa using hlabel _ hmem, fun hmem => absurd (htarget _ hmem) (by decide)⟩
    rw [hw]
    refine ⟨by simp [hline], by simp [hdash], ?_⟩
    rw [← List.cons_append, ← List.append_assoc, List.getLast?_concat]
    exact (by decide : (!isSpace ')') = true)

theorem link_shut (h : linkPattern.matcher.find behind t = some m) : Shut m.whole m.after := by
  have haddress : Shuts isAddressChar (!isWord ·) address := .orElse (.append _ (.atLeast 0)) (.append _ (.atLeast 1))
  have hends : Shuts isAddressChar (!isWord ·) linkPattern :=
    .orElse (.append _ (.group 1 haddress)) (.append _ (.word ")" (by decide)))
  exact .of_any (fun _ => isAddressChar_of_isHandleChar) (hends.of_find h fun hnil =>
    absurd (link_enclosable h).ne_nil (by simp [hnil]))

/-- Around a label the two ends of the link give way on their own. -/
theorem emphasis_quiet_label {b label target token : Text} (hline : '\n' ∉ target)
    (htoken : ∀ c ∈ "*_".toList, c ∉ token)
    (h : emphasis.Quiet (b ++ ("->".toList ++ label ++ "(".toList ++ target ++ ")".toList) ++ a)) :
    emphasis.Quiet (b ++ Html.anchor token label ++ a) := by
  have harrow : Enclosable "->".toList := ⟨by decide, by decide, by decide⟩
  have haddress : Enclosable ('(' :: target ++ [')']) := by
    refine ⟨by simp [hline], (by decide : (!isSpace '(') = true), ?_⟩
    rw [List.getLast?_concat]
    exact (by decide : (!isSpace ')') = true)
  have hstart : emphasis.Quiet (b ++ "->".toList ++ (label ++ ('(' :: target ++ [')']) ++ a)) := by simpa using h
  have hopened : emphasis.Quiet (b ++ ("<a href=\"".toList ++ token ++ "\">".toList) ++
      (label ++ ('(' :: target ++ [')']) ++ a)) :=
    emphasis_quiet_swap harrow (fun _ => by decide) (by simp) ⟨by simp [htoken], by simp [htoken]⟩ hstart
  rw [← List.append_assoc, ← List.append_assoc] at hopened
  have hclosed : emphasis.Quiet (b ++ ("<a href=\"".toList ++ token ++ "\">".toList) ++ label ++ "</a>".toList ++ a) :=
    emphasis_quiet_swap haddress (fun _ => by rw [List.getLast?_concat]; decide) (by decide) (by decide) hopened
  rw [Html.anchor_eq]
  simpa using hclosed

theorem link_writes_quiet : link.Writes dialect fun m new => emphasis.Quiet m.text →
    emphasis.Quiet (m.replaceBy new) := by
  have htoken : ∀ n, ∀ c ∈ "*_".toList, c ∉ Token.ofId n := absent_ofId (by decide)
  refine Rule.writes_pattern fun behind ahead found hf => ?_
  rcases link_shape hf with ⟨target, -, -, hg⟩ | ⟨label, target, -, -, hw, hg⟩
  · have h₁ : found.group 1 = some target := by simp [Match.group, hg]
    have h₂ : found.group 2 = none := by simp [Match.group, hg]
    simp only [h₁, h₂]
    refine writes_hide fun n => writes_pure fun hquiet => ?_
    have htag : Tagged "*_".toList (Html.anchor (Token.ofId n) (Token.ofId n)) :=
      tagged_anchor (by decide) (htoken n) (htoken n)
    rw [Match.replaceBy_eq]
    refine emphasis_quiet_swap (link_enclosable hf) (link_shut hf).underscore ?_ ?_ hquiet
    · simp [Html.anchor]
    · exact ⟨htag.absent '*' (by decide), htag.absent '_' (by decide)⟩
  · have h₂ : found.group 2 = some label := by simp [Match.group, hg]
    have h₃ : found.group 3 = some target := by simp [Match.group, hg]
    have hline : '\n' ∉ target := by
      have hwhole := (link_enclosable hf).line
      simp only [hw, List.mem_append, not_or] at hwhole
      exact hwhole.1.2
    simp only [h₂, h₃]
    refine writes_hide fun n => writes_pure fun hquiet => ?_
    rw [Match.text, hw] at hquiet
    rw [Match.replaceBy_eq]
    exact emphasis_quiet_label hline (htoken n) hquiet

theorem emphasis_writes_tag : emphasis.Writes dialect fun _ new => Tagged "\n([^-|@#".toList new := by
  have htags : ∀ mark ∈ marks, (∀ c ∈ "\n([^-|@#".toList, c ∉ Html.opening (emphasisTag mark)) ∧
    ∀ c ∈ "\n([^-|@#".toList, c ∉ Html.closing (emphasisTag mark) := by decide
  refine Rule.writes_pattern fun behind ahead found hf => ?_
  obtain ⟨mark, hmark, content, -, -, hg⟩ := emphasis_shape hf
  have h₁ : found.group 1 = some mark := by simp [Match.group, hg]
  have h₂ : found.group 2 = some content := by simp [Match.group, hg]
  simp only [h₁, h₂]
  refine writes_rerun fun _ _ _ _ => writes_hide fun n => writes_pure ⟨?_, ?_⟩
  · exact ⟨(emphasisTag mark).toList ++ '>' :: Token.ofId n ++ "</".toList ++
      (emphasisTag mark).toList, by simp [Html.element]⟩
  · rw [Html.element_eq, absent_append, absent_append]
    exact ⟨⟨(htags mark hmark).1, absent_ofId (by decide) n⟩, (htags mark hmark).2⟩

theorem link_writes_tag : link.Writes dialect fun m new =>
    (∃ n, new = '<' :: n ++ ['>']) ∧ ∀ c ∈ "\n([^|@#".toList, c ∉ m.whole → c ∉ new := by
  have hfixed : ∀ c ∈ "\n([^|@#".toList, c ∉ "<a href=\"\"></a>".toList := by decide
  have htoken : ∀ n, ∀ c ∈ "\n([^|@#".toList, c ∉ Token.ofId n := absent_ofId (by decide)
  have hshape (target label : Text) : ∃ n, Html.anchor target label = '<' :: n ++ ['>'] :=
    ⟨"a href=\"".toList ++ target ++ "\">".toList ++ label ++ "</a".toList, by simp [Html.anchor_eq]⟩
  refine Rule.writes_pattern fun behind ahead found hf => ?_
  rcases link_shape hf with ⟨target, -, -, hg⟩ | ⟨label, target, -, -, hw, hg⟩
  · have h₁ : found.group 1 = some target := by simp [Match.group, hg]
    have h₂ : found.group 2 = none := by simp [Match.group, hg]
    simp only [h₁, h₂]
    exact writes_hide fun n => writes_pure ⟨hshape _ _, fun c hc _ =>
      not_mem_anchor (hfixed c hc) (htoken n c hc) (htoken n c hc)⟩
  · have h₂ : found.group 2 = some label := by simp [Match.group, hg]
    have h₃ : found.group 3 = some target := by simp [Match.group, hg]
    have hlabel : label ⊆ found.whole := by
      intro c hc
      simp [hw, hc]
    simp only [h₂, h₃]
    refine writes_hide fun n => writes_pure ⟨hshape _ _, fun c hc hwhole =>
      not_mem_anchor (hfixed c hc) (htoken n c hc) ?_⟩
    exact fun hmem => hwhole (hlabel hmem)

end Markup.Line
