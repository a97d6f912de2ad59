import Markup.Proofs.Line.Rules
import Markup.Proofs.Seam.Rule

/-! # Line rules on both sides of a seam

No line rule takes a line break, and every one of them leaves a token in its line. -/
namespace Markup.Html
open Text
variable {t : Text}

theorem stamped_element {tag : String} (ht : '\n' ∉ tag.toList) (h : Stamped t) : Stamped (element tag t) := by
  have hopening : '\n' ∉ opening tag := by simp [opening, ht]
  have hclosing : '\n' ∉ closing tag := by simp [closing, ht]
  rw [element_eq]
  exact h.append hopening hclosing

theorem stamped_anchor (h : Stamped t) {label : Text} (hl : '\n' ∉ label) : Stamped (anchor t label) := by
  have htail : '\n' ∉ "\">".toList ++ label ++ "</a>".toList := by simp [hl]
  have := h.append (u := "<a href=\"".toList) (by decide) htail
  simpa only [anchor_eq, List.append_assoc] using this

theorem stamped_image (h : Stamped t) {label : Text} (hl : '\n' ∉ label) :
    Stamped (image [("src", t), ("alt", label), ("title", label)]) := by
  have htail : '\n' ∉ "\" alt=\"".toList ++ label ++ "\" title=\"".toList ++ label ++ "\">".toList := by simp [hl]
  have := h.append (u := "<img src=\"".toList) (by decide) htail
  simpa only [image_eq, List.append_assoc] using this

theorem stamped_image_unlabelled (h : Stamped t) : Stamped (image [("src", t), ("alt", [])]) := by
  rw [image_unlabelled_eq]
  exact h.append (by decide) (by decide)

end Markup.Html

namespace Markup.Line
open Pattern Program Text
variable {mark a b t : Text}

theorem closes?_newline (h : '\n' ∉ mark) (t b : Text) : closes? mark (t ++ '\n' :: b) = closes? mark t := by
  have hstar : '\n' ∉ '*' :: mark := by simp [h]
  rw [closes?, closes?, isPrefixOf_newline hstar, isPrefixOf_newline h]

theorem contentFrom_newline (h : '\n' ∉ mark) (n : Nat) (t b : Text) :
    contentFrom mark n (t ++ '\n' :: b) = contentFrom mark n t := by
  induction t generalizing n with
  | nil => simp [contentFrom]
  | cons c t ih => rw [List.cons_append, contentFrom, contentFrom, closes?_newline h, ih]

theorem contentLength_newline (h : '\n' ∉ mark) (t b : Text) :
    contentLength mark (t ++ '\n' :: b) = contentLength mark t := by
  cases t with
  | nil => simp [contentLength, isSpace_newline]
  | cons c t => rw [List.cons_append, contentLength, contentLength, contentFrom_newline h, closes?_newline h]

theorem emphasisWith_newline (h : '\n' ∉ mark) (prev : Option Char) (t b : Text) :
    emphasisWith prev (t ++ '\n' :: b) mark = (emphasisWith prev t mark).map (Hit.extend ('\n' :: b)) := by
  rw [emphasisWith, emphasisWith]
  cases hp : mark.isPrefixOf? t with
  | none => rw [isPrefixOf?_append_eq_none rfl (.inr (.inl h)) hp]; rfl
  | some inner =>
    have hsplit := Token.eq_append_of_isPrefixOf? hp
    rw [hsplit, List.append_assoc, Token.isPrefixOf?_append]
    simp only [Option.bind_eq_bind, Option.bind_some]
    split
    · rfl
    · rw [contentLength_newline h]
      cases hn : contentLength mark inner with
      | none => rfl
      | some n =>
        obtain ⟨u, rest, -, rfl, rfl⟩ := contentLength_eq_some hn
        simp [Hit.extend, List.drop_append]

theorem findSome?_newline (prev : Option Char) (t b : Text) {ms : List Text} (h : ∀ mark ∈ ms, '\n' ∉ mark) :
    ms.findSome? (emphasisWith prev (t ++ '\n' :: b)) =
      (ms.findSome? (emphasisWith prev t)).map (Hit.extend ('\n' :: b)) := by
  induction ms with
  | nil => rfl
  | cons mark ms ih =>
    rw [List.forall_mem_cons] at h
    rw [List.findSome?_cons, List.findSome?_cons, emphasisWith_newline h.1, ih h.2]
    cases emphasisWith prev t mark <;> rfl

theorem emphasisScanner_seam (a b : Text) : emphasisScanner.Seam a b := by
  constructor
  · intro u v _
    rw [emphasisScanner_eq, emphasisScanner_eq]
    exact findSome?_newline u.getLast? v b (by decide)
  · have hprev : (some '\n').any isNameChar = (none : Option Char).any isNameChar := by decide
    have hwith (mark : Text) : emphasisWith (some '\n') b mark = emphasisWith none b mark := by
      rw [emphasisWith, emphasisWith, hprev]
    rw [emphasisScanner_eq, emphasisScanner_eq, funext hwith]

theorem emphasis_line {behind t : Text} {m : Match} (h : emphasisMatcher.find behind t = some m) : '\n' ∉ m.whole :=
  Scanner.newline_not_mem emphasisScanner_lawful emphasisScanner_seam (emphasisScanner_lawful.hit_of_search h)

theorem emphasis_seam : emphasis.Seam dialect Paused Opens := by
  have hp := progresses (r := emphasis) (by simp [rules]) rfl
  have hmark : ∀ mark ∈ marks, mark ≠ [] ∧ mark.getLast? ≠ some '\n' ∧ '\n' ∉ (emphasisTag mark).toList := by decide
  refine Rule.seam_of_stamped hp (fun _ _ _ => rfl) (fun a b _ _ => (emphasisScanner_seam a b).matcher _) ?_
  intro t found hf
  obtain ⟨mark, hm, content, -, hw, hg⟩ := emphasis_shape hf
  obtain ⟨hne, hlast, htag⟩ := hmark mark hm
  refine ⟨(emphasisScanner_lawful.search_hit hf).1, by simp [hw, hne], ?_, ?_⟩
  · rwa [hw, List.getLast?_append_of_ne_nil _ hne]
  · have h₁ : found.group 1 = some mark := by simp [Match.group, hg]
    have h₂ : found.group 2 = some content := by simp [Match.group, hg]
    simp only [h₁, h₂]
    exact yields_rerun fun inner => yields_hide fun n => yields_pure (Html.stamped_element htag (stamped_ofId n))

theorem superscript_seam : superscript.Seam dialect Paused Opens := by
  have hp := progresses (r := superscript) (by simp [rules]) rfl
  refine Rule.seam_of_inLine (by decide) (by decide) hp (fun _ _ _ => rfl) fun t found hf _ => ?_
  obtain ⟨content, -, -, hg⟩ := superscript_shape hf
  have h₁ : found.group 1 = some content := by simp [Match.group, hg]
  simp only [h₁]
  exact yields_rerun fun inner => yields_hide fun n => yields_pure (Html.stamped_element (by decide) (stamped_ofId n))

theorem link_seam : link.Seam dialect Paused Opens := by
  have hp := progresses (r := link) (by simp [rules]) rfl
  refine Rule.seam_of_inLine (by decide) (by decide) hp (fun _ _ _ => rfl) fun t found hf hbreak => ?_
  rcases link_shape hf with ⟨target, -, -, hg⟩ | ⟨label, target, -, -, hw, hg⟩
  · have h₁ : found.group 1 = some target := by simp [Match.group, hg]
    have h₂ : found.group 2 = none := by simp [Match.group, hg]
    simp only [h₁, h₂]
    exact yields_hide fun n => yields_pure (Html.stamped_anchor (stamped_ofId n) (stamped_ofId n).inLine)
  · have h₂ : found.group 2 = some label := by simp [Match.group, hg]
    have h₃ : found.group 3 = some target := by simp [Match.group, hg]
    have hlabel : '\n' ∉ label := fun h => hbreak (by simp [hw, h])
    simp only [h₂, h₃]
    exact yields_hide fun n => yields_pure (Html.stamped_anchor (stamped_ofId n) hlabel)

theorem image_seam : image.Seam dialect Paused Opens := by
  have hp := progresses (r := image) (by simp [rules]) rfl
  refine Rule.seam_of_inLine (by decide) (by decide) hp (fun _ _ _ => rfl) fun t found hf _ => ?_
  obtain ⟨first, tail, second, -, -, hg⟩ := image_shape hf
  have h₁ : found.group 1 = some first := by simp [Match.group, hg]
  simp only [h₁]
  refine yields_hide fun n => ?_
  cases (found.group 2).filter (· ≠ []) with
  | none => exact yields_pure (Html.stamped_image_unlabelled (stamped_ofId n))
  | some source =>
    exact yields_hide fun k => yields_pure (Html.stamped_image (stamped_ofId k) (stamped_ofId n).inLine)

theorem mail_seam : mail.Seam dialect Paused Opens := by
  have hp := progresses (r := mail) (by simp [rules]) rfl
  refine Rule.seam_of_inLine (by decide) (by decide) hp (fun _ _ _ => rfl) fun t found hf _ => ?_
  refine yields_hide fun n => yields_pure (Html.stamped_anchor ?_ (stamped_ofId n).inLine)
  have := (stamped_ofId n).append (u := "mailto:".toList) (v := []) (by decide) (by decide)
  rwa [List.append_nil] at this

/-- A sign and the name behind it: the anchor has the token of the name between the texts `before` and `after`. -/
theorem handle_seam {name sign : String} {accepts : Char → Bool} {c : Char} (before after : Text)
    {f : Match → Program (Option Text)}
    (hf : ∀ m name, m.group 1 = some name → f m = do
      let token ← Program.hide name
      return some (Html.anchor (before ++ token ++ after) (c :: token)))
    (hn : Rule.Narrow f) (hl : (word sign ++ group 1 (atLeast 1 accepts)).inLine false = true)
    (hr : Rule.pattern name (word sign ++ group 1 (atLeast 1 accepts)).matcher f ∈ rules)
    (hbreak : '\n' ∉ before ∧ '\n' ∉ after ∧ '\n' ≠ c) :
    (Rule.pattern name (word sign ++ group 1 (atLeast 1 accepts)).matcher f).Seam dialect Paused Opens := by
  have hsize : 1 ≤ (word sign ++ group 1 (atLeast 1 accepts)).size := Nat.le_add_left 1 _
  refine Rule.seam_of_inLine hl hsize (progresses hr rfl) hn fun t found hfind _ => ?_
  obtain ⟨name, -, -, -, hg⟩ := handle_shape hfind
  have h₁ : found.group 1 = some name := by simp [Match.group, hg]
  rw [hf found name h₁]
  refine yields_hide fun n => yields_pure (Html.stamped_anchor ((stamped_ofId n).append hbreak.1 hbreak.2.1) ?_)
  simp [hbreak.2.2, (stamped_ofId n).inLine]

theorem mention_seam : mention.Seam dialect Paused Opens := by
  refine handle_seam (c := '@') "http://twitter.com/".toList [] (fun m name h => ?_) (fun _ _ _ => rfl) (by decide) ?_
    (by decide)
  · simp only [h, List.append_nil]
  · exact List.mem_of_getElem? (i := 4) rfl

theorem hashtag_seam : hashtag.Seam dialect Paused Opens := by
  refine handle_seam (c := '#') "http://twitter.com/search?q=%23".toList "&src=hash".toList (fun m name h => ?_)
    (fun _ _ _ => rfl) (by decide) ?_ (by decide)
  · simp only [h]
  · exact List.mem_of_getElem? (i := 5) rfl

theorem rules_seam : ∀ r ∈ rules, r.Seam dialect Paused Opens := by
  simp only [rules, List.forall_mem_cons]
  exact ⟨emphasis_seam, link_seam, image_seam, mail_seam, mention_seam, hashtag_seam, superscript_seam,
    fun r hr => absurd hr List.not_mem_nil⟩

end Markup.Line
