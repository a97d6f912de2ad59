import Markup.Proofs.Dialect.Saturation
import Markup.Proofs.Line.Replaces
import Markup.Proofs.Rule.Spares

/-! # What the line rules spare

A line rule brings up no match for the rules before it, but for links: an image or a superscript may have held a
parenthesis that stood between an arrow and its address. -/
namespace Markup.Line
open Pattern
variable {absent new : Text} {m : Match} {P : Text → Prop}

namespace Replaces

theorem emphasis_quiet (h : Replaces absent m new) (ha : '*' ∈ absent ∧ '_' ∈ absent) (hq : emphasis.Quiet m.text) :
    emphasis.Quiet (m.replaceBy new) := by
  obtain ⟨n, rfl⟩ := h.tagged.shape
  rw [Match.replaceBy_eq]
  exact emphasis_quiet_swap h.whole h.shut.underscore (List.cons_ne_nil _ _)
    ⟨h.tagged.absent '*' ha.1, h.tagged.absent '_' ha.2⟩ hq

theorem link_quiet (h : Replaces absent m new) (ha : '-' ∈ absent ∧ '(' ∈ absent) (hparen : '(' ∉ m.whole)
    (hq : link.Quiet m.text) : link.Quiet (m.replaceBy new) := by
  obtain ⟨n, rfl⟩ := h.tagged.shape
  rw [Match.replaceBy_eq]
  exact link_quiet_swap h.whole.ne_nil h.whole.line hparen ⟨h.tagged.absent '-' ha.1, h.tagged.absent '(' ha.2⟩ hq

/-- A rule whose matches begin with a sign that the tag has not, and hold no tag. -/
theorem sign_quiet (h : Replaces absent m new) {name : String} {p : Pattern}
    {f : Match → Program (Option Text)} {c : Char}
    (hp : p.floats = true ∧ p.lively = true ∧ p.avoids '<' = true) (hhead : p.headed c = true) (ha : c ∈ absent)
    (hq : (Rule.pattern name p.matcher f).Quiet m.text) : (Rule.pattern name p.matcher f).Quiet (m.replaceBy new) := by
  obtain ⟨n, rfl⟩ := h.tagged.shape
  rw [Rule.quiet_pattern_iff] at hq ⊢
  rw [Match.replaceBy_eq]
  exact find_swap_eq_none hp.1 hp.2.1 hp.2.2 (fun _ _ _ _ => head?_of_takes hhead) (h.tagged.absent c ha) hq

theorem image_quiet (h : Replaces absent m new) (ha : '[' ∈ absent) (hq : image.Quiet m.text) :
    image.Quiet (m.replaceBy new) := h.sign_quiet (by decide) (by decide) ha hq

theorem mention_quiet (h : Replaces absent m new) (ha : '@' ∈ absent) (hq : mention.Quiet m.text) :
    mention.Quiet (m.replaceBy new) := h.sign_quiet (by decide) (by decide) ha hq

theorem hashtag_quiet (h : Replaces absent m new) (ha : '#' ∈ absent) (hq : hashtag.Quiet m.text) :
    hashtag.Quiet (m.replaceBy new) := h.sign_quiet (by decide) (by decide) ha hq

end Replaces

theorem ReplacesSigned.mail_quiet (h : ReplacesSigned absent m new) (hq : mail.Quiet m.text) :
    mail.Quiet (m.replaceBy new) := by
  obtain ⟨n, rfl⟩ := h.tagged.shape
  rw [Match.replaceBy_eq]
  exact mail_quiet_swap h.sign h.shut h.behindTag hq

theorem rules_lawful : ∀ r ∈ rules, ∃ matcher f, r.action = .pattern matcher f ∧ matcher.Lawful := by
  simp only [rules, List.forall_mem_cons]
  exact ⟨⟨_, _, rfl, Matcher.lawful_ofScanner emphasisScanner_lawful _⟩, ⟨_, _, rfl, matcher_lawful _⟩,
    ⟨_, _, rfl, matcher_lawful _⟩, ⟨_, _, rfl, matcher_lawful _⟩, ⟨_, _, rfl, matcher_lawful _⟩,
    ⟨_, _, rfl, matcher_lawful _⟩, ⟨_, _, rfl, matcher_lawful _⟩, fun r hr => absurd hr List.not_mem_nil⟩

theorem spares_of_writes {r : Rule} (hr : r ∈ rules) {New : Match → Text → Prop} (h : r.Writes dialect New)
    (hkeep : ∀ m new, New m new → P m.text → P (m.replaceBy new)) : r.Spares dialect P := by
  obtain ⟨matcher, f, ha, hm⟩ := rules_lawful r hr
  exact Rule.spares_of_keeps (progresses hr ha) ha (h.keeps ha hm hkeep)

theorem Replaces.mono (h : Replaces absent m new) {fewer : Text} (hsub : fewer ⊆ absent) : Replaces fewer m new :=
  ⟨h.whole, h.shut, h.parenthesis, h.tagged.shape, fun c hc => h.tagged.absent c (hsub hc)⟩

theorem ReplacesSigned.mono (h : ReplacesSigned absent m new) {fewer : Text} (hsub : fewer ⊆ absent) :
    ReplacesSigned fewer m new := ⟨h.toReplaces.mono hsub, h.sign, h.behindTag⟩

/-- The signs that no tag has. -/
def openers : Text := "*_-[(^".toList

theorem signed_replace : ∀ q ∈ [mention, hashtag, superscript], q ∈ rules ∧
    q.Writes dialect (ReplacesSigned ('\n' :: openers)) := by
  simp only [List.forall_mem_cons]
  exact ⟨⟨by simp [rules], mention_replaces.imp fun _ _ h => h.mono (by decide)⟩,
    ⟨by simp [rules], hashtag_replaces.imp fun _ _ h => h.mono (by decide)⟩,
    ⟨by simp [rules], superscript_replaces.imp fun _ _ h => h.mono (by decide)⟩, fun q hq => absurd hq List.not_mem_nil⟩

theorem tags_replace : ∀ q ∈ [image, mail, mention, hashtag, superscript], q ∈ rules ∧
    q.Writes dialect (Replaces ('\n' :: openers)) := by
  rw [List.forall_mem_cons, List.forall_mem_cons]
  refine ⟨⟨by simp [rules], image_replaces.imp fun _ _ h => h.mono (by decide)⟩,
    ⟨by simp [rules], mail_replaces.imp fun _ _ h => h.mono (by decide)⟩, fun q hq => ?_⟩
  obtain ⟨hr, hwrites⟩ := signed_replace q hq
  exact ⟨hr, hwrites.imp fun _ _ h => h.toReplaces⟩

theorem emphasis_spared : ∀ q ∈ [link, image, mail, mention, hashtag, superscript],
    q.Spares dialect emphasis.Quiet := by
  rw [List.forall_mem_cons]
  refine ⟨spares_of_writes (by simp [rules]) link_writes_quiet fun _ _ h => h, fun q hq => ?_⟩
  obtain ⟨hr, hwrites⟩ := tags_replace q hq
  exact spares_of_writes hr hwrites fun _ _ h => h.emphasis_quiet (by decide)

theorem image_spared : ∀ q ∈ [mail, mention, hashtag, superscript], q.Spares dialect image.Quiet := by
  intro q hq
  obtain ⟨hr, hwrites⟩ := tags_replace q (List.mem_cons_of_mem image hq)
  exact spares_of_writes hr hwrites fun _ _ h => h.image_quiet (by decide)

theorem mail_spared : ∀ q ∈ [mention, hashtag, superscript], q.Spares dialect mail.Quiet := by
  intro q hq
  obtain ⟨hr, hwrites⟩ := signed_replace q hq
  exact spares_of_writes hr hwrites fun _ _ h => h.mail_quiet

theorem mention_spared : ∀ q ∈ [hashtag, superscript], q.Spares dialect mention.Quiet := by
  simp only [List.forall_mem_cons]
  exact ⟨spares_of_writes (by simp [rules]) hashtag_replaces fun _ _ h => h.mention_quiet (by decide),
    spares_of_writes (by simp [rules]) superscript_replaces fun _ _ h => h.mention_quiet (by decide),
    fun q hq => absurd hq List.not_mem_nil⟩

theorem hashtag_spared : ∀ q ∈ [superscript], q.Spares dialect hashtag.Quiet :=
  List.forall_mem_singleton.2
    (spares_of_writes (by simp [rules]) superscript_replaces fun _ _ h => h.hashtag_quiet (by decide))

/-- No rule of the line can take in a parenthesis: there is none, or nothing that could hold it. -/
def Unhidden (t : Text) : Prop := '(' ∉ t ∨ '[' ∉ t ∧ '^' ∉ t

theorem not_mem_replaceBy {c : Char} (htext : c ∉ m.text) (hnew : c ∉ m.whole → c ∉ new) : c ∉ m.replaceBy new := by
  simp only [Match.text, Match.replaceBy_eq, List.mem_append, not_or] at htext ⊢
  exact ⟨⟨htext.1.1, hnew htext.1.2⟩, htext.2⟩

theorem Unhidden.replaceBy (h : Unhidden m.text) (hnew : ∀ c ∈ "([^".toList, c ∉ m.whole → c ∉ new) :
    Unhidden (m.replaceBy new) := by
  have hkeep {c : Char} (hc : c ∈ "([^".toList) (htext : c ∉ m.text) : c ∉ m.replaceBy new :=
    not_mem_replaceBy htext (hnew c hc)
  exact h.imp (hkeep (by decide)) fun h => ⟨hkeep (by decide) h.1, hkeep (by decide) h.2⟩

theorem Replaces.unhidden (h : Replaces openers m new) (ht : Unhidden m.text) : Unhidden (m.replaceBy new) :=
  have hsub : "([^".toList ⊆ openers := by decide
  ht.replaceBy fun c hc _ => h.tagged.absent c (hsub hc)

/-- The match has no parenthesis, since only images and superscripts could have one. -/
theorem Replaces.not_mem_whole (h : Replaces absent m new) (ht : Unhidden m.text) : '(' ∉ m.whole := by
  have hpart {c : Char} (hc : c ∈ m.whole) : c ∈ m.text := List.mem_append_left _ (List.mem_append_right _ hc)
  intro hmem
  rcases ht with hparen | ⟨hbracket, hcaret⟩
  · exact hparen (hpart hmem)
  · rcases h.parenthesis hmem with hmem | hmem
    · exact hbracket (hpart hmem)
    · exact hcaret (hpart hmem)

theorem link_spared : ∀ q ∈ [image, mail, mention, hashtag, superscript],
    q.Spares dialect fun t => link.Quiet t ∧ Unhidden t := by
  intro q hq
  obtain ⟨hr, hwrites⟩ := tags_replace q hq
  refine spares_of_writes hr hwrites fun m new h ⟨hquiet, ht⟩ => ?_
  exact ⟨h.link_quiet (by decide) (h.not_mem_whole ht) hquiet, (h.mono (by decide)).unhidden ht⟩

/-- Every rule writes a tag, and no line break but those of the match. -/
theorem rules_write_tags : ∀ r ∈ rules, r.Writes dialect fun m new =>
    new.head? = some '<' ∧ ('\n' ∉ m.whole → '\n' ∉ new) := by
  have htags : ∀ q ∈ [image, mail, mention, hashtag, superscript], q.Writes dialect fun m new =>
      new.head? = some '<' ∧ ('\n' ∉ m.whole → '\n' ∉ new) := fun q hq =>
    (tags_replace q hq).2.imp fun _ new h => by
      obtain ⟨n, rfl⟩ := h.tagged.shape
      exact ⟨rfl, fun _ => h.tagged.absent '\n' List.mem_cons_self⟩
  have hsplit : rules = [emphasis, link] ++ [image, mail, mention, hashtag, superscript] := rfl
  rw [hsplit, List.forall_mem_append, List.forall_mem_cons, List.forall_mem_singleton]
  refine ⟨⟨emphasis_writes_tag.imp fun _ new h => ?_, link_writes_tag.imp fun _ new h => ?_⟩, htags⟩
  · obtain ⟨n, rfl⟩ := h.shape
    exact ⟨rfl, fun _ => h.absent '\n' (by decide)⟩
  · obtain ⟨n, rfl⟩ := h.1
    exact ⟨rfl, h.2 '\n' (by decide)⟩

theorem rules_spare_line : ∀ r ∈ rules, r.Spares dialect fun t => '\n' ∉ t := fun r hr =>
  spares_of_writes hr (rules_write_tags r hr) fun _ _ h ht => not_mem_replaceBy ht h.2

section
variable {t out : Text} {s after : Store}

theorem quiet_of_applies {r : Rule} (hr : r ∈ rules) (h : dialect.Applies r t s out after) : r.Quiet out := by
  obtain ⟨matcher, f, ha, -⟩ := rules_lawful r hr
  have hwrites := dialect_writes (show r ∈ dialect.rules .line from hr)
  exact (Rule.quiet_iff ha).2 (hwrites.find_eq_none dialect_ends ha ((Grammar.applies_iff ha).1 h))

/-- A rule finds nothing in the end when the later ones bring up nothing for it. -/
theorem quiet_of_later (earlier later : List Rule) {r : Rule} (hsplit : rules = earlier ++ r :: later)
    (hlater : ∀ q ∈ later, q.Spares dialect r.Quiet) (h : dialect.AppliesAll rules t s out after) : r.Quiet out := by
  have hr : r ∈ rules := hsplit ▸ List.mem_append_right earlier List.mem_cons_self
  exact (hsplit ▸ h).settle (fun _ _ _ _ happly => quiet_of_applies hr happly) hlater

/-- After a run only links may be found. -/
theorem quiet_of_run (h : dialect.AppliesAll rules t s out after) : ∀ r ∈ rules, r ≠ link → r.Quiet out := by
  simp only [rules, List.forall_mem_cons]
  exact ⟨fun _ => quiet_of_later [] _ rfl emphasis_spared h, fun hne => absurd rfl hne,
    fun _ => quiet_of_later [emphasis, link] _ rfl image_spared h,
    fun _ => quiet_of_later [emphasis, link, image] _ rfl mail_spared h,
    fun _ => quiet_of_later [emphasis, link, image, mail] _ rfl mention_spared h,
    fun _ => quiet_of_later [emphasis, link, image, mail, mention] _ rfl hashtag_spared h,
    fun _ => quiet_of_later [emphasis, link, image, mail, mention, hashtag] [] rfl
      (fun q hq => absurd hq List.not_mem_nil) h,
    fun r hr => absurd hr List.not_mem_nil⟩

/-- Where no parenthesis can be hidden no link is found either. -/
theorem link_quiet_of_run (h : dialect.AppliesAll rules t s out after) (ht : Unhidden t) : link.Quiet out := by
  have hsplit : rules = ([emphasis] ++ [link]) ++ [image, mail, mention, hashtag, superscript] := rfl
  have hfirst : ∀ q ∈ [emphasis] ++ [link], q.Spares dialect Unhidden := by
    rw [List.forall_mem_append, List.forall_mem_singleton, List.forall_mem_singleton]
    have hsub : ∀ c ∈ "([^".toList, c ∈ "\n([^-|@#".toList ∧ c ∈ "\n([^|@#".toList := by decide
    exact ⟨spares_of_writes (by simp [rules]) emphasis_writes_tag fun _ _ h ht =>
        ht.replaceBy fun c hc _ => h.absent c (hsub c hc).1,
      spares_of_writes (by simp [rules]) link_writes_tag fun _ _ h ht => ht.replaceBy fun c hc => h.2 c (hsub c hc).2⟩
  rw [hsplit] at h
  obtain ⟨u, mid, hbegin, hlater⟩ := Grammar.appliesAll_append.1 h
  have hquiet : link.Quiet u :=
    hbegin.settle (fun _ _ _ _ happly => quiet_of_applies (by simp [rules]) happly) (by simp)
  exact (hlater.keep link_spared ⟨hquiet, hbegin.keep hfirst ht⟩).1

end

end Markup.Line
