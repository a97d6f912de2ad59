import Markup.Proofs.Line.Rules
import Markup.Proofs.Rule.Tally

/-! # Line rules lose no content

A match is its groups with marks around them, and every group stands in what takes the place of the match. -/
namespace Markup.Line
open Pattern Program Script
variable {n : Nat} {b : Prop} {c : Char}

/-- Emphasis keeps what its match has, and brings in the signs of two tags. -/
theorem emphasis_leads (hc : isKept c = true) (hg : dialect.Preserves n c) {f : Match → Program (Option Text)}
    (ha : emphasis.action = .pattern emphasisMatcher f) {behind t : Text} {s : Store} {m : Match}
    (hf : emphasisMatcher.find behind t = some m) (hlike : m.Like s s m) :
    Leads dialect n (fun s' new => ∀ x, new = some x →
      Holds Solid s' c (s.tally c m.whole + "<></>".toList.count c) x) (f m) s := by
  have hmarks : ∀ mark ∈ marks, (∀ d ∈ mark, isMargin d = true) ∧ ';' ∉ (emphasisTag mark).toList := by decide
  obtain ⟨-, rfl⟩ := Action.pattern.inj ha
  obtain ⟨mark, hmark, content, hne, hw, hgs⟩ := emphasis_shape hf
  obtain ⟨hmargin, htag⟩ := hmarks mark hmark
  have h₁ : m.group 1 = some mark := by simp [Match.group, hgs]
  have h₂ : m.group 2 = some content := by simp [Match.group, hgs]
  have hsound : Sound s (mark ++ content ++ mark) := hw ▸ hlike.whole
  obtain ⟨hfront, hback⟩ := Sound.drop_back hc hmargin hsound
  obtain ⟨hcontent, hinner⟩ := Sound.drop_front hc hmargin hfront
  rw [hw, hback, hinner]
  simp only [h₁, h₂]
  refine leads_rerun hg (by decide) ((hcontent.holds c).filled hne) fun t s' _ h => ?_
  refine leads_hide h fun t s' _ h => leads_some ((h.clean.element_count htag).weaken ?_)
  have hsigns : "<></>".toList = ['<'] ++ ['>'] ++ "</".toList ++ ['>'] := rfl
  simp only [hsigns, Html.opening, Html.closing, ← List.singleton_append (x := '<') (l := (emphasisTag mark).toList),
    List.count_append]
  omega

theorem emphasis_preserves (hc : isKept c = true) (hg : dialect.Preserves n c) :
    emphasis.Preserves dialect n (Filled b) c := by
  have hp := progresses (r := emphasis) (by simp [rules]) rfl
  refine Rule.preserves_of_solid emphasisMatcher_twin hp fun s m hf hlike => ?_
  intro r mid he
  obtain ⟨hle, hr⟩ := emphasis_leads hc hg rfl hf hlike r mid he
  exact ⟨hle, fun x hx => (hr x hx).weaken (Nat.le_add_right _ _)⟩

theorem superscript_preserves (hc : isKept c = true) (hg : dialect.Preserves n c) :
    superscript.Preserves dialect n (Filled b) c := by
  have hp := progresses (r := superscript) (by simp [rules]) rfl
  refine Rule.preserves_of_solid (matcher_twin (by decide)) hp fun s m hf hlike => ?_
  obtain ⟨content, hne, hw, hgs⟩ := superscript_shape hf
  have h₁ : m.group 1 = some content := by simp [Match.group, hgs]
  obtain ⟨hcontent, htally⟩ := Sound.drop_front hc (by decide) (hw ▸ hlike.whole)
  rw [hw, htally]
  simp only [h₁]
  refine leads_rerun hg (by decide) ((hcontent.holds c).filled hne) fun t s' _ h => ?_
  exact leads_hide h fun t s' _ h => leads_some (h.clean.element (by decide))

/-- A link keeps what its match has, and brings in the letters of a tag. -/
theorem link_leads (hc : isKept c = true) {f : Match → Program (Option Text)}
    (ha : link.action = .pattern linkPattern.matcher f)
    {behind t : Text} {s : Store} {m : Match} (hf : linkPattern.matcher.find behind t = some m) (hlike : m.Like s s m) :
    Leads dialect n (fun s' new => ∀ x, new = some x →
      Holds Solid s' c (s.tally c m.whole + "<a href=\"".toList.count c) x) (f m) s := by
  obtain ⟨-, rfl⟩ := Action.pattern.inj ha
  rcases link_shape hf with ⟨target, hne, hw, hgs⟩ | ⟨label, target, -, hne, hw, hgs⟩
  · have h₁ : m.group 1 = some target := by simp [Match.group, hgs]
    have h₂ : m.group 2 = none := by simp [Match.group, hgs]
    obtain ⟨htarget, htally⟩ := Sound.drop_front hc (by decide) (hw ▸ hlike.whole)
    rw [hw, htally]
    simp only [h₁, h₂]
    refine leads_hide ((htarget.holds c).filled hne) fun t s' _ h => leads_some ?_
    exact (h.clean.anchor_count h.clean).weaken (by omega)
  · have h₂ : m.group 2 = some label := by simp [Match.group, hgs]
    have h₃ : m.group 3 = some target := by simp [Match.group, hgs]
    obtain ⟨hopen, hclose⟩ := Sound.drop_back hc (by decide) (hw ▸ hlike.whole)
    obtain ⟨hfront, htarget, hmid⟩ := Sound.cut hc (by decide) hopen (by decide)
    obtain ⟨hlabel, hsign⟩ := Sound.drop_front hc (by decide) hfront
    rw [hw, hclose, hmid, hsign]
    simp only [h₂, h₃]
    refine leads_hide ((htarget.holds c).filled hne) fun t s' hle h => leads_some ?_
    exact (h.clean.anchor_count ((hlabel.holds c).mono hle)).weaken (by omega)

theorem link_preserves (hc : isKept c = true) : link.Preserves dialect n (Filled b) c := by
  have hp := progresses (r := link) (by simp [rules]) rfl
  refine Rule.preserves_of_solid (matcher_twin (by decide)) hp fun s m hf hlike => ?_
  intro r mid he
  obtain ⟨hle, hr⟩ := link_leads hc rfl hf hlike r mid he
  exact ⟨hle, fun x hx => (hr x hx).weaken (Nat.le_add_right _ _)⟩

theorem image_preserves (hc : isKept c = true) : image.Preserves dialect n (Filled b) c := by
  have hp := progresses (r := image) (by simp [rules]) rfl
  refine Rule.preserves_of_solid (matcher_twin (by decide)) hp fun s m hf hlike => ?_
  obtain ⟨first, hne, ⟨hw, hgs⟩ | ⟨second, hw, hgs⟩⟩ := image_parts hf
  · have h₁ : m.group 1 = some first := by simp [Match.group, hgs]
    have h₂ : m.group 2 = none := by simp [Match.group, hgs]
    obtain ⟨hopen, hclose⟩ := Sound.drop_back hc (by decide) (hw ▸ hlike.whole)
    obtain ⟨hfirst, hsign⟩ := Sound.drop_front hc (by decide) hopen
    rw [hw, hclose, hsign]
    simp only [h₁, h₂, Option.filter_none]
    exact leads_hide ((hfirst.holds c).filled hne) fun t s' _ h => leads_some h.clean.image_unlabelled
  · have h₁ : m.group 1 = some first := by simp [Match.group, hgs]
    have h₂ : m.group 2 = some second := by simp [Match.group, hgs]
    obtain ⟨hopen, hclose⟩ := Sound.drop_back hc (by decide) (hw ▸ hlike.whole)
    obtain ⟨hfront, hsecond, hmid⟩ := Sound.cut hc (by decide) hopen (by decide)
    obtain ⟨hfirst, hsign⟩ := Sound.drop_front hc (by decide) hfront
    rw [hw, hclose, hmid, hsign]
    simp only [h₁, h₂]
    refine leads_hide ((hfirst.holds c).filled hne) fun t s' hle h => ?_
    by_cases hempty : second = []
    · have hnil : s.tally c second = 0 := by
        rw [hempty]
        exact Store.tally_of_not_mem List.not_mem_nil
      simp only [hempty, Option.filter, ne_eq, not_true_eq_false, decide_false, Bool.false_eq_true, if_false]
      exact leads_some (h.clean.image_unlabelled.weaken (by rw [← hempty]; omega))
    · simp only [Option.filter, ne_eq, hempty, not_false_eq_true, decide_true, if_true]
      refine leads_hide (((hsecond.holds c).mono hle).filled hempty) fun t' s'' hle' h' => leads_some ?_
      exact (h'.clean.image (h.mono_solid hle').clean).weaken (Nat.le_of_eq (Nat.add_comm _ _))

theorem mail_preserves : mail.Preserves dialect n (Filled b) c := by
  have hp := progresses (r := mail) (by simp [rules]) rfl
  refine Rule.preserves_of_solid (matcher_twin (by decide)) hp fun s m hf hlike => ?_
  obtain ⟨u, d, v, -, hw⟩ := mail_shape hf
  have hne : m.whole ≠ [] := by simp [hw]
  refine leads_hide ((Sound.holds hlike.whole c).filled hne) fun t s' _ h => leads_some ?_
  have target := (holds_of_not_mem (t := "mailto:".toList) (by decide)).between h
    (holds_of_not_mem (t := []) (by decide))
  rw [List.append_nil] at target
  exact (target.anchor h.clean).weaken (by omega)

theorem handle_preserves (hc : isKept c = true) {name sign : String} (d : Char) (before after : Text)
    {f : Match → Program (Option Text)}
    (hf : ∀ m name, m.group 1 = some name → f m = do
      let token ← Program.hide name
      return some (Html.anchor (before ++ token ++ after) (d :: token)))
    (hw : (word sign ++ group 1 (atLeast 1 isHandleChar)).whole = true)
    (hr : Rule.pattern name (word sign ++ group 1 (atLeast 1 isHandleChar)).matcher f ∈ rules)
    (hsign : ∀ d ∈ sign.toList, isMargin d = true) (hsemi : ';' ∉ before ∧ ';' ∉ after ∧ ';' ∉ [d]) :
    (Rule.pattern name (word sign ++ group 1 (atLeast 1 isHandleChar)).matcher f).Preserves dialect n (Filled b) c := by
  refine Rule.preserves_of_solid (matcher_twin hw) (progresses hr rfl) fun s m hfind hlike => ?_
  obtain ⟨name, hne, -, hwhole, hgs⟩ := handle_shape hfind
  have h₁ : m.group 1 = some name := by simp [Match.group, hgs]
  obtain ⟨hname, htally⟩ := Sound.drop_front hc hsign (hwhole ▸ hlike.whole)
  rw [hwhole, htally, hf m name h₁]
  refine leads_hide ((hname.holds c).filled hne) fun t s' _ h => leads_some ?_
  have target := (holds_of_not_mem hsemi.1).between h (holds_of_not_mem hsemi.2.1)
  have label := (holds_of_not_mem hsemi.2.2).between h (holds_of_not_mem (t := []) (by decide))
  rw [List.append_nil] at label
  exact (target.anchor label).weaken (by omega)

theorem mention_preserves (hc : isKept c = true) : mention.Preserves dialect n (Filled b) c := by
  refine handle_preserves hc '@' "http://twitter.com/".toList [] (fun m name h => ?_) (by decide) ?_ (by decide)
    (by decide)
  · simp only [h, List.append_nil]
  · exact List.mem_of_getElem? (i := 4) rfl

theorem hashtag_preserves (hc : isKept c = true) : hashtag.Preserves dialect n (Filled b) c := by
  refine handle_preserves hc '#' "http://twitter.com/search?q=%23".toList "&src=hash".toList (fun m name h => ?_)
    (by decide) ?_ (by decide) (by decide)
  · simp only [h]
  · exact List.mem_of_getElem? (i := 5) rfl

theorem rules_preserve (hc : isKept c = true) (hg : dialect.Preserves n c) :
    ∀ r ∈ rules, r.Preserves dialect n (Filled b) c := by
  simp only [rules, List.forall_mem_cons]
  exact ⟨emphasis_preserves hc hg, link_preserves hc, image_preserves hc, mail_preserves, mention_preserves hc,
    hashtag_preserves hc, superscript_preserves hc hg, fun r hr => absurd hr List.not_mem_nil⟩

end Markup.Line
