import Markup.Proofs.Dialect.Ends
import Markup.Proofs.Line.Twin
import Markup.Proofs.Rule.Twin

/-! # Line rules over texts that mean the same -/
namespace Markup.Line
open Pattern Program Script
variable {n : Nat} {b : Prop}

theorem progresses {r : Rule} (hr : r ∈ rules) {m : Matcher} {f : Match → Program (Option Text)}
    (ha : r.action = .pattern m f) : Rule.Progresses dialect m f :=
  dialect_progress (show r ∈ dialect.rules .line from hr) ha

theorem emphasisMatcher_twin : emphasisMatcher.Twin fun _ => True :=
  emphasisScanner_twin.matcher (fun _ _ _ => id) .never

theorem emphasis_tracks (hg : dialect.Twin n) : emphasis.Tracks dialect n (Filled b) := by
  have semi : ∀ mark ∈ marks, ';' ∉ mark ∧ ';' ∉ (emphasisTag mark).toList := by decide
  have hp := progresses (r := emphasis) (by simp [rules]) rfl
  refine Rule.tracks_of_solid emphasisMatcher_twin hp fun s₁ s₂ m₁ m₂ hf hlike => ?_
  obtain ⟨mark, hmark, content, hne, -, hgs⟩ := emphasis_shape hf
  have h₁ : m₁.group 1 = some mark := by simp [Match.group, hgs]
  have h₂ : m₁.group 2 = some content := by simp [Match.group, hgs]
  obtain ⟨mark', h₁', hsame⟩ := hlike.group_some h₁
  obtain ⟨content', h₂', hcontent⟩ := hlike.group_some h₂
  obtain rfl := hsame.eq_of_not_mem (semi mark hmark).1
  simp only [h₁, h₂, h₁', h₂']
  refine follows_rerun hg (by decide) (hcontent.filled hne) fun t u _ _ _ _ h => ?_
  exact follows_hide h fun t u _ _ _ _ h => follows_pure (.some (h.clean.element (semi mark hmark).2))

theorem superscript_tracks (hg : dialect.Twin n) : superscript.Tracks dialect n (Filled b) := by
  have hp := progresses (r := superscript) (by simp [rules]) rfl
  refine Rule.tracks_of_solid (matcher_twin (by decide)) hp fun s₁ s₂ m₁ m₂ hf hlike => ?_
  obtain ⟨content, hne, -, hgs⟩ := superscript_shape hf
  have h₁ : m₁.group 1 = some content := by simp [Match.group, hgs]
  obtain ⟨content', h₁', hcontent⟩ := hlike.group_some h₁
  simp only [h₁, h₁']
  refine follows_rerun hg (by decide) (hcontent.filled hne) fun t u _ _ _ _ h => ?_
  exact follows_hide h fun t u _ _ _ _ h => follows_pure (.some (h.clean.element (by decide)))

theorem link_tracks : link.Tracks dialect n (Filled b) := by
  have hp := progresses (r := link) (by simp [rules]) rfl
  refine Rule.tracks_of_solid (matcher_twin (by decide)) hp fun s₁ s₂ m₁ m₂ hf hlike => ?_
  rcases link_shape hf with ⟨target, hne, -, hgs⟩ | ⟨label, target, -, hne, -, hgs⟩
  · have h₁ : m₁.group 1 = some target := by simp [Match.group, hgs]
    have h₂ : m₁.group 2 = none := by simp [Match.group, hgs]
    obtain ⟨target', h₁', htarget⟩ := hlike.group_some h₁
    simp only [h₁, h₂, h₁', hlike.group_none h₂]
    exact follows_hide (htarget.filled hne) fun t u _ _ _ _ h => follows_pure (.some (h.clean.anchor h.clean))
  · have h₂ : m₁.group 2 = some label := by simp [Match.group, hgs]
    have h₃ : m₁.group 3 = some target := by simp [Match.group, hgs]
    obtain ⟨label', h₂', hlabel⟩ := hlike.group_some h₂
    obtain ⟨target', h₃', htarget⟩ := hlike.group_some h₃
    simp only [h₂, h₃, h₂', h₃']
    exact follows_hide (htarget.filled hne) fun t u _ _ hle₁ hle₂ h =>
      follows_pure (.some (h.clean.anchor (hlabel.mono hle₁ hle₂)))

theorem image_tracks : image.Tracks dialect n (Filled b) := by
  have hp := progresses (r := image) (by simp [rules]) rfl
  refine Rule.tracks_of_solid (matcher_twin (by decide)) hp fun s₁ s₂ m₁ m₂ hf hlike => ?_
  obtain ⟨first, tail, second, hne, -, hgs⟩ := image_shape hf
  have h₁ : m₁.group 1 = some first := by simp [Match.group, hgs]
  obtain ⟨first', h₁', hfirst⟩ := hlike.group_some h₁
  simp only [h₁, h₁']
  refine follows_hide (hfirst.filled hne) fun t u s₁' s₂' hle₁ hle₂ h => ?_
  have hrel : Option.Rel (Same (Filled True) s₁ s₂) ((m₁.group 2).filter (· ≠ [])) ((m₂.group 2).filter (· ≠ [])) := by
    have hsecond := hlike.group 2
    generalize m₁.group 2 = o₁, m₂.group 2 = o₂ at hsecond ⊢
    cases hsecond with
    | none => exact .none
    | @some x y hs =>
      by_cases hx : x = []
      · simp [Option.filter, hx, hs.eq_nil_iff.1 hx]
      · simpa [Option.filter, hx, hs.eq_nil_iff.not.1 hx] using hs.filled hx
  generalize (m₁.group 2).filter (· ≠ []) = o₁, (m₂.group 2).filter (· ≠ []) = o₂ at hrel ⊢
  cases hrel with
  | none => exact follows_pure (.some h.clean.image_unlabelled)
  | some hs =>
    exact follows_hide (hs.mono hle₁ hle₂) fun t' u' _ _ hle₁' hle₂' h' =>
      follows_pure (.some (h'.clean.image (h.mono hle₁' hle₂').clean))

theorem mail_tracks : mail.Tracks dialect n (Filled b) := by
  have hp := progresses (r := mail) (by simp [rules]) rfl
  refine Rule.tracks_of_solid (matcher_twin (by decide)) hp fun s₁ s₂ m₁ m₂ hf hlike => ?_
  obtain ⟨u, c, v, -, hw⟩ := mail_shape hf
  have hne : m₁.whole ≠ [] := by simp [hw]
  refine follows_hide (hlike.whole.filled hne) fun t u _ _ _ _ h => follows_pure (.some ?_)
  have target := (same_of_not_mem (t := "mailto:".toList) (by decide)).between h (same_of_not_mem (t := []) (by decide))
  rw [List.append_nil, List.append_nil] at target
  exact target.anchor h.clean

/-- A mention or a tag: the name is hidden, and stands behind a sign in the label. -/
theorem handle_tracks {name sign : String} (c : Char) (before after : Text) {f : Match → Program (Option Text)}
    (hf : ∀ m name, m.group 1 = some name → f m = do
      let token ← Program.hide name
      return some (Html.anchor (before ++ token ++ after) (c :: token)))
    (hw : (word sign ++ group 1 (atLeast 1 isHandleChar)).whole = true)
    (hr : Rule.pattern name (word sign ++ group 1 (atLeast 1 isHandleChar)).matcher f ∈ rules)
    (hsemi : ';' ∉ before ∧ ';' ∉ after ∧ ';' ∉ [c]) :
    (Rule.pattern name (word sign ++ group 1 (atLeast 1 isHandleChar)).matcher f).Tracks dialect n (Filled b) := by
  refine Rule.tracks_of_solid (matcher_twin hw) (progresses hr rfl) fun s₁ s₂ m₁ m₂ hfind hlike => ?_
  obtain ⟨name, hne, -, -, hgs⟩ := handle_shape hfind
  have h₁ : m₁.group 1 = some name := by simp [Match.group, hgs]
  obtain ⟨name', h₁', hname⟩ := hlike.group_some h₁
  rw [hf m₁ name h₁, hf m₂ name' h₁']
  refine follows_hide (hname.filled hne) fun t u _ _ _ _ h => follows_pure (.some ?_)
  have target := (same_of_not_mem hsemi.1).between h (same_of_not_mem hsemi.2.1)
  have label := (same_of_not_mem hsemi.2.2).between h (same_of_not_mem (t := []) (by decide))
  rw [List.append_nil, List.append_nil] at label
  exact target.anchor label

theorem mention_tracks : mention.Tracks dialect n (Filled b) := by
  refine handle_tracks '@' "http://twitter.com/".toList [] (fun m name h => ?_) (by decide) ?_ (by decide)
  · simp only [h, List.append_nil]
  · exact List.mem_of_getElem? (i := 4) rfl

theorem hashtag_tracks : hashtag.Tracks dialect n (Filled b) := by
  refine handle_tracks '#' "http://twitter.com/search?q=%23".toList "&src=hash".toList (fun m name h => ?_)
    (by decide) ?_
    (by decide)
  · simp only [h]
  · exact List.mem_of_getElem? (i := 5) rfl

theorem rules_track (hg : dialect.Twin n) : ∀ r ∈ rules, r.Tracks dialect n (Filled b) := by
  simp only [rules, List.forall_mem_cons]
  exact ⟨emphasis_tracks hg, link_tracks, image_tracks, mail_tracks, mention_tracks, hashtag_tracks,
    superscript_tracks hg,
    fun r hr => absurd hr List.not_mem_nil⟩

end Markup.Line
