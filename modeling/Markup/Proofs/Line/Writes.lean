import Markup.Proofs.Line.Ends
import Markup.Proofs.Line.Quiet
import Markup.Proofs.Pattern.Complete
import Markup.Proofs.Rule.Writes
import Markup.Proofs.Script.Clean

/-! # What the line rules write

Anchors, images and elements around tokens. Only the anchor of a labelled link leaves a captured text in the open, so it
is the only one in which its rule may find another match. -/
namespace Markup.Line
open Pattern Program
variable {behind t : Text} {m : Match}

theorem emphasis_clears : emphasis.Clears dialect := by
  refine Rule.clears_of_weight depth (Matcher.lawful_ofScanner emphasisScanner_lawful _) fun behind ahead found hf => ?_
  obtain ⟨mark, hm, content, -, hw, hg⟩ := emphasis_shape hf
  obtain ⟨hmark, htag, -⟩ := weights_of_marks mark hm
  have h₁ : found.group 1 = some mark := by simp [Match.group, hg]
  have h₂ : found.group 2 = some content := by simp [Match.group, hg]
  refine ⟨?_, ?_⟩
  · rw [hw, Weight.of_append, Weight.of_append]
    omega
  · simp only [h₁, h₂]
    exact writes_rerun fun _ _ _ _ => writes_hide fun n => writes_pure (htag.plain (depth_token n)).2

theorem superscript_clears : superscript.Clears dialect := by
  refine Rule.clears_of_mem '^' (matcher_lawful _) fun behind ahead found hf => ?_
  obtain ⟨content, -, hw, hg⟩ := superscript_shape hf
  have h₁ : found.group 1 = some content := by simp [Match.group, hg]
  have htoken (n : Nat) : '^' ∉ Token.ofId n := Token.not_mem_ofId (by decide) n
  simp only [h₁]
  refine ⟨by simp [hw], writes_rerun fun _ _ _ _ => writes_hide fun n => writes_pure ?_⟩
  simp [Html.element, htoken]

theorem image_clears : image.Clears dialect := by
  have htoken (n : Nat) : '[' ∉ Token.ofId n := Token.not_mem_ofId (by decide) n
  refine Rule.clears_of_mem '[' (matcher_lawful _) fun behind ahead found hf => ?_
  obtain ⟨first, tail, second, -, hw, hg⟩ := image_shape hf
  have h₁ : found.group 1 = some first := by simp [Match.group, hg]
  simp only [h₁]
  refine ⟨by simp [hw], writes_hide fun n => ?_⟩
  cases (found.group 2).filter (· ≠ []) with
  | none => exact writes_pure (by simp [Html.image_unlabelled_eq, htoken])
  | some source => exact writes_hide fun k => writes_pure (by simp [Html.image_eq, htoken])

theorem mail_clears : mail.Clears dialect := by
  have htoken (n : Nat) : '@' ∉ Token.ofId n := Token.not_mem_ofId (by decide) n
  refine Rule.clears_of_mem '@' (matcher_lawful _) fun behind ahead found hf => ?_
  obtain ⟨u, c, v, -, hw⟩ := mail_shape hf
  exact ⟨by simp [hw], writes_hide fun n => writes_pure (by simp [Html.anchor_eq, htoken])⟩

/-- A sign stands before a token in the anchor, and names do not begin like tokens. -/
theorem handle_clears {name sign : String} {c : Char} (before after : Text) {f : Match → Program (Option Text)}
    (hsign : sign.toList = [c])
    (hf : ∀ m name, m.group 1 = some name → f m = do
      let token ← Program.hide name
      return some (Html.anchor (before ++ token ++ after) (c :: token)))
    (hs : (signed c).IgnoresTokens ∧ (signed c).PlainAnchor ∧ (signed c).of before + (signed c).of after = 0) :
    (Rule.pattern name (word sign ++ group 1 (atLeast 1 isHandleChar)).matcher f).Clears dialect := by
  refine Rule.clears_of_weight (signed c) (matcher_lawful _) fun behind ahead found hfind => ?_
  obtain ⟨name, hne, hc, hw, hg⟩ := handle_shape hfind
  obtain ⟨d, rest, rfl⟩ := List.exists_cons_of_ne_nil hne
  have h₁ : found.group 1 = some (d :: rest) := by simp [Match.group, hg]
  refine ⟨?_, ?_⟩
  · rw [hw, hsign]
    exact Weight.pos_of_pair (by simp [signed, Weight.pair, hc d List.mem_cons_self]) [] rest
  · rw [hf found _ h₁]
    refine writes_hide fun n => writes_pure ?_
    have htoken := hs.1.plain n
    have hlabel : (signed c).of (c :: Token.ofId n) = (signed c).of [c] := htoken.of_append_right [c]
    have hone : (signed c).of [c] = 0 := rfl
    rw [hs.2.1.of_anchor, htoken.1.of_sides, htoken.2, hlabel]
    omega

theorem mention_clears : mention.Clears dialect := by
  refine handle_clears (c := '@') "http://twitter.com/".toList [] rfl (fun m name h => ?_) (by decide)
  simp only [h, List.append_nil]

theorem hashtag_clears : hashtag.Clears dialect := by
  refine handle_clears (c := '#') "http://twitter.com/search?q=%23".toList "&src=hash".toList rfl (fun m name h => ?_)
    (by decide)
  simp only [h]

theorem parenthesis_not_mem_label (h : linkPattern.matcher.find behind t = some m) {label : Text}
    (hl : m.group 2 = some label) : '(' ∉ label := by
  obtain ⟨caps, ht, hg⟩ := takes_of_match h
  rcases link_takes_cases ht with ⟨target, -, -, -, rfl⟩ | ⟨label', target, -, -, hall, -, -, rfl⟩
  · have hg : m.groups = [some target, none, none] := hg
    simp [Match.group, hg] at hl
  · have hg : m.groups = [none, some label', some target] := hg
    obtain rfl : label' = label := by simpa [Match.group, hg] using hl
    exact fun hmem => by simpa using hall '(' hmem

theorem anchor_ofId_eq (n : Nat) (label : Text) : Html.anchor (Token.ofId n) label =
    ("<a href=\"".toList ++ Token.ofId n) ++ '"' :: ('>' :: label ++ '<' :: "/a>".toList) := by
  rw [Html.anchor_eq]
  simp

/-- No link stands across the ends of a label. -/
theorem infix_label {n : Nat} {label w : Text} (hw : w <:+: Html.anchor (Token.ofId n) label)
    (hdash : w.head? = some '-')
    (hquote : '"' ∉ w) (hlt : '<' ∉ w) : w <:+: label := by
  have hmem : '-' ∈ w := List.mem_of_head? hdash
  have hopening : '-' ∉ "<a href=\"".toList ++ Token.ofId n := by
    rw [List.mem_append, not_or]
    exact ⟨by decide, Token.not_mem_ofId (by decide) n⟩
  rw [anchor_ofId_eq] at hw
  rcases List.infix_of_not_mem hquote hw with h | h
  · exact absurd (h.subset hmem) hopening
  rcases List.infix_of_not_mem hlt h with h | h
  · rcases List.infix_cons_iff.1 h with ⟨rest, h⟩ | h
    · rw [List.head?_eq_some_iff] at hdash
      obtain ⟨w, rfl⟩ := hdash
      exact absurd (List.cons.inj h).1 (by decide)
    · exact h
  · exact absurd (h.subset hmem) (by decide)

/-- A bare address needs nothing but its own text, and a label and its address need a parenthesis. -/
theorem link_takes {prev : Option Char} {u rest : Text} {caps : List (Nat × Text)}
    (h : linkPattern.Takes prev u rest caps) : u.head? = some '-' ∧ ('(' ∈ u ∨ '"' ∉ u ∧ '<' ∉ u) := by
  rcases link_takes_cases h with ⟨target, rfl, -, hall, -⟩ | ⟨label, target, rfl, -⟩
  · have hsigns : '"' ∉ target ∧ '<' ∉ target :=
      ⟨fun hmem => absurd (hall _ hmem) (by decide), fun hmem => absurd (hall _ hmem) (by decide)⟩
    exact ⟨rfl, .inr (by simpa using hsigns)⟩
  · exact ⟨rfl, .inl (by simp)⟩

theorem link_quiet_anchor_iff {label : Text} (hl : '(' ∉ label) (n : Nat) :
    link.Quiet (Html.anchor (Token.ofId n) label) ↔ link.Quiet label := by
  have hfind {v u rest : Text} {prev : Option Char} {r : Text} {caps : List (Nat × Text)}
      (h : linkPattern.Takes prev u r caps) : linkPattern.matcher.find [] (v ++ (u ++ rest)) ≠ none :=
    find_ne_none rfl (takes_anywhere rfl h _ _)
  rw [link, Rule.quiet_pattern_iff, Rule.quiet_pattern_iff, ← not_iff_not]
  constructor
  · intro h
    obtain ⟨found, hf⟩ := Option.ne_none_iff_exists'.1 h
    obtain ⟨htext, caps, ht, -⟩ := takes_of_find hf
    obtain ⟨hdash, hparen | ⟨hquote, hlt⟩⟩ := link_takes ht
    · have hnot : '(' ∉ Html.anchor (Token.ofId n) label := by
        rw [anchor_ofId_eq]
        simp [hl, Token.not_mem_ofId (show '(' ∉ Token.alphabet by decide) n]
      exact absurd (htext ▸ List.mem_append_left _ (List.mem_append_right _ hparen)) hnot
    · obtain ⟨x, z, rfl⟩ := infix_label ⟨found.before, found.after, htext⟩ hdash hquote hlt
      rw [List.append_assoc]
      exact hfind ht
  · intro h
    obtain ⟨found, hf⟩ := Option.ne_none_iff_exists'.1 h
    obtain ⟨rfl, caps, ht, -⟩ := takes_of_find hf
    have hsplit : Html.anchor (Token.ofId n) found.text = ("<a href=\"".toList ++ Token.ofId n ++ "\">".toList ++
        found.before) ++ (found.whole ++ (found.after ++ "</a>".toList)) := by
      rw [Html.anchor_eq, Match.text]
      simp
    rw [hsplit]
    exact hfind ht

/-- The anchor holds a link again exactly when it has a label that holds one. -/
theorem link_writes : link.Writes dialect fun found new =>
    new ≠ found.whole ∧ (link.Quiet new ↔ ∀ label, found.group 2 = some label → link.Quiet label) := by
  refine Rule.writes_pattern fun behind ahead found hf => ?_
  obtain ⟨caps, ht, -⟩ := takes_of_match hf
  have hdash := (link_takes ht).1
  have hne (target label : Text) : Html.anchor target label ≠ found.whole := fun h => by
    rw [← h] at hdash
    exact absurd hdash (by simp [Html.anchor])
  rcases link_shape hf with ⟨target, -, -, hg⟩ | ⟨label, target, -, -, -, hg⟩
  · have h₁ : found.group 1 = some target := by simp [Match.group, hg]
    have h₂ : found.group 2 = none := by simp [Match.group, hg]
    simp only [h₁, h₂]
    refine writes_hide fun n => writes_pure ⟨hne _ _, ?_⟩
    have hquiet : link.Quiet (Html.anchor (Token.ofId n) (Token.ofId n)) :=
      (link_quiet_anchor_iff (Token.not_mem_ofId (by decide) n) n).2 (link_quiet (Token.not_mem_ofId (by decide) n))
    exact iff_of_true hquiet (by simp)
  · have h₂ : found.group 2 = some label := by simp [Match.group, hg]
    have h₃ : found.group 3 = some target := by simp [Match.group, hg]
    have hlabel := parenthesis_not_mem_label hf h₂
    simp only [h₂, h₃]
    refine writes_hide fun n => writes_pure ⟨hne _ _, ?_⟩
    simpa using link_quiet_anchor_iff hlabel n

end Markup.Line
