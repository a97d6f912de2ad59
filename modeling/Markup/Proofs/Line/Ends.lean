import Markup.Dialect
import Markup.Proofs.Ends
import Markup.Proofs.Html
import Markup.Proofs.Line.Shape

/-! # The line stage comes to an end

The contents of emphasis and superscripts run the stage again, and hold fewer of the marks that open them. No rule of
the stage adds to the marks of lists and definitions, which bound the runs of the block stage. -/
namespace Markup.Line
open Pattern Grammar

/-- The characters that open contents of a line. -/
def depth : Weight := ⟨"*_^".toList.contains, []⟩

/-- The marks of lists and definitions. The names behind `@` and `#` make up for the colons of the addresses that
take their place. -/
def blockDepth : Weight where
  char c := c == '*' || c == ':'
  pairs := [(Char.isDigit, (· == '.')), ((· == '@'), fun c => isHandleChar c || c == '.' || c == '-'),
    ((· == '#'), isHandleChar)]

/-- The bounds within which a run stays. -/
structure Within (a b : Nat) (t : Text) : Prop where
  depth : Line.depth.of t ≤ a
  block : blockDepth.of t ≤ b

/-- What may take the place of a match within the bounds. -/
structure Fits (m : Match) (new : Text) : Prop where
  depth : Line.depth.Apart new ∧ Line.depth.of new ≤ Line.depth.of m.whole
  block : blockDepth.Apart new ∧ blockDepth.of new ≤ blockDepth.of m.whole

variable {a b : Nat} {m : Match} {new : Text}

theorem Fits.within (h : Fits m new) (ht : Within a b m.text) : Within a b (m.replaceBy new) where
  depth := by
    have := h.depth.1.of_replaceBy m
    have := h.depth.2
    have := ht.depth
    omega
  block := by
    have := h.block.1.of_replaceBy m
    have := h.block.2
    have := ht.block
    omega

theorem depth_token (n : Nat) : depth.Plain (Token.ofId n) := Weight.IgnoresTokens.plain (by decide) n

theorem blockDepth_token (n : Nat) : blockDepth.Plain (Token.ofId n) := Weight.IgnoresTokens.plain (by decide) n

theorem Fits.of_plain (hd : Line.depth.Plain new) (hb : blockDepth.Plain new) : Fits m new :=
  ⟨⟨hd.1, by simp [hd.2]⟩, ⟨hb.1, by simp [hb.2]⟩⟩

variable {name : String} {matcher : Matcher} {f : Match → Program (Option Text)}

theorem ends_of_fits (w : Weight) (round : ∀ t s found, Within a b t → matcher.find [] t = some found →
      found.text = t ∧ ∃ new mid, dialect.Evaluates (f found) s (some new) mid ∧
        (w.Apart new ∧ w.of new < w.of found.whole) ∧ Fits found new) :
    (Rule.pattern name matcher f).Ends dialect (Within a b) := by
  refine Rule.ends_of_weight w fun t s found ht hf => ?_
  obtain ⟨rfl, new, mid, he, hw, hfit⟩ := round t s found ht hf
  exact ⟨rfl, new, mid, he, hw, hfit.within ht⟩

theorem weights_of_marks : ∀ mark ∈ marks, 1 ≤ depth.of mark ∧ depth.PlainTag (emphasisTag mark) ∧
    blockDepth.PlainTag (emphasisTag mark) := by decide

theorem emphasis_ends (hrec : ∀ t s, depth.of t < a → ∃ out after, dialect.Runs .line t s out after) :
    emphasis.Ends dialect (Within a b) := by
  refine ends_of_fits depth fun t s found ht hf => ?_
  obtain ⟨rfl, -⟩ := emphasisScanner_lawful.search_hit hf
  obtain ⟨mark, hm, content, -, hw, hg⟩ := emphasis_shape hf
  obtain ⟨hmark, htag, htag'⟩ := weights_of_marks mark hm
  have hlt : depth.of content + 2 ≤ depth.of found.whole := by
    rw [hw, Weight.of_append, Weight.of_append]
    omega
  have hle : depth.of found.whole ≤ depth.of found.text := Weight.of_le_of_slice ⟨found.before, found.after, rfl⟩
  obtain ⟨inner, mid, hr⟩ := hrec content s (by have := ht.depth; omega)
  have hd := htag.plain (depth_token mid.size)
  have hb := htag'.plain (blockDepth_token mid.size)
  refine ⟨rfl, Html.element (emphasisTag mark) (Token.ofId mid.size), (mid.mint inner).2, ?_, ⟨hd.1, ?_⟩,
    .of_plain hd hb⟩
  · simp only [Match.group, hg]
    exact evaluates_rerun_bind.2 ⟨inner, mid, hr, evaluates_hide_bind.2 (evaluates_pure _ _)⟩
  · rw [hd.2]
    omega

theorem superscript_ends (hrec : ∀ t s, depth.of t < a → ∃ out after, dialect.Runs .line t s out after) :
    superscript.Ends dialect (Within a b) := by
  refine ends_of_fits depth fun t s found ht hf => ?_
  obtain ⟨rfl, -⟩ := takes_of_find hf
  obtain ⟨content, -, hw, hg⟩ := superscript_shape hf
  have hlt : depth.of content < depth.of found.whole := by
    have hc : depth.of "^".toList = 1 := by decide
    rw [hw, Weight.of_append, hc]
    omega
  have hle : depth.of found.whole ≤ depth.of found.text := Weight.of_le_of_slice ⟨found.before, found.after, rfl⟩
  obtain ⟨inner, mid, hr⟩ := hrec content s (by have := ht.depth; omega)
  have hd : depth.Plain (Html.element "sup" (Token.ofId mid.size)) :=
    Weight.PlainTag.plain (by decide) (depth_token mid.size)
  have hb : blockDepth.Plain (Html.element "sup" (Token.ofId mid.size)) :=
    Weight.PlainTag.plain (by decide) (blockDepth_token mid.size)
  refine ⟨rfl, Html.element "sup" (Token.ofId mid.size), (mid.mint inner).2, ?_, ⟨hd.1, ?_⟩, .of_plain hd hb⟩
  · simp only [Match.group, hg]
    exact evaluates_rerun_bind.2 ⟨inner, mid, hr, evaluates_hide_bind.2 (evaluates_pure _ _)⟩
  · rw [hd.2]
    omega

theorem depth_anchor : depth.PlainAnchor := by decide

theorem blockDepth_anchor : blockDepth.PlainAnchor := by decide

/-- An anchor fits when its address and its label weigh no more than the match. -/
theorem Fits.anchor {target label : Text} (hd : Line.depth.of target + Line.depth.of label ≤ Line.depth.of m.whole)
    (hb : blockDepth.of target + blockDepth.of label ≤ blockDepth.of m.whole) : Fits m (Html.anchor target label) where
  depth := ⟨depth_anchor.apart target label, (depth_anchor.of_anchor target label).trans_le hd⟩
  block := ⟨blockDepth_anchor.apart target label, (blockDepth_anchor.of_anchor target label).trans_le hb⟩

theorem link_ends : link.Ends dialect (Within a b) := by
  have dash : (Weight.count '-').PlainAnchor := by decide
  have token (n : Nat) : (Weight.count '-').Plain (Token.ofId n) := Weight.IgnoresTokens.plain (by decide) n
  have arrow : (Weight.count '-').of "->".toList = 1 := by decide
  refine ends_of_fits (.count '-') fun t s found ht hf => ?_
  obtain ⟨rfl, -⟩ := takes_of_find hf
  have hd := (depth_token s.size).2
  have hb := (blockDepth_token s.size).2
  have hk := (token s.size).2
  rcases link_shape hf with ⟨target, -, hw, hg⟩ | ⟨label, target, -, -, hw, hg⟩
  · refine ⟨rfl, Html.anchor (Token.ofId s.size) (Token.ofId s.size), (s.mint target).2, ?_, ⟨dash.apart _ _, ?_⟩,
      Fits.anchor (by omega) (by omega)⟩
    · simp only [Match.group, hg]
      exact evaluates_hide_bind.2 (evaluates_pure _ _)
    · rw [dash.of_anchor, hk, hw, Weight.of_append, arrow]
      omega
  · have hlabel : label <:+: found.whole := ⟨"->".toList, "(".toList ++ target ++ ")".toList, by rw [hw]; simp⟩
    have hd' : depth.of label ≤ depth.of found.whole := Weight.of_le_of_slice hlabel
    have hb' : blockDepth.of label ≤ blockDepth.of found.whole := Weight.of_le_of_slice hlabel
    refine ⟨rfl, Html.anchor (Token.ofId s.size) label, (s.mint target).2, ?_, ⟨dash.apart _ _, ?_⟩,
      Fits.anchor (by omega) (by omega)⟩
    · simp only [Match.group, hg]
      exact evaluates_hide_bind.2 (evaluates_pure _ _)
    · rw [dash.of_anchor, hk, hw, Weight.of_append, Weight.of_append, Weight.of_append, Weight.of_append, arrow]
      omega

theorem image_ends : image.Ends dialect (Within a b) := by
  have bracket : (Weight.count '[').PlainImage := by decide
  have deep : depth.PlainImage := by decide
  have block : blockDepth.PlainImage := by decide
  have token (n : Nat) : (Weight.count '[').Plain (Token.ofId n) := Weight.IgnoresTokens.plain (by decide) n
  refine ends_of_fits (.count '[') fun t s found ht hf => ?_
  obtain ⟨rfl, -⟩ := takes_of_find hf
  obtain ⟨first, tail, second, -, hw, hg⟩ := image_shape hf
  have hpos : 1 ≤ (Weight.count '[').of found.whole := by
    have := Weight.pos_of_char (w := .count '[') (c := '[') rfl [] ('[' :: first ++ tail)
    rw [hw]
    exact this
  have h₁ : found.group 1 = some first := by simp [Match.group, hg]
  have h₂ : found.group 2 = second := by simp [Match.group, hg]
  cases hs : second.filter (· ≠ []) with
  | none =>
    have hk := bracket.plain_unlabelled (token s.size)
    refine ⟨rfl, Html.image [("src", Token.ofId s.size), ("alt", [])], (s.mint first).2, ?_, ⟨hk.1, ?_⟩,
      .of_plain (deep.plain_unlabelled (depth_token _)) (block.plain_unlabelled (blockDepth_token _))⟩
    · simp only [h₁, h₂, hs]
      exact evaluates_hide_bind.2 (evaluates_pure _ _)
    · rw [hk.2]
      omega
  | some source =>
    have hk := bracket.plain (token (s.mint first).2.size) (token s.size)
    refine ⟨rfl, _, ((s.mint first).2.mint source).2, ?_, ⟨hk.1, ?_⟩,
      .of_plain (deep.plain (depth_token _) (depth_token _))
      (block.plain (blockDepth_token _) (blockDepth_token _))⟩
    · simp only [h₁, h₂, hs]
      exact evaluates_hide_bind.2 (evaluates_hide_bind.2 (evaluates_pure _ _))
    · rw [hk.2]
      omega

theorem mail_ends : mail.Ends dialect (Within a b) := by
  have sign : (Weight.count '@').PlainAnchor := by decide
  have token (n : Nat) : (Weight.count '@').Plain (Token.ofId n) := Weight.IgnoresTokens.plain (by decide) n
  have address : (Weight.count '@').of "mailto:".toList = 0 ∧ depth.of "mailto:".toList = 0 ∧
    blockDepth.of "mailto:".toList = 1 := by decide
  refine ends_of_fits (.count '@') fun t s found ht hf => ?_
  obtain ⟨rfl, -⟩ := takes_of_find hf
  obtain ⟨u, c, v, hc, hw⟩ := mail_shape hf
  have hsign : 1 ≤ (Weight.count '@').of found.whole := by
    rw [hw]
    exact Weight.pos_of_char rfl u _
  have hblock : 1 ≤ blockDepth.of found.whole := by
    rw [hw]
    exact Weight.pos_of_pair (by simp [blockDepth, Weight.pair, hc]) u v
  refine ⟨rfl, Html.anchor ("mailto:".toList ++ Token.ofId s.size) (Token.ofId s.size), (s.mint found.whole).2, ?_,
    ⟨sign.apart _ _, ?_⟩, Fits.anchor ?_ ?_⟩
  · exact evaluates_hide_bind.2 (evaluates_pure _ _)
  · rw [sign.of_anchor, (token _).of_append_right, (token _).2, address.1]
    omega
  · rw [(depth_token _).of_append_right, (depth_token _).2, address.2.1]
    omega
  · rw [(blockDepth_token _).of_append_right, (blockDepth_token _).2, address.2.2]
    omega

/-- The signs that stand right before a name. -/
def signed (c : Char) : Weight := ⟨fun _ => false, [((· == c), isHandleChar)]⟩

/-- A mention or a tag: an anchor takes the place of the sign and the name, and its label has the sign before a
token. -/
theorem handle_ends (sign : String) (c : Char) (before after : Text) (hsign : sign.toList = [c])
    (hf : ∀ m name, m.group 1 = some name → f m = do
      let token ← Program.hide name
      return some (Html.anchor (before ++ token ++ after) (c :: token)))
    (hs : (signed c).IgnoresTokens ∧ (signed c).PlainAnchor ∧ (signed c).of before + (signed c).of after = 0)
    (hd : depth.of before + depth.of after + depth.of [c] = 0)
    (hb : blockDepth.of before + blockDepth.of after + blockDepth.of [c] = 1)
    (hp : ∀ d, isHandleChar d = true → blockDepth.pair c d = true) :
    (Rule.pattern name (word sign ++ group 1 (atLeast 1 isHandleChar)).matcher f).Ends dialect (Within a b) := by
  refine ends_of_fits (signed c) fun t s found ht hfind => ?_
  obtain ⟨rfl, -⟩ := takes_of_find hfind
  obtain ⟨name, hne, hc, hw, hg⟩ := handle_shape hfind
  obtain ⟨d, rest, rfl⟩ := List.exists_cons_of_ne_nil hne
  have hname := hc d List.mem_cons_self
  rw [hsign] at hw
  have hwhole : 1 ≤ (signed c).of found.whole := by
    rw [hw]
    exact Weight.pos_of_pair (by simp [signed, Weight.pair, hname]) [] rest
  have hblock : 1 ≤ blockDepth.of found.whole := by
    rw [hw]
    exact Weight.pos_of_pair (hp d hname) [] rest
  have weight {w : Weight} (h : w.Plain (Token.ofId s.size)) :
      w.of (before ++ Token.ofId s.size ++ after) + w.of (c :: Token.ofId s.size) =
        w.of before + w.of after + w.of [c] := by
    have hl : w.of (c :: Token.ofId s.size) = w.of [c] := h.of_append_right [c]
    rw [h.1.of_sides, h.2, hl]
    omega
  have htoken := hs.1.plain s.size
  have hone : (signed c).of [c] = 0 := rfl
  refine ⟨rfl, Html.anchor (before ++ Token.ofId s.size ++ after) (c :: Token.ofId s.size), (s.mint (d :: rest)).2, ?_,
    ⟨hs.2.1.apart _ _, ?_⟩, Fits.anchor ?_ ?_⟩
  · rw [hf found (d :: rest) (by simp [Match.group, hg])]
    exact evaluates_hide_bind.2 (evaluates_pure _ _)
  · rw [hs.2.1.of_anchor, weight htoken]
    omega
  · rw [weight (depth_token _)]
    omega
  · rw [weight (blockDepth_token _)]
    omega

theorem mention_ends : mention.Ends dialect (Within a b) := by
  refine handle_ends "@" '@' "http://twitter.com/".toList [] rfl (fun m name h => ?_)
    (by decide) (by decide) (by decide) fun d hd => by simp [blockDepth, Weight.pair, hd]
  simp only [h, List.append_nil]

theorem hashtag_ends : hashtag.Ends dialect (Within a b) := by
  refine handle_ends "#" '#' "http://twitter.com/search?q=%23".toList "&src=hash".toList rfl
    (fun m name h => ?_) (by decide) (by decide) (by decide) fun d hd => by simp [blockDepth, Weight.pair, hd]
  simp only [h]

theorem rules_end (hrec : ∀ t s, depth.of t < a → ∃ out after, dialect.Runs .line t s out after) :
    ∀ r ∈ rules, r.Ends dialect (Within a b) := by
  simp only [rules, List.forall_mem_cons]
  exact ⟨emphasis_ends hrec, link_ends, image_ends, mail_ends, mention_ends, hashtag_ends, superscript_ends hrec,
    fun r hr => absurd hr List.not_mem_nil⟩

/-- The line stage comes to an end and adds no mark of a list or definition. -/
theorem ends (t : Text) (s : Store) :
    ∃ out after, dialect.Runs .line t s out after ∧ blockDepth.of out ≤ blockDepth.of t := by
  induction hn : depth.of t using Nat.strongRecOn generalizing t s with
  | ind n ih =>
    have hrec (u : Text) (s : Store) (hu : depth.of u < n) : ∃ out after, dialect.Runs .line u s out after := by
      obtain ⟨out, after, h, -⟩ := ih _ hu u s rfl
      exact ⟨out, after, h⟩
    obtain ⟨out, after, h, hout⟩ := appliesAll_of_ends (rules_end hrec) s ⟨hn.le, Nat.le_refl (blockDepth.of t)⟩
    exact ⟨out, after, runs_iff.2 h, hout.block⟩

end Markup.Line
