import Markup.Proofs.Block.OneLine
import Markup.Proofs.Document.Quiet
import Markup.Proofs.Line.Spares
import Markup.Proofs.Seam.Front
import Markup.Proofs.Token.Shield

/-! # Tokens that are typed

A text may be typed that reads as a token. No rule sees its number, so the conversion goes the same way whatever the
number is, and mints the same tokens; in the end the number is read as that of a token if one of them has it, and is
left as it stands if none of them has it. -/
namespace Markup
open Grammar Pattern
variable {n : Nat} {w t : Text} {s : Store}

namespace Rule
variable {name : String} {p : Pattern} {f : Match → Program (Option Text)} {front : Text} {c : Char}

/-- A rule whose matches begin with a sign overlooks what has not got the sign. -/
theorem overlooks_of_headed (hp : Progresses dialect p.matcher f) (hn : Narrow f) (hhead : p.headed c = true)
    (hblank : c ≠ ' ') (hfront : c ∉ front) : (pattern name p.matcher f).Overlooks dialect front := by
  rw [matcher_eq] at hp ⊢
  refine ⟨name, p.scanner, _, f, rfl, hp, hn, Scanner.overlooks_of_head [c] (fun prev t ht => ?_)
    (by simpa using hblank.symm) (by simpa using hfront)⟩
  obtain ⟨hit, hhit⟩ := Option.ne_none_iff_exists'.1 ht
  obtain ⟨rfl, caps, htakes, -⟩ := takes_of_scanner hhit
  exact ⟨c, List.mem_singleton_self c, by rw [List.head?_append, head?_of_takes hhead htakes, Option.some_or]⟩

end Rule

namespace Line

theorem emphasis_overlooks_ofId (n : Nat) : emphasis.Overlooks dialect (Token.ofId n) := by
  refine ⟨_, emphasisScanner, .never, _, rfl, progresses (r := emphasis) (by simp [rules]) rfl, fun _ _ _ => rfl,
    Scanner.overlooks_of_head "_*".toList (fun prev t ht => ?_) (by decide) fun c hc => ?_⟩
  · unfold emphasisScanner at ht
    split at ht
    · exact ⟨'_', by decide, rfl⟩
    · exact ⟨'*', by decide, rfl⟩
    · exact absurd rfl ht
  · revert c
    exact List.forall_mem_cons.2 ⟨Token.not_mem_ofId (by decide) n,
      List.forall_mem_singleton.2 (Token.not_mem_ofId (by decide) n)⟩

/-- A mail address has a sign that no token has, and has no blank. -/
theorem mail_overlooks_ofId (n : Nat) : mail.Overlooks dialect (Token.ofId n) := by
  have hp := progresses (r := mail) (by simp [rules]) rfl
  rw [matcher_eq] at hp
  refine ⟨_, mailPattern.scanner, _, _, by rw [mail, matcher_eq], hp, fun _ _ _ => rfl, fun u v prev rest hfront => ?_⟩
  by_contra hne
  obtain ⟨hit, hhit⟩ := Option.ne_none_iff_exists'.1 hne
  obtain ⟨hsplit, caps, htakes, -⟩ := takes_of_scanner hhit
  obtain ⟨hmail, -⟩ := mail_takes_iff.1 ⟨caps, htakes⟩
  have hsign : '@' ∈ hit.whole := by
    obtain ⟨user, host, domain, hw, -⟩ := hmail
    simp [hw]
  have hblank : ' ' ∉ hit.whole := fun h => absurd (hmail.forall ' ' h) (by decide)
  rcases List.append_eq_append_iff.1 hsplit with ⟨x, hw, hx⟩ | ⟨x, rfl, -⟩
  · cases x with
    | nil =>
      rw [hw, List.append_nil] at hsign
      exact Token.not_mem_ofId (by decide) n (hfront ▸ List.mem_append_right u hsign)
    | cons c x =>
      obtain rfl : ' ' = c := (List.cons.inj hx).1
      exact hblank (by simp [hw])
  · exact Token.not_mem_ofId (by decide) n (hfront ▸ List.mem_append_right u (List.mem_append_left x hsign))

theorem rules_overlook_ofId (n : Nat) : ∀ r ∈ rules, r.Overlooks dialect (Token.ofId n) := by
  have hsign {name : String} {p : Pattern} {f : Match → Program (Option Text)} {c : Char}
      (hr : .pattern name p.matcher f ∈ rules) (hn : Rule.Narrow f) (hhead : p.headed c = true)
      (hc : c ≠ ' ' ∧ c ∉ Token.alphabet) : (Rule.pattern name p.matcher f).Overlooks dialect (Token.ofId n) :=
    Rule.overlooks_of_headed (progresses hr rfl) hn hhead hc.1 (Token.not_mem_ofId hc.2 n)
  simp only [rules, List.forall_mem_cons]
  exact ⟨emphasis_overlooks_ofId n,
    hsign (c := '-') (by simp [rules, link]) (fun _ _ _ => rfl) (by decide) (by decide),
    hsign (c := '[') (by simp [rules, image]) (fun _ _ _ => rfl) (by decide) (by decide), mail_overlooks_ofId n,
    hsign (c := '@') (by simp [rules, mention]) (fun _ _ _ => rfl) (by decide) (by decide),
    hsign (c := '#') (by simp [rules, hashtag]) (fun _ _ _ => rfl) (by decide) (by decide),
    hsign (c := '^') (by simp [rules, superscript]) (fun _ _ _ => rfl) (by decide) (by decide),
    fun r hr => absurd hr List.not_mem_nil⟩

end Line

namespace Document

theorem escape_overlooks_ofId (n : Nat) : escape.Overlooks dialect (Token.ofId n) :=
  Rule.overlooks_of_headed (c := '\\') (progresses (r := escape) (by simp [rules]) rfl) (fun _ _ _ => rfl) (by decide)
    (by decide) (Token.not_mem_ofId (by decide) n)

theorem escape_spares_line : escape.Spares dialect fun t => '\n' ∉ t := by
  have hwrites : escape.Writes dialect fun _ new => '\n' ∉ new := Rule.writes_pattern fun behind ahead found hf => by
    obtain ⟨c, -, h₁⟩ := escape_shape hf
    simp only [h₁]
    exact Block.writes_token (by decide)
  exact Rule.spares_of_keeps (progresses (r := escape) (by simp [rules]) rfl) rfl
    (hwrites.keeps rfl (matcher_lawful _) fun _ _ hnew ht => Line.not_mem_replaceBy ht fun _ => hnew)

end Document

theorem Block.quiet_behind_ofId (hline : '\n' ∉ Token.ofId n ++ t) :
    ∀ r ∈ Block.rules, r.Quiet (Token.ofId n ++ t) := by
  have hrules : Block.rules = Block.marked ++ [Block.paragraph] := rfl
  have hhead : (Token.ofId n ++ t).head? = some ';' := rfl
  have hmarks : ∀ c ∈ "#|*".toList, (Token.ofId n ++ t).head? ≠ some c := by
    rw [hhead]
    decide
  have hdash : ∃ c ∈ Token.ofId n ++ t, c ≠ '-' := ⟨';', List.mem_of_mem_head? hhead, by decide⟩
  have hprose : Block.isProse (Token.ofId n ++ t) = false := by
    rw [Block.isProse, Token.leads_ofId, Bool.not_true, Bool.and_false]
  have hparagraph := Block.find_eq_none (List.forall_mem_singleton.2 hline) (List.forall_mem_singleton.2 hprose)
  rw [Text.joinLines_singleton] at hparagraph
  rw [hrules, List.forall_mem_append, List.forall_mem_singleton]
  exact ⟨Block.marked_quiet_of_line hline hmarks hdash, Rule.quiet_pattern_iff.2 hparagraph⟩

/-- Up to the last step the conversion goes the same way whatever number is typed. -/
theorem Document.unresolved_behind_ofId (hline : '\n' ∉ w) (hlast : w.getLast?.any (!isSpace ·) = true) :
    ∃ more s, ∀ n, dialect.AppliesAll unresolved (Token.ofId n ++ ' ' :: w) .empty (Token.ofId n ++ ' ' :: more) s := by
  obtain ⟨u, s₁, hescape, -⟩ := escape_ends.run (' ' :: w) .empty trivial
  obtain ⟨v, s₂, hlines⟩ := dialect_ends .line u s₁
  have hlines := runs_iff.1 hlines
  obtain ⟨u, rfl, -⟩ := (escape_overlooks_ofId 0).applies hescape
  obtain ⟨more, rfl, -⟩ := hlines.behind (Line.rules_overlook_ofId 0)
  refine ⟨more, s₂, fun n => ?_⟩
  obtain ⟨_, ⟨⟩, hescape⟩ := (escape_overlooks_ofId n).applies hescape
  obtain ⟨_, ⟨⟩, hlines⟩ := hlines.behind (Line.rules_overlook_ofId n)
  have hbreak : '\n' ∉ Token.ofId n ++ ' ' :: w := by
    simpa [hline] using Token.not_mem_ofId (c := '\n') (by decide) n
  have hbreak' := hlines.keep Line.rules_spare_line (escape_spares_line _ _ _ _ hbreak hescape)
  have hblocks : dialect.Runs .block (Token.ofId n ++ ' ' :: more) s₂ _ s₂ :=
    runs_iff.2 (appliesAll_quiet (Block.quiet_behind_ofId hbreak') s₂)
  have hends : (Token.ofId n ++ ' ' :: w).getLast?.all (!isSpace ·) = true := by
    obtain ⟨c, hc, hspace⟩ := (Option.any_eq_true _ _).1 hlast
    simp [List.getLast?_cons, hc, hspace]
  have hkeep (x y : Text) : Token.ofId n ++ x = if Token.ofId n ++ x = [] then y else Token.ofId n ++ x :=
    (if_neg (List.append_ne_nil_of_left_ne_nil (Token.ofId_ne_nil n) x)).symm
  have hstages :
      dialect.AppliesAll [.stage "inline" .line, .stage "blocks" .block] _ s₁ (Token.ofId n ++ ' ' :: more) s₂ :=
    appliesAll_cons.2 ⟨_, s₂, applies_stage.2 ⟨_, runs_iff.2 hlines, hkeep _ _⟩,
      appliesAll_cons.2 ⟨_, s₂, applies_stage.2 ⟨_, hblocks, hkeep _ _⟩, appliesAll_nil⟩⟩
  exact appliesAll_cons.2 ⟨_, _, applies_trailingSpace_of_line hbreak hends .empty,
    appliesAll_cons.2 ⟨_, _, (code_quiet_of_line hbreak).applies _, appliesAll_cons.2 ⟨_, s₁, hescape, hstages⟩⟩⟩

theorem Store.detokenize_behind_ofId (s : Store) (n : Nat) (t : Text) :
    s.detokenize (Token.ofId n ++ ' ' :: t) = s.detokenize (Token.ofId n) ++ ' ' :: s.detokenize t := by
  have hblank : s.resolve s.size (' ' :: t) = ' ' :: s.resolve s.size t := by
    rw [resolve, Token.pieces_cons (by rfl), List.flatMap_cons, ← resolve]
    rfl
  rw [detokenize, detokenize, detokenize, resolve_ofId_append, resolve_ofId, hblank]

theorem Store.detokenize_ofId_of_le (h : s.size ≤ n) : s.detokenize (Token.ofId n) = Token.ofId n := by
  rw [detokenize, resolve_ofId, resolveId, if_neg (by omega)]

/-- Whatever number is typed in a token at the beginning of a line, the conversion mints the same tokens and comes to
the same text behind it. A number that none of the minted tokens has is left as it stands; one that a minted token has
is taken for that token. -/
theorem typed_token_is_kept_unless_minted (hline : '\n' ∉ w) (hlast : w.getLast?.any (!isSpace ·) = true) :
    ∃ more s, ∀ n,
      dialect.Runs .document (Token.ofId n ++ ' ' :: w) .empty (s.detokenize (Token.ofId n) ++ ' ' :: more) s ∧
      (s.size ≤ n → dialect.Converts (Token.ofId n ++ ' ' :: w) (Token.ofId n ++ ' ' :: more)) := by
  obtain ⟨more, s, h⟩ := Document.unresolved_behind_ofId hline hlast
  have hrun (n : Nat) : dialect.Runs .document (Token.ofId n ++ ' ' :: w) .empty
      (s.detokenize (Token.ofId n) ++ ' ' :: s.detokenize more) s := by
    have hrules : dialect.rules .document = Document.rules := rfl
    have hreveal := s.detokenize_behind_ofId n more
    refine runs_iff.2 ?_
    rw [hrules, Document.rules_eq, appliesAll_append]
    refine ⟨_, s, h n, appliesAll_cons.2 ⟨_, s, Document.applies_reveal.2 ⟨rfl, ?_⟩, appliesAll_nil⟩⟩
    rw [hreveal, if_neg (by simp)]
  refine ⟨s.detokenize more, s, fun n => ⟨hrun n, fun hn => converts_iff.2 ⟨s, ?_⟩⟩⟩
  have hkept := hrun n
  rwa [Store.detokenize_ofId_of_le hn] at hkept

theorem typed_token_is_kept_unless_minted_of_emphasis :
    ('\n' ∉ "*a*".toList ∧ "*a*".toList.getLast?.any (!isSpace ·) = true) ∧
    ∃ more s, ∀ n,
      dialect.Runs .document (Token.ofId n ++ ' ' :: "*a*".toList) .empty
      (s.detokenize (Token.ofId n) ++ ' ' :: more) s ∧
      (s.size ≤ n → dialect.Converts (Token.ofId n ++ ' ' :: "*a*".toList) (Token.ofId n ++ ' ' :: more)) :=
  ⟨by decide, typed_token_is_kept_unless_minted (by decide) (by decide)⟩

/-- The token of the emphasis has the number that was typed. -/
theorem typed_token_may_be_minted :
    (¬ Token.marker <:+: "*a*".toList ∧ '\n' ∉ "*a*".toList ∧ "*a*".toList.getLast?.any (!isSpace ·) = true) ∧
    dialect.Converts (Token.ofId 0 ++ ' ' :: "*a*".toList) "a <em>a</em>".toList ∧
    ¬ Token.ofId 0 <+: "a <em>a</em>".toList :=
  ⟨by decide, ⟨12, by decide +kernel⟩, by decide +kernel⟩

end Markup
