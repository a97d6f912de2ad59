import Markup.Proofs.Block.Tally
import Markup.Proofs.Dialect.Twin
import Markup.Proofs.Document.Rules
import Markup.Proofs.Line.Tally
import Markup.Proofs.Listing.Tally
import Markup.Proofs.Rule.Tally
import Markup.Proofs.Table.Tally

/-! # Conversions lose no content

Letters, and whatever else is neither white space nor a digit nor ASCII punctuation, are in the result at least as often
as in the document. -/
namespace Markup.Document
open Pattern Program Script
variable {s : Store} {c : Char} {v : Text} {n j : Nat}

theorem leads_replace {k : Script.Match} (h : Holds (Filled True) s c j v) (hP : Early k.text)
    (hb : k.before.getLast? ≠ some (.char '\\')) :
    Leads dialect n (fun s' new => ∀ x, new = some x → Holds (fun h => Early (k.before ++ h ++ k.after)) s' c j x)
      (hide v >>= fun t => pure (some t)) s :=
  leads_mint h fun i _ _ hi htally =>
    leads_some ⟨⟨[.token (i, i)], hP.replace hb _, known_token hi, by simp, by simp⟩, htally⟩

theorem trailingSpace_preserves (hc : isKept c = true) : trailingSpace.Preserves dialect n Early c := by
  have hp := progresses (r := trailingSpace) (by simp [rules]) rfl
  refine Rule.preserves_of_round (fun _ h => h.1) (early_twin (matcher_twin (by decide))) hp
    fun s k _ h₁ _ hP _ => ?_
  obtain ⟨hspace, hstop⟩ := trailingSpace_shape h₁
  have hmargin : ∀ d ∈ (k.spell Prod.fst).whole, isMargin d = true := fun d hd => isMargin_of_isIndent (hspace d hd)
  have hnone : s.tally c (k.spell Prod.fst).whole = 0 := by
    rw [Store.tally_of_not_mem (semicolon_not_mem_margin hmargin)]
    exact count_eq_zero_of_kept hc fun d hd => not_kept_of_isMargin (hmargin d hd)
  rw [hnone]
  exact leads_some ⟨⟨[], hP.remove hstop, known_nil, rfl, rfl⟩, Nat.zero_le _⟩

theorem code_preserves (hc : isKept c = true) : code.Preserves dialect n Early c := by
  have hp := progresses (r := code) (by simp [rules]) rfl
  refine Rule.preserves_of_round (fun _ h => h.1) (early_twin (matcher_twin (by decide))) hp
    fun s k hk h₁ hboth hP hknown => ?_
  have hsound : Sound s (k.spell Prod.fst).whole := Script.Match.sound_whole hP.1 hknown hboth
  obtain ⟨hlines, text, -, hw, hgs⟩ := Block.fenced_shape h₁
  have hg₁ : (k.spell Prod.fst).group 1 = some text := by simp [Markup.Match.group, hgs]
  have hwhole : (k.spell Prod.fst).whole = "@\n".toList ++ text ++ "\n@".toList := by simp [hw]
  obtain ⟨hfront, hclose⟩ := Sound.drop_back hc (by decide) (hwhole ▸ hsound)
  obtain ⟨htext, hopen⟩ := Sound.drop_front hc (by decide) hfront
  rw [hwhole, hclose, hopen]
  simp only [hg₁]
  exact leads_replace ((htext.holds c).element (by decide)).filled_of_solid hP (unescaped_of_start hlines.start)

theorem escape_preserves (hc : isKept c = true) : escape.Preserves dialect n Early c := by
  have hp := progresses (r := escape) (by simp [rules]) rfl
  refine Rule.preserves_of_round (fun _ h => h.1) escapeMatcher_twin hp fun s k hk h₁ hboth hP hknown => ?_
  have hsound : Sound s (k.spell Prod.fst).whole := Script.Match.sound_whole hP.1 hknown hboth
  obtain ⟨d, hw, hg₁⟩ := escape_shape h₁
  obtain ⟨hchar, htally⟩ := Sound.drop_front hc (w := ['\\']) (v := [d]) (by decide) (hw ▸ hsound)
  have hwhole : s.tally c (k.spell Prod.fst).whole = s.tally c [d] := by
    rw [hw]
    exact htally
  rw [hwhole]
  simp only [hg₁]
  exact leads_replace ((hchar.holds c).filled (List.cons_ne_nil d [])) hP (escape_leftmost h₁)

end Markup.Document

namespace Markup
open Grammar Script
variable {s s' : Store} {t out html : Text} {c : Char}

theorem dialect_preserves_kept (hc : isKept c = true) (n : Nat) : dialect.Preserves n c := by
  induction n with
  | zero =>
    intro _ _ _ _ _ _ _ _ he
    simp [run] at he
  | succ n ih =>
    intro stage hs b s t t' s' ht he
    have hrules : ∀ r ∈ dialect.rules stage, r.Preserves dialect n (Filled b) c := by
      cases stage with
      | document => exact absurd rfl hs
      | block => exact Block.rules_preserve hc ih
      | table => simpa [dialect] using Table.row_preserves hc
      | list => exact Listing.rules_preserve hc ih
      | line => exact Line.rules_preserve hc ih
    exact preserves_of_rules hrules n ht he

theorem dialect_preserves (hc : isContent c = true) (n : Nat) : dialect.Preserves n c :=
  dialect_preserves_kept (isKept_of_isContent hc) n

theorem Document.unresolved_preserves (hc : isContent c = true) (ht : Same Early s s t t)
    (h : dialect.AppliesAll unresolved t s out s') : s.tally c t ≤ s'.tally c out := by
  rw [unresolved_eq, appliesAll_append] at h
  obtain ⟨u, mid, ⟨n, hu⟩, k, hv⟩ := h
  have early : ∀ r ∈ preparation, r.Preserves dialect n Early c := by
    simp only [preparation, List.forall_mem_cons]
    have hkept := isKept_of_isContent hc
    exact ⟨trailingSpace_preserves hkept, code_preserves hkept, escape_preserves hkept,
      fun r hr => absurd hr List.not_mem_nil⟩
  have late : ∀ r ∈ [Rule.stage "inline" .line, Rule.stage "blocks" .block],
      r.Preserves dialect k (Filled False) c := by
    simp only [List.forall_mem_cons]
    exact ⟨Rule.preserves_stage (dialect_preserves hc k) (by decide),
      Rule.preserves_stage (dialect_preserves hc k) (by decide), fun r hr => absurd hr List.not_mem_nil⟩
  obtain ⟨-, hmid⟩ := preserves_of_rules early n ht hu
  have hfill : Same (Filled False) mid mid u u := hmid.same.imp fun _ hg => ⟨hg.1, False.elim⟩
  obtain ⟨-, hout⟩ := preserves_of_rules late k hfill hv
  exact hmid.le.trans hout.le

/-- A conversion loses no content: whatever is neither white space, nor a digit, nor ASCII punctuation, is in the result
at least as often as in the document. -/
theorem convert_keeps_content (ht : ¬ Token.marker <:+: t) (hc : isContent c = true) :
    (∃ html, dialect.Converts t html) ∧ ∀ html, dialect.Converts t html → t.count c ≤ html.count c := by
  refine ⟨dialect_converts t, fun html h => ?_⟩
  obtain ⟨s, hrun⟩ := converts_iff.1 h
  obtain ⟨out, hout, rfl⟩ := (Document.runs_iff_unresolved ht).1 hrun
  have htext : Store.tally .empty c t = t.count c := Store.tally_of_marker ht
  have := Document.unresolved_preserves hc (Document.same_early ht .empty .empty) hout
  rwa [htext] at this

theorem convert_keeps_content_of_image : ¬ Token.marker <:+: "[[b|a]]".toList ∧ isContent 'b' = true ∧
    (∃ html, dialect.Converts "[[b|a]]".toList html) ∧
      ∀ html, dialect.Converts "[[b|a]]".toList html → "[[b|a]]".toList.count 'b' ≤ html.count 'b' := by
  have ht : ¬ Token.marker <:+: "[[b|a]]".toList := by decide +kernel
  have hc : isContent 'b' = true := by decide
  exact ⟨ht, hc, convert_keeps_content ht hc⟩

end Markup
