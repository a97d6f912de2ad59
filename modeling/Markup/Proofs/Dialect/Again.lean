import Markup.Proofs.Dialect.Tally
import Markup.Proofs.Line.Spares

/-! # The line stage over its own result

A second run of the line stage finds nothing but links: a superscript or an image may have taken in the parenthesis that
kept an arrow from its address. Without such a link the second run changes nothing, and with one it writes an anchor. -/
namespace Markup
open Grammar Script Pattern
variable {t out again : Text} {s after last : Store}

namespace Line

/-- The run over a text with a link in it writes the tag of an anchor, which is seen when the tokens are resolved. -/
theorem tally_lt_of_link {c : Char} (hc : isKept c = true) (hmem : c ∈ "<a href=\"".toList)
    (hsame : Same (Filled False) after after out out) (hquiet : emphasis.Quiet out) (hlink : ¬ link.Quiet out)
    (h : dialect.Runs .line out after again last) : after.tally c out < last.tally c again := by
  obtain ⟨f, ha⟩ : ∃ f, link.action = .pattern linkPattern.matcher f := ⟨_, rfl⟩
  obtain ⟨u, mid, hemphasis, h⟩ := appliesAll_cons.1 (runs_iff.1 h)
  obtain ⟨rfl, rfl⟩ := (hquiet.applies after).unique hemphasis
  rw [Rule.quiet_iff ha] at hlink
  obtain ⟨found, hf⟩ := Option.ne_none_iff_exists'.1 hlink
  have hkeep (k : Nat) : ∀ r ∈ [link, image, mail, mention, hashtag, superscript],
      r.Preserves dialect k (Filled False) c :=
    fun r hr => rules_preserve hc (dialect_preserves_kept hc k) r (List.mem_cons_of_mem emphasis hr)
  obtain ⟨-, hres⟩ := h.tally_add_le ha (matcher_twin (by decide)) (progresses (by simp [rules]) ha) hsame hf
    (fun _ => link_leads hc ha hf) hkeep
  have htag : 0 < "<a href=\"".toList.count c := List.count_pos_iff.2 hmem
  have hle := hres.le
  omega

end Line

/-- A second run of the line stage gives the same result exactly where no link is found after the first one: none of the
other rules finds anything, and the second run then changes neither the text nor the tokens. No link is found when the
text has no parenthesis, or neither a bracket nor a caret. -/
theorem second_line_run_finds_only_links (ht : ¬ Token.marker <:+: t) (s : Store) :
    ∃ out after again last, dialect.Runs .line t s out after ∧ dialect.Runs .line out after again last ∧
      (∀ r ∈ Line.rules, r ≠ Line.link → r.Quiet out) ∧
      (last.detokenize again = after.detokenize out ↔ Line.link.Quiet out) ∧
      (Line.link.Quiet out → again = out ∧ last = after) ∧
      ('(' ∉ t ∨ '[' ∉ t ∧ '^' ∉ t → Line.link.Quiet out) := by
  obtain ⟨out, after, hfirst⟩ := dialect_ends .line t s
  obtain ⟨again, last, hsecond⟩ := dialect_ends .line out after
  have hothers := Line.quiet_of_run (runs_iff.1 hfirst)
  have hunchanged (hlink : Line.link.Quiet out) : again = out ∧ last = after := by
    have hquiet : ∀ r ∈ Line.rules, r.Quiet out := by
      intro r hr
      by_cases hne : r = Line.link
      · exact hne ▸ hlink
      · exact hothers r hr hne
    exact hsecond.unique (runs_iff.2 (appliesAll_quiet hquiet after))
  refine ⟨out, after, again, last, hfirst, hsecond, hothers, ⟨fun hsame => ?_, fun hlink => ?_⟩, hunchanged, ?_⟩
  · by_contra hlink
    have hclean : Same (Filled False) s s t t := (same_refl (clean_ofText ht)).unfilled
    obtain ⟨n, hrun⟩ := hfirst
    obtain ⟨-, hout⟩ := dialect_preserves (by decide : isContent 'h' = true) n .line
      (by decide) False s t out after hclean hrun
    have hemphasis : Line.emphasis.Quiet out := hothers _ (by simp [Line.rules]) fun h =>
      absurd (congrArg Rule.name h) (by decide)
    have hlt := Line.tally_lt_of_link (c := 'h') (by decide) (by decide) hout.same hemphasis hlink hsecond
    rw [Store.tally, Store.tally, hsame] at hlt
    exact Nat.lt_irrefl _ hlt
  · obtain ⟨rfl, rfl⟩ := hunchanged hlink
    rfl
  · exact Line.link_quiet_of_run (runs_iff.1 hfirst)

theorem second_line_run_over_mention_changes_nothing : ¬ Token.marker <:+: "é *b*(c) @d".toList ∧
    ('(' ∉ "é *b*(c) @d".toList ∨ '[' ∉ "é *b*(c) @d".toList ∧ '^' ∉ "é *b*(c) @d".toList) ∧
    ∃ out after, dialect.Runs .line "é *b*(c) @d".toList .empty out after ∧ dialect.Runs .line out after out after := by
  have ht : ¬ Token.marker <:+: "é *b*(c) @d".toList := by decide
  have hunhidden : '(' ∉ "é *b*(c) @d".toList ∨ '[' ∉ "é *b*(c) @d".toList ∧ '^' ∉ "é *b*(c) @d".toList := by decide
  obtain ⟨out, after, again, last, hfirst, hsecond, -, -, hunchanged, hquiet⟩ :=
    second_line_run_finds_only_links ht .empty
  obtain ⟨rfl, rfl⟩ := hunchanged (hquiet hunhidden)
  exact ⟨ht, hunhidden, again, last, hfirst, hsecond⟩

/-- The superscript takes in the parenthesis that kept the arrow from its address, so the second run finds a link. -/
theorem superscript_clears_way_for_link : ¬ Token.marker <:+: "->a^(x y)(/u)".toList ∧
    dialect.Runs .line "->a^(x y)(/u)".toList .empty "->a<sup>;;xsv;0;</sup>(/u)".toList ⟨#["(x y)".toList]⟩ ∧
    dialect.Runs .line "->a<sup>;;xsv;0;</sup>(/u)".toList ⟨#["(x y)".toList]⟩
      "<a href=\";;xsv;1;\">a<sup>;;xsv;0;</sup></a>".toList ⟨#["(x y)".toList, "/u".toList]⟩ ∧
    Store.detokenize ⟨#["(x y)".toList]⟩ "->a<sup>;;xsv;0;</sup>(/u)".toList = "->a<sup>(x y)</sup>(/u)".toList ∧
    Store.detokenize ⟨#["(x y)".toList, "/u".toList]⟩ "<a href=\";;xsv;1;\">a<sup>;;xsv;0;</sup></a>".toList =
      "<a href=\"/u\">a<sup>(x y)</sup></a>".toList ∧
    Store.detokenize ⟨#["(x y)".toList, "/u".toList]⟩ "<a href=\";;xsv;1;\">a<sup>;;xsv;0;</sup></a>".toList ≠
      Store.detokenize ⟨#["(x y)".toList]⟩ "->a<sup>;;xsv;0;</sup>(/u)".toList := by
  have hfirst : Store.detokenize ⟨#["(x y)".toList]⟩ "->a<sup>;;xsv;0;</sup>(/u)".toList =
      "->a<sup>(x y)</sup>(/u)".toList := by
    decide +kernel
  have hsecond :
      Store.detokenize ⟨#["(x y)".toList, "/u".toList]⟩ "<a href=\";;xsv;1;\">a<sup>;;xsv;0;</sup></a>".toList =
      "<a href=\"/u\">a<sup>(x y)</sup></a>".toList := by
    decide +kernel
  refine ⟨by decide +kernel, ⟨12, ?_⟩, ⟨12, ?_⟩, hfirst, hsecond, ?_⟩
  · decide +kernel
  · decide +kernel
  · rw [hfirst, hsecond]
    decide

end Markup
