import Markup.Proofs.Block.OneLine
import Markup.Proofs.Dialect.Again
import Markup.Proofs.Document.Quiet
import Markup.Proofs.Line.Address

/-! # Addresses behind an arrow

A document that is an arrow and an address is a link to the address and shows it, but where the address has emphasis in
it: emphasis comes before links, and its tags are seen in the result. -/
namespace Markup
open Grammar Script Pattern
variable {t u v out : Text} {s s' : Store}

namespace Line

theorem tally_add_two_le_of_emphasis (ht : Same (Filled False) s s t t) (hne : ¬ emphasis.Quiet t)
    (h : dialect.Applies emphasis t s out s') : Holds (Filled False) s' '<' (s.tally '<' t + 2) out := by
  have hc : isKept '<' = true := by decide
  obtain ⟨f, ha⟩ : ∃ f, emphasis.action = .pattern emphasisMatcher f := ⟨_, rfl⟩
  rw [Rule.quiet_iff ha] at hne
  obtain ⟨found, hf⟩ := Option.ne_none_iff_exists'.1 hne
  have halone : dialect.AppliesAll [emphasis] t s out s' := appliesAll_cons.2 ⟨out, s', h, appliesAll_nil⟩
  exact (halone.tally_add_le ha emphasisMatcher_twin (progresses (by simp [rules]) ha) ht hf
    (fun n => emphasis_leads hc (dialect_preserves_kept hc n) ha hf)
    fun n => List.forall_mem_singleton.2 (emphasis_preserves hc (dialect_preserves_kept hc n))).2

/-- Where emphasis is found in the address, the run leaves the arrow, or writes more tags than an anchor has. -/
theorem arrow_or_tags_of_emphasis (hu : Sound .empty ("->".toList ++ u)) (hne : ¬ emphasis.Quiet u)
    (h : dialect.Runs .line ("->".toList ++ u) .empty out s) : "->".toList <+: out ∨ 2 < s.tally '<' out := by
  obtain ⟨v, mid, hemphasis, hrest⟩ := appliesAll_cons.1 (runs_iff.1 h)
  have hquiet : emphasis.Quiet v := quiet_of_applies (by simp [rules]) hemphasis
  by_cases hlink : link.Quiet v
  · obtain ⟨w, last, hnone, hlater⟩ := appliesAll_cons.1 hrest
    obtain ⟨rfl, rfl⟩ := (hlink.applies mid).unique hnone
    have hkept := List.forall_mem_cons.1 arrow_spared
    exact .inl (hlater.keep hkept.2 (hkept.1 _ _ _ _ (List.prefix_append _ _) hemphasis))
  · have hholds := tally_add_two_le_of_emphasis hu.unfilled (mt emphasis_quiet_arrow_iff.1 hne) hemphasis
    have hruns : dialect.Runs .line v mid out s := runs_iff.2 (appliesAll_cons.2 ⟨v, mid, hquiet.applies mid, hrest⟩)
    have hlt := tally_lt_of_link (c := '<') (by decide) (by decide) hholds.same hquiet hlink hruns
    have hle := hholds.le
    exact .inr (by omega)

end Line

theorem not_marker_arrow (h : ¬ Token.marker <:+: u) : ¬ Token.marker <:+: "->".toList ++ u := fun hm =>
  (List.infix_of_not_mem (u := ['-']) (by decide) hm).elim (fun h => absurd h.length_le (by decide)) h

section
variable (hu : Line.IsAddress u)
include hu

theorem newline_not_mem_arrow : '\n' ∉ "->".toList ++ u := by
  simpa using hu.not_mem (by decide)

theorem applies_preparation_arrow :
    dialect.AppliesAll Document.preparation ("->".toList ++ u) .empty ("->".toList ++ u) .empty := by
  have hbreak := newline_not_mem_arrow hu
  have hescape : '\\' ∉ "->".toList ++ u := by simpa using hu.not_mem (by decide)
  have hlast : ("->".toList ++ u).getLast?.all (!isSpace ·) = true := by
    rw [Option.all_eq_true]
    intro c hc
    rw [List.getLast?_append_of_ne_nil _ hu.ne_nil] at hc
    rw [Line.isSpace_of_isAddressChar (hu.forall c (List.mem_of_getLast? hc)), Bool.not_false]
  exact appliesAll_cons.2 ⟨_, _, Document.applies_trailingSpace_of_line hbreak hlast .empty, appliesAll_cons.2
    ⟨_, _, (Document.code_quiet_of_line hbreak).applies .empty, appliesAll_cons.2
      ⟨_, _, (Document.escape_quiet hescape).applies .empty, appliesAll_nil⟩⟩⟩

theorem converts_arrow (hmarker : ¬ Token.marker <:+: u) (hrun : dialect.Runs .line ("->".toList ++ u) .empty out s)
    (hdash : ∃ c ∈ out, c ≠ '-') : dialect.Converts ("->".toList ++ u) (Html.block "p" (s.detokenize out)) := by
  have hbreak : '\n' ∉ out := (runs_iff.1 hrun).keep Line.rules_spare_line (newline_not_mem_arrow hu)
  obtain ⟨c, hhead, hc⟩ : ∃ c, out.head? = some c ∧ c ∈ "<-".toList := by
    have hkept := (runs_iff.1 hrun).keep Line.rules_spare_head (.inr rfl)
    exact hkept.elim (fun h => ⟨'<', h, by decide⟩) fun h => ⟨'-', h, by decide⟩
  have hmarks : ∀ d ∈ "#|*".toList, out.head? ≠ some d := by
    have hsigns : ∀ c ∈ "<-".toList, c ∉ "#|*".toList := by decide
    intro d hd h
    exact hsigns c hc (Option.some.inj (hhead.symm.trans h) ▸ hd)
  have hprose : Block.isProse out = true := Block.isProse_of_head hhead fun h => absurd (h ▸ hc) (by decide)
  exact Document.converts_of_line (applies_preparation_arrow hu)
    (same_refl (clean_ofText (not_marker_arrow hmarker))) hrun
    hbreak hprose (Block.marked_quiet_of_line hbreak hmarks hdash)

end

theorem block_anchor_eq (u : Text) : Html.block "p" (Html.anchor u u) =
    "<p>\n<a href=\"".toList ++ u ++ "\">".toList ++ u ++ "</a>\n</p>".toList := by
  have hfront : Html.opening "p" ++ ['\n'] = "<p>\n".toList := rfl
  have hback : ['\n'] ++ Html.closing "p" = "\n</p>".toList := rfl
  rw [Html.block_eq, Html.anchor_eq, hfront, hback]
  simp only [List.append_assoc]
  rfl

/-- An arrow and an address make a link that shows the address, exactly if no emphasis is found in the address. -/
theorem address_is_linked_iff_without_emphasis (hu : Line.IsAddress u) (hmarker : ¬ Token.marker <:+: u) :
    dialect.Converts ("->".toList ++ u) ("<p>\n<a href=\"".toList ++ u ++ "\">".toList ++ u ++ "</a>\n</p>".toList) ↔
      Line.emphasis.Quiet u := by
  have hsound : Sound .empty ("->".toList ++ u) := same_refl (clean_ofText (not_marker_arrow hmarker))
  rw [← block_anchor_eq]
  constructor
  · intro h
    by_contra hne
    obtain ⟨out, s, hrun⟩ := dialect_ends .line ("->".toList ++ u) .empty
    have hout : Sound s out := hsound.runs (by decide) hrun hrun
    have hanchor (hdash : ∃ c ∈ out, c ≠ '-') : s.detokenize out = Html.anchor u u :=
      Html.block_injective ((converts_arrow hu hmarker hrun hdash).unique h)
    rcases Line.arrow_or_tags_of_emphasis hsound hne hrun with ⟨v, rfl⟩ | htags
    · have hshown := hanchor ⟨'>', by simp, by decide⟩
      rw [(hout.detokenize_peel (by decide)).2] at hshown
      exact absurd (congrArg List.head? hshown) (by simp [Html.anchor_eq])
    · have htwo : (Html.anchor u u).count '<' = 2 := by
        have hnone : u.count '<' = 0 := List.count_eq_zero.2 (hu.not_mem (by decide))
        simp only [Html.anchor_eq, List.count_append, hnone]
        rfl
      have hdash : ∃ c ∈ out, c ≠ '-' := by
        by_contra! hall
        have hnone : s.tally '<' out = 0 := by
          rw [Store.tally_of_not_mem fun hm => absurd (hall _ hm) (by decide)]
          exact List.count_eq_zero.2 fun hm => absurd (hall _ hm) (by decide)
        omega
      rw [Store.tally, hanchor hdash, htwo] at htags
      exact Nat.lt_irrefl 2 htags
  · intro hquiet
    have hshow := Shows.mint (s := .empty) (same_refl (clean_ofText hmarker)) hu.ne_nil
    rw [Store.detokenize_of_marker _ hmarker] at hshow
    have hshown := (hshow.anchor hshow).2
    have hdash : ∃ c ∈ Html.anchor (Token.ofId 0) (Token.ofId 0), c ≠ '-' := ⟨'<', by simp [Html.anchor_eq], by decide⟩
    have hconv := converts_arrow hu hmarker (Line.runs_arrow hu hquiet .empty) hdash
    rwa [hshown] at hconv

theorem address_is_linked_of_underscore :
    (Line.IsAddress "http://x.com/a_b_c".toList ∧ ¬ Token.marker <:+: "http://x.com/a_b_c".toList) ∧
    dialect.Converts ("->".toList ++ "http://x.com/a_b_c".toList)
      ("<p>\n<a href=\"".toList ++ "http://x.com/a_b_c".toList ++ "\">".toList ++ "http://x.com/a_b_c".toList ++
        "</a>\n</p>".toList) := by
  have hu : Line.IsAddress "http://x.com/a_b_c".toList :=
    .absolute "http".toList ".com/a_b_c".toList 'x' (by decide) (by decide) (by decide) (by decide)
  have hmarker : ¬ Token.marker <:+: "http://x.com/a_b_c".toList := by decide
  exact ⟨⟨hu, hmarker⟩, (address_is_linked_iff_without_emphasis hu hmarker).2 ⟨_, _, rfl, by decide +kernel⟩⟩

/-- Emphasis ends the address before it. -/
theorem address_is_cut_at_emphasis :
    (Line.IsAddress "/a*b*".toList ∧ ¬ Token.marker <:+: "/a*b*".toList) ∧
    dialect.Converts ("->".toList ++ "/a*b*".toList) "<p>\n<a href=\"/a\">/a</a><em>b</em>\n</p>".toList ∧
    ¬ dialect.Converts ("->".toList ++ "/a*b*".toList) ("<p>\n<a href=\"".toList ++ "/a*b*".toList ++
      "\">".toList ++ "/a*b*".toList ++ "</a>\n</p>".toList) := by
  have hcut : dialect.Converts ("->".toList ++ "/a*b*".toList) "<p>\n<a href=\"/a\">/a</a><em>b</em>\n</p>".toList :=
    ⟨12, by decide +kernel⟩
  refine ⟨⟨.rooted "a*b*".toList (by decide) (by decide), by decide⟩, hcut, fun h => ?_⟩
  exact absurd (hcut.unique h) (by decide)

end Markup
