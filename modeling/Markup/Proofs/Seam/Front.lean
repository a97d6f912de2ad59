import Markup.Proofs.Seam.Rule

/-! # Rounds behind a front

A front is a text with a blank behind it. A scanner that finds nothing from any place in the front finds in the whole
what it finds from the blank on, so the rounds of its rule do not touch the front and are the same whatever the front
is. -/
namespace Markup
open Grammar
variable {g : Grammar} {front t u rest out : Text} {s s' : Store}

namespace Scanner
variable {scan : Scanner}

/-- The scanner finds nothing from any place in the front, and nothing from the blank. -/
def Overlooks (scan : Scanner) (front : Text) : Prop :=
  ∀ u v prev rest, front = u ++ v → scan prev (v ++ ' ' :: rest) = none

theorem Overlooks.nil (h : scan.Overlooks front) : scan.Overlooks [] := by
  intro u v prev rest huv
  obtain ⟨rfl, rfl⟩ := List.append_eq_nil_iff.1 huv.symm
  exact h front [] prev rest (List.append_nil front).symm

theorem Overlooks.search (h : scan.Overlooks front) (rest : Text) :
    scan.search [] (front ++ ' ' :: rest) = (scan.search [' '] rest).map (Match.shift front.reverse) := by
  have hskip : scan.search [] (front ++ [' '] ++ rest) = scan.search ((front ++ [' ']).reverse ++ []) rest :=
    search_skip fun a b hab hb => by
      obtain ⟨v, c, rfl⟩ := (List.eq_nil_or_concat' b).resolve_left hb
      obtain ⟨hfront, hc⟩ := List.append_inj' (hab.trans (List.append_assoc a v [c]).symm) rfl
      obtain rfl := List.singleton_inj.1 hc
      rw [List.append_assoc, List.singleton_append]
      exact h a v _ rest hfront
  have hsplit : (front ++ [' ']).reverse ++ [] = [' '] ++ front.reverse := by simp
  rw [List.append_assoc, List.singleton_append, hsplit, search_shift (List.cons_ne_nil _ _)] at hskip
  exact hskip

/-- What the scanner finds from the blank on, it finds behind the blank. -/
theorem Overlooks.search_blank (h : scan.Overlooks front) (rest : Text) :
    scan.search [] (' ' :: rest) = scan.search [' '] rest := by
  have hshift : Match.shift [] = id := funext fun m => by simp [Match.shift]
  have hsearch := h.nil.search rest
  rwa [List.nil_append, List.reverse_nil, hshift, Option.map_id_fun, id] at hsearch

/-- A scanner that hits only at a sign overlooks what has none of the signs. -/
theorem overlooks_of_head (signs : Text) (h : ∀ prev t, scan prev t ≠ none → ∃ c ∈ signs, t.head? = some c)
    (hblank : ' ' ∉ signs) (hfront : ∀ c ∈ signs, c ∉ front) : scan.Overlooks front := by
  rintro u v prev rest rfl
  by_contra hne
  obtain ⟨c, hc, hhead⟩ := h prev _ hne
  cases v with
  | nil => exact hblank (Option.some.inj hhead ▸ hc)
  | cons d v => exact hfront c hc (by simp [← Option.some.inj hhead])

end Scanner

namespace Rule
variable {m : Matcher} {f : Match → Program (Option Text)}

/-- The rule finds nothing from any place in the front. -/
def Overlooks (g : Grammar) (front : Text) (r : Rule) : Prop :=
  ∃ name scan rounding f, r = .pattern name (.ofScanner scan rounding) f ∧
    Progresses g (.ofScanner scan rounding) f ∧ Narrow f ∧ scan.Overlooks front

/-- By induction over the rounds, each of which finds its match behind the blank. -/
theorem rounds_behind {scan : Scanner} {rounding : Rounding} (hn : Narrow f) (hfront : scan.Overlooks front)
    (h : g.Rounds (.ofScanner scan rounding) f t s out s') (ht : t = ' ' :: rest) :
    ∃ more, out = ' ' :: more ∧
      g.Rounds (.ofScanner scan rounding) f (front ++ ' ' :: rest) s (front ++ ' ' :: more) s' := by
  have hfind (rest : Text) : (Matcher.ofScanner scan rounding).find [] (front ++ ' ' :: rest) =
      ((Matcher.ofScanner scan rounding).find [] (' ' :: rest)).map (Match.shift front.reverse) :=
    (hfront.search rest).trans (congrArg _ (hfront.search_blank rest).symm)
  induction h generalizing rest with
  | done h =>
    subst ht
    exact ⟨rest, rfl, .done (by rw [hfind, h]; rfl)⟩
  | @step _ new _ s mid _ found h he hne _ ih =>
    subst ht
    have hblank : scan.search [' '] rest = some found := hfront.search_blank rest ▸ h
    obtain ⟨u, after, -, hbehind, -⟩ := Scanner.search_eq_some hblank
    have hnext : found.replaceBy new = ' ' :: (u ++ new ++ found.after) := by
      simp [Match.replaceBy_eq, Match.before, hbehind]
    obtain ⟨more, rfl, hrounds⟩ := ih hnext
    have hshifted : (Matcher.ofScanner scan rounding).find [] (front ++ ' ' :: rest) =
        some (found.shift front.reverse) := by
      rw [hfind, h]
      rfl
    have heval : g.Evaluates (f (found.shift front.reverse)) s (some new) mid := by
      rw [← hn found found.behind found.after] at he
      exact (hn found _ _).symm ▸ he
    refine ⟨more, rfl, .step hshifted heval hne ?_⟩
    rwa [Match.replaceBy_shift, List.reverse_reverse, hnext]

theorem Overlooks.applies {r : Rule} (h : r.Overlooks g front) (happ : g.Applies r (' ' :: rest) s out s') :
    ∃ more, out = ' ' :: more ∧ g.Applies r (front ++ ' ' :: rest) s (front ++ ' ' :: more) s' := by
  obtain ⟨name, scan, rounding, f, rfl, hp, hn, hfront⟩ := h
  rw [applies_pattern, hp.saturates_iff] at happ
  obtain ⟨more, rfl, hrounds⟩ := rounds_behind hn hfront happ rfl
  exact ⟨more, rfl, applies_pattern.2 (hp.saturates_iff.2 hrounds)⟩

end Rule

/-- What the rules do from a blank on does not depend on the front. -/
theorem Grammar.AppliesAll.behind {rules : List Rule} (hrun : g.AppliesAll rules (' ' :: rest) s out s')
    (h : ∀ r ∈ rules, r.Overlooks g front) :
    ∃ more, out = ' ' :: more ∧ g.AppliesAll rules (front ++ ' ' :: rest) s (front ++ ' ' :: more) s' := by
  induction rules generalizing rest s with
  | nil =>
    obtain ⟨rfl, rfl⟩ := hrun.unique appliesAll_nil
    exact ⟨rest, rfl, appliesAll_nil⟩
  | cons r rules ih =>
    rw [List.forall_mem_cons] at h
    obtain ⟨u, mid, hr, hlater⟩ := appliesAll_cons.1 hrun
    obtain ⟨more, rfl, happ⟩ := h.1.applies hr
    obtain ⟨last, rfl, hall⟩ := ih hlater h.2
    exact ⟨last, rfl, appliesAll_cons.2 ⟨_, mid, happ, hall⟩⟩

end Markup
