import Markup.Proofs.Rule.Writes
import Markup.Proofs.Text.Cuts

/-! # What rules spare

A rule spares a property when it never leads from a text that has it to one that has not. What holds once a rule has run
holds in the end when all later rules spare it; so a rule that finds nothing after its own loop finds nothing in the end
when none of the later rules brings up a match for it. -/
namespace Markup
open Grammar
variable {g : Grammar} {P : Text → Prop} {t out : Text} {s s' : Store}

def Rule.Spares (g : Grammar) (P : Text → Prop) (r : Rule) : Prop :=
  ∀ t s out s', P t → g.Applies r t s out s' → P out

namespace Rule
variable {m : Matcher} {f : Match → Program (Option Text)} {New : Match → Text → Prop} {r : Rule}

theorem Rounds.keep (h : g.Rounds m f t s out s') (hk : Keeps g m f P) (ht : P t) : P out := by
  induction h with
  | done => exact ht
  | step hf he _ _ ih => exact ih (hk _ _ _ _ _ ht hf he)

theorem Writes.keeps (h : r.Writes g New) (ha : r.action = .pattern m f) (hm : m.Lawful)
    (hkeep : ∀ found new, New found new → P found.text → P (found.replaceBy new)) : Keeps g m f P := by
  intro t found s new s' ht hf he
  obtain ⟨_, hnew, hwrites⟩ := h m f ha [] t found hf s _ s' he
  obtain rfl := Option.some.inj hnew
  have htext : found.text = t := (hm [] t found hf).1
  exact hkeep found new hwrites (htext.symm ▸ ht)

/-- A rule that declines no match spares what its replacements keep. -/
theorem spares_of_keeps (hp : Progresses g m f) (ha : r.action = .pattern m f) (hk : Keeps g m f P) : r.Spares g P := by
  intro t s out s' ht h
  exact Rounds.keep (hp.saturates_iff.1 ((applies_iff ha).1 h)) hk ht

/-- A rule whose matches begin with no character of the front spares the front. -/
theorem spares_front {front : Text} (hp : Progresses g m f) (ha : r.action = .pattern m f) (hm : m.Lawful)
    (hhead : ∀ behind t found, m.find behind t = some found → ∃ c, found.whole.head? = some c ∧ c ∉ front) :
    r.Spares g (front <+: ·) := by
  refine spares_of_keeps hp ha fun t found s new s' ⟨v, ht⟩ hf _ => ?_
  obtain ⟨c, hc, hfront⟩ := hhead [] t found hf
  obtain ⟨w, hw⟩ := List.head?_eq_some_iff.1 hc
  have hsplit : found.text = t := (hm [] t found hf).1
  have htext : front ++ v = found.before ++ c :: (w ++ found.after) := by
    rw [ht, ← hsplit, Match.text, hw, List.append_assoc, List.cons_append]
  obtain ⟨d, hbefore, -⟩ := List.exists_eq_append_of_front hfront htext
  rw [Match.replaceBy_eq, hbefore, List.append_assoc, List.append_assoc]
  exact List.prefix_append front _

end Rule

theorem Grammar.AppliesAll.keep {rules : List Rule} (hrun : g.AppliesAll rules t s out s')
    (h : ∀ r ∈ rules, r.Spares g P) (ht : P t) : P out := by
  induction rules generalizing t s with
  | nil =>
    obtain ⟨rfl, -⟩ := hrun.unique appliesAll_nil
    exact ht
  | cons r rules ih =>
    obtain ⟨u, mid, hr, hrun⟩ := appliesAll_cons.1 hrun
    have hu : P u := h r List.mem_cons_self t s u mid ht hr
    exact ih hrun (fun q hq => h q (List.mem_cons_of_mem r hq)) hu

theorem Grammar.AppliesAll.settle {earlier later : List Rule} {r : Rule}
    (hrun : g.AppliesAll (earlier ++ r :: later) t s out s')
    (hr : ∀ t s out s', g.Applies r t s out s' → P out) (h : ∀ q ∈ later, q.Spares g P) : P out := by
  obtain ⟨u, mid, -, hrun⟩ := appliesAll_append.1 hrun
  obtain ⟨v, mid', happly, hrun⟩ := appliesAll_cons.1 hrun
  exact hrun.keep h (hr u mid v mid' happly)

end Markup
