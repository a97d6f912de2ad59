import Markup.Proofs.Rule.Quiet
import Markup.Proofs.Rule.Tally

/-! # What rules uphold

A rule upholds a property of the store and the text when every round leads from one pair that has it to another. The
tokens that are minted on the way stay what they are, so the property may speak of what they stand for. -/
namespace Markup
open Grammar
variable {g : Grammar} {n : Nat} {I J : Store → Text → Prop} {s s' : Store} {t t' : Text}

def Rule.Upholds (g : Grammar) (n : Nat) (I : Store → Text → Prop) (r : Rule) : Prop :=
  ∀ fuel s t t' s', I s t → r.apply (g.run n) fuel t s = some (t', s') → s.Le s' ∧ I s' t'

namespace Program
variable {α : Type} {R : Store → α → Prop} {p : Text → Program α} {stage : Stage}

theorem leads_token (h : Same (Filled True) s s t t)
    (hp : ∀ i s', s.Le s' → Linked s' s' (i, i) → s'.detokenize (Token.ofId i) = s.detokenize t →
      Leads g n R (p (Token.ofId i)) s') : Leads g n R (hide t >>= p) s := by
  intro a s' he
  have hlink : Linked (s.mint t).2 (s.mint t).2 (s.size, s.size) := by
    obtain ⟨g, hg, hk, hx, hy⟩ := h
    have hfresh := Twins.linked_mint ⟨hg.1, hk⟩ (hg.2 trivial)
    rwa [← hx, ← hy] at hfresh
  obtain ⟨hle, hr⟩ := hp s.size _ (s.le_mint t) hlink (s.detokenize_ofId_mint t) a s' he
  exact ⟨(s.le_mint t).trans hle, hr⟩

theorem leads_stage (h : ∀ u s', g.run n stage t s = some (u, s') → s.Le s' ∧ Leads g n R (p u) s') :
    Leads g n R (rerun stage t >>= p) s := by
  intro a s' he
  rw [eval_bind, rerun, eval] at he
  cases hr : g.run n stage t s with
  | none => simp [hr] at he
  | some r =>
    obtain ⟨u, mid⟩ := r
    rw [hr] at he
    obtain ⟨hle, hp⟩ := h u mid hr
    obtain ⟨hle', ha⟩ := hp a s' he
    exact ⟨hle.trans hle', ha⟩

theorem Leads.imp {R' : Store → α → Prop} {q : Program α} (h : Leads g n R q s)
    (himp : ∀ s' a, s.Le s' → R s' a → R' s' a) : Leads g n R' q s := by
  intro a s' he
  obtain ⟨hle, ha⟩ := h a s' he
  exact ⟨hle, himp s' a hle ha⟩

end Program

namespace Rule
variable {name : String} {m : Matcher} {f : Match → Program (Option Text)}

theorem upholds_of_round (hp : Progresses g m f)
    (round : ∀ s t found, I s t → m.find [] t = some found →
      Program.Leads g n (fun s' new => ∀ x, new = some x → I s' (found.replaceBy x)) (f found) s) :
    (pattern name m f).Upholds g n I := by
  intro fuel
  induction fuel with
  | zero =>
    intro _ _ _ _ _ he
    simp [pattern, apply, saturate] at he
  | succ fuel ih =>
    intro s t t' s' ht he
    simp only [pattern, apply] at he ih
    rw [saturate] at he
    cases hf : m.find [] t with
    | none =>
      rw [hf] at he
      obtain ⟨rfl, rfl⟩ := by simpa using he
      exact ⟨.refl _, ht⟩
    | some found =>
      simp only [hf] at he
      cases hr : (f found).eval (g.run n) s with
      | none => simp [hr] at he
      | some r =>
        obtain ⟨r, mid⟩ := r
        obtain ⟨new, rfl, hne⟩ := hp.of_evaluates hf ⟨n, hr⟩
        have hkeep : (some new).filter (· ≠ found.whole) = some new := by simp [Option.filter, hne]
        simp only [hr, hkeep] at he
        obtain ⟨hle, hround⟩ := round s t found ht hf _ mid hr
        obtain ⟨hle', hout⟩ := ih mid _ t' s' (hround new rfl) he
        exact ⟨hle.trans hle', hout⟩

theorem apply_of_quiet {r : Rule} {fuel : Nat} (hq : r.Quiet t) (ha : r.action = .pattern m f)
    (he : r.apply (g.run n) fuel t s = some (t', s')) : t' = t ∧ s' = s := by
  have hnone : m.find [] t = none := (quiet_iff ha).1 hq
  rw [apply, ha] at he
  cases fuel with
  | zero => simp [saturate] at he
  | succ fuel => simpa [saturate, hnone, eq_comm] using he

end Rule

theorem Grammar.upholds_of_rules {rules : List Rule} (h : ∀ r ∈ rules, r.Upholds g n I) (fuel : Nat) (ht : I s t)
    (he : applyAll (g.run n) fuel rules t s = some (t', s')) : s.Le s' ∧ I s' t' := by
  induction rules generalizing t s with
  | nil =>
    obtain ⟨rfl, rfl⟩ := by simpa [applyAll] using he
    exact ⟨.refl _, ht⟩
  | cons r rules ih =>
    rw [applyAll] at he
    split at he
    · next u mid hr =>
      obtain ⟨hle, hu⟩ := h r List.mem_cons_self _ _ _ _ _ ht hr
      obtain ⟨hle', hout⟩ := ih (fun q hq => h q (List.mem_cons_of_mem _ hq)) hu he
      exact ⟨hle.trans hle', hout⟩
    · contradiction

end Markup
