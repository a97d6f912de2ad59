import Markup.Proofs.Rule.Quiet
import Markup.Proofs.Seam.Rule

/-! # What rules write

What a rule writes in the place of a match, wherever in a text the match was found. A rule clears its matches when it
always writes something, never the match itself, and never a text in which it would find a match again. -/
namespace Markup
open Grammar
variable {g : Grammar}

/-- The program answers with a text, and with none that is not in `P`. -/
def Program.Writes (g : Grammar) (P : Text → Prop) (p : Program (Option Text)) : Prop :=
  ∀ s r s', g.Evaluates p s r s' → ∃ new, r = some new ∧ P new

namespace Program
variable {P Q : Text → Prop} {p : Program (Option Text)} {next : Text → Program (Option Text)} {v : Text}

theorem Writes.imp (h : p.Writes g P) (hpq : ∀ new, P new → Q new) : p.Writes g Q := by
  intro s r s' he
  obtain ⟨new, rfl, hnew⟩ := h s r s' he
  exact ⟨new, rfl, hpq new hnew⟩

theorem writes_pure (h : P v) : Writes g P (pure (some v)) := by
  intro s r s' he
  exact ⟨v, (evaluates_pure_iff.1 he).1.symm, h⟩

theorem writes_hide (h : ∀ n, Writes g P (next (Token.ofId n))) : Writes g P (hide v >>= next) := by
  intro s r s' he
  exact h s.size _ _ _ (evaluates_hide_bind.1 he)

theorem writes_rerun {stage : Stage} (h : ∀ s out s', g.Runs stage v s out s' → Writes g P (next out)) :
    Writes g P (rerun stage v >>= next) := by
  intro s r s' he
  obtain ⟨out, mid, hrun, he⟩ := evaluates_rerun_bind.1 he
  exact h s out mid hrun _ _ _ he

theorem writes_hidden (h : ∀ n, P (Token.ofId n)) : Writes g P (some <$> hide v) := by
  rw [map_eq_pure_bind]
  exact writes_hide fun n => writes_pure (h n)

end Program

/-- Every stage comes to an end, from any text and any store. -/
def Grammar.Total (g : Grammar) : Prop := ∀ stage t s, ∃ out after, g.Runs stage t s out after

theorem Grammar.Total.exists_evaluates {α : Type} (h : g.Total) (p : Program α) (s : Store) :
    ∃ a s', g.Evaluates p s a s' := by
  induction p generalizing s with
  | done a => exact ⟨a, s, evaluates_pure a s⟩
  | run stage text next ih =>
    obtain ⟨out, mid, hrun⟩ := h stage text s
    obtain ⟨a, s', he⟩ := ih out mid
    exact ⟨a, s', evaluates_rerun_bind.2 ⟨out, mid, hrun, he⟩⟩
  | mint value next ih =>
    obtain ⟨a, s', he⟩ := ih _ (s.mint value).2
    exact ⟨a, s', evaluates_hide_bind.2 he⟩
  | inspect next ih => exact ih s s

namespace Rule
variable {name : String} {m : Matcher} {f : Match → Program (Option Text)} {New New' : Match → Text → Prop}

/-- In the place of a match the rule writes a text, and none that `New` does not allow there. -/
def Writes (g : Grammar) (New : Match → Text → Prop) (r : Rule) : Prop :=
  ∀ m f, r.action = .pattern m f → ∀ behind ahead found, m.find behind ahead = some found →
    (f found).Writes g (New found)

/-- What the rule writes is not the match, and the rule finds nothing in it. -/
def Clears (g : Grammar) (r : Rule) : Prop := r.Writes g fun found new => new ≠ found.whole ∧ r.Quiet new

theorem writes_pattern (h : ∀ behind ahead found, m.find behind ahead = some found → (f found).Writes g (New found)) :
    (pattern name m f).Writes g New := by
  intro _ _ ha
  obtain ⟨rfl, rfl⟩ := Action.pattern.inj ha
  exact h

theorem Writes.imp {r : Rule} (h : r.Writes g New) (himp : ∀ found new, New found new → New' found new) :
    r.Writes g New' := fun m f ha behind ahead found hf => (h m f ha behind ahead found hf).imp (himp found)

/-- No match is declined, since the rule always writes something else. -/
theorem Writes.exists_evaluates {r : Rule} (h : r.Writes g New) (ht : g.Total) (ha : r.action = .pattern m f)
    {behind ahead : Text} {found : Match} (hf : m.find behind ahead = some found) (s : Store) :
    ∃ new mid, g.Evaluates (f found) s (some new) mid ∧ New found new := by
  obtain ⟨a, mid, he⟩ := ht.exists_evaluates (f found) s
  obtain ⟨new, rfl, hnew⟩ := h m f ha behind ahead found hf s a mid he
  exact ⟨new, mid, he, hnew⟩

theorem Rounds.find_eq_none {t out : Text} {s s' : Store} (h : g.Rounds m f t s out s') : m.find [] out = none := by
  induction h with
  | done h => exact h
  | step _ _ _ _ ih => exact ih

theorem Writes.find_eq_none {r : Rule} (h : r.Writes g fun found new => new ≠ found.whole) (ht : g.Total)
    (ha : r.action = .pattern m f) {t out : Text} {s s' : Store} (hs : g.Saturates m f t s out s') :
    m.find [] out = none := by
  have hp : Progresses g m f := fun _ _ s hf => h.exists_evaluates ht ha hf s
  exact Rounds.find_eq_none (hp.saturates_iff.1 hs)

/-- Every match bears a trace that no replacement bears, and a text bears the traces of its parts. -/
theorem clears_of_trace (Trace : Text → Prop) (hpart : ∀ u t, u <:+: t → Trace u → Trace t) (hm : m.Lawful)
    (h : ∀ behind ahead found, m.find behind ahead = some found →
      Trace found.whole ∧ (f found).Writes g fun new => ¬ Trace new) : (pattern name m f).Clears g := by
  refine writes_pattern fun behind ahead found hf => ?_
  obtain ⟨htrace, hwrites⟩ := h behind ahead found hf
  refine hwrites.imp fun new hnew => ⟨fun he => hnew (he ▸ htrace), quiet_pattern_iff.2 ?_⟩
  refine Option.eq_none_iff_forall_ne_some.2 fun again hagain => hnew (hpart again.whole new ?_ (h _ _ _ hagain).1)
  exact ⟨again.before, again.after, (hm _ _ _ hagain).1⟩

theorem clears_of_weight (w : Weight) (hm : m.Lawful)
    (h : ∀ behind ahead found, m.find behind ahead = some found →
      1 ≤ w.of found.whole ∧ (f found).Writes g fun new => w.of new = 0) : (pattern name m f).Clears g := by
  refine clears_of_trace (fun t => 1 ≤ w.of t) (fun u t hut hu => hu.trans (Weight.of_le_of_slice hut)) hm ?_
  intro behind ahead found hf
  obtain ⟨hpos, hwrites⟩ := h behind ahead found hf
  exact ⟨hpos, hwrites.imp fun new hnew => by omega⟩

theorem clears_of_mem (c : Char) (hm : m.Lawful)
    (h : ∀ behind ahead found, m.find behind ahead = some found →
      c ∈ found.whole ∧ (f found).Writes g fun new => c ∉ new) : (pattern name m f).Clears g :=
  clears_of_trace (fun t => c ∈ t) (fun _ _ hut hu => hut.subset hu) hm h

/-- The rule looks for its matches from left to right. -/
def Scans (r : Rule) : Prop := ∀ m f, r.action = .pattern m f → ∃ s k, m = .ofScanner s k

theorem scans_ofScanner (s : Scanner) (k : Rounding) : (pattern name (.ofScanner s k) f).Scans := by
  intro _ _ ha
  obtain ⟨rfl, -⟩ := Action.pattern.inj ha
  exact ⟨s, k, rfl⟩

theorem scans_pattern (p : Pattern) : (pattern name p.matcher f).Scans := by
  rw [Pattern.matcher_eq]
  exact scans_ofScanner _ _

theorem scans_transform (change : Text → Program (Option Text)) : (transform name change).Scans :=
  fun _ _ ha => nomatch ha

theorem Scans.find_eq_none {r : Rule} (h : r.Scans) (ha : r.action = .pattern m f) {t : Text}
    (hnone : m.find [] t = none)
    {u v : Text} (ht : t = u ++ v) : m.find u.reverse v = none := by
  obtain ⟨s, k, rfl⟩ := h m f ha
  refine Scanner.search_eq_none_iff.2 fun x y hv => ?_
  have := Scanner.search_eq_none_iff.1 hnone (u ++ x) y (by rw [ht, hv, List.append_assoc])
  simpa using this

end Rule
end Markup
