import Markup.Proofs.Run

/-! # Runs that do not look into the store

A program that does not inspect the store sees only how many tokens it has. So from two stores of one size it comes to
one result, and what minting keeps between the two stores holds of them in the end. -/
namespace Markup
open Grammar

/-- The two stores have one size, and stay related while the same texts are put into both. -/
structure Store.Minting (R : Store → Store → Prop) : Prop where
  size : ∀ s₁ s₂, R s₁ s₂ → s₁.size = s₂.size
  mint : ∀ s₁ s₂ v, R s₁ s₂ → R (s₁.mint v).2 (s₂.mint v).2

variable {R : Store → Store → Prop} {g : Grammar} {n : Nat} {s₁ s₂ s₁' s₂' : Store} {t t' v : Text}

namespace Program
variable {α β : Type}

/-- The program does not inspect the store, nor run what does. -/
def Blind : Program α → Prop
  | done _ => True
  | run stage _ next => stage ≠ .document ∧ ∀ t, (next t).Blind
  | mint _ next => ∀ t, (next t).Blind
  | inspect _ => False

theorem blind_pure (a : α) : (pure a : Program α).Blind := trivial

theorem blind_hide {p : Text → Program α} (h : ∀ t, (p t).Blind) : (hide v >>= p).Blind := h

theorem blind_rerun {stage : Stage} (hs : stage ≠ .document) {p : Text → Program α} (h : ∀ t, (p t).Blind) :
    (rerun stage v >>= p).Blind := ⟨hs, h⟩

theorem blind_hidden (v : Text) : (some <$> hide v).Blind := by
  rw [map_eq_pure_bind]
  exact blind_hide fun t => blind_pure _

end Program

/-- No program of the rule inspects the store. -/
def Rule.Blind (r : Rule) : Prop :=
  match r.action with
  | .pattern _ replace => ∀ m, (replace m).Blind
  | .transform change => ∀ t, (change t).Blind

/-- The stages answer alike to related stores. -/
def Grammar.Blind (g : Grammar) (n : Nat) (R : Store → Store → Prop) : Prop :=
  ∀ stage, stage ≠ .document → ∀ t s₁ s₂ t' s₁', R s₁ s₂ → g.run n stage t s₁ = some (t', s₁') →
    ∃ s₂', g.run n stage t s₂ = some (t', s₂') ∧ R s₁' s₂'

theorem Program.Blind.eval {α : Type} {p : Program α} (hp : p.Blind) (hR : Store.Minting R) (hg : g.Blind n R)
    (hs : R s₁ s₂) {a : α} (he : p.eval (g.run n) s₁ = some (a, s₁')) :
    ∃ s₂', p.eval (g.run n) s₂ = some (a, s₂') ∧ R s₁' s₂' := by
  induction p generalizing s₁ s₂ with
  | done b =>
    obtain ⟨rfl, rfl⟩ := by simpa [Program.eval] using he
    exact ⟨s₂, rfl, hs⟩
  | run stage text next ih =>
    rw [Program.eval] at he
    split at he
    · next t mid hrun =>
      obtain ⟨mid₂, hrun₂, hmid⟩ := hg stage hp.1 _ _ _ _ _ hs hrun
      obtain ⟨s₂', he₂, hs'⟩ := ih t (hp.2 t) hmid he
      exact ⟨s₂', by simpa [Program.eval, hrun₂] using he₂, hs'⟩
    · contradiction
  | mint value next ih =>
    have htoken : (s₂.mint value).1 = (s₁.mint value).1 := by simp only [Store.mint, hR.size _ _ hs]
    rw [Program.eval] at he ⊢
    rw [htoken]
    exact ih _ (hp _) (hR.mint _ _ value hs) he
  | inspect next ih => exact hp.elim

theorem saturate_blind {m : Matcher} {f : Match → Program (Option Text)} (hf : ∀ m, (f m).Blind)
    (hR : Store.Minting R) (hg : g.Blind n R) (fuel : Nat) {behind ahead : Text} (hs : R s₁ s₂)
    (he : saturate (g.run n) m f fuel behind ahead s₁ = some (t', s₁')) :
    ∃ s₂', saturate (g.run n) m f fuel behind ahead s₂ = some (t', s₂') ∧ R s₁' s₂' := by
  induction fuel generalizing behind ahead s₁ s₂ with
  | zero => simp [saturate] at he
  | succ fuel ih =>
    rw [saturate] at he
    simp only [saturate]
    cases hfind : m.find behind ahead with
    | none =>
      obtain ⟨rfl, rfl⟩ := by simpa [hfind] using he
      exact ⟨s₂, rfl, hs⟩
    | some found =>
      simp only [hfind] at he ⊢
      cases hp : (f found).eval (g.run n) s₁ with
      | none => simp [hp] at he
      | some r =>
        obtain ⟨replacement, mid⟩ := r
        obtain ⟨mid₂, hp₂, hmid⟩ := (hf found).eval hR hg hs hp
        simp only [hp, hp₂] at he ⊢
        cases hk : replacement.filter (· ≠ found.whole) with
        | some new =>
          simp only [hk] at he ⊢
          exact ih hmid he
        | none =>
          simp only [hk] at he ⊢
          cases hres : found.resume with
          | none =>
            obtain ⟨rfl, rfl⟩ := by simpa [hres] using he
            exact ⟨mid₂, rfl, hmid⟩
          | some next =>
            simp only [hres] at he ⊢
            exact ih hmid he

theorem Rule.Blind.apply {r : Rule} (hr : r.Blind) (hR : Store.Minting R) (hg : g.Blind n R) (fuel : Nat)
    (hs : R s₁ s₂) (he : r.apply (g.run n) fuel t s₁ = some (t', s₁')) :
    ∃ s₂', r.apply (g.run n) fuel t s₂ = some (t', s₂') ∧ R s₁' s₂' := by
  obtain ⟨name, action⟩ := r
  cases action with
  | pattern m f => exact saturate_blind hr hR hg fuel hs he
  | transform change =>
    simp only [Rule.apply] at he ⊢
    cases hp : (change t).eval (g.run n) s₁ with
    | none => simp [hp] at he
    | some r =>
      obtain ⟨result, mid⟩ := r
      obtain ⟨mid₂, hp₂, hmid⟩ := (hr t).eval hR hg hs hp
      obtain ⟨rfl, rfl⟩ := by simpa [hp] using he
      exact ⟨mid₂, by simp [hp₂], hmid⟩

theorem applyAll_blind {rules : List Rule} (hr : ∀ r ∈ rules, r.Blind) (hR : Store.Minting R) (hg : g.Blind n R)
    (fuel : Nat) (hs : R s₁ s₂) (he : applyAll (g.run n) fuel rules t s₁ = some (t', s₁')) :
    ∃ s₂', applyAll (g.run n) fuel rules t s₂ = some (t', s₂') ∧ R s₁' s₂' := by
  induction rules generalizing t s₁ s₂ with
  | nil =>
    obtain ⟨rfl, rfl⟩ := by simpa [applyAll] using he
    exact ⟨s₂, rfl, hs⟩
  | cons r rules ih =>
    rw [applyAll] at he ⊢
    split at he
    · next u mid hu =>
      obtain ⟨mid₂, hu₂, hmid⟩ := (hr r List.mem_cons_self).apply hR hg fuel hs hu
      simp only [hu₂]
      exact ih (fun q hq => hr q (List.mem_cons_of_mem _ hq)) hmid he
    · contradiction

/-- When no rule of the stages but the document's looks into the store, no run of them does. -/
theorem Grammar.blind_of_rules (h : ∀ stage, stage ≠ .document → ∀ r ∈ g.rules stage, r.Blind) (hR : Store.Minting R)
    (n : Nat) : g.Blind n R := by
  induction n with
  | zero =>
    intro _ _ _ _ _ _ _ _ he
    simp [Grammar.run] at he
  | succ n ih =>
    intro stage hs t s₁ s₂ t' s₁' hstores he
    exact applyAll_blind (h stage hs) hR ih n hstores he

theorem Grammar.AppliesAll.blind {rules : List Rule} (h : g.AppliesAll rules t s₁ t' s₁') (hr : ∀ r ∈ rules, r.Blind)
    (hg : ∀ stage, stage ≠ .document → ∀ r ∈ g.rules stage, r.Blind) (hR : Store.Minting R) (hs : R s₁ s₂) :
    ∃ s₂', g.AppliesAll rules t s₂ t' s₂' ∧ R s₁' s₂' := by
  obtain ⟨n, hn⟩ := h
  obtain ⟨s₂', hrun, hs'⟩ := applyAll_blind hr hR (blind_of_rules hg hR n) n hs hn
  exact ⟨s₂', ⟨n, hrun⟩, hs'⟩

end Markup
