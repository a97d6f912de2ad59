import Markup.Proofs.Ends
import Markup.Proofs.Script.Same

/-! # Runs over texts that mean the same

Two runs over texts that mean the same go through the same rounds, so their results mean the same again. The first run
is taken with its fuel, the second one only has to exist. -/
namespace Markup
open Script Grammar

variable {g : Grammar} {n : Nat} {P : Script → Prop} {s₁ s₂ : Store} {x y : Text}

/-- What the stages answer to the first of two texts that mean the same, some run answers to the second. -/
def Grammar.Twin (g : Grammar) (n : Nat) : Prop :=
  ∀ stage, stage ≠ .document → ∀ b s₁ s₂ x y x' s₁', Same (Filled b) s₁ s₂ x y → g.run n stage x s₁ = some (x', s₁') →
    ∃ y' s₂', g.Runs stage y s₂ y' s₂' ∧ s₁.Le s₁' ∧ s₂.Le s₂' ∧ Same (Filled b) s₁' s₂' x' y'

/-- When the first program ends, so does the second one, and `R` holds of the stores and the results. -/
def Program.Follows {α : Type} (g : Grammar) (n : Nat) (R : Store → Store → α → α → Prop) (p q : Program α)
    (s₁ s₂ : Store) : Prop :=
  ∀ a s₁', p.eval (g.run n) s₁ = some (a, s₁') →
    ∃ b s₂', g.Evaluates q s₂ b s₂' ∧ s₁.Le s₁' ∧ s₂.Le s₂' ∧ R s₁' s₂' a b

namespace Program
variable {α : Type} {R : Store → Store → α → α → Prop} {p q : Text → Program α}

theorem follows_pure {a b : α} (h : R s₁ s₂ a b) : Follows g n R (pure a) (pure b) s₁ s₂ := by
  rintro a' s₁' he
  obtain ⟨rfl, rfl⟩ := by simpa using he
  exact ⟨b, s₂, evaluates_pure b s₂, .refl _, .refl _, h⟩

/-- Two tokens minted for what means the same are linked. -/
theorem follows_mint (h : Same (Filled True) s₁ s₂ x y)
    (hp : ∀ i s₁' s₂', s₁.Le s₁' → s₂.Le s₂' → Linked s₁' s₂' i →
      Follows g n R (p (Token.ofId i.1)) (q (Token.ofId i.2)) s₁' s₂') :
    Follows g n R (hide x >>= p) (hide y >>= q) s₁ s₂ := by
  intro a s₁' he
  obtain ⟨k, hk, hknown, rfl, rfl⟩ := h
  have hlink := Twins.linked_mint ⟨hk.1, hknown⟩ (hk.2 trivial)
  have h₁ := s₁.le_mint (spell Prod.fst k)
  have h₂ := s₂.le_mint (spell Prod.snd k)
  obtain ⟨b, s₂', hq, hle₁, hle₂, hr⟩ := hp _ _ _ h₁ h₂ hlink a s₁' he
  exact ⟨b, s₂', evaluates_hide_bind.2 hq, h₁.trans hle₁, h₂.trans hle₂, hr⟩

theorem follows_hide (h : Same (Filled True) s₁ s₂ x y)
    (hp : ∀ t u s₁' s₂', s₁.Le s₁' → s₂.Le s₂' → Same Solid s₁' s₂' t u → Follows g n R (p t) (q u) s₁' s₂') :
    Follows g n R (hide x >>= p) (hide y >>= q) s₁ s₂ :=
  follows_mint h fun _ _ _ h₁ h₂ hi => hp _ _ _ _ h₁ h₂ (same_token hi)

theorem follows_rerun (hg : g.Twin n) {stage : Stage} (hs : stage ≠ .document) {b : Prop}
    (h : Same (Filled b) s₁ s₂ x y)
    (hp : ∀ t u s₁' s₂', s₁.Le s₁' → s₂.Le s₂' → Same (Filled b) s₁' s₂' t u → Follows g n R (p t) (q u) s₁' s₂') :
    Follows g n R (rerun stage x >>= p) (rerun stage y >>= q) s₁ s₂ := by
  intro a s₁' he
  rw [eval_bind, rerun, eval] at he
  cases hr : g.run n stage x s₁ with
  | none => simp [hr] at he
  | some r =>
    obtain ⟨t, mid₁⟩ := r
    rw [hr] at he
    obtain ⟨u, mid₂, hrun, h₁, h₂, hsame⟩ := hg stage hs b s₁ s₂ x y t mid₁ h hr
    obtain ⟨c, s₂', hq, hle₁, hle₂, hrel⟩ := hp t u mid₁ mid₂ h₁ h₂ hsame a s₁' he
    exact ⟨c, s₂', evaluates_rerun_bind.2 ⟨u, mid₂, hrun, hq⟩, h₁.trans hle₁, h₂.trans hle₂, hrel⟩

end Program

/-- The rule turns texts that mean the same into such texts, within `P`. -/
def Rule.Twin (g : Grammar) (n : Nat) (P : Script → Prop) (r : Rule) : Prop :=
  ∀ fuel s₁ s₂ x y x' s₁', Same P s₁ s₂ x y → r.apply (g.run n) fuel x s₁ = some (x', s₁') →
    ∃ y' s₂', g.Applies r y s₂ y' s₂' ∧ s₁.Le s₁' ∧ s₂.Le s₂' ∧ Same P s₁' s₂' x' y'

namespace Rule
variable {name : String} {m : Matcher} {f : Match → Program (Option Text)}

/-- In the two spellings of a script the matcher finds the same match, and what takes its place means the same. Of the
rest of the script nothing is asked but that it is within `P`. -/
structure Round (g : Grammar) (n : Nat) (P : Script → Prop) (m : Matcher)
    (f : Match → Program (Option Text)) : Prop where
  matcher : m.Twin P
  progress : Progresses g m f
  follows : ∀ s₁ s₂ (k : Script.Match), k.Cuts k.text → m.find [] (spell Prod.fst k.text) = some (k.spell Prod.fst) →
    m.find [] (spell Prod.snd k.text) = some (k.spell Prod.snd) → P k.text → Known s₁ s₂ k.whole →
    Program.Follows g n (fun s₁ s₂ => Option.Rel (Same (fun new => P (k.before ++ new ++ k.after)) s₁ s₂))
      (f (k.spell Prod.fst)) (f (k.spell Prod.snd)) s₁ s₂

/-- The two runs find the same matches, so it is enough to follow one round. -/
theorem Round.twin (h : Round g n P m f) : (pattern name m f).Twin g n P := by
  obtain ⟨hm, hp, round⟩ := h
  intro fuel
  induction fuel with
  | zero =>
    intro _ _ _ _ _ _ _ he
    simp [pattern, apply, saturate] at he
  | succ fuel ih =>
    intro s₁ s₂ x y x' s₁' hxy he
    obtain ⟨h, hP, hknown, rfl, rfl⟩ := hxy
    simp only [pattern, apply] at he ih
    rw [saturate] at he
    rcases hm h hP with ⟨h₁, h₂⟩ | ⟨k, hk, h₁, h₂⟩
    · rw [h₁] at he
      obtain ⟨rfl, rfl⟩ := by simpa using he
      exact ⟨_, s₂, saturates_done h₂ s₂, .refl _, .refl _, h, hP, hknown, rfl, rfl⟩
    · obtain rfl := hk.text
      simp only [h₁] at he
      cases hf : (f (k.spell Prod.fst)).eval (g.run n) s₁ with
      | none => simp [hf] at he
      | some r =>
        obtain ⟨r, mid₁⟩ := r
        have hwhole : Known s₁ s₂ k.whole := hknown.part (.of_slice k.whole_infix)
        obtain ⟨r', mid₂, hq, hle₁, hle₂, hrel⟩ := round s₁ s₂ k hk h₁ h₂ hP hwhole r mid₁ hf
        obtain ⟨new₁, rfl, hne₁⟩ := hp.of_evaluates h₁ ⟨n, hf⟩
        obtain ⟨new₂, rfl, hne₂⟩ := hp.of_evaluates h₂ hq
        obtain ⟨new, hPnew, hnew, rfl, rfl⟩ : Same _ mid₁ mid₂ new₁ new₂ := by
          cases hrel with
          | some h => exact h
        have hfilter : (some (spell Prod.fst new)).filter (· ≠ (k.spell Prod.fst).whole) =
            some (spell Prod.fst new) := by
          simp [Option.filter, hne₁]
        simp only [hf, hfilter, Script.Match.replaceBy_spell] at he
        have hpart {w : Script} (hw : w <:+: k.text) : Known mid₁ mid₂ w := (hknown.part (.of_slice hw)).mono hle₁ hle₂
        have hsame : Same P mid₁ mid₂ (spell Prod.fst (k.before ++ new ++ k.after))
            (spell Prod.snd (k.before ++ new ++ k.after)) :=
          ⟨_, hPnew, ((hpart k.before_infix).append hnew).append
            (hpart k.after_infix), rfl, rfl⟩
        obtain ⟨y', s₂', hsat, h₁', h₂', hres⟩ := ih _ _ _ _ _ _ hsame he
        rw [← Script.Match.replaceBy_spell] at hsat
        exact ⟨y', s₂', (saturates_step h₂ hq hne₂).2 hsat, hle₁.trans h₁', hle₂.trans h₂', hres⟩

/-- The rounds of the rule mean the same over texts that do. -/
def Tracks (g : Grammar) (n : Nat) (P : Script → Prop) (r : Rule) : Prop :=
  ∃ m f, r.action = .pattern m f ∧ Round g n P m f

theorem Round.tracks (h : Round g n P m f) : (pattern name m f).Tracks g n P := ⟨m, f, rfl, h⟩

theorem Tracks.round (h : (pattern name m f).Tracks g n P) : Round g n P m f := by
  obtain ⟨m', f', ha, hround⟩ := h
  obtain ⟨rfl, rfl⟩ := Action.pattern.inj ha
  exact hround

theorem Tracks.twin {r : Rule} (h : r.Tracks g n P) : r.Twin g n P := by
  obtain ⟨name, action⟩ := r
  obtain ⟨m, f, ha, hround⟩ := h
  obtain rfl : action = .pattern m f := ha
  exact hround.twin

theorem tracks_of_solid {b : Prop} (hm : m.Twin fun _ => True) (hp : Progresses g m f)
    (round : ∀ s₁ s₂ m₁ m₂, m.find [] m₁.text = some m₁ → m₁.Like s₁ s₂ m₂ →
      Program.Follows g n (fun s₁ s₂ => Option.Rel (Same Solid s₁ s₂)) (f m₁) (f m₂) s₁ s₂) :
    (pattern name m f).Tracks g n (Filled b) := by
  refine Round.tracks ⟨fun h _ => hm h trivial, hp, fun s₁ s₂ k hk h₁ _ hP hknown => ?_⟩
  have hlike := Markup.Match.like_of_cuts hk ⟨hP.1.slice k.whole_infix, hknown⟩
  intro r mid₁ he
  obtain ⟨r', mid₂, hq, hle₁, hle₂, hrel⟩ := round s₁ s₂ _ _ (k.text_spell Prod.fst ▸ h₁) hlike r mid₁ he
  refine ⟨r', mid₂, hq, hle₁, hle₂, ?_⟩
  cases hrel with
  | none => exact .none
  | some h => exact .some (h.imp fun new hnew =>
      ⟨hnew _ _ (hP.1.slice k.before_infix) (hP.1.slice k.after_infix), fun _ => by simp [hnew.ne_nil]⟩)

theorem twin_stage (hg : g.Twin n) {stage : Stage} (hs : stage ≠ .document) {b : Prop} :
    (Rule.stage name stage).Twin g n (Filled b) := by
  intro fuel s₁ s₂ x y x' s₁' hxy he
  have hfollows : Program.Follows g n (fun s₁ s₂ => Option.Rel (Same (Filled b) s₁ s₂)) (some <$> Program.rerun stage x)
      (some <$> Program.rerun stage y) s₁ s₂ := by
    rw [map_eq_pure_bind, map_eq_pure_bind]
    exact Program.follows_rerun hg hs hxy fun t u _ _ _ _ h => Program.follows_pure (.some h)
  simp only [Rule.stage, transform, apply] at he
  cases hp : (some <$> Program.rerun stage x).eval (g.run n) s₁ with
  | none => simp [hp] at he
  | some r =>
    obtain ⟨r, mid₁⟩ := r
    obtain ⟨r', s₂', hq, h₁, h₂, hrel⟩ := hfollows r mid₁ hp
    obtain ⟨rfl, rfl⟩ := by simpa [hp] using he
    refine ⟨_, s₂', applies_transform.2 ⟨r', hq, rfl⟩, h₁, h₂, ?_⟩
    cases hrel with
    | none => exact hxy.mono h₁ h₂
    | @some t u h =>
      by_cases ht : t = []
      · simpa [Option.filter, ht, h.eq_nil_iff.1 ht] using hxy.mono h₁ h₂
      · simpa [Option.filter, ht, h.eq_nil_iff.not.1 ht] using h

end Rule

theorem Grammar.twin_of_rules {rules : List Rule} (h : ∀ r ∈ rules, r.Twin g n P) (fuel : Nat) {x' : Text} {s₁' : Store}
    (hxy : Same P s₁ s₂ x y) (he : applyAll (g.run n) fuel rules x s₁ = some (x', s₁')) :
    ∃ y' s₂', g.AppliesAll rules y s₂ y' s₂' ∧ s₁.Le s₁' ∧ s₂.Le s₂' ∧ Same P s₁' s₂' x' y' := by
  induction rules generalizing x y s₁ s₂ with
  | nil =>
    obtain ⟨rfl, rfl⟩ := by simpa [applyAll] using he
    exact ⟨y, s₂, appliesAll_nil, .refl _, .refl _, hxy⟩
  | cons r rules ih =>
    rw [applyAll] at he
    split at he
    · next t mid₁ hr =>
      obtain ⟨u, mid₂, hu, hle₁, hle₂, hsame⟩ := h r List.mem_cons_self _ _ _ _ _ _ _ hxy hr
      obtain ⟨y', s₂', hy, h₁, h₂, hres⟩ := ih (fun q hq => h q (List.mem_cons_of_mem _ hq)) hsame he
      exact ⟨y', s₂', appliesAll_cons.2 ⟨u, mid₂, hu, hy⟩, hle₁.trans h₁, hle₂.trans h₂, hres⟩
    · contradiction

end Markup
