import Markup.Grammar

/-! # Runs with enough fuel

More fuel never changes an answer. So a run may be taken apart into requests, rounds and rules that each come with
fuel of their own, and put together again; the relations below forget the fuel. -/
namespace Markup

/-- `b` answers whatever `a` answers. -/
def Answer.Le (a b : Answer) : Prop := ∀ stage t s r, a stage t s = some r → b stage t s = some r

theorem Program.eval_mono {α : Type} {a b : Answer} (h : a.Le b) (p : Program α) {s : Store} {r : α × Store}
    (he : p.eval a s = some r) : p.eval b s = some r := by
  induction p generalizing s with
  | done x => exact he
  | run stage t next ih =>
    rw [eval] at he ⊢
    cases ha : a stage t s with
    | none => simp [ha] at he
    | some x =>
      rw [ha] at he
      rw [h _ _ _ _ ha]
      exact ih _ he
  | mint v next ih => exact ih _ he
  | inspect next ih => exact ih _ he

theorem saturate_mono {a b : Answer} (h : a.Le b) {m : Matcher} {f : Match → Program (Option Text)} {n k : Nat}
    (hn : n ≤ k) {behind ahead : Text} {s : Store} {r : Text × Store}
    (he : saturate a m f n behind ahead s = some r) : saturate b m f k behind ahead s = some r := by
  induction n generalizing k behind ahead s with
  | zero => simp [saturate] at he
  | succ n ih =>
    obtain ⟨k, rfl⟩ : ∃ j, k = j + 1 := ⟨k - 1, by omega⟩
    have hk : n ≤ k := by omega
    rw [saturate] at he ⊢
    cases hf : m.find behind ahead with
    | none => simpa [hf] using he
    | some found =>
      simp only [hf] at he ⊢
      cases hp : (f found).eval a s with
      | none => simp [hp] at he
      | some x =>
        simp only [hp] at he
        simp only [Program.eval_mono h _ hp]
        split at he
        · exact ih hk he
        · split at he
          · next hr => simpa [hr] using ih hk he
          · next hr => simpa [hr] using he

theorem Rule.apply_mono {a b : Answer} (h : a.Le b) {n k : Nat} (hn : n ≤ k) (r : Rule) {t : Text} {s : Store}
    {x : Text × Store} (he : r.apply a n t s = some x) : r.apply b k t s = some x := by
  unfold Rule.apply at he ⊢
  split at he
  · exact saturate_mono h hn he
  · next change _ =>
    cases hp : (change t).eval a s with
    | none => simp [hp] at he
    | some y =>
      rw [Program.eval_mono h _ hp]
      simpa [hp] using he

theorem applyAll_mono {a b : Answer} (h : a.Le b) {n k : Nat} (hn : n ≤ k) {rules : List Rule} {t : Text} {s : Store}
    {x : Text × Store} (he : applyAll a n rules t s = some x) : applyAll b k rules t s = some x := by
  induction rules generalizing t s with
  | nil => exact he
  | cons r rules ih =>
    rw [applyAll] at he ⊢
    cases hr : r.apply a n t s with
    | none => simp [hr] at he
    | some y =>
      rw [r.apply_mono h hn hr]
      exact ih (by simpa [hr] using he)

namespace Grammar
variable {g : Grammar}

theorem run_mono (g : Grammar) {n k : Nat} (hn : n ≤ k) : Answer.Le (g.run n) (g.run k) := by
  induction n generalizing k with
  | zero => intro _ _ _ _ h; simp [run] at h
  | succ n ih =>
    obtain ⟨k, rfl⟩ : ∃ j, k = j + 1 := ⟨k - 1, by omega⟩
    intro stage t s r h
    have hk : n ≤ k := by omega
    exact applyAll_mono (ih hk) hk h

def Evaluates {α : Type} (g : Grammar) (p : Program α) (s : Store) (a : α) (s' : Store) : Prop :=
  ∃ fuel, p.eval (g.run fuel) s = some (a, s')

def Saturates (g : Grammar) (m : Matcher) (f : Match → Program (Option Text)) (t : Text) (s : Store) (t' : Text)
    (s' : Store) : Prop :=
  ∃ fuel, saturate (g.run fuel) m f fuel [] t s = some (t', s')

def Applies (g : Grammar) (r : Rule) (t : Text) (s : Store) (t' : Text) (s' : Store) : Prop :=
  ∃ fuel, r.apply (g.run fuel) fuel t s = some (t', s')

def AppliesAll (g : Grammar) (rules : List Rule) (t : Text) (s : Store) (t' : Text) (s' : Store) : Prop :=
  ∃ fuel, g.runRules fuel rules t s = some (t', s')

theorem evaluates_pure {α : Type} (a : α) (s : Store) : g.Evaluates (pure a) s a s := ⟨0, rfl⟩

theorem evaluates_bind {α β : Type} {p : Program α} {f : α → Program β} {s : Store} {b : β} {s' : Store} :
    g.Evaluates (p >>= f) s b s' ↔ ∃ a mid, g.Evaluates p s a mid ∧ g.Evaluates (f a) mid b s' := by
  constructor
  · rintro ⟨fuel, h⟩
    rw [Program.eval_bind, Option.bind_eq_some_iff] at h
    obtain ⟨⟨a, mid⟩, hp, hf⟩ := h
    exact ⟨a, mid, ⟨fuel, hp⟩, fuel, hf⟩
  · rintro ⟨a, mid, ⟨n, hp⟩, k, hf⟩
    refine ⟨max n k, ?_⟩
    rw [Program.eval_bind, Program.eval_mono (g.run_mono (Nat.le_max_left n k)) _ hp]
    exact Program.eval_mono (g.run_mono (Nat.le_max_right n k)) _ hf

theorem evaluates_rerun {stage : Stage} {t : Text} {s : Store} {out : Text} {s' : Store} :
    g.Evaluates (Program.rerun stage t) s out s' ↔ g.Runs stage t s out s' := by
  constructor
  · rintro ⟨fuel, h⟩
    refine ⟨fuel, ?_⟩
    rw [Program.rerun, Program.eval] at h
    split at h
    · next x y hx => simpa [Program.eval, hx] using h
    · contradiction
  · rintro ⟨fuel, h⟩
    exact ⟨fuel, by simp [Program.rerun, Program.eval, h]⟩

theorem evaluates_hide {v : Text} {s : Store} {t : Text} {s' : Store} :
    g.Evaluates (Program.hide v) s t s' ↔ s.mint v = (t, s') := by
  constructor
  · rintro ⟨_, h⟩
    exact Option.some.inj h
  · intro h
    exact ⟨0, congrArg some h⟩

theorem evaluates_hide_bind {β : Type} {v : Text} {f : Text → Program β} {s : Store} {b : β} {s' : Store} :
    g.Evaluates (Program.hide v >>= f) s b s' ↔ g.Evaluates (f (Token.ofId s.size)) (s.mint v).2 b s' := by
  rw [evaluates_bind]
  constructor
  · rintro ⟨t, mid, h, hf⟩
    obtain ⟨rfl, rfl⟩ := Prod.mk.inj (evaluates_hide.1 h)
    exact hf
  · exact fun hf => ⟨_, _, evaluates_hide.2 rfl, hf⟩

theorem evaluates_hidden (v : Text) (s : Store) :
    g.Evaluates (some <$> Program.hide v) s (some (Token.ofId s.size)) (s.mint v).2 := by
  rw [map_eq_pure_bind, evaluates_hide_bind]
  exact evaluates_pure _ _

theorem evaluates_rerun_bind {β : Type} {stage : Stage} {t : Text} {f : Text → Program β} {s : Store} {b : β}
    {s' : Store} :
    g.Evaluates (Program.rerun stage t >>= f) s b s' ↔
      ∃ out mid, g.Runs stage t s out mid ∧ g.Evaluates (f out) mid b s' := by
  simp only [evaluates_bind, evaluates_rerun]

theorem evaluates_pure_iff {β : Type} {b c : β} {s s' : Store} : g.Evaluates (pure b) s c s' ↔ b = c ∧ s = s' := by
  constructor
  · rintro ⟨_, h⟩
    simpa using h
  · rintro ⟨rfl, rfl⟩
    exact evaluates_pure b s

theorem runs_iff {stage : Stage} {t : Text} {s : Store} {out : Text} {s' : Store} :
    g.Runs stage t s out s' ↔ g.AppliesAll (g.rules stage) t s out s' := by
  constructor
  · rintro ⟨fuel, h⟩
    cases fuel with
    | zero => simp [run] at h
    | succ fuel => exact ⟨fuel, h⟩
  · rintro ⟨fuel, h⟩
    exact ⟨fuel + 1, h⟩

theorem appliesAll_nil {t : Text} {s : Store} : g.AppliesAll [] t s t s := ⟨0, rfl⟩

theorem appliesAll_cons {r : Rule} {rules : List Rule} {t : Text} {s : Store} {out : Text} {s' : Store} :
    g.AppliesAll (r :: rules) t s out s' ↔ ∃ u mid, g.Applies r t s u mid ∧ g.AppliesAll rules u mid out s' := by
  constructor
  · rintro ⟨fuel, h⟩
    rw [runRules, applyAll] at h
    split at h
    · next u mid hr => exact ⟨u, mid, ⟨fuel, hr⟩, fuel, h⟩
    · contradiction
  · rintro ⟨u, mid, ⟨n, hr⟩, k, h⟩
    refine ⟨max n k, ?_⟩
    have hn := Nat.le_max_left n k
    have hk := Nat.le_max_right n k
    rw [runRules, applyAll, r.apply_mono (g.run_mono hn) hn hr]
    exact applyAll_mono (g.run_mono hk) hk h

theorem appliesAll_append {rules more : List Rule} {t : Text} {s : Store} {out : Text} {s' : Store} :
    g.AppliesAll (rules ++ more) t s out s' ↔
      ∃ u mid, g.AppliesAll rules t s u mid ∧ g.AppliesAll more u mid out s' := by
  induction rules generalizing t s with
  | nil =>
    constructor
    · exact fun h => ⟨t, s, appliesAll_nil, h⟩
    · rintro ⟨u, mid, ⟨_, h⟩, h'⟩
      obtain ⟨rfl, rfl⟩ := by simpa [runRules, applyAll] using h
      exact h'
  | cons r rules ih =>
    simp only [List.cons_append, appliesAll_cons, ih]
    constructor
    · rintro ⟨u, mid, hr, v, mid', hu, hv⟩
      exact ⟨v, mid', ⟨u, mid, hr, hu⟩, hv⟩
    · rintro ⟨v, mid', ⟨u, mid, hr, hu⟩, hv⟩
      exact ⟨u, mid, hr, v, mid', hu, hv⟩

theorem AppliesAll.unique {rules : List Rule} {t : Text} {s : Store} {x y : Text} {s₁ s₂ : Store}
    (hx : g.AppliesAll rules t s x s₁) (hy : g.AppliesAll rules t s y s₂) : x = y ∧ s₁ = s₂ := by
  obtain ⟨n, hn⟩ := hx
  obtain ⟨k, hk⟩ := hy
  have hx := applyAll_mono (g.run_mono (Nat.le_max_left n k)) (Nat.le_max_left n k) hn
  have hy := applyAll_mono (g.run_mono (Nat.le_max_right n k)) (Nat.le_max_right n k) hk
  simpa using hx.symm.trans hy

theorem Applies.unique {r : Rule} {t : Text} {s : Store} {x y : Text} {s₁ s₂ : Store} (hx : g.Applies r t s x s₁)
    (hy : g.Applies r t s y s₂) : x = y ∧ s₁ = s₂ :=
  AppliesAll.unique (appliesAll_cons.2 ⟨x, s₁, hx, appliesAll_nil⟩) (appliesAll_cons.2 ⟨y, s₂, hy, appliesAll_nil⟩)

theorem applies_transform {name : String} {change : Text → Program (Option Text)} {t : Text} {s : Store} {out : Text}
    {s' : Store} :
    g.Applies (.transform name change) t s out s' ↔
      ∃ new, g.Evaluates (change t) s new s' ∧ out = (new.filter (· ≠ [])).getD t := by
  constructor
  · rintro ⟨fuel, h⟩
    rw [Rule.apply] at h
    cases hp : (change t).eval (g.run fuel) s with
    | none => simp [Rule.transform, hp] at h
    | some x =>
      obtain ⟨new, mid⟩ := x
      simp only [Rule.transform, hp, Option.some.injEq, Prod.mk.injEq] at h
      obtain ⟨rfl, rfl⟩ := h
      exact ⟨new, ⟨fuel, hp⟩, rfl⟩
  · rintro ⟨new, ⟨fuel, h⟩, rfl⟩
    exact ⟨fuel, by simp [Rule.apply, Rule.transform, h]⟩

theorem getD_filter_ne_nil (t new : Text) : ((some new).filter (· ≠ [])).getD t = if new = [] then t else new := by
  by_cases h : new = [] <;> simp [Option.filter, h]

theorem applies_stage {name : String} {stage : Stage} {t : Text} {s : Store} {out : Text} {s' : Store} :
    g.Applies (.stage name stage) t s out s' ↔
      ∃ new, g.Runs stage t s new s' ∧ out = if new = [] then t else new := by
  rw [Rule.stage, applies_transform]
  simp only [map_eq_pure_bind, evaluates_rerun_bind, evaluates_pure_iff]
  constructor
  · rintro ⟨_, ⟨new, _, hrun, rfl, rfl⟩, rfl⟩
    exact ⟨new, hrun, getD_filter_ne_nil t new⟩
  · rintro ⟨new, hrun, rfl⟩
    exact ⟨some new, ⟨new, s', hrun, rfl, rfl⟩, (getD_filter_ne_nil t new).symm⟩

theorem applies_pattern {name : String} {m : Matcher} {f : Match → Program (Option Text)} {t : Text} {s : Store}
    {out : Text} {s' : Store} : g.Applies (.pattern name m f) t s out s' ↔ g.Saturates m f t s out s' := Iff.rfl

theorem applies_iff {r : Rule} {m : Matcher} {f : Match → Program (Option Text)}
    (ha : r.action = .pattern m f) {t : Text}
    {s : Store} {out : Text} {s' : Store} : g.Applies r t s out s' ↔ g.Saturates m f t s out s' := by
  obtain ⟨name, action⟩ := r
  obtain rfl : action = .pattern m f := ha
  exact applies_pattern

theorem saturates_done {m : Matcher} {f : Match → Program (Option Text)} {t : Text} (h : m.find [] t = none)
    (s : Store) : g.Saturates m f t s t s := ⟨1, by simp [saturate, h]⟩

theorem saturates_step {m : Matcher} {f : Match → Program (Option Text)} {t : Text} {found : Match}
    (h : m.find [] t = some found) {s mid : Store} {new : Text} (he : g.Evaluates (f found) s (some new) mid)
    (hne : new ≠ found.whole) {out : Text} {s' : Store} :
    g.Saturates m f t s out s' ↔ g.Saturates m f (found.replaceBy new) mid out s' := by
  have round {n k : Nat} (hp : (f found).eval (g.run n) s = some (some new, mid)) :
      saturate (g.run n) m f (k + 1) [] t s = saturate (g.run n) m f k [] (found.replaceBy new) mid := by
    have keep : (some new).filter (· ≠ found.whole) = some new := by simp [Option.filter, hne]
    rw [saturate, h]
    simp only [hp, keep]
  obtain ⟨n, hn⟩ := he
  have lift {k : Nat} (hk : n ≤ k) : (f found).eval (g.run k) s = some (some new, mid) :=
    Program.eval_mono (g.run_mono hk) _ hn
  constructor
  · rintro ⟨k, hk⟩
    have hl := Nat.le_max_left n k
    have hr := Nat.le_max_right n k
    refine ⟨max n k, ?_⟩
    rw [← round (lift hl)]
    exact saturate_mono (g.run_mono hr) (by omega) hk
  · rintro ⟨k, hk⟩
    have hl := Nat.le_max_left n k
    have hr := Nat.le_max_right n k
    refine ⟨max n k + 1, ?_⟩
    rw [round (lift (by omega))]
    exact saturate_mono (g.run_mono (by omega)) hr hk

theorem Runs.unique {stage : Stage} {t : Text} {s : Store} {x y : Text} {s₁ s₂ : Store} (hx : g.Runs stage t s x s₁)
    (hy : g.Runs stage t s y s₂) : x = y ∧ s₁ = s₂ := by
  obtain ⟨n, hn⟩ := hx
  obtain ⟨k, hk⟩ := hy
  have hx := g.run_mono (Nat.le_max_left n k) _ _ _ _ hn
  have hy := g.run_mono (Nat.le_max_right n k) _ _ _ _ hk
  simpa using hx.symm.trans hy

theorem Evaluates.unique {α : Type} {p : Program α} {s : Store} {a b : α} {s₁ s₂ : Store} (ha : g.Evaluates p s a s₁)
    (hb : g.Evaluates p s b s₂) : a = b ∧ s₁ = s₂ := by
  obtain ⟨n, hn⟩ := ha
  obtain ⟨k, hk⟩ := hb
  have ha := Program.eval_mono (g.run_mono (Nat.le_max_left n k)) _ hn
  have hb := Program.eval_mono (g.run_mono (Nat.le_max_right n k)) _ hk
  simpa using ha.symm.trans hb

theorem converts_iff {t html : Text} : g.Converts t html ↔ ∃ s, g.Runs .document t .empty html s := by
  simp only [Converts, convert, Runs, Option.map_eq_some_iff]
  constructor
  · rintro ⟨fuel, ⟨x, s⟩, h, rfl⟩
    exact ⟨s, fuel, h⟩
  · rintro ⟨s, fuel, h⟩
    exact ⟨fuel, ⟨html, s⟩, h, rfl⟩

theorem Converts.unique {t x y : Text} (hx : g.Converts t x) (hy : g.Converts t y) : x = y := by
  obtain ⟨_, hx⟩ := converts_iff.1 hx
  obtain ⟨_, hy⟩ := converts_iff.1 hy
  exact (hx.unique hy).1

theorem convertFully_of_some {t html : Text} {fuel : Nat} (h : g.convert fuel t = some html) :
    g.convertFully fuel t = some html := by
  rw [convertFully, repeatM_eq_of_monadTail, repeatM.body, h]
  rfl

theorem convertFully_of_none {t : Text} {fuel : Nat} (h : g.convert fuel t = none) :
    g.convertFully fuel t = g.convertFully (2 * fuel + 1) t := by
  rw [convertFully, repeatM_eq_of_monadTail, repeatM.body, h]
  rfl

/-- A conversion that comes to an end is found with however little fuel the search begins. -/
theorem Converts.convertFully {t html : Text} (h : g.Converts t html) (fuel : Nat) :
    g.convertFully fuel t = some html := by
  obtain ⟨n, hn⟩ := h
  induction hk : n - fuel using Nat.strongRecOn generalizing fuel with
  | ind k ih =>
    cases hc : g.convert fuel t with
    | some x =>
      rw [convertFully_of_some hc]
      exact congrArg some (Converts.unique ⟨fuel, hc⟩ ⟨n, hn⟩)
    | none =>
      have hlt : fuel < n := by
        refine Nat.lt_of_not_le fun hle => ?_
        obtain ⟨r, hr, -⟩ := Option.map_eq_some_iff.1 hn
        simp [convert, g.run_mono hle _ _ _ _ hr] at hc
      rw [convertFully_of_none hc]
      exact ih (n - (2 * fuel + 1)) (by omega) (2 * fuel + 1) rfl

end Grammar
end Markup
