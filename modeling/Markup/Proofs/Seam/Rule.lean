import Markup.Proofs.Ends
import Markup.Proofs.Seam.Lines
import Markup.Proofs.Seam.Walk

/-! # Rules on both sides of a seam

A pattern rule whose matcher sees the two sides of a seam apart first comes to an end on the left and then on the right,
as if it ran over one after the other. -/
namespace Markup
open Grammar
variable {g : Grammar} {m : Matcher} {f : Match → Program (Option Text)}

/-- The rounds of a pattern rule, none of which declines its match. -/
inductive Grammar.Rounds (g : Grammar) (m : Matcher) (f : Match → Program (Option Text)) :
    Text → Store → Text → Store → Prop
  | done {t : Text} {s : Store} (h : m.find [] t = none) : Rounds g m f t s t s
  | step {t new out : Text} {s mid s' : Store} {found : Match} (h : m.find [] t = some found)
    (he : g.Evaluates (f found) s (some new) mid) (hne : new ≠ found.whole)
    (next : Rounds g m f (found.replaceBy new) mid out s') : Rounds g m f t s out s'

namespace Rule

theorem Progresses.saturates_iff (hp : Progresses g m f) {t out : Text} {s s' : Store} :
    g.Saturates m f t s out s' ↔ g.Rounds m f t s out s' := by
  constructor
  · rintro ⟨n, h⟩
    suffices ∀ k t s, saturate (g.run n) m f k [] t s = some (out, s') → g.Rounds m f t s out s' from this n t s h
    intro k
    induction k with
    | zero =>
      intro t s h
      simp [saturate] at h
    | succ k ih =>
      intro t s h
      rw [saturate] at h
      cases hf : m.find [] t with
      | none =>
        obtain ⟨rfl, rfl⟩ := by simpa [hf] using h
        exact .done hf
      | some found =>
        simp only [hf] at h
        cases he : (f found).eval (g.run n) s with
        | none => simp [he] at h
        | some r =>
          obtain ⟨r, mid⟩ := r
          obtain ⟨new, rfl, hne⟩ := hp.of_evaluates hf ⟨n, he⟩
          have hkeep : (some new).filter (· ≠ found.whole) = some new := by simp [Option.filter, hne]
          simp only [he, hkeep] at h
          exact .step hf ⟨n, he⟩ hne (ih _ _ h)
  · intro h
    induction h with
    | done h => exact saturates_done h _
    | step h he hne _ ih => exact (saturates_step h he hne).2 ih

/-- Whatever a match is replaced by, the text stays within `P`. -/
def Keeps (g : Grammar) (m : Matcher) (f : Match → Program (Option Text)) (P : Text → Prop) : Prop :=
  ∀ t found s new s', P t → m.find [] t = some found → g.Evaluates (f found) s (some new) s' → P (found.replaceBy new)

/-- The rule does to two texts with a seam between them what it does to the left one and then to the right one. -/
def Seam (g : Grammar) (L R : Text → Prop) (r : Rule) : Prop :=
  ∀ a b s a' mid b' s', L a → R b → g.Applies r a s a' mid → g.Applies r b mid b' s' →
    g.Applies r (a ++ '\n' :: b) s (a' ++ '\n' :: b') s' ∧ L a' ∧ R b'

/-- The replacement does not look beyond the match. -/
def Narrow (f : Match → Program (Option Text)) : Prop :=
  ∀ found behind after, f { found with behind := behind, after := after } = f found

section
variable {name : String} {L R : Text → Prop}

theorem rounds_right (hn : Narrow f) (hm : ∀ a b, L a → R b → m.Seam a b) (right : Keeps g m f R) {a b b' : Text}
    {s s' : Store} (ha : L a) (hfa : m.find [] a = none) (hb : R b) (h : g.Rounds m f b s b' s') :
    g.Rounds m f (a ++ '\n' :: b) s (a ++ '\n' :: b') s' ∧ R b' := by
  induction h with
  | @done b s h =>
    have hfind : m.find [] (a ++ '\n' :: b) = none := by rw [hm a b ha hb, hfa, h]; rfl
    exact ⟨.done hfind, hb⟩
  | @step b new _ s mid _ found h he hne _ ih =>
    have hfind : m.find [] (a ++ '\n' :: b) = some (found.shift ('\n' :: a.reverse)) := by
      rw [hm a b ha hb, hfa, h]; rfl
    have heval : g.Evaluates (f (found.shift ('\n' :: a.reverse))) s (some new) mid := by
      rw [← hn found found.behind found.after] at he
      exact (hn found _ _).symm ▸ he
    obtain ⟨next, hout⟩ := ih (right _ _ _ _ _ hb h he)
    refine ⟨.step hfind heval hne ?_, hout⟩
    rw [Match.replaceBy_shift]
    simpa using next

theorem rounds_seam (hn : Narrow f) (hm : ∀ a b, L a → R b → m.Seam a b) (left : Keeps g m f L) (right : Keeps g m f R)
    {a b a' b' : Text} {s mid s' : Store} (ha : L a) (hb : R b) (h : g.Rounds m f a s a' mid)
    (h' : g.Rounds m f b mid b' s') : g.Rounds m f (a ++ '\n' :: b) s (a' ++ '\n' :: b') s' ∧ L a' ∧ R b' := by
  induction h with
  | done h =>
    obtain ⟨hr, hb'⟩ := rounds_right hn hm right ha h hb h'
    exact ⟨hr, ha, hb'⟩
  | @step a new _ s mid _ found h he hne _ ih =>
    have hfind : m.find [] (a ++ '\n' :: b) = some (found.extend ('\n' :: b)) := by
      rw [hm a b ha hb, h]; rfl
    have heval : g.Evaluates (f (found.extend ('\n' :: b))) s (some new) mid := (hn found _ _).symm ▸ he
    obtain ⟨next, hout⟩ := ih (left _ _ _ _ _ ha h he) h'
    refine ⟨.step hfind heval hne ?_, hout⟩
    rw [Match.replaceBy_extend]
    exact next

theorem seam_of_keeps (hp : Progresses g m f) (hn : Narrow f) (hm : ∀ a b, L a → R b → m.Seam a b)
    (left : Keeps g m f L) (right : Keeps g m f R) : (pattern name m f).Seam g L R := by
  intro a b s a' mid b' s' ha hb h h'
  rw [applies_pattern, hp.saturates_iff] at h h' ⊢
  exact rounds_seam hn hm left right ha hb h h'

end
end Rule

/-- Whatever text the program answers with is in `P`. -/
def Program.Yields (g : Grammar) (P : Text → Prop) (p : Program (Option Text)) : Prop :=
  ∀ s new s', g.Evaluates p s (some new) s' → P new

namespace Program
variable {P : Text → Prop} {p : Text → Program (Option Text)} {v : Text}

theorem yields_pure (h : P v) : Yields g P (pure (some v)) := by
  intro s new s' he
  obtain ⟨hv, -⟩ := evaluates_pure_iff.1 he
  exact Option.some.inj hv ▸ h

theorem yields_none : Yields g P (pure none) := by
  intro s new s' he
  obtain ⟨hv, -⟩ := evaluates_pure_iff.1 he
  contradiction

theorem yields_hide (h : ∀ n, Yields g P (p (Token.ofId n))) : Yields g P (hide v >>= p) := by
  intro s new s' he
  exact h s.size _ _ _ (evaluates_hide_bind.1 he)

theorem yields_rerun {stage : Stage} (h : ∀ t, Yields g P (p t)) : Yields g P (rerun stage v >>= p) := by
  intro s new s' he
  obtain ⟨out, mid, -, he⟩ := evaluates_rerun_bind.1 he
  exact h out _ _ _ he

theorem yields_token (hP : ∀ n, P (Token.ofId n)) : Yields g P (some <$> hide v) := by
  rw [map_eq_pure_bind]
  exact yields_hide fun n => yields_pure (hP n)

end Program

namespace Rule
open Text
variable {name : String}

theorem seam_of_stamped (hp : Progresses g m f) (hn : Narrow f) (hm : ∀ a b, Paused a → Opens b → m.Seam a b)
    (round : ∀ t found, m.find [] t = some found → found.text = t ∧ found.whole ≠ [] ∧
      found.whole.getLast? ≠ some '\n' ∧ (f found).Yields g Stamped) : (pattern name m f).Seam g Paused Opens := by
  refine seam_of_keeps hp hn hm (fun t found s new s' ht hf he => ?_) fun t found s new s' ht hf he => ?_
  · obtain ⟨rfl, hne, hlast, hy⟩ := round t found hf
    rw [Match.replaceBy_eq]
    exact ⟨getLast?_replace ht.last hne hlast new, ht.tame.replace (hy _ _ _ he)⟩
  · obtain ⟨rfl, -, -, hy⟩ := round t found hf
    rw [Match.replaceBy_eq]
    exact ht.replace (hy _ _ _ he)

theorem seam_of_inLine {p : Pattern} (hl : p.inLine false = true) (hs : 1 ≤ p.size)
    (hp : Progresses g p.matcher f) (hn : Narrow f) (round : ∀ t found, p.matcher.find [] t = some found →
      '\n' ∉ found.whole → (f found).Yields g Stamped) : (pattern name p.matcher f).Seam g Paused Opens := by
  refine seam_of_stamped hp hn (fun a b _ _ => Pattern.matcher_seam_of_inLine hl a b) fun t found hf => ?_
  obtain ⟨ht, caps, htakes, -⟩ := Pattern.takes_of_find hf
  have hbreak := Pattern.newline_not_mem_of_takes hl htakes
  have hsize := Pattern.size_le_of_takes htakes
  exact ⟨ht, List.ne_nil_of_length_pos (by omega), fun h => hbreak (List.mem_of_getLast? h), round t found hf hbreak⟩

/-- The rule puts tokens in the place of whole lines. -/
def HidesLines (g : Grammar) (r : Rule) : Prop :=
  ∀ m f, r.action = .pattern m f → ∀ t found, m.find [] t = some found → found.text = t ∧ Starts found.before ∧
    (found.after.head?.all (· == '\n') = true ∨ Starts found.whole) ∧
    (f found).Yields g fun new => ∃ n, new = Token.ofId n

theorem hidesLines_pattern (h : ∀ t found, m.find [] t = some found → found.text = t ∧ Starts found.before ∧
      (found.after.head?.all (· == '\n') = true ∨ Starts found.whole) ∧
      (f found).Yields g fun new => ∃ n, new = Token.ofId n) : (pattern name m f).HidesLines g := by
  intro _ _ ha
  obtain ⟨rfl, rfl⟩ := Action.pattern.inj ha
  exact h

theorem seam_of_token (hp : Progresses g m f) (hn : Narrow f) (hm : ∀ a b, Settled a → Opens b → m.Seam a b)
    (hl : (pattern name m f).HidesLines g) : (pattern name m f).Seam g Settled Opens := by
  have round := hl m f rfl
  refine seam_of_keeps hp hn hm (fun t found s new s' ht hf he => ?_) fun t found s new s' ht hf he => ?_
  · obtain ⟨rfl, hstart, hstop, hy⟩ := round t found hf
    obtain ⟨n, rfl⟩ := hy _ _ _ he
    rw [Match.replaceBy_eq]
    exact ⟨ht.closed.replace hstart hstop n, ht.tame.replace (stamped_ofId n)⟩
  · obtain ⟨rfl, -, -, hy⟩ := round t found hf
    obtain ⟨n, rfl⟩ := hy _ _ _ he
    rw [Match.replaceBy_eq]
    exact ht.replace (stamped_ofId n)

end Rule
end Markup
