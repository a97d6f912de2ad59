import Markup.Proofs.Rule.Twin
import Markup.Proofs.Script.Hole
import Markup.Proofs.Seam.Apart
import Markup.Proofs.Seam.Rule

/-! # Rules around a hole

The token that carries the hole ends a line of tokens. A rule that takes parts of lines never takes that token, because
what it takes has a character that no token is written with. A rule that takes whole lines may take it, and hides it
behind a token that carries the hole in turn. -/
namespace Markup
open Grammar Script
open Text (Closed Starts Untokened)

/-- The text bears the hole at the end of a line that holds tokens only. -/
def Pierced (P : Script → Prop) (s : Store) (t : Text) : Prop :=
  ∃ a k b, P (a ++ .token (k, k) :: b) ∧ Bearing s a k b t ∧ Closed (spell Prod.fst a) ∧
    (spell Prod.fst b).head?.all (· == '\n') = true

variable {g : Grammar} {P Q : Script → Prop} {s s' : Store} {t t' new : Text} {found : Match}

theorem Pierced.imp (h : Pierced P s t) (hpq : ∀ g, P g → Q g) : Pierced Q s t := by
  obtain ⟨a, k, b, hP, hb⟩ := h
  exact ⟨a, k, b, hpq _ hP, hb⟩

theorem Pierced.bears (h : Pierced P s t) : Bears P s t := by
  obtain ⟨a, k, b, hP, hb, -⟩ := h
  exact ⟨a, k, b, hP, hb⟩

theorem Pierced.of_replaceBy {k : Script.Match} {w a b : Script} {i : Nat} (hboth : k.spell Prod.fst = k.spell Prod.snd)
    (hP : P (k.before ++ w ++ k.after)) (hw : new = spell Prod.fst w) (hw' : new = spell Prod.snd w)
    (hcut : k.before ++ w ++ k.after = a ++ .token (i, i) :: b) (left : Known s s a) (right : Known s s b)
    (carries : Carries s i) (closed : Closed (spell Prod.fst a))
    (stop : (spell Prod.fst b).head?.all (· == '\n') = true) : Pierced P s ((k.spell Prod.fst).replaceBy new) := by
  have hreplace {f : Side} (h : k.spell Prod.fst = k.spell f) (hw : new = spell f w) :
      (k.spell Prod.fst).replaceBy new = spell f (a ++ .token (i, i) :: b) := by
    rw [h, hw, Script.Match.replaceBy_spell, hcut]
  exact ⟨a, i, b, hcut ▸ hP, ⟨left, right, carries, hreplace rfl hw, hreplace hboth hw'⟩, closed, stop⟩

/-- From a text with the hole in it the rule comes to such a text. -/
def Rule.KeepsHole (g : Grammar) (P : Script → Prop) (r : Rule) : Prop :=
  ∀ s t t' s', s.Hollow → Pierced P s t → g.Applies r t s t' s' → s.Le s' ∧ Pierced P s' t'

namespace Rule
variable {name : String} {m : Matcher} {f : Match → Program (Option Text)}

theorem keepsHole_of_round (hp : Progresses g m f) (round : ∀ s t found new s', s.Hollow → Pierced P s t →
      m.find [] t = some found → g.Evaluates (f found) s (some new) s' → s.Le s' ∧ Pierced P s' (found.replaceBy new)) :
    (pattern name m f).KeepsHole g P := by
  intro s t t' s' hs ht h
  rw [applies_pattern, hp.saturates_iff] at h
  induction h with
  | done => exact ⟨.refl _, ht⟩
  | step h he _ _ ih =>
    obtain ⟨hle, hnew⟩ := round _ _ _ _ _ hs ht h he
    obtain ⟨hle', hout⟩ := ih (hs.mono hle) hnew
    exact ⟨hle.trans hle', hout⟩

section
variable {k : Script.Match} {a b c : Script} {i : Nat} (h : ∀ n, Round g n P m f) (hk : k.Cuts k.text)
  (hboth : k.spell Prod.fst = k.spell Prod.snd)
  (h₁ : m.find [] (spell Prod.fst k.text) = some (k.spell Prod.fst))
  (h₂ : m.find [] (spell Prod.snd k.text) = some (k.spell Prod.snd)) (hP : P k.text)
  (he : g.Evaluates (f (k.spell Prod.fst)) s (some new) s')
include h hk hboth h₁ h₂ hP he

theorem Round.same (hknown : Known s s k.whole) : s.Le s' ∧
    ∃ w, P (k.before ++ w ++ k.after) ∧ Known s' s' w ∧ new = spell Prod.fst w ∧ new = spell Prod.snd w := by
  obtain ⟨n, hn⟩ := he
  obtain ⟨r, s₂', hr, hle, -, hrel⟩ := (h n).follows s s k hk h₁ h₂ hP hknown _ _ hn
  rw [← hboth] at hr
  obtain ⟨rfl, rfl⟩ := Evaluates.unique ⟨n, hn⟩ hr
  refine ⟨hle, ?_⟩
  cases hrel with
  | some h => exact h

theorem Round.pierced_behind (hb : Bearing s a i b t) (hclosed : Closed (spell Prod.fst a))
    (hstop : (spell Prod.fst b).head?.all (· == '\n') = true) (ha : a = k.before ++ k.whole ++ c)
    (hv : k.after = c ++ .token (i, i) :: b)
    (left : ∀ x y, spell Prod.fst k.after = x ++ ';' :: y →
      Closed (spell Prod.fst k.before ++ spell Prod.fst k.whole ++ x) → Closed (spell Prod.fst k.before ++ new ++ x)) :
    s.Le s' ∧ Pierced P s' ((k.spell Prod.fst).replaceBy new) := by
  have hpart (x : Script) (hx : x <:+: k.before ++ k.whole ++ c) : Known s s x := hb.left.part (.of_slice (ha ▸ hx))
  have hwhole := hpart k.whole ⟨k.before, c, by simp⟩
  have hbefore := hpart k.before ⟨[], k.whole ++ c, by simp⟩
  have hc := hpart c (List.suffix_append _ _).isInfix
  obtain ⟨hle, w, hPw, hkw, hw, hw'⟩ := Round.same h hk hboth h₁ h₂ hP he hwhole
  have hclosed' : Closed (spell Prod.fst (k.before ++ w ++ c)) := by
    obtain ⟨u, htoken, -⟩ := Token.exists_ofId_eq i
    have hafter : spell Prod.fst k.after = spell Prod.fst c ++ ';' :: (u ++ [';'] ++ spell Prod.fst b) := by
      simp [hv, htoken]
    have hnew := left _ _ hafter (by simpa [ha] using hclosed)
    simpa [hw] using hnew
  exact ⟨hle, .of_replaceBy hboth hPw hw hw' (by simp [hv])
    (((hbefore.mono hle hle).append hkw).append (hc.mono hle hle))
    (hb.right.mono hle hle) (hb.carries.mono hle) hclosed' hstop⟩

/-- The token with the hole stands before the match, and not right before it. -/
theorem Round.pierced_before (hb : Bearing s a i b t) (hclosed : Closed (spell Prod.fst a))
    (hstop : (spell Prod.fst b).head?.all (· == '\n') = true) (hu : k.before = a ++ .token (i, i) :: c)
    (hb' : b = c ++ k.whole ++ k.after) (hne : c ≠ []) : s.Le s' ∧ Pierced P s' ((k.spell Prod.fst).replaceBy new) := by
  have hpart (x : Script) (hx : x <:+: c ++ k.whole ++ k.after) : Known s s x := hb.right.part (.of_slice (hb' ▸ hx))
  have hwhole := hpart k.whole ⟨c, k.after, by simp⟩
  have hc := hpart c ⟨[], k.whole ++ k.after, by simp⟩
  have hafter := hpart k.after (List.suffix_append _ _).isInfix
  obtain ⟨hle, w, hPw, hkw, hw, hw'⟩ := Round.same h hk hboth h₁ h₂ hP he hwhole
  have hstop' : (spell Prod.fst (c ++ w ++ k.after)).head?.all (· == '\n') = true := by
    obtain ⟨x, c, rfl⟩ := List.exists_cons_of_ne_nil hne
    obtain ⟨u, hx⟩ := x.exists_spell_eq Prod.fst
    simpa [hb', hx] using hstop
  exact ⟨hle, .of_replaceBy hboth hPw hw hw' (by simp [hu]) (hb.left.mono hle hle)
    (((hc.mono hle hle).append hkw).append (hafter.mono hle hle)) (hb.carries.mono hle) hclosed hstop'⟩

end

/-- The token with the hole stands behind a match that a rule finds, or before it, or within it. -/
theorem Round.pierced (h : ∀ n, Round g n P m f) (ht : Pierced P s t) (hf : m.find [] t = some found)
    (he : g.Evaluates (f found) s (some new) s')
    (left : ∀ x y, found.after = x ++ ';' :: y → Closed (found.before ++ found.whole ++ x) →
      Closed (found.before ++ new ++ x))
    (right : found.behind.head? = some ';' → (found.whole ++ found.after).head?.all (· == '\n') = false)
    (inside : ∀ (k : Script.Match) x i y, found = k.spell Prod.fst → found = k.spell Prod.snd → P k.text →
      k.whole = x ++ .token (i, i) :: y → Known s s k.before → Known s s k.after → Bearing s x i y found.whole →
      Closed (found.before ++ spell Prod.fst x) → (spell Prod.fst y ++ found.after).head?.all (· == '\n') = true →
      s.Le s' ∧ Pierced P s' (found.replaceBy new)) : s.Le s' ∧ Pierced P s' (found.replaceBy new) := by
  obtain ⟨a, i, b, hP, hb, hclosed, hstop⟩ := ht
  rcases (h 0).matcher _ hP with ⟨hnone, -⟩ | ⟨k, hk, h₁, h₂⟩
  · rw [← hb.fst, hf] at hnone
    contradiction
  obtain rfl : found = k.spell Prod.fst := by
    rw [← hb.fst, hf] at h₁
    exact Option.some.inj h₁
  have hboth : k.spell Prod.fst = k.spell Prod.snd := by
    rw [← hb.snd, hf] at h₂
    exact Option.some.inj h₂
  have htext : k.before ++ k.whole ++ k.after = a ++ .token (i, i) :: b := hk.text
  have hcuts : k.Cuts k.text := ⟨rfl, hk.part⟩
  rw [← htext] at hP h₁ h₂
  have hspell := k.before_spell Prod.fst
  rcases List.append_append_eq_append_cons htext with ⟨c, ha, hv⟩ | ⟨c, hu, hb'⟩ | ⟨c, d, ha, hw, hb'⟩
  · rw [hspell] at left
    exact Round.pierced_behind h hcuts hboth h₁ h₂ hP he hb hclosed hstop ha hv left
  · refine Round.pierced_before h hcuts hboth h₁ h₂ hP he hb hclosed hstop hu hb' ?_
    rintro rfl
    have hbehind : (k.spell Prod.fst).behind.head? = some ';' := by
      change (spell Prod.fst k.before).reverse.head? = some ';'
      rw [List.head?_reverse, getLast?_spell, hu]
      simp
    rw [hb', List.nil_append, spell_append] at hstop
    exact Bool.false_ne_true ((right hbehind).symm.trans hstop)
  · have hleft (x : Script) (hx : x <:+: k.before ++ c) : Known s s x := hb.left.part (.of_slice (ha ▸ hx))
    have hright (x : Script) (hx : x <:+: d ++ k.after) : Known s s x := hb.right.part (.of_slice (hb' ▸ hx))
    have hsnd : (k.spell Prod.fst).whole = spell Prod.snd k.whole := congrArg Markup.Match.whole hboth
    have hbearing : Bearing s c i d (k.spell Prod.fst).whole :=
      ⟨hleft c (List.suffix_append _ _).isInfix, hright d (List.prefix_append _ _).isInfix, hb.carries,
        congrArg (spell Prod.fst) hw, hsnd.trans (congrArg (spell Prod.snd) hw)⟩
    refine inside k c i d rfl hboth hP hw (hleft _ (List.prefix_append _ _).isInfix)
      (hright _ (List.suffix_append _ _).isInfix) hbearing ?_ ?_
    · simpa [hspell, ha] using hclosed
    · rw [hb', spell_append] at hstop
      exact hstop

theorem keepsHole_of_inLine (h : ∀ n, (pattern name m f).Tracks g n P)
    (hl : ∀ t found, m.find [] t = some found → '\n' ∉ found.whole ∧ ∃ d ∈ found.whole, d ∉ Token.alphabet) :
    (pattern name m f).KeepsHole g P := by
  refine keepsHole_of_round (h 0).round.progress fun s t found new s' hs ht hf he => ?_
  obtain ⟨hbreak, d, hd, ha⟩ := hl t found hf
  obtain ⟨p, q, hw⟩ := List.append_of_mem hd
  have hne : d ≠ '\n' := fun h => hbreak (h ▸ hd)
  refine Round.pierced (fun n => (h n).round) ht hf he (fun x y _ hclosed => ?_) (fun _ => ?_)
    fun k x i y _ _ _ _ _ _ hb hclosed hstop => ?_
  · have hsplit : found.before ++ found.whole ++ x = found.before ++ p ++ d :: (q ++ x) := by simp [hw]
    have hafter := Closed.newline_mem (hsplit ▸ hclosed) ha hne
    have hx : '\n' ∈ x := by
      rcases List.mem_append.1 hafter with hq | hx
      · exact absurd (by simp [hw, hq]) hbreak
      · exact hx
    exact hclosed.of_append hx _
  · obtain ⟨e, u, hu⟩ := List.exists_cons_of_ne_nil (List.ne_nil_of_mem hd)
    rw [hu, List.mem_cons, not_or] at hbreak
    simpa [hu] using Ne.symm hbreak.1
  · have hfst : found.whole = spell Prod.fst x ++ Token.ofId i ++ spell Prod.fst y := by simp [hb.fst]
    rw [hfst, List.mem_append, List.mem_append] at hd
    rcases hd with (hd | hd) | hd
    · obtain ⟨p, q, hx⟩ := List.append_of_mem hd
      rw [hx, ← List.append_assoc] at hclosed
      exact absurd (by simp [hfst, hx, hclosed.newline_mem ha hne]) hbreak
    · exact absurd (Token.mem_alphabet hd) ha
    · obtain ⟨e, u, hu⟩ := List.exists_cons_of_ne_nil (List.ne_nil_of_mem hd)
      obtain rfl : e = '\n' := by simpa [hu] using hstop
      exact absurd (by simp [hfst, hu]) hbreak

/-- A rule that takes whole lines. What it takes around the hole, it hides as such. -/
theorem keepsHole_of_lines (h : ∀ n, (pattern name m f).Tracks g n P) (hclean : ∀ k, P k → Clean k)
    (hP : ∀ (k : Script.Match) i, P k.text → Starts (spell Prod.fst k.before) →
      P (k.before ++ [Glyph.token i] ++ k.after))
    (hl : (pattern name m f).HidesLines g)
    (inside : ∀ t found s, m.find [] t = some found → Bears Clean s found.whole → ¬ Untokened found.whole →
      found.after.head?.all (· == '\n') = true ∧ ∃ v, Bears Clean s v ∧ f found = some <$> Program.hide v) :
    (pattern name m f).KeepsHole g P := by
  refine keepsHole_of_round (h 0).round.progress fun s t found new s' hs ht hf he => ?_
  obtain ⟨-, hstart, hstop, hy⟩ := hl m f rfl t found hf
  refine Round.pierced (fun n => (h n).round) ht hf he (fun x y hafter hclosed => ?_) (fun hbehind => ?_)
    fun k x i y h₁ h₂ hk hw hleft hright hb hclosed hstop' => ?_
  · obtain ⟨n, rfl⟩ := hy _ _ _ he
    refine hclosed.replace hstart (hstop.imp_left fun h => ?_) n
    cases x with
    | nil => simp [hafter] at h
    | cons c x => simpa [hafter] using h
  · rw [Match.before, Starts, List.getLast?_reverse, hbehind] at hstart
    exact absurd hstart (by decide)
  · have hpart : Clean k.whole := (hclean _ hk).slice k.whole_infix
    have htokens : ¬ Untokened found.whole := by
      rw [hb.fst, spell_append, spell_cons, Glyph.spell_token, ← List.append_assoc]
      refine Closed.not_untokened (hclosed.of_starts hstart) ?_ i
      cases hy : spell Prod.fst y with
      | nil => rfl
      | cons c t => simpa [hy] using hstop'
    obtain ⟨hstop, v, hv, hhide⟩ := inside t found s hf ⟨x, i, y, hw ▸ hpart, hb⟩ htokens
    rw [hhide] at he
    obtain ⟨hnew, rfl⟩ := Evaluates.unique he (evaluates_hidden v s)
    obtain rfl := Option.some.inj hnew
    have hspell : found.before = spell Prod.fst k.before := h₁ ▸ k.before_spell Prod.fst
    have hle := s.le_mint v
    subst h₁
    refine ⟨hle, .of_replaceBy (w := [.token (s.size, s.size)]) h₂ (hP k _ hk (hspell ▸ hstart)) (by simp) (by simp)
      (by simp) (hleft.mono hle hle) (hright.mono hle hle) hv.carries_mint (hspell ▸ hstart.closed) hstop⟩

theorem keepsHole_all {rules : List Rule} (h : ∀ r ∈ rules, r.KeepsHole g P) (hs : s.Hollow) (ht : Pierced P s t)
    (hr : g.AppliesAll rules t s t' s') : s.Le s' ∧ Pierced P s' t' := by
  induction rules generalizing t s with
  | nil =>
    obtain ⟨_, hr⟩ := hr
    obtain ⟨rfl, rfl⟩ := by simpa [runRules, applyAll] using hr
    exact ⟨.refl s, ht⟩
  | cons r rules ih =>
    obtain ⟨u, mid, hu, hr⟩ := appliesAll_cons.1 hr
    obtain ⟨hle, hmid⟩ := h r List.mem_cons_self _ _ _ _ hs ht hu
    obtain ⟨hle', hout⟩ := ih (fun q hq => h q (List.mem_cons_of_mem r hq)) (hs.mono hle) hmid hr
    exact ⟨hle.trans hle', hout⟩

theorem stage_keepsHole {stage : Stage} (h : ∀ r ∈ g.rules stage, r.KeepsHole g P) :
    (Rule.stage name stage).KeepsHole g P := by
  intro s t t' s' hs ht hr
  obtain ⟨new, hrun, rfl⟩ := applies_stage.1 hr
  obtain ⟨hle, hnew⟩ := keepsHole_all h hs ht (runs_iff.1 hrun)
  rw [if_neg hnew.bears.ne_nil]
  exact ⟨hle, hnew⟩

end Rule
end Markup
