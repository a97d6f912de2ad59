import Markup.Proofs.Rule.Twin
import Markup.Proofs.Script.Tally

/-! # Runs that lose no content

A rule keeps a character when the text it makes has the character at least as often as the text it was given, the tokens
of both resolved. It is enough that every replacement has what its match has. -/
namespace Markup
open Script Grammar

/-- The text means something, and has the character at least `k` times when its tokens are resolved. -/
structure Holds (P : Script → Prop) (s : Store) (c : Char) (k : Nat) (t : Text) : Prop where
  same : Same P s s t t
  le : k ≤ s.tally c t

variable {g : Grammar} {n i j k : Nat} {P Q : Script → Prop} {s s' : Store} {c : Char} {t u v x y : Text}

namespace Holds

theorem imp (h : Holds P s c k t) (hpq : ∀ g, P g → Q g) : Holds Q s c k t := ⟨h.same.imp hpq, h.le⟩

theorem weaken (h : Holds P s c k t) (hk : j ≤ k) : Holds P s c j t := ⟨h.same, hk.trans h.le⟩

theorem clean (h : Holds Solid s c k t) : Holds Clean s c k t := ⟨h.same.clean, h.le⟩

theorem mono (h : Holds Clean s c k t) (hle : s.Le s') : Holds Clean s' c k t :=
  ⟨h.same.mono hle hle, (Sound.tally_eq h.same hle).symm ▸ h.le⟩

theorem mono_solid (h : Holds Solid s c k t) (hle : s.Le s') : Holds Solid s' c k t :=
  ⟨h.same.mono hle hle, (h.clean.mono hle).le⟩

theorem filled (h : Holds Clean s c k t) (ht : t ≠ []) : Holds (Filled True) s c k t := ⟨h.same.filled ht, h.le⟩

theorem of_filled {b : Prop} (h : Holds (Filled b) s c k t) : Holds Clean s c k t := ⟨h.same.of_filled, h.le⟩

theorem unfilled (h : Holds Clean s c k t) : Holds (Filled False) s c k t := ⟨h.same.unfilled, h.le⟩

theorem filled_of_solid (h : Holds Solid s c k t) : Holds (Filled True) s c k t := ⟨h.same.filled_of_solid, h.le⟩

end Holds

theorem Sound.holds (h : Sound s t) (c : Char) : Holds Clean s c (s.tally c t) t := ⟨h, Nat.le_refl _⟩

theorem holds_count_of_walled (ht : walled t = true) : Holds Solid s c (t.count c) t :=
  ⟨same_of_walled ht, Nat.le_of_eq (Store.tally_of_not_mem (semicolon_not_mem_of_walled ht)).symm⟩

theorem holds_of_walled (ht : walled t = true) : Holds Solid s c 0 t :=
  (holds_count_of_walled ht).weaken (Nat.zero_le _)

theorem holds_of_not_mem (ht : ';' ∉ t) : Holds Clean s c 0 t := ⟨same_of_not_mem ht, Nat.zero_le _⟩

namespace Holds

theorem around (hx : Holds Solid s c i x) (ht : Holds Clean s c j t) (hy : Holds Solid s c k y) :
    Holds Solid s c (i + j + k) (x ++ t ++ y) := by
  obtain ⟨⟨g, hg, hkg, rfl, hx'⟩, hi⟩ := hx
  obtain ⟨⟨h, hh, hkh, rfl, ht'⟩, hj⟩ := ht
  obtain ⟨⟨w, hw, hkw, rfl, hy'⟩, hk⟩ := hy
  have hsolid := hg.around hw hh
  refine ⟨⟨g ++ h ++ w, hsolid, (hkg.append hkh).append hkw, by simp, ?_⟩, ?_⟩
  · rw [spell_append, spell_append, ← hx', ← ht', ← hy']
  · have hleft := hsolid.clean.slice (List.prefix_append (g ++ h) w).isInfix
    rw [← spell_append, ← spell_append, Store.tally_append hsolid.clean, Store.tally_append hleft]
    omega

theorem between (hx : Holds Clean s c i x) (ht : Holds Solid s c j t) (hy : Holds Clean s c k y) :
    Holds Clean s c (i + j + k) (x ++ t ++ y) := by
  obtain ⟨⟨g, hg, hkg, rfl, hx'⟩, hi⟩ := hx
  obtain ⟨⟨h, hh, hkh, rfl, ht'⟩, hj⟩ := ht
  obtain ⟨⟨w, hw, hkw, rfl, hy'⟩, hk⟩ := hy
  have hclean := hh g w hg hw
  refine ⟨⟨g ++ h ++ w, hclean, (hkg.append hkh).append hkw, by simp, ?_⟩, ?_⟩
  · rw [spell_append, spell_append, ← hx', ← ht', ← hy']
  · have hleft := hclean.slice (List.prefix_append (g ++ h) w).isInfix
    rw [← spell_append, ← spell_append, Store.tally_append hclean, Store.tally_append hleft]
    omega

theorem append (hx : Holds Solid s c i x) (hy : Holds Solid s c j y) : Holds Solid s c (i + j) (x ++ y) := by
  have hnil : Holds Clean s c 0 [] := holds_of_not_mem List.not_mem_nil
  simpa using hx.around hnil hy

theorem element_count {tag : String} (h : Holds Clean s c k t) (ht : ';' ∉ tag.toList) :
    Holds Solid s c ((Html.opening tag).count c + k + (Html.closing tag).count c) (Html.element tag t) := by
  rw [Html.element_eq]
  exact (holds_count_of_walled (walled_opening ht)).around h (holds_count_of_walled (walled_closing ht))

theorem element {tag : String} (h : Holds Clean s c k t) (ht : ';' ∉ tag.toList) :
    Holds Solid s c k (Html.element tag t) := (h.element_count ht).weaken (by omega)

theorem block {tag : String} (h : Holds Clean s c k t) (ht : ';' ∉ tag.toList) :
    Holds Solid s c k (Html.block tag t) := by
  have hbreak : Holds Solid s c 0 ['\n'] := holds_of_walled (by decide)
  have hinner := hbreak.around h hbreak
  rw [Nat.zero_add, Nat.add_zero] at hinner
  exact hinner.clean.element ht

theorem anchor_count (hx : Holds Clean s c i x) (hy : Holds Clean s c j y) :
    Holds Solid s c (i + j + "<a href=\"".toList.count c) (Html.anchor x y) := by
  have hopen : Holds Solid s c ("<a href=\"".toList.count c) "<a href=\"".toList := holds_count_of_walled (by decide)
  have hmid : Holds Solid s c 0 "\">".toList := holds_of_walled (by decide)
  have hclose : Holds Solid s c 0 "</a>".toList := holds_of_walled (by decide)
  rw [Html.anchor_eq]
  exact ((hopen.around hx hmid).around hy hclose).weaken (by omega)

theorem anchor (hx : Holds Clean s c i x) (hy : Holds Clean s c j y) : Holds Solid s c (i + j) (Html.anchor x y) :=
  (hx.anchor_count hy).weaken (Nat.le_add_right _ _)

theorem image (hx : Holds Clean s c i x) (hy : Holds Clean s c j y) :
    Holds Solid s c (i + j) (Html.image [("src", x), ("alt", y), ("title", y)]) := by
  have hopen : Holds Solid s c 0 "<img src=\"".toList := holds_of_walled (by decide)
  have halt : Holds Solid s c 0 "\" alt=\"".toList := holds_of_walled (by decide)
  have htitle : Holds Solid s c 0 "\" title=\"".toList := holds_of_walled (by decide)
  have hclose : Holds Solid s c 0 "\">".toList := holds_of_walled (by decide)
  rw [Html.image_eq]
  have := ((hopen.around hx halt).around hy htitle).around hy hclose
  exact this.weaken (by omega)

theorem image_unlabelled (hx : Holds Clean s c i x) :
    Holds Solid s c i (Html.image [("src", x), ("alt", [])]) := by
  have hopen : Holds Solid s c 0 "<img src=\"".toList := holds_of_walled (by decide)
  have hclose : Holds Solid s c 0 "\" alt=\"\">".toList := holds_of_walled (by decide)
  rw [Html.image_unlabelled_eq]
  simpa using hopen.around hx hclose

end Holds

/-- Whatever the stages make of a text has the character as often. -/
def Grammar.Preserves (g : Grammar) (n : Nat) (c : Char) : Prop :=
  ∀ stage, stage ≠ .document → ∀ b s t t' s', Same (Filled b) s s t t → g.run n stage t s = some (t', s') →
    s.Le s' ∧ Holds (Filled b) s' c (s.tally c t) t'

/-- When the program ends, `R` holds of the store and the result. -/
def Program.Leads {α : Type} (g : Grammar) (n : Nat) (R : Store → α → Prop) (p : Program α) (s : Store) : Prop :=
  ∀ a s', p.eval (g.run n) s = some (a, s') → s.Le s' ∧ R s' a

namespace Program
variable {α : Type} {R : Store → α → Prop} {p : Text → Program α}

theorem leads_pure {a : α} (h : R s a) : Leads g n R (pure a) s := by
  intro a' s' he
  obtain ⟨rfl, rfl⟩ := by simpa using he
  exact ⟨.refl _, h⟩

theorem leads_some {x : Text} (h : Holds P s c k x) :
    Leads g n (fun s' new => ∀ y, new = some y → Holds P s' c k y) (pure (some x)) s :=
  leads_pure fun _ hy => Option.some.inj hy ▸ h

theorem leads_mint (h : Holds (Filled True) s c k t)
    (hp : ∀ i s', s.Le s' → Linked s' s' (i, i) → k ≤ s'.tally c (Token.ofId i) → Leads g n R (p (Token.ofId i)) s') :
    Leads g n R (hide t >>= p) s := by
  intro a s' he
  have htally : k ≤ (s.mint t).2.tally c (Token.ofId s.size) := (s.tally_mint t).symm ▸ h.le
  have hlink : Linked (s.mint t).2 (s.mint t).2 (s.size, s.size) := by
    obtain ⟨g, hg, hk, hx, hy⟩ := h.same
    have := Twins.linked_mint ⟨hg.1, hk⟩ (hg.2 trivial)
    rwa [← hx, ← hy] at this
  obtain ⟨hle, hr⟩ := hp _ _ (s.le_mint t) hlink htally a s' he
  exact ⟨(s.le_mint t).trans hle, hr⟩

theorem leads_hide (h : Holds (Filled True) s c k t)
    (hp : ∀ u s', s.Le s' → Holds Solid s' c k u → Leads g n R (p u) s') : Leads g n R (hide t >>= p) s :=
  leads_mint h fun _ s' hle hlink htally => hp _ s' hle ⟨same_token hlink, htally⟩

theorem leads_rerun (hg : g.Preserves n c) {stage : Stage} (hs : stage ≠ .document) {b : Prop}
    (h : Holds (Filled b) s c k t)
    (hp : ∀ u s', s.Le s' → Holds (Filled b) s' c k u → Leads g n R (p u) s') :
    Leads g n R (rerun stage t >>= p) s := by
  intro a s' he
  rw [eval_bind, rerun, eval] at he
  cases hr : g.run n stage t s with
  | none => simp [hr] at he
  | some r =>
    obtain ⟨u, mid⟩ := r
    rw [hr] at he
    obtain ⟨hle, hu⟩ := hg stage hs b s t u mid h.same hr
    obtain ⟨hle', hrel⟩ := hp u mid hle (hu.weaken h.le) a s' he
    exact ⟨hle.trans hle', hrel⟩

end Program

theorem Store.tally_replace {a b h h' : Script} {f : Side} (hc : Clean (a ++ h ++ b)) (hc' : Clean (a ++ h' ++ b))
    (hle : s.tally c (spell f h) + j ≤ s.tally c (spell f h')) :
    s.tally c (spell f (a ++ h ++ b)) + j ≤ s.tally c (spell f (a ++ h' ++ b)) := by
  have hleft := hc.slice (List.prefix_append (a ++ h) b).isInfix
  have hleft' := hc'.slice (List.prefix_append (a ++ h') b).isInfix
  rw [tally_append hc, tally_append hc', tally_append hleft, tally_append hleft']
  omega

/-- What a match takes out of a text that means something means something. -/
theorem Script.Match.sound_whole {k : Script.Match} (hc : Clean k.text) (hk : Known s s k.text)
    (hboth : k.spell Prod.fst = k.spell Prod.snd) : Sound s (k.spell Prod.fst).whole := by
  exact ⟨k.whole, hc.slice k.whole_infix, hk.part (.of_slice k.whole_infix), rfl, congrArg Markup.Match.whole hboth⟩

/-- The rule makes texts that have the character as often, within `P`. -/
def Rule.Preserves (g : Grammar) (n : Nat) (P : Script → Prop) (c : Char) (r : Rule) : Prop :=
  ∀ fuel s t t' s', Same P s s t t → r.apply (g.run n) fuel t s = some (t', s') →
    s.Le s' ∧ Holds P s' c (s.tally c t) t'

namespace Rule
variable {name : String} {m : Matcher} {f : Match → Program (Option Text)}

/-- One round: the text has the character more often by as much as the replacement has it more often than the match. -/
theorem holds_of_round {found : Markup.Match} {new : Text} {mid : Store} (hclean : ∀ h, P h → Clean h) (hm : m.Twin P)
    (ht : Same P s s t t) (hf : m.find [] t = some found)
    (round : ∀ k : Script.Match, k.Cuts k.text → spell Prod.fst k.text = t → k.spell Prod.fst = found →
      k.spell Prod.fst = k.spell Prod.snd → P k.text → Known s s k.text →
      Program.Leads g n (fun s' new => ∀ x, new = some x →
          Holds (fun h => P (k.before ++ h ++ k.after)) s' c (s.tally c found.whole + j) x) (f found) s)
    (he : (f found).eval (g.run n) s = some (some new, mid)) :
    s.Le mid ∧ Holds P mid c (s.tally c t + j) (found.replaceBy new) := by
  have hsound := ht
  obtain ⟨h, hP, hk, rfl, hsnd⟩ := ht
  rcases hm h hP with ⟨h₁, -⟩ | ⟨k, hcuts, h₁, h₂⟩
  · rw [h₁] at hf
    contradiction
  · obtain rfl := hcuts.text
    obtain rfl := Option.some.inj (h₁.symm.trans hf)
    have hboth : k.spell Prod.fst = k.spell Prod.snd := by
      rw [← hsnd, h₁] at h₂
      exact Option.some.inj h₂
    obtain ⟨hle, hround⟩ := round k hcuts rfl rfl hboth hP hk _ mid he
    obtain ⟨⟨w, hPw, hkw, hw, hw'⟩, htally⟩ := hround new rfl
    have hpart {v : Script} (hv : v <:+: k.text) : Known mid mid v := (hk.part (.of_slice hv)).mono hle hle
    have hnew : (k.spell Prod.fst).replaceBy new = spell Prod.fst (k.before ++ w ++ k.after) := by
      rw [hw, Script.Match.replaceBy_spell]
    have hnew' : (k.spell Prod.fst).replaceBy new = spell Prod.snd (k.before ++ w ++ k.after) := by
      rw [hw', hboth, Script.Match.replaceBy_spell]
    have hsame : Same P mid mid ((k.spell Prod.fst).replaceBy new) ((k.spell Prod.fst).replaceBy new) :=
      ⟨_, hPw, ((hpart k.before_infix).append hkw).append
        (hpart k.after_infix), hnew, hnew'⟩
    have hwhole := Script.Match.sound_whole (hclean _ hP) hk hboth
    refine ⟨hle, hsame, ?_⟩
    rw [← Sound.tally_eq hwhole hle, hw] at htally
    rw [← Sound.tally_eq (hsound.imp hclean) hle, hnew]
    exact Store.tally_replace (hclean _ hP) (hclean _ hPw) htally

theorem preserves_of_round (hclean : ∀ h, P h → Clean h) (hm : m.Twin P) (hp : Progresses g m f)
    (round : ∀ s (k : Script.Match), k.Cuts k.text → m.find [] (spell Prod.fst k.text) = some (k.spell Prod.fst) →
      k.spell Prod.fst = k.spell Prod.snd → P k.text → Known s s k.text →
      Program.Leads g n (fun s' new => ∀ x, new = some x →
          Holds (fun h => P (k.before ++ h ++ k.after)) s' c (s.tally c (k.spell Prod.fst).whole) x)
        (f (k.spell Prod.fst)) s) : (pattern name m f).Preserves g n P c := by
  intro fuel
  induction fuel with
  | zero =>
    intro _ _ _ _ _ he
    simp [pattern, apply, saturate] at he
  | succ fuel ih =>
    intro s t t' s' ht he
    simp only [pattern, apply] at he ih
    rw [saturate] at he
    cases h₁ : m.find [] t with
    | none =>
      rw [h₁] at he
      obtain ⟨rfl, rfl⟩ := by simpa using he
      exact ⟨.refl _, ht, Nat.le_refl _⟩
    | some found =>
      simp only [h₁] at he
      cases hf : (f found).eval (g.run n) s with
      | none => simp [hf] at he
      | some r =>
        obtain ⟨r, mid⟩ := r
        obtain ⟨new, rfl, hne⟩ := hp.of_evaluates h₁ ⟨n, hf⟩
        have hfilter : (some new).filter (· ≠ found.whole) = some new := by simp [Option.filter, hne]
        simp only [hf, hfilter] at he
        obtain ⟨hle, hround⟩ : s.Le mid ∧ Holds P mid c (s.tally c t + 0) (found.replaceBy new) := by
          refine holds_of_round hclean hm ht h₁ (fun k hk htext hfound hboth hP hknown => ?_) hf
          subst htext hfound
          exact round s k hk h₁ hboth hP hknown
        obtain ⟨hle', hres⟩ := ih mid _ t' s' hround.same he
        exact ⟨hle.trans hle', hres.weaken hround.le⟩

theorem leads_within {b : Prop} {k : Script.Match} {p : Program (Option Text)} (hP : Filled b k.text)
    (h : Program.Leads g n (fun s' new => ∀ x, new = some x → Holds Solid s' c i x) p s) :
    Program.Leads g n (fun s' new => ∀ x, new = some x →
    Holds (fun h => Filled b (k.before ++ h ++ k.after)) s' c i x) p s := by
  intro r mid he
  obtain ⟨hle, hr⟩ := h r mid he
  refine ⟨hle, fun x hx => (hr x hx).imp fun new hnew => ⟨?_, fun _ => by simp [hnew.ne_nil]⟩⟩
  exact hnew _ _ (hP.1.slice k.before_infix) (hP.1.slice k.after_infix)

theorem like_of_cuts {k : Script.Match} {b : Prop} (hk : k.Cuts k.text) (hboth : k.spell Prod.fst = k.spell Prod.snd)
    (hP : Filled b k.text) (hknown : Known s s k.text) : (k.spell Prod.fst).Like s s (k.spell Prod.fst) := by
  have hlike := Markup.Match.like_of_cuts hk ⟨hP.1.slice k.whole_infix, hknown.part (.of_slice k.whole_infix)⟩
  rwa [← hboth] at hlike

theorem preserves_of_solid {b : Prop} (hm : m.Twin fun _ => True) (hp : Progresses g m f)
    (round : ∀ s found, m.find [] found.text = some found → found.Like s s found →
      Program.Leads g n (fun s' new => ∀ x, new = some x → Holds Solid s' c (s.tally c found.whole) x) (f found) s) :
    (pattern name m f).Preserves g n (Filled b) c := by
  refine preserves_of_round (fun _ h => h.1) (fun h _ => hm h trivial) hp fun s k hk h₁ hboth hP hknown => ?_
  exact leads_within hP (round s _ (k.text_spell Prod.fst ▸ h₁) (like_of_cuts hk hboth hP hknown))

theorem holds_of_solid {b : Prop} {found : Markup.Match} {new : Text} {mid : Store} (hm : m.Twin fun _ => True)
    (ht : Same (Filled b) s s t t) (hf : m.find [] t = some found)
    (round : found.Like s s found →
      Program.Leads g n (fun s' new => ∀ x, new = some x → Holds Solid s' c (s.tally c found.whole + j) x) (f found) s)
    (he : (f found).eval (g.run n) s = some (some new, mid)) :
    s.Le mid ∧ Holds (Filled b) mid c (s.tally c t + j) (found.replaceBy new) := by
  refine holds_of_round (fun _ h => h.1) (fun h _ => hm h trivial) ht hf (fun k hk _ hfound hboth hP hknown => ?_) he
  subst hfound
  exact leads_within hP (round (like_of_cuts hk hboth hP hknown))

theorem preserves_stage (hg : g.Preserves n c) {stage : Stage} (hs : stage ≠ .document) {b : Prop} :
    (Rule.stage name stage).Preserves g n (Filled b) c := by
  intro fuel s t t' s' ht he
  have hleads : Program.Leads g n (fun s' new => ∀ x, new = some x → Holds (Filled b) s' c (s.tally c t) x)
      (some <$> Program.rerun stage t) s := by
    rw [map_eq_pure_bind]
    refine Program.leads_rerun hg hs ⟨ht, Nat.le_refl _⟩ fun u s' _ hu => Program.leads_pure fun x hx => ?_
    exact Option.some.inj hx ▸ hu
  simp only [Rule.stage, transform, apply] at he
  cases hp : (some <$> Program.rerun stage t).eval (g.run n) s with
  | none => simp [hp] at he
  | some r =>
    obtain ⟨r, mid⟩ := r
    obtain ⟨hle, hr⟩ := hleads r mid hp
    obtain ⟨rfl, rfl⟩ := by simpa [hp] using he
    refine ⟨hle, ?_⟩
    have hkept : Holds (Filled b) mid c (s.tally c t) t :=
      ⟨ht.mono hle hle, Nat.le_of_eq (Sound.tally_eq ht.of_filled hle).symm⟩
    cases r with
    | none => exact hkept
    | some u =>
      by_cases hu : u = []
      · simpa [Option.filter, hu] using hkept
      · simpa [Option.filter, hu] using hr u rfl

end Rule

theorem Grammar.preserves_of_rules {rules : List Rule} (h : ∀ r ∈ rules, r.Preserves g n P c) (fuel : Nat) {t' : Text}
    (ht : Same P s s t t) (he : applyAll (g.run n) fuel rules t s = some (t', s')) :
    s.Le s' ∧ Holds P s' c (s.tally c t) t' := by
  induction rules generalizing t s with
  | nil =>
    obtain ⟨rfl, rfl⟩ := by simpa [applyAll] using he
    exact ⟨.refl _, ht, Nat.le_refl _⟩
  | cons r rules ih =>
    rw [applyAll] at he
    split at he
    · next u mid hr =>
      obtain ⟨hle, hu⟩ := h r List.mem_cons_self _ _ _ _ _ ht hr
      obtain ⟨hle', hres⟩ := ih (fun q hq => h q (List.mem_cons_of_mem _ hq)) hu.same he
      exact ⟨hle.trans hle', hres.weaken hu.le⟩
    · contradiction

/-- Where the first rule finds something, the count grows by what its first round adds. -/
theorem Grammar.AppliesAll.tally_add_le {r : Rule} {later : List Rule} {m : Matcher} {f : Match → Program (Option Text)}
    {found : Markup.Match} {b : Prop} {out : Text} (h : g.AppliesAll (r :: later) t s out s')
      (ha : r.action = .pattern m f)
    (hm : m.Twin fun _ => True) (hp : Rule.Progresses g m f) (ht : Same (Filled b) s s t t)
      (hf : m.find [] t = some found)
    (round : ∀ n, found.Like s s found →
      Program.Leads g n (fun s' new => ∀ x, new = some x → Holds Solid s' c (s.tally c found.whole + j) x) (f found) s)
    (hkeep : ∀ n, ∀ q ∈ r :: later, q.Preserves g n (Filled b) c) :
    s.Le s' ∧ Holds (Filled b) s' c (s.tally c t + j) out := by
  obtain ⟨new, mid, he, hne⟩ := hp t found s hf
  obtain ⟨n, heval⟩ := he
  obtain ⟨hle, hround⟩ := Rule.holds_of_solid hm ht hf (round n) heval
  obtain ⟨u, between, hfirst, hrest⟩ := appliesAll_cons.1 h
  have hnext : g.AppliesAll (r :: later) (found.replaceBy new) mid out s' :=
    appliesAll_cons.2 ⟨u, between,
      (applies_iff ha).2 ((saturates_step hf ⟨n, heval⟩ hne).1 ((applies_iff ha).1 hfirst)), hrest⟩
  obtain ⟨k, hk⟩ := hnext
  obtain ⟨hle', hres⟩ := preserves_of_rules (hkeep k) k hround.same hk
  exact ⟨hle.trans hle', hres.weaken hround.le⟩

end Markup
