import Markup.Proofs.Line.Seam
import Markup.Proofs.Line.Spares

/-! # Signs along a line

In the place of a match a rule writes tags or a token, and of the signs of other rules only those that the match has. So
what a line promises about the order of its signs it still promises when the rules have run. -/
namespace Markup.Line
open Pattern
variable {a b c l u v w new : Text}

/-- On a line with an arrow no pipe and no caret stands. No image, mention or tag begins behind a caret. -/
structure Orderly (l : Text) : Prop where
  arrow : "->".toList <:+: l → '|' ∉ l ∧ '^' ∉ l
  caret : ∀ u v, l = u ++ '^' :: v → '@' ∉ v ∧ '#' ∉ v ∧ ¬ "[[".toList <:+: v

/-- Where a colon stands behind white space only, it begins the line. -/
def Flush (l : Text) : Prop := ∀ u v, l = u ++ ':' :: v → u ≠ [] → ∃ c ∈ u, isSpace c = false

/-- No white space stands at the end. -/
def Trimmed (l : Text) : Prop := l.getLast?.all (!isSpace ·) = true

instance (l : Text) : Decidable (Trimmed l) := inferInstanceAs (Decidable (_ = true))

theorem orderly_iff : Orderly l ↔ ("->".toList <:+: l → '|' ∉ l ∧ '^' ∉ l) ∧
    ∀ v ∈ l.tails, v.head? = some '^' → '@' ∉ v ∧ '#' ∉ v ∧ ¬ "[[".toList <:+: v := by
  have hsigns {v : Text} : ('@' ∉ '^' :: v ∧ '#' ∉ '^' :: v ∧ ¬ "[[".toList <:+: '^' :: v) ↔
      '@' ∉ v ∧ '#' ∉ v ∧ ¬ "[[".toList <:+: v := by
    have himage : ¬ "[[".toList <+: '^' :: v := fun h => absurd (List.cons_prefix_cons.1 h).1 (by decide)
    have hbehind : "[[".toList <:+: '^' :: v ↔ "[[".toList <:+: v := by
      rw [List.infix_cons_iff, or_iff_right himage]
    have hne {c : Char} (hc : c ≠ '^') : c ∉ '^' :: v ↔ c ∉ v := by simp [hc]
    simp only [hbehind, hne (by decide : '@' ≠ '^'), hne (by decide : '#' ≠ '^')]
  constructor
  · rintro ⟨harrow, hcaret⟩
    refine ⟨harrow, fun w hw hhead => ?_⟩
    obtain ⟨u, rfl⟩ := (List.mem_tails w l).1 hw
    obtain ⟨v, rfl⟩ := List.head?_eq_some_iff.1 hhead
    exact hsigns.2 (hcaret u v rfl)
  · rintro ⟨harrow, hcaret⟩
    refine ⟨harrow, fun u v huv => hsigns.1 (hcaret _ ?_ rfl)⟩
    exact (List.mem_tails _ _).2 ⟨u, huv.symm⟩

instance (l : Text) : Decidable (Orderly l) := decidable_of_iff _ orderly_iff.symm

theorem flush_iff : Flush l ↔ l.head?.any isSpace = true → (l.dropWhile isSpace).head? ≠ some ':' := by
  constructor
  · intro h hhead hcolon
    obtain ⟨v, hv⟩ := List.head?_eq_some_iff.1 hcolon
    have hsplit := List.takeWhile_append_dropWhile (p := isSpace) (l := l)
    rw [hv] at hsplit
    have hne : l.takeWhile isSpace ≠ [] := by
      intro hnil
      rw [hnil] at hsplit
      have hspace : isSpace ':' = true := by simpa [← hsplit] using hhead
      exact absurd hspace (by decide)
    obtain ⟨c, hc, hspace⟩ := h _ v hsplit.symm hne
    simp [List.all_eq_true.1 List.all_takeWhile c hc] at hspace
  · intro h u v huv hne
    by_contra hall
    simp only [not_exists, not_and, Bool.not_eq_false] at hall
    have hcolon : ∀ a ∈ (':' :: v).head?, isSpace a = false := by
      rintro a ⟨⟩
      decide
    obtain ⟨c, w, rfl⟩ := List.exists_cons_of_ne_nil hne
    refine h ?_ ?_
    · rw [huv]
      exact hall c List.mem_cons_self
    · rw [huv, Text.dropWhile_run hall hcolon]
      rfl

instance (l : Text) : Decidable (Flush l) := decidable_of_iff _ flush_iff.symm

/-- What stands in the place of a match: tags at both ends or a token, and no sign that the match has not. Only around
an arrow other matches may be left. -/
structure Dresses (w new : Text) : Prop where
  shape : ∃ a n b, new = a :: n ++ [b] ∧ a ∈ "<;".toList ∧ b ∈ ">;".toList
  line : '\n' ∉ w ∧ '\n' ∉ new
  signs : ∀ c ∈ "|^@#".toList, c ∉ w → c ∉ new
  arrow : "->".toList <:+: w ∨ ∀ c ∈ "-[^".toList, c ∉ new

namespace Dresses
variable {Q : Text → Prop}

theorem head (h : Dresses w new) : ∃ a n, new = a :: n ∧ a ∈ "<;".toList := by
  obtain ⟨a, n, b, rfl, ha, -⟩ := h.shape
  exact ⟨a, n ++ [b], rfl, ha⟩

/-- A stretch of which the tags have nothing stands before them or behind them. -/
theorem infix_sides {d : Char} {m : Text} (h : Dresses w new) (hd : d ∉ new) (hm : ∀ a ∈ "<;".toList, a ∉ m)
    (hi : d :: m <:+: b ++ new ++ c) : d :: m <:+: b ∨ d :: m <:+: c := by
  obtain ⟨a, n, rfl, ha⟩ := h.head
  obtain ⟨u, v, huv⟩ := hi
  rcases List.side_of_stretch hd (hm a ha) huv.symm with ⟨e, rfl, -⟩ | ⟨e, -, rfl⟩
  · exact .inl ⟨u, e, rfl⟩
  · exact .inr ⟨e, v, rfl⟩

theorem forall_lines (h : Dresses w new) (hQ : ∀ b c, Q (b ++ w ++ c) → Q (b ++ new ++ c))
    (hlines : ∀ l ∈ Text.lines (b ++ w ++ c), Q l) : ∀ l ∈ Text.lines (b ++ new ++ c), Q l := by
  obtain ⟨ls, k, hk, hfront⟩ := Text.exists_lines_append b
  have hparts {m : Text} (hm : '\n' ∉ m) :
      Text.lines (b ++ m ++ c) = ls ++ (k ++ m ++ c.line) :: (Text.lines c).tail := by
    have hpart : '\n' ∉ k ++ m := by simp [hk, hm]
    rw [List.append_assoc, hfront, ← List.append_assoc, Text.lines_append_of_not_mem hpart]
  rw [hparts h.line.1, List.forall_mem_append, List.forall_mem_cons] at hlines
  rw [hparts h.line.2, List.forall_mem_append, List.forall_mem_cons]
  exact ⟨hlines.1, hQ _ _ hlines.2.1, hlines.2.2⟩

end Dresses

theorem Orderly.dress (hd : Dresses w new) (h : Orderly (b ++ w ++ c)) : Orderly (b ++ new ++ c) := by
  have hsign {d : Char} (hmem : d ∈ "|^@#".toList) (hold : d ∉ b ++ w ++ c) : d ∉ b ++ new ++ c := by
    simp only [List.mem_append, not_or] at hold ⊢
    exact ⟨⟨hold.1.1, hd.signs d hmem hold.1.2⟩, hold.2⟩
  have hside {m : Text} (hm : m <:+: b ∨ m <:+: c) : m <:+: b ++ w ++ c :=
    hm.elim (fun hb => hb.trans ⟨[], w ++ c, by simp⟩) fun hc => hc.trans (List.suffix_append _ c).isInfix
  rcases hd.arrow with harrow | habsent
  · obtain ⟨hpipe, hcaret⟩ := h.arrow (harrow.trans ⟨b, c, rfl⟩)
    have hcaret' := hsign (d := '^') (by decide) hcaret
    refine ⟨fun _ => ⟨hsign (by decide) hpipe, hcaret'⟩, fun u v huv => ?_⟩
    exact absurd (by simp [huv]) hcaret'
  · refine ⟨fun harrow => ?_, fun u v huv => ?_⟩
    · obtain ⟨hpipe, hcaret⟩ := h.arrow (hside (hd.infix_sides (habsent '-' (by decide)) (by decide) harrow))
      exact ⟨hsign (by decide) hpipe, hsign (by decide) hcaret⟩
    · rcases List.side_of_not_mem (habsent '^' (by decide)) huv with ⟨e, -, rfl⟩ | ⟨e, rfl, rfl⟩
      · exact h.caret (b ++ w ++ e) v (by simp)
      · obtain ⟨hat, hhash, himage⟩ := h.caret u (e ++ w ++ c) (by simp)
        simp only [List.mem_append, not_or] at hat hhash ⊢
        refine ⟨⟨⟨hat.1.1, hd.signs '@' (by decide) hat.1.2⟩, hat.2⟩,
          ⟨⟨hhash.1.1, hd.signs '#' (by decide) hhash.1.2⟩, hhash.2⟩, fun hmem => ?_⟩
        rcases hd.infix_sides (habsent '[' (by decide)) (by decide) hmem with he | hc
        · exact himage (he.trans ⟨[], w ++ c, by simp⟩)
        · exact himage (hc.trans (List.suffix_append _ c).isInfix)

theorem Flush.dress (hd : Dresses w new) (h : Flush (b ++ w ++ c)) : Flush (b ++ new ++ c) := by
  have hsigns : ∀ a ∈ "<;".toList, isSpace a = false ∧ a ≠ ':' := by decide
  obtain ⟨a, n, rfl, ha⟩ := hd.head
  obtain ⟨hspace, hcolon⟩ := hsigns a ha
  intro u v huv hne
  rcases List.append_append_eq_append_cons huv with ⟨e, rfl, -⟩ | ⟨e, rfl, rfl⟩ | ⟨e, f, rfl, htag, -⟩
  · exact ⟨a, by simp, hspace⟩
  · exact h u (e ++ w ++ c) (by simp) hne
  · cases e with
    | nil => exact absurd (List.cons.inj htag).1 hcolon
    | cons d e =>
      obtain ⟨rfl, -⟩ := List.cons.inj htag
      exact ⟨a, by simp, hspace⟩

theorem Trimmed.dress (hd : Dresses w new) (h : Trimmed (b ++ w ++ c)) : Trimmed (b ++ new ++ c) := by
  have hsigns : ∀ d ∈ ">;".toList, isSpace d = false := by decide
  obtain ⟨a, n, d, rfl, -, hlast⟩ := hd.shape
  rw [Trimmed] at h ⊢
  cases c with
  | nil =>
    rw [List.append_nil, ← List.append_assoc, List.getLast?_concat]
    simp [hsigns d hlast]
  | cons d c => rwa [List.getLast?_append_of_ne_nil _ (List.cons_ne_nil d c)] at h ⊢

theorem Orderly.slice (h : Orderly l) (hu : u <:+: l) : Orderly u := by
  obtain ⟨x, y, rfl⟩ := hu
  refine ⟨fun harrow => ?_, fun v w hv => ?_⟩
  · obtain ⟨hpipe, hcaret⟩ := h.arrow (harrow.trans ⟨x, y, rfl⟩)
    exact ⟨fun hmem => hpipe (by simp [hmem]), fun hmem => hcaret (by simp [hmem])⟩
  · obtain ⟨hat, hhash, himage⟩ := h.caret (x ++ v) (w ++ y) (by simp [hv])
    exact ⟨fun hmem => hat (by simp [hmem]), fun hmem => hhash (by simp [hmem]),
      fun hmem => himage (hmem.trans (List.prefix_append w y).isInfix)⟩

theorem Tagged.dresses {absent : Text} (h : Tagged absent new) (hline : '\n' ∉ w)
    (ha : ∀ c ∈ "\n|-[^".toList, c ∈ absent) (hsigns : ∀ c ∈ "@#".toList, c ∉ w → c ∉ new) : Dresses w new where
  shape := by
    obtain ⟨n, rfl⟩ := h.shape
    exact ⟨'<', n, '>', rfl, by decide, by decide⟩
  line := ⟨hline, h.absent '\n' (ha '\n' (by decide))⟩
  signs := by
    have hcases : ∀ c ∈ "|^@#".toList, c ∈ "\n|-[^".toList ∨ c ∈ "@#".toList := by decide
    intro c hc hw
    exact (hcases c hc).elim (fun hc => h.absent c (ha c hc)) fun hc => hsigns c hc hw
  arrow := by
    have hsub : ∀ c ∈ "-[^".toList, c ∈ "\n|-[^".toList := by decide
    exact .inr fun c hc => h.absent c (ha c (hsub c hc))

theorem Replaces.dresses {absent : Text} {m : Match} (h : Replaces absent m new)
    (ha : ∀ c ∈ "\n|-[^".toList, c ∈ absent)
    (hsigns : ∀ c ∈ "@#".toList, c ∈ m.whole ∨ c ∈ absent) : Dresses m.whole new :=
  h.tagged.dresses h.whole.line ha fun c hc hw => h.tagged.absent c ((hsigns c hc).resolve_left hw)

theorem handle_dresses {name sign : String} {accepts : Char → Bool} {c : Char} {absent : Text}
    {f : Match → Program (Option Text)} (hsign : c ∈ sign.toList)
    (h : (Rule.pattern name (word sign ++ group 1 (atLeast 1 accepts)).matcher f).Writes dialect
      (ReplacesSigned absent))
    (ha : ∀ c ∈ "\n|-[^".toList, c ∈ absent) (hsigns : ∀ d ∈ "@#".toList, d = c ∨ d ∈ absent) :
    (Rule.pattern name (word sign ++ group 1 (atLeast 1 accepts)).matcher f).Writes dialect
      fun m new => Dresses m.whole new := by
  refine Rule.writes_pattern fun behind ahead found hf => ?_
  obtain ⟨_, -, -, hw, -⟩ := handle_shape hf
  refine (h _ f rfl behind ahead found hf).imp fun new hnew => hnew.toReplaces.dresses ha fun d hd => ?_
  refine (hsigns d hd).imp_left fun hdc => ?_
  rw [hw, hdc]
  exact List.mem_append_left _ hsign

theorem emphasis_dresses : emphasis.Writes dialect fun m new => Dresses m.whole new := by
  refine Rule.writes_pattern fun behind ahead found hf => ?_
  refine (emphasis_writes_tag _ _ rfl behind ahead found hf).imp fun new h => ?_
  refine h.dresses (emphasis_line hf) (by decide) fun c hc _ => ?_
  have hsub : ∀ c ∈ "@#".toList, c ∈ "\n([^-|@#".toList := by decide
  exact h.absent c (hsub c hc)

theorem link_dresses : link.Writes dialect fun m new => Dresses m.whole new := by
  refine Rule.writes_pattern fun behind ahead found hf => ?_
  have harrow : "->".toList <:+: found.whole := by
    rcases link_shape hf with ⟨target, -, hw, -⟩ | ⟨label, target, -, -, hw, -⟩
    · exact hw ▸ (List.prefix_append _ _).isInfix
    · rw [hw, List.append_assoc, List.append_assoc, List.append_assoc]
      exact (List.prefix_append _ _).isInfix
  have hline := (link_enclosable hf).line
  refine (link_writes_tag _ _ rfl behind ahead found hf).imp fun new h => ?_
  refine ⟨?_, ⟨hline, h.2 '\n' (by decide) hline⟩, ?_, .inl harrow⟩
  · obtain ⟨n, rfl⟩ := h.1
    exact ⟨'<', n, '>', rfl, by decide, by decide⟩
  · have hsub : ∀ c ∈ "|^@#".toList, c ∈ "\n([^|@#".toList := by decide
    exact fun c hc hw => h.2 c (hsub c hc) hw

theorem rules_dress : ∀ r ∈ rules, r.Writes dialect fun m new => Dresses m.whole new := by
  simp only [rules, List.forall_mem_cons]
  refine ⟨emphasis_dresses, link_dresses, ?_, ?_, ?_, ?_, ?_, fun r hr => absurd hr List.not_mem_nil⟩
  · exact image_replaces.imp fun _ _ h => h.dresses (by decide) fun c hc => .inr (by revert c; decide)
  · exact mail_replaces.imp fun _ _ h => h.dresses (by decide) fun c hc => .inr (by revert c; decide)
  · exact handle_dresses (c := '@') (by decide) mention_replaces (by decide) (by decide)
  · exact handle_dresses (c := '#') (by decide) hashtag_replaces (by decide) (by decide)
  · exact superscript_replaces.imp fun _ _ h => h.toReplaces.dresses (by decide) fun c hc => .inr (by revert c; decide)

/-- What holds of every line the rules spare, when tags in the place of a match spare it. -/
theorem rules_spare_lines {Q : Text → Prop} (hQ : ∀ b w new c, Dresses w new → Q (b ++ w ++ c) → Q (b ++ new ++ c)) :
    ∀ r ∈ rules, r.Spares dialect fun t => ∀ l ∈ t.lines, Q l := fun r hr =>
  spares_of_writes hr (rules_dress r hr) fun m new hd ht => by
    rw [Match.replaceBy_eq]
    exact hd.forall_lines (fun b c => hQ b m.whole new c hd) ht

end Markup.Line
